import OpGraph.Draft.Query

/-!
# Edits as data

The ways to change a draft, each with what it answers. An edit fails only where
it asks for a place of a node that is not there; the draft is then as it was.
-/

namespace OpGraph

/-- A change of a draft. -/
inductive Edit
  | add (node : Node)
  | insertAt (index : Nat) (node : Node)
  | remove (handle : Handle)
  | keepOps (ops : List String)
  | keepFrom (handle : Handle)
  | renameOutput (handle : Handle) (source target : String)
  | redirect (source target : String)
  | setInput (handle : Handle) (target : String) (index : Nat)
  | setOutput (handle : Handle) (target : String) (index : Nat)
  | addInitializer (tensor : Tensor)
  | removeInitializers (name : String)
  | keepInitializers (names : List String)

/-- What an edit answers. -/
inductive EditAnswer
  | nothing
  | handle (h : Handle)
  | removed (node : Option Node)
  | changed (flag : Bool)
  | count (n : Nat)
  | previous (name : String)

/-- Put a name at a place of a list, and give the name that stood there. -/
def replaceAt (names : List String) (index : Nat) (target : String) :
    Except Error (String × List String) :=
  match names[index]? with
  | some previous => .ok (previous, names.set index target)
  | none => .error (.missingField "ref")

/-- Change a draft. -/
def Edit.apply (d : Draft) : Edit → Except Error (EditAnswer × Draft)
  | add node => .ok (.handle d.next, d.add node)
  | insertAt index node => .ok (.handle d.next, d.insertAt index node)
  | remove h => .ok (.removed (d.node? h), d.remove h)
  | keepOps ops =>
    let rest := d.keepEntries fun e => ops.contains e.node.op
    .ok (.count (d.entries.length - rest.entries.length), rest)
  | keepFrom h =>
    let rest := d.keepEntries fun e => h.index ≤ e.handle.index
    .ok (.count (d.entries.length - rest.entries.length), rest)
  | renameOutput h source target =>
    .ok (.changed ((d.node? h).any (·.writes source)), d.renameOutput h source target)
  | redirect source target => .ok (.count (d.edgeCount source), d.redirect source target)
  | setInput h target index => do
    let node ← d.require h
    let (previous, inputs) ← replaceAt node.inputs index target
    return (.previous previous, d.replace h { node with inputs })
  | setOutput h target index => do
    let node ← d.require h
    let (previous, outputs) ← replaceAt node.outputs index target
    return (.previous previous, d.replace h { node with outputs })
  | addInitializer t => .ok (.nothing, d.addInitializer t)
  | removeInitializers name =>
    .ok (.count (d.initializersNamed name).length, d.removeInitializers name)
  | keepInitializers names =>
    let rest := d.keepInitializers fun t => names.contains t.name
    .ok (.count (d.initializers.length - rest.initializers.length), rest)

end OpGraph
