import OpGraph.Draft.Edit
import OpGraph.Pass.Substitution

/-!
# Recipes

A recipe describes a rule as data: edits of the draft, and the nodes that take
the place of a match. Its texts may show the index of the match or name the
tensors of the matched nodes, and its references may go by the place in the
chain, so that one recipe serves many matches.
-/

namespace OpGraph

/-- The match that a recipe is applied to. -/
structure Scene where
  index : Nat := 0
  chain : Chain := []

/-- A way to refer to a node: by its handle, by its place in the chain, or by its name. -/
inductive NodeRef
  | handle (h : Handle)
  | inChain (place : Nat)
  | named (name : String)

/-- What a text can show of a node. -/
inductive NodePart
  | input (place : Nat)
  | output (place : Nat)
  | name
  | op

/-- A text of a recipe: as it stands, with the index of the match in it, or a part of a node of the
chain. -/
inductive Phrase
  | plain (text : String)
  | withIndex (text : String)
  | part (place : Nat) (part : NodePart)

/-- The error for a place that is not there. -/
def missingPlace : Error :=
  .missingField "ref"

namespace NodeRef

/-- The handle that a reference stands for. A node of the chain need not be there any more. -/
def resolve (scene : Scene) (d : Draft) : NodeRef → Except Error Handle
  | handle h => .ok h
  | inChain place => (scene.chain[place]?).elim (.error missingPlace) .ok
  | named name => (d.named? name).elim (.error (.nodeNotFound (.unnamed name))) .ok

end NodeRef

/-- The text of a part of a node. -/
def NodePart.of (node : Node) : NodePart → Except Error String
  | input place => (node.inputs[place]?).elim (.error missingPlace) .ok
  | output place => (node.outputs[place]?).elim (.error missingPlace) .ok
  | name => .ok node.name
  | op => .ok node.op

/-- What a text holds in the place of the index of the match. -/
def indexMark : String := "\x7bi\x7d"

/-- The text that a phrase stands for. -/
def Phrase.resolve (scene : Scene) (d : Draft) : Phrase → Except Error String
  | plain text => .ok text
  | withIndex text => .ok (text.replace indexMark (toString scene.index))
  | part place p => do
    let h ← NodeRef.resolve scene d (.inChain place)
    p.of (← d.require h)

/-- A node whose texts are phrases. -/
structure NodeForm where
  inputs : List Phrase := []
  outputs : List Phrase := []
  op : Phrase := .plain ""
  name : Phrase := .plain ""
  domain : String := ""
  attributes : List Attribute := []

/-- The node that a form stands for. -/
def NodeForm.resolve (scene : Scene) (d : Draft) (form : NodeForm) : Except Error Node := do
  let inputs ← form.inputs.mapM (Phrase.resolve scene d)
  let outputs ← form.outputs.mapM (Phrase.resolve scene d)
  let op ← form.op.resolve scene d
  let name ← form.name.resolve scene d
  return { inputs, outputs, op, name, domain := form.domain, attributes := form.attributes }

/-- An edit whose texts are phrases. The last form is an edit that is not known. -/
inductive EditForm
  | add (node : NodeForm)
  | insertAt (index : Nat) (node : NodeForm)
  | remove (node : NodeRef)
  | keepOps (ops : List String)
  | keepFrom (handle : Handle)
  | renameOutput (node : NodeRef) (source target : Phrase)
  | redirect (source target : Phrase)
  | setInput (node : NodeRef) (target : Phrase) (index : Nat)
  | setOutput (node : NodeRef) (target : Phrase) (index : Nat)
  | addInitializer (tensor : Tensor)
  | removeInitializers (name : Phrase)
  | keepInitializers (names : List String)
  | unknown

namespace EditForm

/-- The edit that a form stands for. -/
def resolve (scene : Scene) (d : Draft) : EditForm → Except Error Edit
  | add node => return .add (← node.resolve scene d)
  | insertAt index node => return .insertAt index (← node.resolve scene d)
  | remove node => return .remove (← node.resolve scene d)
  | keepOps ops => return .keepOps ops
  | keepFrom h => return .keepFrom h
  | renameOutput node source target =>
    return .renameOutput (← node.resolve scene d) (← source.resolve scene d)
      (← target.resolve scene d)
  | redirect source target =>
    return .redirect (← source.resolve scene d) (← target.resolve scene d)
  | setInput node target index =>
    return .setInput (← node.resolve scene d) (← target.resolve scene d) index
  | setOutput node target index =>
    return .setOutput (← node.resolve scene d) (← target.resolve scene d) index
  | addInitializer t => return .addInitializer t
  | removeInitializers name => return .removeInitializers (← name.resolve scene d)
  | keepInitializers names => return .keepInitializers names
  | unknown => throw missingPlace

/-- Apply an edit to a draft. -/
def apply (scene : Scene) (d : Draft) (form : EditForm) : Except Error (EditAnswer × Draft) := do
  (← form.resolve scene d).apply d

end EditForm

/-- One node of a substitution, by reference or by form. -/
inductive ReplacementForm
  | keep (node : NodeRef)
  | insert (node : NodeForm)

/-- The node of a substitution that a form stands for. -/
def ReplacementForm.resolve (scene : Scene) (d : Draft) :
    ReplacementForm → Except Error Replacement
  | keep node => return .keep (← node.resolve scene d)
  | insert node => return .insert (← node.resolve scene d)

/-- What to do with a match: edits in order, then a failure where one is asked for, then the nodes
and initializers that take its place. -/
structure Recipe where
  edits : List EditForm := []
  failure : Option String := none
  nodes : List ReplacementForm := []
  initializers : List Tensor := []

namespace Recipe

/-- Apply the edits of a recipe, up to the first that fails. -/
def edit (scene : Scene) : List EditForm → EStateM Error Draft Unit
  | [] => pure ()
  | form :: forms => do
    match form.apply scene (← get) with
    | .ok (_, d) =>
      set d
      edit scene forms
    | .error e => throw e

/-- The substitution of a recipe for a match. -/
def run (recipe : Recipe) (scene : Scene) : EStateM Error Draft Substitution := do
  edit scene recipe.edits
  if let some field := recipe.failure then throw (.missingField field)
  match recipe.nodes.mapM (ReplacementForm.resolve scene (← get)) with
  | .ok nodes => return { nodes, initializers := recipe.initializers }
  | .error e => throw e

/-- The rule of several recipes: each match has its own, and the last one serves all after it. -/
def rule (recipes : List Recipe) : Rule := fun index chain =>
  (recipes[index]?.getD (recipes.getLast?.getD {})).run { index, chain }

end Recipe

end OpGraph
