import OpGraph.Journal

/-!
# Private constants

The constants and initializers that only fed nodes which are gone go with them.
Where shared tensors are protected, one that some node still reads stays, and so
does an output of the graph.
-/

namespace OpGraph

/-- The removal of constants under way: the draft, what was removed, and what there is to
remark. -/
structure ConstantRemoval where
  draft : Draft
  constants : Nat := 0
  initializers : Nat := 0
  remarks : List Remark := []

namespace Draft

/-- Whether something still needs a tensor. -/
def isShared (d : Draft) (tensor : String) : Bool :=
  d.nodes.any (·.reads tensor) || d.isOutput tensor

/-- Whether a tensor comes from a constant or an initializer. -/
def isConstant (d : Draft) (tensor : String) : Bool :=
  d.nodes.any (fun n => n.isConstant && n.writes tensor) || d.isInitializer tensor

/-- Take out the nodes under some handles. Gives those that were there. -/
def removeAll (d : Draft) : List Handle → List Node × Draft
  | [] => ([], d)
  | h :: hs =>
    let (nodes, rest) := (d.remove h).removeAll hs
    ((d.node? h).toList ++ nodes, rest)

/-- Take out the constants that write a tensor. -/
def removeConstants (d : Draft) (tensor : String) : Draft :=
  d.keepEntries fun e => !(e.node.isConstant && e.node.writes tensor)

end Draft

/-- Remove what a tensor comes from, unless it is protected. -/
def ConstantRemoval.drop (protectShared : Bool) (r : ConstantRemoval) (tensor : String) :
    ConstantRemoval :=
  let d := r.draft
  if protectShared && d.isShared tensor then
    if d.isConstant tensor then { r with remarks := r.remarks ++ [.constantKept tensor] } else r
  else
    { r with
      draft := (d.removeConstants tensor).removeInitializers tensor
      constants := r.constants + (d.constantsWriting tensor).length
      initializers := r.initializers + (d.initializersNamed tensor).length }

/-- The tensors that some nodes read, each once, in the order of their first reading. -/
def tensorsRead (nodes : List Node) : List String :=
  ((nodes.flatMap (·.inputs)).filter (· ≠ "")).eraseDups

/-- Remove the constants and initializers that fed nodes which have been taken out. -/
def Draft.removePrivateConstants (d : Draft) (dropped : List Node) (protectShared : Bool) :
    ConstantRemoval :=
  (tensorsRead dropped).foldl (ConstantRemoval.drop protectShared) { draft := d }

end OpGraph
