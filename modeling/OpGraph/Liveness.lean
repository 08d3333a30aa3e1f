import OpGraph.Draft.Query
import Std.Data.HashSet

/-!
# Live tensors

A tensor is live where it lies on a path of data to an output of the graph. The
walk starts from the inputs of the graph, the initializers and the nodes that
read nothing, and carries the path of tensors behind it, with the other inputs
of every node on the way. A path to an output makes all its tensors live. A path
to a tensor that was met before is parked; once the walk is over, a parked path
becomes live with the tensor it ends in, until no more does.

`Draft.liveTensors` is the set of live tensors, and `Draft.withoutDead` keeps
what has part in it.
-/

namespace OpGraph

/-- A path of tensors: the last one, and those before it. -/
structure TensorPath where
  tensor : String
  earlier : List String
deriving DecidableEq

/-- The tensors of a path, the last one first. -/
def TensorPath.tensors (p : TensorPath) : List String :=
  p.tensor :: p.earlier

/-- The paths that go on from a path through a node: past the node's other inputs to each of its
outputs. -/
def TensorPath.through (p : TensorPath) (node : Node) : List TensorPath :=
  let others := node.inputs.filter fun i => i ≠ "" && i ≠ p.tensor
  let earlier := others.foldl (fun path i => i :: path) p.tensors
  (node.outputs.filter (· ≠ "")).map fun o => { tensor := o, earlier }

namespace Draft

/-- The nodes that read a tensor, constant or not. -/
def readersOf (d : Draft) (tensor : String) : List Node :=
  d.nodes.filter fun n => n.reads tensor

/-- The tensors that the walk starts from. -/
def sources (d : Draft) : List String :=
  d.frame.inputs.map (·.name) ++ d.initializers.map (·.name) ++ d.sparseNames ++
    (d.nodes.filter fun n => n.inputs.all (· = "")).flatMap fun n => n.outputs.filter (· ≠ "")

/-- Every tensor that the walk can meet. -/
def walkable (d : Draft) : Std.HashSet String :=
  Std.HashSet.ofList (d.sources ++ d.nodes.flatMap (·.outputs))

/-- The live tensors found so far, and the paths that are parked. -/
structure Walk where
  live : Std.HashSet String := ∅
  parked : List TensorPath := []

/-- Make the tensors of a path live. -/
def markLive (live : Std.HashSet String) (p : TensorPath) : Std.HashSet String :=
  live.insertMany p.tensors

/-- Walk on from a stack of paths. A tensor that was not met yet is looked at and its paths go on;
the path to any other one is parked. -/
def walk (d : Draft) (unmet : Std.HashSet String) : List TensorPath → Walk → Walk
  | [], w => w
  | p :: stack, w =>
    if p.tensor ∈ unmet then
      let live := if d.isOutput p.tensor then markLive w.live p else w.live
      let next := (if p.tensor = "" then [] else d.readersOf p.tensor).flatMap p.through
      walk d (unmet.erase p.tensor) (next.reverse ++ stack) { w with live }
    else walk d unmet stack { w with parked := p :: w.parked }
termination_by stack => (unmet.size, stack.length)
decreasing_by
  · apply Prod.Lex.left
    rw [Std.HashSet.size_erase, if_pos ‹_›]
    have hempty := Std.HashSet.isEmpty_eq_false_iff_exists_mem.2 ⟨p.tensor, ‹_›⟩
    rw [Std.HashSet.isEmpty_eq_size_eq_zero, beq_eq_false_iff_ne] at hempty
    omega
  · apply Prod.Lex.right
    simp

/-- The parked paths to live tensors. -/
def reached (live : Std.HashSet String) (parked : List TensorPath) : List TensorPath :=
  parked.filter fun p => live.contains p.tensor

/-- The parked paths to other tensors. -/
def unreached (live : Std.HashSet String) (parked : List TensorPath) : List TensorPath :=
  parked.filter fun p => !live.contains p.tensor

theorem length_unreached_lt {live : Std.HashSet String} {parked : List TensorPath}
    (h : reached live parked ≠ []) : (unreached live parked).length < parked.length := by
  obtain ⟨p, hp⟩ := List.exists_mem_of_ne_nil _ h
  obtain ⟨hmem, hlive⟩ := List.mem_filter.1 hp
  refine List.length_filter_lt_length_iff_exists.2 ⟨p, hmem, ?_⟩
  simpa using hlive

/-- Make the parked paths to live tensors live, until there is no such path. -/
def settle (live : Std.HashSet String) (parked : List TensorPath) : Std.HashSet String :=
  if reached live parked = [] then live
  else settle ((reached live parked).foldl markLive live) (unreached live parked)
termination_by parked.length
decreasing_by exact length_unreached_lt ‹_›

/-- The tensors on some path of data to an output of the graph. -/
def liveTensors (d : Draft) : Std.HashSet String :=
  let stack := d.sources.reverse.map fun tensor => { tensor, earlier := [] }
  let w := d.walk d.walkable stack {}
  settle w.live w.parked.reverse

/-- The live tensors in the order of their names. -/
def liveNames (d : Draft) : List String :=
  d.liveTensors.toList.mergeSort

/-- The draft with only the nodes that write a live tensor, and the live initializers. -/
def withoutDead (d : Draft) : Draft :=
  let live := d.liveTensors
  (d.keepEntries fun e => e.node.outputs.any live.contains).keepInitializers fun t =>
    live.contains t.name

end Draft

/-- How much a cleanup removes. -/
structure CleanupCount where
  nodes : Nat := 0
  initializers : Nat := 0
deriving DecidableEq

/-- Whether a cleanup removed nothing. -/
def CleanupCount.isEmpty (c : CleanupCount) : Bool :=
  c.nodes == 0 && c.initializers == 0

/-- How much the cleanup of a draft removes. -/
def Draft.cleanupCount (before after : Draft) : CleanupCount :=
  { nodes := before.entries.length - after.entries.length
    initializers := before.initializers.length - after.initializers.length }

end OpGraph
