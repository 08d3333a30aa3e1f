import OpGraph.Model.Node

/-!
# Drafts

A draft is a graph under edit. Its nodes stand in order, each under a handle
that no other node has or ever had; initializers come and go; the rest of the
graph, its frame, stays as it is. `Draft.ofGraph` starts an edit and
`Draft.toGraph` ends it: the two lose nothing but the repeated names among the
inputs and outputs of the graph (`toGraph_ofGraph`).
-/

namespace OpGraph

/-- The name of a node of a graph under edit. It stays with the node wherever the node moves, and no
other node gets it later. Its index has no bound: the allocation of number 2^32, where a counter of
32 bits ends, is not modelled. -/
structure Handle where
  index : Nat
deriving DecidableEq, Inhabited

/-- How a handle is shown. -/
def Handle.display (h : Handle) : String :=
  s!"#{h.index}"

/-- A node of a draft under its handle. -/
structure Entry where
  handle : Handle
  node : Node

/-- A graph under edit. The handles below `fresh` have been given out. Like the index of a handle,
`fresh` has no bound, and the allocation of number 2^32 is not modelled. -/
@[ext]
structure Draft where
  frame : Graph
  entries : List Entry
  fresh : Nat
  initializers : List Tensor
  handles_nodup : (entries.map (·.handle)).Nodup
  handle_lt_fresh : ∀ e ∈ entries, e.handle.index < fresh

/-- The first value of each name, in order. -/
def firstPerName : List ValueInfo → List ValueInfo
  | [] => []
  | v :: vs => v :: (firstPerName vs).filter fun w => w.name ≠ v.name

/-- A list with one more element at a position, or at the end where the position lies beyond it. -/
def placeAt (l : List α) (index : Nat) (a : α) : List α :=
  l.take index ++ a :: l.drop index

theorem placeAt_perm (l : List α) (index : Nat) (a : α) : (placeAt l index a).Perm (a :: l) := by
  have h := @List.perm_middle _ a (l.take index) (l.drop index)
  rwa [List.take_append_drop] at h

@[simp] theorem mem_placeAt {l : List α} {index : Nat} {a b : α} :
    b ∈ placeAt l index a ↔ b = a ∨ b ∈ l := by
  rw [(placeAt_perm l index a).mem_iff, List.mem_cons]

/-- Put nodes under consecutive handles. -/
def Entry.number : Nat → List Node → List Entry
  | _, [] => []
  | n, node :: nodes => ⟨⟨n⟩, node⟩ :: number (n + 1) nodes

namespace Entry

@[simp] theorem number_node (n : Nat) (nodes : List Node) :
    (number n nodes).map (·.node) = nodes := by
  induction nodes generalizing n with
  | nil => rfl
  | cons node nodes ih => simp [number, ih]

theorem handle_of_mem_number {n : Nat} {nodes : List Node} {e : Entry} (h : e ∈ number n nodes) :
    n ≤ e.handle.index ∧ e.handle.index < n + nodes.length := by
  induction nodes generalizing n with
  | nil => simp [number] at h
  | cons node nodes ih =>
    rcases List.mem_cons.1 h with rfl | h
    · simp
    · have := ih h
      simp only [List.length_cons]
      omega

theorem number_handles_nodup (n : Nat) (nodes : List Node) :
    ((number n nodes).map (·.handle)).Nodup := by
  induction nodes generalizing n with
  | nil => simp [number]
  | cons node nodes ih =>
    simp only [number, List.map_cons, List.nodup_cons, List.mem_map, not_exists, not_and]
    refine ⟨fun e he heq => ?_, ih (n + 1)⟩
    have := (handle_of_mem_number he).1
    rw [heq] at this
    exact absurd this (by simp)

/-- Handles stay distinct where a new one joins them. -/
theorem handles_nodup_placeAt {entries : List Entry} {e : Entry} (index : Nat)
    (hnodup : (entries.map (·.handle)).Nodup) (he : ∀ o ∈ entries, o.handle ≠ e.handle) :
    ((placeAt entries index e).map (·.handle)).Nodup := by
  rw [((placeAt_perm entries index e).map _).nodup_iff, List.map_cons, List.nodup_cons]
  refine ⟨fun hmem => ?_, hnodup⟩
  obtain ⟨o, ho, heq⟩ := List.mem_map.1 hmem
  exact he o ho heq

end Entry

namespace Draft

/-- Start to edit a graph: its nodes get the handles from zero on. -/
def ofGraph (g : Graph) : Draft where
  frame :=
    { g with
      nodes := []
      initializers := []
      inputs := firstPerName g.inputs
      outputs := firstPerName g.outputs }
  entries := Entry.number 0 g.nodes
  fresh := g.nodes.length
  initializers := g.initializers
  handles_nodup := Entry.number_handles_nodup 0 g.nodes
  handle_lt_fresh := fun e he => by simpa using (Entry.handle_of_mem_number he).2

/-- The nodes of a draft in order. -/
def nodes (d : Draft) : List Node :=
  d.entries.map (·.node)

/-- The handles of a draft in order. -/
def handles (d : Draft) : List Handle :=
  d.entries.map (·.handle)

/-- The edited graph. -/
def toGraph (d : Draft) : Graph :=
  { d.frame with nodes := d.nodes, initializers := d.initializers }

/-- An edit that changes nothing keeps the graph, with the first entry of each name among its
inputs and its outputs. -/
theorem toGraph_ofGraph (g : Graph) :
    (ofGraph g).toGraph =
      { g with inputs := firstPerName g.inputs, outputs := firstPerName g.outputs } := by
  simp [toGraph, ofGraph, nodes]

/-- A draft with some entries left out. -/
def keepEntries (d : Draft) (keep : Entry → Bool) : Draft :=
  { d with
    entries := d.entries.filter keep
    handles_nodup := d.handles_nodup.sublist (List.filter_sublist.map _)
    handle_lt_fresh := fun e he => d.handle_lt_fresh e (List.mem_filter.1 he).1 }

/-- A draft with its nodes changed in place. -/
def mapNodes (d : Draft) (f : Entry → Node) : Draft :=
  { d with
    entries := d.entries.map fun e => ⟨e.handle, f e⟩
    handles_nodup := by simpa [Function.comp_def] using d.handles_nodup
    handle_lt_fresh := by simpa using d.handle_lt_fresh }

/-- The handle that the next new node gets. -/
def next (d : Draft) : Handle :=
  ⟨d.fresh⟩

/-- No node has the next handle. -/
theorem handle_ne_next (d : Draft) {e : Entry} (he : e ∈ d.entries) : e.handle ≠ d.next := by
  intro heq
  have hlt := d.handle_lt_fresh e he
  rw [heq] at hlt
  exact absurd hlt (Nat.lt_irrefl _)

/-- Put a new node at a position, or at the end where the position lies beyond it. -/
def insertAt (d : Draft) (index : Nat) (node : Node) : Draft :=
  { d with
    entries := placeAt d.entries index ⟨d.next, node⟩
    fresh := d.fresh + 1
    handles_nodup :=
      Entry.handles_nodup_placeAt index d.handles_nodup fun _ he => d.handle_ne_next he
    handle_lt_fresh := fun e he => by
      rcases mem_placeAt.1 he with rfl | h
      · exact Nat.lt_succ_self _
      · exact Nat.lt_succ_of_lt (d.handle_lt_fresh e h) }

/-- Put a new node at the end. -/
def add (d : Draft) (node : Node) : Draft :=
  d.insertAt d.entries.length node

/-- Put a node back under a handle that it had before. Nothing happens where a node has the handle
now, or none ever had it. -/
def restoreAt (d : Draft) (index : Nat) (e : Entry) : Draft :=
  if h : (∀ o ∈ d.entries, o.handle ≠ e.handle) ∧ e.handle.index < d.fresh then
    { d with
      entries := placeAt d.entries index e
      handles_nodup := Entry.handles_nodup_placeAt index d.handles_nodup h.1
      handle_lt_fresh := fun o ho => by
        rcases mem_placeAt.1 ho with rfl | ho
        · exact h.2
        · exact d.handle_lt_fresh o ho }
  else d

/-- Take a node out. -/
def remove (d : Draft) (h : Handle) : Draft :=
  d.keepEntries fun e => e.handle ≠ h

/-- Rename an output of one node. -/
def renameOutput (d : Draft) (h : Handle) (source target : String) : Draft :=
  d.mapNodes fun e => if e.handle = h then e.node.renameOutput source target else e.node

/-- Rename an output of every node that writes it. -/
def renameOutputs (d : Draft) (source target : String) : Draft :=
  d.mapNodes fun e => e.node.renameOutput source target

/-- Let every reader of a tensor read another one. -/
def redirect (d : Draft) (source target : String) : Draft :=
  d.mapNodes fun e => e.node.renameInput source target

/-- Put another node under a handle. -/
def replace (d : Draft) (h : Handle) (node : Node) : Draft :=
  d.mapNodes fun e => if e.handle = h then node else e.node

/-- Add an initializer at the end. -/
def addInitializer (d : Draft) (t : Tensor) : Draft :=
  { d with initializers := d.initializers ++ [t] }

/-- Leave out some initializers. -/
def keepInitializers (d : Draft) (keep : Tensor → Bool) : Draft :=
  { d with initializers := d.initializers.filter keep }

/-- Leave out the initializers of a name. -/
def removeInitializers (d : Draft) (name : String) : Draft :=
  d.keepInitializers fun t => t.name ≠ name

end Draft

end OpGraph
