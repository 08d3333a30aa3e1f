import Mathlib.Data.List.Sort
import Mathlib.Data.Multiset.Basic
import Mathlib.Order.Bounds.Basic
import OpGraph.Proofs.Liveness

/-!
# Live tensors as least sets

What is fed and what is needed are the least sets of tensors that are closed
under the steps of data, forward from the sources and backward from the outputs.
The walk of `Draft.liveTensors` finds where they meet, and what the nodes between
them read besides, on every draft: with cycles, with tensors that nothing defines
and with tensors that are defined twice (`Draft.liveTensors_eq_least`). Nothing
in these sets depends on an order, so neither does what the walk finds, for all
that it is a stack and a table that the order decides on.
-/

namespace OpGraph

/-- The tensors that a node reads and those that it writes, in no order. -/
def Node.tensors (n : Node) : Multiset String × Multiset String :=
  (n.inputs, n.outputs)

theorem Node.tensors_eq_iff {n n' : Node} :
    n.tensors = n'.tensors ↔ n.inputs.Perm n'.inputs ∧ n.outputs.Perm n'.outputs := by
  simp [tensors]

namespace Draft

variable {d d' : Draft} {s : Set String} {t : String}

/-! ### Closed sets -/

/-- A set of tensors that holds the sources and, with something that a node reads, all that the node
writes. -/
structure ClosedForward (d : Draft) (s : Set String) : Prop where
  input : ∀ v ∈ d.frame.inputs, v.name ∈ s
  initializer : ∀ i ∈ d.initializers, i.name ∈ s
  sparse : ∀ t ∈ d.sparseNames, t ∈ s
  start : ∀ n ∈ d.nodes, (∀ i ∈ n.inputs, i = "") → ∀ o ∈ n.outputs, o ≠ "" → o ∈ s
  step : ∀ n ∈ d.nodes, ∀ i ∈ n.inputs, i ≠ "" → i ∈ s → ∀ o ∈ n.outputs, o ≠ "" → o ∈ s

/-- A set of tensors that holds the outputs of the graph and, with something that a node writes, all
that the node reads. -/
structure ClosedBackward (d : Draft) (s : Set String) : Prop where
  output : ∀ v ∈ d.frame.outputs, v.name ∈ s
  step : ∀ n ∈ d.nodes, ∀ o ∈ n.outputs, o ≠ "" → o ∈ s → ∀ i ∈ n.inputs, i ≠ "" → i ∈ s

theorem isLeast_fed (d : Draft) : IsLeast {s | d.ClosedForward s} {t | d.Fed t} := by
  constructor
  · exact
      { input := fun v hv => .input (isInput_iff.2 (List.mem_map_of_mem hv))
        initializer := fun i hi => .initializer (isInitializer_iff.2 (List.mem_map_of_mem hi))
        sparse := fun t ht => .sparse ht
        start := fun n hn hi o ho hone => .start hn hi ho hone
        step := fun n hn i hi hine hfed o ho hone => Fed.step hn hi hine hfed ho hone }
  · intro s (hs : d.ClosedForward s) t ht
    induction ht with
    | input h =>
      obtain ⟨v, hv, rfl⟩ := List.mem_map.1 (isInput_iff.1 h)
      exact hs.input v hv
    | initializer h =>
      obtain ⟨i, hi, rfl⟩ := List.mem_map.1 (isInitializer_iff.1 h)
      exact hs.initializer i hi
    | sparse h => exact hs.sparse _ h
    | start hn hi ho hone => exact hs.start _ hn hi _ ho hone
    | step hn hi hine _ ho hone ih => exact hs.step _ hn _ hi hine ih _ ho hone

theorem isLeast_needed (d : Draft) : IsLeast {s | d.ClosedBackward s} {t | d.Needed t} := by
  constructor
  · exact
      { output := fun v hv => .output (by simpa [isOutput] using ⟨v, hv, rfl⟩)
        step := fun n hn o ho hone hneeded i hi hine => Needed.step hn ho hone hneeded hi hine }
  · intro s (hs : d.ClosedBackward s) t ht
    induction ht with
    | output h =>
      obtain ⟨v, hv, hname⟩ := List.any_eq_true.1 h
      exact decide_eq_true_iff.1 hname ▸ hs.output v hv
    | step hn ho hone _ hi hine ih => exact hs.step _ hn _ ho hone ih _ hi hine

/-! ### Order -/

/-- The same graph in another order: of the nodes and of what each of them reads and writes, and of
the inputs, the outputs and the initializers. -/
structure Rearranges (d d' : Draft) : Prop where
  nodes : (d.nodes.map (·.tensors)).Perm (d'.nodes.map (·.tensors))
  inputs : (d.frame.inputs.map (·.name)).Perm (d'.frame.inputs.map (·.name))
  outputs : (d.frame.outputs.map (·.name)).Perm (d'.frame.outputs.map (·.name))
  initializers : (d.initializers.map (·.name)).Perm (d'.initializers.map (·.name))
  sparse : d.sparseNames.Perm d'.sparseNames

namespace Rearranges

theorem symm (h : d.Rearranges d') : d'.Rearranges d :=
  ⟨h.nodes.symm, h.inputs.symm, h.outputs.symm, h.initializers.symm, h.sparse.symm⟩

theorem exists_node (h : d.Rearranges d') {n : Node} (hn : n ∈ d.nodes) :
    ∃ n' ∈ d'.nodes, n.inputs.Perm n'.inputs ∧ n.outputs.Perm n'.outputs := by
  obtain ⟨n', hn', heq⟩ := List.mem_map.1 (h.nodes.mem_iff.1 (List.mem_map_of_mem hn))
  exact ⟨n', hn', Node.tensors_eq_iff.1 heq.symm⟩

theorem closedForward (h : d.Rearranges d') (hs : d'.ClosedForward s) : d.ClosedForward s where
  input v hv := by
    obtain ⟨v', hv', heq⟩ := List.mem_map.1 (h.inputs.mem_iff.1 (List.mem_map_of_mem hv))
    exact heq ▸ hs.input v' hv'
  initializer i hi := by
    obtain ⟨i', hi', heq⟩ := List.mem_map.1 (h.initializers.mem_iff.1 (List.mem_map_of_mem hi))
    exact heq ▸ hs.initializer i' hi'
  sparse t ht := hs.sparse t (h.sparse.mem_iff.1 ht)
  start n hn hi o ho hone := by
    obtain ⟨n', hn', hinputs, houtputs⟩ := h.exists_node hn
    exact hs.start n' hn' (fun i hi' => hi i (hinputs.mem_iff.2 hi')) o (houtputs.mem_iff.1 ho) hone
  step n hn i hi hine his o ho hone := by
    obtain ⟨n', hn', hinputs, houtputs⟩ := h.exists_node hn
    exact hs.step n' hn' i (hinputs.mem_iff.1 hi) hine his o (houtputs.mem_iff.1 ho) hone

theorem closedBackward (h : d.Rearranges d') (hs : d'.ClosedBackward s) : d.ClosedBackward s where
  output v hv := by
    obtain ⟨v', hv', heq⟩ := List.mem_map.1 (h.outputs.mem_iff.1 (List.mem_map_of_mem hv))
    exact heq ▸ hs.output v' hv'
  step n hn o ho hone hos i hi hine := by
    obtain ⟨n', hn', hinputs, houtputs⟩ := h.exists_node hn
    exact hs.step n' hn' o (houtputs.mem_iff.1 ho) hone hos i (hinputs.mem_iff.1 hi) hine

theorem fed (h : d.Rearranges d') (ht : d.Fed t) : d'.Fed t :=
  d.isLeast_fed.2 (h.closedForward d'.isLeast_fed.1) ht

theorem needed (h : d.Rearranges d') (ht : d.Needed t) : d'.Needed t :=
  d.isLeast_needed.2 (h.closedBackward d'.isLeast_needed.1) ht

theorem onDataPath (h : d.Rearranges d') (ht : d.OnDataPath t) : d'.OnDataPath t := by
  rcases ht with ⟨hfed, hneeded⟩ | ⟨n, hn, ht, hne, ⟨i, hi, hine, hfed⟩, o, ho, hone, hneeded⟩
  · exact .inl ⟨h.fed hfed, h.needed hneeded⟩
  · obtain ⟨n', hn', hinputs, houtputs⟩ := h.exists_node hn
    exact .inr ⟨n', hn', hinputs.mem_iff.1 ht, hne, ⟨i, hinputs.mem_iff.1 hi, hine, h.fed hfed⟩,
      o, houtputs.mem_iff.1 ho, hone, h.needed hneeded⟩

end Rearranges

/-- The names that the walk finds are listed in their own order. -/
theorem liveNames_congr (h : ∀ t, t ∈ d.liveTensors ↔ t ∈ d'.liveTensors) :
    d.liveNames = d'.liveNames := by
  have hnodup : ∀ d : Draft, d.liveTensors.toList.Nodup := fun d =>
    d.liveTensors.distinct_toList.imp fun hne => by simpa using hne
  have hperm : d.liveTensors.toList.Perm d'.liveTensors.toList := by
    rw [List.perm_ext_iff_of_nodup (hnodup d) (hnodup d')]
    simpa only [Std.HashSet.mem_toList] using h
  have hsorted : ∀ l : List String, l.mergeSort.Pairwise (· ≤ ·) := fun l =>
    List.pairwise_mergeSort' (· ≤ ·) l
  refine List.Perm.eq_of_pairwise (fun a b _ _ => String.le_antisymm) (hsorted _) (hsorted _) ?_
  exact (List.mergeSort_perm _ _).trans (hperm.trans (List.mergeSort_perm _ _).symm)

/-- **What the walk finds.** On every draft there are a least set of tensors that is closed forward
from the sources and a least one that is closed backward from the outputs. The walk finds the
tensors in both of them, and the inputs of the nodes that read something in the first one and write
something in the second one. In whatever order the draft is written down, the walk finds the
same. -/
theorem liveTensors_eq_least (d : Draft) :
    ∃ fed needed : Set String,
      IsLeast {s | d.ClosedForward s} fed ∧ IsLeast {s | d.ClosedBackward s} needed ∧
      {t | t ∈ d.liveTensors} =
        fed ∩ needed ∪
          {t | t ≠ "" ∧ ∃ n ∈ d.nodes, t ∈ n.inputs ∧ (∃ i ∈ n.inputs, i ≠ "" ∧ i ∈ fed) ∧
            ∃ o ∈ n.outputs, o ≠ "" ∧ o ∈ needed} ∧
      ∀ d', d.Rearranges d' →
        (∀ t, t ∈ d'.liveTensors ↔ t ∈ d.liveTensors) ∧ d'.liveNames = d.liveNames := by
  refine ⟨{t | d.Fed t}, {t | d.Needed t}, d.isLeast_fed, d.isLeast_needed, ?_, fun d' h => ?_⟩
  · ext t
    refine mem_liveTensors.trans (or_congr_right ?_)
    constructor
    · rintro ⟨n, hn, ht, hne, hnode⟩
      exact ⟨hne, n, hn, ht, hnode⟩
    · rintro ⟨hne, n, hn, ht, hnode⟩
      exact ⟨n, hn, ht, hne, hnode⟩
  · have hlive : ∀ t, t ∈ d'.liveTensors ↔ t ∈ d.liveTensors := fun t => by
      rw [mem_liveTensors, mem_liveTensors]
      exact ⟨h.symm.onDataPath, h.onDataPath⟩
    exact ⟨hlive, liveNames_congr hlive⟩

/-- A graph with a cycle, a tensor that nothing defines and a tensor that is defined twice. -/
def tangledGraph : Graph where
  nodes :=
    [{ op := "Add", inputs := ["x", "b"], outputs := ["a"] },
      { op := "Mul", inputs := ["a", "u"], outputs := ["b", "y"] },
      { op := "Neg", inputs := ["w"], outputs := ["", "y"] }]
  initializers := [{ name := "w" }, { name := "v" }]
  inputs := [{ name := "x" }]
  outputs := [{ name := "y" }]

/-- The same graph, written down from its end. -/
def untangledGraph : Graph where
  nodes :=
    [{ op := "Neg", inputs := ["w"], outputs := ["y", ""] },
      { op := "Mul", inputs := ["u", "a"], outputs := ["y", "b"] },
      { op := "Add", inputs := ["b", "x"], outputs := ["a"] }]
  initializers := [{ name := "v" }, { name := "w" }]
  inputs := [{ name := "x" }]
  outputs := [{ name := "y" }]

theorem liveTensors_eq_least_tangled :
    let d := ofGraph tangledGraph
    let d' := ofGraph untangledGraph
    d.Rearranges d' ∧ d'.liveNames = d.liveNames ∧ "u" ∈ d'.liveTensors ∧ "v" ∉ d'.liveTensors := by
  intro d d'
  have hrearranges : d.Rearranges d' := ⟨by decide, by decide, by decide, by decide, by decide⟩
  obtain ⟨fed, needed, hfed, hneeded, hlive, horder⟩ := liveTensors_eq_least d
  obtain ⟨hmem, hnames⟩ := horder d' hrearranges
  have hforward : d.ClosedForward fed := hfed.1
  have hbackward : d.ClosedBackward needed := hneeded.1
  have hx : "x" ∈ fed := hforward.input _ List.mem_cons_self
  have ha : "a" ∈ fed :=
    hforward.step _ (.head _) "x" (by decide) (by decide) hx "a" (by decide) (by decide)
  have hy : "y" ∈ needed := hbackward.output _ List.mem_cons_self
  have hu : "u" ∈ d.liveTensors :=
    hlive.ge (.inr ⟨by decide, _, .tail _ (.head _), by decide, ⟨"a", by decide, by decide, ha⟩,
      "y", by decide, by decide, hy⟩)
  have hv : "v" ∉ d.liveTensors := by
    -- nothing reads the tensor, so a set can be closed backward without it
    have hunread : ∀ n ∈ d.nodes, "v" ∉ n.inputs := by decide
    have hclosed : d.ClosedBackward {t | t ≠ "v"} :=
      ⟨by decide, fun n hn _ _ _ _ i hi _ heq => hunread n hn (heq ▸ hi)⟩
    intro hv
    rcases hlive.le hv with ⟨-, hv⟩ | ⟨-, n, hn, hv, -⟩
    · exact hneeded.2 hclosed hv rfl
    · exact hunread n hn hv
  exact ⟨hrearranges, hnames, (hmem _).2 hu, fun h => hv ((hmem _).1 h)⟩

end Draft

end OpGraph
