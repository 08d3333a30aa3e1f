import Mathlib.Tactic.Push
import OpGraph.Liveness

/-!
# Data flow

Tensors flow from the inputs and initializers of a graph through its nodes to its
outputs. A tensor is *fed* where a path of data leads to it, and *needed* where
one leads from it to an output; both are least sets, on any draft, cyclic or
not. Where a draft is acyclic and every tensor that a node reads has a source,
all that its nodes read and write is fed (`Draft.Acyclic.fed_of_mem_inputs`,
`Draft.Acyclic.fed_of_mem_outputs`).
-/

namespace OpGraph.Draft

variable {d : Draft}

theorem mem_nodes {n : Node} : n ∈ d.nodes ↔ ∃ e ∈ d.entries, e.node = n := by
  simp [nodes]

theorem node_mem_nodes {e : Entry} (he : e ∈ d.entries) : e.node ∈ d.nodes :=
  mem_nodes.2 ⟨e, he, rfl⟩

/-! ### Sources -/

theorem isInput_iff {t : String} : d.isInput t ↔ t ∈ d.frame.inputs.map (·.name) := by
  simp [isInput]

theorem isInitializer_iff {t : String} :
    d.isInitializer t ↔ t ∈ d.initializers.map (·.name) := by
  simp [isInitializer]

/-- A tensor has a source where it is an input, an initializer, a sparse initializer or written by
a node. -/
theorem isDefined_iff {t : String} :
    d.isDefined t ↔
      d.isInput t ∨ d.isInitializer t ∨ t ∈ d.sparseNames ∨ ∃ n ∈ d.nodes, t ∈ n.outputs := by
  simp [isDefined, Node.writes, or_assoc]

theorem isDefined_of_mem {e : Entry} {t : String} (he : e ∈ d.entries) (ht : t ∈ e.node.outputs) :
    d.isDefined t :=
  isDefined_iff.2 (.inr (.inr (.inr ⟨e.node, node_mem_nodes he, ht⟩)))

/-- Nothing dangles where every tensor that a node reads has a source. -/
theorem dangling_eq_nil_iff :
    d.dangling = [] ↔ ∀ n ∈ d.nodes, ∀ i ∈ n.inputs, i ≠ "" → d.isDefined i := by
  rw [List.eq_nil_iff_forall_not_mem]
  simp only [dangling, List.mem_eraseDups, List.mem_filter, List.mem_flatMap, Bool.and_eq_true,
    decide_eq_true_eq, Bool.not_eq_true', not_and, Bool.not_eq_false, ne_eq, forall_exists_index,
    and_imp]
  exact ⟨fun h n hn i hi => h i n hn hi, fun h i n hn hi => h n hn i hi⟩

/-- Nodes that read nothing are the ones whose inputs are all left out. -/
theorem mem_sources {t : String} :
    t ∈ d.sources ↔ d.isInput t ∨ d.isInitializer t ∨ t ∈ d.sparseNames ∨
      ∃ n ∈ d.nodes, (∀ i ∈ n.inputs, i = "") ∧ t ∈ n.outputs ∧ t ≠ "" := by
  simp [sources, isInput_iff, isInitializer_iff, and_assoc]

/-! ### Paths of data -/

/-- A tensor that data reaches: an input, an initializer, what a node writes that reads nothing,
and what a node writes that reads such a tensor. -/
inductive Fed (d : Draft) : String → Prop
  | input {t : String} (h : d.isInput t) : Fed d t
  | initializer {t : String} (h : d.isInitializer t) : Fed d t
  | sparse {t : String} (h : t ∈ d.sparseNames) : Fed d t
  | start {n : Node} {t : String} (hn : n ∈ d.nodes) (hi : ∀ i ∈ n.inputs, i = "")
      (ht : t ∈ n.outputs) (hne : t ≠ "") : Fed d t
  | step {n : Node} {i o : String} (hn : n ∈ d.nodes) (hi : i ∈ n.inputs) (hine : i ≠ "")
      (hfed : Fed d i) (ho : o ∈ n.outputs) (hone : o ≠ "") : Fed d o

/-- A tensor that an output of the graph depends on: an output itself, and what a node reads that
writes such a tensor. -/
inductive Needed (d : Draft) : String → Prop
  | output {t : String} (h : d.isOutput t) : Needed d t
  | step {n : Node} {i o : String} (hn : n ∈ d.nodes) (ho : o ∈ n.outputs) (hone : o ≠ "")
      (hneeded : Needed d o) (hi : i ∈ n.inputs) (hine : i ≠ "") : Needed d i

theorem fed_of_mem_sources {t : String} (h : t ∈ d.sources) : d.Fed t := by
  rcases mem_sources.1 h with h | h | h | ⟨n, hn, hi, ht, hne⟩
  · exact .input h
  · exact .initializer h
  · exact .sparse h
  · exact .start hn hi ht hne

/-- A tensor without a name is needed only where an output has no name. -/
theorem Needed.ne_empty {t : String} (h : d.Needed t) (hout : d.isOutput "" = false) : t ≠ "" := by
  cases h with
  | output h =>
    rintro rfl
    simp [hout] at h
  | step _ _ _ _ _ hine => exact hine

/-! ### Drafts within drafts -/

/-- A draft is within another one where the frames are the same and its nodes and initializers are
among those of the other. -/
structure Within (d d' : Draft) : Prop where
  frame : d.frame = d'.frame
  nodes : ∀ n ∈ d.nodes, n ∈ d'.nodes
  initializers : ∀ t, d.isInitializer t → d'.isInitializer t

variable {d' : Draft} {t : String}

theorem Fed.mono (hwithin : d.Within d') (h : d.Fed t) : d'.Fed t := by
  induction h with
  | input h =>
    rw [isInput, hwithin.frame] at h
    exact .input h
  | initializer h => exact .initializer (hwithin.initializers _ h)
  | sparse h =>
    rw [sparseNames, hwithin.frame] at h
    exact .sparse h
  | start hn hi ht hne => exact .start (hwithin.nodes _ hn) hi ht hne
  | step hn hi hine _ ho hone ih => exact .step (hwithin.nodes _ hn) hi hine ih ho hone

theorem Needed.mono (hwithin : d.Within d') (h : d.Needed t) : d'.Needed t := by
  induction h with
  | output h =>
    rw [isOutput, hwithin.frame] at h
    exact .output h
  | step hn ho hone _ hi hine ih => exact .step (hwithin.nodes _ hn) ho hone ih hi hine

/-! ### Acyclic drafts -/

/-- Nodes go up by rank: a node ranks below every node that reads what it writes. -/
def Ranked (d : Draft) (rank : Handle → Nat) : Prop :=
  ∀ e ∈ d.entries, ∀ e' ∈ d.entries, ∀ t ∈ e.node.outputs, t ≠ "" → t ∈ e'.node.inputs →
    rank e.handle < rank e'.handle

/-- Some rank goes up from each node to every node that reads what it writes. -/
def Acyclic (d : Draft) : Prop :=
  ∃ rank, d.Ranked rank

/-- Where a node is fed by its input, so is what it writes. -/
theorem fed_outputs {n : Node} (hn : n ∈ d.nodes)
    (hfed : ∀ i ∈ n.inputs, i ≠ "" → d.Fed i) {o : String} (ho : o ∈ n.outputs) (hone : o ≠ "") :
    d.Fed o := by
  by_cases h : ∀ i ∈ n.inputs, i = ""
  · exact .start hn h ho hone
  · push Not at h
    obtain ⟨i, hi, hine⟩ := h
    exact .step hn hi hine (hfed i hi hine) ho hone

/-- In an acyclic draft where nothing dangles, all that is read is fed. -/
theorem Acyclic.fed_of_mem_inputs (h : d.Acyclic) (hdangling : d.dangling = []) {n : Node}
    (hn : n ∈ d.nodes) {i : String} (hi : i ∈ n.inputs) (hine : i ≠ "") : d.Fed i := by
  obtain ⟨rank, hrank⟩ := h
  obtain ⟨e, he, rfl⟩ := mem_nodes.1 hn
  induction hr : rank e.handle using Nat.strongRecOn generalizing e i with
  | _ r ih =>
    subst hr
    rcases isDefined_iff.1 (dangling_eq_nil_iff.1 hdangling _ hn i hi hine) with
      h | h | h | ⟨m, hm, ho⟩
    · exact .input h
    · exact .initializer h
    · exact .sparse h
    -- the writer ranks lower, so all that it reads is fed already
    · obtain ⟨w, hw, rfl⟩ := mem_nodes.1 hm
      have hlt := hrank w hw e he i ho hine hi
      exact fed_outputs hm (fun j hj hjne => ih _ hlt hjne w hw hm hj rfl) ho hine

/-- In an acyclic draft where nothing dangles, all that is written is fed. -/
theorem Acyclic.fed_of_mem_outputs (h : d.Acyclic) (hdangling : d.dangling = []) {n : Node}
    (hn : n ∈ d.nodes) {o : String} (ho : o ∈ n.outputs) (hone : o ≠ "") : d.Fed o :=
  fed_outputs hn (fun _ hi hine => h.fed_of_mem_inputs hdangling hn hi hine) ho hone

/-- In an acyclic draft where nothing dangles, every tensor with a name and a source is fed. -/
theorem Acyclic.fed_of_isDefined (h : d.Acyclic) (hdangling : d.dangling = []) {t : String}
    (ht : d.isDefined t) (hne : t ≠ "") : d.Fed t := by
  rcases isDefined_iff.1 ht with hi | hi | hi | ⟨n, hn, ho⟩
  · exact .input hi
  · exact .initializer hi
  · exact .sparse hi
  · exact h.fed_of_mem_outputs hdangling hn ho hne

end OpGraph.Draft
