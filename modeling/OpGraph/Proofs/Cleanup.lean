import Mathlib.Data.List.Basic
import OpGraph.Pass.Session
import OpGraph.Proofs.Liveness

/-!
# What a cleanup keeps

A cleanup keeps the nodes that write a tensor which the walk found, and the
initializers that it found. On an acyclic draft where nothing dangles everything
is fed, so that the walk finds exactly the needed tensors: the cleanup is then
the removal of dead code as it is read off backwards from the outputs
(`withoutDead_of_acyclic`).

On any draft whatever, a path of data that a live tensor lies on survives the
cleanup as a whole: the same tensors are live after it, and a second cleanup
removes nothing (`Session.cleanup_cleanup`).
-/

namespace OpGraph.Draft

variable {d : Draft}

theorem entries_withoutDead (d : Draft) :
    d.withoutDead.entries = d.entries.filter fun e => e.node.outputs.any d.liveTensors.contains :=
  rfl

theorem initializers_withoutDead (d : Draft) :
    d.withoutDead.initializers = d.initializers.filter fun t => d.liveTensors.contains t.name :=
  rfl

theorem frame_withoutDead (d : Draft) : d.withoutDead.frame = d.frame := rfl

theorem fresh_withoutDead (d : Draft) : d.withoutDead.fresh = d.fresh := rfl

@[simp] theorem isInput_withoutDead (d : Draft) (t : String) :
    d.withoutDead.isInput t = d.isInput t := rfl

@[simp] theorem sparseNames_withoutDead (d : Draft) :
    d.withoutDead.sparseNames = d.sparseNames := rfl

theorem mem_nodes_withoutDead {n : Node} :
    n ∈ d.withoutDead.nodes ↔ n ∈ d.nodes ∧ ∃ o ∈ n.outputs, d.OnDataPath o := by
  simp only [mem_nodes, entries_withoutDead, List.mem_filter, List.any_eq_true,
    Std.HashSet.contains_iff_mem, mem_liveTensors]
  constructor
  · rintro ⟨e, ⟨he, hlive⟩, rfl⟩
    exact ⟨⟨e, he, rfl⟩, hlive⟩
  · rintro ⟨⟨e, he, rfl⟩, hlive⟩
    exact ⟨e, ⟨he, hlive⟩, rfl⟩

theorem isInitializer_withoutDead {t : String} :
    d.withoutDead.isInitializer t ↔ d.isInitializer t ∧ d.OnDataPath t := by
  simp only [isInitializer_iff, initializers_withoutDead, List.mem_map, List.mem_filter,
    Std.HashSet.contains_iff_mem, mem_liveTensors]
  constructor
  · rintro ⟨i, ⟨hi, hlive⟩, rfl⟩
    exact ⟨⟨i, hi, rfl⟩, hlive⟩
  · rintro ⟨⟨i, hi, rfl⟩, hlive⟩
    exact ⟨i, ⟨hi, hlive⟩, rfl⟩

/-- What a filter leaves out is what it is short of the whole list. -/
theorem length_sub_length_filter {l : List α} (p : α → Bool) :
    l.length - (l.filter p).length = (l.filter fun a => !p a).length := by
  have h := List.length_eq_length_filter_add (l := l) p
  omega

/-- The sources of live tensors survive a cleanup. -/
theorem isDefined_withoutDead {t : String} (h : d.isDefined t) (hlive : d.OnDataPath t) :
    d.withoutDead.isDefined t := by
  rcases isDefined_iff.1 h with h | h | h | ⟨n, hn, ho⟩
  · exact isDefined_iff.2 (.inl h)
  · exact isDefined_iff.2 (.inr (.inl (isInitializer_withoutDead.2 ⟨h, hlive⟩)))
  · exact isDefined_iff.2 (.inr (.inr (.inl h)))
  · exact isDefined_iff.2
      (.inr (.inr (.inr ⟨n, mem_nodes_withoutDead.2 ⟨hn, t, ho, hlive⟩, ho⟩)))

/-! ### A second cleanup -/

/-- Where a node writes a tensor that is fed and needed, the node survives a cleanup. -/
theorem Fed.mem_nodes_withoutDead {n : Node} {o : String} (hfed : d.Fed o) (hneeded : d.Needed o)
    (hn : n ∈ d.nodes) (ho : o ∈ n.outputs) : n ∈ d.withoutDead.nodes :=
  Draft.mem_nodes_withoutDead.2 ⟨hn, o, ho, .inl ⟨hfed, hneeded⟩⟩

/-- A needed tensor is still fed after a cleanup: all that feeds it is needed as well. -/
theorem Fed.withoutDead {t : String} (h : d.Fed t) (hneeded : d.Needed t) :
    d.withoutDead.Fed t := by
  have hlive := h
  induction h with
  | input h => exact .input h
  | initializer h => exact .initializer (isInitializer_withoutDead.2 ⟨h, .inl ⟨hlive, hneeded⟩⟩)
  | sparse h => exact .sparse h
  | start hn hi ht hne => exact .start (hlive.mem_nodes_withoutDead hneeded hn ht) hi ht hne
  | step hn hi hine hfed ho hone ih =>
    have hfed' := ih (.step hn ho hone hneeded hi hine) hfed
    exact .step (hlive.mem_nodes_withoutDead hneeded hn ho) hi hine hfed' ho hone

/-- A fed tensor is still needed after a cleanup: all that it feeds on its way to an output is fed
as well. -/
theorem Needed.withoutDead {t : String} (h : d.Needed t) (hfed : d.Fed t) :
    d.withoutDead.Needed t := by
  induction h with
  | output h => exact .output h
  | step hn ho hone hneeded hi hine ih =>
    have hfed' : d.Fed _ := .step hn hi hine hfed ho hone
    exact .step (hfed'.mem_nodes_withoutDead hneeded hn ho) ho hone (ih hfed') hi hine

theorem withoutDead_within (d : Draft) : d.withoutDead.Within d where
  frame := rfl
  nodes _ hn := (Draft.mem_nodes_withoutDead.1 hn).1
  initializers _ h := (isInitializer_withoutDead.1 h).1

/-- A cleanup leaves the paths of data to outputs as they are. -/
theorem onDataPath_withoutDead {t : String} : d.withoutDead.OnDataPath t ↔ d.OnDataPath t := by
  refine ⟨.mono d.withoutDead_within, ?_⟩
  rintro (⟨hfed, hneeded⟩ | ⟨n, hn, ht, hne, ⟨i, hi, hine, hfed⟩, o, ho, hone, hneeded⟩)
  · exact .inl ⟨hfed.withoutDead hneeded, hneeded.withoutDead hfed⟩
  -- a node that reads `t` besides a fed tensor writes a tensor that is fed and needed
  · have hfedOut : d.Fed o := .step hn hi hine hfed ho hone
    have hneededIn : d.Needed i := .step hn ho hone hneeded hi hine
    exact .inr ⟨n, hfedOut.mem_nodes_withoutDead hneeded hn ho, ht, hne,
      ⟨i, hi, hine, hfed.withoutDead hneededIn⟩, o, ho, hone, hneeded.withoutDead hfedOut⟩

theorem mem_liveTensors_withoutDead {t : String} :
    t ∈ d.withoutDead.liveTensors ↔ t ∈ d.liveTensors := by
  rw [mem_liveTensors, mem_liveTensors, onDataPath_withoutDead]

theorem contains_liveTensors_withoutDead (d : Draft) :
    d.withoutDead.liveTensors.contains = d.liveTensors.contains := by
  funext t
  rw [Bool.eq_iff_iff, Std.HashSet.contains_iff_mem, Std.HashSet.contains_iff_mem,
    mem_liveTensors_withoutDead]

theorem withoutDead_withoutDead (d : Draft) : d.withoutDead.withoutDead = d.withoutDead := by
  ext1
  · exact d.withoutDead.frame_withoutDead
  · rw [entries_withoutDead d.withoutDead, contains_liveTensors_withoutDead, entries_withoutDead,
      List.filter_filter]
    simp only [Bool.and_self]
  · exact d.withoutDead.fresh_withoutDead
  · rw [initializers_withoutDead d.withoutDead, contains_liveTensors_withoutDead,
      initializers_withoutDead, List.filter_filter]
    simp only [Bool.and_self]

theorem cleanupCount_self (d : Draft) :
    d.cleanupCount d = { nodes := 0, initializers := 0 } := by
  rw [cleanupCount, Nat.sub_self, Nat.sub_self]

section Acyclic

variable (hacyclic : d.Acyclic) (hdangling : d.dangling = []) (hout : d.isOutput "" = false)

include hacyclic hdangling hout

/-- Where everything is fed, the live tensors are the needed ones. -/
theorem Acyclic.onDataPath_iff {t : String} (ht : d.isDefined t) :
    d.OnDataPath t ↔ d.Needed t :=
  ⟨OnDataPath.needed, fun h =>
    .inl ⟨hacyclic.fed_of_isDefined hdangling ht (h.ne_empty hout), h⟩⟩

theorem Acyclic.isDefined_withoutDead {t : String} (h : d.isDefined t) (hneeded : d.Needed t) :
    d.withoutDead.isDefined t :=
  Draft.isDefined_withoutDead h ((hacyclic.onDataPath_iff hdangling hout h).2 hneeded)

theorem Acyclic.dangling_withoutDead : d.withoutDead.dangling = [] := by
  refine dangling_eq_nil_iff.2 fun n hn i hi hine => ?_
  obtain ⟨hn, o, ho, hlive⟩ := mem_nodes_withoutDead.1 hn
  have hneeded : d.Needed i := .step hn ho (hlive.needed.ne_empty hout) hlive.needed hi hine
  exact hacyclic.isDefined_withoutDead hdangling hout
    (dangling_eq_nil_iff.1 hdangling n hn i hi hine) hneeded

open Classical in
theorem Acyclic.entries_withoutDead :
    d.withoutDead.entries = d.entries.filter fun e => ∃ o ∈ e.node.outputs, d.Needed o := by
  rw [Draft.entries_withoutDead]
  refine List.filter_congr fun e he => ?_
  rw [Bool.eq_iff_iff, List.any_eq_true, decide_eq_true_iff]
  refine exists_congr fun o => and_congr_right fun ho => ?_
  rw [Std.HashSet.contains_iff_mem, mem_liveTensors]
  exact hacyclic.onDataPath_iff hdangling hout
    (isDefined_iff.2 (.inr (.inr (.inr ⟨_, node_mem_nodes he, ho⟩))))

open Classical in
theorem Acyclic.initializers_withoutDead :
    d.withoutDead.initializers = d.initializers.filter fun t => d.Needed t.name := by
  rw [Draft.initializers_withoutDead]
  refine List.filter_congr fun t ht => ?_
  rw [Bool.eq_iff_iff, Std.HashSet.contains_iff_mem, mem_liveTensors, decide_eq_true_iff]
  exact hacyclic.onDataPath_iff hdangling hout
    (isDefined_iff.2 (.inr (.inl (isInitializer_iff.2 (List.mem_map_of_mem ht)))))

end Acyclic

open Classical in
/-- **A cleanup is the removal of dead code.** On an acyclic draft where nothing dangles and no
output lacks a name it keeps exactly the nodes that write a needed tensor and the needed
initializers, as they are and in order, and counts the others. Then nothing dangles, and the
outputs that had a source have one. -/
theorem withoutDead_of_acyclic (d : Draft) (hacyclic : d.Acyclic) (hdangling : d.dangling = [])
    (hout : d.isOutput "" = false) :
    d.withoutDead.entries = d.entries.filter (fun e => ∃ o ∈ e.node.outputs, d.Needed o) ∧
    d.withoutDead.initializers = d.initializers.filter (fun t => d.Needed t.name) ∧
    d.withoutDead.frame = d.frame ∧ d.withoutDead.fresh = d.fresh ∧
    d.cleanupCount d.withoutDead =
      { nodes := (d.entries.filter fun e => ¬ ∃ o ∈ e.node.outputs, d.Needed o).length
        initializers := (d.initializers.filter fun t => ¬ d.Needed t.name).length } ∧
    d.withoutDead.dangling = [] ∧
    ∀ t, d.isOutput t → d.isDefined t → d.withoutDead.isDefined t := by
  have hentries := hacyclic.entries_withoutDead hdangling hout
  have hinitializers := hacyclic.initializers_withoutDead hdangling hout
  refine ⟨hentries, hinitializers, rfl, rfl, ?_, hacyclic.dangling_withoutDead hdangling hout,
    fun t ht hdef => hacyclic.isDefined_withoutDead hdangling hout hdef (.output ht)⟩
  rw [cleanupCount, hentries, hinitializers, length_sub_length_filter, length_sub_length_filter]
  simp only [decide_not]

/-- A graph with a branch that reaches no output. -/
def deadBranch : Graph where
  nodes :=
    [{ op := "Mul", inputs := ["x", "w"], outputs := ["a"] },
      { op := "Relu", inputs := ["a"], outputs := ["y"] },
      { op := "Neg", inputs := ["a"], outputs := ["b"] },
      { op := "Add", inputs := ["b", "v"], outputs := ["c"] }]
  initializers := [{ name := "w" }, { name := "v" }]
  inputs := [{ name := "x" }]
  outputs := [{ name := "y" }]

theorem withoutDead_deadBranch :
    (ofGraph deadBranch).Acyclic ∧ (ofGraph deadBranch).dangling = [] ∧
      (ofGraph deadBranch).isOutput "" = false ∧
      (ofGraph deadBranch).withoutDead.dangling = [] ∧
      (ofGraph deadBranch).withoutDead.isDefined "y" := by
  have hacyclic : (ofGraph deadBranch).Acyclic := ⟨Handle.index, by unfold Ranked; decide⟩
  have hdangling : (ofGraph deadBranch).dangling = [] := by decide
  have hout : (ofGraph deadBranch).isOutput "" = false := by decide
  obtain ⟨-, -, -, -, -, hclean, houtputs⟩ :=
    withoutDead_of_acyclic (ofGraph deadBranch) hacyclic hdangling hout
  exact ⟨hacyclic, hdangling, hout, hclean, houtputs "y" (by decide) (by decide)⟩

end OpGraph.Draft

namespace OpGraph.Session

/-- **A second cleanup removes nothing.** On any draft, cyclic or with tensors that dangle or are
defined twice, the tensors that are live stay so through a cleanup, and everything that the cleanup
leaves has a part in them. So a second one counts nothing and leaves draft and session as they
are. -/
theorem cleanup_cleanup (s : Session) :
    let d := s.draft.withoutDead
    let first := s.cleanup.session
    first.draft = d ∧ d.withoutDead = d ∧
    d.cleanupCount d.withoutDead = { nodes := 0, initializers := 0 } ∧
    first.cleanup.session = first ∧
    first.cleanup.result = .ok { nodes := 0, initializers := 0 } ∧
    (∀ t, t ∈ d.liveTensors ↔ t ∈ s.draft.liveTensors) ∧
    (∀ n ∈ d.nodes, ∃ o ∈ n.outputs, o ∈ d.liveTensors) ∧
    ∀ t ∈ d.initializers, t.name ∈ d.liveTensors := by
  intro d first
  have hdraft : d.withoutDead = d := s.draft.withoutDead_withoutDead
  have hcount : d.cleanupCount d.withoutDead = { nodes := 0, initializers := 0 } := by
    rw [hdraft, Draft.cleanupCount_self]
  have hlive : ∀ t, t ∈ d.liveTensors ↔ t ∈ s.draft.liveTensors := fun _ =>
    Draft.mem_liveTensors_withoutDead
  refine ⟨rfl, hdraft, hcount, ?_, congrArg Except.ok hcount, hlive, fun n hn => ?_, fun t ht => ?_⟩
  · show ({ first with draft := d.withoutDead, tally := { first.tally with
      cleanup := first.tally.cleanup.add (d.cleanupCount d.withoutDead) } } : Session) = first
    rw [hcount, hdraft]
    rfl
  · obtain ⟨-, o, ho, hpath⟩ := Draft.mem_nodes_withoutDead.1 hn
    exact ⟨o, ho, (hlive o).2 (Draft.mem_liveTensors.2 hpath)⟩
  · rw [hlive, ← Std.HashSet.contains_iff_mem]
    exact (List.mem_filter.1 ht).2

end OpGraph.Session
