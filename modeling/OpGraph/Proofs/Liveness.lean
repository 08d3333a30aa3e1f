import Mathlib.Tactic.Tauto
import OpGraph.Proofs.Dataflow

/-!
# What the forward walk finds

The walk of `Draft.liveTensors` goes forward only, looks at every tensor once and
parks the paths that come to it later. The tensors it finds are nevertheless the
ones that a backward reading gives, on every draft: a tensor is live where it is
both fed and needed, or where a node reads it that has a fed input and a needed
output (`mem_liveTensors`).

The invariant of the walk, `Draft.Walked`, keeps the list of the paths that have
been looked at. Each of them has its continuations looked at, on the stack or
parked, and so the paths behind a needed tensor become live one after the other,
from the outputs of the graph backwards.
-/

namespace OpGraph

/-! ### Paths -/

namespace TensorPath

theorem mem_through {p q : TensorPath} {n : Node} :
    q ∈ p.through n ↔ q.tensor ∈ n.outputs ∧ q.tensor ≠ "" ∧
      q.earlier = (n.inputs.filter fun i => i ≠ "" && i ≠ p.tensor).reverse ++ p.tensors := by
  simp only [through, ne_eq, decide_not, List.mem_map, List.mem_filter, Bool.not_eq_true',
    decide_eq_false_iff_not]
  constructor
  · rintro ⟨o, ⟨ho, hone⟩, rfl⟩
    exact ⟨ho, hone, by simp⟩
  · rintro ⟨ho, hone, hearlier⟩
    refine ⟨q.tensor, ⟨ho, hone⟩, ?_⟩
    cases q
    simp only [List.foldl_flip_cons_eq_append'] at hearlier ⊢
    simp [hearlier]

/-- A path through a node holds the path before it and all that the node reads. -/
theorem mem_tensors_of_mem_through {p q : TensorPath} {n : Node} (h : q ∈ p.through n) {t : String} :
    t ∈ q.tensors ↔ t = q.tensor ∨ (t ∈ n.inputs ∧ t ≠ "") ∨ t ∈ p.tensors := by
  obtain ⟨-, -, hearlier⟩ := mem_through.1 h
  simp only [tensors, hearlier, List.mem_cons, List.mem_append, List.mem_reverse, List.mem_filter,
    Bool.and_eq_true, decide_eq_true_eq]
  by_cases ht : t = p.tensor
  · subst ht
    simp
  · simp [ht]

end TensorPath

namespace Draft

variable {d : Draft}

@[simp] theorem mem_markLive {live : Std.HashSet String} {p : TensorPath} {t : String} :
    t ∈ markLive live p ↔ t ∈ live ∨ t ∈ p.tensors := by
  simp [markLive, Std.HashSet.mem_insertMany_list]

theorem mem_foldl_markLive {paths : List TensorPath} {live : Std.HashSet String} {t : String} :
    t ∈ paths.foldl markLive live ↔ t ∈ live ∨ ∃ p ∈ paths, t ∈ p.tensors := by
  induction paths generalizing live with
  | nil => simp
  | cons p paths ih => simp [ih, or_assoc]

theorem mem_readersOf {t : String} {n : Node} :
    n ∈ d.readersOf t ↔ n ∈ d.nodes ∧ t ∈ n.inputs := by
  simp [readersOf, Node.reads]

/-- The tensors that a path of data to an output passes by: those on the path, and the other inputs
of the nodes on it. -/
def OnDataPath (d : Draft) (t : String) : Prop :=
  (d.Fed t ∧ d.Needed t) ∨
    ∃ n ∈ d.nodes, t ∈ n.inputs ∧ t ≠ "" ∧ (∃ i ∈ n.inputs, i ≠ "" ∧ d.Fed i) ∧
      ∃ o ∈ n.outputs, o ≠ "" ∧ d.Needed o

theorem OnDataPath.needed {t : String} (h : d.OnDataPath t) : d.Needed t := by
  rcases h with ⟨-, h⟩ | ⟨n, hn, ht, hne, -, o, ho, hone, hneeded⟩
  · exact h
  · exact .step hn ho hone hneeded ht hne

theorem OnDataPath.mono {d' : Draft} {t : String} (hwithin : d.Within d') (h : d.OnDataPath t) :
    d'.OnDataPath t := by
  rcases h with ⟨hfed, hneeded⟩ | ⟨n, hn, ht, hne, ⟨i, hi, hine, hfed⟩, o, ho, hone, hneeded⟩
  · exact .inl ⟨hfed.mono hwithin, hneeded.mono hwithin⟩
  · exact .inr ⟨n, hwithin.nodes n hn, ht, hne, ⟨i, hi, hine, hfed.mono hwithin⟩, o, ho, hone,
      hneeded.mono hwithin⟩

/-- A path that the walk can take: it starts at a source and goes on through readers. -/
inductive IsPath (d : Draft) : TensorPath → Prop
  | source {t : String} (h : t ∈ d.sources) : IsPath d ⟨t, []⟩
  | through {p q : TensorPath} {n : Node} (hp : IsPath d p) (hne : p.tensor ≠ "")
      (hn : n ∈ d.readersOf p.tensor) (hq : q ∈ p.through n) : IsPath d q

theorem IsPath.fed {p : TensorPath} (h : d.IsPath p) : d.Fed p.tensor := by
  induction h with
  | source h => exact fed_of_mem_sources h
  | through hp hne hn hq ih =>
    obtain ⟨hn, hread⟩ := mem_readersOf.1 hn
    obtain ⟨ho, hone, -⟩ := TensorPath.mem_through.1 hq
    exact .step hn hread hne ih ho hone

/-- Where the end of a path is needed, all of the path lies on a path of data to an output. -/
theorem IsPath.onDataPath {p : TensorPath} (h : d.IsPath p) (hneeded : d.Needed p.tensor) :
    ∀ t ∈ p.tensors, d.OnDataPath t := by
  induction h with
  | source h =>
    intro t ht
    rw [TensorPath.tensors, List.mem_singleton] at ht
    subst ht
    exact .inl ⟨fed_of_mem_sources h, hneeded⟩
  | @through p q n hp hne hn hq ih =>
    obtain ⟨hnode, hread⟩ := mem_readersOf.1 hn
    obtain ⟨ho, hone, -⟩ := TensorPath.mem_through.1 hq
    intro t ht
    rcases (TensorPath.mem_tensors_of_mem_through hq).1 ht with rfl | ⟨hin, htne⟩ | ht
    · exact .inl ⟨(IsPath.through hp hne hn hq).fed, hneeded⟩
    · exact .inr ⟨n, hnode, hin, htne, ⟨p.tensor, hread, hne, hp.fed⟩, q.tensor, ho, hone, hneeded⟩
    · exact ih (.step hnode ho hone hneeded hread hne) t ht

theorem IsPath.mem_walkable {p : TensorPath} (h : d.IsPath p) : p.tensor ∈ d.walkable := by
  simp only [walkable, Std.HashSet.mem_ofList, List.contains_eq_mem, List.mem_append,
    decide_eq_true_eq]
  cases h with
  | source h => exact .inl h
  | through _ _ hn hq =>
    refine .inr (List.mem_flatMap.2 ⟨_, (mem_readersOf.1 hn).1, ?_⟩)
    exact (TensorPath.mem_through.1 hq).1

/-! ### The walk -/

/-- The invariant of the walk, where `looked` are the paths that have been looked at. -/
structure Walked (d : Draft) (unmet : Std.HashSet String) (looked stack : List TensorPath)
    (w : Walk) : Prop where
  stack_isPath : ∀ p ∈ stack, d.IsPath p
  parked_isPath : ∀ p ∈ w.parked, d.IsPath p
  live_onDataPath : ∀ t ∈ w.live, d.OnDataPath t
  met : ∀ t ∈ d.walkable, t ∉ unmet → ∃ p ∈ looked, p.tensor = t
  sources : ∀ t ∈ d.sources, ∃ p, p.tensor = t ∧ (p ∈ looked ∨ p ∈ stack)
  outputs : ∀ p ∈ looked, d.isOutput p.tensor → ∀ t ∈ p.tensors, t ∈ w.live
  continued : ∀ p ∈ looked, p.tensor ≠ "" → ∀ n ∈ d.readersOf p.tensor, ∀ q ∈ p.through n,
    q ∈ looked ∨ q ∈ stack ∨ q ∈ w.parked
  parked_met : ∀ p ∈ w.parked, ∃ q ∈ looked, q.tensor = p.tensor

/-- The paths that go on from a path. -/
def continuations (d : Draft) (p : TensorPath) : List TensorPath :=
  (if p.tensor = "" then [] else d.readersOf p.tensor).flatMap p.through

theorem mem_continuations {p q : TensorPath} :
    q ∈ d.continuations p ↔ p.tensor ≠ "" ∧ ∃ n ∈ d.readersOf p.tensor, q ∈ p.through n := by
  unfold continuations
  split
  · simp_all
  · simp_all [List.mem_flatMap]

namespace Walked

variable {unmet : Std.HashSet String} {looked stack : List TensorPath} {w : Walk} {p : TensorPath}

/-- The first path of the stack ends in a tensor that was not met: it is looked at. -/
theorem look (h : d.Walked unmet looked (p :: stack) w) :
    d.Walked (unmet.erase p.tensor) (p :: looked) ((d.continuations p).reverse ++ stack)
      { w with live := if d.isOutput p.tensor then markLive w.live p else w.live } where
  stack_isPath q hq := by
    -- a path of the new stack goes on from the one looked at, or was there before
    rcases List.mem_append.1 hq with hq | hq
    · obtain ⟨hne, n, hn, hq⟩ := mem_continuations.1 (List.mem_reverse.1 hq)
      exact .through (h.stack_isPath p List.mem_cons_self) hne hn hq
    · exact h.stack_isPath q (List.mem_cons_of_mem _ hq)
  parked_isPath := h.parked_isPath
  live_onDataPath t ht := by
    dsimp only at ht
    split at ht
    · rcases mem_markLive.1 ht with ht | ht
      · exact h.live_onDataPath t ht
      · exact (h.stack_isPath p List.mem_cons_self).onDataPath (.output ‹_›) t ht
    · exact h.live_onDataPath t ht
  met t ht hnot := by
    by_cases heq : p.tensor = t
    · exact ⟨p, List.mem_cons_self, heq⟩
    · obtain ⟨q, hq, hqt⟩ := h.met t ht (by simpa [Std.HashSet.mem_erase, heq] using hnot)
      exact ⟨q, List.mem_cons_of_mem _ hq, hqt⟩
  sources t ht := by
    obtain ⟨q, hqt, hq⟩ := h.sources t ht
    refine ⟨q, hqt, ?_⟩
    simp only [List.mem_cons, List.mem_append] at hq ⊢
    tauto
  outputs q hq hout t ht := by
    rcases List.mem_cons.1 hq with rfl | hq
    · simp [hout, ht]
    · have := h.outputs q hq hout t ht
      dsimp only
      split
      · exact mem_markLive.2 (.inl this)
      · exact this
  continued q hq hne n hn r hr := by
    -- what continues the path looked at is on the stack now
    rcases List.mem_cons.1 hq with rfl | hq
    · refine .inr (.inl (List.mem_append.2 (.inl (List.mem_reverse.2 ?_))))
      exact mem_continuations.2 ⟨hne, n, hn, hr⟩
    · have := h.continued q hq hne n hn r hr
      simp only [List.mem_cons, List.mem_append] at this ⊢
      tauto
  parked_met q hq := by
    obtain ⟨r, hr, hrt⟩ := h.parked_met q hq
    exact ⟨r, List.mem_cons_of_mem _ hr, hrt⟩

/-- The first path of the stack ends in a tensor that was met before: it is parked. -/
theorem park (h : d.Walked unmet looked (p :: stack) w) (hp : p.tensor ∉ unmet) :
    d.Walked unmet looked stack { w with parked := p :: w.parked } where
  stack_isPath q hq := h.stack_isPath q (List.mem_cons_of_mem _ hq)
  parked_isPath q hq := by
    rcases List.mem_cons.1 hq with rfl | hq
    · exact h.stack_isPath q List.mem_cons_self
    · exact h.parked_isPath q hq
  live_onDataPath := h.live_onDataPath
  met := h.met
  sources t ht := by
    obtain ⟨q, hqt, hq | hq⟩ := h.sources t ht
    · exact ⟨q, hqt, .inl hq⟩
    · rcases List.mem_cons.1 hq with rfl | hq
      -- the source was met on another path, which takes the place of this one
      · subst hqt
        obtain ⟨r, hr, hrt⟩ := h.met _ (h.stack_isPath q List.mem_cons_self).mem_walkable hp
        exact ⟨r, hrt, .inl hr⟩
      · exact ⟨q, hqt, .inr hq⟩
  outputs := h.outputs
  continued q hq hne n hn r hr := by
    have := h.continued q hq hne n hn r hr
    simp only [List.mem_cons] at this ⊢
    tauto
  parked_met q hq := by
    rcases List.mem_cons.1 hq with rfl | hq
    · exact h.met _ (h.stack_isPath q List.mem_cons_self).mem_walkable hp
    · exact h.parked_met q hq

end Walked

theorem Walked.start (d : Draft) :
    d.Walked d.walkable [] (d.sources.reverse.map fun tensor => { tensor, earlier := [] }) {} where
  stack_isPath p hp := by
    obtain ⟨t, ht, rfl⟩ := List.mem_map.1 hp
    exact .source (List.mem_reverse.1 ht)
  parked_isPath := by simp
  live_onDataPath := by simp
  met t ht hnot := absurd ht hnot
  sources t ht := ⟨⟨t, []⟩, rfl, .inr (by simpa using ht)⟩
  outputs := by simp
  continued := by simp
  parked_met := by simp

/-- The invariant holds all along the walk, to its end. -/
theorem exists_walked {unmet : Std.HashSet String} {looked stack : List TensorPath} {w : Walk}
    (h : d.Walked unmet looked stack w) :
    ∃ unmet' looked', d.Walked unmet' looked' [] (d.walk unmet stack w) := by
  induction unmet, stack, w using walk.induct d generalizing looked with
  | case1 unmet w => exact ⟨unmet, looked, by rwa [walk]⟩
  | case2 unmet p stack w hmem live next =>
    rename_i ih
    rw [walk, if_pos hmem]
    exact ih h.look
  | case3 unmet p stack w hmem ih =>
    rw [walk, if_neg hmem]
    exact ih (h.park hmem)

/-! ### Parked paths -/

theorem mem_reached {live : Std.HashSet String} {parked : List TensorPath} {p : TensorPath} :
    p ∈ reached live parked ↔ p ∈ parked ∧ p.tensor ∈ live := by
  simp [reached]

theorem mem_unreached {live : Std.HashSet String} {parked : List TensorPath} {p : TensorPath} :
    p ∈ unreached live parked ↔ p ∈ parked ∧ p.tensor ∉ live := by
  simp [unreached, ← Std.HashSet.contains_eq_false_iff_not_mem]

/-- The least set that holds some tensors and, with the end of a parked path, all of the path. -/
inductive Settled (live : Std.HashSet String) (parked : List TensorPath) : String → Prop
  | live {t : String} (h : t ∈ live) : Settled live parked t
  | path {p : TensorPath} {t : String} (hp : p ∈ parked) (hend : Settled live parked p.tensor)
      (ht : t ∈ p.tensors) : Settled live parked t

theorem mem_settle {live : Std.HashSet String} {parked : List TensorPath} {t : String} :
    t ∈ settle live parked ↔ Settled live parked t := by
  induction live, parked using settle.induct with
  | case1 live parked h =>
    rw [settle, if_pos h]
    refine ⟨.live, fun ht => ?_⟩
    induction ht with
    | live ht => exact ht
    | @path p _ hp _ _ ih =>
      -- no parked path ends in a live tensor
      have hreached : p ∈ reached live parked := mem_reached.2 ⟨hp, ih⟩
      simp [h] at hreached
  | case2 live parked h ih =>
    -- marking the paths to live tensors first gives the same least set
    rw [settle, if_neg h, ih]
    clear ih
    constructor
    · intro ht
      induction ht with
      | live ht =>
        rcases mem_foldl_markLive.1 ht with ht | ⟨p, hp, ht⟩
        · exact .live ht
        · obtain ⟨hp, hend⟩ := mem_reached.1 hp
          exact .path hp (.live hend) ht
      | path hp _ ht ih => exact .path (mem_unreached.1 hp).1 ih ht
    · intro ht
      induction ht with
      | live ht => exact .live (mem_foldl_markLive.2 (.inl ht))
      | @path p _ hp _ ht ih =>
        by_cases hend : p.tensor ∈ live
        · exact .live (mem_foldl_markLive.2 (.inr ⟨p, mem_reached.2 ⟨hp, hend⟩, ht⟩))
        · exact .path (mem_unreached.2 ⟨hp, hend⟩) ih ht

/-! ### The end of the walk -/

namespace Walked

variable {unmet : Std.HashSet String} {looked : List TensorPath} {w : Walk}

/-- What becomes live lies on a path of data to an output. -/
theorem onDataPath (h : d.Walked unmet looked [] w) {t : String}
    (ht : Settled w.live w.parked t) : d.OnDataPath t := by
  induction ht with
  | live ht => exact h.live_onDataPath _ ht
  | path hp _ ht ih => exact (h.parked_isPath _ hp).onDataPath ih.needed _ ht

/-- A fed tensor has been looked at. -/
theorem exists_looked (h : d.Walked unmet looked [] w) {t : String} (ht : d.Fed t) :
    ∃ p ∈ looked, p.tensor = t := by
  have hsource : ∀ t ∈ d.sources, ∃ p ∈ looked, p.tensor = t := by
    intro t ht
    obtain ⟨p, hpt, hp⟩ := h.sources t ht
    exact ⟨p, by simpa using hp, hpt⟩
  induction ht with
  | input ht => exact hsource _ (mem_sources.2 (.inl ht))
  | initializer ht => exact hsource _ (mem_sources.2 (.inr (.inl ht)))
  | sparse ht => exact hsource _ (mem_sources.2 (.inr (.inr (.inl ht))))
  | start hn hi ht hne => exact hsource _ (mem_sources.2 (.inr (.inr (.inr ⟨_, hn, hi, ht, hne⟩))))
  | @step n i o hn hi hine _ ho hone ih =>
    obtain ⟨p, hp, rfl⟩ := ih
    obtain ⟨q, hq, rfl⟩ : ∃ q ∈ p.through n, q.tensor = o :=
      ⟨⟨o, _⟩, TensorPath.mem_through.2 ⟨ho, hone, rfl⟩, rfl⟩
    rcases h.continued p hp hine n (mem_readersOf.2 ⟨hn, hi⟩) q hq with hq | hq | hq
    · exact ⟨q, hq, rfl⟩
    · simp at hq
    · exact h.parked_met q hq

/-- The paths through a node from a tensor that has been looked at become live with their ends,
once the paths that were looked at do. -/
theorem settled_through (h : d.Walked unmet looked [] w) {p : TensorPath} (hp : p ∈ looked)
    (hne : p.tensor ≠ "") {n : Node} (hn : n ∈ d.readersOf p.tensor) {o : String}
    (ho : o ∈ n.outputs) (hone : o ≠ "")
    (hend : ∀ q ∈ looked, q.tensor = o → ∀ t ∈ q.tensors, Settled w.live w.parked t) {t : String}
    (ht : t ∈ p.tensors ∨ t ∈ n.inputs ∧ t ≠ "") : Settled w.live w.parked t := by
  obtain ⟨q, hq, hqo⟩ : ∃ q ∈ p.through n, q.tensor = o :=
    ⟨⟨o, _⟩, TensorPath.mem_through.2 ⟨ho, hone, rfl⟩, rfl⟩
  have htq : t ∈ q.tensors := (TensorPath.mem_tensors_of_mem_through hq).2 (.inr ht.symm)
  rcases h.continued p hp hne n hn q hq with hq | hq | hq
  · exact hend q hq hqo t htq
  · simp at hq
  -- a parked path: its end was looked at on another path, and is live with that one
  · obtain ⟨r, hr, hrq⟩ := h.parked_met q hq
    have hlive := hend r hr (hrq.trans hqo) r.tensor List.mem_cons_self
    exact .path hq (hrq ▸ hlive) htq

/-- A path that has been looked at becomes live where its end is needed: the induction goes from
the outputs of the graph backwards. -/
theorem settled_of_needed (h : d.Walked unmet looked [] w) {t : String} (ht : d.Needed t) :
    ∀ p ∈ looked, p.tensor = t → ∀ u ∈ p.tensors, Settled w.live w.parked u := by
  induction ht with
  | output hout =>
    rintro p hp rfl u hu
    exact .live (h.outputs p hp hout u hu)
  | step hn ho hone _ hi hine ih =>
    rintro p hp rfl u hu
    exact h.settled_through hp hine (mem_readersOf.2 ⟨hn, hi⟩) ho hone ih (.inl hu)

end Walked

/-- The walk finds the tensors that are fed and needed, and what the nodes between them read
besides. -/
theorem mem_liveTensors {t : String} : t ∈ d.liveTensors ↔ d.OnDataPath t := by
  obtain ⟨unmet, looked, h⟩ := exists_walked (Walked.start d)
  have hsettled : ∀ {w : Walk},
      t ∈ settle w.live w.parked.reverse ↔ Settled w.live w.parked t := by
    intro w
    rw [mem_settle]
    constructor <;> intro ht <;> induction ht with
    | live ht => exact .live ht
    | path hp _ ht ih => exact .path (by simpa using hp) ih ht
  rw [liveTensors, hsettled]
  refine ⟨h.onDataPath, ?_⟩
  rintro (⟨hfed, hneeded⟩ | ⟨n, hn, ht, hne, ⟨i, hi, hine, hfed⟩, o, ho, hone, hneeded⟩)
  · obtain ⟨p, hp, rfl⟩ := h.exists_looked hfed
    exact h.settled_of_needed hneeded p hp rfl _ List.mem_cons_self
  · obtain ⟨p, hp, rfl⟩ := h.exists_looked hfed
    exact h.settled_through hp hine (mem_readersOf.2 ⟨hn, hi⟩) ho hone
      (h.settled_of_needed hneeded) (.inr ⟨ht, hne⟩)

end Draft

end OpGraph
