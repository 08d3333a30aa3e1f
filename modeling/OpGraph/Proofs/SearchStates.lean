import OpGraph.Proofs.Search

/-!
# The states that a search looks at

A search takes states from its stack until it finds a chain, or none is left, or its budget is used
up. `SearchState.popped` lists the states that it takes. What holds of the states that a search
starts with, and of the states that it goes on to from a state where it holds, holds of all states
that are taken (`forall_mem_popped`). A search is abandoned just where it takes more states than its
budget (`search_eq_abandoned_iff`), and ends in the same way with any larger budget otherwise
(`search_of_le`).
-/

namespace OpGraph

namespace SearchState

variable {d : Draft} {consumers : String → List Handle} {s : SearchState}

/-! ### One state -/

/-- The nodes that a search goes on to read a tensor with a name, and are no constants. -/
theorem mem_consumersOf {t : String} {h : Handle} :
    h ∈ consumersOf d t ↔
      t ≠ "" ∧ ∃ n, d.node? h = some n ∧ n.isConstant = false ∧ t ∈ n.inputs := by
  rw [consumersOf, Draft.getD_consumerMap]
  split
  · simp [*]
  · rw [Draft.mem_consumers, and_iff_right ‹_›]

/-- Where a state leads to a match, its node takes the last step. -/
theorem expand_eq_found {chain : Chain} (h : s.expand d consumers = .found chain) :
    s.later = [] ∧ chain = s.chain ∧ ∃ node, s.Takes d node := by
  unfold expand at h
  split at h
  · cases h
  · rename_i node hnode
    split at h
    · rename_i htakes
      rw [Bool.and_eq_true] at htakes
      split at h
      · rename_i hlater
        cases h
        exact ⟨hlater, rfl, node, hnode, htakes⟩
      · split at h <;> cases h
    · cases h

/-- Where a state leads on to others, its node takes the step and has its outputs bound, and the
others stand at the consumers of these outputs. -/
theorem expand_eq_next {states : List SearchState} (h : s.expand d consumers = .next states) :
    states = [] ∨ ∃ node step later b, s.Takes d node ∧ s.later = step :: later ∧
      s.step.bindOutputs node s.bindings = some b ∧
      states = (node.outputs.flatMap consumers).map (s.after step later b) := by
  unfold expand at h
  split at h
  · cases h
    exact .inl rfl
  · rename_i node hnode
    split at h
    · rename_i htakes
      rw [Bool.and_eq_true] at htakes
      split at h
      · cases h
      · rename_i step later hlater
        split at h
        · cases h
          exact .inl rfl
        · rename_i b hb
          cases h
          refine .inr ⟨node, step, later, b, ⟨hnode, htakes⟩, hlater, hb, ?_⟩
          rw [List.map_flatMap]
          rfl
    · cases h
      exact .inl rfl

/-- The same of one of the others. -/
theorem exists_after_of_mem {states : List SearchState} (h : s.expand d consumers = .next states)
    {t : SearchState} (ht : t ∈ states) :
    ∃ node step later b o handle, s.Takes d node ∧ s.later = step :: later ∧
      s.step.bindOutputs node s.bindings = some b ∧ o ∈ node.outputs ∧ handle ∈ consumers o ∧
      t = s.after step later b handle := by
  rcases expand_eq_next h with rfl | ⟨node, step, later, b, htakes, hlater, hb, rfl⟩
  · exact absurd ht List.not_mem_nil
  · obtain ⟨handle, hmem, rfl⟩ := List.mem_map.1 ht
    obtain ⟨o, ho, hhandle⟩ := List.mem_flatMap.1 hmem
    exact ⟨node, step, later, b, o, handle, htakes, hlater, hb, ho, hhandle, rfl⟩

/-! ### All states of a search -/

/-- The states that a search takes from its stack, in order. The last one is where it finds a chain
or finds its budget used up, unless it comes to an end by itself. -/
def popped (d : Draft) (consumers : String → List Handle) :
    Nat → List SearchState → List SearchState
  | _, [] => []
  | 0, s :: _ => [s]
  | budget + 1, s :: stack =>
    match s.expand d consumers with
    | .found _ => [s]
    | .next states => s :: popped d consumers budget (states ++ stack)

variable {budget budget' : Nat} {stack : List SearchState}

/-- What holds of the states of a stack, and of the states that the search goes on to from one where
it holds, holds of every state that is taken. -/
theorem forall_mem_popped {motive : SearchState → Prop}
    (hnext : ∀ s states, motive s → s.expand d consumers = .next states → ∀ t ∈ states, motive t)
    (hstack : ∀ s ∈ stack, motive s) : ∀ s ∈ popped d consumers budget stack, motive s := by
  fun_induction popped d consumers budget stack with
  | case1 => simp
  | case2 s stack => simpa using hstack s List.mem_cons_self
  | case3 budget s stack chain hexpand => simpa using hstack s List.mem_cons_self
  | case4 budget s stack states hexpand ih =>
    have hs : motive s := hstack s List.mem_cons_self
    refine List.forall_mem_cons.2 ⟨hs, ih fun t ht => ?_⟩
    rcases List.mem_append.1 ht with ht | ht
    · exact hnext s states hs hexpand t ht
    · exact hstack t (List.mem_cons_of_mem _ ht)

/-- A chain that a search finds is that of a state that it takes. -/
theorem exists_mem_popped_of_found {chain : Chain}
    (h : search d consumers budget stack = .found chain) :
    ∃ s ∈ popped d consumers budget stack, s.expand d consumers = .found chain := by
  fun_induction popped d consumers budget stack with
  | case1 => simp [search] at h
  | case2 s stack => simp [search] at h
  | case3 budget s stack c hexpand =>
    rw [search, hexpand] at h
    cases h
    exact ⟨s, List.mem_cons_self, hexpand⟩
  | case4 budget s stack states hexpand ih =>
    rw [search, hexpand] at h
    obtain ⟨t, ht, hfound⟩ := ih h
    exact ⟨t, List.mem_cons_of_mem _ ht, hfound⟩

/-- A search is abandoned where it takes one state more than its budget. -/
theorem search_eq_abandoned_iff :
    search d consumers budget stack = .abandoned ↔
      budget < (popped d consumers budget stack).length := by
  fun_induction popped d consumers budget stack with
  | case1 => simp [search]
  | case2 s stack => simp [search]
  | case3 budget s stack chain hexpand => simp [search, hexpand]
  | case4 budget s stack states hexpand ih =>
    rw [search, hexpand, List.length_cons]
    exact ih.trans Nat.succ_lt_succ_iff.symm

/-- A search that is not abandoned ends in the same way with a larger budget. -/
theorem search_of_le (h : search d consumers budget stack ≠ .abandoned) (hle : budget ≤ budget') :
    search d consumers budget' stack = search d consumers budget stack := by
  fun_induction search d consumers budget stack generalizing budget' with
  | case1 => rw [search]
  | case2 => exact absurd rfl h
  | case3 budget s stack chain hexpand =>
    obtain ⟨more, rfl⟩ := Nat.exists_eq_add_one.2 (Nat.zero_lt_of_lt hle)
    rw [search, hexpand]
  | case4 budget s stack states hexpand ih =>
    obtain ⟨more, rfl⟩ := Nat.exists_eq_add_one.2 (Nat.zero_lt_of_lt hle)
    rw [search, hexpand]
    exact ih h (Nat.le_of_succ_le_succ hle)

end SearchState

namespace Pattern

variable {p : Pattern} {d : Draft} {cap cap' : Nat} {anchor : Handle} {chain : Chain}

/-! ### The search from an anchor -/

/-- The states that the search from an anchor takes. -/
def popped (p : Pattern) (d : Draft) (cap : Nat) (anchor : Handle) : List SearchState :=
  SearchState.popped d (SearchState.consumersOf d) (max cap 1) (p.firstStates d anchor)

/-- What holds of the state that a search starts from, and of the states that it goes on to from one
where it holds, holds of every state that is taken. -/
theorem forall_mem_popped {motive : SearchState → Prop}
    (hstart : ∀ s ∈ p.firstStates d anchor, motive s)
    (hnext : ∀ s states, motive s → s.expand d (SearchState.consumersOf d) = .next states →
      ∀ t ∈ states, motive t) : ∀ s ∈ p.popped d cap anchor, motive s :=
  SearchState.forall_mem_popped hnext hstart

theorem matchAt_eq_some_iff :
    p.matchAt d cap anchor = some chain ↔ p.searchAt d cap anchor = .found chain := by
  unfold matchAt
  cases p.searchAt d cap anchor <;> simp [SearchOutcome.chain?]

/-- A match is the chain of a state that the search takes, with no step left. -/
theorem exists_mem_popped_of_matchAt (h : p.matchAt d cap anchor = some chain) :
    ∃ s ∈ p.popped d cap anchor, s.later = [] ∧ chain = s.chain := by
  rw [matchAt_eq_some_iff, searchAt_eq] at h
  obtain ⟨s, hs, hfound⟩ := SearchState.exists_mem_popped_of_found h
  obtain ⟨hlater, hchain, -⟩ := SearchState.expand_eq_found hfound
  exact ⟨s, hs, hlater, hchain⟩

/-- A match is the same with a higher limit on states. -/
theorem matchAt_of_le (h : p.matchAt d cap anchor = some chain) (hle : cap ≤ cap') :
    p.matchAt d cap' anchor = some chain := by
  rw [matchAt_eq_some_iff, searchAt_eq] at h ⊢
  have hle' : max cap 1 ≤ max cap' 1 := by omega
  rw [SearchState.search_of_le (by simp [h]) hle', h]

end Pattern

end OpGraph
