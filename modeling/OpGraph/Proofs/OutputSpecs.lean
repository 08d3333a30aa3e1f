import OpGraph.Proofs.SearchStates

/-!
# What a match says about its outputs

One assignment of tensors to the variables of a pattern fits a match: every node reads the tensors
that the inputs of its step stand for, and every node but the last one has those that the outputs of
its step stand for at their places. The last step is an exception: the search takes its node
without a look at its outputs, whatever they say (`findAll_withLastOutputs`). So an assignment fits
the whole match just where the outputs of the last step happen to fit
(`findAll_constrains_until_last`).
-/

namespace OpGraph

/-! ### Assignments -/

namespace Visit

variable {v : Visit} {walk : List Visit} {σ : Nat → String}

/-- A node reads the tensors that the inputs of its step stand for. -/
def ReadsAs (v : Visit) (σ : Nat → String) : Prop :=
  ∀ x, Slot.variable x ∈ v.step.inputs → σ x ∈ v.node.inputs

/-- A node has the tensors that the outputs of its step stand for, each at its place. -/
def WritesAs (v : Visit) (σ : Nat → String) : Prop :=
  ∀ i x : Nat, v.step.outputs[i]? = some (.variable x) → v.node.outputs[i]? = some (σ x)

/-- The outputs of a step fit the visits of a walk: the node has an output wherever they have a
variable, and wherever else the walk has the variable among outputs, it stands for this tensor. -/
def OutputsFit (v : Visit) (walk : List Visit) : Prop :=
  ∀ j x : Nat, v.step.outputs[j]? = some (.variable x) → ∃ t, v.node.outputs[j]? = some t ∧
    ∀ w ∈ walk, ∀ i : Nat, w.step.outputs[i]? = some (.variable x) → w.node.outputs[i]? = some t

end Visit

section

variable {walk : List Visit}

/-- Visits that agree have an assignment that stands for all that they bind. -/
theorem Agrees.exists_assignment (h : Agrees walk) :
    ∃ σ : Nat → String, ∀ x t, Binds walk x t → σ x = t := by
  have hone : ∀ x, ∃ t, ∀ u, Binds walk x u → t = u := by
    intro x
    by_cases hx : ∃ t, Binds walk x t
    · obtain ⟨t, ht⟩ := hx
      exact ⟨t, fun u hu => h x t u ht hu⟩
    · exact ⟨"", fun u hu => absurd ⟨u, hu⟩ hx⟩
  choose σ hσ using hone
  exact ⟨σ, hσ⟩

/-- An assignment that stands for what is bound has the outputs of a visit at their places, if all
of these are there. -/
theorem Visit.writesAs_of_binds {v : Visit} {σ : Nat → String} (hv : v ∈ walk)
    (hσ : ∀ x t, Binds walk x t → σ x = t) (hmet : SlotsMet v.step.outputs v.node.outputs) :
    v.WritesAs σ := by
  intro i x hi
  obtain ⟨t, ht, hbinds⟩ := hmet.exists_binds hv hi
  rwa [hσ x t hbinds]

end

namespace Draft

variable {d : Draft} {walk : List Visit} {hops : List Hop} {σ : Nat → String}

/-- An assignment that stands for what the visits before the last one bind fits the inputs of all
visits. -/
theorem Walks.readsAs (h : d.Walks [] walk hops) (hσ : ∀ x t, Binds walk.dropLast x t → σ x = t) :
    ∀ v ∈ walk, v.ReadsAs σ := by
  intro v hv x hx
  obtain ⟨before, after, rfl⟩ := List.append_of_mem hv
  obtain ⟨t, ht, hread⟩ := h.inputs before v after rfl x hx
  rwa [hσ x t ht.dropLast]

/-- The visits of a walk have an assignment, but for the outputs of the last one. -/
theorem Walks.exists_assignment (h : d.Walks [] walk hops) :
    ∃ σ : Nat → String, (∀ v ∈ walk, v.ReadsAs σ) ∧ ∀ v ∈ walk.dropLast, v.WritesAs σ := by
  have hagrees : Agrees walk.dropLast := h.agrees
  obtain ⟨σ, hσ⟩ := hagrees.exists_assignment
  exact ⟨σ, h.readsAs hσ, fun v hv => Visit.writesAs_of_binds hv hσ (h.outputs v hv)⟩

/-- The visits of a walk have an assignment with the outputs of the last one where these fit. -/
theorem Walks.exists_assignment_iff (h : d.Walks [] walk hops) :
    (∃ σ : Nat → String, ∀ v ∈ walk, v.ReadsAs σ ∧ v.WritesAs σ) ↔
      ∀ last, walk.getLast? = some last → last.OutputsFit walk := by
  constructor
  · rintro ⟨σ, hσ⟩ last hlast j x hj
    exact ⟨σ x, (hσ last (List.mem_of_getLast? hlast)).2 j x hj, fun w hw i => (hσ w hw).2 i x⟩
  · intro hfit
    obtain ⟨last, hlast⟩ : ∃ last, walk.getLast? = some last := by
      cases walk with
      | nil => simpa using h.length
      | cons v rest => exact ⟨_, List.getLast?_cons⟩
    have hfit := hfit last hlast
    obtain ⟨rest, rfl⟩ := List.getLast?_eq_some_iff.1 hlast
    have hrest : Agrees rest := by simpa using h.agrees
    have houtputs : ∀ v ∈ rest, SlotsMet v.step.outputs v.node.outputs := by
      simpa using h.outputs
    have hmet : SlotsMet last.step.outputs last.node.outputs := by
      intro j x hj
      obtain ⟨t, ht, -⟩ := hfit j x hj
      exact (List.getElem?_eq_some_iff.1 ht).1
    -- a variable of the last step stands for one tensor, and the others agree without it
    have hagrees : Agrees (rest ++ [last]) := by
      intro x t u ht hu
      by_cases hx : ∃ j : Nat, last.step.outputs[j]? = some (.variable x)
      · obtain ⟨j, hj⟩ := hx
        obtain ⟨o, -, ho⟩ := hfit j x hj
        have hone : ∀ s, Binds (rest ++ [last]) x s → s = o := by
          intro s hs
          obtain ⟨v, hv, i, hi, hs⟩ := binds_iff_exists_getElem?.1 hs
          exact Option.some.inj (hs.symm.trans (ho v hv i hi))
        rw [hone t ht, hone u hu]
      · have hnot : ∀ s, Binds (rest ++ [last]) x s → Binds rest x s := by
          intro s hs
          refine (binds_append_singleton.1 hs).resolve_right fun hmem => hx ?_
          exact List.mem_iff_getElem?.1 (List.of_mem_zip hmem).1
        exact hrest x t u (hnot t ht) (hnot u hu)
    obtain ⟨σ, hσ⟩ := hagrees.exists_assignment
    refine ⟨σ, fun v hv => ⟨h.readsAs (fun x t ht => ?_) v hv, Visit.writesAs_of_binds hv hσ ?_⟩⟩
    · rw [List.dropLast_concat] at ht
      exact hσ x t (binds_append_singleton.2 (.inl ht))
    · rcases List.mem_append.1 hv with hv | hv
      · exact houtputs v hv
      · rwa [List.mem_singleton.1 hv]

end Draft

/-! ### The outputs of the last step -/

/-- Steps of which the last one says something else about its outputs. -/
def PatternStep.withLastOutputs (slots : List Slot) : List PatternStep → List PatternStep
  | [] => []
  | [step] => [{ step with outputs := slots }]
  | step :: next :: steps => step :: withLastOutputs slots (next :: steps)

/-- A pattern whose last step says something else about its outputs. -/
def Pattern.withLastOutputs (p : Pattern) (slots : List Slot) : Pattern :=
  { p with steps := PatternStep.withLastOutputs slots p.steps }

namespace SearchState

variable {d : Draft} {consumers : String → List Handle} {slots : List Slot} {s : SearchState}

/-- A state of a search for a pattern whose last step says something else about its outputs. -/
def withLastOutputs (slots : List Slot) (s : SearchState) : SearchState :=
  match s.later with
  | [] => { s with step := { s.step with outputs := slots } }
  | next :: later => { s with later := PatternStep.withLastOutputs slots (next :: later) }

/-- The step that a state goes on with keeps its outputs unless it is the last one. -/
theorem exists_withLastOutputs_cons (slots : List Slot) (next : PatternStep)
    (later : List PatternStep) :
    ∃ step rest, PatternStep.withLastOutputs slots (next :: later) = step :: rest ∧
      ∀ earlier h b, (⟨earlier, h, step, rest, b⟩ : SearchState) =
        withLastOutputs slots ⟨earlier, h, next, later, b⟩ := by
  cases later with
  | nil => exact ⟨_, _, rfl, fun _ _ _ => rfl⟩
  | cons after later => exact ⟨_, _, rfl, fun _ _ _ => rfl⟩

/-- States lead to the same chain, or to states that differ in the last step again. -/
theorem expand_withLastOutputs (slots : List Slot) (s : SearchState) :
    (s.withLastOutputs slots).expand d consumers =
      match s.expand d consumers with
      | .found chain => .found chain
      | .next states => .next (states.map (withLastOutputs slots)) := by
  obtain ⟨earlier, h, step, later, b⟩ := s
  cases later with
  | nil =>
    -- at the last step the outputs are not looked at
    have hthis : withLastOutputs slots ⟨earlier, h, step, [], b⟩ =
        ⟨earlier, h, { step with outputs := slots }, [], b⟩ := rfl
    rw [hthis]
    unfold expand
    cases d.node? h with
    | none => rfl
    | some node =>
      show (if step.ops.accepts node.op && step.inputsSatisfied node b then _ else _) = _
      dsimp only
      split <;> rfl
  | cons next later =>
    obtain ⟨first, rest, hsteps, hstate⟩ := exists_withLastOutputs_cons slots next later
    have hthis : withLastOutputs slots ⟨earlier, h, step, next :: later, b⟩ =
        ⟨earlier, h, step, first :: rest, b⟩ := by
      show (⟨earlier, h, step, PatternStep.withLastOutputs slots (next :: later), b⟩ :
        SearchState) = _
      rw [hsteps]
    rw [hthis]
    unfold expand
    cases d.node? h with
    | none => rfl
    | some node =>
      dsimp only
      split
      · cases step.bindOutputs node b with
        | none => rfl
        | some bindings =>
          simp only [hstate, List.map_flatMap, List.map_map]
          rfl
      · rfl

theorem search_withLastOutputs (slots : List Slot) (budget : Nat) (stack : List SearchState) :
    search d consumers budget (stack.map (withLastOutputs slots)) =
      search d consumers budget stack := by
  fun_induction search d consumers budget stack with
  | case1 => rw [List.map_nil, search]
  | case2 => rw [List.map_cons, search]
  | case3 budget s stack chain hexpand =>
    rw [List.map_cons, search, expand_withLastOutputs, hexpand]
  | case4 budget s stack states hexpand ih =>
    rw [List.map_cons, search, expand_withLastOutputs, hexpand]
    rw [List.map_append] at ih
    exact ih

end SearchState

namespace Pattern

variable {text : String} {p : Pattern} {d : Draft} {cap cap' : Nat} {anchor : Handle}
  {chain : Chain}

theorem firstStates_withLastOutputs (p : Pattern) (slots : List Slot) (d : Draft)
    (anchor : Handle) : (p.withLastOutputs slots).firstStates d anchor =
      (p.firstStates d anchor).map (SearchState.withLastOutputs slots) := by
  unfold firstStates
  rw [withLastOutputs]
  cases p.steps with
  | nil => rfl
  | cons next later =>
    obtain ⟨step, rest, hcons, hstate⟩ :=
      SearchState.exists_withLastOutputs_cons slots next later
    rw [hcons]
    cases d.node? anchor with
    | none => rfl
    | some node => cases hconst : node.isConstant <;> simp [hconst, start, hstate]

/-- What the last step says about its outputs makes no difference to a match. -/
theorem matchAt_withLastOutputs (p : Pattern) (slots : List Slot) (d : Draft) (cap : Nat) :
    (p.withLastOutputs slots).matchAt d cap = p.matchAt d cap := by
  funext anchor
  rw [matchAt_eq, matchAt_eq, firstStates_withLastOutputs, SearchState.search_withLastOutputs]

/-- What the last step says about its outputs makes no difference to the matches. -/
theorem findAll_withLastOutputs (p : Pattern) (slots : List Slot) (d : Draft) (cap : Nat) :
    (p.withLastOutputs slots).findAll d cap = p.findAll d cap := by
  rw [findAll_eq, findAll_eq, matchAt_withLastOutputs]

/-! ### Matches -/

/-- Every match is the chain of a walk, with any limit on states. -/
theorem Bounded.exists_isWalk (hp : p.Bounded) (h : p.matchAt d cap anchor = some chain) :
    ∃ walk hops, p.IsWalk d anchor walk hops ∧ walk.map (·.handle) = chain := by
  obtain ⟨N, hN⟩ := hp.exists_enough d
  have hfirst := hN (max cap N) (Nat.le_max_right _ _) anchor
  rw [matchAt_of_le h (Nat.le_max_left _ _)] at hfirst
  obtain ⟨hops, ⟨walk, hwalk, hchain⟩, -⟩ := hfirst
  exact ⟨walk, hops, hwalk, hchain⟩

/-- The visits of a chain: its nodes, each with the step at its place. -/
def visits (p : Pattern) (d : Draft) (chain : Chain) : List Visit :=
  (p.steps.zip chain).map fun (step, h) => { step, handle := h, node := (d.node? h).getD {} }

/-- The visits of the chain of a walk are those of the walk. -/
theorem IsWalk.visits_eq {walk : List Visit} {hops : List Hop} (h : p.IsWalk d anchor walk hops) :
    p.visits d (walk.map (·.handle)) = walk := by
  rw [visits, ← h.steps, List.zip_map', List.map_map]
  calc
    _ = walk.map id := List.map_congr_left fun v hv => by
      simp [h.walks.present v hv]
    _ = walk := List.map_id _

/-- **Outputs constrain a match up to its last step.** Every match visits one node for each step,
and one assignment of tensors to variables fits the inputs of all its steps and the outputs of all
but the last. It can fit the outputs of the last step too just where these happen to fit the others:
whatever the last step says about its outputs, the matches are the same. -/
theorem findAll_constrains_until_last (hp : Pattern.parse text = .ok p) (d : Draft) (cap : Nat) :
    (∀ slots, (p.withLastOutputs slots).findAll d cap = p.findAll d cap) ∧
    ∀ chain ∈ p.findAll d cap,
      let visits := p.visits d chain
      visits.map (·.step) = p.steps ∧ visits.map (·.handle) = chain ∧
      (∀ v ∈ visits, d.node? v.handle = some v.node) ∧
      (∃ σ : Nat → String, (∀ v ∈ visits, v.ReadsAs σ) ∧ ∀ v ∈ visits.dropLast, v.WritesAs σ) ∧
      ((∃ σ : Nat → String, ∀ v ∈ visits, v.ReadsAs σ ∧ v.WritesAs σ) ↔
        ∀ last, visits.getLast? = some last → last.OutputsFit visits) := by
  refine ⟨fun slots => p.findAll_withLastOutputs slots d cap, fun chain hchain => ?_⟩
  rw [findAll_eq] at hchain
  obtain ⟨anchor, -, hmatch⟩ := List.mem_filterMap.1 hchain
  obtain ⟨walk, hops, hwalk, rfl⟩ := (parse_bounded hp).exists_isWalk hmatch
  dsimp only
  rw [hwalk.visits_eq]
  exact ⟨hwalk.steps, rfl, hwalk.walks.present, hwalk.walks.exists_assignment,
    hwalk.walks.exists_assignment_iff⟩

/-- The path through the fork has an assignment, since its last step says nothing about outputs. -/
theorem findAll_constrains_forked :
    let d := Draft.ofGraph forkedGraph
    Pattern.parse "Relu(?, r)\nNeg(r, n)\n?(n, ?)" = .ok forkedPath ∧
      forkedPath.findAll d defaultMaxStates = [[⟨0⟩, ⟨2⟩, ⟨3⟩]] ∧
      ∃ σ : Nat → String,
        ∀ v ∈ forkedPath.visits d [⟨0⟩, ⟨2⟩, ⟨3⟩], v.ReadsAs σ ∧ v.WritesAs σ := by
  intro d
  have hparse : Pattern.parse "Relu(?, r)\nNeg(r, n)\n?(n, ?)" = .ok forkedPath := by
    decide +kernel
  have hfound : forkedPath.findAll d defaultMaxStates = [[⟨0⟩, ⟨2⟩, ⟨3⟩]] := by
    rw [findAll_eq, matchAt_eq_searchFrom]
    decide +kernel
  obtain ⟨-, hchains⟩ := findAll_constrains_until_last hparse d defaultMaxStates
  obtain ⟨-, -, -, -, hiff⟩ := hchains [⟨0⟩, ⟨2⟩, ⟨3⟩] (by rw [hfound]; simp)
  refine ⟨hparse, hfound, hiff.2 fun last hlast j x hj => ?_⟩
  obtain rfl := Option.some.inj hlast
  -- the only slot is not a variable
  rcases j with _ | j
  · cases hj
  · simp at hj

/-- A pattern that calls what its last node reads and what it writes by one name. -/
def loopedPair : Pattern where
  steps :=
    [{ ops := .oneOf ["Neg"], inputs := [.any], outputs := [.variable 0], line := "Neg(?,t)" },
      { ops := .oneOf ["Abs"], inputs := [.variable 0], outputs := [.variable 0],
        line := "Abs(t,t)" }]
  names := ["t"]

/-- A match that no assignment fits: its last node reads one tensor and writes another one. -/
theorem findAll_loopedPair :
    let d := Draft.ofGraph forkedGraph
    Pattern.parse "Neg(?, t)\nAbs(t, t)" = .ok loopedPair ∧
      [⟨2⟩, ⟨3⟩] ∈ loopedPair.findAll d defaultMaxStates ∧
      ¬ ∃ σ : Nat → String,
        ∀ v ∈ loopedPair.visits d [⟨2⟩, ⟨3⟩], v.ReadsAs σ ∧ v.WritesAs σ := by
  intro d
  refine ⟨by decide +kernel, ?_, ?_⟩
  · rw [findAll_eq, matchAt_eq_searchFrom]
    decide +kernel
  · rintro ⟨σ, hσ⟩
    obtain ⟨-, hfirst⟩ := hσ _ (.head _)
    obtain ⟨-, hlast⟩ := hσ _ (.tail _ (.head _))
    have hb : some "b" = some (σ 0) := hfirst 0 0 rfl
    have hy : some "y" = some (σ 0) := hlast 0 0 rfl
    exact absurd (hb.trans hy.symm) (by decide)

end Pattern

end OpGraph
