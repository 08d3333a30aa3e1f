import Mathlib.Algebra.Ring.GeomSum
import OpGraph.Proofs.SearchStates

/-!
# The limit on states

A search that is not stopped by its limit ends as the search without a limit does (`Ends`). It
always comes to an end by itself, on graphs with cycles too: a state at the last step is the only
one that comes from it, and a state before that leads on along the hops from its node, of which
there are no more than the fan-out of the graph. So a search takes no more than
`1 + F + … + F ^ (L - 1)` states for a pattern of `L` steps and a fan-out of `F`
(`length_popped_le`), no limit from there on makes a difference, and a lower one can only take
anchors away from the matches (`limit_drops_anchors`).
-/

namespace OpGraph

/-- What a function gives is among what another one gives that agrees with it wherever it gives
something. -/
theorem filterMap_sublist_filterMap {f g : α → Option β} (h : ∀ a b, f a = some b → g a = some b)
    (l : List α) : (l.filterMap f).Sublist (l.filterMap g) := by
  induction l with
  | nil => exact .slnil
  | cons a l ih =>
    rw [List.filterMap_cons, List.filterMap_cons]
    cases hf : f a with
    | some b =>
      rw [h a b hf]
      exact ih.cons_cons b
    | none =>
      cases g a with
      | none => exact ih
      | some b => exact ih.cons b

/-- The largest number of hops that lead on from one node: pairs of an output and a reader of it. -/
def Draft.fanOut (d : Draft) : Nat :=
  ((d.nodes.map fun n => (d.hops n).length).max?).getD 0

theorem Draft.length_hops_le_fanOut {d : Draft} {h : Handle} {node : Node}
    (hnode : d.node? h = some node) : (d.hops node).length ≤ d.fanOut := by
  have hmem : node ∈ d.nodes := List.mem_map_of_mem (Draft.node?_eq_some_iff.1 hnode)
  exact List.le_max?_getD_of_mem (List.mem_map_of_mem hmem)

namespace SearchState

variable {d : Draft} {consumers : String → List Handle} {budget : Nat} {s : SearchState}
  {stack : List SearchState}

/-! ### Searches without a limit -/

/-- How a search ends that takes states from its stack as long as there are any. -/
inductive Ends (d : Draft) (consumers : String → List Handle) :
    List SearchState → SearchOutcome → Prop
  | exhausted : Ends d consumers [] .exhausted
  | found {s stack chain} (h : s.expand d consumers = .found chain) :
      Ends d consumers (s :: stack) (.found chain)
  | next {s stack states outcome} (h : s.expand d consumers = .next states)
      (hrest : Ends d consumers (states ++ stack) outcome) : Ends d consumers (s :: stack) outcome

/-- A search that is not abandoned ends as without a limit. -/
theorem ends_of_search (h : search d consumers budget stack ≠ .abandoned) :
    Ends d consumers stack (search d consumers budget stack) := by
  fun_induction search d consumers budget stack with
  | case1 => exact .exhausted
  | case2 => exact absurd rfl h
  | case3 budget s stack chain hexpand => exact .found hexpand
  | case4 budget s stack states hexpand ih => exact .next hexpand (ih h)

/-! ### Effort -/

/-- The states that come from one with so many steps behind its own, itself included, where no node
has more than a number of hops. -/
def effort (fan : Nat) (stack : List SearchState) : Nat :=
  (stack.map fun s => ∑ i ∈ Finset.range (s.later.length + 1), fan ^ i).sum

theorem effort_cons (fan : Nat) (s : SearchState) (stack : List SearchState) :
    effort fan (s :: stack) =
      ∑ i ∈ Finset.range (s.later.length + 1), fan ^ i + effort fan stack := by
  simp [effort]

theorem effort_append (fan : Nat) (states stack : List SearchState) :
    effort fan (states ++ stack) = effort fan states + effort fan stack := by
  simp [effort]

theorem effort_pos (fan : Nat) (s : SearchState) (stack : List SearchState) :
    0 < effort fan (s :: stack) := by
  rw [effort_cons, geom_sum_succ]
  omega

/-- The states that one leads on to are worth less than it. -/
theorem effort_lt_of_expand {states : List SearchState}
    (h : s.expand d (consumersOf d) = .next states) (stack : List SearchState) :
    effort d.fanOut (states ++ stack) < effort d.fanOut (s :: stack) := by
  rw [effort_append, effort_cons, geom_sum_succ]
  rcases expand_eq_next h with rfl | ⟨node, step, later, b, htakes, hlater, -, rfl⟩
  · simp [effort]
  · have hhops : node.outputs.flatMap (consumersOf d) = (d.hops node).map (·.2) :=
      (d.map_hops node).symm
    have hfan : (d.hops node).length ≤ d.fanOut := Draft.length_hops_le_fanOut htakes.1
    -- each of the states has one step less to go than this one
    have heffort : effort d.fanOut
        ((node.outputs.flatMap (consumersOf d)).map (s.after step later b)) =
          (d.hops node).length * ∑ i ∈ Finset.range s.later.length, d.fanOut ^ i := by
      simp [effort, hhops, after, hlater, Function.comp_def]
    rw [heffort]
    have := Nat.mul_le_mul_right (∑ i ∈ Finset.range s.later.length, d.fanOut ^ i) hfan
    omega

/-- A search takes no more states than its stack is worth. -/
theorem length_popped_le (d : Draft) (budget : Nat) (stack : List SearchState) :
    (popped d (consumersOf d) budget stack).length ≤ effort d.fanOut stack := by
  fun_induction popped d (consumersOf d) budget stack with
  | case1 => simp
  | case2 s stack => exact effort_pos _ s stack
  | case3 budget s stack chain hexpand => exact effort_pos _ s stack
  | case4 budget s stack states hexpand ih =>
    exact Nat.succ_le_of_lt (Nat.lt_of_le_of_lt ih (effort_lt_of_expand hexpand stack))

end SearchState

namespace Pattern

variable {p : Pattern} {d : Draft}

theorem effort_firstStates_le (p : Pattern) (d : Draft) (anchor : Handle) (fan : Nat) :
    SearchState.effort fan (p.firstStates d anchor) ≤
      ∑ i ∈ Finset.range p.steps.length, fan ^ i := by
  unfold firstStates
  split
  · rename_i step later node hsteps _
    split
    · exact Nat.zero_le _
    · simp [SearchState.effort, start, hsteps]
  · exact Nat.zero_le _

/-- **The limit on states.** With a higher limit, every match of a lower one is found again, so that
the matches of the lower one are some of those of the higher one, in order. A limit of zero is one
of a single state. And whatever the limit, the search from an anchor takes no more states than
`1 + F + … + F ^ (L - 1)` for a pattern of `L` steps and a fan-out of `F`: it comes to an end
without a limit, and with one of so many states or more it ends in the same way. -/
theorem limit_drops_anchors (p : Pattern) (d : Draft) :
    p.searchAt d 0 = p.searchAt d 1 ∧
    (∀ cap cap', cap ≤ cap' →
      (∀ anchor chain, p.matchAt d cap anchor = some chain →
        p.matchAt d cap' anchor = some chain) ∧
      (p.findAll d cap).Sublist (p.findAll d cap')) ∧
    ∀ anchor,
      (∀ cap, (p.popped d cap anchor).length ≤
        ∑ i ∈ Finset.range p.steps.length, d.fanOut ^ i) ∧
      ∃ outcome, SearchState.Ends d (SearchState.consumersOf d) (p.firstStates d anchor) outcome ∧
        outcome ≠ .abandoned ∧
        ∀ cap, ∑ i ∈ Finset.range p.steps.length, d.fanOut ^ i ≤ cap →
          p.searchAt d cap anchor = outcome := by
  refine ⟨funext fun anchor => by simp [searchAt_eq], fun cap cap' hle => ⟨?_, ?_⟩,
    fun anchor => ?_⟩
  · exact fun anchor chain hmatch => matchAt_of_le hmatch hle
  · rw [findAll_eq, findAll_eq]
    exact filterMap_sublist_filterMap (fun anchor chain hmatch => matchAt_of_le hmatch hle) _
  · generalize hN : ∑ i ∈ Finset.range p.steps.length, d.fanOut ^ i = N
    have hpopped : ∀ budget, (SearchState.popped d (SearchState.consumersOf d) budget
        (p.firstStates d anchor)).length ≤ N := fun budget =>
      hN ▸ (SearchState.length_popped_le d budget _).trans (effort_firstStates_le p d anchor _)
    have hnever : SearchState.search d (SearchState.consumersOf d) N (p.firstStates d anchor) ≠
        .abandoned := fun h =>
      Nat.not_lt_of_le (hpopped N) (SearchState.search_eq_abandoned_iff.1 h)
    refine ⟨fun cap => hpopped (max cap 1), _, SearchState.ends_of_search hnever, hnever,
      fun cap hcap => ?_⟩
    rw [searchAt_eq]
    exact SearchState.search_of_le hnever (hcap.trans (Nat.le_max_left _ _))

/-- A cycle of two nodes, of which the first one has a reader outside the cycle as well. -/
def loopedGraph : Graph where
  nodes :=
    [{ op := "Relu", inputs := ["b"], outputs := ["a"] },
      { op := "Abs", inputs := ["a"], outputs := ["y"] },
      { op := "Neg", inputs := ["a"], outputs := ["b"] }]
  outputs := [{ name := "y" }]

/-- The pattern of a way around the cycle. -/
def roundTrip : Pattern where
  steps :=
    [{ ops := .oneOf ["Relu"], inputs := [.any], outputs := [.variable 0], line := "Relu(?,t)" },
      { ops := .oneOf ["Neg"], inputs := [.variable 0], outputs := [.any], line := "Neg(t,?)" },
      { ops := .oneOf ["Relu"], inputs := [.any], outputs := [.any], line := "Relu(?,?)" }]
  names := ["t"]

/-- The search around the cycle takes four states, and would take no more than seven. -/
theorem limit_drops_anchors_looped :
    let d := Draft.ofGraph loopedGraph
    parse "Relu(?, t)\nNeg(t, ?)\nRelu(?, ?)" = .ok roundTrip ∧ d.fanOut = 2 ∧
      roundTrip.matchAt d 3 ⟨0⟩ = none ∧
      (∀ cap, 4 ≤ cap → roundTrip.matchAt d cap ⟨0⟩ = some [⟨0⟩, ⟨2⟩, ⟨0⟩]) ∧
      ∀ anchor cap, 7 ≤ cap → roundTrip.searchAt d cap anchor ≠ .abandoned := by
  intro d
  obtain ⟨-, hmatch, hends⟩ := limit_drops_anchors roundTrip d
  have hfan : d.fanOut = 2 := by decide +kernel
  have hthree : roundTrip.matchAt d 3 ⟨0⟩ = none := by
    rw [matchAt_eq_searchFrom]
    decide +kernel
  have hfour : roundTrip.matchAt d 4 ⟨0⟩ = some [⟨0⟩, ⟨2⟩, ⟨0⟩] := by
    rw [matchAt_eq_searchFrom]
    decide +kernel
  refine ⟨by decide +kernel, hfan, hthree, fun cap hcap => (hmatch 4 cap hcap).1 _ _ hfour, ?_⟩
  intro anchor cap hcap
  obtain ⟨-, outcome, -, hnever, hsame⟩ := hends anchor
  rw [hfan] at hsame
  rw [hsame cap hcap]
  exact hnever

end Pattern

end OpGraph
