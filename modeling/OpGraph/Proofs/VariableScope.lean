import OpGraph.Proofs.PatternGrammar
import OpGraph.Proofs.SearchStates

/-!
# The scope of variables

In a pattern that is read, every slot has a variable that there is, and an input has one that an
output of an earlier step has (`Pattern.WellScoped`). The search relies on it without a check: it
takes a state only after states for all earlier steps, each of which has bound the variables of its
outputs (`SearchState.InScope`). So whatever the graph, the anchor and the limit, the search never
meets a step that there is not, an input whose variable is not bound, or an output whose variable
has no place among the bindings (`popped_in_scope`).
-/

namespace OpGraph

namespace Pattern

variable {text : String} {p : Pattern} {lines : List Line} {vars names : List String} {x : Nat}

/-! ### Patterns -/

/-- The variables of a pattern have names of their own, the slots have variables that there are, and
the inputs of a step have variables that outputs of earlier steps have. -/
structure WellScoped (p : Pattern) : Prop where
  nodup : p.names.Nodup
  lt_length : ∀ step ∈ p.steps, ∀ x,
    Slot.variable x ∈ step.inputs ∨ Slot.variable x ∈ step.outputs → x < p.names.length
  bound : ∀ earlier step later, p.steps = earlier ++ step :: later →
    ∀ x, Slot.variable x ∈ step.inputs → ∃ before ∈ earlier, Slot.variable x ∈ before.outputs

theorem mem_map_slotOf :
    Slot.variable x ∈ names.map (slotOf vars) ↔ ∃ n ∈ names, n ≠ "?" ∧ vars.idxOf n = x := by
  have hslot : ∀ n, slotOf vars n = .variable x ↔ n ≠ "?" ∧ vars.idxOf n = x := by
    intro n
    by_cases hn : n = "?" <;> simp [slotOf, hn]
  simp only [List.mem_map, hslot]

/-- The pattern of lines is well scoped where the names that are read in any of them are bound. -/
theorem wellScoped_ofLines (h : Scoped lines) : (ofLines lines).WellScoped where
  nodup := nodup_variableNames lines
  lt_length := by
    intro step hstep x hx
    obtain ⟨l, hl, rfl⟩ := List.mem_map.1 hstep
    have hlt : ∀ m ∈ lines, ∀ n ∈ m.outputs.names, n ≠ "?" →
        (variableNames lines).idxOf n < (variableNames lines).length := fun m hm n hn hne =>
      List.idxOf_lt_length_of_mem (mem_variableNames.2 ⟨hne, m, hm, hn⟩)
    rcases hx with hx | hx <;> obtain ⟨n, hn, hne, rfl⟩ := mem_map_slotOf.1 hx
    · obtain ⟨earlier, later, hlines⟩ := List.append_of_mem hl
      obtain ⟨m, hm, hn'⟩ := h earlier l later hlines n hn hne
      exact hlt m (hlines ▸ List.mem_append_left _ hm) n hn' hne
    · exact hlt l hl n hn hne
  bound := by
    intro earlier step later hsteps x hx
    obtain ⟨before, rest, rfl, rfl, hrest⟩ := List.map_eq_append_iff.1 hsteps
    obtain ⟨l, after, rfl, rfl, -⟩ := List.map_eq_cons_iff.1 hrest
    obtain ⟨n, hn, hne, rfl⟩ := mem_map_slotOf.1 hx
    obtain ⟨m, hm, hn'⟩ := h before l after rfl n hn hne
    exact ⟨_, List.mem_map_of_mem hm, mem_map_slotOf.2 ⟨n, hn', hne, rfl⟩⟩

theorem parse_wellScoped (h : parse text = .ok p) : p.WellScoped := by
  let motive (p : Pattern) : Prop := ∃ lines, Scoped lines ∧ p = ofLines lines
  have hline : ∀ p line q, motive p → p.addLine line = .ok q → motive q := by
    rintro p line q ⟨lines, hscoped, rfl⟩ hq
    obtain ⟨l, -, -, hbound, rfl⟩ := (addLine_eq_ok_iff hscoped).1 hq
    exact ⟨lines ++ [l], scoped_concat.2 ⟨hscoped, hbound⟩, rfl⟩
  obtain ⟨lines, hscoped, rfl⟩ := parse_induction ⟨[], scoped_nil, rfl⟩ hline h
  exact wellScoped_ofLines hscoped

end Pattern

/-! ### States -/

namespace SearchState

variable {p : Pattern} {d : Draft} {s t : SearchState} {states : List SearchState}

/-- A state stands after visits for all steps before its own, and what follows are the steps after
it. Each of the visits had the outputs that its step names. -/
def InScope (p : Pattern) (d : Draft) (s : SearchState) : Prop :=
  ∃ visits, s.Stands d p.names.length visits ∧
    p.steps = visits.map (·.step) ++ s.step :: s.later ∧
    ∀ v ∈ visits, SlotsMet v.step.outputs v.node.outputs

theorem inScope_start {anchor : Handle} (hp : p.Bounded) (hs : s ∈ p.firstStates d anchor) :
    s.InScope p d := by
  obtain ⟨step, later, node, hsteps, hnode, hmovable, rfl⟩ := Pattern.mem_firstStates.1 hs
  exact ⟨[], Pattern.start_stands hp hsteps hnode hmovable, by simpa [Pattern.start], by simp⟩

theorem InScope.next (hs : s.InScope p d) (h : s.expand d (consumersOf d) = .next states)
    (ht : t ∈ states) : t.InScope p d := by
  obtain ⟨visits, hstands, hsteps, hmet⟩ := hs
  obtain ⟨node, step, later, b, o, handle, htakes, hlater, hb, ho, hhandle, rfl⟩ :=
    exists_after_of_mem h ht
  -- the handle is one that a hop leads to
  have hmem : handle ∈ (d.hops node).map (·.2) := by
    rw [Draft.map_hops]
    exact List.mem_flatMap.2 ⟨o, ho, hhandle⟩
  obtain ⟨⟨hop, _⟩, hhop, rfl⟩ := List.mem_map.1 hmem
  refine ⟨_, hstands.after hlater hb hhop, by simp [hsteps, after, hlater], ?_⟩
  have hmet' : SlotsMet s.step.outputs node.outputs :=
    ((hstands.holds.bindOutputs_eq_some_iff (v := ⟨s.step, s.handle, node⟩)
      (hstands.bounded s.step List.mem_cons_self)).1 hb).1
  intro v hv
  rcases List.mem_append.1 hv with hv | hv
  · exact hmet v hv
  · rwa [List.mem_singleton.1 hv]

theorem inScope_of_mem_popped {cap : Nat} {anchor : Handle} (hp : p.Bounded)
    (hs : s ∈ p.popped d cap anchor) : s.InScope p d :=
  Pattern.forall_mem_popped (fun _ hs => inScope_start hp hs) (fun _ _ hs h _ ht => hs.next h ht) s
    hs

variable (hs : s.InScope p d)
include hs

/-- The step of a state is the one at the place that its chain has come to. -/
theorem InScope.drop_steps : p.steps.drop s.earlier.length = s.step :: s.later := by
  obtain ⟨visits, hstands, hsteps, -⟩ := hs
  rw [hstands.handles, hsteps, List.length_map, ← List.length_map (·.step), List.drop_left]

/-- The inputs of the step name variables that are bound. -/
theorem InScope.exists_get? (hp : p.WellScoped) {x : Nat} (hx : Slot.variable x ∈ s.step.inputs) :
    ∃ t, s.bindings.get? x = some t := by
  obtain ⟨visits, hstands, hsteps, hmet⟩ := hs
  obtain ⟨before, hbefore, hx'⟩ := hp.bound _ _ _ hsteps x hx
  obtain ⟨v, hv, rfl⟩ := List.mem_map.1 hbefore
  obtain ⟨i, hi⟩ := List.mem_iff_getElem?.1 hx'
  obtain ⟨t, -, ht⟩ := (hmet v hv).exists_binds hv hi
  exact ⟨t, (hstands.holds.get? x t).2 ht⟩

/-- While the outputs of the step are bound, slot by slot, every variable among them has a place. -/
theorem InScope.lt_length {node : Node} {before after : List Slot} {x : Nat} {b : Bindings}
    (hslots : s.step.outputs = before ++ .variable x :: after)
    (hb : PatternStep.bindSlots before node.outputs s.bindings = some b) : x < b.length := by
  obtain ⟨visits, hstands, -, -⟩ := hs
  have hlt : ∀ y, Slot.variable y ∈ s.step.outputs → y < s.bindings.length := by
    rw [hstands.holds.length]
    exact hstands.bounded s.step List.mem_cons_self
  obtain ⟨hlen, -, -⟩ := (PatternStep.bindSlots_eq_some_iff fun y hy =>
    hlt y (hslots ▸ List.mem_append_left _ hy)).1 hb
  rw [hlen]
  exact hlt x (by simp [hslots])

end SearchState

/-- **The scope of variables.** A pattern that is read has distinct names, variables that there are,
and inputs whose variables are bound by outputs of earlier steps. Hence every state that the search
takes from its stack, on any graph, from any anchor and with any limit, is at a step of the pattern,
the one that its chain has come to; the variables that the inputs of the step name are bound; and
each variable among its outputs has a place in the bindings when it is its turn to be bound. -/
theorem Pattern.popped_in_scope {text : String} {p : Pattern} (hp : parse text = .ok p) :
    p.WellScoped ∧
    ∀ (d : Draft) (cap : Nat) (anchor : Handle), ∀ s ∈ p.popped d cap anchor,
      p.steps.drop s.earlier.length = s.step :: s.later ∧
      (∀ x, Slot.variable x ∈ s.step.inputs → ∃ t, s.bindings.get? x = some t) ∧
      ∀ (node : Node) (before after : List Slot) (x : Nat) (b : Bindings),
        d.node? s.handle = some node → s.step.outputs = before ++ .variable x :: after →
        PatternStep.bindSlots before node.outputs s.bindings = some b → x < b.length := by
  have hscoped : p.WellScoped := parse_wellScoped hp
  refine ⟨hscoped, fun d cap anchor s hs => ?_⟩
  have hin : s.InScope p d := SearchState.inScope_of_mem_popped (parse_bounded hp) hs
  exact ⟨hin.drop_steps, fun x hx => hin.exists_get? hscoped hx,
    fun node before after x b _ hslots hb => hin.lt_length hslots hb⟩

/-- The search along the fork takes four states, each with its variables bound. -/
theorem Pattern.popped_in_scope_forked :
    let d := Draft.ofGraph forkedGraph
    parse "Relu(?, r)\nNeg(r, n)\n?(n, ?)" = .ok forkedPath ∧ forkedPath.WellScoped ∧
      (forkedPath.popped d 100 ⟨0⟩).length = 4 ∧
      ∀ s ∈ forkedPath.popped d 100 ⟨0⟩,
        ∀ x, Slot.variable x ∈ s.step.inputs → ∃ t, s.bindings.get? x = some t := by
  intro d
  have hparse : parse "Relu(?, r)\nNeg(r, n)\n?(n, ?)" = .ok forkedPath := by
    decide +kernel
  have hconsumers : SearchState.consumersOf d = fun t => if t = "" then [] else d.consumers t :=
    funext d.getD_consumerMap
  obtain ⟨hscoped, hstates⟩ := popped_in_scope hparse
  refine ⟨hparse, hscoped, ?_, fun s hs => (hstates d 100 ⟨0⟩ s hs).2.1⟩
  rw [popped, hconsumers]
  decide +kernel

end OpGraph
