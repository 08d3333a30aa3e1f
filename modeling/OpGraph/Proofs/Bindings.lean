import Mathlib.Tactic.Common
import OpGraph.Match.Search

/-!
# What a walk binds

A walk visits nodes, each for one step of a pattern. The outputs of the steps
bind variables to tensors: which ones is read off the visits, in any order
(`Binds`). The search keeps a list of bindings instead, and goes on only while
the visits agree. The two say the same: binding the outputs of one more step
succeeds exactly where the node has the outputs and the visits still agree
(`Bindings.Holds.exists_bindOutputs_iff`).
-/

namespace OpGraph

/-- A node on a walk, with the step that it takes. -/
structure Visit where
  step : PatternStep
  handle : Handle
  node : Node

/-- Some visit binds a variable to a tensor: they stand at one place among the outputs of its step
and of its node. -/
def Binds (walk : List Visit) (x : Nat) (t : String) : Prop :=
  ∃ v ∈ walk, (Slot.variable x, t) ∈ v.step.outputs.zip v.node.outputs

/-- No variable is bound to two tensors. -/
def Agrees (walk : List Visit) : Prop :=
  ∀ x t u, Binds walk x t → Binds walk x u → t = u

/-- Wherever there is a variable among slots, there is an output. -/
def SlotsMet (slots : List Slot) (outputs : List String) : Prop :=
  ∀ i x : Nat, slots[i]? = some (.variable x) → i < outputs.length

/-- A node reads the tensors that earlier visits bind to the inputs of its step. -/
def Visit.ReadsBound (v : Visit) (earlier : List Visit) : Prop :=
  ∀ x, Slot.variable x ∈ v.step.inputs → ∃ t, Binds earlier x t ∧ t ∈ v.node.inputs

theorem not_binds_nil (x : Nat) (t : String) : ¬ Binds [] x t := by
  rintro ⟨v, hv, -⟩
  exact absurd hv List.not_mem_nil

theorem binds_append_singleton {walk : List Visit} {v : Visit} {x : Nat} {t : String} :
    Binds (walk ++ [v]) x t ↔
      Binds walk x t ∨ (Slot.variable x, t) ∈ v.step.outputs.zip v.node.outputs := by
  constructor
  · rintro ⟨u, hu, h⟩
    rcases List.mem_append.1 hu with hu | hu
    · exact .inl ⟨u, hu, h⟩
    · rw [List.mem_singleton] at hu
      exact .inr (hu ▸ h)
  · rintro (⟨u, hu, h⟩ | h)
    · exact ⟨u, List.mem_append_left _ hu, h⟩
    · exact ⟨v, List.mem_append_right _ (List.mem_singleton.2 rfl), h⟩

/-- What is bound stands at one place among the outputs of a step and of its node. -/
theorem binds_iff_exists_getElem? {walk : List Visit} {x : Nat} {t : String} :
    Binds walk x t ↔ ∃ v ∈ walk, ∃ i : Nat, v.step.outputs[i]? = some (.variable x) ∧
      v.node.outputs[i]? = some t := by
  simp only [Binds, List.mem_iff_getElem?, List.getElem?_zip_eq_some]

/-- A visit whose node has the outputs that its step names binds the variable at each place. -/
theorem SlotsMet.exists_binds {walk : List Visit} {v : Visit} (hv : v ∈ walk)
    (hmet : SlotsMet v.step.outputs v.node.outputs) {i x : Nat}
    (hi : v.step.outputs[i]? = some (.variable x)) :
    ∃ t, v.node.outputs[i]? = some t ∧ Binds walk x t := by
  have hlt := hmet i x hi
  have ht : v.node.outputs[i]? = some v.node.outputs[i] := List.getElem?_eq_getElem hlt
  exact ⟨v.node.outputs[i], ht, binds_iff_exists_getElem?.2 ⟨v, hv, i, hi, ht⟩⟩

/-- A visit before another one is not the last one. -/
theorem Binds.dropLast {before after : List Visit} {v : Visit} {x : Nat} {t : String}
    (h : Binds before x t) : Binds (before ++ v :: after).dropLast x t := by
  obtain ⟨w, hw, ht⟩ := h
  refine ⟨w, ?_, ht⟩
  rw [List.dropLast_append_of_ne_nil (List.cons_ne_nil _ _)]
  exact List.mem_append_left _ hw

theorem slotsMet_cons {slot : Slot} {slots : List Slot} {outputs : List String} :
    SlotsMet (slot :: slots) outputs ↔
      (∀ x, slot = .variable x → outputs ≠ []) ∧ SlotsMet slots outputs.tail := by
  constructor
  · intro h
    refine ⟨fun x hx => ?_, fun i x hx => ?_⟩
    · exact List.ne_nil_of_length_pos (h 0 x (by simp [hx]))
    · have := h (i + 1) x (by simpa using hx)
      rw [List.length_tail]
      omega
  · rintro ⟨hslot, hslots⟩ (_ | i) x hx
    · exact List.length_pos_iff.2 (hslot x (by simpa using hx))
    · have := hslots i x (by simpa using hx)
      rw [List.length_tail] at this
      omega

namespace Bindings

theorem get?_eq_some_iff {b : Bindings} {x : Nat} {t : String} :
    b.get? x = some t ↔ b[x]? = some (some t) := by
  simp [get?, Option.join_eq_some_iff]

/-- Bindings of as many variables are the same where they bind each to the same tensor. -/
theorem ext {b b' : Bindings} (hlen : b'.length = b.length)
    (h : ∀ x t, b'.get? x = some t ↔ b.get? x = some t) : b' = b := by
  refine List.ext_getElem hlen fun x hx' hx => Option.ext fun t => ?_
  have hxt := h x t
  rw [get?_eq_some_iff, get?_eq_some_iff, List.getElem?_eq_getElem hx',
    List.getElem?_eq_getElem hx, Option.some.injEq, Option.some.injEq] at hxt
  exact hxt

theorem get?_set {b : Bindings} {x : Nat} (hx : x < b.length) (t : String) (y : Nat) :
    get? (b.set x (some t)) y = if y = x then some t else b.get? y := by
  unfold get?
  rw [List.getElem?_set]
  by_cases h : x = y
  · subst h
    simp [hx]
  · rw [if_neg h, if_neg (Ne.symm h)]

/-- Binding a variable that is not bound to another tensor adds one binding to the others. -/
theorem get?_set_eq_some_iff {b : Bindings} {x : Nat} (hx : x < b.length) {t : String}
    (hfree : ∀ u, b.get? x = some u → u = t) {y : Nat} {u : String} :
    get? (b.set x (some t)) y = some u ↔ b.get? y = some u ∨ y = x ∧ u = t := by
  rw [get?_set hx]
  by_cases hy : y = x
  · subst hy
    have := hfree u
    simp only [if_true, Option.some.injEq, true_and]
    tauto
  · simp [hy]

/-- A variable can be bound to a tensor unless it is bound to another one. -/
theorem bind?_eq_some_iff {b b' : Bindings} {x : Nat} (hx : x < b.length) {t : String} :
    b.bind? x t = some b' ↔ (∀ u, b.get? x = some u → u = t) ∧ b' = b.set x (some t) := by
  unfold bind?
  rw [List.getElem?_eq_getElem hx]
  cases hb : b[x] with
  | none =>
    have hget : b.get? x = none := by simp [get?, List.getElem?_eq_getElem hx, hb]
    simp [hget, eq_comm]
  | some u =>
    have hget : b.get? x = some u := get?_eq_some_iff.2 (by rw [List.getElem?_eq_getElem hx, hb])
    by_cases hut : u = t
    · subst hut
      have hset : b.set x (some u) = b := by rw [← hb, List.set_getElem_self]
      simp [hget, hset, eq_comm]
    · simp [hget, hut]

end Bindings

namespace PatternStep

/-- What `bindSlots` answers: the variables at the slots are bound to the outputs at the same
places, and all others as before. -/
theorem bindSlots_eq_some_iff {slots : List Slot} {outputs : List String} {b b' : Bindings}
    (hslots : ∀ x, Slot.variable x ∈ slots → x < b.length) :
    bindSlots slots outputs b = some b' ↔
      b'.length = b.length ∧ SlotsMet slots outputs ∧
      ∀ x t, b'.get? x = some t ↔ b.get? x = some t ∨ (Slot.variable x, t) ∈ slots.zip outputs := by
  induction slots generalizing outputs b with
  | nil =>
    simp only [bindSlots, Option.some.injEq, List.zip_nil_left, List.not_mem_nil, or_false]
    constructor
    · rintro rfl
      exact ⟨rfl, by simp [SlotsMet], fun _ _ => Iff.rfl⟩
    · rintro ⟨hlen, -, h⟩
      exact (Bindings.ext hlen h).symm
  | cons slot slots ih =>
    cases slot with
    | any =>
      have hzip : ∀ x t, (Slot.variable x, t) ∈ (Slot.any :: slots).zip outputs ↔
          (Slot.variable x, t) ∈ slots.zip outputs.tail := by
        intro x t
        cases outputs <;> simp
      rw [bindSlots, ih fun x hx => hslots x (List.mem_cons_of_mem _ hx), slotsMet_cons]
      simp [hzip]
    | «variable» x =>
      cases outputs with
      | nil => simp [bindSlots, slotsMet_cons]
      | cons o outputs =>
        have hx : x < b.length := hslots x List.mem_cons_self
        have hzip : ∀ y t, (Slot.variable y, t) ∈ (Slot.variable x :: slots).zip (o :: outputs) ↔
            (y = x ∧ t = o) ∨ (Slot.variable y, t) ∈ slots.zip outputs := by
          intro y t
          simp
        have hrest : ∀ y, Slot.variable y ∈ slots → y < List.length (b.set x (some o)) := by
          simpa using fun y hy => hslots y (List.mem_cons_of_mem _ hy)
        rw [bindSlots, Option.bind_eq_some_iff, slotsMet_cons]
        constructor
        · rintro ⟨c, hc, hc'⟩
          obtain ⟨hfree, rfl⟩ := (Bindings.bind?_eq_some_iff hx).1 hc
          obtain ⟨hlen, hmet, hget⟩ := (ih hrest).1 hc'
          refine ⟨by simpa using hlen, ⟨by simp, hmet⟩, fun y t => ?_⟩
          rw [hget, Bindings.get?_set_eq_some_iff hx hfree, hzip, or_assoc]
        · rintro ⟨hlen, ⟨-, hmet⟩, hget⟩
          -- the variable has one tensor in the end, so it was not bound to another one before
          have ho : b'.get? x = some o := (hget x o).2 (.inr ((hzip x o).2 (.inl ⟨rfl, rfl⟩)))
          have hfree : ∀ u, b.get? x = some u → u = o := by
            intro u hu
            have hu' := (hget x u).2 (.inl hu)
            rw [ho] at hu'
            exact (Option.some.inj hu').symm
          refine ⟨_, (Bindings.bind?_eq_some_iff hx).2 ⟨hfree, rfl⟩, ?_⟩
          refine (ih hrest).2 ⟨by simpa using hlen, hmet, fun y t => ?_⟩
          rw [hget, Bindings.get?_set_eq_some_iff hx hfree, hzip, or_assoc]

end PatternStep

namespace Bindings

/-- The bindings of `n` variables that hold what a walk binds. -/
structure Holds (b : Bindings) (n : Nat) (walk : List Visit) : Prop where
  length : b.length = n
  get? : ∀ x t, b.get? x = some t ↔ Binds walk x t

variable {b b' : Bindings} {n : Nat} {walk : List Visit} {v : Visit}

theorem Holds.nil (n : Nat) : Holds (List.replicate n none) n [] where
  length := List.length_replicate
  get? x t := by simp [get?_eq_some_iff, List.getElem?_replicate, not_binds_nil]

theorem Holds.agrees (h : b.Holds n walk) : Agrees walk := by
  intro x t u ht hu
  have htu := ((h.get? x t).2 ht).symm.trans ((h.get? x u).2 hu)
  exact Option.some.inj htu

/-- Only variables that there are can be bound. -/
theorem Holds.lt_of_binds (h : b.Holds n walk) {x : Nat} {t : String} (ht : Binds walk x t) :
    x < n := by
  have hx := get?_eq_some_iff.1 ((h.get? x t).2 ht)
  rw [← h.length]
  exact (List.getElem?_eq_some_iff.1 hx).1

/-- A step that looks its inputs up in the bindings sees what earlier visits bind. -/
theorem Holds.inputsSatisfied_iff (h : b.Holds n walk) :
    v.step.inputsSatisfied v.node b ↔ v.ReadsBound walk := by
  have hslot : ∀ x, ((b.get? x).map v.node.reads).getD false = true ↔
      ∃ t, Binds walk x t ∧ t ∈ v.node.inputs := by
    intro x
    simp only [← h.get?]
    cases b.get? x <;> simp [Node.reads]
  rw [PatternStep.inputsSatisfied, List.all_eq_true]
  constructor
  · intro hall x hx
    exact (hslot x).1 (hall _ hx)
  · rintro hreads (_ | x) hx
    · rfl
    · exact (hslot x).2 (hreads x hx)

open Classical in
/-- A walk that agrees has bindings that hold what it binds. -/
theorem exists_holds (hagrees : Agrees walk) (hlt : ∀ x t, Binds walk x t → x < n) :
    ∃ b : Bindings, b.Holds n walk := by
  refine ⟨(List.range n).map fun x => if h : ∃ t, Binds walk x t then some h.choose else none,
    by simp, fun x t => ?_⟩
  rw [get?_eq_some_iff, List.getElem?_map]
  constructor
  · intro h
    obtain ⟨y, hy, hyt⟩ := Option.map_eq_some_iff.1 h
    obtain ⟨-, rfl⟩ : x < n ∧ x = y := by simpa [List.getElem?_eq_some_iff] using hy
    split at hyt
    · rename_i hx
      exact Option.some.inj hyt ▸ hx.choose_spec
    · simp at hyt
  · intro ht
    have hx : ∃ t, Binds walk x t := ⟨t, ht⟩
    rw [List.getElem?_range (hlt x t ht), Option.map_some, dif_pos hx,
      hagrees x _ t hx.choose_spec ht]

/-- To bind the outputs of a further step is to hold what the walk binds with one visit more. -/
theorem Holds.bindOutputs_eq_some_iff (h : b.Holds n walk)
    (hv : ∀ x, Slot.variable x ∈ v.step.outputs → x < n) :
    v.step.bindOutputs v.node b = some b' ↔
      SlotsMet v.step.outputs v.node.outputs ∧ b'.Holds n (walk ++ [v]) := by
  rw [PatternStep.bindOutputs, PatternStep.bindSlots_eq_some_iff (by simpa [h.length] using hv)]
  constructor
  · rintro ⟨hlen, hmet, hget⟩
    refine ⟨hmet, hlen.trans h.length, fun x t => ?_⟩
    rw [hget, h.get?, binds_append_singleton]
  · rintro ⟨hmet, hlen, hget⟩
    refine ⟨hlen.trans h.length.symm, hmet, fun x t => ?_⟩
    rw [hget, h.get?, binds_append_singleton]

/-- The outputs of a further step can be bound where the node has them and the walk still agrees
with one visit more. -/
theorem Holds.exists_bindOutputs_iff (h : b.Holds n walk)
    (hv : ∀ x, Slot.variable x ∈ v.step.outputs → x < n) :
    (∃ b', v.step.bindOutputs v.node b = some b') ↔
      SlotsMet v.step.outputs v.node.outputs ∧ Agrees (walk ++ [v]) := by
  simp only [h.bindOutputs_eq_some_iff hv]
  constructor
  · rintro ⟨b', hmet, hb'⟩
    exact ⟨hmet, hb'.agrees⟩
  · rintro ⟨hmet, hagrees⟩
    have hlt : ∀ x t, Binds (walk ++ [v]) x t → x < n := by
      intro x t ht
      rcases binds_append_singleton.1 ht with ht | ht
      · exact h.lt_of_binds ht
      · exact hv x (List.of_mem_zip ht).1
    obtain ⟨b', hb'⟩ := exists_holds hagrees hlt
    exact ⟨b', hmet, hb'⟩

end Bindings

end OpGraph
