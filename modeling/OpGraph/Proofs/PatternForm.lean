import OpGraph.Pattern.Parser

/-!
# The form of patterns that are read

A pattern grows line by line: `Pattern.addLine` adds one step and may add names.
So what holds of the empty pattern and stays true with each line holds of every
pattern that is read (`Pattern.parse_induction`). In particular the variables of
its steps are places among its names (`Pattern.parse_bounded`).
-/

namespace OpGraph.Pattern

/-- What a line adds: one step, and the names that its outputs bring. -/
theorem addLine_eq_ok {p q : Pattern} {line : List Char} (h : p.addLine line = .ok q) :
    ∃ parts inputs, LineParts.ofLine line = .ok parts ∧
      parts.inputs.mapM (inputSlot p.names (String.ofList line)) = .ok inputs ∧
      q = { steps := p.steps ++
              [{ ops := parts.ops, inputs, outputs := (outputSlots p.names parts.outputs).1
                 line := String.ofList line }]
            names := (outputSlots p.names parts.outputs).2 } := by
  unfold addLine at h
  cases hparts : LineParts.ofLine line with
  | error e =>
    rw [hparts] at h
    cases h
  | ok parts =>
    rw [hparts] at h
    change (parts.inputs.mapM (inputSlot p.names (String.ofList line)) >>= _) = _ at h
    simp only [bind, Except.bind] at h
    cases hinputs : parts.inputs.mapM (inputSlot p.names (String.ofList line)) with
    | error e => simp [hinputs] at h
    | ok inputs =>
      simp only [hinputs, pure, Except.pure, Except.ok.injEq] at h
      exact ⟨parts, inputs, rfl, hinputs, h.symm⟩

/-- A pattern that is read is read line by line. -/
theorem foldlM_of_parse {text : String} {p : Pattern} (h : parse text = .ok p) :
    (linesOf text).foldlM addLine {} = .ok p := by
  obtain ⟨q, hq, h⟩ := Except.bind_eq_ok_iff.1 h
  split at h <;> cases h
  exact hq

/-- What holds of the empty pattern and stays true with every line holds of a pattern that is
read. -/
theorem parse_induction {motive : Pattern → Prop} (hempty : motive {})
    (hline : ∀ p line q, motive p → p.addLine line = .ok q → motive q) {text : String}
    {p : Pattern} (h : parse text = .ok p) : motive p := by
  have hfold : ∀ (lines : List (List Char)) (p q : Pattern), motive p →
      lines.foldlM addLine p = Except.ok q → motive q := by
    intro lines
    induction lines with
    | nil =>
      intro p q hp hq
      cases hq
      exact hp
    | cons line lines ih =>
      intro p q hp hq
      rw [List.foldlM_cons, Except.bind_eq_ok_iff] at hq
      obtain ⟨p', hadd, hq⟩ := hq
      exact ih p' q (hline p line p' hp hadd) hq
  exact hfold _ _ _ hempty (foldlM_of_parse h)

/-- The variables of output slots are places among the names that the slots bring, and those start
with the names before. -/
theorem outputSlots_bounded (bound names : List String) :
    bound.length ≤ (outputSlots bound names).2.length ∧
      ∀ i, Slot.variable i ∈ (outputSlots bound names).1 →
        i < (outputSlots bound names).2.length := by
  fun_induction outputSlots bound names with
  | case1 bound => simp
  | case2 bound names slots after heq ih => simpa [heq] using ih
  | case3 bound name names _ index hindex slots after heq ih =>
    have hlt : index < bound.length := by
      rw [List.idxOf?_eq_some_iff] at hindex
      exact hindex.1
    rw [heq] at ih
    refine ⟨ih.1, fun i hi => ?_⟩
    rcases List.mem_cons.1 hi with hi | hi
    · cases hi
      exact Nat.lt_of_lt_of_le hlt ih.1
    · exact ih.2 i hi
  | case4 bound name names _ hindex slots after heq ih =>
    rw [heq, List.length_append, List.length_singleton] at ih
    refine ⟨Nat.le_of_succ_le ih.1, fun i hi => ?_⟩
    rcases List.mem_cons.1 hi with hi | hi
    · cases hi
      exact ih.1
    · exact ih.2 i hi

/-- The variables that the outputs of steps bind are places among the names. -/
def Bounded (p : Pattern) : Prop :=
  ∀ step ∈ p.steps, ∀ i, Slot.variable i ∈ step.outputs → i < p.names.length

theorem parse_bounded {text : String} {p : Pattern} (h : parse text = .ok p) : p.Bounded := by
  refine parse_induction (motive := Bounded) (by simp [Bounded]) ?_ h
  intro p line q hp hq step hstep i hi
  obtain ⟨parts, inputs, -, -, rfl⟩ := addLine_eq_ok hq
  obtain ⟨hle, hslots⟩ := outputSlots_bounded p.names parts.outputs
  rcases List.mem_append.1 hstep with hstep | hstep
  · exact Nat.lt_of_lt_of_le (hp step hstep i hi) hle
  · rw [List.mem_singleton.1 hstep] at hi
    exact hslots i hi

end OpGraph.Pattern
