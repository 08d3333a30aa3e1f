import Mathlib.Data.List.Basic
import OpGraph.Proofs.PatternText

/-!
# Reading line by line

A text that is put together from others has their lines (`linesOf_intercalate`), and each line is
read against what the lines before it have given. So a text that is read is read up to any of its
lines, with the first steps and the first names of the whole pattern; and where a text is not read,
the first line at fault decides the error, which names it, whatever comes behind
(`parse_line_by_line`).
-/

namespace OpGraph

/-- An error that lies in a line of a pattern and names it. -/
def Error.Names (e : Error) (line : String) : Prop :=
  (∃ fault, e = .patternSyntax line fault) ∨ ∃ name, e = .unboundVariable name line

/-- Where steps one after the other fail, the ones before some step succeed, and this one fails. -/
theorem exists_of_foldlM_eq_error {ε σ α : Type} {f : σ → α → Except ε σ} {l : List α} {s : σ}
    {e : ε} (h : l.foldlM f s = .error e) :
    ∃ before a after t, l = before ++ a :: after ∧ before.foldlM f s = .ok t ∧
      f t a = .error e := by
  induction l generalizing s with
  | nil => cases h
  | cons a l ih =>
    rw [List.foldlM_cons, Except.bind_eq_error_iff] at h
    rcases h with h | ⟨s', hs', h⟩
    · exact ⟨[], a, l, s, rfl, rfl, h⟩
    · obtain ⟨before, b, after, t, rfl, hbefore, hb⟩ := ih h
      refine ⟨a :: before, b, after, t, rfl, ?_, hb⟩
      rw [List.foldlM_cons, Except.bind_eq_ok_iff]
      exact ⟨s', hs', hbefore⟩

/-- A step that fails is the end, whatever steps come behind. -/
theorem foldlM_append_cons_of_error {ε σ α : Type} {f : σ → α → Except ε σ} {before : List α}
    {a : α} {s t : σ} {e : ε} (hbefore : before.foldlM f s = .ok t) (h : f t a = .error e)
    (after : List α) : (before ++ a :: after).foldlM f s = .error e := by
  rw [List.foldlM_append, hbefore]
  show (a :: after).foldlM f t = .error e
  rw [List.foldlM_cons, h]
  rfl

namespace Pattern

variable {p q : Pattern} {text : String} {texts : List (List Char)} {e : Error}

/-! ### Lines -/

/-- A line of a text that is not blank. -/
structure IsLine (line : String) : Prop where
  unbroken : '\n' ∉ line.toList
  ne_nil : Text.dropBlanks line.toList ≠ []

instance (line : String) : Decidable (IsLine line) :=
  decidable_of_iff ('\n' ∉ line.toList ∧ Text.dropBlanks line.toList ≠ [])
    ⟨fun ⟨h, h'⟩ => ⟨h, h'⟩, fun ⟨h, h'⟩ => ⟨h, h'⟩⟩

/-- What is left of a line without its blanks. -/
def stripped (line : String) : String :=
  String.ofList (Text.dropBlanks line.toList)

theorem linesOf_append (s t : String) : linesOf (s ++ "\n" ++ t) = linesOf s ++ linesOf t := by
  have hbreak : (s ++ "\n" ++ t).toList = s.toList ++ '\n' :: t.toList := by simp
  rw [linesOf, hbreak, Text.split_append_cons, List.map_append, List.filter_append]
  rfl

/-- A text that is put together from others has their lines. -/
theorem linesOf_intercalate (texts : List String) :
    linesOf (String.intercalate "\n" texts) = texts.flatMap linesOf := by
  induction texts with
  | nil => rfl
  | cons s texts ih =>
    cases texts with
    | nil => simp
    | cons t texts => rw [String.intercalate_cons_cons, linesOf_append, ih, ← List.flatMap_cons]

theorem IsLine.linesOf_eq {line : String} (h : IsLine line) :
    linesOf line = [Text.dropBlanks line.toList] := by
  rw [linesOf, Text.split_of_not_mem h.unbroken]
  simp [h.ne_nil]

/-- Lines that are not blank are the lines of the text that they make up. -/
theorem flatMap_linesOf {lines : List String} (h : ∀ l ∈ lines, IsLine l) :
    lines.flatMap linesOf = lines.map fun l => Text.dropBlanks l.toList := by
  rw [List.flatMap_congr fun l hl => (h l hl).linesOf_eq, ← List.map_eq_flatMap]

/-! ### Reading -/

/-- The names before output slots come first among those after them. -/
theorem prefix_outputSlots (bound names : List String) : bound <+: (outputSlots bound names).2 := by
  fun_induction outputSlots bound names with
  | case1 bound => exact List.prefix_rfl
  | case2 bound names slots after heq ih => simpa [heq] using ih
  | case3 bound name names hname index hindex slots after heq ih => simpa [heq] using ih
  | case4 bound name names hname hindex slots after heq ih =>
    rw [heq] at ih
    exact (List.prefix_append bound [name]).trans ih

/-- Reading lines adds one step a line, and may add names. -/
theorem exists_of_foldlM (h : texts.foldlM addLine p = .ok q) :
    ∃ steps, q.steps = p.steps ++ steps ∧ steps.length = texts.length ∧ p.names <+: q.names := by
  induction texts generalizing p with
  | nil =>
    cases h
    exact ⟨[], by simp, rfl, List.prefix_rfl⟩
  | cons line texts ih =>
    rw [List.foldlM_cons, Except.bind_eq_ok_iff] at h
    obtain ⟨r, hadd, h⟩ := h
    obtain ⟨steps, hsteps, hlength, hnames⟩ := ih h
    obtain ⟨parts, inputs, -, -, rfl⟩ := addLine_eq_ok hadd
    refine ⟨_ :: steps, by rw [hsteps, List.append_assoc, List.singleton_append], ?_, ?_⟩
    · rw [List.length_cons, List.length_cons, hlength]
    · exact (prefix_outputSlots p.names parts.outputs).trans hnames

/-- A text that is not blank is read as its lines are. -/
theorem parse_eq_foldlM (h : linesOf text ≠ []) :
    parse text = (linesOf text).foldlM addLine {} := by
  unfold parse
  cases hfold : (linesOf text).foldlM addLine {} with
  | error e => rfl
  | ok q =>
    obtain ⟨steps, hsteps, hlength, -⟩ := exists_of_foldlM hfold
    have hne : q.steps ≠ [] := by
      rw [hsteps]
      exact List.ne_nil_of_length_pos (by simpa [hlength] using List.length_pos_iff.2 h)
    simp [hne, bind, Except.bind, pure, Except.pure]

theorem exists_of_mapM_eq_error {bound names : List String} {line : String}
    (h : names.mapM (inputSlot bound line) = .error e) :
    ∃ name, e = .unboundVariable name line := by
  induction names with
  | nil => cases h
  | cons name names ih =>
    rw [List.mapM_cons, Except.bind_eq_error_iff] at h
    rcases h with h | ⟨slot, -, h⟩
    · unfold inputSlot at h
      split at h
      · cases h
      · split at h <;> cases h
        exact ⟨name, rfl⟩
    · rcases Except.bind_eq_error_iff.1 h with h | ⟨slots, -, h⟩
      · exact ih h
      · cases h

/-- A line that is not read is named by the error. -/
theorem names_of_addLine {line : List Char} (h : p.addLine line = .error e) :
    e.Names (String.ofList line) := by
  unfold addLine at h
  rcases Except.bind_eq_error_iff.1 h with h | ⟨parts, -, h⟩
  · cases hparts : LineParts.ofLine line with
    | ok parts => simp [hparts, Except.mapError] at h
    | error fault =>
      rw [hparts] at h
      cases h
      exact .inl ⟨fault, rfl⟩
  · rcases Except.bind_eq_error_iff.1 h with h | ⟨inputs, -, h⟩
    · exact .inr (exists_of_mapM_eq_error h)
    · cases h

section

variable {lines before : List String}

/-- Lines that are not blank are read one after the other. -/
theorem parse_intercalate (hne : lines ≠ []) (h : ∀ l ∈ lines, IsLine l) :
    parse (String.intercalate "\n" lines) =
      (lines.map fun l => Text.dropBlanks l.toList).foldlM addLine {} := by
  have hlines : linesOf (String.intercalate "\n" lines) =
      lines.map fun l => Text.dropBlanks l.toList := by
    rw [linesOf_intercalate, flatMap_linesOf h]
  rw [parse_eq_foldlM, hlines]
  rw [hlines]
  simpa using hne

/-- Where a line fails behind others that are read, so does every text that begins with them. -/
theorem parse_of_addLine_eq_error {line : String} (hbefore : ∀ l ∈ before, IsLine l)
    (hline : IsLine line)
    (hq : (before.map fun l => Text.dropBlanks l.toList).foldlM addLine {} = .ok q)
    (he : q.addLine (Text.dropBlanks line.toList) = .error e) (rest : List String) :
    parse (String.intercalate "\n" (before ++ line :: rest)) = .error e := by
  have hlines : linesOf (String.intercalate "\n" (before ++ line :: rest)) =
      (before.map fun l => Text.dropBlanks l.toList) ++
        Text.dropBlanks line.toList :: rest.flatMap linesOf := by
    rw [linesOf_intercalate, List.flatMap_append, flatMap_linesOf hbefore, List.flatMap_cons,
      hline.linesOf_eq, List.singleton_append]
  rw [parse_eq_foldlM (by simp [hlines]), hlines]
  exact foldlM_append_cons_of_error hq he _

/-- What is read of a text of lines starts with what is read of its first lines. -/
theorem exists_parse_take {k : Nat} (hk : 0 < k) (hle : k ≤ lines.length)
    (h : ∀ l ∈ lines, IsLine l) (hp : parse (String.intercalate "\n" lines) = .ok p) :
    ∃ q, parse (String.intercalate "\n" (lines.take k)) = .ok q ∧ q.steps = p.steps.take k ∧
      q.names <+: p.names := by
  have hne : lines ≠ [] := List.ne_nil_of_length_pos (Nat.lt_of_lt_of_le hk hle)
  have hne' : lines.take k ≠ [] := by simp [hne, Nat.ne_of_gt hk]
  rw [parse_intercalate hne h, ← List.take_append_drop k lines, List.map_append,
    List.foldlM_append, Except.bind_eq_ok_iff] at hp
  obtain ⟨q, hq, hp⟩ := hp
  obtain ⟨first, hfirst, hlength, -⟩ := exists_of_foldlM hq
  obtain ⟨steps, hsteps, -, hnames⟩ := exists_of_foldlM hp
  refine ⟨q, ?_, ?_, hnames⟩
  · rw [parse_intercalate hne' fun l hl => h l (List.mem_of_mem_take hl), hq]
  · have hcount : q.steps.length = k := by simp [hfirst, hlength, hle]
    rw [hsteps, ← hcount, List.take_left]

/-- **Reading line by line.** Take any lines that are not blank. If their text is read, then so is
that of the first ones of them, and gives the first steps of the whole pattern and an initial
segment of its names. If it is not read, then there is a first line at fault: the lines before it
are read, the error names it as it stands without its blanks, and every text that begins with the
lines up to it fails with the same error. No lines at all are an error of their own. -/
theorem parse_line_by_line (h : ∀ l ∈ lines, IsLine l) :
    (∀ p, parse (String.intercalate "\n" lines) = .ok p → ∀ k, 0 < k → k ≤ lines.length →
      ∃ q, parse (String.intercalate "\n" (lines.take k)) = .ok q ∧
        q.steps = p.steps.take k ∧ q.names <+: p.names) ∧
    ∀ e, parse (String.intercalate "\n" lines) = .error e →
      lines = [] ∧ e = .emptyPattern ∨
      ∃ before line after, lines = before ++ line :: after ∧
        (before = [] ∨ ∃ q, parse (String.intercalate "\n" before) = .ok q) ∧
        e.Names (stripped line) ∧
        ∀ rest, parse (String.intercalate "\n" (before ++ line :: rest)) = .error e := by
  refine ⟨fun p hp k hk hle => exists_parse_take hk hle h hp, fun e he => ?_⟩
  by_cases hne : lines = []
  · subst hne
    cases he
    exact .inl ⟨rfl, rfl⟩
  rw [parse_intercalate hne h] at he
  obtain ⟨texts, _, texts', q, hsplit, hq, hline⟩ := exists_of_foldlM_eq_error he
  obtain ⟨before, rest, rfl, rfl, hrest⟩ := List.map_eq_append_iff.1 hsplit
  obtain ⟨line, after, rfl, rfl, -⟩ := List.map_eq_cons_iff.1 hrest
  have hbefore : ∀ l ∈ before, IsLine l := fun l hl => h l (List.mem_append_left _ hl)
  refine .inr ⟨before, line, after, rfl, ?_, names_of_addLine hline, fun rest =>
    parse_of_addLine_eq_error hbefore (h line (by simp)) hq hline rest⟩
  by_cases hnone : before = []
  · exact .inl hnone
  · exact .inr ⟨q, by rw [parse_intercalate hnone hbefore, hq]⟩

/-- Of two lines at fault, the one that names a variable too early decides the error. -/
theorem parse_line_by_line_unbound :
    let lines := ["Conv(?, a)", "Relu (a, b)", "Mul([a, c], ?)", "Neg("]
    (∀ l ∈ lines, IsLine l) ∧
      parse (String.intercalate "\n" lines) = .error (.unboundVariable "c" "Mul([a,c],?)") ∧
      ∃ before line after, lines = before ++ line :: after ∧
        (Error.unboundVariable "c" "Mul([a,c],?)").Names (stripped line) ∧
        ∀ rest, parse (String.intercalate "\n" (before ++ line :: rest)) =
          .error (.unboundVariable "c" "Mul([a,c],?)") := by
  intro lines
  have hlines : ∀ l ∈ lines, IsLine l := by decide +kernel
  have herror : parse (String.intercalate "\n" lines) =
      .error (.unboundVariable "c" "Mul([a,c],?)") := by decide +kernel
  obtain ⟨-, hfails⟩ := parse_line_by_line hlines
  obtain ⟨hnil, -⟩ | ⟨before, line, after, hsplit, -, hnames, hrest⟩ := hfails _ herror
  · exact absurd hnil (List.cons_ne_nil _ _)
  · exact ⟨hlines, herror, before, line, after, hsplit, hnames, hrest⟩

end

end Pattern

end OpGraph
