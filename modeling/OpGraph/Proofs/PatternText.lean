import OpGraph.Proofs.PatternForm
import OpGraph.Proofs.PatternTokens

/-!
# The text of a pattern

The canonical form of a text has its lines without their blanks, and only those where something is
left. The lines of the canonical form are those of the text again (`linesOf_canonical`), so that
both are read alike, errors included, and every line becomes the text of one step. What a pattern
prints is therefore the canonical form of the text that it was read from, and reading that gives the
pattern back (`parse_canonical`).
-/

namespace OpGraph

namespace Text

/-- The canonical form of a text: its lines without blanks, those that are left empty dropped, with
one line end between them. -/
def canonical (text : String) : String :=
  String.ofList (join '\n' (((split '\n' text.toList).map dropBlanks).filter (· ≠ [])))

/-- No blanks are left, line ends included. -/
theorem isBlank_of_mem_dropBlanks {cs : List Char} {c : Char} (h : c ∈ dropBlanks cs) :
    isBlank c = false := by
  simpa using (List.mem_filter.1 h).2

theorem dropBlanks_eq_self {cs : List Char} (h : ∀ c ∈ cs, isBlank c = false) :
    dropBlanks cs = cs :=
  List.filter_eq_self.2 fun c hc => by simp [h c hc]

/-- Pieces that are printed with a character between them make up the joined text. -/
theorem intercalate_map_ofList (c : Char) (pieces : List (List Char)) :
    String.intercalate (String.singleton c) (pieces.map String.ofList) =
      String.ofList (join c pieces) := by
  induction pieces with
  | nil => simp [join]
  | cons piece pieces ih =>
    cases pieces with
    | nil => simp [join]
    | cons next pieces =>
      rw [List.map_cons] at ih
      rw [List.map_cons, List.map_cons, String.intercalate_cons_cons, ih, join]
      simp [← String.toList_inj]

end Text

namespace Pattern

variable {text : String} {p q : Pattern}

/-- A line of a text has something on it, and no blank. -/
theorem of_mem_linesOf {line : List Char} (h : line ∈ linesOf text) :
    line ≠ [] ∧ ∀ c ∈ line, Text.isBlank c = false := by
  obtain ⟨hline, hne⟩ := List.mem_filter.1 h
  obtain ⟨raw, -, rfl⟩ := List.mem_map.1 hline
  exact ⟨by simpa using hne, fun c hc => Text.isBlank_of_mem_dropBlanks hc⟩

/-- The canonical form of a text has the lines of the text. -/
theorem linesOf_canonical (text : String) : linesOf (Text.canonical text) = linesOf text := by
  have hcanonical : Text.canonical text = String.ofList (Text.join '\n' (linesOf text)) := rfl
  have hbreak : ∀ line ∈ linesOf text, '\n' ∉ line := fun line hline hmem =>
    absurd ((of_mem_linesOf hline).2 _ hmem) (by decide)
  rw [hcanonical]
  by_cases hnone : linesOf text = []
  · rw [hnone]
    rfl
  -- what is left of the lines has no line end in it, and is not changed again
  · have hdrop : (linesOf text).map Text.dropBlanks = linesOf text :=
      calc
        _ = (linesOf text).map id := List.map_congr_left fun line hline =>
          Text.dropBlanks_eq_self (of_mem_linesOf hline).2
        _ = linesOf text := List.map_id _
    have hkeep : (linesOf text).filter (· ≠ []) = linesOf text :=
      List.filter_eq_self.2 fun line hline => by simpa using (of_mem_linesOf hline).1
    rw [linesOf, String.toList_ofList, Text.split_join hnone hbreak, hdrop, hkeep]

/-- A text is read by its lines. -/
theorem parse_congr {text' : String} (h : linesOf text = linesOf text') :
    parse text = parse text' := by
  rw [parse, parse, h]

/-- Each line that is read becomes the text of one step. -/
theorem lines_of_foldlM {texts : List (List Char)} (h : texts.foldlM addLine p = .ok q) :
    q.lines = p.lines ++ texts.map String.ofList := by
  induction texts generalizing p with
  | nil =>
    cases h
    simp
  | cons line texts ih =>
    rw [List.foldlM_cons, Except.bind_eq_ok_iff] at h
    obtain ⟨r, hadd, h⟩ := h
    obtain ⟨parts, inputs, -, -, rfl⟩ := addLine_eq_ok hadd
    rw [ih h]
    simp [lines]

/-- A pattern that is read prints as the canonical form of its text. -/
theorem text_of_parse (h : parse text = .ok p) : p.text = Text.canonical text := by
  rw [Pattern.text, lines_of_foldlM (foldlM_of_parse h)]
  exact Text.intercalate_map_ofList '\n' (linesOf text)

/-- **Only the canonical form counts.** A text and its canonical form are read alike, whether they
give a pattern or an error. A pattern prints as the canonical form of the text that it was read
from, and what it prints is read as the same pattern. -/
theorem parse_canonical (text : String) :
    parse (Text.canonical text) = parse text ∧
      ∀ p, parse text = .ok p → p.text = Text.canonical text ∧ parse p.text = .ok p := by
  have hsame : parse (Text.canonical text) = parse text := parse_congr (linesOf_canonical text)
  refine ⟨hsame, fun p hp => ?_⟩
  have htext := text_of_parse hp
  exact ⟨htext, by rw [htext, hsame, hp]⟩

/-- The pattern of two steps that are written with blanks of many kinds. -/
def scattered : Pattern where
  steps :=
    [{ ops := .oneOf ["Conv"], inputs := [.any], outputs := [.variable 0], line := "Conv(?,t0)" },
      { ops := .oneOf ["Relu", "Clip"], inputs := [.variable 0], outputs := [.any, .any],
        line := "Relu/Clip(t0,[?,?])" }]
  names := ["t0"]

/-- Blanks within a name, blank lines and carriage returns are gone from what is printed. -/
theorem parse_canonical_scattered :
    let text := "\r\nCo nv (?,\u00a0t\t0)\r\n\u3000\n\n Relu/\u2003Clip(t0, [ ?,? ] )\n"
    parse text = .ok scattered ∧ scattered.text = "Conv(?,t0)\nRelu/Clip(t0,[?,?])" ∧
      Text.canonical text = scattered.text ∧ parse scattered.text = .ok scattered := by
  intro text
  have hparse : parse text = .ok scattered := by decide +kernel
  obtain ⟨-, hread⟩ := parse_canonical text
  obtain ⟨htext, hagain⟩ := hread scattered hparse
  exact ⟨hparse, by decide +kernel, htext.symm, hagain⟩

end Pattern

end OpGraph
