import Mathlib.Data.List.TakeWhile
import OpGraph.Pattern.Parser

/-!
# The tokens of a line

What the readers of tokens and of arguments accept, each as an equivalence. An argument is a name or
a bracketed list of names (`Argument`); its text and its tokens determine each other, because in the
text of a line no name stands next to another one (`Token.readAll_argument`,
`Token.readArguments_eq_ok_pair_iff`). Splitting a text at a character is determined by its pieces
as well (`Text.split_eq_iff`).
-/

namespace OpGraph

/-! ### Split texts -/

namespace Text

variable {c : Char} {cs piece rest : List Char} {pieces : List (List Char)}

theorem split_of_not_mem (h : c ∉ piece) : split c piece = [piece] := by
  induction piece with
  | nil => rfl
  | cons a piece ih =>
    obtain ⟨hne, h⟩ := List.ne_and_not_mem_of_not_mem_cons h
    rw [split, if_neg (Ne.symm hne), ih h]

/-- A text is split on both sides of a character where it is split. -/
theorem split_append_cons (cs rest : List Char) :
    split c (cs ++ c :: rest) = split c cs ++ split c rest := by
  induction cs with
  | nil => simp [split]
  | cons a cs ih =>
    by_cases ha : a = c
    · rw [List.cons_append, split, if_pos ha, ih, split, if_pos ha, List.cons_append]
    · cases hsplit : split c cs with
      | nil => exact absurd hsplit (split_ne_nil c cs)
      | cons piece pieces =>
        rw [List.cons_append, split, if_neg ha, ih, split, if_neg ha, hsplit]
        rfl

theorem split_append (h : c ∉ piece) : split c (piece ++ c :: rest) = piece :: split c rest := by
  rw [split_append_cons, split_of_not_mem h, List.singleton_append]

/-- Pieces that are put together are found again. -/
theorem split_join (hne : pieces ≠ []) (h : ∀ p ∈ pieces, c ∉ p) :
    split c (join c pieces) = pieces := by
  induction pieces with
  | nil => exact absurd rfl hne
  | cons piece pieces ih =>
    obtain ⟨hpiece, h⟩ := List.forall_mem_cons.1 h
    cases pieces with
    | nil => exact split_of_not_mem hpiece
    | cons next pieces => rw [join, split_append hpiece, ih (List.cons_ne_nil _ _) h]

theorem not_mem_of_mem_split (h : piece ∈ split c cs) : c ∉ piece := by
  induction cs generalizing piece with
  | nil => simp_all [split]
  | cons a cs ih =>
    rw [split] at h
    split at h
    · rcases List.mem_cons.1 h with rfl | h
      · exact List.not_mem_nil
      · exact ih h
    · rename_i hne
      cases hsplit : split c cs with
      | nil => exact absurd hsplit (split_ne_nil c cs)
      | cons first pieces =>
        rw [hsplit] at h ih
        rcases List.mem_cons.1 h with rfl | h
        · exact List.not_mem_cons_of_ne_of_not_mem (Ne.symm hne) (ih List.mem_cons_self)
        · exact ih (List.mem_cons_of_mem _ h)

/-- The pieces of a text are the ones without the character that make it up. -/
theorem split_eq_iff :
    split c cs = pieces ↔ pieces ≠ [] ∧ (∀ p ∈ pieces, c ∉ p) ∧ cs = join c pieces := by
  constructor
  · rintro rfl
    exact ⟨split_ne_nil c cs, fun _ => not_mem_of_mem_split, (join_split c cs).symm⟩
  · rintro ⟨hne, h, rfl⟩
    exact split_join hne h

/-- A text with a character is cut at the first place of it. -/
theorem eq_takeWhile_append (h : cs.dropWhile (· ≠ c) ≠ []) :
    cs = cs.takeWhile (· ≠ c) ++ c :: (cs.dropWhile (· ≠ c)).tail := by
  induction cs with
  | nil => exact absurd rfl h
  | cons a cs ih =>
    by_cases ha : a = c
    · simp [ha]
    · simp only [List.dropWhile_cons, List.takeWhile_cons, ha, ne_eq, not_false_eq_true,
        decide_true, if_true] at h ⊢
      rw [List.cons_append, ← ih h]

theorem join_ne_nil (hne : pieces ≠ []) (h : ∀ p ∈ pieces, p ≠ []) : join c pieces ≠ [] := by
  cases pieces with
  | nil => exact absurd rfl hne
  | cons piece pieces =>
    have hpiece := h piece List.mem_cons_self
    cases pieces <;> simp [join, hpiece]

theorem mem_join {separator : Char} (h : c ∈ join separator pieces) :
    c = separator ∨ ∃ piece ∈ pieces, c ∈ piece := by
  fun_induction join separator pieces with
  | case1 => exact absurd h List.not_mem_nil
  | case2 piece => exact .inr ⟨piece, List.mem_cons_self, h⟩
  | case3 piece next pieces ih =>
    rcases List.mem_append.1 h with h | h
    · exact .inr ⟨piece, List.mem_cons_self, h⟩
    · rcases List.mem_cons.1 h with h | h
      · exact .inl h
      · exact (ih h).imp_right fun ⟨p, hp, hc⟩ => ⟨p, List.mem_cons_of_mem _ hp, hc⟩

end Text

/-! ### Identifiers -/

/-- Letters, digits and the underscore. -/
def isWordChar (c : Char) : Bool :=
  c.isAlphanum || c == '_'

/-- A question mark, or a word of letters, digits and underscores. -/
def IsIdentifier (name : String) : Prop :=
  name = "?" ∨ name ≠ "" ∧ ∀ c ∈ name.toList, isWordChar c

namespace Token

variable {name : String} {names : List String} {cs rest : List Char} {tokens after : List Token}

theorem isNameChar_of_isWordChar {c : Char} (h : isWordChar c) : isNameChar c := by
  rw [isNameChar, Bool.or_eq_true]
  exact .inl h

theorem isWordChar_of_isNameChar {c : Char} (h : isNameChar c) (hne : c ≠ '?') :
    isWordChar c := by
  rw [isNameChar, Bool.or_eq_true] at h
  exact h.resolve_right (by simpa using hne)

theorem isWordChar_questionMark : isWordChar '?' = false := by
  decide

theorem ofRun_eq_ok_iff {run : List Char} {token : Token} (hne : run ≠ [])
    (hrun : ∀ c ∈ run, isNameChar c) :
    ofRun run = .ok token ↔
      IsIdentifier (String.ofList run) ∧ token = .name (String.ofList run) := by
  have hword : IsIdentifier (String.ofList run) ↔ ¬ ('?' ∈ run ∧ run ≠ ['?']) := by
    have hmark : String.ofList run = "?" ↔ run = ['?'] := by
      rw [← String.toList_inj, String.toList_ofList]
      rfl
    have hempty : String.ofList run ≠ "" := by
      rw [Ne, ← String.toList_inj, String.toList_ofList]
      exact hne
    rw [IsIdentifier, hmark, String.toList_ofList]
    by_cases hq : run = ['?']
    · simp [hq]
    · simp only [hq, hempty, false_or, ne_eq, not_false_eq_true, true_and, and_true]
      constructor
      · intro h hmem
        exact absurd (h _ hmem) (by rw [isWordChar_questionMark]; exact Bool.false_ne_true)
      · intro hnot c hc
        exact isWordChar_of_isNameChar (hrun c hc) fun heq => hnot (heq ▸ hc)
  rw [hword, ofRun]
  by_cases h : '?' ∈ run ∧ run ≠ ['?']
  · rw [if_pos (by simpa using h)]
    simp [h]
  · rw [if_neg (by simpa using h)]
    simp [h, eq_comm]

end Token

namespace IsIdentifier

variable {name : String}

theorem isNameChar (h : IsIdentifier name) : ∀ c ∈ name.toList, Token.isNameChar c := by
  rcases h with rfl | ⟨-, h⟩
  · intro c hc
    rw [show "?".toList = ['?'] from rfl, List.mem_singleton] at hc
    rw [hc]
    rfl
  · exact fun c hc => Token.isNameChar_of_isWordChar (h c hc)

theorem ne_nil (h : IsIdentifier name) : name.toList ≠ [] := by
  rcases h with rfl | ⟨h, -⟩
  · decide
  · exact fun heq => h (String.toList_inj.1 heq)

end IsIdentifier

/-! ### Tokens -/

/-- An argument of a line as it is written: a name, or a list of names in brackets. -/
inductive Argument
  | bare (name : String)
  | list (names : List String)

namespace Argument

/-- The names in an argument. -/
def names : Argument → List String
  | bare name => [name]
  | list names => names

/-- The text of an argument. -/
def text : Argument → List Char
  | bare name => name.toList
  | list names => '[' :: (Text.join ',' (names.map String.toList) ++ [']'])

/-- An argument has names, and they are identifiers. -/
structure WellFormed (a : Argument) : Prop where
  ne_nil : a.names ≠ []
  identifier : ∀ n ∈ a.names, IsIdentifier n

end Argument

namespace Token

/-- The text of a token. -/
def text : Token → List Char
  | name n => n.toList
  | openBracket => ['[']
  | closeBracket => [']']
  | comma => [',']

/-- The tokens of a list behind its opening bracket. -/
def ofList : List String → List Token
  | [] => [closeBracket]
  | [n] => [name n, closeBracket]
  | n :: m :: names => name n :: comma :: ofList (m :: names)

/-- The tokens of an argument. -/
def ofArgument : Argument → List Token
  | .bare n => [name n]
  | .list names => openBracket :: ofList names

variable {n : String} {names : List String} {cs rest : List Char} {tokens after : List Token}

/-- The tokens that are read make up the text, and their names are identifiers. -/
theorem text_of_readAll (h : readAll cs = .ok tokens) :
    tokens.flatMap text = cs ∧ ∀ n, name n ∈ tokens → IsIdentifier n := by
  fun_induction readAll cs generalizing tokens with
  | case1 =>
    cases h
    exact ⟨rfl, nofun⟩
  | case2 cs ih | case3 cs ih | case4 cs ih =>
    obtain ⟨later, hlater, heq⟩ := Except.bind_eq_ok_iff.1 h
    cases heq
    obtain ⟨htext, hnames⟩ := ih hlater
    exact ⟨by rw [List.flatMap_cons, htext]; rfl, by simpa using hnames⟩
  | case5 cs c _ _ _ hc ih =>
    obtain ⟨token, htoken, h⟩ := Except.bind_eq_ok_iff.1 h
    obtain ⟨later, hlater, heq⟩ := Except.bind_eq_ok_iff.1 h
    cases heq
    obtain ⟨htext, hnames⟩ := ih hlater
    have hrun : ∀ a ∈ c :: cs.takeWhile isNameChar, isNameChar a :=
      List.forall_mem_cons.2 ⟨hc, fun a ha => List.mem_takeWhile_imp ha⟩
    obtain ⟨hid, rfl⟩ := (ofRun_eq_ok_iff (List.cons_ne_nil _ _) hrun).1 htoken
    constructor
    · rw [List.flatMap_cons, htext, text, String.toList_ofList, List.cons_append,
        List.takeWhile_append_dropWhile]
    · intro n hn
      rcases List.mem_cons.1 hn with heq | hn
      · cases heq
        exact hid
      · exact hnames n hn
  | case6 => cases h

theorem readAll_openBracket : readAll ('[' :: cs) = (readAll cs).map (openBracket :: ·) := by
  rw [readAll]
  cases readAll cs <;> rfl

theorem readAll_closeBracket : readAll (']' :: cs) = (readAll cs).map (closeBracket :: ·) := by
  rw [readAll]
  cases readAll cs <;> rfl

theorem readAll_comma : readAll (',' :: cs) = (readAll cs).map (comma :: ·) := by
  rw [readAll]
  cases readAll cs <;> rfl

theorem readAll_of_isNameChar {c : Char} (h : isNameChar c) :
    readAll (c :: cs) = ofRun (c :: cs.takeWhile isNameChar) >>= fun token =>
      (readAll (cs.dropWhile isNameChar)).map (token :: ·) := by
  have hne : c ≠ '[' ∧ c ≠ ']' ∧ c ≠ ',' := by
    refine ⟨?_, ?_, ?_⟩ <;> rintro rfl <;> exact absurd h (by decide)
  rw [readAll]
  · rw [if_pos h]
    refine bind_congr fun token => ?_
    cases readAll (cs.dropWhile isNameChar) <;> rfl
  exacts [hne.1, hne.2.1, hne.2.2]

/-- A name is read up to the first character that is not one of a name. -/
theorem readAll_name (h : IsIdentifier n) (hrest : ∀ c ∈ rest.head?, isNameChar c = false) :
    readAll (n.toList ++ rest) = (readAll rest).map (name n :: ·) := by
  obtain ⟨c, cs, hcs⟩ := List.exists_cons_of_ne_nil h.ne_nil
  have hchars := h.isNameChar
  rw [hcs] at hchars
  obtain ⟨hc, htail⟩ := List.forall_mem_cons.1 hchars
  have hstop : rest.takeWhile isNameChar = [] ∧ rest.dropWhile isNameChar = rest := by
    cases rest with
    | nil => exact ⟨rfl, rfl⟩
    | cons a rest =>
      have ha := hrest a rfl
      exact ⟨by simp [ha], by simp [ha]⟩
  rw [hcs, List.cons_append, readAll_of_isNameChar hc, List.takeWhile_append_of_pos htail,
    List.dropWhile_append_of_pos htail, hstop.1, hstop.2, List.append_nil, ← hcs]
  have hrun : ofRun n.toList = .ok (.name n) := by
    refine (ofRun_eq_ok_iff h.ne_nil h.isNameChar).2 ⟨?_, ?_⟩ <;> rw [String.ofList_toList]
    exact h
  rw [hrun]
  rfl

/-- Names with commas between them are read in order, up to the bracket. -/
theorem readAll_ofList (hne : names ≠ []) (h : ∀ n ∈ names, IsIdentifier n) :
    readAll (Text.join ',' (names.map String.toList) ++ ']' :: rest) =
      (readAll rest).map (ofList names ++ ·) := by
  induction names with
  | nil => exact absurd rfl hne
  | cons n names ih =>
    obtain ⟨hn, h⟩ := List.forall_mem_cons.1 h
    cases names with
    | nil =>
      rw [List.map_singleton, Text.join, readAll_name hn (by simp [isNameChar]),
        readAll_closeBracket]
      cases readAll rest <;> rfl
    | cons m names =>
      rw [List.map_cons, List.map_cons, Text.join, List.append_assoc, List.cons_append,
        readAll_name hn (by simp [isNameChar]), readAll_comma, ← List.map_cons,
        ih (List.cons_ne_nil _ _) h]
      cases readAll rest <;> rfl

/-- The text of an argument is read as its tokens. -/
theorem readAll_argument {a : Argument} (ha : a.WellFormed)
    (hrest : ∀ c ∈ rest.head?, isNameChar c = false) :
    readAll (a.text ++ rest) = (readAll rest).map (ofArgument a ++ ·) := by
  cases a with
  | bare n => exact readAll_name (ha.identifier n List.mem_cons_self) hrest
  | list names =>
    have hne : names ≠ [] := ha.ne_nil
    rw [Argument.text, List.cons_append, List.append_assoc, List.singleton_append,
      readAll_openBracket, readAll_ofList hne ha.identifier]
    cases readAll rest <;> rfl

theorem text_ofList (hne : names ≠ []) :
    (ofList names).flatMap text = Text.join ',' (names.map String.toList) ++ [']'] := by
  induction names with
  | nil => exact absurd rfl hne
  | cons n names ih =>
    cases names with
    | nil => rfl
    | cons m names =>
      rw [ofList, List.flatMap_cons, List.flatMap_cons, ih (List.cons_ne_nil _ _)]
      simp [text, Text.join]

theorem text_ofArgument {a : Argument} (hne : a.names ≠ []) :
    (ofArgument a).flatMap text = a.text := by
  cases a with
  | bare n => simp [ofArgument, text, Argument.text]
  | list names =>
    have hne : names ≠ [] := hne
    rw [ofArgument, List.flatMap_cons, text_ofList hne]
    rfl

/-! ### Arguments -/

theorem readList_eq_ok_iff :
    readList tokens = .ok (names, after) ↔ names ≠ [] ∧ tokens = ofList names ++ after := by
  constructor
  · intro h
    fun_induction readList tokens generalizing names after with
    | case1 n rest =>
      cases h
      exact ⟨List.cons_ne_nil _ _, rfl⟩
    | case2 n rest ih =>
      obtain ⟨⟨later, after'⟩, hlater, heq⟩ := Except.map_eq_ok_iff.1 h
      cases heq
      obtain ⟨hne, rfl⟩ := ih hlater
      cases later with
      | nil => exact absurd rfl hne
      | cons m later => exact ⟨List.cons_ne_nil _ _, rfl⟩
    | case3 | case4 | case5 | case6 => cases h
  · rintro ⟨hne, rfl⟩
    induction names with
    | nil => exact absurd rfl hne
    | cons n names ih =>
      cases names with
      | nil => rfl
      | cons m names =>
        rw [ofList, List.cons_append, List.cons_append, readList, ih (List.cons_ne_nil _ _)]
        rfl

theorem readArgument_eq_ok_iff :
    readArgument tokens = .ok (names, after) ↔
      ∃ a : Argument, a.names = names ∧ names ≠ [] ∧ tokens = ofArgument a ++ after := by
  constructor
  · intro h
    rw [readArgument.eq_def] at h
    split at h
    · cases h
      exact ⟨.bare _, rfl, List.cons_ne_nil _ _, rfl⟩
    · obtain ⟨hne, rfl⟩ := readList_eq_ok_iff.1 h
      exact ⟨.list names, rfl, hne, rfl⟩
    · cases h
  · rintro ⟨a, rfl, hne, rfl⟩
    cases a with
    | bare n => rfl
    | list names => exact readList_eq_ok_iff.2 ⟨hne, rfl⟩

theorem readArguments_ne_nil : readArguments tokens ≠ .ok [] := by
  rw [readArguments]
  split
  · simp
  · simp
  · rw [Ne, Except.map_eq_ok_iff]
    simp
  · simp

theorem readArguments_eq_ok_cons_iff {slots : List (List String)} :
    readArguments tokens = .ok (names :: slots) ↔
      (slots = [] ∧ readArgument tokens = .ok (names, [])) ∨
        ∃ rest, readArgument tokens = .ok (names, comma :: rest) ∧
          readArguments rest = .ok slots := by
  rw [readArguments]
  split
  · rename_i fault hfault
    simp [hfault]
  · rename_i first hfirst
    simp [hfirst, eq_comm, and_comm]
  · rename_i first rest hfirst
    rw [Except.map_eq_ok_iff]
    simp [hfirst, and_comm, and_assoc]
  · rename_i first token rest hnot hfirst
    have hne : token ≠ comma := hnot
    simp [hfirst, hne]

/-- Two arguments are read from the tokens of the one, a comma and the tokens of the other. -/
theorem readArguments_eq_ok_pair_iff {inputs outputs : List String} :
    readArguments tokens = .ok [inputs, outputs] ↔
      ∃ a b : Argument, a.names = inputs ∧ inputs ≠ [] ∧ b.names = outputs ∧ outputs ≠ [] ∧
        tokens = ofArgument a ++ comma :: ofArgument b := by
  have hlast : ∀ rest : List Token, readArguments rest = .ok [outputs] ↔
      ∃ b : Argument, b.names = outputs ∧ outputs ≠ [] ∧ rest = ofArgument b := by
    intro rest
    rw [readArguments_eq_ok_cons_iff]
    simp [readArguments_ne_nil, readArgument_eq_ok_iff]
  rw [readArguments_eq_ok_cons_iff]
  simp only [List.cons_ne_nil, false_and, false_or, readArgument_eq_ok_iff, hlast]
  constructor
  · rintro ⟨_, ⟨a, ha, hinputs, htokens⟩, b, hb, houtputs, rfl⟩
    exact ⟨a, b, ha, hinputs, hb, houtputs, htokens⟩
  · rintro ⟨a, b, ha, hinputs, hb, houtputs, htokens⟩
    exact ⟨_, ⟨a, ha, hinputs, htokens⟩, b, hb, houtputs, rfl⟩

/-- A name among the tokens of an argument is one of its names. -/
theorem name_mem_ofArgument {a : Argument} {n : String} :
    name n ∈ ofArgument a ↔ n ∈ a.names := by
  have hlist : ∀ names : List String, name n ∈ ofList names ↔ n ∈ names := by
    intro names
    fun_induction ofList names <;> simp_all
  cases a with
  | bare m => simp [ofArgument, Argument.names]
  | list names => simp [ofArgument, Argument.names, hlist]

/-- Two arguments are read from their texts with a comma between them. -/
theorem readArguments_readAll_eq_ok_iff {inputs outputs : List String} :
    readAll cs >>= readArguments = .ok [inputs, outputs] ↔
      ∃ a b : Argument, a.WellFormed ∧ b.WellFormed ∧ a.names = inputs ∧ b.names = outputs ∧
        cs = a.text ++ ',' :: b.text := by
  rw [Except.bind_eq_ok_iff]
  constructor
  · rintro ⟨tokens, htokens, h⟩
    obtain ⟨a, b, rfl, ha, rfl, hb, rfl⟩ := readArguments_eq_ok_pair_iff.1 h
    obtain ⟨htext, hnames⟩ := text_of_readAll htokens
    refine ⟨a, b, ⟨ha, fun n hn => hnames n ?_⟩, ⟨hb, fun n hn => hnames n ?_⟩, rfl, rfl, ?_⟩
    · exact List.mem_append_left _ (name_mem_ofArgument.2 hn)
    · exact List.mem_append_right _ (List.mem_cons_of_mem _ (name_mem_ofArgument.2 hn))
    · rw [← htext, List.flatMap_append, List.flatMap_cons, text_ofArgument ha,
        text_ofArgument hb]
      rfl
  · rintro ⟨a, b, ha, hb, rfl, rfl, rfl⟩
    refine ⟨ofArgument a ++ .comma :: ofArgument b, ?_,
      readArguments_eq_ok_pair_iff.2 ⟨a, b, rfl, ha.ne_nil, rfl, hb.ne_nil, rfl⟩⟩
    have hend : readAll (b.text ++ []) = _ := readAll_argument hb nofun
    rw [List.append_nil] at hend
    rw [readAll_argument ha (by simp [isNameChar]), readAll_comma, hend,
      readAll]
    simp [Except.map]

end Token

end OpGraph
