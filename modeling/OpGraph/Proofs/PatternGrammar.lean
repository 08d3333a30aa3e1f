import Mathlib.Data.List.Dedup
import OpGraph.Proofs.PatternForm
import OpGraph.Proofs.PatternTokens

/-!
# The grammar of patterns

What `Pattern.parse` accepts and what it builds, without reference to how it reads. A written line
(`Pattern.Line`) has operator names and two arguments. The pattern of a list of lines has one step a
line, and its variables are the names in the outputs of the lines (`Pattern.ofLines`). A text is
read if it is made of such lines with inputs that earlier outputs name, and then it gives the
pattern of its lines (`Pattern.parse_eq_ok_iff`).
-/

namespace OpGraph

/-! ### Operators -/

/-- The name of an operator in a line is not empty, and has no bracket, comma or slash. -/
structure IsOperatorName (name : String) : Prop where
  ne_empty : name ≠ ""
  chars : ∀ c ∈ name.toList, c ∉ "()[],".toList
  slash : '/' ∉ name.toList

namespace OpTypes

variable {cs : List Char} {ops : OpTypes}

/-- The operators that names stand for. A question mark among them stands for all. -/
def ofNames (names : List String) : OpTypes :=
  if "?" ∈ names then .any else .oneOf names

theorem check_eq_ok_iff {names : List (List Char)} :
    check names = .ok () ↔ ∀ name ∈ names, name ≠ [] ∧ ∀ c ∈ name, c ∉ "()[],".toList := by
  fun_induction check names with
  | case1 => simp
  | case2 => simp
  | case3 name names hne c hfind =>
    have hc := List.find?_some hfind
    have hmem := List.mem_of_find?_eq_some hfind
    simp only [reduceCtorEq, false_iff]
    intro h
    exact (h name List.mem_cons_self).2 c hmem (by simpa using hc)
  | case4 name names hne hfind ih =>
    rw [ih, List.forall_mem_cons]
    refine (and_iff_right ⟨fun h => hne h, fun c hc => ?_⟩).symm
    simpa using List.find?_eq_none.1 hfind c hc

theorem ofText_eq :
    ofText cs = (check (Text.split '/' cs)).map fun _ =>
      ofNames ((Text.split '/' cs).map String.ofList) := by
  have hmem : "?" ∈ (Text.split '/' cs).map String.ofList ↔ ['?'] ∈ Text.split '/' cs :=
    List.mem_map_of_injective (a := ['?']) fun _ _ => String.ofList_injective
  rw [ofText, ofNames]
  cases check (Text.split '/' cs) with
  | error fault => rfl
  | ok => by_cases h : ['?'] ∈ Text.split '/' cs <;>
      simp [h, hmem, bind, Except.bind, Except.map, pure, Except.pure]

/-- The operators of a line are read from their names with slashes between them. -/
theorem ofText_eq_ok_iff :
    ofText cs = .ok ops ↔
      ∃ names : List String, names ≠ [] ∧ (∀ n ∈ names, IsOperatorName n) ∧
        cs = Text.join '/' (names.map String.toList) ∧ ops = ofNames names := by
  rw [ofText_eq, Except.map_eq_ok_iff]
  constructor
  · rintro ⟨⟨⟩, hcheck, rfl⟩
    rw [check_eq_ok_iff] at hcheck
    refine ⟨(Text.split '/' cs).map String.ofList, by simp [Text.split_ne_nil],
      List.forall_mem_map.2 fun piece hpiece => ?_, by simp, rfl⟩
    obtain ⟨hne, hchars⟩ := hcheck piece hpiece
    have hslash := Text.not_mem_of_mem_split hpiece
    exact ⟨by simpa using hne, by simpa using hchars, by simpa using hslash⟩
  · rintro ⟨names, hne, h, rfl, rfl⟩
    have hsplit : Text.split '/' (Text.join '/' (names.map String.toList)) =
        names.map String.toList :=
      Text.split_join (by simpa using hne) (List.forall_mem_map.2 fun n hn => (h n hn).slash)
    rw [hsplit]
    refine ⟨(), check_eq_ok_iff.2 (List.forall_mem_map.2 fun n hn => ?_), by simp⟩
    exact ⟨by simpa using (h n hn).ne_empty, (h n hn).chars⟩

end OpTypes

/-! ### Lines -/

/-- A line is cut at its first opening bracket and before the closing one at its end. -/
theorem splitLine_eq_ok_iff {line names arguments : List Char} :
    splitLine line = .ok (names, arguments) ↔
      names ≠ [] ∧ '(' ∉ names ∧ arguments ≠ [] ∧ line = names ++ '(' :: (arguments ++ [')']) := by
  constructor
  · intro h
    simp only [splitLine] at h
    split at h
    · rename_i hshape
      obtain ⟨hlast, hnames, harguments⟩ := hshape
      cases h
      refine ⟨hnames, fun hmem => by simpa using List.mem_takeWhile_imp hmem, harguments, ?_⟩
      obtain ⟨init, hinit⟩ := List.getLast?_eq_some_iff.1 hlast
      have hne : line.dropWhile (· ≠ '(') ≠ [] := fun hnil => by
        rw [hnil] at hinit
        exact List.append_ne_nil_of_right_ne_nil _ (List.cons_ne_nil _ _) hinit.symm
      rw [hinit, List.dropLast_concat, ← hinit]
      exact Text.eq_takeWhile_append hne
    · cases h
  · rintro ⟨hnames, hmem, harguments, rfl⟩
    have hpos : ∀ c ∈ names, decide (c ≠ '(') = true := by
      intro c hc
      exact decide_eq_true fun heq => hmem (heq ▸ hc)
    have htake : (names ++ '(' :: (arguments ++ [')'])).takeWhile (· ≠ '(') = names := by
      rw [List.takeWhile_append_of_pos hpos]
      simp
    have hdrop : (names ++ '(' :: (arguments ++ [')'])).dropWhile (· ≠ '(') =
        '(' :: (arguments ++ [')']) := by
      rw [List.dropWhile_append_of_pos hpos]
      simp
    simp only [splitLine, htake, hdrop, List.tail_cons, List.getLast?_concat, List.dropLast_concat]
    rw [if_pos ⟨trivial, hnames, harguments⟩]

/-- A line of a pattern as it is written: the names of operators, and two arguments. -/
structure Pattern.Line where
  operators : List String
  inputs : Argument
  outputs : Argument

namespace Pattern.Line

/-- The text of a line. -/
def text (l : Line) : List Char :=
  Text.join '/' (l.operators.map String.toList) ++
    '(' :: (l.inputs.text ++ ',' :: (l.outputs.text ++ [')']))

/-- The names of a line are ones of operators and of arguments. -/
structure WellFormed (l : Line) : Prop where
  ne_nil : l.operators ≠ []
  operators : ∀ n ∈ l.operators, IsOperatorName n
  inputs : l.inputs.WellFormed
  outputs : l.outputs.WellFormed

/-- The parts of a line. -/
def parts (l : Line) : LineParts :=
  { ops := .ofNames l.operators, inputs := l.inputs.names, outputs := l.outputs.names }

end Pattern.Line

theorem Pattern.Line.WellFormed.splitLine_text {l : Line} (hl : l.WellFormed) :
    splitLine l.text = .ok (Text.join '/' (l.operators.map String.toList),
      l.inputs.text ++ ',' :: l.outputs.text) := by
  refine splitLine_eq_ok_iff.2 ⟨?_, ?_, by simp, by simp [Line.text]⟩
  · refine Text.join_ne_nil (by simpa using hl.ne_nil) (List.forall_mem_map.2 fun n hn => ?_)
    simpa using (hl.operators n hn).ne_empty
  · intro hmem
    rcases Text.mem_join hmem with heq | ⟨piece, hpiece, hc⟩
    · exact absurd heq (by decide)
    · obtain ⟨n, hn, rfl⟩ := List.mem_map.1 hpiece
      exact (hl.operators n hn).chars '(' hc (by decide)

theorem LineParts.ofLine_eq {line : List Char} :
    LineParts.ofLine line = splitLine line >>= fun cut =>
      OpTypes.ofText cut.1 >>= fun ops =>
        (Token.readAll cut.2 >>= Token.readArguments) >>= fun slots =>
          match slots with
          | [inputs, outputs] => .ok { ops, inputs, outputs }
          | slots => .error (.slotCount slots.length) := by
  rw [LineParts.ofLine]
  simp only [bind_assoc]
  rfl

/-- A line is read as its parts if it is one of names that are well formed. -/
theorem LineParts.ofLine_eq_ok_iff {line : List Char} {parts : LineParts} :
    LineParts.ofLine line = .ok parts ↔
      ∃ l : Pattern.Line, l.WellFormed ∧ line = l.text ∧ parts = l.parts := by
  rw [LineParts.ofLine_eq]
  simp only [Except.bind_eq_ok_iff]
  constructor
  · rintro ⟨⟨names, arguments⟩, hcut, ops, hops, slots, hslots, hparts⟩
    obtain ⟨-, -, -, rfl⟩ := splitLine_eq_ok_iff.1 hcut
    obtain ⟨operators, hne, hoperators, hnames, rfl⟩ := OpTypes.ofText_eq_ok_iff.1 hops
    split at hparts
    · rename_i inputs outputs
      obtain ⟨a, b, ha, hb, rfl, rfl, harguments⟩ :=
        Token.readArguments_readAll_eq_ok_iff.1 (Except.bind_eq_ok_iff.2 hslots)
      cases hparts
      dsimp only at hnames harguments
      refine ⟨⟨operators, a, b⟩, ⟨hne, hoperators, ha, hb⟩, ?_, rfl⟩
      simp [Pattern.Line.text, hnames, harguments]
    · cases hparts
  · rintro ⟨l, hl, rfl, rfl⟩
    refine ⟨_, hl.splitLine_text, .ofNames l.operators, ?_, [l.inputs.names, l.outputs.names], ?_,
      rfl⟩
    · exact OpTypes.ofText_eq_ok_iff.2 ⟨l.operators, hl.ne_nil, hl.operators, rfl, rfl⟩
    · exact Except.bind_eq_ok_iff.1 (Token.readArguments_readAll_eq_ok_iff.2
        ⟨l.inputs, l.outputs, hl.inputs, hl.outputs, rfl, rfl, rfl⟩)

/-! ### Variables -/

namespace Pattern

variable {lines earlier : List Line} {l : Line} {bound names : List String} {name : String}

/-- The variables of lines are the names in their outputs, in the order in which they come. -/
def variableNames (lines : List Line) : List String :=
  ((lines.flatMap (·.outputs.names)).filter (· ≠ "?")).eraseDups

/-- The slot of a name. A question mark stands for any tensor. -/
def slotOf (vars : List String) (name : String) : Slot :=
  if name = "?" then .any else .variable (vars.idxOf name)

/-- The step of a line. -/
def Line.step (vars : List String) (l : Line) : PatternStep :=
  { ops := .ofNames l.operators
    inputs := l.inputs.names.map (slotOf vars)
    outputs := l.outputs.names.map (slotOf vars)
    line := String.ofList l.text }

/-- The pattern of lines has one step a line. -/
def ofLines (lines : List Line) : Pattern :=
  { steps := lines.map (·.step (variableNames lines)), names := variableNames lines }

/-- A name that is read in a line stands in an output of one of the lines before. -/
def Bound (earlier : List Line) (l : Line) : Prop :=
  ∀ n ∈ l.inputs.names, n ≠ "?" → ∃ m ∈ earlier, n ∈ m.outputs.names

/-- The names that are read in any of the lines are bound. -/
def Scoped (lines : List Line) : Prop :=
  ∀ earlier l later, lines = earlier ++ l :: later → Bound earlier l

theorem scoped_nil : Scoped [] := by
  intro earlier l later h
  simp at h

theorem scoped_concat : Scoped (lines ++ [l]) ↔ Scoped lines ∧ Bound lines l := by
  constructor
  · intro h
    refine ⟨fun earlier m later heq => h earlier m (later ++ [l]) ?_, h lines l [] rfl⟩
    rw [heq, List.append_assoc, List.cons_append]
  · rintro ⟨hlines, hl⟩ earlier m later heq
    rcases List.eq_nil_or_concat later with rfl | ⟨later, last, rfl⟩
    · obtain ⟨rfl, hm⟩ := List.append_inj' heq rfl
      cases hm
      exact hl
    · rw [List.concat_eq_append, ← List.cons_append, ← List.append_assoc] at heq
      obtain ⟨rfl, -⟩ := List.append_inj' heq rfl
      exact hlines earlier m later rfl

theorem mem_variableNames :
    name ∈ variableNames lines ↔ name ≠ "?" ∧ ∃ l ∈ lines, name ∈ l.outputs.names := by
  simp [variableNames, and_comm]

theorem nodup_eraseDups (l : List String) : l.eraseDups.Nodup := by
  induction hlen : l.length using Nat.strongRecOn generalizing l with
  | _ n ih =>
    cases l with
    | nil => simp
    | cons a l =>
      have hle := List.length_filter_le (fun b => !b == a) l
      rw [List.eraseDups_cons, List.nodup_cons]
      refine ⟨by simp, ih _ ?_ _ rfl⟩
      rw [List.length_cons] at hlen
      omega

theorem nodup_variableNames (lines : List Line) : (variableNames lines).Nodup :=
  nodup_eraseDups _

theorem eraseDups_of_nodup {l : List String} (h : l.Nodup) : l.eraseDups = l := by
  induction l with
  | nil => rfl
  | cons a l ih =>
    obtain ⟨ha, hl⟩ := List.nodup_cons.1 h
    rw [List.eraseDups_cons, List.filter_eq_self.2, ih hl]
    intro b hb
    rw [Bool.not_eq_true', beq_eq_false_iff_ne]
    exact fun heq => ha (heq ▸ hb)

/-- The variables behind output names: the ones before them, and the names that are new. -/
def extend (bound names : List String) : List String :=
  (bound ++ names.filter (· ≠ "?")).eraseDups

theorem extend_nil (hbound : bound.Nodup) : extend bound [] = bound := by
  rw [extend, List.filter_nil, List.append_nil, eraseDups_of_nodup hbound]

theorem extend_cons_any : extend bound ("?" :: names) = extend bound names := by
  simp [extend]

theorem extend_cons_of_mem (h : name ∈ bound) :
    extend bound (name :: names) = extend bound names := by
  by_cases hname : name = "?"
  · rw [hname, extend_cons_any]
  · simp [extend, hname, List.eraseDups_append, List.cons_removeAll, h]

theorem extend_concat (hname : name ≠ "?") :
    extend (bound ++ [name]) names = extend bound (name :: names) := by
  simp [extend, hname]

theorem prefix_extend (hbound : bound.Nodup) : bound <+: extend bound names := by
  rw [extend, List.eraseDups_append, eraseDups_of_nodup hbound]
  exact List.prefix_append _ _

theorem variableNames_concat :
    variableNames (lines ++ [l]) = extend (variableNames lines) l.outputs.names := by
  have hremove : ∀ as bs : List String, bs.removeAll as.eraseDups = bs.removeAll as := by
    intro as bs
    simp [List.removeAll]
  simp only [extend, variableNames, List.flatMap_append, List.filter_append, List.flatMap_singleton]
  rw [List.eraseDups_append, List.eraseDups_append, hremove,
    eraseDups_of_nodup (nodup_eraseDups _)]

theorem slotOf_any (vars : List String) : slotOf vars "?" = .any :=
  rfl

/-- A name that is a variable keeps its place when others come behind it. -/
theorem slotOf_of_prefix {after : List String} (h : name ≠ "?" → name ∈ bound)
    (hafter : bound <+: after) : slotOf after name = slotOf bound name := by
  obtain ⟨new, rfl⟩ := hafter
  by_cases hname : name = "?"
  · rw [hname, slotOf_any, slotOf_any]
  · rw [slotOf, slotOf, List.idxOf_append_of_mem (h hname)]

theorem idxOf?_eq :
    bound.idxOf? name = if name ∈ bound then some (bound.idxOf name) else none := by
  rw [List.idxOf_eq_getD_idxOf?]
  cases hindex : bound.idxOf? name with
  | none => rw [if_neg (List.idxOf?_eq_none_iff.1 hindex)]
  | some index =>
    have hmem : name ∈ bound := by
      by_contra hmem
      rw [List.idxOf?_eq_none_iff.2 hmem] at hindex
      cases hindex
    rw [if_pos hmem, Option.getD_some]

/-- Output slots are those of their names among the variables that they leave. -/
theorem outputSlots_eq (hbound : bound.Nodup) :
    outputSlots bound names = (names.map (slotOf (extend bound names)), extend bound names) := by
  fun_induction outputSlots bound names with
  | case1 bound => rw [extend_nil hbound]; rfl
  | case2 bound names slots after heq ih =>
    rw [ih hbound, Prod.mk.injEq] at heq
    obtain ⟨rfl, rfl⟩ := heq
    rw [extend_cons_any]
    rfl
  | case3 bound name names hname index hindex slots after heq ih =>
    rw [ih hbound, Prod.mk.injEq] at heq
    obtain ⟨rfl, rfl⟩ := heq
    rw [idxOf?_eq, Option.ite_none_right_eq_some, Option.some.injEq] at hindex
    obtain ⟨hmem, rfl⟩ := hindex
    rw [extend_cons_of_mem hmem, List.map_cons,
      slotOf_of_prefix (fun _ => hmem) (prefix_extend hbound), slotOf, if_neg hname]
  | case4 bound name names hname hindex slots after heq ih =>
    have hmem : name ∉ bound := List.idxOf?_eq_none_iff.1 hindex
    have hbound' : (bound ++ [name]).Nodup := by
      rw [← List.concat_eq_append]
      exact hbound.concat hmem
    rw [ih hbound', Prod.mk.injEq] at heq
    obtain ⟨rfl, rfl⟩ := heq
    have hlast : name ∈ bound ++ [name] := List.mem_append_right _ List.mem_cons_self
    have hindex : (bound ++ [name]).idxOf name = bound.length := by
      simp [List.idxOf_append, hmem]
    rw [← extend_concat hname, List.map_cons,
      slotOf_of_prefix (fun _ => hlast) (prefix_extend hbound'), slotOf, if_neg hname, hindex]

theorem inputSlot_eq_ok_iff {line : String} {slot : Slot} :
    inputSlot bound line name = .ok slot ↔
      (name ≠ "?" → name ∈ bound) ∧ slot = slotOf bound name := by
  by_cases hname : name = "?"
  · simp [inputSlot, slotOf, hname, eq_comm]
  · by_cases hmem : name ∈ bound <;> simp [inputSlot, slotOf, idxOf?_eq, hname, hmem, eq_comm]

/-- Input slots are those of their names, which have to be bound. -/
theorem mapM_inputSlot_eq_ok_iff {line : String} {slots : List Slot} :
    names.mapM (inputSlot bound line) = .ok slots ↔
      (∀ n ∈ names, n ≠ "?" → n ∈ bound) ∧ slots = names.map (slotOf bound) := by
  induction names generalizing slots with
  | nil => simp [pure, Except.pure, eq_comm]
  | cons name names ih =>
    simp only [List.mapM_cons, Except.bind_eq_ok_iff, inputSlot_eq_ok_iff, ih]
    constructor
    · rintro ⟨slot, ⟨hname, rfl⟩, rest, ⟨hnames, rfl⟩, heq⟩
      cases heq
      exact ⟨List.forall_mem_cons.2 ⟨hname, hnames⟩, rfl⟩
    · rintro ⟨hall, rfl⟩
      obtain ⟨hname, hnames⟩ := List.forall_mem_cons.1 hall
      exact ⟨_, ⟨hname, rfl⟩, _, ⟨hnames, rfl⟩, rfl⟩

/-! ### Reading lines -/

/-- A line keeps its step when more variables come behind the ones that it names. -/
theorem Line.step_of_prefix {vars after : List String}
    (h : ∀ n, n ∈ l.inputs.names ∨ n ∈ l.outputs.names → n ≠ "?" → n ∈ vars)
    (hafter : vars <+: after) : l.step after = l.step vars := by
  have hslots : ∀ names : List String, (∀ n ∈ names, n ≠ "?" → n ∈ vars) →
      names.map (slotOf after) = names.map (slotOf vars) := fun names hnames =>
    List.map_congr_left fun n hn => slotOf_of_prefix (hnames n hn) hafter
  rw [step, step, hslots _ fun n hn => h n (.inl hn), hslots _ fun n hn => h n (.inr hn)]

/-- The pattern of lines and one more line has one more step, and more variables. -/
theorem ofLines_concat (hscoped : Scoped lines) (hbound : Bound lines l) :
    ofLines (lines ++ [l]) =
      { steps := (ofLines lines).steps ++
          [{ ops := .ofNames l.operators
             inputs := l.inputs.names.map (slotOf (variableNames lines))
             outputs := l.outputs.names.map
               (slotOf (extend (variableNames lines) l.outputs.names))
             line := String.ofList l.text }]
        names := extend (variableNames lines) l.outputs.names } := by
  have hprefix : variableNames lines <+: extend (variableNames lines) l.outputs.names :=
    prefix_extend (nodup_variableNames lines)
  have hsteps : lines.map (·.step (extend (variableNames lines) l.outputs.names)) =
      lines.map (·.step (variableNames lines)) := by
    refine List.map_congr_left fun m hm => Line.step_of_prefix (fun n hn hne => ?_) hprefix
    refine mem_variableNames.2 ⟨hne, ?_⟩
    rcases hn with hn | hn
    · obtain ⟨before, after, rfl⟩ := List.append_of_mem hm
      obtain ⟨m', hm', hn'⟩ := hscoped before m after rfl n hn hne
      exact ⟨m', List.mem_append_left _ hm', hn'⟩
    · exact ⟨m, hm, hn⟩
  have hinputs : l.inputs.names.map (slotOf (extend (variableNames lines) l.outputs.names)) =
      l.inputs.names.map (slotOf (variableNames lines)) :=
    List.map_congr_left fun n hn =>
      slotOf_of_prefix (fun hne => mem_variableNames.2 ⟨hne, hbound n hn hne⟩) hprefix
  rw [ofLines, variableNames_concat, List.map_append, hsteps, List.map_singleton, Line.step,
    hinputs]
  rfl

/-- A line is read as the step of a line that is well formed and whose inputs are bound. -/
theorem addLine_eq_ok_iff {line : List Char} {p : Pattern} (hscoped : Scoped lines) :
    (ofLines lines).addLine line = .ok p ↔
      ∃ l : Line, l.WellFormed ∧ line = l.text ∧ Bound lines l ∧ p = ofLines (lines ++ [l]) := by
  have hslots (l : Line) : outputSlots (ofLines lines).names l.parts.outputs = _ :=
    outputSlots_eq (nodup_variableNames lines)
  constructor
  · intro h
    obtain ⟨parts, inputs, hparts, hinputs, rfl⟩ := addLine_eq_ok h
    obtain ⟨l, hl, rfl, rfl⟩ := LineParts.ofLine_eq_ok_iff.1 hparts
    obtain ⟨hmem, rfl⟩ := mapM_inputSlot_eq_ok_iff.1 hinputs
    have hbound : Bound lines l := fun n hn hne => (mem_variableNames.1 (hmem n hn hne)).2
    refine ⟨l, hl, rfl, hbound, ?_⟩
    rw [hslots, ofLines_concat hscoped hbound]
    rfl
  · rintro ⟨l, hl, rfl, hbound, rfl⟩
    have hparts : LineParts.ofLine l.text = .ok l.parts :=
      LineParts.ofLine_eq_ok_iff.2 ⟨l, hl, rfl, rfl⟩
    have hinputs : l.parts.inputs.mapM
        (inputSlot (ofLines lines).names (String.ofList l.text)) = .ok _ :=
      mapM_inputSlot_eq_ok_iff.2
        ⟨fun n hn hne => mem_variableNames.2 ⟨hne, hbound n hn hne⟩, rfl⟩
    rw [ofLines_concat hscoped hbound, addLine, hparts]
    change (l.parts.inputs.mapM (inputSlot (ofLines lines).names (String.ofList l.text)) >>= _) = _
    rw [hinputs]
    change Except.ok _ = _
    rw [hslots]
    rfl

/-- What reading more lines gives, behind lines that are read. -/
theorem foldlM_addLine_eq_ok_iff {texts : List (List Char)} {p : Pattern}
    (hscoped : Scoped earlier) :
    texts.foldlM addLine (ofLines earlier) = .ok p ↔
      ∃ lines : List Line, (∀ l ∈ lines, l.WellFormed) ∧ texts = lines.map Line.text ∧
        Scoped (earlier ++ lines) ∧ p = ofLines (earlier ++ lines) := by
  induction texts generalizing earlier with
  | nil =>
    simp only [List.foldlM_nil]
    constructor
    · intro h
      cases h
      exact ⟨[], by simp, rfl, by simpa using hscoped, by simp⟩
    · rintro ⟨lines, -, hnil, -, rfl⟩
      rw [List.map_eq_nil_iff.1 hnil.symm, List.append_nil]
      rfl
  | cons line texts ih =>
    rw [List.foldlM_cons, Except.bind_eq_ok_iff]
    constructor
    · rintro ⟨q, hq, hp⟩
      obtain ⟨l, hl, rfl, hbound, rfl⟩ := (addLine_eq_ok_iff hscoped).1 hq
      obtain ⟨lines, hlines, rfl, hall, rfl⟩ := (ih (scoped_concat.2 ⟨hscoped, hbound⟩)).1 hp
      rw [List.append_assoc, List.singleton_append] at hall ⊢
      exact ⟨l :: lines, List.forall_mem_cons.2 ⟨hl, hlines⟩, rfl, hall, rfl⟩
    · rintro ⟨lines, hlines, htexts, hall, rfl⟩
      obtain ⟨l, lines, rfl, rfl, rfl⟩ := List.map_eq_cons_iff.1 htexts.symm
      obtain ⟨hl, hlines⟩ := List.forall_mem_cons.1 hlines
      have hbound : Bound earlier l := hall earlier l lines rfl
      refine ⟨_, (addLine_eq_ok_iff hscoped).2 ⟨l, hl, rfl, hbound, rfl⟩,
        (ih (scoped_concat.2 ⟨hscoped, hbound⟩)).2 ⟨lines, hlines, rfl, ?_, ?_⟩⟩
      · rwa [List.append_assoc, List.singleton_append]
      · rw [List.append_assoc, List.singleton_append]

/-- A text is written as lines if the lines make up the text, without the blanks and without the
lines of blanks. -/
structure IsWritten (text : String) (lines : List Line) : Prop where
  ne_nil : lines ≠ []
  layout : ∃ raw : List (List Char), (∀ r ∈ raw, '\n' ∉ r) ∧ text.toList = Text.join '\n' raw ∧
    (raw.map Text.dropBlanks).filter (· ≠ []) = lines.map Line.text
  wellFormed : ∀ l ∈ lines, l.WellFormed
  bound : Scoped lines

/-- **What is read and what it gives.** A text is read if it is written as lines, and then it gives
the pattern of its lines. -/
theorem parse_eq_ok_iff {text : String} {p : Pattern} :
    parse text = .ok p ↔ ∃ lines, IsWritten text lines ∧ p = ofLines lines := by
  have hfold (q : Pattern) : (linesOf text).foldlM addLine {} = .ok q ↔
      ∃ lines : List Line, (∀ l ∈ lines, l.WellFormed) ∧ linesOf text = lines.map Line.text ∧
        Scoped lines ∧ q = ofLines lines :=
    foldlM_addLine_eq_ok_iff scoped_nil
  have hempty (lines : List Line) : (ofLines lines).steps.isEmpty ↔ lines = [] := by
    simp [ofLines]
  have hread (q : Pattern) : parse text = .ok q ↔
      (linesOf text).foldlM addLine {} = .ok q ∧ ¬ q.steps.isEmpty := by
    rw [parse, Except.bind_eq_ok_iff]
    constructor
    · rintro ⟨q', hq', h⟩
      split at h
      · cases h
      · rename_i hne
        cases h
        exact ⟨hq', hne⟩
    · rintro ⟨hq, hne⟩
      exact ⟨q, hq, if_neg hne⟩
  rw [hread, hfold]
  constructor
  · rintro ⟨⟨lines, hlines, htexts, hscoped, rfl⟩, hne⟩
    refine ⟨lines, ⟨fun h => hne ((hempty lines).2 h), ?_, hlines, hscoped⟩, rfl⟩
    obtain ⟨-, hraw, htext⟩ := Text.split_eq_iff.1 (Eq.refl (Text.split '\n' text.toList))
    exact ⟨_, hraw, htext, htexts⟩
  · rintro ⟨lines, ⟨hne, ⟨raw, hraw, htext, hlayout⟩, hlines, hscoped⟩, rfl⟩
    refine ⟨⟨lines, hlines, ?_, hscoped, rfl⟩, fun h => hne ((hempty lines).1 h)⟩
    have hrawne : raw ≠ [] := by
      rintro rfl
      exact hne (List.map_eq_nil_iff.1 hlayout.symm)
    rw [linesOf, Text.split_eq_iff.2 ⟨hrawne, hraw, htext⟩, hlayout]

end Pattern

end OpGraph
