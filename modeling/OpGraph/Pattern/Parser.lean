import OpGraph.Error
import OpGraph.Pattern.Basic
import OpGraph.Text

/-!
# Reading patterns

A pattern has one step a line: `NAMES(INPUTS, OUTPUTS)`. The names are operators
with slashes between them, where a question mark takes any operator. The inputs
and the outputs are each a name, a question mark or a bracketed list of these.
Blanks do not count, and a line of blanks is no line. An input names a variable
that an output of an earlier line has bound. `Pattern.parse` reads line after
line, so that the first line at fault decides the error.
-/

namespace OpGraph

/-- Read the rest of a bracketed list: names with commas between them, then the bracket. -/
def Token.readList : List Token → Except LineFault (List String × List Token)
  | .name n :: .closeBracket :: rest => .ok ([n], rest)
  | .name n :: .comma :: rest => (readList rest).map fun (ns, rest) => (n :: ns, rest)
  | .name _ :: token :: _ => .error (.inList token)
  | [.name _] => .error .unterminatedList
  | [] => .error .unterminatedList
  | _ :: _ => .error .emptyEntry

/-- Read one argument: a name or a bracketed list of names. -/
def Token.readArgument : List Token → Except LineFault (List String × List Token)
  | .name n :: rest => .ok ([n], rest)
  | .openBracket :: rest => readList rest
  | _ => .error .emptySlot

namespace Token

theorem length_of_readList {tokens rest : List Token} {names : List String}
    (h : readList tokens = .ok (names, rest)) : rest.length < tokens.length := by
  fun_induction readList tokens generalizing names rest with
  | case1 n tail =>
    simp only [Except.ok.injEq, Prod.mk.injEq] at h
    simp only [← h.2, List.length_cons]
    omega
  | case2 n tail ih =>
    cases hr : readList tail with
    | error e => simp [hr, Except.map] at h
    | ok r =>
      simp only [hr, Except.map, Except.ok.injEq, Prod.mk.injEq] at h
      have := ih hr
      simp only [← h.2, List.length_cons]
      omega
  | case3 => simp at h
  | case4 => simp at h
  | case5 => simp at h
  | case6 => simp at h

theorem length_of_readArgument {tokens rest : List Token} {names : List String}
    (h : readArgument tokens = .ok (names, rest)) : rest.length < tokens.length := by
  rw [readArgument.eq_def] at h
  split at h
  · simp only [Except.ok.injEq, Prod.mk.injEq] at h
    simp [← h.2]
  · have := length_of_readList h
    simp only [List.length_cons]
    omega
  · simp at h

/-- Read arguments with commas between them. -/
def readArguments (tokens : List Token) : Except LineFault (List (List String)) :=
  match _ : readArgument tokens with
  | .error fault => .error fault
  | .ok (names, []) => .ok [names]
  | .ok (names, .comma :: rest) => (readArguments rest).map (names :: ·)
  | .ok (_, token :: _) => .error (.afterSlot token)
termination_by tokens.length
decreasing_by
  have := length_of_readArgument ‹_›
  simp only [List.length_cons] at this
  omega

end Token

/-- Check the operator names of a step. -/
def OpTypes.check : List (List Char) → Except LineFault Unit
  | [] => .ok ()
  | [] :: _ => .error .emptyOperator
  | name :: names =>
    match name.find? fun c => "()[],".toList.contains c with
    | some c => .error (.operatorCharacter c)
    | none => check names

/-- Read the operators of a step. -/
def OpTypes.ofText (text : List Char) : Except LineFault OpTypes := do
  let names := Text.split '/' text
  check names
  if names.contains ['?'] then return .any
  else return .oneOf (names.map String.ofList)

/-- Cut a line at its first opening bracket and before the closing one at its end. -/
def splitLine (line : List Char) : Except LineFault (List Char × List Char) :=
  let names := line.takeWhile (· ≠ '(')
  let arguments := (line.dropWhile (· ≠ '(')).tail
  if arguments.getLast? = some ')' ∧ names ≠ [] ∧ arguments.dropLast ≠ [] then
    .ok (names, arguments.dropLast)
  else .error .shape

/-- The parts of a line: its operators, and the names in its two arguments. -/
structure LineParts where
  ops : OpTypes
  inputs : List String
  outputs : List String
deriving DecidableEq

/-- Read the parts of a line without blanks. -/
def LineParts.ofLine (line : List Char) : Except LineFault LineParts := do
  let (names, arguments) ← splitLine line
  let ops ← OpTypes.ofText names
  match ← Token.readArguments (← Token.readAll arguments) with
  | [inputs, outputs] => return { ops, inputs, outputs }
  | slots => throw (.slotCount slots.length)

namespace Pattern

/-- The slot of an input name. A name has to be that of a variable bound before. -/
def inputSlot (bound : List String) (line name : String) : Except Error Slot :=
  if name = "?" then .ok .any
  else
    match bound.idxOf? name with
    | some index => .ok (.variable index)
    | none => .error (.unboundVariable name line)

/-- The slots of output names, and the variables bound after them. A new name becomes the next
variable. -/
def outputSlots (bound : List String) : List String → List Slot × List String
  | [] => ([], bound)
  | name :: names =>
    if name = "?" then
      let (slots, after) := outputSlots bound names
      (.any :: slots, after)
    else
      match bound.idxOf? name with
      | some index =>
        let (slots, after) := outputSlots bound names
        (.variable index :: slots, after)
      | none =>
        let (slots, after) := outputSlots (bound ++ [name]) names
        (.variable bound.length :: slots, after)

/-- Add the step of a line without blanks. -/
def addLine (p : Pattern) (line : List Char) : Except Error Pattern := do
  let text := String.ofList line
  let parts ← (LineParts.ofLine line).mapError (.patternSyntax text)
  let inputs ← parts.inputs.mapM (inputSlot p.names text)
  let (outputs, names) := outputSlots p.names parts.outputs
  return { steps := p.steps ++ [{ ops := parts.ops, inputs, outputs, line := text }], names }

/-- The lines of a text, without blanks and without the empty ones. -/
def linesOf (text : String) : List (List Char) :=
  ((Text.split '\n' text.toList).map Text.dropBlanks).filter (· ≠ [])

/-- Read a pattern. -/
def parse (text : String) : Except Error Pattern := do
  let p ← (linesOf text).foldlM addLine {}
  if p.steps.isEmpty then throw .emptyPattern
  return p

end Pattern

end OpGraph
