/-!
# Tokens of a pattern line

The arguments of a pattern line are names, brackets and commas. A name is a run
of letters, digits and underscores, or a question mark that stands alone.
-/

namespace OpGraph

/-- A token of the arguments of a pattern line. -/
inductive Token
  | name (text : String)
  | openBracket
  | closeBracket
  | comma
deriving DecidableEq

/-- How a token is shown in an error message. -/
def Token.display : Token → String
  | name text => "Ident(\"" ++ text ++ "\")"
  | openBracket => "LBracket"
  | closeBracket => "RBracket"
  | comma => "Comma"

/-- What can be wrong with the form of a pattern line. -/
inductive LineFault
  | shape
  | emptyOperator
  | operatorCharacter (c : Char)
  | character (c : Char)
  | name (text : String)
  | emptySlot
  | afterSlot (token : Token)
  | unterminatedList
  | emptyEntry
  | inList (token : Token)
  | slotCount (found : Nat)
deriving DecidableEq

/-- The reason that an error message gives. -/
def LineFault.reason : LineFault → String
  | shape => "expected NAME(INPUTS, OUTPUTS)"
  | emptyOperator => "empty operator name"
  | operatorCharacter c => s!"unexpected character '{c}' in operator name"
  | character c => s!"unexpected character '{c}'"
  | name text => s!"invalid identifier '{text}'"
  | emptySlot => "empty argument slot"
  | afterSlot token => s!"unexpected token {token.display} after argument"
  | unterminatedList => "unterminated list"
  | emptyEntry => "empty list entry"
  | inList token => s!"unexpected token {token.display} in list"
  | slotCount found => s!"expected 2 argument slots, found {found}"

namespace Token

/-- The characters of a name. -/
def isNameChar (c : Char) : Bool :=
  c.isAlphanum || c == '_' || c == '?'

/-- The token of a run of name characters. A question mark does not stand in a longer name. -/
def ofRun (run : List Char) : Except LineFault Token :=
  if run.contains '?' && run ≠ ['?'] then .error (.name (String.ofList run))
  else .ok (.name (String.ofList run))

/-- Split the arguments of a line into tokens. -/
def readAll : List Char → Except LineFault (List Token)
  | [] => .ok []
  | c :: cs => do
    match c with
    | '[' => return .openBracket :: (← readAll cs)
    | ']' => return .closeBracket :: (← readAll cs)
    | ',' => return .comma :: (← readAll cs)
    | c =>
      if isNameChar c then
        return (← ofRun (c :: cs.takeWhile isNameChar)) :: (← readAll (cs.dropWhile isNameChar))
      else throw (.character c)
termination_by cs => cs.length
decreasing_by
  iterate 3 simp
  exact Nat.lt_succ_of_le (List.dropWhile_sublist _).length_le

end Token

end OpGraph
