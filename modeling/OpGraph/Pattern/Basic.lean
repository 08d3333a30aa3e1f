/-!
# Patterns

A pattern describes a chain of nodes, one step a node. A step says which
operators it takes, and ties the inputs and outputs of its node to variables
that stand for tensor names.
-/

namespace OpGraph

/-- What a step says about an input or an output: nothing, or that it is the tensor of a
variable. -/
inductive Slot
  | any
  | variable (index : Nat)
deriving DecidableEq

/-- The operators that a step takes. -/
inductive OpTypes
  | any
  | oneOf (names : List String)
deriving DecidableEq

/-- Whether a step with these operators takes a node of the given operator. -/
def OpTypes.accepts : OpTypes → String → Bool
  | any, _ => true
  | oneOf names, op => names.contains op

/-- One step of a pattern, with the line it was read from. -/
structure PatternStep where
  ops : OpTypes
  inputs : List Slot
  outputs : List Slot
  line : String
deriving DecidableEq

/-- A chain of steps, with the names of its variables. A slot gives the place of a variable among
the names. -/
structure Pattern where
  steps : List PatternStep := []
  names : List String := []
deriving DecidableEq

namespace Pattern

/-- The lines of a pattern. -/
def lines (p : Pattern) : List String :=
  p.steps.map (·.line)

/-- The text of a pattern, one line a step. -/
def text (p : Pattern) : String :=
  String.intercalate "\n" p.lines

end Pattern

end OpGraph
