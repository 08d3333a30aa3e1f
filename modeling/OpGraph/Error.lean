import OpGraph.Draft.Basic
import OpGraph.Pattern.Token

/-!
# Errors

What can go wrong, by cause, and the message for each cause.
-/

namespace OpGraph

/-- Why a node that was asked for is not there, or may not be used. -/
inductive NodeFault
  | absent (handle : Handle)
  | unnamed (name : String)
  | foreign (label : String) (index : Nat)
  | keptTwice (label : String) (index : Nat)
deriving DecidableEq

/-- The description of a node that is not there. -/
def NodeFault.description : NodeFault → String
  | absent handle => handle.display
  | unnamed name => name
  | foreign label index => s!"{label} is not part of match {index}"
  | keptTwice label index => s!"{label} kept twice in match {index}"

/-- The causes of failure. -/
inductive Error
  | emptyPattern
  | patternSyntax (line : String) (fault : LineFault)
  | unboundVariable (variableName line : String)
  | arityMismatch (chain : String) (inputs outputs : Nat)
  | overlappingMatches (first second : Nat) (node : String)
  | nodeNotFound (fault : NodeFault)
  | missingField (field : String)
  | file (reason : String)
  | malformedModel
deriving DecidableEq

/-- The message for a cause of failure. -/
def Error.message : Error → String
  | emptyPattern => "Pattern is empty"
  | patternSyntax line fault => s!"Invalid pattern line '{line}': {fault.reason}"
  | unboundVariable name line => s!"Unbound variable '{name}' in pattern line '{line}'"
  | arityMismatch chain inputs outputs =>
    s!"Cannot delete subgraph [{chain}]: first node has {inputs} inputs but last node has " ++
      s!"{outputs} outputs"
  | overlappingMatches first second node => s!"Matches {first} and {second} overlap on node {node}"
  | nodeNotFound fault => s!"Node not found: {fault.description}"
  | missingField field => s!"Missing required field: {field}"
  | file reason => s!"IO error: {reason}"
  | malformedModel => "Protobuf decode error"

theorem Except.bind_eq_ok_iff {ε α β : Type} {x : Except ε α} {f : α → Except ε β} {b : β} :
    x >>= f = .ok b ↔ ∃ a, x = .ok a ∧ f a = .ok b := by
  cases x <;> simp [bind, Except.bind]

theorem Except.bind_eq_error_iff {ε α β : Type} {x : Except ε α} {f : α → Except ε β} {e : ε} :
    x >>= f = .error e ↔ x = .error e ∨ ∃ a, x = .ok a ∧ f a = .error e := by
  cases x <;> simp [bind, Except.bind]

theorem Except.map_eq_ok_iff {ε α β : Type} {x : Except ε α} {f : α → β} {b : β} :
    x.map f = .ok b ↔ ∃ a, x = .ok a ∧ f a = b := by
  cases x <;> simp [Except.map]

end OpGraph
