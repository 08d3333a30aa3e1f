import OpGraph.Journal

/-!
# Substitutions

A substitution says what takes the place of a match: nodes of the match that
stay, new nodes, and initializers to add. A rule chooses the substitution for
each match; it may edit the draft before it does, and it may fail.
-/

namespace OpGraph

/-- One node of a substitution: a node of the match that stays, or a new one. -/
inductive Replacement
  | keep (handle : Handle)
  | insert (node : Node)

/-- What takes the place of a match. A substitution without nodes deletes the match. -/
structure Substitution where
  nodes : List Replacement := []
  initializers : List Tensor := []

namespace Substitution

/-- The handles that a substitution keeps. -/
def kept (s : Substitution) : List Handle :=
  s.nodes.filterMap fun
    | .keep h => some h
    | .insert _ => none

end Substitution

/-- The choice of a substitution for a match, from its index and its chain. What the rule does to
the draft stays, also where it fails. -/
abbrev Rule := Nat → Chain → EStateM Error Draft Substitution

end OpGraph
