import OpGraph.Pass.Run

/-!
# Sessions

A session keeps a draft, the options of its passes and the tally of all passes
that succeeded.
-/

namespace OpGraph

/-- A draft with the options and the tally of its passes. -/
structure Session where
  draft : Draft
  options : PassOptions := {}
  tally : Tally := {}

/-- How an act of a session ends: the session after it, what happened, and the result. -/
structure SessionOutcome (α : Type) where
  session : Session
  journal : Journal
  result : Except Error α

namespace Session

/-- The matches of a pattern. -/
def findAll (s : Session) (p : Pattern) : List Chain :=
  p.findAll s.draft s.options.maxStates

/-- The text that lists the matches of a pattern. -/
def describe (s : Session) (p : Pattern) : String :=
  p.listing s.draft (s.findAll p)

/-- The remarks of a search for a pattern. -/
def searchRemarks (s : Session) (p : Pattern) : List Remark :=
  OpGraph.searchRemarks s.draft s.options.maxStates (p.outcomes s.draft s.options.maxStates)

/-- A pass over the draft. Gives the number of matches; a pass that fails is not counted. -/
def runPass (s : Session) (p : Pattern) (rule? : Option Rule) : SessionOutcome Nat :=
  let (progress, result) := s.draft.runPass s.options p rule?
  match result with
  | .ok () =>
    { session := { s with draft := progress.draft, tally := s.tally.add progress.tally }
      journal := progress.journal
      result := .ok progress.tally.matched }
  | .error e =>
    { session := { s with draft := progress.draft }, journal := progress.journal
      result := .error e }

/-- Delete every match of a pattern. -/
def delete (s : Session) (p : Pattern) : SessionOutcome Nat :=
  s.runPass p none

/-- Remove what is dead. -/
def cleanup (s : Session) : SessionOutcome CleanupCount :=
  let rest := s.draft.withoutDead
  let removed := s.draft.cleanupCount rest
  let tally := { s.tally with cleanup := s.tally.cleanup.add removed }
  { session := { s with draft := rest, tally }
    journal := [.remark (.cleanupFinished removed), .event (.cleanedUp removed)]
    result := .ok removed }

end Session

end OpGraph
