import OpGraph.Liveness
import OpGraph.Match.Search

/-!
# Options and tallies

The options of a pass, and the count of what it does.
-/

namespace OpGraph

/-- The options of a pass. -/
structure PassOptions where
  cleanupAfter : Bool := false
  protectShared : Bool := true
  maxStates : Nat := defaultMaxStates
deriving DecidableEq

/-- The count of what a pass does. -/
structure Tally where
  matched : Nat := 0
  deletions : Nat := 0
  replacements : Nat := 0
  nodesRemoved : Nat := 0
  nodesInserted : Nat := 0
  constantsRemoved : Nat := 0
  initializersRemoved : Nat := 0
  initializersAdded : Nat := 0
  cleanup : CleanupCount := {}
deriving DecidableEq

/-- What two cleanups remove together. -/
def CleanupCount.add (a b : CleanupCount) : CleanupCount :=
  { nodes := a.nodes + b.nodes, initializers := a.initializers + b.initializers }

/-- What two passes do together. -/
def Tally.add (a b : Tally) : Tally :=
  { matched := a.matched + b.matched
    deletions := a.deletions + b.deletions
    replacements := a.replacements + b.replacements
    nodesRemoved := a.nodesRemoved + b.nodesRemoved
    nodesInserted := a.nodesInserted + b.nodesInserted
    constantsRemoved := a.constantsRemoved + b.constantsRemoved
    initializersRemoved := a.initializersRemoved + b.initializersRemoved
    initializersAdded := a.initializersAdded + b.initializersAdded
    cleanup := a.cleanup.add b.cleanup }

end OpGraph
