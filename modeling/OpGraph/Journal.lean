import OpGraph.Liveness
import OpGraph.Match.Search

/-!
# The journal of a pass

What happens during a pass is written down in order: the events that an observer
of the pass is told of, and remarks on the way. Each notice has its line in a
log.
-/

namespace OpGraph

/-- What an observer of a pass is told of. -/
inductive Event
  | deleted (index : Nat) (removed : List String)
  | replaced (index : Nat) (removed inserted : List String)
  | cleanedUp (count : CleanupCount)
deriving DecidableEq

/-- A remark on the course of a search, a pass or a cleanup. -/
inductive Remark
  | searchAbandoned (anchor : String) (maxStates : Nat)
  | outputLost (tensor output : String)
  | readersRedirected (source target : String) (count : Nat)
  | constantKept (tensor : String)
  | cleanupFinished (count : CleanupCount)
deriving DecidableEq

/-- An entry of the journal. A rule that chooses replacements is consulted with the index and the
chain of a match, and proposes a number of nodes. -/
inductive Notice
  | event (e : Event)
  | remark (r : Remark)
  | consulted (index : Nat) (chain : Chain)
  | proposed (length : Nat)
deriving DecidableEq

/-- The notices of a pass, in order. -/
abbrev Journal := List Notice

namespace Journal

/-- The events of a journal. -/
def events (j : Journal) : List Event :=
  j.filterMap fun
    | .event e => some e
    | _ => none

/-- The remarks of a journal. -/
def remarks (j : Journal) : List Remark :=
  j.filterMap fun
    | .remark r => some r
    | _ => none

end Journal

/-- How much a line of a log matters. -/
inductive LogLevel
  | debug
  | info
  | warn
deriving DecidableEq

/-- The value of a field of a log line. -/
inductive LogValue
  | text (s : String)
  | number (n : Nat)
deriving DecidableEq

/-- A line of a log: a message with named values. -/
structure LogLine where
  level : LogLevel
  message : String
  fields : List (String × LogValue)
deriving DecidableEq

/-- The log fields of a cleanup. -/
def CleanupCount.fields (c : CleanupCount) : List (String × LogValue) :=
  [("nodes_removed", .number c.nodes), ("initializers_removed", .number c.initializers)]

/-- The labels of nodes as one text. -/
def joinLabels (labels : List String) : String :=
  String.intercalate ", " labels

/-- The log line of an event. -/
def Event.logLine : Event → LogLine
  | deleted index removed =>
    { level := .info, message := "deleted subgraph"
      fields := [("index", .number index), ("removed", .text (joinLabels removed))] }
  | replaced index removed inserted =>
    { level := .info, message := "replaced subgraph"
      fields := [("index", .number index), ("removed", .text (joinLabels removed)),
        ("inserted", .text (joinLabels inserted))] }
  | cleanedUp count => { level := .info, message := "cleaned up graph", fields := count.fields }

/-- The log line of a remark. -/
def Remark.logLine : Remark → LogLine
  | searchAbandoned anchor maxStates =>
    { level := .debug, message := "search state cap reached, giving up on anchor"
      fields := [("anchor", .text anchor), ("max_states", .number maxStates)] }
  | outputLost tensor output =>
    { level := .warn, message := "graph output loses its producer after deletion"
      fields := [("tensor", .text tensor), ("output", .text output)] }
  | readersRedirected source target count =>
    { level := .debug, message := "redirected side readers"
      fields := [("from", .text source), ("to", .text target), ("followers", .number count)] }
  | constantKept tensor =>
    { level := .debug, message := "keeping constant still in use"
      fields := [("tensor", .text tensor)] }
  | cleanupFinished count =>
    { level := .debug, message := "dead-code cleanup finished", fields := count.fields }

/-- The log line of a notice. The dealings with a rule are not logged. -/
def Notice.logLine? : Notice → Option LogLine
  | event e => some e.logLine
  | remark r => some r.logLine
  | consulted .. | proposed .. => none

/-- The remarks on the anchors that a search gave up on. -/
def searchRemarks (d : Draft) (maxStates : Nat) (outcomes : List (Handle × SearchOutcome)) :
    List Remark :=
  (Pattern.abandonedOf outcomes).map fun anchor =>
    .searchAbandoned (d.label anchor) (max maxStates 1)

end OpGraph
