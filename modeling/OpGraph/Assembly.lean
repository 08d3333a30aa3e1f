import OpGraph.Model.Codec
import OpGraph.Pattern.Parser
import OpGraph.Pass.Session

/-!
# From models to models

A draft is taken from the graph of a model and put back into it. `Model.runPass`
does so around one pass, `deleteInContent` also around the binary form.
-/

namespace OpGraph

/-- Start to edit the graph of a model. -/
def Draft.ofModel (m : Model) : Except Error Draft :=
  match m.graph with
  | some g => .ok (.ofGraph g)
  | none => .error (.missingField "model.graph")

/-- A model with the edited graph in the place of its own. -/
def Draft.toModel (d : Draft) (m : Model) : Model :=
  { m with graph := some d.toGraph }

/-- How an edited model is put together. -/
structure Assembly where
  producerName : Option String := none
  producerVersion : Option String := none
  cleanup : Bool := false

/-- Put a model together from a draft. Gives the model and what a cleanup before it removed. -/
def Assembly.build (a : Assembly) (m : Model) (d : Draft) : Model × CleanupCount :=
  let rest := if a.cleanup then d.withoutDead else d
  ({ rest.toModel m with
      producerName := a.producerName.getD m.producerName
      producerVersion := a.producerVersion.getD m.producerVersion },
    d.cleanupCount rest)

/-- What one pass over a model did. -/
structure PassSummary where
  nodesBefore : Nat
  nodesAfter : Nat
  tally : Tally

/-- By how many nodes a pass made the graph smaller. -/
def PassSummary.nodesReduced (s : PassSummary) : Nat :=
  s.nodesBefore - s.nodesAfter

/-- A pass over the graph of a model. -/
def Model.runPass (m : Model) (p : Pattern) (rule? : Option Rule) (options : PassOptions) :
    Except Error (Model × PassSummary) := do
  let d ← Draft.ofModel m
  let done := ({ draft := d, options } : Session).runPass p rule?
  discard done.result
  let summary :=
    { nodesBefore := d.entries.length
      nodesAfter := done.session.draft.entries.length
      tally := done.session.tally }
  return (done.session.draft.toModel m, summary)

/-- Read a model from its binary form, or fail. -/
def Model.decode (content : List UInt8) : Except Error Model :=
  match Model.decode? content with
  | some m => .ok m
  | none => .error .malformedModel

/-- Delete the matches of a pattern in the binary form of a model. The pattern is read first, then
the content. -/
def deleteInContent (content : Except Error (List UInt8)) (patternText : String)
    (options : PassOptions) : Except Error (List UInt8 × PassSummary) := do
  let p ← Pattern.parse patternText
  let m ← Model.decode (← content)
  let (shorter, summary) ← m.runPass p none options
  return (shorter.encode, summary)

end OpGraph
