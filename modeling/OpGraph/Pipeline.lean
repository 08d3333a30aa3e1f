import OpGraph.Assembly

/-!
# Pipelines

Passes over models, one after the other. Each pass starts from the model that
the one before it made; the first that fails ends the run.
-/

namespace OpGraph

/-- A step of a pipeline: substitutions for a pattern, the removal of what is dead, or a new
assembly. -/
inductive ModelPass
  | substitute (options : PassOptions) (pattern : Pattern) (rule? : Option Rule)
  | removeDead
  | assemble (assembly : Assembly)

namespace ModelPass

/-- The pattern of substitutions. -/
def pattern? : ModelPass → Option Pattern
  | substitute _ p _ => some p
  | _ => none

/-- Apply a pass to a model. -/
def apply (m : Model) : ModelPass → Except Error Model
  | substitute options p rule? => (m.runPass p rule? options).map (·.1)
  | removeDead => (Draft.ofModel m).map fun d => d.withoutDead.toModel m
  | assemble a => (Draft.ofModel m).map fun d => (a.build m d).1

end ModelPass

/-- Passes in order. -/
abbrev Pipeline := List ModelPass

/-- Apply all passes to a model. -/
def Pipeline.run (passes : Pipeline) (m : Model) : Except Error Model :=
  passes.foldlM ModelPass.apply m

end OpGraph
