import OpGraph.Model.Basic

/-!
# Summaries of models

The facts about a model that are shown at a glance.
-/

namespace OpGraph

/-- The facts about a model that are shown at a glance. -/
structure ModelSummary where
  irVersion : Int64
  producerName : String
  producerVersion : String
  operatorSets : List (String × Int64)
  graphName : String
  nodeCount : Nat
  initializerCount : Nat
  inputs : List String
  outputs : List String

/-- The summary of a model. A model without a graph shows an empty one. -/
def Model.summary (m : Model) : ModelSummary :=
  let graph := m.graph.getD {}
  { irVersion := m.irVersion
    producerName := m.producerName
    producerVersion := m.producerVersion
    operatorSets := m.operatorSets.map fun s => (s.domain, s.version)
    graphName := graph.name
    nodeCount := graph.nodes.length
    initializerCount := graph.initializers.length
    inputs := graph.inputs.map (·.name)
    outputs := graph.outputs.map (·.name) }

end OpGraph
