import OpGraph.Main
import OpGraph.Model.Enumeration
import OpGraph.Pipeline
import OpGraph.Proofs.Cleanup
import OpGraph.Proofs.Contraction
import OpGraph.Proofs.Feeding
import OpGraph.Proofs.HandleReuse
import OpGraph.Proofs.LeastSets
import OpGraph.Proofs.LostOutputs
import OpGraph.Proofs.OmittedTensors
import OpGraph.Proofs.Ordering
import OpGraph.Proofs.OutputSpecs
import OpGraph.Proofs.Overlaps
import OpGraph.Proofs.PassAccounts
import OpGraph.Proofs.PatternGrammar
import OpGraph.Proofs.PatternLines
import OpGraph.Proofs.PatternText
import OpGraph.Proofs.Pipelines
import OpGraph.Proofs.Rerouting
import OpGraph.Proofs.RulePass
import OpGraph.Proofs.SearchEffort
import OpGraph.Proofs.SessionTallies
import OpGraph.Proofs.SingleSteps
import OpGraph.Proofs.Splicing
import OpGraph.Proofs.StarvedNodes
import OpGraph.Proofs.TrimmedModels
import OpGraph.Proofs.UnknownFields
import OpGraph.Proofs.VariableScope
import OpGraph.Proofs.NormalForm
import OpGraph.Recipe
import OpGraph.Version
