import OpGraph.Model.Summary
import OpGraph.Program.Basic

/-!
# Searching a model

Lists the matches of two patterns: a sigmoid that is cut and raised to a power,
and two convolutions with any two nodes between them.
-/

namespace OpGraph.Program.Search

/-- The model that is searched where none is given. -/
def synthetic : Model :=
  .synthetic
    [.ofOp "Conv" ["images", "w0"] ["c0"] "conv_0", .ofOp "Sigmoid" ["c0"] ["s0"] "sigmoid_0",
      .ofOp "Mul" ["c0", "s0"] ["m0"] "mul_0", .ofOp "Conv" ["m0", "w1"] ["c1"] "conv_1",
      .ofOp "Sigmoid" ["c1"] ["s1"] "sigmoid_1", .ofOp "Slice" ["s1"] ["a1"] "slice_0",
      .ofOp "Mul" ["a1", "a1"] ["b1"] "mul_1", .ofOp "Pow" ["b1", "c1"] ["output"] "pow_0"]
    "images" "output" [.ofSingle "w0" .one, .ofSingle "w1" .one]

/-- The patterns that are searched for. -/
def patternTexts : List String :=
  ["Sigmoid(?, x0)\nSlice(x0, a0)\nMul(a0, b0)\nPow(b0, ?)",
    "Conv(?, ?)\n?(?, ?)\n?(?, ?)\nConv(?, ?)"]

/-- List the matches in a model. -/
def list (m : Model) : Printing Unit := do
  let s := m.summary
  .say s!"Model '{s.graphName}': {s.nodeCount} nodes, {s.initializerCount} initializers"
  let d ← .check (Draft.ofModel m)
  for p in ← .check (patternTexts.mapM Pattern.parse) do
    .say (p.listing d (p.findAll d defaultMaxStates))

/-- The program that lists the matches in a model. It ends without a model. -/
def program : Program where
  synthetic := synthetic
  run m := do
    list m
    return none

end OpGraph.Program.Search
