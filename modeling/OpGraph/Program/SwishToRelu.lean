import OpGraph.Program.Basic

/-!
# From swish to rectifier

Puts a rectifier in the place of the sigmoid and the multiplication that follow
a convolution.
-/

namespace OpGraph.Program.SwishToRelu

/-- The nodes of one block: a convolution and its swish. -/
def block (i : Nat) : List Node :=
  [.ofOp "Conv" [s!"t{i}", s!"w{i}"] [s!"c{i}"] s!"conv_{i}",
    .ofOp "Sigmoid" [s!"c{i}"] [s!"s{i}"] s!"sigmoid_{i}",
    .ofOp "Mul" [s!"c{i}", s!"s{i}"] [s!"t{i + 1}"] s!"mul_{i}"]

/-- A model of several blocks. -/
def synthetic (blocks : Nat) : Model :=
  .synthetic ((List.range blocks).flatMap block) "t0" s!"t{blocks}"
    ((List.range blocks).map fun i => .ofSingle s!"w{i}" .one)

/-- A convolution with its swish. -/
def swishText : String :=
  "Conv(?, c0)\nSigmoid(c0, s0)\nMul([s0, c0], ?)"

/-- Keep the convolution, and put a rectifier after it. -/
def useRelu : Rule := fun index chain => do
  let d ← get
  let outputOf (place : Nat) : Except Error String := do
    let h ← (chain[place]?).elim (.error (.missingField "node")) .ok
    ((← d.require h).outputs[0]?).elim (.error (.missingField "output")) .ok
  match outputOf 0, outputOf 2, chain.head? with
  | .ok input, .ok output, some conv =>
    return { nodes := [.keep conv, .insert (.ofOp "Relu" [input] [output] s!"swish_relu_{index}")] }
  | .error e, _, _ => throw e
  | _, .error e, _ => throw e
  | _, _, none => return {}

/-- Replace the swishes of a model. -/
def replaceSwishes (m : Model) : Printing Model := do
  let start : Session :=
    { draft := ← .check (Draft.ofModel m), options := { cleanupAfter := true } }
  let before := start.draft.entries.length
  let swish ← .check (Pattern.parse swishText)
  .say (start.describe swish)
  let done := start.runPass swish (some useRelu)
  let replaced ← .check done.result
  let after := done.session.draft.entries.length
  .say s!"Replaced {replaced} subgraphs: {before} -> {after} nodes"
  return done.session.draft.toModel m

/-- The program that replaces the swishes of a model. -/
def program : Program where
  synthetic := synthetic 3
  run m := some <$> replaceSwishes m

end OpGraph.Program.SwishToRelu
