import OpGraph.Program.Basic

/-!
# Shortening a chain

Takes the middle out of a chain from a multiplication to a sigmoid and ties its
ends together, then deletes every node that only passes a tensor on.
-/

namespace OpGraph.Program.Shorten

/-- The model that is shortened where none is given. -/
def synthetic : Model :=
  .synthetic
    [.ofOp "Mul" ["images", "scale"] ["a0"] "mul_0", .ofOp "Conv" ["a0", "w0"] ["b0"] "conv_0",
      .ofOp "Reshape" ["b0", "shape"] ["c0"] "reshape_0",
      .ofOp "Transpose" ["c0"] ["d0"] "transpose_0", .ofOp "Sigmoid" ["d0"] ["e0"] "sigmoid_0",
      .ofOp "Identity" ["e0"] ["output"] "identity_0"]
    "images" "output"
    [.ofSingle "scale" .half, .ofSingle "w0" .one, .ofSingle "shape" .minusOne]

/-- The chain whose middle is taken out. -/
def chainText : String :=
  "Mul(?, a0)\nConv(a0, b0)\nReshape(b0, c0)\nTranspose(c0, d0)\nSigmoid(d0, ?)"

/-- The node that only passes a tensor on. -/
def identityText : String :=
  "Identity(?, ?)"

/-- Keep the ends of a chain; the last node reads what the first one writes. -/
def tieEnds : Rule := fun _ chain => do
  let d ← get
  match chain.head?, chain.getLast? with
  | some first, some last =>
    match d.require first with
    | .error e => throw e
    | .ok node =>
      let output ← (node.outputs[0]?).elim (throw (.missingField "output")) pure
      if let some sigmoid := d.node? last then
        set (d.replace last { sigmoid with inputs := sigmoid.inputs.set 0 output })
      return { nodes := [.keep first, .keep last] }
  | _, _ => return {}

/-- Shorten the chains of a model. -/
def shorten (m : Model) : Printing Model := do
  let start : Session := { draft := ← .check (Draft.ofModel m) }
  let chain ← .check (Pattern.parse chainText)
  .say (start.describe chain)
  let tied := start.runPass chain (some tieEnds)
  let replaced ← .check tied.result
  .say s!"Done for replace {replaced} subgraphs."
  let bypassed := tied.session.delete (← .check (Pattern.parse identityText))
  let deleted ← .check bypassed.result
  .say s!"Done for delete {deleted} subgraphs."
  let t := bypassed.session.tally
  .say (s!"Removed {t.nodesRemoved} nodes, {t.constantsRemoved} constants, " ++
    s!"{t.initializersRemoved} initializers")
  return bypassed.session.draft.toModel m

/-- The program that shortens the chains of a model. -/
def program : Program where
  synthetic := synthetic
  run m := some <$> shorten m

end OpGraph.Program.Shorten
