import OpGraph.Journal

/-!
# Bypassing a chain

A chain that is taken out leaves the readers of its last node's outputs without
a source. The inputs of its first node take the place of these outputs, one by
one: whatever writes an input writes the output from then on, and other readers
of the input follow. Where nothing in the graph writes the input, the readers of
the output read the input.
-/

namespace OpGraph

/-- Fail unless a chain can be bypassed: its first node reads as many tensors as its last one
writes. -/
def checkArity (first last : Node) (chain : String) : Except Error Unit :=
  if first.inputs.length = last.outputs.length then .ok ()
  else .error (.arityMismatch chain first.inputs.length last.outputs.length)

/-- Fail unless a chain that is still in the draft can be bypassed. -/
def Draft.checkChainArity (d : Draft) (chain : Chain) : Except Error Unit :=
  match chain.head?, chain.getLast? with
  | some first, some last => do
    checkArity (← d.require first) (← d.require last) (chain.describe d)
  | _, _ => .ok ()

/-- A bypass under way: the draft, how many outputs and inputs were renamed, and what there is to
remark. -/
structure Bypass where
  draft : Draft
  renamed : Nat := 0
  remarks : List Remark := []

namespace Bypass

/-- Let an input of the first node take the place of an output of the last one. -/
def connect (b : Bypass) (input output : String) : Bypass :=
  if input = "" ∨ output = "" ∨ input = output then b
  else
    let d := b.draft
    if d.writers input = [] then
      { draft := d.redirect output input
        renamed := b.renamed + d.edgeCount output
        remarks := b.remarks ++ if d.isOutput output then [.outputLost input output] else [] }
    else
      let count := d.edgeCount input
      { draft := (d.renameOutputs input output).redirect input output
        renamed := b.renamed + (d.writers input).length + count
        remarks := b.remarks ++ if count = 0 then [] else [.readersRedirected input output count] }

end Bypass

/-- Bypass a chain that has been taken out, given its first and its last node. -/
def Draft.bypass (d : Draft) (first last : Node) : Bypass :=
  (first.inputs.zip last.outputs).foldl (fun b (input, output) => b.connect input output)
    { draft := d }

end OpGraph
