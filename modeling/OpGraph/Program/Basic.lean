import OpGraph.Assembly
import OpGraph.Model.Tensor

/-!
# Programs

A program works on a model and prints lines on the way; it may fail after some
of them. Each comes with a small model to show its work on. `Program.execute`
takes a program from the content of a file to the model that it ends with.
-/

namespace OpGraph

/-- A computation that prints lines and may fail. The lines before a failure stay printed. -/
abbrev Printing := ExceptT Error (StateM (List String))

namespace Printing

/-- Print a line. -/
def say (line : String) : Printing Unit :=
  modify (· ++ [line])

/-- Run to the end: the lines, and the result. -/
def transcript (p : Printing α) : List String × Except Error α :=
  let (result, lines) := StateT.run (ExceptT.run p) []
  (lines, result)

/-- Fail where a computation without lines fails. -/
def check (e : Except Error α) : Printing α :=
  MonadExcept.ofExcept e

end Printing

/-- The line that says where a model was saved. -/
def savedLine (path : String) : String :=
  s!"Saved to {path}"

/-- A program: its work on a model, which may end with another model, and the model that it works
on where none is given. -/
structure Program where
  synthetic : Model
  run : Model → Printing (Option Model)

/-- How a program ends: the lines that it printed, and the model or the failure after them. -/
structure Program.Ending where
  lines : List String
  result : Except Error (Option Model)

namespace Program

/-- The exit code for an ending: zero for success. -/
def Ending.exitCode (e : Ending) : Nat :=
  match e.result with
  | .ok _ => 0
  | .error _ => 1

/-- The binary form of the model that a program ends with. -/
def Ending.content? (e : Ending) : Option (List UInt8) :=
  match e.result with
  | .ok m? => m?.map Model.encode
  | .error _ => none

/-- Run a program on the content of a file, where one is given. -/
def execute (p : Program) (content? : Option (Except Error (List UInt8))) : Ending :=
  let model := match content? with
    | some content => content.bind Model.decode
    | none => .ok p.synthetic
  let (lines, result) := Printing.transcript (.check model >>= p.run)
  { lines, result }

end Program

/-- A node of an operator, from its inputs to its outputs. -/
def Node.ofOp (op : String) (inputs outputs : List String) (name : String) : Node :=
  { op, inputs, outputs, name }

/-- A tensor with one element. -/
def Tensor.ofSingle (name : String) (value : Single) : Tensor :=
  .ofSingles name [1] [value]

/-- The number one. -/
def Single.one : Single := ⟨0x3f800000⟩

/-- The number one half. -/
def Single.half : Single := ⟨0x3f000000⟩

/-- The number minus one. -/
def Single.minusOne : Single := ⟨0xbf800000⟩

/-- A model around a graph of a program's own. -/
def Model.synthetic (nodes : List Node) (input output : String) (initializers : List Tensor) :
    Model :=
  { irVersion := 8
    graph := some
      { name := "synthetic", nodes, initializers
        inputs := [{ name := input }], outputs := [{ name := output }] } }

end OpGraph
