import OpGraph.Program.Search
import OpGraph.Program.Shorten
import OpGraph.Program.SwishToRelu

/-!
# The command line

`search [MODEL]` lists matches in a model; `shorten [MODEL [OUTPUT]]` and
`relu [MODEL [OUTPUT]]` change a model and save it. Without a file each works on
a small model of its own.
-/

namespace OpGraph

/-- What a command line asks for. -/
structure Invocation where
  program : Program
  model? : Option String
  output? : Option String

/-- The program of a name. -/
def Program.named? : String → Option Program
  | "search" => some Program.Search.program
  | "shorten" => some Program.Shorten.program
  | "relu" => some Program.SwishToRelu.program
  | _ => none

/-- Read a command line. -/
def Invocation.ofArguments : List String → Option Invocation
  | [] => none
  | name :: paths =>
    (Program.named? name).map fun program =>
      { program, model? := paths[0]?, output? := paths[1]? }

/-- How the command line is used. -/
def usage : String :=
  "usage: search [MODEL] | shorten [MODEL [OUTPUT]] | relu [MODEL [OUTPUT]]"

/-- The content of a file, or the reason why it cannot be read. -/
def readContent (path : String) : IO (Except Error (List UInt8)) := do
  match ← (IO.FS.readBinFile path).toBaseIO with
  | .ok bytes => return .ok bytes.toList
  | .error e => return .error (.file (toString e))

/-- Save content to a file, and say so. -/
def saveContent (path : String) (content : List UInt8) : IO UInt32 := do
  match ← (IO.FS.writeBinFile path ⟨content.toArray⟩).toBaseIO with
  | .ok () =>
    IO.println (savedLine path)
    return 0
  | .error e =>
    IO.eprintln (Error.message (.file (toString e)))
    return 1

/-- Do what a command line asks for. -/
def Invocation.run (call : Invocation) : IO UInt32 := do
  let content? ← call.model?.mapM readContent
  let ending := call.program.execute content?
  for line in ending.lines do
    IO.println line
  match ending.result, ending.content?, call.output? with
  | .error e, _, _ =>
    IO.eprintln e.message
    return .ofNat ending.exitCode
  | .ok _, some content, some path => saveContent path content
  | .ok _, _, _ => return .ofNat ending.exitCode

end OpGraph

def main (arguments : List String) : IO UInt32 := do
  match OpGraph.Invocation.ofArguments arguments with
  | some call => call.run
  | none =>
    IO.eprintln OpGraph.usage
    return 2
