import StockFlow.Number.Double
import StockFlow.Session.Worker

/-!
# The command line

Compiles a project file and answers requests line by line, from a file of commands or from the
standard input.
-/

namespace StockFlow.CommandLine

structure Arguments where
  /-- The project file, or `-` for the standard input. -/
  project : String
  commands? : Option String

def Arguments.read? : List String → Option Arguments
  | [project] => some ⟨project, none⟩
  | ["--commands", file, project] => some ⟨project, some file⟩
  | [project, "--commands", file] => some ⟨project, some file⟩
  | _ => none

partial def readAll (stream : IO.FS.Stream) (before : String) : IO String := do
  let line ← stream.getLine
  if line.isEmpty then return before else readAll stream (before ++ line)

partial def answerLines (input output : IO.FS.Stream) (worker : Worker Float) : IO Unit := do
  let line ← input.getLine
  if line.isEmpty then return
  let (answer, worker) := worker.handleLine line
  match answer.text? with
  | some text =>
    output.putStrLn text
    output.flush
  | none => pure ()
  answerLines input output worker

def fail (message : String) : IO UInt32 := do
  (← IO.getStderr).putStrLn ("Error: " ++ message)
  return 1

end StockFlow.CommandLine

open StockFlow StockFlow.CommandLine

def main (arguments : List String) : IO UInt32 := do
  match Arguments.read? arguments with
  | none => fail "usage: [--commands FILE] PROJECT"
  | some arguments =>
    if arguments.project = "-" && arguments.commands?.isNone then
      fail "reading the project from stdin requires --commands"
    else
      let stdin ← IO.getStdin
      let text ←
        if arguments.project = "-" then readAll stdin ""
        else IO.FS.readFile arguments.project
      match Worker.start (Project.ofText text) with
      | .error fault => fail (Worker.startFailure fault)
      | .ok worker =>
        let input ←
          match arguments.commands? with
          | some file => pure (IO.FS.Stream.ofHandle (← IO.FS.Handle.mk file .read))
          | none => pure stdin
        answerLines input (← IO.getStdout) worker
        return 0
