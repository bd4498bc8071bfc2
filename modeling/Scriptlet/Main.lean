import Scriptlet.CommandLine

/-! The program: it hands the words of the command line to the library, and the console to the
statements as they run.

A statement is first given little: a few loop iterations, and the lines of input that have been
read so far. If that is not enough, more is supplied and the statement starts over from the machine
it began with; what it wrote before is not written again. Output therefore appears while a long
statement runs, and a prompt appears before its answer is read. -/

namespace Scriptlet.CommandLine

/-- The standard streams; `exhausted` says that no more input will come. -/
structure Terminal where
  input : IO.FS.Stream
  output : IO.FS.Stream
  exhausted : Bool

partial def readAll (stream : IO.FS.Stream) (bytes : ByteArray) : IO ByteArray := do
  let chunk ← stream.read 65536
  if chunk.isEmpty then return bytes else readAll stream (bytes ++ chunk)

/-- Reads to the next line feed, or to the end of the input. -/
partial def readLineBytes (stream : IO.FS.Stream) (bytes : ByteArray) : IO ByteArray := do
  let byte ← stream.read 1
  let bytes := bytes ++ byte
  if byte.isEmpty || byte.toList == [10] then return bytes else readLineBytes stream bytes

/-- Runs one statement to its end. As long as more input may come, the lines read so far are
followed by one that is no text, so that a statement in want of a line stops there. -/
partial def runStatement (terminal : Terminal) (statement : Tree) (start : Machine)
    (fuel shown : Nat) : IO (Option EvalError × Machine × Terminal) := do
  let known := start.console.waiting
  let guarded := if terminal.exhausted then known else known ++ [none]
  let machine := { start with console := { start.console with waiting := guarded } }
  let (outcome, machine) := (evaluate fuel statement).run machine
  let written := machine.console.written
  terminal.output.write (written.extract shown written.size)
  terminal.output.flush
  let left := machine.console.waiting
  let settled : Machine := { machine with
    console := { machine.console with
      waiting := if terminal.exhausted then left else left.dropLast, written := .empty } }
  match outcome with
  | .ok _ => return (none, settled, terminal)
  | .error .outOfFuel => runStatement terminal statement start (fuel * 2) written.size
  | .error (.error error) =>
    if !terminal.exhausted && left.isEmpty && error = .console .notText then
      let bytes ← readLineBytes terminal.input .empty
      let console := { start.console with waiting := known ++ Console.linesOfInput bytes }
      runStatement { terminal with exhausted := bytes.isEmpty } statement { start with console }
        fuel written.size
    else return (some error, settled, terminal)

def runSource (settings : Settings) (source : String) : IO UInt32 := do
  match ({} : Machine).parse settings.depthLimit source with
  | (.error error, _) =>
    IO.eprintln error.message
    return 1
  | (.ok program, machine) =>
    let input ← IO.getStdin
    let output ← IO.getStdout
    let interactive ← input.isTty
    let typedAhead ← if interactive then pure .empty else readAll input .empty
    let waiting := Console.linesOfInput typedAhead
    let mut terminal : Terminal := ⟨input, output, !interactive⟩
    let mut machine := { machine with console := { machine.console with waiting } }
    for statement in program do
      let (error, next, later) ← runStatement terminal statement machine 1024 0
      machine := next
      terminal := later
      if let some error := error then
        unless settings.quiet do IO.eprintln error.message
    return 0

end Scriptlet.CommandLine

open Scriptlet.CommandLine in
def main (words : List String) : IO UInt32 := do
  match Invocation.ofWords words with
  | .run settings =>
    let contents ← if settings.fromFile then
        try some <$> IO.FS.readBinFile settings.script catch _ => pure none
      else pure none
    match settings.source contents with
    | .ok source => runSource settings source
    | .error failure =>
      IO.eprintln failure
      return 1
  | other =>
    match other.perform 0 none .empty with
    | some report =>
      (← IO.getStdout).write report.output
      return report.code
    | none => return 1
