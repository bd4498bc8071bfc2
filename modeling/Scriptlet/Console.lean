import Scriptlet.Text.Lines

/-! The console: lines that wait to be read, and what has been written. -/

namespace Scriptlet

/-- A waiting line keeps its ending; `none` is a line whose bytes are no text. A console with a
`capacity` takes that many more bytes and no others. -/
structure Console where
  waiting : List (Option String) := []
  written : ByteArray := .empty
  capacity : Option Nat := none
  flushFails : Bool := false

namespace Console

inductive Failure where
  | notText | full | flushFailed
deriving DecidableEq, Repr, Inhabited

def Failure.message : Failure → String
  | notText => "stream did not contain valid UTF-8"
  | full => "write limit reached"
  | flushFailed => "flush failed"

/-! ## Reading -/

/-- The lines of an input stream. Each is decoded on its own, so that bytes that are no text spoil
only their own line. -/
def linesOfInput (bytes : ByteArray) : List (Option String) :=
  (splitAfter (· == 10) bytes.toList).map fun line => String.fromUTF8? ⟨line.toArray⟩

/-- The characters without a final line feed, and then without a final carriage return. -/
def trimEnding (line : List Char) : List Char :=
  match line.reverse with
  | '\n' :: '\r' :: reversed => reversed.reverse
  | '\n' :: reversed => reversed.reverse
  | '\r' :: reversed => reversed.reverse
  | _ => line

/-- The next line without its ending. At the end of the input every line is empty. -/
def takeLine (console : Console) : Except Failure String × Console :=
  match console.waiting with
  | [] => (.ok "", console)
  | line :: later =>
    let console := { console with waiting := later }
    match line with
    | some text => (.ok (String.ofList (trimEnding text.toList)), console)
    | none => (.error .notText, console)

/-! ## Writing -/

/-- Writes a text, or as many of its bytes as there is room for. -/
def write (console : Console) (text : String) : Except Failure Unit × Console :=
  let bytes := text.toUTF8
  match console.capacity with
  | none => (.ok (), { console with written := console.written ++ bytes })
  | some room =>
    if bytes.size ≤ room then
      (.ok (), { console with
        written := console.written ++ bytes, capacity := some (room - bytes.size) })
    else
      (.error .full, { console with
        written := console.written ++ bytes.extract 0 room, capacity := some 0 })

def putLine (console : Console) (text : String) : Except Failure Unit × Console :=
  console.write (text ++ "\n")

def flush (console : Console) : Except Failure Unit :=
  if console.flushFails then .error .flushFailed else .ok ()

/-- Hands over what was written since the last time. -/
def takeWritten (console : Console) : ByteArray × Console :=
  (console.written, { console with written := .empty })

end Console

end Scriptlet
