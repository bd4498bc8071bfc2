import Scriptlet.Session

/-! The command line: what its words ask for, and what comes of it. -/

namespace Scriptlet

namespace CommandLine

/-- `script` is the source itself, or the path of a file that holds it. -/
structure Settings where
  script : String
  fromFile : Bool
  quiet : Bool
  depthLimit : Nat
deriving DecidableEq, Repr, Inhabited

inductive Invocation where
  | run (settings : Settings)
  | version
  | help
  | misuse
deriving DecidableEq, Repr, Inhabited

def defaultDepthLimit : Nat := 256

/-! ## Words

Words are taken in order, and the first one that settles the outcome ends the reading: a fault, or a
request for the version or for help. No option may be given twice. -/

/-- What the words have said so far. -/
structure Draft where
  script : Option String := none
  fromFile : Bool := false
  quiet : Bool := false
  depthLimit : Option Nat := none
deriving DecidableEq, Repr, Inhabited

namespace Draft

def takeScript (draft : Draft) (script : String) : Except Invocation Draft :=
  if draft.script.isSome then .error .misuse else .ok { draft with script := some script }

def takeScripts (draft : Draft) (words : List String) : Except Invocation Draft :=
  words.foldlM takeScript draft

/-- An option without a value, by its one-letter name. -/
def takeFlag (draft : Draft) (flag : Char) : Except Invocation Draft :=
  match flag with
  | 'f' => if draft.fromFile then .error .misuse else .ok { draft with fromFile := true }
  | 'q' => if draft.quiet then .error .misuse else .ok { draft with quiet := true }
  | 'V' => .error .version
  | 'h' => .error .help
  | _ => .error .misuse

/-- A number that a 64-bit word holds; a plus sign may precede it. -/
def readLimit (text : String) : Option Nat :=
  let digits := match text.toList with
    | '+' :: digits => digits
    | digits => digits
  if digits.isEmpty ∨ !digits.all Char.isDigit then none
  else
    let value := Decimal.valueOf digits
    if value < UInt64.size then some value else none

def takeLimit (draft : Draft) (text : String) : Except Invocation Draft :=
  match draft.depthLimit, readLimit text with
  | none, some limit => .ok { draft with depthLimit := some limit }
  | _, _ => .error .misuse

def finish (draft : Draft) : Invocation :=
  match draft.script with
  | some script =>
    .run ⟨script, draft.fromFile, draft.quiet, draft.depthLimit.getD defaultDepthLimit⟩
  | none => .misuse

end Draft

/-- The one-letter name of an option that has a long one. -/
def flagOfName? : String → Option Char
  | "file" => some 'f'
  | "quiet" => some 'q'
  | "version" => some 'V'
  | "help" => some 'h'
  | _ => none

/-- A word that stands for itself: a group of one-letter options, a long option, or the script. -/
def takeWord (draft : Draft) (word : String) : Except Invocation Draft :=
  match word.toList with
  | '-' :: '-' :: name =>
    match name.dropWhile (· != '=') with
    | [] =>
      match flagOfName? (String.ofList name) with
      | some flag => draft.takeFlag flag
      | none => .error .misuse
    | _ :: value =>
      if name.takeWhile (· != '=') = "max-depth".toList then draft.takeLimit (String.ofList value)
      else .error .misuse
  | '-' :: flag :: flags => (flag :: flags).foldlM Draft.takeFlag draft
  | _ => draft.takeScript word

/-- After two dashes every word is a script. -/
def takeWords : Draft → List String → Except Invocation Draft
  | draft, [] => .ok draft
  | draft, "--" :: words => draft.takeScripts words
  | _, ["--max-depth"] => .error .misuse
  | draft, "--max-depth" :: limit :: words => do takeWords (← draft.takeLimit limit) words
  | draft, word :: words => do takeWords (← takeWord draft word) words

def Invocation.ofWords (words : List String) : Invocation :=
  match takeWords {} words with
  | .ok draft => draft.finish
  | .error invocation => invocation

/-! ## Outcomes -/

def versionText : String := "linescript 0.1.0\n"

def helpText : String :=
  "Usage: linescript [OPTIONS] <CONTENTS>\n\n" ++
  "Options:\n" ++
  "  -f, --file                   Read the script from a file\n" ++
  "      --max-depth <MAX_DEPTH>  Deepest expression or block nesting accepted\n" ++
  "  -q, --quiet                  Do not report failing statements\n" ++
  "  -h, --help                   Print help\n" ++
  "  -V, --version                Print version\n"

/-- The source to run; `contents` are the bytes of the file, if it could be read. -/
def Settings.source (settings : Settings) (contents : Option ByteArray) : Except String String :=
  if settings.fromFile then
    match contents.bind String.fromUTF8? with
    | some source => .ok source
    | none =>
      .error (s!"Failed to read the input file '{settings.script}'. " ++
        "Perhaps this file does not exist?")
  else .ok settings.script

/-- What a program leaves behind: its exit code, and what it wrote as output and as diagnostics. -/
structure Report where
  code : UInt32
  output : ByteArray := .empty
  diagnostics : List String := []

/-- Runs a source to its end; `none` if `fuel` is not enough for its loops. -/
def Settings.run (settings : Settings) (fuel : Nat) (source : String) (input : ByteArray) :
    Option Report :=
  let machine : Machine := { console := { waiting := Console.linesOfInput input } }
  match machine.run fuel settings.depthLimit source with
  | (.rejected error, _) => some { code := 1, diagnostics := [error.message] }
  | (.completed errors, machine) =>
    some { code := 0
           output := machine.console.written
           diagnostics := if settings.quiet then [] else errors.map EvalError.message }
  | (.outOfFuel, _) => none

/-- Carries out an invocation; `contents` are the bytes of the script's file, if it could be
read. -/
def Invocation.perform (invocation : Invocation) (fuel : Nat) (contents : Option ByteArray)
    (input : ByteArray) : Option Report :=
  match invocation with
  | .version => some { code := 0, output := versionText.toUTF8 }
  | .help => some { code := 0, output := helpText.toUTF8 }
  | .misuse => some { code := 2 }
  | .run settings =>
    match settings.source contents with
    | .ok source => settings.run fuel source input
    | .error failure => some { code := 1, diagnostics := [failure] }

end CommandLine

end Scriptlet
