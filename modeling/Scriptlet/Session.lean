import Scriptlet.Evaluation.Basic
import Scriptlet.Program

/-! Sessions: sources run one after the other on one machine.

A source is parsed as a whole before any of it runs, so a fault anywhere in it means that nothing
runs. The statements then run in order; one that fails does not keep the next from running. -/

namespace Scriptlet

inductive RunResult where
  | rejected (error : SourceError)
  | completed (errors : List EvalError)
  | outOfFuel
deriving DecidableEq, Repr, Inhabited

/-- The statements of a source, with their strings and names entered into the machine's tables. -/
def Machine.parse (limit : Nat) (source : String) (machine : Machine) :
    Except SourceError (List Tree) × Machine :=
  let (parsed, symbols) := (programOfSource limit source).run machine.symbols
  (parsed, { machine with symbols })

/-- What running a program consists of: its statements, and a flush of what they wrote. -/
def actions (fuel : Nat) (program : List Tree) : List (Evaluate Unit) :=
  program.map (fun statement => do let _ ← evaluate fuel statement) ++ [Evaluate.flush]

/-- Performs actions in order and collects the errors of those that fail. An action that is out of
fuel leaves the rest undone. -/
def performAll : List (Evaluate Unit) → Machine → RunResult × Machine
  | [], machine => (.completed [], machine)
  | action :: later, machine =>
    match action.run machine with
    | (.ok (), machine) => performAll later machine
    | (.error .outOfFuel, machine) => (.outOfFuel, machine)
    | (.error (.error error), machine) =>
      match performAll later machine with
      | (.completed errors, machine) => (.completed (error :: errors), machine)
      | stopped => stopped

/-- Parses and runs a source. -/
def Machine.run (fuel limit : Nat) (source : String) (machine : Machine) : RunResult × Machine :=
  match machine.parse limit source with
  | (.error error, machine) => (.rejected error, machine)
  | (.ok program, machine) => performAll (actions fuel program) machine

end Scriptlet
