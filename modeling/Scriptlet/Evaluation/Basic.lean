import Scriptlet.Evaluation.Machine
import Scriptlet.Tree.Basic

/-! Evaluation of trees.

Operands are evaluated from left to right. A tree that acts without yielding a value may stand where
a value is needed; it acts, and then the missing value is an error. Loops are the only trees whose
evaluation may go on for ever, so they alone are limited, by `fuel`: an evaluation that is not out
of fuel does not depend on how much it was given. -/

namespace Scriptlet

namespace Evaluate

/-- The value that a step must yield; `position` is the place of the tree it evaluates. -/
def required (position : Position) (step : Evaluate (Option Value)) : Evaluate Value := do
  match ← step with
  | some value => return value
  | none => fail .missingValue position

/-- The value that a step must yield, looked up if it is a variable. -/
def operand (position : Position) (step : Evaluate (Option Value)) : Evaluate Value := do
  let value ← required position step
  lookUp value position

/-- The truth value that a condition must have; `keyword` is the place of the keyword it belongs
to. -/
def truth (control : Control) (keyword : Position) (value : Value) : Evaluate Bool :=
  match value with
  | .boolean holds => return holds
  | _ => fail (.expectedCondition control) keyword

/-- The truth value of a condition. -/
def condition (control : Control) (keyword position : Position)
    (step : Evaluate (Option Value)) : Evaluate Bool := do
  truth control keyword (← operand position step)

/-- Repeats a body as long as a condition holds; the condition is tested at most `fuel` times. -/
def loop (holds : Evaluate Bool) (body : Evaluate Unit) :
    Nat → Machine → Except Stop Unit × Machine
  | 0, machine => (.error .outOfFuel, machine)
  | fuel + 1, machine =>
    match holds.run machine with
    | (.error stop, machine) => (.error stop, machine)
    | (.ok false, machine) => (.ok (), machine)
    | (.ok true, machine) =>
      match body.run machine with
      | (.error stop, machine) => (.error stop, machine)
      | (.ok (), machine) => loop holds body fuel machine

/-- What a command does to its operand, which has not been looked up yet. -/
def command (command : Command) (operandPosition position : Position)
    (step : Evaluate (Option Value)) : Evaluate (Option Value) :=
  match command with
  | .print => do
    printLine (← operand operandPosition step)
    return none
  | .input => do
    printLine (← operand operandPosition step)
    flush
    return some (← inputLine)
  | .delete => do
    let target ← required operandPosition step
    forget (← targetName target (.command .delete) position)
    return none

end Evaluate

mutual

/-- Evaluates a tree; every run of a loop in it may test its condition `fuel` times. -/
def evaluate (fuel : Nat) : Tree → Evaluate (Option Value)
  | .integer text position => do
    let value ← Evaluate.ofExcept position
      ((Integer.read text).mapError fun fault => .invalidLiteral text (.integer fault))
    return some (.integer value)
  | .decimal text position => do
    let value ← Evaluate.ofExcept position
      ((Decimal.read text).mapError fun fault => .invalidLiteral text (.decimal fault))
    return some (.decimal value)
  | .string handle _ => return some (.string handle)
  | .boolean value _ => return some (.boolean value)
  | .identifier handle _ => return some (.identifier handle)
  | .binary operator left right position => do
    let first ← Evaluate.operand left.position (evaluate fuel left)
    let second ← Evaluate.operand right.position (evaluate fuel right)
    return some (← Evaluate.combine operator first second position)
  | .unary operator operand position => do
    let value ← Evaluate.operand operand.position (evaluate fuel operand)
    return some (← Evaluate.transform operator value position)
  | .assign target value position => do
    let slot ← Evaluate.required target.position (evaluate fuel target)
    let bound ← Evaluate.operand value.position (evaluate fuel value)
    Evaluate.assign (← Evaluate.targetName slot .assign position) bound
    return none
  | .command command operand position =>
    Evaluate.command command operand.position position (evaluate fuel operand)
  | .control .conditional condition body position => do
    let holds ←
      Evaluate.condition .conditional position condition.position (evaluate fuel condition)
    if holds then evaluateAll fuel body
    return none
  | .control .loop condition body position => do
    Evaluate.loop
      (Evaluate.condition .loop position condition.position (evaluate fuel condition))
      (evaluateAll fuel body) fuel
    return none

/-- Evaluates statements in order, up to the first that stops. -/
def evaluateAll (fuel : Nat) : List Tree → Evaluate Unit
  | [] => return ()
  | statement :: later => do
    let _ ← evaluate fuel statement
    evaluateAll fuel later

end

/-- Evaluates a tree that must yield a value. -/
def evaluateToValue (fuel : Nat) (tree : Tree) : Evaluate Value :=
  Evaluate.required tree.position (evaluate fuel tree)

/-- Evaluates a tree that must yield a value, and looks it up if it is a variable. -/
def evaluateToOperand (fuel : Nat) (tree : Tree) : Evaluate Value :=
  Evaluate.operand tree.position (evaluate fuel tree)

end Scriptlet
