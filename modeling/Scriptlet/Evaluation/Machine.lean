import Scriptlet.Console
import Scriptlet.EvalError
import Scriptlet.Evaluation.Environment
import Scriptlet.Value.Operation

/-! The machine that statements act on, and the single actions they are made of. -/

namespace Scriptlet

structure Machine where
  symbols : Symbols := {}
  environment : Environment := {}
  console : Console := {}

/-- Why an evaluation stops early: an error of the program, or the end of what its loops were
allowed. -/
inductive Stop where
  | error (error : EvalError)
  | outOfFuel
deriving DecidableEq, Repr, Inhabited

/-- What has been done to the machine before a stop stays done. -/
abbrev Evaluate := ExceptT Stop (StateM Machine)

namespace Evaluate

def fail (cause : EvalError.Cause) (position : Position) : Evaluate α :=
  throw (.error (.fault cause position))

/-- The result of an operation whose faults belong to the token at `position`. -/
def ofExcept (position : Position) : Except EvalError.Cause α → Evaluate α
  | .ok value => return value
  | .error cause => fail cause position

/-! ## Values -/

def enterString (text : String) : Evaluate Value :=
  modifyGet fun machine =>
    let (handle, symbols) := machine.symbols.enterString text
    (.string handle, { machine with symbols })

/-- The value of a variable that has not been looked up yet; any other value is left as it is. -/
def lookUp (value : Value) (position : Position) : Evaluate Value := do
  match value with
  | .identifier handle =>
    let machine ← get
    let name := machine.symbols.nameAt handle
    match machine.environment.get? name with
    | some bound => return bound
    | none => fail (.unboundIdentifier name) position
  | _ => return value

def combine (operator : BinaryOperator) (left right : Value) (position : Position) :
    Evaluate Value := do
  let outcome ← modifyGet fun machine =>
    let (outcome, symbols) := Value.combine operator left right machine.symbols
    (outcome, { machine with symbols })
  ofExcept position outcome

def transform (operator : UnaryOperator) (operand : Value) (position : Position) :
    Evaluate Value :=
  ofExcept position (Value.transform operator operand)

/-! ## Variables -/

/-- The name of a variable; `beside` is the token that needs one there. -/
def targetName (target : Value) (beside : Kind) (position : Position) : Evaluate String := do
  match target with
  | .identifier handle => return (← get).symbols.nameAt handle
  | _ => fail (.expectedIdentifier beside) position

def assign (name : String) (value : Value) : Evaluate Unit :=
  modify fun machine => { machine with environment := machine.environment.insert name value }

def forget (name : String) : Evaluate Unit :=
  modify fun machine => { machine with environment := machine.environment.erase name }

/-! ## The console -/

def onConsole (action : Console → Except Console.Failure α × Console) : Evaluate α := do
  let outcome ← modifyGet fun machine =>
    let (outcome, console) := action machine.console
    (outcome, { machine with console })
  match outcome with
  | .ok value => return value
  | .error failure => throw (.error (.console failure))

/-- Writes the text of a value as one line. -/
def printLine (value : Value) : Evaluate Unit := do
  let symbols := (← get).symbols
  onConsole (·.putLine (value.text symbols))

def flush : Evaluate Unit :=
  onConsole fun console => (console.flush, console)

/-- The next line of the input, as a string value. -/
def inputLine : Evaluate Value := do
  let line ← onConsole Console.takeLine
  enterString line

end Evaluate

end Scriptlet
