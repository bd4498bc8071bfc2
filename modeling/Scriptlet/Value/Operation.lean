import Scriptlet.EvalError
import Scriptlet.Value.Basic

/-! What the operators do to values. -/

namespace Scriptlet

/-! ## Which operators go together -/

/-- The rule by which an operator refuses operands. -/
inductive OperatorClass where
  | arithmetic | equality | ordering | connective
deriving DecidableEq, Repr, Inhabited

def BinaryOperator.class : BinaryOperator → OperatorClass
  | add | subtract | multiply | divide | power => .arithmetic
  | equal | notEqual => .equality
  | less | greater | lessEqual | greaterEqual => .ordering
  | and | or => .connective

/-- What an equality operator says of two values that are the same or not. -/
def BinaryOperator.judge? : BinaryOperator → Bool → Option Bool
  | equal, same => some same
  | notEqual, same => some !same
  | _, _ => none

namespace Value

def sameFamily (left right : Value) : Bool :=
  left.type == right.type || (left.type.isNumeric && right.type.isNumeric)

/-- Why an operator refuses two operands. -/
def refusal (operator : BinaryOperator) (left right : Value) : EvalError.Cause :=
  match operator.class with
  | .arithmetic =>
    if left.sameFamily right then .wrongTypes operator else .incompatibleTypes operator
  | .equality => .incompatibleTypes operator
  | .ordering => .expectedNumbers operator
  | .connective => .expectedBooleans operator

/-! ## Numbers -/

def fitted (result : Option Integer) : Except EvalError.Cause Value :=
  match result with
  | some value => .ok (.integer value)
  | none => .error .overflow

def combineIntegers (operator : BinaryOperator) (left right : Integer) :
    Except EvalError.Cause Value :=
  match operator with
  | .add => fitted (left.add? right)
  | .subtract => fitted (left.subtract? right)
  | .multiply => fitted (left.multiply? right)
  | .divide => if right = 0 then .error .divisionByZero else fitted (left.divide? right)
  | .power =>
    if left = 0 ∧ right < 0 then .error .divisionByZero else fitted (left.power? right)
  | .less => .ok (.boolean (left < right))
  | .greater => .ok (.boolean (right < left))
  | .lessEqual => .ok (.boolean (left ≤ right))
  | .greaterEqual => .ok (.boolean (right ≤ left))
  | .equal => .ok (.boolean (left = right))
  | .notEqual => .ok (.boolean (left ≠ right))
  | .and | .or => .error (.expectedBooleans operator)

/-- A quotient by zero is an error for decimals too, and so is a negative power of zero. -/
def combineDecimals (operator : BinaryOperator) (left right : Decimal) :
    Except EvalError.Cause Value :=
  match operator with
  | .add => .ok (.decimal (left + right))
  | .subtract => .ok (.decimal (left - right))
  | .multiply => .ok (.decimal (left * right))
  | .divide => if right == 0.0 then .error .divisionByZero else .ok (.decimal (left / right))
  | .power =>
    if left == 0.0 && right < 0.0 then .error .divisionByZero
    else .ok (.decimal (left.pow right))
  | .less => .ok (.boolean (left < right))
  | .greater => .ok (.boolean (left > right))
  | .lessEqual => .ok (.boolean (left ≤ right))
  | .greaterEqual => .ok (.boolean (left ≥ right))
  | .equal => .ok (.boolean (left == right))
  | .notEqual => .ok (.boolean (left != right))
  | .and | .or => .error (.expectedBooleans operator)

/-! ## All values -/

/-- Both operands of a connective count; neither is skipped. -/
def combineBooleans (operator : BinaryOperator) (left right : Bool) :
    Except EvalError.Cause Value :=
  match operator with
  | .and => .ok (.boolean (left && right))
  | .or => .ok (.boolean (left || right))
  | _ =>
    match operator.judge? (left == right) with
    | some verdict => .ok (.boolean verdict)
    | none => .error (refusal operator (.boolean left) (.boolean right))

/-- Applies a binary operator. Strings are joined into a string of their own, which may be new to
the symbol tables; nothing else changes them. -/
def combine (operator : BinaryOperator) (left right : Value) (symbols : Symbols) :
    Except EvalError.Cause Value × Symbols :=
  match left, right with
  | .string first, .string second =>
    match operator with
    | .add =>
      let (handle, symbols) :=
        symbols.enterString (symbols.stringAt first ++ symbols.stringAt second)
      (.ok (.string handle), symbols)
    | _ =>
      match operator.judge? (symbols.stringAt first == symbols.stringAt second) with
      | some verdict => (.ok (.boolean verdict), symbols)
      | none => (.error (refusal operator left right), symbols)
  | .boolean first, .boolean second => (combineBooleans operator first second, symbols)
  | _, _ =>
    match left.commonNumbers? right with
    | some (.integers first second) => (combineIntegers operator first second, symbols)
    | some (.decimals first second) => (combineDecimals operator first second, symbols)
    | none => (.error (refusal operator left right), symbols)

def transform (operator : UnaryOperator) (operand : Value) : Except EvalError.Cause Value :=
  match operator, operand with
  | .negate, .integer value => fitted value.negate?
  | .negate, .decimal value => .ok (.decimal (-value))
  | .not, .boolean value => .ok (.boolean !value)
  | _, _ => .error (.wrongOperand operator operand.type)

end Value

end Scriptlet
