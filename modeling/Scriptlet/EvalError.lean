import Scriptlet.Console
import Scriptlet.Token.Kind
import Scriptlet.Position
import Scriptlet.Value.Basic

/-! What can go wrong while a statement is evaluated. -/

namespace Scriptlet

/-- Why the text of a number cannot be read. -/
inductive LiteralFault where
  | integer (fault : Integer.Fault)
  | decimal (fault : Decimal.Fault)
deriving DecidableEq, Repr, Inhabited

def LiteralFault.message : LiteralFault → String
  | integer fault => fault.message
  | decimal fault => fault.message

/-- `expectedIdentifier` names the token next to which a variable must stand. -/
inductive EvalError.Cause where
  | incompatibleTypes (operator : BinaryOperator)
  | wrongTypes (operator : BinaryOperator)
  | expectedBooleans (operator : BinaryOperator)
  | expectedCondition (control : Control)
  | expectedNumbers (operator : BinaryOperator)
  | wrongOperand (operator : UnaryOperator) (found : ValueType)
  | unboundIdentifier (name : String)
  | expectedIdentifier (beside : Kind)
  | invalidLiteral (text : String) (fault : LiteralFault)
  | missingValue
  | divisionByZero
  | overflow
deriving DecidableEq, Repr, Inhabited

/-- A failure of the console has no place in the source. -/
inductive EvalError where
  | fault (cause : EvalError.Cause) (position : Position)
  | console (failure : Console.Failure)
deriving DecidableEq, Repr, Inhabited

/-- What a unary operator accepts. -/
def UnaryOperator.expects : UnaryOperator → String
  | negate => "a number"
  | not => "Bool"

namespace EvalError

/-- The name under which a cause is reported. -/
def Cause.label : Cause → String
  | incompatibleTypes _ => "IncompatibleType"
  | wrongTypes _ => "WrongTypeUsedWithBinOp"
  | expectedBooleans _ => "ExpectedBool"
  | expectedCondition _ => "ExpectedBoolWithControl"
  | expectedNumbers _ => "MustBeNumWithComparisonOp"
  | wrongOperand _ _ => "UnaryTypeMismatch"
  | unboundIdentifier _ => "NoIdentifierAvailable"
  | expectedIdentifier _ => "ExpectedIdentifier"
  | invalidLiteral _ _ => "InvalidLiteral"
  | missingValue => "MissingValue"
  | divisionByZero => "DivisionByZero"
  | overflow => "Overflow"

def Cause.explain : Cause → String
  | incompatibleTypes operator => s!"Incompatible types on each side of '{operator.symbol}'."
  | wrongTypes operator => s!"Wrong types used with '{operator.symbol}'."
  | expectedBooleans operator => s!"Expected Bool on either side of '{operator.symbol}'."
  | expectedCondition control => s!"Expected Bool condition after '{control.keyword}'."
  | expectedNumbers operator => s!"Must use numbers on either side of '{operator.symbol}'."
  | wrongOperand operator found =>
    s!"Expected {operator.expects} with unary '{operator.symbol}', found {found.name}."
  | unboundIdentifier name => s!"Cannot find identifier \"{name}\"."
  | expectedIdentifier beside => s!"Expected identifier next to '{beside.label}'."
  | invalidLiteral text reason => s!"Cannot read '{text}' as a number: {reason.message}."
  | missingValue => "Expression does not produce a value."
  | divisionByZero => "Division by zero."
  | overflow => "Integer overflow while trying to compute result."

def label : EvalError → String
  | fault cause _ => cause.label
  | console _ => "Io"

/-- The line by which an error is reported. -/
def message : EvalError → String
  | fault cause position => s!"Error at {position.describe}: {cause.label}: {cause.explain}"
  | console failure => s!"Error: Io: {failure.message}"

end EvalError

end Scriptlet
