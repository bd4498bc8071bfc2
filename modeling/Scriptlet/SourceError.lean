import Scriptlet.Position

/-! What can be wrong with a source text. Every fault has a cause and a place. -/

namespace Scriptlet

inductive SourceError.Cause where
  | invalidCharacter (character : Char)
  | unterminatedString
  | unmatchedParen
  | unclosedParen
  | missingOperand (operator : String)
  | danglingOperand
  | unexpectedToken (text : String)
  | missingBlock (keyword : String)
  | unclosedBlock
  | invalidCondition (keyword : String)
  | nestingTooDeep (limit : Nat)
deriving DecidableEq, Repr, Inhabited

structure SourceError where
  cause : SourceError.Cause
  position : Position
deriving DecidableEq, Repr, Inhabited

namespace SourceError

/-- The name under which a cause is reported. -/
def Cause.label : Cause → String
  | invalidCharacter _ => "InvalidCharacter"
  | unterminatedString => "UnterminatedString"
  | unmatchedParen => "UnmatchedParen"
  | unclosedParen => "UnclosedParen"
  | missingOperand _ => "MissingOperand"
  | danglingOperand => "DanglingOperand"
  | unexpectedToken _ => "UnexpectedToken"
  | missingBlock _ => "MissingBlock"
  | unclosedBlock => "UnclosedBlock"
  | invalidCondition _ => "InvalidCondition"
  | nestingTooDeep _ => "NestingTooDeep"

def Cause.explain : Cause → String
  | invalidCharacter character => s!"'{character}' is not valid here."
  | unterminatedString => "There is no closing '\"' on string."
  | unmatchedParen => "Found ')' without a matching '('."
  | unclosedParen => "Expected closing parenthesis ')' but none found."
  | missingOperand operator => s!"Operator '{operator}' is missing an operand."
  | danglingOperand => "Extra expression in statement."
  | unexpectedToken text => s!"Unexpected token '{text}'."
  | missingBlock keyword => s!"Expected '\x7b' after '{keyword}' condition."
  | unclosedBlock => "Expected '\x7d' to close this block."
  | invalidCondition keyword => s!"'{keyword}' needs exactly one condition expression."
  | nestingTooDeep limit => s!"Nesting exceeds the limit of {limit}."

/-- The line by which an error is reported. -/
def message (error : SourceError) : String :=
  s!"Error at {error.position.describe}: {error.cause.label}: {error.cause.explain}"

end SourceError

end Scriptlet
