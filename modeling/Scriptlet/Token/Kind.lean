import Scriptlet.Operator.Basic

/-! The kinds of token, and the classes of kinds by which statements are told apart. -/

namespace Scriptlet

inductive Kind where
  | endOfInput
  | terminator
  | blank
  | identifier
  | string
  | integer
  | decimal
  | boolean
  | binary (operator : BinaryOperator)
  | unary (operator : UnaryOperator)
  | assign
  | command (command : Command)
  | control (control : Control)
  | openParen
  | closeParen
  | openBlock
  | closeBlock
deriving DecidableEq, Repr, Inhabited

namespace Kind

/-- What a reader calls a token of this kind. -/
def label : Kind → String
  | endOfInput => "end of input"
  | terminator => "end of statement"
  | blank => "whitespace"
  | identifier => "identifier"
  | string => "string"
  | integer => "integer"
  | decimal => "decimal"
  | boolean => "bool"
  | binary operator => operator.symbol
  | unary operator => operator.symbol
  | assign => ":="
  | command keyword => keyword.keyword
  | control keyword => keyword.keyword
  | openParen => "("
  | closeParen => ")"
  | openBlock => "\x7b"
  | closeBlock => "\x7d"

/-! Literals and names stand for themselves. -/

def isOperand : Kind → Bool
  | identifier | string | integer | decimal | boolean => true
  | _ => false

/-! A block delimiter counts as an operator: a sign that follows one has nothing on its left. -/

def isOperator : Kind → Bool
  | binary _ | unary _ | assign | command _ | openBlock | closeBlock => true
  | _ => false

def isControl : Kind → Bool
  | control _ => true
  | _ => false

/-- Whether a complete operand may end with a token of this kind. -/
def closesOperand (kind : Kind) : Bool :=
  kind.isOperand || kind == closeParen

/-- Whether a token of this kind may begin a statement. A sign may not: after a complete operand it
continues the expression. -/
def opensStatement : Kind → Bool
  | openParen | unary .not | command _ | control _ => true
  | kind => kind.isOperand

/-! The value operators by their arity. -/

def binaryOperator? : Kind → Option BinaryOperator
  | binary operator => some operator
  | _ => none

def unaryOperator? : Kind → Option UnaryOperator
  | unary operator => some operator
  | _ => none

end Kind

end Scriptlet
