/-! The operators and keywords of the language, and how each is spelled. -/

namespace Scriptlet

/-- An operator between two operands that yields a value. -/
inductive BinaryOperator where
  | add | subtract | multiply | divide | power
  | less | greater | lessEqual | greaterEqual | equal | notEqual
  | and | or
deriving DecidableEq, Repr, Inhabited

/-- An operator in front of one operand that yields a value. -/
inductive UnaryOperator where
  | negate | not
deriving DecidableEq, Repr, Inhabited

/-- A keyword in front of one operand that acts on the outside world or on the variables. -/
inductive Command where
  | print | input | delete
deriving DecidableEq, Repr, Inhabited

/-- A keyword that governs a block: a `conditional` runs it at most once, a `loop` as long as its
condition holds. -/
inductive Control where
  | conditional | loop
deriving DecidableEq, Repr, Inhabited

def BinaryOperator.symbol : BinaryOperator → String
  | .add => "+"
  | .subtract => "-"
  | .multiply => "*"
  | .divide => "/"
  | .power => "^"
  | .less => "<"
  | .greater => ">"
  | .lessEqual => "<="
  | .greaterEqual => ">="
  | .equal => "="
  | .notEqual => "!="
  | .and => "&"
  | .or => "|"

def UnaryOperator.symbol : UnaryOperator → String
  | .negate => "-"
  | .not => "!"

def Command.keyword : Command → String
  | .print => "print"
  | .input => "input"
  | .delete => "del"

def Control.keyword : Control → String
  | .conditional => "if"
  | .loop => "while"

end Scriptlet
