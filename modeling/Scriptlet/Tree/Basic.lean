import Scriptlet.Operator.Basic
import Scriptlet.Position
import Scriptlet.Symbols

/-! Statement trees. Expressions and statements are one type: a statement may stand wherever an
expression may, and it is evaluation that tells whether a node yields a value. -/

namespace Scriptlet

/-- Each node carries the place of the token it came from. Numbers keep their text, which is read
when they are evaluated. -/
inductive Tree where
  | integer (text : String) (position : Position)
  | decimal (text : String) (position : Position)
  | string (handle : StringHandle) (position : Position)
  | boolean (value : Bool) (position : Position)
  | identifier (handle : NameHandle) (position : Position)
  | binary (operator : BinaryOperator) (left right : Tree) (position : Position)
  | unary (operator : UnaryOperator) (operand : Tree) (position : Position)
  | assign (target value : Tree) (position : Position)
  | command (command : Command) (operand : Tree) (position : Position)
  | control (control : Control) (condition : Tree) (body : List Tree) (position : Position)
deriving Repr, Inhabited

def Tree.position : Tree → Position
  | integer _ position | decimal _ position | string _ position | boolean _ position
  | identifier _ position | binary _ _ _ position | unary _ _ position | assign _ _ position
  | command _ _ position | control _ _ _ position => position

end Scriptlet
