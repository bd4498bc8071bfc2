import Scriptlet.Number.Decimal
import Scriptlet.Number.Integer
import Scriptlet.Symbols

/-! Values. Strings and names are carried as places in the symbol tables. -/

namespace Scriptlet

/-- An `identifier` is a variable that has not been looked up yet: an assignment needs the variable
itself, everything else its value. -/
inductive Value where
  | integer (value : Integer)
  | decimal (value : Decimal)
  | string (handle : StringHandle)
  | boolean (value : Bool)
  | identifier (handle : NameHandle)
deriving BEq, Inhabited

inductive ValueType where
  | integer | decimal | string | boolean | identifier
deriving DecidableEq, Repr, Inhabited

def ValueType.name : ValueType → String
  | integer => "Integer"
  | decimal => "Decimal"
  | string => "String"
  | boolean => "Bool"
  | identifier => "Identifier"

/-- Integers and decimals are one family: they mix in arithmetic and in comparisons. -/
def ValueType.isNumeric : ValueType → Bool
  | integer | decimal => true
  | _ => false

/-- Two numbers brought to a common type. -/
inductive Numbers where
  | integers (left right : Integer)
  | decimals (left right : Decimal)

namespace Value

def type : Value → ValueType
  | integer _ => .integer
  | decimal _ => .decimal
  | string _ => .string
  | boolean _ => .boolean
  | identifier _ => .identifier

/-- A number as a decimal; an integer beyond the precision of a decimal is rounded. -/
def toDecimal? : Value → Option Decimal
  | integer value => some value.toFloat
  | decimal value => some value
  | _ => none

/-- Two integers stay integers; any other two numbers become decimals. -/
def commonNumbers? : Value → Value → Option Numbers
  | integer left, integer right => some (.integers left right)
  | left, right => do return .decimals (← left.toDecimal?) (← right.toDecimal?)

/-- The text that `print` writes. -/
def text (symbols : Symbols) : Value → String
  | integer value => value.text
  | decimal value => value.text
  | string handle => symbols.stringAt handle
  | boolean true => "True"
  | boolean false => "False"
  | identifier handle => symbols.nameAt handle

end Value

end Scriptlet
