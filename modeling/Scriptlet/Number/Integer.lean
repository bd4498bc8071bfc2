/-! Integers are 64-bit words. Arithmetic on them is carried out on unbounded integers and fails if
the result does not fit. -/

namespace Scriptlet

abbrev Integer := Int64

namespace Integer

def least : Int := -9223372036854775808

def greatest : Int := 9223372036854775807

/-- The word that holds a number, if there is one. -/
def ofInt? (value : Int) : Option Integer :=
  if least ≤ value ∧ value ≤ greatest then some (Int64.ofInt value) else none

/-- The 32-bit word that holds the same number, if there is one. -/
def narrow? (integer : Integer) : Option UInt32 :=
  if 0 ≤ integer.toInt ∧ integer.toInt < 4294967296 then some (UInt32.ofNat integer.toInt.toNat)
  else none

def text (integer : Integer) : String :=
  toString integer.toInt

/-! ## Reading

The digits are read from the left, and the first digit at which reading cannot go on decides the
fault: a character that is no digit, or a value that has grown out of range. -/

inductive Fault where
  | empty | invalidDigit | tooLarge | tooSmall
deriving DecidableEq, Repr, Inhabited

def Fault.message : Fault → String
  | empty => "cannot parse integer from empty string"
  | invalidDigit => "invalid digit found in string"
  | tooLarge => "number too large to fit in target type"
  | tooSmall => "number too small to fit in target type"

def digit? (character : Char) : Option Nat :=
  if character.isDigit then some (character.toNat - '0'.toNat) else none

/-- Continues the number `total` by further digits, away from zero on the side of the sign. -/
def readDigits (sign : Int) (total : Int) : List Char → Except Fault Int
  | [] => .ok total
  | character :: later =>
    match digit? character with
    | none => .error .invalidDigit
    | some digit =>
      let extended := total * 10 + sign * digit
      if extended < least then .error .tooSmall
      else if greatest < extended then .error .tooLarge
      else readDigits sign extended later

/-- A sign is optional, at least one digit is not. -/
def read (text : String) : Except Fault Integer :=
  match text.toList with
  | [] => .error .empty
  | ['+'] | ['-'] => .error .invalidDigit
  | '+' :: digits => (readDigits 1 0 digits).map Int64.ofInt
  | '-' :: digits => (readDigits (-1) 0 digits).map Int64.ofInt
  | digits => (readDigits 1 0 digits).map Int64.ofInt

/-! ## Arithmetic -/

def add? (left right : Integer) : Option Integer :=
  ofInt? (left.toInt + right.toInt)

def subtract? (left right : Integer) : Option Integer :=
  ofInt? (left.toInt - right.toInt)

def multiply? (left right : Integer) : Option Integer :=
  ofInt? (left.toInt * right.toInt)

/-- The quotient rounded toward zero, for a divisor other than zero. -/
def divide? (left right : Integer) : Option Integer :=
  ofInt? (left.toInt.tdiv right.toInt)

def negate? (integer : Integer) : Option Integer :=
  ofInt? (-integer.toInt)

/-- The power rounded toward zero, for a base and exponent that do not divide by zero. A base beyond
one in size has a power of size less than one for a negative exponent, and none that fits for an
exponent of 64 or more. -/
def power? (base exponent : Integer) : Option Integer :=
  if base = 0 then some (if exponent = 0 then 1 else 0)
  else if base = 1 then some 1
  else if base = -1 then some (if exponent.toInt % 2 = 0 then 1 else -1)
  else if exponent < 0 then some 0
  else
    match narrow? exponent with
    | some count => if count < 64 then ofInt? (base.toInt.pow count.toNat) else none
    | none => none

end Integer

end Scriptlet
