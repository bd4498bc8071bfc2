import Scriptlet.Number.Shortest

/-! Decimals are double-precision binary numbers. They are written without an exponent, with the
fewest digits that read back to the same number, and read as the number nearest to the text. -/

namespace Scriptlet

abbrev Decimal := Float

namespace Decimal

/-! ## Writing -/

def zeros (count : Nat) : List Char :=
  List.replicate count '0'

/-- Digits with the point put in its place; a whole number has none. -/
def layOut (number : DecimalNumber) : List Char :=
  let digits := Nat.toDigits 10 number.digits
  if 0 ≤ number.exponent then digits ++ zeros number.exponent.toNat
  else
    let places := (-number.exponent).toNat
    if places < digits.length then
      let whole := digits.length - places
      digits.take whole ++ '.' :: digits.drop whole
    else '0' :: '.' :: zeros (places - digits.length) ++ digits

/-- The text of a number; one that is no number has no sign. -/
def text (decimal : Decimal) : String :=
  if decimal.isNaN then "NaN"
  else
    let bits := decimal.toBits
    let magnitude :=
      if decimal.isInf then "inf"
      else
        match BinaryNumber.ofBits? bits with
        | some number => String.ofList (layOut number.shortest)
        | none => "0"
    if bits < 0x8000000000000000 then magnitude else "-" ++ magnitude

/-! ## Reading -/

inductive Fault where
  | empty | invalid
deriving DecidableEq, Repr, Inhabited

def Fault.message : Fault → String
  | empty => "cannot parse float from empty string"
  | invalid => "invalid float literal"

def infinity : Decimal := 1.0 / 0.0

def notANumber : Decimal := 0.0 / 0.0

/-- The nearest double to a decimal number. Numbers far out of range are settled by their size, so
that no exponent costs more than it is worth. -/
def nearest (number : DecimalNumber) : Decimal :=
  let size : Int := (Nat.toDigits 10 number.digits).length + number.exponent
  if number.digits = 0 ∨ size < -330 then 0.0
  else if 310 < size then infinity
  else Float.ofScientific number.digits (number.exponent < 0) number.exponent.natAbs

def valueOf (digits : List Char) : Nat :=
  digits.foldl (fun total digit => total * 10 + (digit.toNat - '0'.toNat)) 0

/-- An exponent part, which may be missing: a mark, an optional sign, and at least one digit. -/
def readExponent : List Char → Option Int
  | [] => some 0
  | mark :: later =>
    if mark = 'e' ∨ mark = 'E' then
      let digits := match later with
        | '+' :: digits | '-' :: digits => digits
        | digits => digits
      if digits.isEmpty ∨ !digits.all Char.isDigit then none
      else some (if later.head? = some '-' then -valueOf digits else valueOf digits)
    else none

/-- Digits around an optional point, at least one in all, then an exponent part. -/
def readNumber (characters : List Char) : Option DecimalNumber :=
  let whole := characters.takeWhile Char.isDigit
  let later := characters.dropWhile Char.isDigit
  let (fraction, later) := match later with
    | '.' :: later => (later.takeWhile Char.isDigit, later.dropWhile Char.isDigit)
    | later => ([], later)
  if whole.isEmpty ∧ fraction.isEmpty then none
  else (readExponent later).map fun exponent =>
    ⟨valueOf (whole ++ fraction), exponent - fraction.length⟩

/-- A number without its sign, or one of the words for what is no number. -/
def readMagnitude (characters : List Char) : Option Decimal :=
  let word := String.ofList (characters.map Char.toLower)
  if word = "inf" ∨ word = "infinity" then some infinity
  else if word = "nan" then some notANumber
  else (readNumber characters).map nearest

def read (text : String) : Except Fault Decimal :=
  match text.toList with
  | [] => .error .empty
  | '-' :: later => ((readMagnitude later).map (-·)).elim (.error .invalid) .ok
  | '+' :: later => (readMagnitude later).elim (.error .invalid) .ok
  | characters => (readMagnitude characters).elim (.error .invalid) .ok

end Decimal

end Scriptlet
