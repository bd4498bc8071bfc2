/-! The decimal that names a binary fraction with the fewest digits.

A positive binary number stands for every real that rounds to it: an interval around the number,
which includes its ends just when the significand is even. The decimals on the grid of multiples of
a power of ten are tried from the coarsest grid on, and the first grid with a point in the interval
gives the fewest digits. If two of its points qualify, the nearer one is taken, and of two equally
near ones the larger. All of it is exact arithmetic on natural numbers. -/

namespace Scriptlet

/-- A positive number `significand * 2 ^ exponent`; `evenBelow` says that its neighbour below is as
far away as its neighbour above. -/
structure BinaryNumber where
  significand : Nat
  exponent : Int
  evenBelow : Bool
deriving DecidableEq, Repr, Inhabited

/-- A number `digits * 10 ^ exponent`. -/
structure DecimalNumber where
  digits : Nat
  exponent : Int
deriving DecidableEq, Repr, Inhabited

namespace BinaryNumber

/-- The leading bit of a normal significand, which is not stored. -/
def hiddenBit : Nat := 0x10000000000000

/-- The finite number with the given bits, its sign aside; zero has no such form. -/
def ofBits? (bits : UInt64) : Option BinaryNumber :=
  let fraction := bits.toNat % hiddenBit
  let field := bits.toNat / hiddenBit % 0x800
  if field = 0 then
    if fraction = 0 then none else some ⟨fraction, -1074, true⟩
  else some ⟨fraction + hiddenBit, Int.subNatNat field 1075, fraction != 0 || field == 1⟩

/-- Numbers over one denominator: the ends of the interval and the number between them. -/
structure Interval where
  low : Nat
  middle : Nat
  high : Nat
  denominator : Nat
  closed : Bool
deriving DecidableEq, Repr, Inhabited

/-- The reals that round to the number. The ends lie halfway to its neighbours; quarters of its last
place make them whole. -/
def interval (number : BinaryNumber) : Interval :=
  let scale := Nat.pow 2 (number.exponent - 2).toNat
  let quarters := number.significand * 4
  { low := (quarters - if number.evenBelow then 2 else 1) * scale
    middle := quarters * scale
    high := (quarters + 2) * scale
    denominator := Nat.pow 2 (2 - number.exponent).toNat
    closed := number.significand % 2 == 0 }

/-- The point of the grid of multiples of `10 ^ exponent` that stands for the interval, counted in
steps of the grid. -/
def Interval.gridPoint? (interval : Interval) (exponent : Int) : Option Nat :=
  let step := interval.denominator * Nat.pow 10 exponent.toNat
  let scale := Nat.pow 10 (-exponent).toNat
  let low := interval.low * scale
  let middle := interval.middle * scale
  let high := interval.high * scale
  let below := middle / step
  let fitsBelow :=
    if interval.closed then low ≤ below * step else low < below * step
  let fitsAbove :=
    if interval.closed then (below + 1) * step ≤ high else (below + 1) * step < high
  if fitsBelow then
    if fitsAbove ∧ (below + 1) * step - middle ≤ middle - below * step then some (below + 1)
    else some below
  else if fitsAbove then some (below + 1)
  else none

/-- The exponent of the least power of ten above the number. -/
def Interval.magnitude (interval : Interval) : Int :=
  if interval.denominator ≤ interval.middle then
    (Nat.toDigits 10 (interval.middle / interval.denominator)).length
  else 1 - (Nat.toDigits 10 (interval.denominator / interval.middle)).length

/-- The shortest decimal. Eighteen grids are enough: one step may lie above the number, and
seventeen digits tell any two numbers apart. -/
def shortest (number : BinaryNumber) : DecimalNumber :=
  let interval := number.interval
  let top := interval.magnitude
  let tried := (List.range 18).findSome? fun (finer : Nat) =>
    let exponent := top - finer
    (interval.gridPoint? exponent).map (DecimalNumber.mk · exponent)
  tried.getD ⟨0, 0⟩

end BinaryNumber

end Scriptlet
