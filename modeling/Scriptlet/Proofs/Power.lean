import Scriptlet.Value.Operation
import Mathlib

/-! Powers of integers are exact: the power as a rational number, rounded toward zero, if a word holds
it, whatever the size of the base and of the exponent. -/

namespace Scriptlet

/-- A number rounded toward zero. -/
def towardZero (number : ℚ) : ℤ :=
  if 0 ≤ number then ⌊number⌋ else ⌈number⌉

theorem towardZero_intCast (number : ℤ) : towardZero number = number := by
  rw [towardZero, Int.floor_intCast, Int.ceil_intCast, ite_self]

theorem towardZero_eq_zero {number : ℚ} (small : |number| < 1) : towardZero number = 0 := by
  rw [abs_lt] at small
  rw [towardZero]
  split
  · rename_i positive
    rw [Int.floor_eq_zero_iff]
    exact ⟨positive, small.2⟩
  · rename_i negative
    rw [Int.ceil_eq_zero_iff]
    exact ⟨small.1, (lt_of_not_ge negative).le⟩

namespace Integer

/-! ## Words -/

theorem fits (word : Integer) : least ≤ word.toInt ∧ word.toInt ≤ greatest := by
  have lower := word.le_toInt
  have upper := word.toInt_lt
  rw [least, greatest]
  omega

theorem ofInt?_eq_some_iff {value : Int} {word : Integer} :
    ofInt? value = some word ↔ word.toInt = value := by
  unfold ofInt?
  constructor
  · intro found
    split at found
    · rename_i inside
      rw [least, greatest] at inside
      cases found
      exact Int64.toInt_ofInt_of_le (by omega) (by omega)
    · cases found
  · rintro rfl
    rw [if_pos word.fits, Int64.ofInt_toInt]

theorem ofInt?_eq_none_iff {value : Int} :
    ofInt? value = none ↔ ¬(least ≤ value ∧ value ≤ greatest) := by
  unfold ofInt?
  split <;> simp_all

theorem toInt_eq_zero_iff {word : Integer} : word.toInt = 0 ↔ word = 0 := by
  rw [← Int64.toInt_inj, Int64.toInt_zero]

/-! ## Powers -/

/-- A base beyond one in size has no power that fits from the 64th on. -/
theorem ofInt?_pow_eq_none {base : Int} (large : 2 ≤ base.natAbs) {count : Nat}
    (many : 64 ≤ count) : ofInt? (base ^ count) = none := by
  rw [ofInt?_eq_none_iff]
  intro inside
  have beyond : 2 ^ 64 ≤ (base ^ count).natAbs := by
    rw [Int.natAbs_pow]
    calc 2 ^ 64 ≤ 2 ^ count := Nat.pow_le_pow_right Nat.two_pos many
      _ ≤ base.natAbs ^ count := Nat.pow_le_pow_left large count
  rw [least, greatest] at inside
  omega

/-- A base beyond one in size has no negative power with a whole part. -/
theorem towardZero_zpow_of_neg {base exponent : Int} (large : 2 ≤ base.natAbs)
    (negative : exponent < 0) : towardZero ((base : ℚ) ^ exponent) = 0 := by
  apply towardZero_eq_zero
  have size : (1 : ℚ) < |(base : ℚ)| := by
    rw [← Int.cast_abs, Int.abs_eq_natAbs]
    exact_mod_cast large
  rw [abs_zpow]
  exact zpow_lt_one_of_neg₀ size negative

theorem some_eq_ofInt?_towardZero (number : Int) {word : Integer} (same : word.toInt = number) :
    some word = ofInt? (towardZero number) := by
  rw [towardZero_intCast]
  exact (ofInt?_eq_some_iff.mpr same).symm

/-- A power of zero, of one or of minus one is one of these again. -/
theorem power?_of_small {base exponent : Integer} (small : base.toInt.natAbs ≤ 1)
    (defined : ¬(base = 0 ∧ exponent < 0)) :
    base.power? exponent = ofInt? (towardZero ((base.toInt : ℚ) ^ exponent.toInt)) := by
  have choices : base.toInt = 0 ∨ base.toInt = 1 ∨ base.toInt = -1 := by omega
  rcases choices with zero | one | minusOne
  · cases Int64.toInt_inj.mp (zero.trans Int64.toInt_zero.symm)
    rw [power?, if_pos rfl, zero, Int.cast_zero]
    by_cases none : exponent = 0
    · rw [if_pos none, none, Int64.toInt_zero, zpow_zero]
      exact some_eq_ofInt?_towardZero 1 rfl
    · rw [if_neg none, zero_zpow _ (mt toInt_eq_zero_iff.mp none)]
      exact some_eq_ofInt?_towardZero 0 rfl
  · cases Int64.toInt_inj.mp (one.trans Int64.toInt_one.symm)
    rw [power?, if_neg (by decide), if_pos rfl, one, Int.cast_one, one_zpow]
    exact some_eq_ofInt?_towardZero 1 rfl
  · have same : (-1 : Integer).toInt = -1 := by decide
    cases Int64.toInt_inj.mp (minusOne.trans same.symm)
    rw [power?, if_neg (by decide), if_neg (by decide), if_pos rfl, minusOne, Int.cast_neg,
      Int.cast_one]
    by_cases even : exponent.toInt % 2 = 0
    · rw [if_pos even, (Int.even_iff.mpr even).neg_one_zpow]
      exact some_eq_ofInt?_towardZero 1 rfl
    · rw [if_neg even, (Int.not_even_iff_odd.mp (mt Int.even_iff.mp even)).neg_one_zpow]
      exact some_eq_ofInt?_towardZero (-1) rfl

theorem toNat_of_narrow?_eq_some {exponent : Integer} {count : UInt32}
    (narrow : exponent.narrow? = some count) : (count.toNat : Int) = exponent.toInt := by
  unfold narrow? at narrow
  split at narrow
  · rename_i inside
    cases narrow
    rw [UInt32.toNat_ofNat_of_lt' (by rw [UInt32.size]; omega)]
    exact Int.toNat_of_nonneg inside.1
  · cases narrow

theorem not_small_of_narrow?_eq_none {exponent : Integer} (wide : exponent.narrow? = none) :
    ¬(0 ≤ exponent.toInt ∧ exponent.toInt < 4294967296) := by
  unfold narrow? at wide
  split at wide
  · cases wide
  · assumption

/-- A power of any other base has no whole part, or is the product of its factors. -/
theorem power?_of_large {base exponent : Integer} (large : 2 ≤ base.toInt.natAbs) :
    base.power? exponent = ofInt? (towardZero ((base.toInt : ℚ) ^ exponent.toInt)) := by
  have notZero : base ≠ 0 := by
    rintro rfl
    exact absurd large (by decide)
  have notOne : base ≠ 1 := by
    rintro rfl
    exact absurd large (by decide)
  have notMinusOne : base ≠ -1 := by
    rintro rfl
    exact absurd large (by decide)
  rw [power?, if_neg notZero, if_neg notOne, if_neg notMinusOne]
  by_cases negative : exponent < 0
  · have below : exponent.toInt < 0 := Int64.lt_iff_toInt_lt.mp negative
    rw [if_pos negative, towardZero_zpow_of_neg large below]
    exact (ofInt?_eq_some_iff.mpr rfl).symm
  · have notNegative : 0 ≤ exponent.toInt := by
      rw [Int64.lt_iff_toInt_lt, Int64.toInt_zero] at negative
      exact Int.not_lt.mp negative
    have product : (base.toInt : ℚ) ^ exponent.toInt =
        ((base.toInt ^ exponent.toInt.toNat : Int) : ℚ) := by
      rw [Int.cast_pow, ← zpow_natCast, Int.toNat_of_nonneg notNegative]
    rw [if_neg negative, product, towardZero_intCast]
    split
    · rename_i count narrow
      have same := toNat_of_narrow?_eq_some narrow
      rw [← same, Int.toNat_natCast]
      split
      · rfl
      · rename_i many
        rw [UInt32.lt_iff_toNat_lt] at many
        exact (ofInt?_pow_eq_none large (Nat.le_of_not_lt many)).symm
    · rename_i wide
      have beyond := not_small_of_narrow?_eq_none wide
      exact (ofInt?_pow_eq_none large (by omega)).symm

theorem power?_eq {base exponent : Integer} (defined : ¬(base = 0 ∧ exponent < 0)) :
    base.power? exponent = ofInt? (towardZero ((base.toInt : ℚ) ^ exponent.toInt)) := by
  by_cases small : base.toInt.natAbs ≤ 1
  · exact power?_of_small small defined
  · exact power?_of_large (Nat.lt_of_not_le small)

end Integer

/-! ## The operator -/

namespace Value

theorem fitted_ofInt?_eq_ok_iff {number : Int} :
    (∃ result, fitted (Integer.ofInt? number) = .ok (.integer result) ∧ result.toInt = number) ↔
      Integer.least ≤ number ∧ number ≤ Integer.greatest := by
  constructor
  · rintro ⟨result, _, rfl⟩
    exact result.fits
  · intro inside
    cases found : Integer.ofInt? number with
    | none => exact absurd inside (Integer.ofInt?_eq_none_iff.mp found)
    | some result => exact ⟨result, rfl, Integer.ofInt?_eq_some_iff.mp found⟩

theorem fitted_ofInt?_eq_overflow_iff {number : Int} :
    fitted (Integer.ofInt? number) = .error .overflow ↔
      ¬(Integer.least ≤ number ∧ number ≤ Integer.greatest) := by
  rw [← Integer.ofInt?_eq_none_iff]
  cases Integer.ofInt? number <;> simp [fitted]

theorem fitted_ne_divisionByZero (result : Option Integer) :
    fitted result ≠ .error .divisionByZero := by
  cases result <;> simp [fitted]

/-- Raising an integer to an integer divides by zero exactly for a negative power of zero. Any other
power is exact: it is the rational power rounded toward zero if that is in range, and overflows if it
is not. -/
theorem combine_power (base exponent : Integer) (symbols : Symbols) :
    let power := towardZero ((base.toInt : ℚ) ^ exponent.toInt)
    let outcome := (combine .power (.integer base) (.integer exponent) symbols).1
    (combine .power (.integer base) (.integer exponent) symbols).2 = symbols ∧
      (outcome = .error .divisionByZero ↔ base = 0 ∧ exponent < 0) ∧
      ((∃ result, outcome = .ok (.integer result) ∧ result.toInt = power) ↔
        ¬(base = 0 ∧ exponent < 0) ∧ Integer.least ≤ power ∧ power ≤ Integer.greatest) ∧
      (outcome = .error .overflow ↔
        ¬(base = 0 ∧ exponent < 0) ∧ ¬(Integer.least ≤ power ∧ power ≤ Integer.greatest)) := by
  intro power outcome
  refine ⟨rfl, ?_⟩
  by_cases undefined : base = 0 ∧ exponent < 0
  · have refused : outcome = .error .divisionByZero := if_pos undefined
    rw [refused]
    simp [undefined]
  · have exact : outcome = fitted (Integer.ofInt? power) := by
      rw [← Integer.power?_eq undefined]
      exact if_neg undefined
    rw [exact, fitted_ofInt?_eq_ok_iff, fitted_ofInt?_eq_overflow_iff]
    simp [undefined, fitted_ne_divisionByZero]

/-- The least integer is a power. -/
example : (-2 : Integer).power? 63 = some Int64.minValue := by decide

end Value

end Scriptlet
