import Scriptlet.Proofs.Pattern
import Scriptlet.Proofs.Power

/-! Numbers and the texts they are read from. A text of digits is read as the number that it
denotes, unless no word holds that number; digits around a point are always read. -/

namespace Scriptlet

namespace Integer

/-- The number that a text of digits denotes. -/
def denoted (text : String) : Nat :=
  Nat.ofDigitChars 10 text.toList 0

/-- More digits never make a number smaller. -/
theorem le_ofDigitChars (total : Nat) (digits : List Char) :
    total ≤ Nat.ofDigitChars 10 digits total := by
  induction digits generalizing total with
  | nil => exact Nat.le_refl total
  | cons digit later induction =>
      rw [Nat.ofDigitChars_cons]
      exact Nat.le_trans (by omega) (induction _)

/-- The digits are read to their end exactly if the whole number fits: one that has grown out of
range does not come back. -/
theorem readDigits_eq {digits : List Char} (each : ∀ character ∈ digits, character.isDigit)
    {total : Nat} (fits : (total : Int) ≤ greatest) :
    readDigits 1 total digits =
      if (Nat.ofDigitChars 10 digits total : Int) ≤ greatest
      then .ok (Nat.ofDigitChars 10 digits total) else .error .tooLarge := by
  induction digits generalizing total with
  | nil => exact (if_pos fits).symm
  | cons digit later induction =>
      rcases List.forall_mem_cons.mp each with ⟨isDigit, others⟩
      have extended : (total : Int) * 10 + 1 * (digit.toNat - '0'.toNat : Nat) =
          (10 * total + (digit.toNat - '0'.toNat) : Nat) := by
        push_cast
        ring
      have notSmall : ¬((10 * total + (digit.toNat - '0'.toNat) : Nat) : Int) < least := by
        rw [least]
        omega
      rw [readDigits, digit?, if_pos isDigit, Nat.ofDigitChars_cons]
      dsimp only
      rw [extended, if_neg notSmall]
      by_cases large : greatest < ((10 * total + (digit.toNat - '0'.toNat) : Nat) : Int)
      · have larger := le_ofDigitChars (10 * total + (digit.toNat - '0'.toNat)) later
        rw [if_pos large, if_neg (by omega)]
      · rw [if_neg large, induction others (by omega)]

/-- A text of digits, and nothing else, is read as the number that it denotes. -/
theorem read_eq {text : String} (shape : Lexeme.isInteger text.toList) :
    read text = (ofInt? (denoted text)).elim (.error .tooLarge) .ok := by
  rw [Lexeme.isInteger, Bool.and_eq_true, List.all_eq_true] at shape
  rcases shape with ⟨some, each⟩
  have unsigned (sign : Char) (signed : sign.isDigit = false) : sign ∉ text.toList :=
    fun member => Lexeme.ne_of_isDigit (each sign member) signed rfl
  have digits : read text = (readDigits 1 (0 : Nat) text.toList).map Int64.ofInt := by
    have noPlus := unsigned '+' rfl
    have noMinus := unsigned '-' rfl
    unfold read
    split
    · rename_i empty
      rw [empty] at some
      cases some
    · simp_all
    · simp_all
    · simp_all
    · simp_all
    · rfl
  rw [digits, readDigits_eq each (by decide), ← denoted, ofInt?]
  have notSmall : least ≤ (denoted text : Int) := by
    rw [least]
    omega
  by_cases fits : (denoted text : Int) ≤ greatest
  · rw [if_pos fits, if_pos ⟨notSmall, fits⟩]
    rfl
  · rw [if_neg fits, if_neg (fun both => fits both.2)]
    rfl

/-- A text of digits is read unless it denotes too large a number. -/
theorem read_cases {text : String} (shape : Lexeme.isInteger text.toList) :
    (∃ word : Integer, read text = .ok word ∧ word.toInt = denoted text) ∨
      read text = .error .tooLarge ∧ greatest < denoted text := by
  rw [read_eq shape]
  cases held : ofInt? (denoted text) with
  | some word => exact .inl ⟨word, rfl, ofInt?_eq_some_iff.mp held⟩
  | none =>
      have outside := ofInt?_eq_none_iff.mp held
      rw [least] at outside
      exact .inr ⟨rfl, by omega⟩

end Integer

namespace Decimal

/-- Digits around a point are read as a number, whatever they are. -/
theorem read_eq {text : String} {whole fraction : List Char}
    (spelling : text.toList = whole ++ '.' :: fraction) (someWhole : whole ≠ [])
    (eachWhole : ∀ character ∈ whole, character.isDigit)
    (eachFraction : ∀ character ∈ fraction, character.isDigit) :
    read text = .ok (nearest ⟨valueOf (whole ++ fraction), -fraction.length⟩) := by
  rcases List.exists_cons_of_ne_nil someWhole with ⟨first, rest, rfl⟩
  have digit := eachWhole first List.mem_cons_self
  have point : ∀ next ∈ ('.' :: fraction).head?, next.isDigit = false := by
    rintro _ ⟨⟩
    rfl
  rcases Lexeme.takeWhile_stops eachWhole point with ⟨integral, behind⟩
  have fractional := List.takeWhile_eq_self_iff.mpr eachFraction
  have nothing := List.dropWhile_eq_nil_iff.mpr eachFraction
  have number : readNumber (first :: rest ++ '.' :: fraction) =
      some ⟨valueOf (first :: rest ++ fraction), -fraction.length⟩ := by
    rw [readNumber, integral, behind]
    simp [fractional, nothing, readExponent]
  -- None of the words for what is no number has a point in it.
  have noWord (word : String) (pointless : '.' ∉ word.toList) :
      String.ofList ((first :: rest ++ '.' :: fraction).map Char.toLower) ≠ word := by
    rintro rfl
    exact pointless (by simp [show Char.toLower '.' = '.' from rfl])
  have magnitude : readMagnitude (first :: rest ++ '.' :: fraction) =
      some (nearest ⟨valueOf (first :: rest ++ fraction), -fraction.length⟩) := by
    rw [readMagnitude, if_neg, if_neg (noWord "nan" (by decide)), number]
    · rfl
    · rintro (word | word)
      · exact noWord "inf" (by decide) word
      · exact noWord "infinity" (by decide) word
  have notMinus : first ≠ '-' := Lexeme.ne_of_isDigit digit rfl
  have notPlus : first ≠ '+' := Lexeme.ne_of_isDigit digit rfl
  rw [read, spelling]
  split
  · rename_i empty
    cases empty
  · rename_i signed
    cases signed
    exact absurd rfl notMinus
  · rename_i signed
    cases signed
    exact absurd rfl notPlus
  · rw [magnitude]
    rfl

/-- A text that has the shape of a decimal is read. -/
theorem exists_read {text : String} (shape : Lexeme.isDecimal text.toList) :
    ∃ value, read text = .ok value := by
  rcases Lexeme.exists_of_isDecimal shape with
    ⟨first, rest, fraction, spelling, eachWhole, _, eachFraction⟩
  exact ⟨_, read_eq spelling (List.cons_ne_nil first rest) eachWhole eachFraction⟩

end Decimal

end Scriptlet
