import Scriptlet.Symbols
import Mathlib

/-! Tables only grow, so what a handle stands for never changes. -/

namespace Scriptlet

namespace TextTable

/-- Every place of the earlier table holds the same text in the later one. -/
def Extends (earlier later : TextTable) : Prop :=
  ∀ index text, earlier.get? index = some text → later.get? index = some text

theorem Extends.refl (table : TextTable) : table.Extends table :=
  fun _ _ found => found

theorem Extends.trans {first second third : TextTable} (earlier : first.Extends second)
    (later : second.Extends third) : first.Extends third :=
  fun index text found => later index text (earlier index text found)

/-! ## What a table looks up -/

theorem find?_eq_some_iff (table : TextTable) {text : String} {index : Nat} :
    table.find? text = some index ↔ table.get? index = some text :=
  table.coherent text index

theorem find?_eq_none_iff (table : TextTable) {text : String} :
    table.find? text = none ↔ text ∉ table.entries := by
  rw [Option.eq_none_iff_forall_ne_some, Array.mem_iff_getElem?, not_exists]
  exact forall_congr' fun index => not_congr table.find?_eq_some_iff

/-- A text of the table keeps its place. -/
theorem enter_of_get? (table : TextTable) {text : String} {index : Nat}
    (found : table.get? index = some text) : table.enter text = (index, table) := by
  have known : table.intern text = (index, table.toInterner) := by
    rw [Interner.intern, table.find?_eq_some_iff.mpr found]
  simp only [enter, known]

/-- A new text goes to the end. -/
theorem enter_of_not_mem (table : TextTable) {text : String} (new : text ∉ table.entries) :
    (table.enter text).1 = table.size ∧ (table.enter text).2.toInterner = table.push text := by
  have missing : table.intern text = (table.size, table.push text) := by
    rw [Interner.intern, table.find?_eq_none_iff.mpr new]
  simp only [enter, missing, and_self]

theorem enter_cases (table : TextTable) (text : String) :
    (∃ index, table.get? index = some text ∧ table.enter text = (index, table)) ∨
      text ∉ table.entries ∧ (table.enter text).1 = table.size ∧
        (table.enter text).2.toInterner = table.push text := by
  by_cases known : text ∈ table.entries
  · obtain ⟨index, found⟩ := Array.mem_iff_getElem?.mp known
    exact .inl ⟨index, found, table.enter_of_get? found⟩
  · exact .inr ⟨known, table.enter_of_not_mem known⟩

/-- Entering a text keeps what is there and leaves the text at its place. -/
theorem extends_enter (table : TextTable) (text : String) :
    table.Extends (table.enter text).2 ∧
      (table.enter text).2.get? (table.enter text).1 = some text := by
  rcases table.enter_cases text with ⟨index, found, entered⟩ | ⟨_, place, entered⟩
  · rw [entered]
    exact ⟨.refl table, found⟩
  · constructor
    · intro index held found
      have inside : index ≠ table.size := by
        rintro rfl
        rw [Interner.get?, Interner.size, Array.getElem?_size] at found
        cases found
      rw [entered, Interner.get?_push, if_neg inside]
      exact found
    · rw [entered, place, Interner.get?_push, if_pos rfl]

theorem Extends.isPrefix {earlier later : TextTable} (grown : earlier.Extends later) :
    earlier.entries.toList <+: later.entries.toList := by
  rw [List.prefix_iff_getElem?]
  intro index inside
  have here : earlier.get? index = some earlier.entries.toList[index] := by
    rw [Interner.get?, ← Array.getElem?_toList, List.getElem?_eq_getElem inside]
  have there := grown index _ here
  rwa [Interner.get?, ← Array.getElem?_toList] at there

/-! ## Growth -/

/-- The table that some texts have been entered into, one after the other. -/
def ofTexts (texts : List String) : TextTable :=
  texts.foldl (fun table text => (table.enter text).2) {}

/-- The later table comes of entering texts into the earlier one. -/
def Grows (earlier later : TextTable) : Prop :=
  Relation.ReflTransGen (fun before after => ∃ text, after = (before.enter text).2) earlier later

theorem grows_enter (table : TextTable) (text : String) : table.Grows (table.enter text).2 :=
  .single ⟨text, rfl⟩

theorem Grows.extends {earlier later : TextTable} (grown : earlier.Grows later) :
    earlier.Extends later := by
  induction grown with
  | refl => exact .refl _
  | tail _ step induction =>
      rcases step with ⟨text, rfl⟩
      exact induction.trans (extends_enter _ text).1

end TextTable

namespace Symbols

structure Extends (earlier later : Symbols) : Prop where
  strings : earlier.strings.Extends later.strings
  names : earlier.names.Extends later.names

theorem Extends.refl (symbols : Symbols) : symbols.Extends symbols :=
  ⟨.refl _, .refl _⟩

theorem Extends.trans {first second third : Symbols} (earlier : first.Extends second)
    (later : second.Extends third) : first.Extends third :=
  ⟨earlier.strings.trans later.strings, earlier.names.trans later.names⟩

theorem extends_enterString (symbols : Symbols) (text : String) :
    symbols.Extends (symbols.enterString text).2 :=
  ⟨(symbols.strings.extends_enter text).1, .refl _⟩

/-- The later tables come of entering texts into the earlier ones. -/
structure Grows (earlier later : Symbols) : Prop where
  strings : earlier.strings.Grows later.strings
  names : earlier.names.Grows later.names

theorem Grows.refl (symbols : Symbols) : symbols.Grows symbols :=
  ⟨.refl, .refl⟩

theorem Grows.trans {first second third : Symbols} (earlier : first.Grows second)
    (later : second.Grows third) : first.Grows third :=
  ⟨earlier.strings.trans later.strings, earlier.names.trans later.names⟩

theorem Grows.extends {earlier later : Symbols} (grown : earlier.Grows later) :
    earlier.Extends later :=
  ⟨grown.strings.extends, grown.names.extends⟩

theorem grows_enterString (symbols : Symbols) (text : String) :
    symbols.Grows (symbols.enterString text).2 :=
  ⟨symbols.strings.grows_enter text, .refl⟩

theorem grows_enterName (symbols : Symbols) (name : String) :
    symbols.Grows (symbols.enterName name).2 :=
  ⟨.refl, symbols.names.grows_enter name⟩

/-- The handle of a string keeps standing for it. -/
theorem stringAt_enterString {symbols final : Symbols} {text : String}
    (grown : (symbols.enterString text).2.Extends final) :
    final.stringAt (symbols.enterString text).1 = text := by
  have there := grown.strings _ _ (symbols.strings.extends_enter text).2
  rw [stringAt]
  exact congrArg (·.getD "") there

theorem nameAt_enterName {symbols final : Symbols} {name : String}
    (grown : (symbols.enterName name).2.Extends final) :
    final.nameAt (symbols.enterName name).1 = name := by
  have there := grown.names _ _ (symbols.names.extends_enter name).2
  rw [nameAt]
  exact congrArg (·.getD "") there

end Symbols

end Scriptlet
