/-! Symbol tables. Strings and variable names are stored once, in the order in which they are first
met, and are referred to by their place in that order. -/

namespace Scriptlet

/-- Texts by their places, and places by their texts. -/
structure Interner where
  entries : Array String := #[]
  lookup : List (String × Nat) := []
deriving DecidableEq, Repr, Inhabited

namespace Interner

def find? (interner : Interner) (text : String) : Option Nat :=
  interner.lookup.lookup text

def get? (interner : Interner) (index : Nat) : Option String :=
  interner.entries[index]?

def size (interner : Interner) : Nat :=
  interner.entries.size

/-- A text that goes to the end. -/
def push (interner : Interner) (text : String) : Interner where
  entries := interner.entries.push text
  lookup := (text, interner.size) :: interner.lookup

/-- The place of a text, which goes to the end if it is new. -/
def intern (interner : Interner) (text : String) : Nat × Interner :=
  match interner.find? text with
  | some index => (index, interner)
  | none => (interner.size, interner.push text)

/-- A text is looked up exactly where it stands. -/
def Coherent (interner : Interner) : Prop :=
  ∀ text index, interner.find? text = some index ↔ interner.get? index = some text

theorem find?_push (interner : Interner) (text other : String) :
    (interner.push text).find? other =
      if other = text then some interner.size else interner.find? other := by
  rw [find?, push, List.lookup_cons]
  by_cases same : other = text
  · rw [if_pos same, same, beq_self_eq_true]
  · rw [if_neg same, beq_false_of_ne same, find?]

theorem get?_push (interner : Interner) (text : String) (index : Nat) :
    (interner.push text).get? index =
      if index = interner.size then some text else interner.get? index :=
  Array.getElem?_push

theorem Coherent.empty : Coherent {} := by
  intro text index
  simp [find?, get?]

theorem Coherent.push {interner : Interner} (coherent : interner.Coherent) {text : String}
    (new : interner.find? text = none) : (interner.push text).Coherent := by
  intro other index
  -- The new text was nowhere before, and nothing was at the place that it gets.
  have elsewhere : interner.get? index ≠ some text := by simp [← coherent text index, new]
  have outside : interner.find? other ≠ some interner.size := by simp [coherent other, get?, size]
  rw [find?_push, get?_push]
  by_cases same : other = text
  · by_cases last : index = interner.size
    · simp [same, last]
    · simp [same, last, elsewhere, eq_comm]
  · by_cases last : index = interner.size
    · simp [same, last, outside, Ne.symm same]
    · simpa [same, last] using coherent other index

theorem Coherent.intern {interner : Interner} (coherent : interner.Coherent) (text : String) :
    (interner.intern text).2.Coherent := by
  rw [Interner.intern]
  split
  · exact coherent
  · rename_i new
    exact coherent.push new

end Interner

/-- Distinct texts in the order in which they were entered, and the places to find them at. -/
structure TextTable extends Interner where
  coherent : toInterner.Coherent := by exact Interner.Coherent.empty
deriving DecidableEq, Repr

namespace TextTable

instance : Inhabited TextTable := ⟨{}⟩

def enter (table : TextTable) (text : String) : Nat × TextTable :=
  let entered := table.intern text
  (entered.1, { toInterner := entered.2, coherent := table.coherent.intern text })

end TextTable

/-- A place in the string table. -/
structure StringHandle where
  index : Nat
deriving DecidableEq, Repr, Inhabited

/-- A place in the table of variable names. -/
structure NameHandle where
  index : Nat
deriving DecidableEq, Repr, Inhabited

structure Symbols where
  strings : TextTable := {}
  names : TextTable := {}
deriving DecidableEq, Repr, Inhabited

namespace Symbols

def enterString (symbols : Symbols) (text : String) : StringHandle × Symbols :=
  let (index, strings) := symbols.strings.enter text
  (⟨index⟩, { symbols with strings })

def enterName (symbols : Symbols) (name : String) : NameHandle × Symbols :=
  let (index, names) := symbols.names.enter name
  (⟨index⟩, { symbols with names })

/-- The string at a place; a place outside the table holds the empty text. -/
def stringAt (symbols : Symbols) (handle : StringHandle) : String :=
  (symbols.strings.get? handle.index).getD ""

/-- The name at a place; a place outside the table holds the empty name. -/
def nameAt (symbols : Symbols) (handle : NameHandle) : String :=
  (symbols.names.get? handle.index).getD ""

/-- The place of a name that has been entered before. -/
def nameHandle? (symbols : Symbols) (name : String) : Option NameHandle :=
  (symbols.names.find? name).map NameHandle.mk

end Symbols

end Scriptlet
