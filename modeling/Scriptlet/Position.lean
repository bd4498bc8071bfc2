/-! Places in a source text. A diagnostic, a token and a tree node each carry one. -/

namespace Scriptlet

/-- Lines count from one; the cursor counts the characters before the place in its line. -/
structure Position where
  line : Nat
  cursor : Nat
deriving DecidableEq, Repr, Inhabited

/-- The words by which a diagnostic names a place. -/
def Position.describe (position : Position) : String :=
  s!"line {position.line}, cursor {position.cursor}"

end Scriptlet
