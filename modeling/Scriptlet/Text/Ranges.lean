/-! Sets of code points written as a list of inclusive ranges in increasing order. -/

namespace Scriptlet

/-- Membership in the union of the ranges. The search stops at the first range that lies above the
code point, so the ranges must increase. -/
def inRanges : List (Nat × Nat) → Nat → Bool
  | [], _ => false
  | (first, last) :: above, code =>
    if code < first then false else if code ≤ last then true else inRanges above code

end Scriptlet
