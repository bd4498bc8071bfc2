import Scriptlet.Text.Ranges

/-! Two notions of blank. White space ends a name wherever it occurs. Only four of its characters
may stand between tokens; any other white space outside a string is an error. -/

namespace Scriptlet

/-- The characters with the white-space property. -/
def spaceRanges : List (Nat × Nat) :=
  [(0x9, 0xd), (0x20, 0x20), (0x85, 0x85), (0xa0, 0xa0), (0x1680, 0x1680), (0x2000, 0x200a),
    (0x2028, 0x2029), (0x202f, 0x202f), (0x205f, 0x205f), (0x3000, 0x3000)]

def isSpace (character : Char) : Bool :=
  inRanges spaceRanges character.toNat

/-- Whether the character separates tokens without being part of one: a space, a tab, a carriage
return or a form feed. -/
def isSeparator (character : Char) : Bool :=
  character == ' ' || character == '\t' || character == '\r' || character == '\x0c'

end Scriptlet
