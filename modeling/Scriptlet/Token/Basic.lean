import Scriptlet.Position
import Scriptlet.Token.Kind

/-! Tokens: classified pieces of source text with the place where each starts. -/

namespace Scriptlet

/-- The `text` of a string token is its content without the quotes. -/
structure Token where
  kind : Kind
  text : String
  position : Position
deriving DecidableEq, Repr, Inhabited

namespace Token

/-- The mark that closes a token sequence whose last line is `line`. -/
def endOfInput (line : Nat) : Token :=
  ⟨.endOfInput, "", ⟨line, 0⟩⟩

/-- The mark that closes a statement. -/
def terminator (position : Position) : Token :=
  ⟨.terminator, "", position⟩

end Token

end Scriptlet
