import Scriptlet.Token.Basic

/-! Statement boundaries. A line break ends a statement; so does the point between two statements
written on one line. After `separate` every boundary is marked by exactly one terminator and no
terminator stands first. -/

namespace Scriptlet

namespace Token

/-- Whether the second token starts at the character after the first one's last. -/
def touches (previous next : Token) : Bool :=
  previous.position.line == next.position.line &&
    previous.position.cursor + previous.text.length == next.position.cursor

def isNumber (token : Token) : Bool :=
  token.kind == .integer || token.kind == .decimal

/-- Whether a statement ends between two neighbours that no terminator separates. A number flush
against a name is left together, so that the pair is rejected later instead of being read as two
statements. -/
def endsStatementBefore (previous next : Token) : Bool :=
  if previous.kind = .closeBlock then
    next.kind != .terminator && next.kind != .closeBlock && next.kind != .endOfInput
  else if previous.isNumber && next.kind == .identifier && previous.touches next then false
  else previous.kind.closesOperand && next.kind.opensStatement

end Token

/-- `previous` is the token last kept. -/
def separateAfter (previous : Option Token) : List Token → List Token
  | [] => []
  | token :: later =>
    if token.kind = .terminator then
      if previous.all (·.kind == .terminator) then separateAfter previous later
      else token :: separateAfter (some token) later
    else if previous.any (·.endsStatementBefore token) then
      .terminator token.position :: token :: separateAfter (some token) later
    else token :: separateAfter (some token) later

/-- Drops terminators that end no statement and supplies those that are missing. -/
def separate (tokens : List Token) : List Token :=
  separateAfter none tokens

end Scriptlet
