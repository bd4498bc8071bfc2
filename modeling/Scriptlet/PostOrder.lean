import Scriptlet.Operator.Binding
import Scriptlet.SourceError
import Scriptlet.Token.Basic

/-! Post order: every operator moved behind its operands, every parenthesis removed.

Operators wait, the latest first, until something weaker arrives. An open parenthesis waits among
them and holds back whatever waits below it. Each terminator closes a statement, so nothing waits
across it. -/

namespace Scriptlet

/-- Whether an operand is due after a token of this kind; `none` is the start of the tokens. -/
def operandDue : Option Kind → Bool
  | none => true
  | some kind =>
    kind.isOperator || kind.isControl || kind == .openParen || kind == .terminator

/-- A minus sign where an operand is due is a negation. -/
def Token.readSign (previous : Option Kind) (token : Token) : Token :=
  if token.kind = .binary .subtract ∧ operandDue previous then
    { token with kind := .unary .negate }
  else token

/-- Whether a waiting token takes its operands before an operator with the incoming binding. -/
def Token.yieldsTo (table : BindingTable) (incoming : Binding) (waiting : Token) : Bool :=
  (table waiting.kind).any (·.yieldsTo incoming)

/-- Everything that waits, at the end of a statement. The innermost parenthesis still open is a
fault. -/
def releaseAll (waiting : List Token) : Except SourceError (List Token) :=
  match waiting.find? (·.kind == .openParen) with
  | some opened => .error ⟨.unclosedParen, opened.position⟩
  | none => .ok waiting

/-- What a token releases into the output, and what waits after it. -/
def accept (table : BindingTable) (waiting : List Token) (token : Token) :
    Except SourceError (List Token × List Token) :=
  match token.kind with
  | .terminator => do
    let released ← releaseAll waiting
    return (released ++ [token], [])
  | .openParen => .ok ([], token :: waiting)
  | .closeParen =>
    match waiting.span (·.kind != .openParen) with
    | (_, []) => .error ⟨.unmatchedParen, token.position⟩
    | (released, _ :: below) => .ok (released, below)
  | kind =>
    if kind.isOperand then .ok ([token], waiting)
    else
      match table kind with
      | none => .ok ([token], waiting)
      | some incoming =>
        let (released, below) := waiting.span (·.yieldsTo table incoming)
        .ok (released, token :: below)

/-- `previous` is the kind of the token before, `waiting` holds operators and open parentheses, and
`mark` closes the sequence if no end mark does. Nothing after an end mark is read. -/
def arrange (table : BindingTable) (mark : Token) :
    Option Kind → List Token → List Token → Except SourceError (List Token)
  | _, waiting, [] => do
    let released ← releaseAll waiting
    return released ++ [mark]
  | previous, waiting, next :: later =>
    let token := next.readSign previous
    if token.kind = .endOfInput then do
      let released ← releaseAll waiting
      return released ++ [token]
    else do
      let (released, waiting) ← accept table waiting token
      let following ← arrange table mark (some token.kind) waiting later
      return released ++ following

/-- The line of the last token; an empty sequence ends before the first line. -/
def lastLine (tokens : List Token) : Nat :=
  match tokens.getLast? with
  | some token => token.position.line
  | none => 0

/-- The tokens in post order, closed by exactly one end mark. -/
def postOrderWith (table : BindingTable) (tokens : List Token) : Except SourceError (List Token) :=
  arrange table (.endOfInput (lastLine tokens)) none [] tokens

def postOrder : List Token → Except SourceError (List Token) :=
  postOrderWith Kind.binding?

end Scriptlet
