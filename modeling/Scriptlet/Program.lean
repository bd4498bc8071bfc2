import Scriptlet.PostOrder
import Scriptlet.Sequence
import Scriptlet.Token.Boundary
import Scriptlet.Token.Scanner
import Scriptlet.Tree.Build

/-! Programs: statements in sequence, some of which govern a block of further statements.

A run of tokens without keywords and braces is put in post order and built as a whole. A keyword is
followed by its condition up to the opening brace, then by its block up to the brace that closes
it. -/

namespace Scriptlet

/-- A token that neither begins a governed block nor delimits one. -/
def Token.isStraight (token : Token) : Bool :=
  !(token.kind.isControl || token.kind == .openBlock || token.kind == .closeBlock)

/-- The statements of tokens without a block. -/
def straightStatements (limit : Nat) (tokens : List Token) : Parse (List Tree) := do
  let ordered ← Parse.ofExcept (postOrder tokens)
  treesOf limit ordered

/-! ## Blocks -/

/-- Splits at the first opening brace: what comes before it, the brace, and what comes after. A
closing brace or an end mark in front of it means that there is none. -/
def splitAtOpen : List Token → Option (List Token × Token × List Token)
  | [] => none
  | token :: later =>
    match token.kind with
    | .openBlock => some ([], token, later)
    | .closeBlock | .endOfInput => none
    | _ => (splitAtOpen later).map fun (before, brace, after) => (token :: before, brace, after)

/-- Splits at the closing brace that brings the number of open blocks back to zero: what comes
before it and what comes after. -/
def splitAtClose (openBlocks : Nat) : List Token → Option (List Token × List Token)
  | [] => none
  | token :: later =>
    let inner (count : Nat) :=
      (splitAtClose count later).map fun (before, after) => (token :: before, after)
    match token.kind with
    | .openBlock => inner (openBlocks + 1)
    | .closeBlock => if openBlocks ≤ 1 then some ([], later) else inner (openBlocks - 1)
    | _ => inner openBlocks

theorem splitAtOpen_length {tokens before after : List Token} {brace : Token}
    (found : splitAtOpen tokens = some (before, brace, after)) :
    before.length + after.length + 1 = tokens.length := by
  induction tokens generalizing before with
  | nil => cases found
  | cons token later induction =>
    unfold splitAtOpen at found
    split at found
    · cases found
      simp
    · cases found
    · cases found
    · obtain ⟨⟨earlier, _, _⟩, split, same⟩ := Option.map_eq_some_iff.mp found
      cases same
      have shorter := induction split
      simp only [List.length_cons]
      omega

theorem splitAtClose_length {openBlocks : Nat} {tokens before after : List Token}
    (found : splitAtClose openBlocks tokens = some (before, after)) :
    before.length + after.length + 1 = tokens.length := by
  induction tokens generalizing openBlocks before with
  | nil => cases found
  | cons token later induction =>
    have grow {count : Nat}
        (inner : (splitAtClose count later).map
          (fun (before, after) => (token :: before, after)) = some (before, after)) :
        before.length + after.length + 1 = (token :: later).length := by
      obtain ⟨⟨earlier, _⟩, split, same⟩ := Option.map_eq_some_iff.mp inner
      cases same
      have shorter := induction split
      simp only [List.length_cons]
      omega
    unfold splitAtClose at found
    split at found
    · exact grow found
    · split at found
      · cases found
        simp
      · exact grow found
    · exact grow found

/-- The block a token governs; anything but a loop keyword governs it as a conditional does. -/
def Token.controlOf (keyword : Token) : Control :=
  if keyword.kind = .control .loop then .loop else .conditional

/-- The condition of a keyword: exactly one expression. -/
def soleCondition (limit : Nat) (keyword : Token) (tokens : List Token) : Parse Tree := do
  match ← straightStatements limit tokens with
  | [condition] => return condition
  | _ => .fail (.invalidCondition keyword.text) keyword.position

/-! ## Statements

`limit` bounds the depth of expressions and of blocks; `depth` counts the blocks around the
tokens. -/

mutual

def statementsOf (limit depth : Nat) (tokens : List Token) : Parse (List Tree) :=
  match _ : tokens.dropWhile Token.isStraight with
  | [] => straightStatements limit tokens
  | stop :: later =>
    if stop.kind.isControl then do
      let before ← straightStatements limit (tokens.takeWhile Token.isStraight)
      let (statement, rest) ← governedStatement limit depth stop later
      let following ← statementsOf limit depth rest.val
      return before ++ statement :: following
    else .fail (.unexpectedToken stop.text) stop.position
termination_by tokens.length
decreasing_by
  · exact length_lt_of_dropWhile_eq_cons ‹_›
  · exact Nat.lt_trans rest.property (length_lt_of_dropWhile_eq_cons ‹_›)

/-- The statement of a keyword, and the tokens after its block. -/
def governedStatement (limit depth : Nat) (keyword : Token) (after : List Token) :
    Parse (Tree × { rest : List Token // rest.length < after.length }) :=
  if limit ≤ depth then .fail (.nestingTooDeep limit) keyword.position
  else
    match opened : splitAtOpen after with
    | none => .fail (.missingBlock keyword.text) keyword.position
    | some (tokens, brace, inside) => do
      let condition ← soleCondition limit keyword tokens
      match closed : splitAtClose 1 inside with
      | none => .fail .unclosedBlock brace.position
      | some (block, rest) => do
        let body ← statementsOf limit (depth + 1) block
        return (.control keyword.controlOf condition body keyword.position, ⟨rest, by
          have := splitAtOpen_length opened
          have := splitAtClose_length closed
          omega⟩)
termination_by after.length
decreasing_by
  have := splitAtOpen_length opened
  have := splitAtClose_length closed
  omega

end

/-- The statements of a whole token sequence. -/
def programOf (limit : Nat) (tokens : List Token) : Parse (List Tree) :=
  statementsOf limit 0 tokens

/-- The statements of a source text. -/
def programOfSource (limit : Nat) (source : String) : Parse (List Tree) := do
  let tokens ← Parse.ofExcept (scanSource source)
  programOf limit (separate tokens)

end Scriptlet
