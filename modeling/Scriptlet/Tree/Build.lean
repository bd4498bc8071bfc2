import Scriptlet.SourceError
import Scriptlet.Token.Basic
import Scriptlet.Tree.Basic

/-! Trees from tokens in post order. An operand waits until its operator arrives; a terminator or an
end mark completes the statement that is left. -/

namespace Scriptlet

/-- Parsing adds to the symbol tables, and what it added stays when it fails. -/
abbrev Parse := ExceptT SourceError (StateM Symbols)

namespace Parse

def fail (cause : SourceError.Cause) (position : Position) : Parse α :=
  throw ⟨cause, position⟩

def ofExcept (result : Except SourceError α) : Parse α :=
  ExceptT.mk (pure result)

def enterString (text : String) : Parse StringHandle :=
  modifyGet (·.enterString text)

def enterName (name : String) : Parse NameHandle :=
  modifyGet (·.enterName name)

end Parse

/-- A finished tree with its depth; a leaf has depth one. -/
structure Operand where
  tree : Tree
  depth : Nat
deriving Repr, Inhabited

/-- An operator's tree over operands of which the deepest has depth `below`, if the limit allows
another level. A leaf is never too deep. -/
def Operand.combine (limit : Nat) (below : Nat) (tree : Tree) : Parse Operand :=
  if limit < below + 1 then .fail (.nestingTooDeep limit) tree.position
  else return ⟨tree, below + 1⟩

/-- Takes in one token that does not end a statement. The latest operand comes first. -/
def absorb (limit : Nat) (operands : List Operand) (token : Token) : Parse (List Operand) :=
  let position := token.position
  let leaf (tree : Tree) : Parse (List Operand) := return ⟨tree, 1⟩ :: operands
  let overOne (node : Tree → Tree) : Parse (List Operand) :=
    match operands with
    | operand :: below => do
      let combined ← Operand.combine limit operand.depth (node operand.tree)
      return combined :: below
    | [] => .fail (.missingOperand token.text) position
  let overTwo (node : Tree → Tree → Tree) : Parse (List Operand) :=
    match operands with
    | right :: left :: below => do
      let depth := max left.depth right.depth
      let combined ← Operand.combine limit depth (node left.tree right.tree)
      return combined :: below
    | _ => .fail (.missingOperand token.text) position
  match token.kind with
  | .integer => leaf (.integer token.text position)
  | .decimal => leaf (.decimal token.text position)
  | .boolean => leaf (.boolean (token.text == "true") position)
  | .string => do leaf (.string (← Parse.enterString token.text) position)
  | .identifier => do leaf (.identifier (← Parse.enterName token.text) position)
  | .binary operator => overTwo (.binary operator · · position)
  | .assign => overTwo (.assign · · position)
  | .unary operator => overOne (.unary operator · position)
  | .command command => overOne (.command command · position)
  | _ => .fail (.unexpectedToken token.text) position

/-- The statement that the operands amount to, if there is one. A second operand is one too many. -/
def completeStatement (operands : List Operand) : Parse (Option Tree) :=
  match operands.reverse with
  | [] => return none
  | [only] => return some only.tree
  | _ :: extra :: _ => .fail .danglingOperand extra.tree.position

def Kind.endsStatement (kind : Kind) : Bool :=
  kind == .terminator || kind == .endOfInput

def treesFrom (limit : Nat) : List Operand → List Token → Parse (List Tree)
  | operands, [] => do
    let statement ← completeStatement operands
    return statement.toList
  | operands, token :: later =>
    if token.kind.endsStatement then do
      let statement ← completeStatement operands
      let following ← treesFrom limit [] later
      return statement.toList ++ following
    else do
      let operands ← absorb limit operands token
      treesFrom limit operands later

/-- The statements that tokens in post order describe, one tree each. -/
def treesOf (limit : Nat) (tokens : List Token) : Parse (List Tree) :=
  treesFrom limit [] tokens

end Scriptlet
