import Scriptlet.Proofs.Building
import Scriptlet.Proofs.Scanning
import Scriptlet.Proofs.Symbols

/-! Trees read from left to right. Reading the trees on a stack of operands amounts to running a
simpler machine, which puts together tokens instead of trees. -/

namespace Scriptlet

/-! ## From left to right -/

/-- The token that a kind is written as. -/
def Token.spelled (kind : Kind) (position : Position) : Token :=
  ⟨kind, kind.label, position⟩

/-- A negation is written as a minus sign. -/
def Kind.written : Kind → Kind
  | .unary .negate => .binary .subtract
  | kind => kind

def Token.written (token : Token) : Token :=
  { token with kind := token.kind.written }

/-- A tree with every operator in front of its one operand or between its two. A statement that
governs a block has no such reading. -/
def Tree.inOrder (symbols : Symbols) : Tree → List Token
  | integer text position => [⟨.integer, text, position⟩]
  | decimal text position => [⟨.decimal, text, position⟩]
  | string handle position => [⟨.string, symbols.stringAt handle, position⟩]
  | boolean value position => [⟨.boolean, if value then "true" else "false", position⟩]
  | identifier handle position => [⟨.identifier, symbols.nameAt handle, position⟩]
  | binary operator left right position =>
      left.inOrder symbols ++ .spelled (.binary operator) position :: right.inOrder symbols
  | unary operator operand position =>
      .spelled (Kind.unary operator).written position :: operand.inOrder symbols
  | assign target value position =>
      target.inOrder symbols ++ .spelled .assign position :: value.inOrder symbols
  | command keyword operand position =>
      .spelled (.command keyword) position :: operand.inOrder symbols
  | control _ _ _ _ => []

section

variable {token : Token} (spells : token.kind.Spells token.text)

include spells

theorem Token.inOrder_leaf (isOperand : token.kind.isOperand) {symbols final : Symbols}
    (grown : (token.leaf symbols).2.Extends final) :
    (token.leaf symbols).1.inOrder final = [token.written] := by
  rcases token with ⟨kind, text, position⟩
  cases kind with
  | integer | decimal => rfl
  | string =>
      exact congrArg (fun text => [Token.mk .string text position])
        (Symbols.stringAt_enterString grown)
  | identifier =>
      exact congrArg (fun text => [Token.mk .identifier text position])
        (Symbols.nameAt_enterName grown)
  | boolean =>
      rcases spells with same | same
      · cases same
        rfl
      · cases same
        rfl
  | _ => cases isOperand

theorem Token.inOrder_over (isUnary : token.kind.isUnary) (symbols : Symbols) (operand : Tree) :
    (token.over operand).inOrder symbols = token.written :: operand.inOrder symbols := by
  rcases token with ⟨kind, text, position⟩
  cases kind with
  | unary operator =>
      cases spells
      cases operator <;> rfl
  | command keyword =>
      cases spells
      rfl
  | _ => cases isUnary

theorem Token.inOrder_between (isBinary : token.kind.isBinary) (symbols : Symbols)
    (left right : Tree) :
    (token.between left right).inOrder symbols =
      left.inOrder symbols ++ token.written :: right.inOrder symbols := by
  rcases token with ⟨kind, text, position⟩
  cases kind with
  | binary operator =>
      cases spells
      rfl
  | assign =>
      cases spells
      rfl
  | _ => cases isBinary

end

theorem Token.grows_leaf (token : Token) (symbols : Symbols) :
    symbols.Grows (token.leaf symbols).2 := by
  rw [leaf]
  split
  · exact .refl _
  · exact .refl _
  · exact symbols.grows_enterString _
  · exact symbols.grows_enterName _
  · exact .refl _

theorem Token.extends_leaf (token : Token) (symbols : Symbols) :
    symbols.Extends (token.leaf symbols).2 :=
  (token.grows_leaf symbols).extends

/-! ## The machine that puts together tokens -/

/-- Takes in one token. The latest text comes first. -/
def gather (texts : List (List Token)) (token : Token) : Option (List (List Token)) :=
  if token.kind.isOperand then some ([token.written] :: texts)
  else if token.kind.isUnary then
    match texts with
    | text :: below => some ((token.written :: text) :: below)
    | [] => none
  else if token.kind.isBinary then
    match texts with
    | right :: left :: below => some ((left ++ token.written :: right) :: below)
    | _ => none
  else none

theorem gather_operand {token : Token} (isOperand : token.kind.isOperand)
    (texts : List (List Token)) : gather texts token = some ([token.written] :: texts) := by
  unfold gather
  rw [if_pos isOperand]

theorem gather_unary {token : Token} (isUnary : token.kind.isUnary) (text : List Token)
    (below : List (List Token)) :
    gather (text :: below) token = some ((token.written :: text) :: below) := by
  rcases token with ⟨kind, _, _⟩
  cases kind <;> first | rfl | cases isUnary

theorem gather_binary {token : Token} (isBinary : token.kind.isBinary) (right left : List Token)
    (below : List (List Token)) :
    gather (right :: left :: below) token = some ((left ++ token.written :: right) :: below) := by
  rcases token with ⟨kind, _, _⟩
  cases kind <;> first | rfl | cases isBinary

/-- What a token can do to the texts. -/
theorem gather_cases {texts after : List (List Token)} {token : Token}
    (gathered : gather texts token = some after) :
    (token.kind.isOperand ∧ after = [token.written] :: texts) ∨
    (token.kind.isUnary ∧ ∃ text below, texts = text :: below ∧
      after = (token.written :: text) :: below) ∨
    (token.kind.isBinary ∧ ∃ right left below, texts = right :: left :: below ∧
      after = (left ++ token.written :: right) :: below) := by
  unfold gather at gathered
  split at gathered
  · rename_i isOperand
    cases gathered
    exact .inl ⟨isOperand, rfl⟩
  · split at gathered
    · rename_i isUnary
      split at gathered
      · cases gathered
        exact .inr (.inl ⟨isUnary, _, _, rfl, rfl⟩)
      · cases gathered
    · split at gathered
      · rename_i isBinary
        split at gathered
        · cases gathered
          exact .inr (.inr ⟨isBinary, _, _, _, rfl, rfl⟩)
        · cases gathered
      · cases gathered

/-- The trees of the operands read as these texts, whatever is entered into the tables later. -/
def ReadAs (symbols : Symbols) (operands : List Operand) (texts : List (List Token)) : Prop :=
  List.Forall₂ (fun operand text => ∀ final, symbols.Extends final →
    operand.tree.inOrder final = text) operands texts

theorem ReadAs.mono {symbols later : Symbols} {operands : List Operand}
    {texts : List (List Token)} (reads : ReadAs symbols operands texts)
    (grown : symbols.Extends later) : ReadAs later operands texts :=
  reads.imp fun _ _ same final further => same final (grown.trans further)

/-- Building and gathering go hand in hand. -/
theorem ReadAs.absorb {limit : Nat} {operands after : List Operand} {texts : List (List Token)}
    {token : Token} {symbols later : Symbols} (reads : ReadAs symbols operands texts)
    (spells : token.kind.Spells token.text)
    (absorbed : (absorb limit operands token).runFrom symbols = (.ok after, later)) :
    symbols.Extends later ∧ ∃ gathered, gather texts token = some gathered ∧
      ReadAs later after gathered := by
  rcases absorb_cases absorbed with ⟨isOperand, rfl, rfl⟩ |
    ⟨isUnary, rfl, operand, below, rfl, rfl⟩ | ⟨isBinary, rfl, right, left, below, rfl, rfl⟩
  · refine ⟨token.extends_leaf symbols, _, gather_operand isOperand texts, ?_⟩
    exact .cons (fun final grown => Token.inOrder_leaf spells isOperand grown)
      (reads.mono (token.extends_leaf symbols))
  · rcases reads with _ | ⟨first, rest⟩
    refine ⟨.refl _, _, gather_unary isUnary _ _, .cons ?_ rest⟩
    intro final grown
    rw [Token.inOrder_over spells isUnary, first final grown]
  · rcases reads with _ | ⟨first, _ | ⟨second, rest⟩⟩
    refine ⟨.refl _, _, gather_binary isBinary _ _ _, .cons ?_ rest⟩
    intro final grown
    rw [Token.inOrder_between spells isBinary, first final grown, second final grown]

theorem ReadAs.absorb_all {limit : Nat} {run : List Token} {operands after : List Operand}
    {texts : List (List Token)} {symbols later : Symbols} (reads : ReadAs symbols operands texts)
    (spells : ∀ token ∈ run, token.kind.Spells token.text)
    (absorbed : (run.foldlM (Scriptlet.absorb limit) operands).runFrom symbols =
      (.ok after, later)) :
    symbols.Extends later ∧ ∃ gathered, run.foldlM gather texts = some gathered ∧
      ReadAs later after gathered := by
  induction run generalizing operands texts symbols with
  | nil =>
      cases absorbed
      exact ⟨.refl _, texts, rfl, reads⟩
  | cons token rest induction =>
      rw [List.foldlM_cons, Parse.runFrom_bind_eq_ok] at absorbed
      rcases absorbed with ⟨middle, between, first, absorbed⟩
      rcases reads.absorb (spells token List.mem_cons_self) first with
        ⟨grown, gathered, step, middleReads⟩
      rcases induction middleReads (fun token member => spells token (List.mem_cons_of_mem _ member))
        absorbed with ⟨further, final, others, afterReads⟩
      refine ⟨grown.trans further, final, ?_, afterReads⟩
      rw [List.foldlM_cons, step]
      exact others

end Scriptlet
