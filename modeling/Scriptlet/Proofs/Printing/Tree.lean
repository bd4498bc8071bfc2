import Scriptlet.Proofs.Expression.Grouping
import Scriptlet.Proofs.InOrder
import Scriptlet.Proofs.Printing.Layout

/-! Trees written out in full, with parentheses around every node that has operands, one statement
on each line. -/

namespace Scriptlet

/-! ## Writing -/

/-- The lexeme of a kind that is always written the same way. -/
def Lexeme.sign (kind : Kind) : Lexeme :=
  ⟨kind, kind.label.toList⟩

def parenthesized (lexemes : List Lexeme) : List Lexeme :=
  .sign .openParen :: (lexemes ++ [.sign .closeParen])

/-- A name or a literal. -/
def Layout.leaf (layout : Layout) (lexeme : Lexeme) : List Lexeme :=
  if layout.leaves then parenthesized [lexeme] else [lexeme]

/-- A tree as an expression. A statement that governs a block cannot be written as one. -/
def Tree.written (layout : Layout) (symbols : Symbols) : Tree → List Lexeme
  | integer text _ => layout.leaf ⟨.integer, text.toList⟩
  | decimal text _ => layout.leaf ⟨.decimal, text.toList⟩
  | string handle _ =>
      layout.leaf ⟨.string, Lexeme.quoted (symbols.stringAt handle).toList⟩
  | boolean value _ => layout.leaf ⟨.boolean, (if value then "true" else "false").toList⟩
  | identifier handle _ => layout.leaf ⟨.identifier, (symbols.nameAt handle).toList⟩
  | binary operator left right _ =>
      parenthesized (left.written layout symbols ++
        .sign (.binary operator) :: right.written layout symbols)
  | unary operator operand _ =>
      parenthesized (.sign (Kind.unary operator).written :: operand.written layout symbols)
  | assign target value _ =>
      parenthesized (target.written layout symbols ++
        .sign .assign :: value.written layout symbols)
  | command keyword operand _ =>
      parenthesized (.sign (.command keyword) :: operand.written layout symbols)
  | control _ _ _ _ => []

/-- A tree as a statement, line by line. -/
def Tree.lines (layout : Layout) (symbols : Symbols) : Tree → List (List Lexeme)
  | control keyword condition body _ =>
      (.sign (.control keyword) ::
          (parenthesized (condition.written layout symbols) ++ [.sign .openBlock])) ::
        (body.flatMap (lines layout symbols) ++ [[.sign .closeBlock]])
  | tree => [tree.written layout symbols]

/-- The source text of a program. -/
def Layout.source (layout : Layout) (symbols : Symbols) (program : List Tree) : String :=
  layout.text (program.flatMap (Tree.lines layout symbols))

/-! ## Which trees can be written -/

/-- No block is governed inside of the tree, and its texts have the shape of what they stand for. -/
def Tree.isExpression (symbols : Symbols) : Tree → Bool
  | integer text _ => Lexeme.isInteger text.toList
  | decimal text _ => Lexeme.isDecimal text.toList
  | string handle _ =>
      (symbols.stringAt handle).toList.all fun character => character != '"' && character != '\n'
  | boolean _ _ => true
  | identifier handle _ => Lexeme.isName (symbols.nameAt handle).toList
  | binary _ left right _ => left.isExpression symbols && right.isExpression symbols
  | unary _ operand _ => operand.isExpression symbols
  | assign target value _ => target.isExpression symbols && value.isExpression symbols
  | command _ operand _ => operand.isExpression symbols
  | control _ _ _ _ => false

/-- Blocks are governed only by statements, in other blocks or outside of them. -/
def Tree.isStatement (symbols : Symbols) : Tree → Bool
  | control _ condition body _ =>
      condition.isExpression symbols && (body.map (isStatement symbols)).and
  | tree => tree.isExpression symbols

/-- The levels of the deepest expression. -/
def Tree.expressionDepth : Tree → Nat
  | integer _ _ | decimal _ _ | string _ _ | boolean _ _ | identifier _ _ => 1
  | binary _ left right _ | assign left right _ =>
      max left.expressionDepth right.expressionDepth + 1
  | unary _ operand _ | command _ operand _ => operand.expressionDepth + 1
  | control _ condition body _ =>
      max condition.expressionDepth ((body.map expressionDepth).foldr max 0)

/-- The number of blocks around the innermost statement. -/
def Tree.blockDepth : Tree → Nat
  | control _ _ body _ => (body.map blockDepth).foldr max 0 + 1
  | _ => 0

/-- The same tree somewhere else: only positions and handles may differ, and what a handle stands
for may not. -/
inductive Tree.Matches (given final : Symbols) : Tree → Tree → Prop where
  | integer (text : String) (place other : Position) :
      Matches given final (integer text place) (integer text other)
  | decimal (text : String) (place other : Position) :
      Matches given final (decimal text place) (decimal text other)
  | string {handle found : StringHandle} (place other : Position)
      (same : final.strings.get? found.index = some (given.stringAt handle)) :
      Matches given final (string handle place) (string found other)
  | boolean (value : Bool) (place other : Position) :
      Matches given final (boolean value place) (boolean value other)
  | identifier {handle found : NameHandle} (place other : Position)
      (same : final.names.get? found.index = some (given.nameAt handle)) :
      Matches given final (identifier handle place) (identifier found other)
  | binary (operator : BinaryOperator) {left right left' right' : Tree} (place other : Position)
      (leftSame : Matches given final left left') (rightSame : Matches given final right right') :
      Matches given final (binary operator left right place) (binary operator left' right' other)
  | unary (operator : UnaryOperator) {operand operand' : Tree} (place other : Position)
      (same : Matches given final operand operand') :
      Matches given final (unary operator operand place) (unary operator operand' other)
  | assign {target value target' value' : Tree} (place other : Position)
      (targetSame : Matches given final target target')
      (valueSame : Matches given final value value') :
      Matches given final (assign target value place) (assign target' value' other)
  | command (keyword : Command) {operand operand' : Tree} (place other : Position)
      (same : Matches given final operand operand') :
      Matches given final (command keyword operand place) (command keyword operand' other)
  | control (keyword : Control) {condition condition' : Tree} {body body' : List Tree}
      (place other : Position) (conditionSame : Matches given final condition condition')
      (bodySame : List.Forall₂ (Matches given final) body body') :
      Matches given final (control keyword condition body place)
        (control keyword condition' body' other)

/-! ## What is written

Every lexeme is written as its kind is. -/

theorem proper_parenthesized {lexemes : List Lexeme} (proper : ∀ lexeme ∈ lexemes, lexeme.Proper) :
    ∀ lexeme ∈ parenthesized lexemes, lexeme.Proper := by
  intro lexeme member
  rw [parenthesized, List.mem_cons, List.mem_append, List.mem_singleton] at member
  rcases member with rfl | member | rfl
  · exact .bracket rfl
  · exact proper lexeme member
  · exact .bracket rfl

theorem Layout.proper_leaf (layout : Layout) {lexeme : Lexeme} (proper : lexeme.Proper) :
    ∀ selected ∈ layout.leaf lexeme, selected.Proper := by
  have only : ∀ selected ∈ [lexeme], selected.Proper := by
    intro selected member
    rwa [List.mem_singleton.mp member]
  rw [leaf]
  split
  · exact proper_parenthesized only
  · exact only

theorem proper_between {left right : List Lexeme} {sign : Lexeme}
    (leftProper : ∀ lexeme ∈ left, lexeme.Proper) (signProper : sign.Proper)
    (rightProper : ∀ lexeme ∈ right, lexeme.Proper) :
    ∀ lexeme ∈ parenthesized (left ++ sign :: right), lexeme.Proper := by
  apply proper_parenthesized
  intro lexeme member
  rw [List.mem_append, List.mem_cons] at member
  rcases member with member | rfl | member
  · exact leftProper lexeme member
  · exact signProper
  · exact rightProper lexeme member

theorem proper_over {operand : List Lexeme} {sign : Lexeme} (signProper : sign.Proper)
    (operandProper : ∀ lexeme ∈ operand, lexeme.Proper) :
    ∀ lexeme ∈ parenthesized (sign :: operand), lexeme.Proper :=
  @proper_between [] operand sign (fun _ none => nomatch none) signProper operandProper

theorem Lexeme.proper_sign_unary (operator : UnaryOperator) :
    (Lexeme.sign (Kind.unary operator).written).Proper := by
  cases operator with
  | negate => exact .symbol rfl rfl
  | not => exact .symbol rfl rfl

theorem Lexeme.proper_sign_command (keyword : Command) :
    (Lexeme.sign (.command keyword)).Proper := by
  apply Proper.reserved
  cases keyword <;> decide

theorem Lexeme.proper_sign_control (keyword : Control) :
    (Lexeme.sign (.control keyword)).Proper := by
  apply Proper.reserved
  cases keyword <;> decide

section

variable (layout : Layout) {symbols : Symbols}

theorem Tree.proper_written {tree : Tree} (isExpression : tree.isExpression symbols) :
    ∀ lexeme ∈ tree.written layout symbols, lexeme.Proper := by
  cases tree with
  | integer text => exact layout.proper_leaf (.integer isExpression)
  | decimal text => exact layout.proper_leaf (.decimal isExpression)
  | string handle =>
      rw [Tree.isExpression, List.all_eq_true] at isExpression
      simp only [Bool.and_eq_true, bne_iff_ne] at isExpression
      exact layout.proper_leaf (.string (fun character member => (isExpression character member).1)
        fun character member => (isExpression character member).2)
  | boolean value =>
      apply layout.proper_leaf
      apply Lexeme.Proper.reserved
      cases value <;> decide
  | identifier handle => exact layout.proper_leaf (.name isExpression)
  | binary operator left right =>
      rw [Tree.isExpression, Bool.and_eq_true] at isExpression
      exact proper_between (proper_written isExpression.1) (.symbol rfl rfl)
        (proper_written isExpression.2)
  | unary operator operand =>
      exact proper_over (Lexeme.proper_sign_unary operator) (proper_written isExpression)
  | assign target value =>
      rw [Tree.isExpression, Bool.and_eq_true] at isExpression
      exact proper_between (proper_written isExpression.1) (.symbol rfl rfl)
        (proper_written isExpression.2)
  | command keyword operand =>
      exact proper_over (Lexeme.proper_sign_command keyword) (proper_written isExpression)
  | control => cases isExpression

end

/-- Statements one after the other, each an expression or the keyword of a block. -/
inductive Statements (symbols : Symbols) : List Tree → Prop where
  | nil : Statements symbols []
  | straight {tree : Tree} {program : List Tree} (isExpression : tree.isExpression symbols)
      (later : Statements symbols program) : Statements symbols (tree :: program)
  | control {condition : Tree} {body program : List Tree} (keyword : Control) (position : Position)
      (isExpression : condition.isExpression symbols) (inner : Statements symbols body)
      (later : Statements symbols program) :
      Statements symbols (.control keyword condition body position :: program)

theorem Tree.isStatement_cases {symbols : Symbols} {tree : Tree}
    (isStatement : tree.isStatement symbols) :
    tree.isExpression symbols ∨
      ∃ keyword condition body position, tree = .control keyword condition body position ∧
        condition.isExpression symbols ∧ ∀ statement ∈ body, statement.isStatement symbols := by
  cases tree with
  | control keyword condition body position =>
      rw [Tree.isStatement, Bool.and_eq_true, List.and, List.all_map, List.all_eq_true]
        at isStatement
      exact .inr ⟨keyword, condition, body, position, rfl, isStatement⟩
  | _ =>
      rw [Tree.isStatement] at isStatement
      · exact .inl isStatement
      · exact fun _ _ _ _ => Tree.noConfusion

theorem statements_of_isStatement {symbols : Symbols} {program : List Tree}
    (isStatement : ∀ tree ∈ program, tree.isStatement symbols) : Statements symbols program := by
  cases program with
  | nil => exact .nil
  | cons tree program =>
      rcases List.forall_mem_cons.mp isStatement with ⟨here, others⟩
      have later := statements_of_isStatement others
      rcases Tree.isStatement_cases here with isExpression |
        ⟨keyword, condition, body, position, rfl, isExpression, inside⟩
      · exact .straight isExpression later
      · exact .control keyword position isExpression (statements_of_isStatement inside) later

section

variable (layout : Layout) {symbols : Symbols}

theorem Tree.lines_of_isExpression {tree : Tree} (isExpression : tree.isExpression symbols) :
    tree.lines layout symbols = [tree.written layout symbols] := by
  cases tree with
  | control => cases isExpression
  | _ =>
      rw [lines]
      exact fun _ _ _ _ => Tree.noConfusion

theorem Statements.proper_lines {program : List Tree} (statements : Statements symbols program) :
    ∀ lexemes ∈ program.flatMap (Tree.lines layout symbols),
      ∀ lexeme ∈ lexemes, lexeme.Proper := by
  induction statements with
  | nil => exact fun _ none => nomatch none
  | straight isExpression _ induction =>
      intro lexemes member
      rw [List.flatMap_cons, Tree.lines_of_isExpression layout isExpression, List.mem_append,
        List.mem_singleton] at member
      rcases member with rfl | member
      · exact Tree.proper_written layout isExpression
      · exact induction lexemes member
  | control keyword position isExpression _ _ inner induction =>
      intro lexemes member
      rw [List.flatMap_cons, Tree.lines, List.mem_append, List.mem_cons, List.mem_append,
        List.mem_singleton] at member
      rcases member with (rfl | member | rfl) | member
      · intro lexeme within
        rw [List.mem_cons, List.mem_append, List.mem_singleton] at within
        rcases within with rfl | within | rfl
        · exact Lexeme.proper_sign_control keyword
        · exact proper_parenthesized (Tree.proper_written layout isExpression) lexeme within
        · exact .bracket rfl
      · exact inner lexemes member
      · intro lexeme within
        rw [List.mem_singleton.mp within]
        exact .bracket rfl
      · exact induction lexemes member

end

end Scriptlet
