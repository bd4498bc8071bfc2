import Scriptlet.Proofs.Expression.BindingPower

/-! Which statements have a tree, and which tree it is.

Neither putting a statement in post order nor building from it asks whether the statement is an
expression. Yet those that come through are exactly the expressions, apart from empty parentheses,
which leave nothing behind. -/

namespace Scriptlet

/-! ## Statements without a tree -/

/-- Nothing, or nothing in parentheses. -/
inductive Hollow : List Token → Prop where
  | nothing : Hollow []
  | wrapped {opening closing : Token} {inner : List Token} (opens : opening.kind = .openParen)
      (closes : closing.kind = .closeParen) (hollow : Hollow inner) :
      Hollow (opening :: (inner ++ [closing]))

theorem Hollow.take {statement : List Token} (hollow : Hollow statement)
    (table : BindingTable) (state : Arrangement) :
    ∃ previous, statement.foldlM (Arrangement.take table) state =
      .ok ⟨state.output, previous, state.waiting⟩ := by
  induction hollow generalizing state with
  | nothing => exact ⟨state.previous, rfl⟩
  | @wrapped opening closing inner opens closes hollow induction =>
      have openSame : opening.readSign state.previous = opening :=
        Token.readSign_of_kind_ne (by rw [opens]; exact Kind.noConfusion) _
      rcases induction
        ⟨state.output, some opening.kind, opening :: state.waiting⟩ with ⟨previous, inside⟩
      have closeSame : closing.readSign previous = closing :=
        Token.readSign_of_kind_ne (by rw [closes]; exact Kind.noConfusion) _
      have closed : accept table ([] ++ opening :: state.waiting) closing =
          .ok ([], state.waiting) :=
        accept_closeParen table closes opens (by simp) state.waiting
      refine ⟨some closing.kind, ?_⟩
      rw [List.foldlM_cons, Arrangement.take_of_accept (accept_openParen table
        (by rwa [openSame]) _), openSame, List.append_nil]
      change (inner ++ [closing]).foldlM (Arrangement.take table) _ = _
      rw [List.foldlM_append, inside]
      change [closing].foldlM (Arrangement.take table) _ = _
      rw [List.foldlM_cons, Arrangement.take_of_accept (by rw [closeSame]; exact closed), closeSame,
        List.append_nil]
      rfl

theorem Hollow.statementOrder {statement : List Token} (hollow : Hollow statement)
    (table : BindingTable) : Scriptlet.statementOrder table statement = .ok [] := by
  rcases hollow.take table {} with ⟨previous, taken⟩
  rw [Scriptlet.statementOrder, taken]
  rfl

/-- Parentheses alone, none of which opens behind a closing one, are nested. -/
theorem Scanned.hollow_append {statement : List Token} (scanned : Scanned statement)
    (parens : ∀ token ∈ statement, token.isParen) {depth : Nat}
    (matched : parensMatch depth statement) :
    ∃ inner closings, statement = inner ++ closings ∧ Hollow inner ∧ closings.length = depth ∧
      ∀ closing ∈ closings, closing.kind = .closeParen := by
  induction statement generalizing depth with
  | nil =>
      rw [parensMatch, beq_iff_eq] at matched
      exact ⟨[], [], rfl, .nothing, matched.symm, by simp⟩
  | cons next later induction =>
      have rest := @induction scanned.tail fun token member =>
        parens token (List.mem_cons_of_mem _ member)
      have paren := parens next List.mem_cons_self
      simp only [Token.isParen, Bool.or_eq_true, beq_iff_eq] at paren
      rcases paren with opens | closes
      · rw [parensMatch_open opens] at matched
        rcases rest matched with ⟨inner, closings, same, hollow, count, closing⟩
        cases closings with
        | nil => cases count
        | cons first others =>
            refine ⟨next :: (inner ++ [first]), others, ?_, ?_, ?_, ?_⟩
            · rw [same]
              simp
            · exact .wrapped opens (closing first List.mem_cons_self) hollow
            · exact Nat.succ.inj count
            · exact fun token member => closing token (List.mem_cons_of_mem _ member)
      · rw [parensMatch_close closes, Bool.and_eq_true] at matched
        rcases rest matched.2 with ⟨inner, closings, same, hollow, count, closing⟩
        have empty : inner = [] := by
          cases hollow with
          | nothing => rfl
          | wrapped opens =>
              have apart := scanned.head_of_closesOperand (by rw [closes]; rfl) _ (by rw [same]; rfl)
              rw [opens] at apart
              cases apart
        have open' : depth ≠ 0 := by simpa using matched.1
        refine ⟨[], next :: closings, ?_, .nothing, ?_, ?_⟩
        · rw [same, empty]
          rfl
        · rw [List.length_cons, count]
          omega
        · intro token member
          rcases List.mem_cons.mp member with rfl | member
          · exact closes
          · exact closing token member

theorem Scanned.hollow {statement : List Token} (scanned : Scanned statement)
    (parens : ∀ token ∈ statement, token.isParen) (matched : parensMatch 0 statement) :
    Hollow statement := by
  rcases scanned.hollow_append parens matched with ⟨inner, closings, same, hollow, count, _⟩
  rw [List.length_eq_zero_iff.mp count, List.append_nil] at same
  rw [same]
  exact hollow

/-! ## Statements with a tree -/

theorem balance_perm {left right : List Token} (same : left.Perm right) :
    balance left = balance right :=
  (same.map Token.weight).sum_eq

/-- The balance of a statement is that of its post order. -/
theorem balance_statementOrder {table : BindingTable} {statement run : List Token}
    (plain : OneStatement statement) (ordered : statementOrder table statement = .ok run) :
    balance run = balance (readSigns none statement) := by
  rw [← balance_filter_parens run, ← balance_filter_parens (readSigns none statement)]
  exact balance_perm (statementOrder_perm plain ordered)

/-- The operands that a statement leaves when it is complete: none or one. -/
theorem completeStatement_eq_ok {operands : List Operand} {symbols final : Symbols}
    {statement : Option Tree}
    (completed : (completeStatement operands).runFrom symbols = (.ok statement, final)) :
    final = symbols ∧ ((operands = [] ∧ statement = none) ∨
      ∃ only, operands = [only] ∧ statement = some only.tree) := by
  match operands with
  | [] =>
      cases completed
      exact ⟨rfl, .inl ⟨rfl, rfl⟩⟩
  | [only] =>
      cases completed
      exact ⟨rfl, .inr ⟨only, rfl, rfl⟩⟩
  | first :: second :: later =>
      have several : 2 ≤ (first :: second :: later).reverse.length := by simp
      rw [completeStatement] at completed
      match reversed : (first :: second :: later).reverse with
      | [] | [_] =>
          rw [reversed] at several
          simp at several
      | _ :: extra :: _ =>
          rw [reversed] at completed
          cases completed

/-- A statement that comes through has no tree and is hollow, or it has a tree and its operands and
operators take turns. -/
theorem Scanned.statementTree_cases {statement run : List Token} (scanned : Scanned statement)
    (ordered : statementOrder Kind.binding? statement = .ok run) {limit : Nat}
    {symbols final : Symbols} {result : Option Tree}
    (built : (statementTree limit run).runFrom symbols = (.ok result, final)) :
    (result = none ∧ Hollow statement) ∨ (result.isSome ∧ shaped true 0 statement) := by
  have matched : parensMatch 0 statement :=
    (statementOrder_isOk_iff scanned.oneStatement).mp ⟨run, ordered⟩
  rw [statementTree, Parse.runFrom_bind_eq_ok] at built
  rcases built with ⟨operands, middle, absorbed, completed⟩
  rcases length_absorb_all absorbed with ⟨count, noParens, some⟩
  rcases (completeStatement_eq_ok completed).2 with ⟨rfl, rfl⟩ | ⟨only, rfl, rfl⟩
  · refine .inl ⟨rfl, scanned.hollow ?_ matched⟩
    have empty : run = [] := by
      by_contra nonempty
      exact some nonempty rfl
    have same := statementOrder_perm scanned.oneStatement ordered
    rw [empty, List.filter_nil, List.nil_perm, List.filter_eq_nil_iff] at same
    intro token member
    rcases exists_mem_readSigns member none with ⟨previous, read⟩
    rw [← token.isParen_readSign previous]
    simpa using same _ read
  · refine .inr ⟨rfl, ?_⟩
    have due : operandDue none = true := rfl
    apply (scanned.balance_le due matched Bool.noConfusion).2
    rw [← balance_statementOrder scanned.oneStatement ordered]
    simpa using count.symm

theorem Expression.Derives.shaped {statement : List Token} (derives : Derives statement) :
    Scriptlet.shaped true 0 statement := by
  rcases derives with ⟨expression, rfl⟩
  rw [← List.append_nil expression.tokens, expression.shaped_append]
  rfl

theorem Kind.endsStatement_eq_false {kind : Kind}
    (part : kind.isOperand ∨ kind.isUnary ∨ kind.isBinary) : kind.endsStatement = false := by
  cases kind <;> first | rfl | simp [isOperand, isUnary, isBinary] at part

theorem Expression.oneStatement (expression : Expression) : OneStatement expression.tokens := by
  induction expression with
  | operand token isOperand =>
      exact List.forall_mem_singleton.mpr (Kind.endsStatement_eq_false (.inl isOperand))
  | group opening closing opens closes inner induction =>
      have opening : opening.kind.endsStatement = false := by rw [opens]; rfl
      have closing : closing.kind.endsStatement = false := by rw [closes]; rfl
      exact List.forall_mem_cons.mpr
        ⟨opening, List.forall_mem_append.mpr ⟨induction, List.forall_mem_singleton.mpr closing⟩⟩
  | unary operator leads argument induction =>
      have inside : operator.kind.endsStatement = false := by
        rw [← Token.endsStatement_readSign none]
        exact Kind.endsStatement_eq_false (.inr (.inl leads))
      exact List.forall_mem_cons.mpr ⟨inside, induction⟩
  | binary operator isBinary left right leftInduction rightInduction =>
      have inside := Kind.endsStatement_eq_false (.inr (.inr isBinary))
      exact List.forall_mem_append.mpr
        ⟨leftInduction, List.forall_mem_cons.mpr ⟨inside, rightInduction⟩⟩

/-- A statement in which operands and operators take turns gets the tree that it is read as. -/
theorem statement_of_shaped {statement : List Token} (shape : shaped true 0 statement)
    (placed : CommandsLead statement) :
    ∃ expression, Expression.readAll statement = some expression ∧
      expression.tokens = statement ∧ expression.Grouped none ∧
      statementOrder Kind.binding? statement = .ok expression.postOrder := by
  rcases Expression.readAll_of_shaped shape placed with ⟨expression, read, same, grouped⟩
  refine ⟨expression, read, same, grouped, ?_⟩
  rw [← same]
  exact expression.statementOrder_tokens grouped

/-- One statement and its terminator. -/
theorem straightStatements_closed {statement : List Token} (plain : OneStatement statement)
    {closing : Token} (closes : closing.kind = .terminator) (limit : Nat) :
    straightStatements limit (statement ++ [closing]) =
      Parse.ofExcept (statementOrder Kind.binding? statement) >>= fun run =>
        statementTree limit run >>= fun result => return result.toList := by
  have nothing : statementsIn [] = [[]] := statementsIn_statement (fun _ none => nomatch none)
  have empty : statementOrder Kind.binding? [] = .ok [] := rfl
  rw [straightStatements_eq, statementsIn_terminator plain closes, nothing]
  cases ordered : statementOrder Kind.binding? statement with
  | error error =>
      rw [List.mapM_cons, ordered]
      rfl
  | ok run =>
      rw [List.mapM_cons, ordered, List.mapM_cons, empty]
      change [run, []].mapM (statementTree limit) >>= _ = statementTree limit run >>= _
      rw [List.mapM_cons, bind_assoc]
      congr

section

variable {statement : List Token} {closing : Token} {limit : Nat}

theorem straightStatements_of_derives (scanned : Scanned statement)
    (placed : CommandsLead statement) (closes : closing.kind = .terminator)
    (fits : statement.length ≤ limit) (derives : Expression.Derives statement)
    (symbols : Symbols) :
    ∃ expression, Expression.readAll statement = some expression ∧
      expression.tokens = statement ∧ expression.Grouped none ∧
      (straightStatements limit (statement ++ [closing])).runFrom symbols =
        (.ok [(expression.tree symbols).1], (expression.tree symbols).2) := by
  rcases statement_of_shaped derives.shaped placed with
    ⟨expression, read, same, grouped, ordered⟩
  refine ⟨expression, read, same, grouped, ?_⟩
  have shallow : expression.depth ≤ limit := by
    apply Nat.le_trans expression.depth_le_length
    rwa [same]
  rw [straightStatements_closed scanned.oneStatement closes, ordered, Parse.runFrom_bind,
    Parse.runFrom_ofExcept]
  exact Parse.runFrom_bind_of_ok (expression.statementTree_postOrder shallow symbols) _

theorem straightStatements_of_hollow (scanned : Scanned statement)
    (closes : closing.kind = .terminator) (hollow : Hollow statement) (symbols : Symbols) :
    (straightStatements limit (statement ++ [closing])).runFrom symbols = (.ok [], symbols) := by
  rw [straightStatements_closed scanned.oneStatement closes, hollow.statementOrder]
  rfl

theorem straightStatements_cases (scanned : Scanned statement) (placed : CommandsLead statement)
    (closes : closing.kind = .terminator) {symbols final : Symbols} {trees : List Tree}
    (parsed : (straightStatements limit (statement ++ [closing])).runFrom symbols =
      (.ok trees, final)) :
    (trees = [] ∧ Hollow statement) ∨ (∃ tree, trees = [tree] ∧ Expression.Derives statement) := by
  rw [straightStatements_closed scanned.oneStatement closes, Parse.runFrom_bind_eq_ok] at parsed
  rcases parsed with ⟨run, _, ordered, parsed⟩
  rw [Parse.runFrom_ofExcept, Prod.mk.injEq] at ordered
  rw [Parse.runFrom_bind_eq_ok] at parsed
  rcases parsed with ⟨result, _, built, rest⟩
  cases rest
  rcases scanned.statementTree_cases ordered.1 built with ⟨rfl, hollow⟩ | ⟨found, shape⟩
  · exact .inl ⟨rfl, hollow⟩
  · rcases Option.isSome_iff_exists.mp found with ⟨tree, rfl⟩
    rcases statement_of_shaped shape placed with ⟨expression, _, same, _⟩
    exact .inr ⟨tree, rfl, expression, same⟩

/-- What comes of one statement. Its tree, if it has one, is that of the expression which the binding
powers give, and there the operand between two operators belongs to the one that the table
prefers. -/
theorem straightStatements_exact (scanned : Scanned statement) (placed : CommandsLead statement)
    (closes : closing.kind = .terminator) (fits : statement.length ≤ limit) (symbols : Symbols) :
    let outcome := (straightStatements limit (statement ++ [closing])).runFrom symbols
    ((∃ tree final, outcome = (.ok [tree], final)) ↔ Expression.Derives statement) ∧
      ((∃ final, outcome = (.ok [], final)) ↔ Hollow statement) ∧
      (¬Expression.Derives statement → ¬Hollow statement →
        ∃ error final, outcome = (.error error, final)) ∧
      ∀ tree final, outcome = (.ok [tree], final) → ∃ expression,
        Expression.readAll statement = some expression ∧ expression.tokens = statement ∧
        expression.Grouped none ∧ expression.tree symbols = (tree, final) := by
  intro outcome
  have sentence := fun derives =>
    straightStatements_of_derives scanned placed closes fits derives symbols
  have inversion {trees : List Tree} {final : Symbols} (parsed : outcome = (.ok trees, final)) :
      (trees = [] ∧ Hollow statement) ∨ (∃ tree, trees = [tree] ∧ Expression.Derives statement) :=
    straightStatements_cases scanned placed closes parsed
  have derives {tree : Tree} {final : Symbols} (parsed : outcome = (.ok [tree], final)) :
      Expression.Derives statement := by
    rcases inversion parsed with ⟨impossible, _⟩ | ⟨_, _, derives⟩
    · cases impossible
    · exact derives
  refine ⟨⟨?_, ?_⟩, ⟨?_, ?_⟩, ?_, ?_⟩
  · rintro ⟨tree, final, parsed⟩
    exact derives parsed
  · intro derives
    rcases sentence derives with ⟨expression, _, _, _, parsed⟩
    exact ⟨_, _, parsed⟩
  · rintro ⟨final, parsed⟩
    rcases inversion parsed with ⟨_, hollow⟩ | ⟨_, impossible, _⟩
    · exact hollow
    · cases impossible
  · intro hollow
    exact ⟨symbols, straightStatements_of_hollow scanned closes hollow symbols⟩
  · intro notSentence notHollow
    rcases found : outcome with ⟨error | trees, final⟩
    · exact ⟨error, final, rfl⟩
    · rcases inversion found with ⟨_, hollow⟩ | ⟨_, _, derives⟩
      · exact absurd hollow notHollow
      · exact absurd derives notSentence
  · intro tree final found
    rcases sentence (derives found) with ⟨expression, read, same, grouped, parsed⟩
    refine ⟨expression, read, same, grouped, ?_⟩
    cases found.symm.trans parsed
    rfl

/-- `print (a := -2 ^ x)` is a statement of this kind. -/
theorem straightStatements_exact_print :
    let statement : List Token :=
      [⟨.command .print, "print", ⟨1, 0⟩⟩, ⟨.openParen, "(", ⟨1, 6⟩⟩, ⟨.identifier, "a", ⟨1, 7⟩⟩,
        ⟨.assign, ":=", ⟨1, 9⟩⟩, ⟨.binary .subtract, "-", ⟨1, 12⟩⟩, ⟨.integer, "2", ⟨1, 13⟩⟩,
        ⟨.binary .power, "^", ⟨1, 15⟩⟩, ⟨.identifier, "x", ⟨1, 17⟩⟩, ⟨.closeParen, ")", ⟨1, 18⟩⟩]
    let closing := Token.terminator ⟨1, 19⟩
    let outcome := (straightStatements 9 (statement ++ [closing])).runFrom {}
    Scanned statement ∧ CommandsLead statement ∧
      ((∃ tree final, outcome = (.ok [tree], final)) ↔ Expression.Derives statement) ∧
      ((∃ final, outcome = (.ok [], final)) ↔ Hollow statement) := by
  intro statement closing outcome
  have scanned : Scanned statement := ⟨by decide, by decide⟩
  have placed : CommandsLead statement := by
    unfold CommandsLead
    decide
  have closes : closing.kind = .terminator := rfl
  have result := straightStatements_exact scanned placed closes (Nat.le_refl 9) {}
  exact ⟨scanned, placed, result.1, result.2.1⟩

end

end Scriptlet
