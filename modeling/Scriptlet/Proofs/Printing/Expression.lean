import Scriptlet.Proofs.Expression.Recognition
import Scriptlet.Proofs.Printing.Tree

/-! Written trees read back as expressions. In parentheses an expression stands for the same
wherever it is written. -/

namespace Scriptlet

namespace Expression

theorem not_bounds_of_mem (expression : Expression) {token : Token}
    (member : token ∈ expression.tokens) : token.bounds = false := by
  induction expression with
  | operand operand isOperand =>
      rw [List.mem_singleton.mp member]
      exact Token.not_bounds (.inl isOperand)
  | group opening closing opens closes inner induction =>
      rw [tokens, List.mem_cons, List.mem_append, List.mem_singleton] at member
      rcases member with rfl | member | rfl
      · apply Token.bounds_of_isParen
        simp [Token.isParen, opens]
      · exact induction member
      · apply Token.bounds_of_isParen
        simp [Token.isParen, closes]
  | unary operator leads argument induction =>
      rw [tokens, List.mem_cons] at member
      rcases member with rfl | member
      · rw [← Token.bounds_readSign none]
        exact Token.not_bounds (.inr (.inl leads))
      · exact induction member
  | binary operator isBinary left right leftInduction rightInduction =>
      rw [tokens, List.mem_append, List.mem_cons] at member
      rcases member with member | rfl | member
      · exact leftInduction member
      · exact Token.not_bounds (.inr (.inr isBinary))
      · exact rightInduction member

theorem extends_tree (expression : Expression) (symbols : Symbols) :
    symbols.Extends (expression.tree symbols).2 := by
  induction expression generalizing symbols with
  | operand token isOperand => exact token.extends_leaf symbols
  | group _ _ _ _ inner induction => exact induction symbols
  | unary _ _ argument induction => exact induction symbols
  | binary _ _ left right leftInduction rightInduction =>
      exact (leftInduction symbols).trans (rightInduction _)

/-- An expression that needs no operator around it to wait, and leaves none waiting. -/
def Contained (expression : Expression) : Prop :=
  (∀ holder, expression.Grouped holder) ∧ expression.pending = []

/-- An expression for the same as a tree. -/
structure StandsFor (given : Symbols) (tree : Tree) (expression : Expression) : Prop where
  grouped : expression.Grouped none
  depth : expression.depth = tree.expressionDepth
  same : ∀ symbols final, (expression.tree symbols).2.Extends final →
    tree.Matches given final (expression.tree symbols).1

end Expression

theorem exists_append_of_forall₂ {relates : α → β → Prop} {items : List α} {first second : List β}
    (related : List.Forall₂ relates items (first ++ second)) :
    ∃ before after, items = before ++ after ∧ List.Forall₂ relates before first ∧
      List.Forall₂ relates after second :=
  ⟨items.take first.length, items.drop first.length, (List.take_append_drop _ _).symm,
    List.forall₂_take_append _ _ _ related, List.forall₂_drop_append _ _ _ related⟩

/-- Lexemes whose tokens are an expression for the same as a tree. -/
def SaidBy (given : Symbols) (tree : Tree) (lexemes : List Lexeme) : Prop :=
  ∀ words, List.Forall₂ Token.Shows words lexemes →
    ∃ expression : Expression, expression.tokens = words ∧ expression.StandsFor given tree

/-- Lexemes of which that is true wherever they stand. -/
def SaidAlone (given : Symbols) (tree : Tree) (lexemes : List Lexeme) : Prop :=
  ∀ words, List.Forall₂ Token.Shows words lexemes →
    ∃ expression : Expression, expression.tokens = words ∧ expression.Contained ∧
      expression.StandsFor given tree

section

variable {given : Symbols} {tree : Tree}

theorem SaidAlone.saidBy {lexemes : List Lexeme} (said : SaidAlone given tree lexemes) :
    SaidBy given tree lexemes := by
  intro words shows
  rcases said words shows with ⟨expression, written, _, faithful⟩
  exact ⟨expression, written, faithful⟩

theorem SaidBy.parenthesized {lexemes : List Lexeme} (said : SaidBy given tree lexemes) :
    SaidAlone given tree (parenthesized lexemes) := by
  intro words shows
  rw [Scriptlet.parenthesized, List.forall₂_cons_right_iff] at shows
  rcases shows with ⟨opening, rest, opens, shows, rfl⟩
  rcases exists_append_of_forall₂ shows with ⟨inner, last, rfl, shownInner, final⟩
  rw [List.forall₂_cons_right_iff] at final
  rcases final with ⟨closing, nothing, closes, empty, rfl⟩
  cases empty
  rcases said inner shownInner with ⟨expression, rfl, faithful⟩
  refine ⟨.group opening closing opens.1 closes.1 expression, rfl, ?_, ?_⟩
  · exact ⟨fun _ => faithful.grouped, rfl⟩
  · exact ⟨faithful.grouped, faithful.depth, faithful.same⟩

theorem Layout.saidAlone_leaf (layout : Layout) {lexeme : Lexeme}
    (isOperand : lexeme.kind.isOperand) (level : tree.expressionDepth = 1)
    (same : ∀ token : Token, token.Shows lexeme → ∀ symbols final,
      (token.leaf symbols).2.Extends final → tree.Matches given final (token.leaf symbols).1) :
    SaidAlone given tree (layout.leaf lexeme) := by
  have alone : SaidAlone given tree [lexeme] := by
    intro words shows
    rw [List.forall₂_cons_right_iff] at shows
    rcases shows with ⟨token, nothing, shown, empty, rfl⟩
    cases empty
    refine ⟨.operand token (by rwa [shown.1]), rfl, ⟨fun _ => trivial, rfl⟩, ?_⟩
    exact ⟨trivial, level.symm, same token shown⟩
  rw [leaf]
  split
  · exact alone.saidBy.parenthesized
  · exact alone

theorem saidBy_between {left right : Tree} {leftLexemes rightLexemes : List Lexeme} {kind : Kind}
    (isBinary : kind.isBinary)
    (level : tree.expressionDepth = max left.expressionDepth right.expressionDepth + 1)
    (node : ∀ operator : Token, operator.kind = kind → ∀ final first second,
      left.Matches given final first → right.Matches given final second →
      tree.Matches given final (operator.between first second))
    (leftSaid : SaidAlone given left leftLexemes) (rightSaid : SaidAlone given right rightLexemes) :
    SaidBy given tree (leftLexemes ++ .sign kind :: rightLexemes) := by
  intro words shows
  rcases exists_append_of_forall₂ shows with ⟨before, rest, rfl, shownLeft, shows⟩
  rw [List.forall₂_cons_right_iff] at shows
  rcases shows with ⟨operator, after, shown, shownRight, rfl⟩
  rcases leftSaid before shownLeft with ⟨first, rfl, ⟨firstGrouped, nothingWaits⟩, firstFaithful⟩
  rcases rightSaid after shownRight with ⟨second, rfl, ⟨secondGrouped, _⟩, secondFaithful⟩
  have isOperator : operator.kind.isBinary := by rwa [shown.1]
  refine ⟨.binary operator isOperator first second, rfl, ?_, ?_, ?_⟩
  · refine ⟨by simp, firstGrouped none, ?_, secondGrouped _⟩
    rw [nothingWaits]
    exact List.forall_mem_nil _
  · rw [level, Expression.depth, firstFaithful.depth, secondFaithful.depth]
  · intro symbols final grown
    apply node operator shown.1
    · exact firstFaithful.same symbols final ((second.extends_tree _).trans grown)
    · exact secondFaithful.same _ final grown

theorem saidBy_over {operand : Tree} {lexemes : List Lexeme} {kind : Kind}
    (leads : ∀ operator : Token, operator.kind = kind → operator.leads)
    (level : tree.expressionDepth = operand.expressionDepth + 1)
    (node : ∀ operator : Token, operator.kind = kind → ∀ final below,
      operand.Matches given final below →
      tree.Matches given final ((operator.readSign none).over below))
    (said : SaidAlone given operand lexemes) : SaidBy given tree (.sign kind :: lexemes) := by
  intro words shows
  rw [List.forall₂_cons_right_iff] at shows
  rcases shows with ⟨operator, rest, shown, shows, rfl⟩
  rcases said rest shows with ⟨argument, rfl, ⟨grouped, _⟩, faithful⟩
  refine ⟨.unary operator (leads operator shown.1) argument, rfl, ?_, ?_, ?_⟩
  · exact ⟨by simp, grouped _⟩
  · rw [level, Expression.depth, faithful.depth]
  · intro symbols final grown
    exact node operator shown.1 final _ (faithful.same symbols final grown)

/-- A written tree is read back as an expression for the same. -/
theorem Tree.saidAlone_written (layout : Layout) {tree : Tree}
    (isExpression : tree.isExpression given) :
    SaidAlone given tree (tree.written layout given) := by
  cases tree with
  | integer text place =>
      refine layout.saidAlone_leaf rfl (by rw [expressionDepth]) ?_
      rintro ⟨kind, _, position⟩ ⟨rfl, rfl⟩ symbols final _
      rw [Lexeme.text, String.ofList_toList]
      exact .integer text place position
  | decimal text place =>
      refine layout.saidAlone_leaf rfl (by rw [expressionDepth]) ?_
      rintro ⟨kind, _, position⟩ ⟨rfl, rfl⟩ symbols final _
      rw [Lexeme.text, String.ofList_toList]
      exact .decimal text place position
  | string handle place =>
      refine layout.saidAlone_leaf rfl (by rw [expressionDepth]) ?_
      rintro ⟨kind, _, position⟩ ⟨rfl, rfl⟩ symbols final grown
      rw [Lexeme.text_quoted, String.ofList_toList] at grown ⊢
      exact .string place position (grown.strings _ _ (symbols.strings.extends_enter _).2)
  | boolean value place =>
      refine layout.saidAlone_leaf rfl (by rw [expressionDepth]) ?_
      rintro ⟨kind, _, position⟩ ⟨rfl, rfl⟩ symbols final _
      cases value with
      | false => exact .boolean false place position
      | true => exact .boolean true place position
  | identifier handle place =>
      refine layout.saidAlone_leaf rfl (by rw [expressionDepth]) ?_
      rintro ⟨kind, _, position⟩ ⟨rfl, rfl⟩ symbols final grown
      rw [Lexeme.text, String.ofList_toList] at grown ⊢
      exact .identifier place position (grown.names _ _ (symbols.names.extends_enter _).2)
  | binary operator left right place =>
      rw [Tree.isExpression, Bool.and_eq_true] at isExpression
      apply SaidBy.parenthesized
      refine saidBy_between rfl (by rw [expressionDepth]) ?_
        (saidAlone_written layout isExpression.1) (saidAlone_written layout isExpression.2)
      rintro ⟨kind, text, position⟩ rfl final first second firstSame secondSame
      exact .binary operator place position firstSame secondSame
  | unary operator operand place =>
      apply SaidBy.parenthesized
      refine saidBy_over ?_ (by rw [expressionDepth]) ?_ (saidAlone_written layout isExpression)
      · rintro ⟨kind, text, position⟩ rfl
        cases operator <;> rfl
      · rintro ⟨kind, text, position⟩ rfl final below same
        cases operator with
        | negate => exact .unary .negate place position same
        | not => exact .unary .not place position same
  | assign target value place =>
      rw [Tree.isExpression, Bool.and_eq_true] at isExpression
      apply SaidBy.parenthesized
      refine saidBy_between rfl (by rw [expressionDepth]) ?_
        (saidAlone_written layout isExpression.1) (saidAlone_written layout isExpression.2)
      rintro ⟨kind, text, position⟩ rfl final first second firstSame secondSame
      exact .assign place position firstSame secondSame
  | command keyword operand place =>
      apply SaidBy.parenthesized
      refine saidBy_over ?_ (by rw [expressionDepth]) ?_ (saidAlone_written layout isExpression)
      · rintro ⟨kind, text, position⟩ rfl
        rfl
      · rintro ⟨kind, text, position⟩ rfl final below same
        exact .command keyword place position same
  | control => cases isExpression

end

/-! ## Boundaries

Nothing has to be separated: every statement stands on lines of its own. -/

/-- Behind the token an operand is still to come. -/
def Token.Awaits (token : Token) : Prop :=
  token.kind ≠ .closeBlock ∧ token.kind.closesOperand = false

theorem separateAfter_awaits {previous : Option Token} (awaits : ∀ last ∈ previous, last.Awaits)
    {token : Token} (notTerminator : token.kind ≠ .terminator) (later : List Token) :
    separateAfter previous (token :: later) = token :: separateAfter (some token) later := by
  apply separateAfter_keep notTerminator
  intro last member
  have waiting := awaits last member
  apply Token.not_endsStatementBefore waiting.1
  rw [waiting.2]
  exact fun both => Bool.noConfusion both.1

theorem separateAfter_operand {last : Token} (closes : last.kind.closesOperand) {token : Token}
    (notTerminator : token.kind ≠ .terminator) (continues : token.kind.opensStatement = false)
    (later : List Token) :
    separateAfter (some last) (token :: later) = token :: separateAfter (some token) later := by
  apply separateAfter_keep notTerminator
  rintro _ ⟨⟩
  apply Token.not_endsStatementBefore
  · intro block
    rw [block] at closes
    cases closes
  · rw [continues]
    exact fun both => Bool.noConfusion both.2

theorem Token.awaits_of_leads {token : Token} (leads : token.leads) :
    token.Awaits ∧ token.kind ≠ .terminator := by
  rcases token with ⟨kind, text, position⟩
  cases kind with
  | unary | command | binary => exact ⟨⟨Kind.noConfusion, rfl⟩, Kind.noConfusion⟩
  | _ => cases leads

theorem Token.awaits_of_isBinary {token : Token} (isBinary : token.kind.isBinary) :
    token.Awaits ∧ token.kind ≠ .terminator ∧ token.kind.opensStatement = false := by
  rcases token with ⟨kind, text, position⟩
  cases kind with
  | binary | assign => exact ⟨⟨Kind.noConfusion, rfl⟩, Kind.noConfusion, rfl⟩
  | _ => cases isBinary

theorem Kind.ne_terminator_of_closesOperand {kind : Kind} (closes : kind.closesOperand) :
    kind ≠ .terminator := by
  rintro rfl
  cases closes

/-- An expression is kept as it stands, and the rest comes behind a complete operand. -/
theorem Expression.separateAfter_tokens (expression : Expression) {previous : Option Token}
    (awaits : ∀ last ∈ previous, last.Awaits) :
    ∃ last : Token, last.kind.closesOperand ∧ ∀ later,
      separateAfter previous (expression.tokens ++ later) =
        expression.tokens ++ separateAfter (some last) later := by
  induction expression generalizing previous with
  | operand token isOperand =>
      have closes : token.kind.closesOperand := by simp [Kind.closesOperand, isOperand]
      exact ⟨token, closes,
        separateAfter_awaits awaits (Kind.ne_terminator_of_closesOperand closes)⟩
  | group opening closing opens closes inner induction =>
      have waiting : ∀ last ∈ some opening, last.Awaits := by
        rintro _ ⟨⟩
        rw [Token.Awaits, opens]
        exact ⟨Kind.noConfusion, rfl⟩
      rcases induction waiting with ⟨last, complete, kept⟩
      refine ⟨closing, by rw [closes]; rfl, fun later => ?_⟩
      rw [tokens, List.cons_append, List.append_assoc,
        separateAfter_awaits awaits (by rw [opens]; exact Kind.noConfusion), kept,
        List.singleton_append, separateAfter_operand complete
          (by rw [closes]; exact Kind.noConfusion) (by rw [closes]; rfl)]
      simp
  | unary operator leads argument induction =>
      rcases Token.awaits_of_leads leads with ⟨waits, notTerminator⟩
      have waiting : ∀ last ∈ some operator, last.Awaits := by
        rintro _ ⟨⟩
        exact waits
      rcases induction waiting with ⟨last, complete, kept⟩
      refine ⟨last, complete, fun later => ?_⟩
      rw [tokens, List.cons_append, separateAfter_awaits awaits notTerminator, kept]
      rfl
  | binary operator isBinary left right leftInduction rightInduction =>
      rcases Token.awaits_of_isBinary isBinary with ⟨waits, notTerminator, continues⟩
      have waiting : ∀ last ∈ some operator, last.Awaits := by
        rintro _ ⟨⟩
        exact waits
      rcases leftInduction awaits with ⟨middle, leftComplete, leftKept⟩
      rcases rightInduction waiting with ⟨last, complete, rightKept⟩
      refine ⟨last, complete, fun later => ?_⟩
      rw [tokens, List.append_assoc, List.cons_append, leftKept,
        separateAfter_operand leftComplete notTerminator continues, rightKept, List.append_assoc]
      rfl

/-! ## Parsing -/

namespace Expression

variable (expression : Expression)

theorem straight : Straight expression.tokens := by
  intro token member
  have inside := expression.not_bounds_of_mem member
  rw [Token.bounds, Bool.or_eq_false_iff] at inside
  simpa using inside.2

theorem unended : Unended expression.tokens := by
  intro token member ends
  have inside := expression.oneStatement token member
  rw [ends] at inside
  cases inside

theorem balanced : Balanced expression.tokens := by
  apply balanced_of_forall
  intro token member
  have inside := expression.straight token member
  constructor
  · intro opens
    simp [Token.isStraight, opens] at inside
  · intro closes
    simp [Token.isStraight, closes] at inside

variable {expression} {limit : Nat} (grouped : expression.Grouped none)
  (fits : expression.depth ≤ limit) (symbols : Symbols)

include grouped fits

theorem outcome_condition :
    (straightStatements limit expression.tokens).outcome symbols =
      .ok ([(expression.tree symbols).1], (expression.tree symbols).2) := by
  rw [Parse.outcome_eq_ok, straightStatements_eq, statementsIn_statement expression.oneStatement,
    List.mapM_cons, expression.statementOrder_tokens grouped]
  change ([expression.postOrder].mapM (statementTree limit) >>= fun statements =>
    return statements.reduceOption).runFrom symbols = _
  rw [List.mapM_cons, bind_assoc,
    Parse.runFrom_bind_of_ok (expression.statementTree_postOrder fits symbols)]
  rfl

theorem outcome_line (depth : Nat) (position : Position) :
    (statementsOf limit depth (expression.tokens ++ [.terminator position])).outcome symbols =
      .ok ([(expression.tree symbols).1], (expression.tree symbols).2) := by
  have straight : Straight (expression.tokens ++ [.terminator position]) := by
    intro token member
    rcases List.mem_append.mp member with member | member
    · exact expression.straight token member
    · rw [List.mem_singleton.mp member]
      rfl
  rw [statementsOf_straight limit depth straight, Parse.outcome_eq_ok,
    straightStatements_closed expression.oneStatement rfl,
    expression.statementOrder_tokens grouped, Parse.runFrom_bind, Parse.runFrom_ofExcept]
  exact Parse.runFrom_bind_of_ok (expression.statementTree_postOrder fits symbols) _

/-- A source that is scanned as one expression has that expression's tree. -/
theorem programOfSource_tokens {source : String} {position : Position} {line : Nat}
    (scanned : scanSource source =
      .ok (expression.tokens ++ [.terminator position] ++ [.endOfInput line])) :
    (programOfSource limit source).runFrom symbols =
      (.ok [(expression.tree symbols).1], (expression.tree symbols).2) := by
  have nothing : ∀ last ∈ (none : Option Token), last.Awaits := fun _ none => nomatch none
  rcases expression.separateAfter_tokens nothing with ⟨last, complete, kept⟩
  have separated : separate (expression.tokens ++ [.terminator position]) =
      expression.tokens ++ [.terminator position] := by
    rw [separate, kept, separateAfter_terminator (Kind.ne_terminator_of_closesOperand complete)]
  rw [programOfSource, scanned, ← Parse.outcome_eq_ok]
  change (statementsOf limit 0 (separate (_ ++ [.endOfInput line]))).outcome symbols = _
  rw [separate_append (closed_line _ position), separated]
  exact (outcome_statementsOf_append_end limit 0 rfl _ symbols).trans
    (outcome_line grouped fits symbols 0 position)

end Expression

end Scriptlet
