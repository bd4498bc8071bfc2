import Scriptlet.Proofs.Printing.Expression

/-! Programs that are written out and parsed again. -/

namespace Scriptlet

/-! ## Programs -/

/-- The tokens of a program, with a terminator behind every statement, every opening brace and every
closing one. -/
inductive Restates (given : Symbols) : List Token → List Tree → Prop where
  | nil : Restates given [] []
  | straight {tree : Tree} {program : List Tree} {expression : Expression} {later : List Token}
      (faithful : expression.StandsFor given tree) (position : Position)
      (rest : Restates given later program) :
      Restates given (expression.tokens ++ [.terminator position] ++ later) (tree :: program)
  | control {keyword brace closing : Token} {control : Control} {condition : Tree}
      {body program : List Tree} {expression : Expression} {inside later : List Token}
      (isKeyword : keyword.kind = .control control)
      (faithful : expression.StandsFor given condition) (opens : brace.kind = .openBlock)
      (opened : Position) (inner : Restates given inside body)
      (closes : closing.kind = .closeBlock) (closed : Position)
      (rest : Restates given later program) (place : Position) :
      Restates given
        (keyword :: (expression.tokens ++ [brace]) ++ [.terminator opened] ++
          (inside ++ ([closing] ++ [.terminator closed] ++ later)))
        (.control control condition body place :: program)

theorem Statements.restates {given : Symbols} {program : List Tree}
    (statements : Statements given program) (layout : Layout) {tokens : List Token}
    (laid : Laid tokens (program.flatMap (Tree.lines layout given))) :
    Restates given tokens program := by
  induction statements generalizing tokens with
  | nil =>
      cases laid
      exact .nil
  | straight isExpression _ induction =>
      rw [List.flatMap_cons, Tree.lines_of_isExpression layout isExpression] at laid
      cases laid with
      | @cons words _ _ _ shows position rest =>
          rcases Tree.saidAlone_written layout isExpression words shows with
            ⟨expression, rfl, _, faithful⟩
          rw [List.append_cons]
          exact .straight faithful position (induction rest)
  | control control place isExpression _ _ innerInduction induction =>
      rw [List.flatMap_cons, Tree.lines, List.cons_append, List.append_assoc] at laid
      cases laid with
      | @cons _ _ _ _ shows opened rest =>
          rw [List.forall₂_cons_right_iff] at shows
          rcases shows with ⟨keyword, _, isKeyword, shows, rfl⟩
          rcases exists_append_of_forall₂ shows with ⟨words, _, rfl, shownCondition, shows⟩
          rw [List.forall₂_cons_right_iff] at shows
          rcases shows with ⟨brace, _, opens, nothing, rfl⟩
          cases nothing
          have said := (Tree.saidAlone_written layout isExpression).saidBy.parenthesized
          rcases said words shownCondition with ⟨expression, rfl, _, faithful⟩
          rcases rest.exists_append with ⟨inside, _, rfl, laidInside, laidRest⟩
          cases laidRest with
          | @cons _ _ _ _ shows closed laidLater =>
              rw [List.forall₂_cons_right_iff] at shows
              rcases shows with ⟨closing, _, closes, nothing, rfl⟩
              cases nothing
              have whole := Restates.control isKeyword.1 faithful opens.1 opened
                (innerInduction laidInside) closes.1 closed (induction laidLater) place
              simpa using whole

section

variable {given : Symbols} {tokens : List Token} {program : List Tree}

theorem Restates.closed (restates : Restates given tokens program) : Closed tokens := by
  induction restates with
  | nil => exact fun _ none => nomatch none
  | straight _ position _ induction => exact (closed_line _ position).append induction
  | control _ _ _ opened _ _ closed _ _ inner induction =>
      apply (closed_line _ opened).append
      exact inner.append ((closed_line _ closed).append induction)

theorem Restates.separate_eq (restates : Restates given tokens program) :
    separate tokens = tokens := by
  have nothing : ∀ last ∈ (none : Option Token), last.Awaits := fun _ none => nomatch none
  induction restates with
  | nil => rfl
  | @straight _ _ expression _ _ position _ induction =>
      rcases expression.separateAfter_tokens nothing with ⟨last, complete, kept⟩
      have line : separate (expression.tokens ++ [.terminator position]) =
          expression.tokens ++ [.terminator position] := by
        rw [separate, kept,
          separateAfter_terminator (Kind.ne_terminator_of_closesOperand complete)]
      rw [separate_append (closed_line _ position), line, induction]
  | @control keyword brace closing _ _ _ _ expression _ _ isKeyword _ opens opened inner closes
      closed _ _ innerInduction induction =>
      have waiting : ∀ last ∈ some keyword, last.Awaits := by
        rintro _ ⟨⟩
        rw [Token.Awaits, isKeyword]
        exact ⟨Kind.noConfusion, rfl⟩
      rcases expression.separateAfter_tokens waiting with ⟨last, complete, kept⟩
      have header : separate (keyword :: (expression.tokens ++ [brace]) ++ [.terminator opened]) =
          keyword :: (expression.tokens ++ [brace]) ++ [.terminator opened] := by
        rw [separate, List.cons_append, List.append_assoc,
          separateAfter_awaits nothing (by rw [isKeyword]; exact Kind.noConfusion), kept,
          List.singleton_append, separateAfter_operand complete
            (by rw [opens]; exact Kind.noConfusion) (by rw [opens]; rfl),
          separateAfter_terminator (by rw [opens]; exact Kind.noConfusion)]
      have footer : separate ([closing] ++ [.terminator closed]) =
          [closing] ++ [.terminator closed] := by
        rw [separate, List.singleton_append,
          separateAfter_awaits nothing (by rw [closes]; exact Kind.noConfusion),
          separateAfter_terminator (by rw [closes]; exact Kind.noConfusion)]
      rw [separate_append (closed_line _ opened), header, separate_append inner.closed,
        innerInduction, separate_append (closed_line _ closed), footer, induction]

end

/-! ## Parsing -/

section

variable {given : Symbols} {tokens : List Token} {program : List Tree}

theorem Restates.balanced (restates : Restates given tokens program) : Balanced tokens := by
  have line (position : Position) : Balanced [.terminator position] :=
    balanced_token Kind.noConfusion Kind.noConfusion
  induction restates with
  | nil => exact balanced_nil
  | @straight _ _ expression _ _ position _ induction =>
      exact (expression.balanced.append (line position)).append induction
  | @control keyword brace closing _ _ _ _ expression inside later isKeyword _ opens opened _ closes
      closed _ _ innerInduction induction =>
      have block := Balanced.block opens ((line opened).append innerInduction) closes
      have lead : Balanced [keyword] := by
        apply balanced_token
        all_goals
          rw [isKeyword]
          exact Kind.noConfusion
      have whole := ((lead.append expression.balanced).append block).append
        ((line closed).append induction)
      simpa using whole

theorem le_foldr_max (measure : Tree → Nat) {body : List Tree} {statement : Tree}
    (member : statement ∈ body) : measure statement ≤ (body.map measure).foldr max 0 :=
  List.le_max_of_le' 0 (List.mem_map_of_mem member) (Nat.le_refl _)

/-- What comes of a keyword, its condition, its block and what follows. -/
theorem outcome_statementsOf_block {limit depth : Nat} (deeper : depth < limit)
    {keyword brace closing : Token} {control : Control}
    (isKeyword : keyword.kind = .control control) {expression : Expression}
    (grouped : expression.Grouped none) (fits : expression.depth ≤ limit)
    (opens : brace.kind = .openBlock) (opened : Position) {inside later : List Token}
    (balanced : Balanced inside) (closes : closing.kind = .closeBlock) (closed : Position)
    {symbols middle final : Symbols} {body following : List Tree}
    (bodyParsed : (statementsOf limit (depth + 1) inside).outcome (expression.tree symbols).2 =
      .ok (body, middle))
    (laterParsed : (statementsOf limit depth later).outcome middle = .ok (following, final)) :
    (statementsOf limit depth (keyword :: (expression.tokens ++ [brace]) ++ [.terminator opened] ++
      (inside ++ ([closing] ++ [.terminator closed] ++ later)))).outcome symbols =
      .ok (.control control (expression.tree symbols).1 body keyword.position :: following,
        final) := by
  have none : Straight [] := fun _ none => nomatch none
  have regroup : keyword :: (expression.tokens ++ [brace]) ++ [.terminator opened] ++
      (inside ++ ([closing] ++ [.terminator closed] ++ later)) =
        [] ++ keyword :: (expression.tokens ++ brace ::
          (.terminator opened :: inside ++ closing :: .terminator closed :: later)) := by
    simp
  have isControl : keyword.kind.isControl := by
    rw [isKeyword]
    rfl
  have sameControl : keyword.controlOf = control := by
    rw [Token.controlOf, isKeyword]
    cases control <;> rfl
  have condition : (soleCondition limit keyword expression.tokens).outcome symbols =
      .ok (expression.tree symbols) := by
    rw [soleCondition, Parse.outcome_bind_of_ok (expression.outcome_condition grouped fits symbols)]
    rfl
  have terminatorBalanced : Balanced [.terminator opened] :=
    balanced_token Kind.noConfusion Kind.noConfusion
  have block : (governed limit depth keyword (expression.tokens ++ brace ::
      (.terminator opened :: inside ++ closing :: .terminator closed :: later))).outcome symbols =
        .ok ((.control control (expression.tree symbols).1 body keyword.position,
          .terminator closed :: later), middle) := by
    rw [governed_eq_ok]
    refine ⟨deeper, expression.tokens, brace, _, .terminator opened :: inside, _, _, body,
      splitAtOpen_of_forall (fun token => expression.not_bounds_of_mem) opens,
      (terminatorBalanced.append balanced).splitAtClose closes _, condition, ?_, ?_⟩
    · rw [outcome_statementsOf_terminator]
      exact bodyParsed
    · rw [sameControl]
  rw [regroup, statementsOf_control limit depth none isControl, Parse.outcome_bind_of_ok rfl,
    Parse.outcome_bind_of_ok block, Parse.outcome_bind_of_ok
      ((outcome_statementsOf_terminator limit depth closed later middle).trans laterParsed)]
  rfl

/-- What comes of tokens that restate a program. -/
theorem Restates.parsed (restates : Restates given tokens program) {limit depth : Nat}
    (shallow : ∀ tree ∈ program, tree.expressionDepth ≤ limit)
    (nested : ∀ tree ∈ program, depth + tree.blockDepth ≤ limit) (symbols : Symbols) :
    ∃ parsed final, (statementsOf limit depth tokens).outcome symbols = .ok (parsed, final) ∧
      symbols.Extends final ∧
      ∀ later, final.Extends later → List.Forall₂ (Tree.Matches given later) program parsed := by
  have none : Straight [] := fun _ none => nomatch none
  induction restates generalizing depth symbols with
  | nil =>
      refine ⟨[], symbols, ?_, .refl symbols, fun _ _ => .nil⟩
      rw [statementsOf_straight limit depth none]
      rfl
  | @straight tree _ expression _ faithful position rest induction =>
      rcases List.forall_mem_cons.mp shallow with ⟨here, others⟩
      rcases List.forall_mem_cons.mp nested with ⟨_, othersNested⟩
      have fits : expression.depth ≤ limit := by rwa [faithful.depth]
      have whole := outcome_statementsOf_append (closed_line _ position)
        (expression.unended.append (unended_token Kind.noConfusion))
        (Expression.outcome_line faithful.grouped fits symbols depth position)
      rcases induction others othersNested (expression.tree symbols).2 with
        ⟨parsed, final, restParsed, grown, same⟩
      refine ⟨(expression.tree symbols).1 :: parsed, final, ?_,
        (expression.extends_tree symbols).trans grown, ?_⟩
      · rw [whole, restParsed]
        rfl
      · intro later further
        exact .cons (faithful.same symbols later (grown.trans further)) (same later further)
  | @control keyword brace closing control condition body _ expression inside later isKeyword
      faithful opens opened inner closes closed rest place innerInduction induction =>
      rcases List.forall_mem_cons.mp shallow with ⟨here, others⟩
      rcases List.forall_mem_cons.mp nested with ⟨hereNested, othersNested⟩
      rw [Tree.expressionDepth] at here
      rw [Tree.blockDepth] at hereNested
      have fits : expression.depth ≤ limit := by
        rw [faithful.depth]
        omega
      have innerShallow : ∀ statement ∈ body, statement.expressionDepth ≤ limit := by
        intro statement member
        have level := le_foldr_max Tree.expressionDepth member
        omega
      have innerNested : ∀ statement ∈ body, depth + 1 + statement.blockDepth ≤ limit := by
        intro statement member
        have level := le_foldr_max Tree.blockDepth member
        omega
      rcases innerInduction innerShallow innerNested (expression.tree symbols).2 with
        ⟨parsedBody, middle, bodyParsed, bodyGrown, bodySame⟩
      rcases induction others othersNested middle with
        ⟨parsed, final, restParsed, grown, same⟩
      have grownBefore := (expression.extends_tree symbols).trans (bodyGrown.trans grown)
      refine ⟨_, final, outcome_statementsOf_block (by omega) isKeyword faithful.grouped fits opens
        opened inner.balanced closes closed bodyParsed restParsed, grownBefore, ?_⟩
      intro later further
      refine .cons (.control control place keyword.position ?_ ?_) (same later further)
      · exact faithful.same symbols later (bodyGrown.trans (grown.trans further))
      · exact bodySame later (grown.trans further)

end

/-- Parsing undoes printing. However a program is laid out, its text is accepted within its own
depth, from any tables, and gives the same trees; every string and every name is found under its new
handle. -/
theorem programOfSource_source (layout : Layout) {given : Symbols} {program : List Tree}
    (statements : ∀ tree ∈ program, tree.isStatement given) {limit : Nat}
    (shallow : ∀ tree ∈ program, tree.expressionDepth ≤ limit)
    (nested : ∀ tree ∈ program, tree.blockDepth ≤ limit) (symbols : Symbols) :
    ∃ parsed final, (programOfSource limit (layout.source given program)).runFrom symbols =
        (.ok parsed, final) ∧
      List.Forall₂ (Tree.Matches given final) program parsed := by
  have written := statements_of_isStatement statements
  rcases layout.scanSource_text (written.proper_lines layout) with ⟨tokens, scanned, laid⟩
  have restates := written.restates layout laid
  have nestedHere : ∀ tree ∈ program, 0 + tree.blockDepth ≤ limit := by
    intro tree member
    rw [Nat.zero_add]
    exact nested tree member
  rcases restates.parsed shallow nestedHere symbols with ⟨parsed, final, outcome, _, same⟩
  refine ⟨parsed, final, ?_, same final (.refl final)⟩
  rw [programOfSource, Layout.source, scanned, ← Parse.outcome_eq_ok]
  change (statementsOf limit 0 (separate (tokens ++ [.endOfInput _]))).outcome symbols = _
  rw [separate_append restates.closed, restates.separate_eq]
  exact (outcome_statementsOf_append_end limit 0 rfl tokens symbols).trans outcome

/-- A loop around a conditional with an empty block, from tables that hold nothing yet. -/
theorem programOfSource_source_loop :
    let given : Symbols := ⟨.ofTexts ["go on"], .ofTexts ["x", "step"]⟩
    let nowhere : Position := ⟨0, 0⟩
    let condition := Tree.binary .less (.identifier ⟨0⟩ nowhere) (.decimal "2.5" nowhere) nowhere
    let question := Tree.command .print (.command .input (.string ⟨0⟩ nowhere) nowhere) nowhere
    let assignment := Tree.assign (.identifier ⟨1⟩ nowhere)
      (.unary .negate (.integer "3" nowhere) nowhere) nowhere
    let program := [Tree.control .loop condition
      [.control .conditional (.boolean true nowhere) [] nowhere, question] nowhere, assignment]
    Layout.plain.source given program =
        "while ((x < 2.5)) \x7b\nif (true) \x7b\n\x7d\n(print (input \"go on\"))\n\x7d\n" ++
          "(step := (- 3))\n" ∧
      ∃ parsed final, (programOfSource 3 (Layout.plain.source given program)).runFrom {} =
          (.ok parsed, final) ∧
        List.Forall₂ (Tree.Matches given final) program parsed := by
  intro given nowhere condition question assignment program
  refine ⟨by cbv, ?_⟩
  have statements : program.all (·.isStatement given) = true := by cbv
  have shallow : ∀ tree ∈ program, tree.expressionDepth ≤ 3 := by
    simp [program, condition, question, assignment, Tree.expressionDepth]
  have nested : ∀ tree ∈ program, tree.blockDepth ≤ 3 := by
    simp [program, question, assignment, Tree.blockDepth]
  exact programOfSource_source Layout.plain (List.all_eq_true.mp statements) shallow nested {}

end Scriptlet
