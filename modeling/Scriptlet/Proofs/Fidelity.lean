import Scriptlet.Proofs.Lines
import Scriptlet.Proofs.Regrouping

/-! What a program keeps of the order in which its source is written. -/

namespace Scriptlet

/-! ## Statements as they are written -/

/-- What stands between one boundary and the next. -/
def pieces (tokens : List Token) : List (List Token) :=
  tokens.splitOnP Token.bounds

/-- The straight statements and the conditions of a token sequence. Nothing but parentheses is no
statement. -/
def writtenStatements (tokens : List Token) : List (List Token) :=
  (pieces tokens).filter (·.any (!·.isParen))

theorem writtenStatements_append {boundary : Token} (bounds : boundary.bounds)
    (before after : List Token) :
    writtenStatements (before ++ boundary :: after) =
      writtenStatements before ++ writtenStatements after := by
  rw [writtenStatements, pieces, List.splitOnP_append_cons _ _ bounds, List.filter_append]
  rfl

theorem writtenStatements_single {statement : List Token}
    (inside : ∀ token ∈ statement, token.bounds = false) :
    writtenStatements statement = [statement].filter (·.any (!·.isParen)) := by
  rw [writtenStatements, pieces, List.splitOnP_eq_singleton inside]

/-- An end mark can only be the last token. -/
def EndsLast (tokens : List Token) : Prop :=
  tokens.Pairwise fun earlier _ => earlier.kind ≠ .endOfInput

theorem EndsLast.eq_nil {closing : Token} {before after : List Token}
    (ends : EndsLast (before ++ closing :: after)) (closes : closing.kind = .endOfInput) :
    after = [] := by
  have rest := (List.pairwise_append.mp ends).2.1
  cases after with
  | nil => rfl
  | cons next later =>
      exact absurd closes ((List.pairwise_cons.mp rest).1 next List.mem_cons_self)

theorem EndsLast.of_append {before after : List Token} (ends : EndsLast (before ++ after)) :
    EndsLast before ∧ EndsLast after :=
  ⟨(List.pairwise_append.mp ends).1, (List.pairwise_append.mp ends).2.1⟩

/-- In tokens without a block the written statements are the statements. -/
theorem writtenStatements_eq {tokens : List Token} (ends : EndsLast tokens)
    (inside : ∀ statement ∈ statementsIn tokens, ∀ token ∈ statement, token.bounds = false) :
    writtenStatements tokens = (statementsIn tokens).filter (·.any (!·.isParen)) := by
  induction tokens using statements_induction with
  | last statement plain =>
      rw [statementsIn_statement plain] at inside ⊢
      exact writtenStatements_single (inside statement List.mem_cons_self)
  | ended statement closing later plain closes =>
      have bounds : closing.bounds := by simp [Token.bounds, Kind.endsStatement, closes]
      cases ends.eq_nil closes
      rw [statementsIn_end plain closes] at inside ⊢
      rw [writtenStatements_append bounds,
        writtenStatements_single (inside statement List.mem_cons_self)]
      exact List.append_nil _
  | closed statement closing later plain closes induction =>
      have bounds : closing.bounds := by simp [Token.bounds, Kind.endsStatement, closes]
      rw [statementsIn_terminator plain closes] at inside ⊢
      rw [writtenStatements_append bounds,
        writtenStatements_single (inside statement List.mem_cons_self),
        induction ends.of_append.2.of_cons
          fun selected member => inside selected (List.mem_cons_of_mem _ member),
        ← List.filter_append, List.singleton_append]

/-! ## Statements as they are parsed -/

/-- The straight statements and the conditions in a tree. -/
def Tree.straights : Tree → List Tree
  | control _ condition body _ => condition :: body.flatMap straights
  | tree => [tree]

/-- The tree of a statement, read with tables that hold at least what it entered. -/
def ParsedFrom (final : Symbols) (tree : Tree) (statement : List Token) : Prop :=
  ∃ limit run symbols later, statementOrder Kind.binding? statement = .ok run ∧
    (statementTree limit run).runFrom symbols = (.ok (some tree), later) ∧ later.Extends final

/-- A tree that governs no block. -/
def Tree.isStraight (tree : Tree) : Prop :=
  tree.straights = [tree]

theorem Token.isStraight_leaf (token : Token) (symbols : Symbols) :
    (token.leaf symbols).1.isStraight := by
  rcases token with ⟨kind, text, position⟩
  cases kind <;> simp [leaf, Tree.isStraight, Tree.straights]

theorem Token.isStraight_over {token : Token} (isUnary : token.kind.isUnary) (operand : Tree) :
    (token.over operand).isStraight := by
  rcases token with ⟨kind, text, position⟩
  cases kind with
  | unary | command => simp [Token.over, Tree.isStraight, Tree.straights]
  | _ => cases isUnary

theorem Token.isStraight_between (token : Token) (left right : Tree) :
    (token.between left right).isStraight := by
  rcases token with ⟨kind, text, position⟩
  cases kind <;> simp [between, Tree.isStraight, Tree.straights]

theorem absorb_keeps {limit : Nat} {operands after : List Operand} {token : Token}
    {symbols later : Symbols}
    (absorbed : (absorb limit operands token).runFrom symbols = (.ok after, later))
    (straight : ∀ operand ∈ operands, operand.tree.isStraight) :
    symbols.Extends later ∧ token.bounds = false ∧
      ∀ operand ∈ after, operand.tree.isStraight := by
  rcases absorb_cases absorbed with ⟨isOperand, rfl, rfl⟩ |
    ⟨isUnary, rfl, operand, below, rfl, rfl⟩ | ⟨isBinary, rfl, right, left, below, rfl, rfl⟩
  · refine ⟨token.extends_leaf symbols, Token.not_bounds (.inl isOperand), ?_⟩
    intro selected member
    rcases List.mem_cons.mp member with rfl | member
    · exact token.isStraight_leaf symbols
    · exact straight selected member
  · refine ⟨.refl _, Token.not_bounds (.inr (.inl isUnary)), ?_⟩
    intro selected member
    rcases List.mem_cons.mp member with rfl | member
    · exact Token.isStraight_over isUnary operand.tree
    · exact straight selected (List.mem_cons_of_mem _ member)
  · refine ⟨.refl _, Token.not_bounds (.inr (.inr isBinary)), ?_⟩
    intro selected member
    rcases List.mem_cons.mp member with rfl | member
    · exact token.isStraight_between left.tree right.tree
    · exact straight selected (List.mem_cons_of_mem _ (List.mem_cons_of_mem _ member))

theorem absorb_all_keeps {limit : Nat} {run : List Token} {operands after : List Operand}
    {symbols later : Symbols}
    (absorbed : (run.foldlM (absorb limit) operands).runFrom symbols = (.ok after, later))
    (straight : ∀ operand ∈ operands, operand.tree.isStraight) :
    symbols.Extends later ∧ (∀ token ∈ run, token.bounds = false) ∧
      ∀ operand ∈ after, operand.tree.isStraight := by
  induction run generalizing operands symbols with
  | nil =>
      cases absorbed
      exact ⟨.refl _, (fun _ none => nomatch none), straight⟩
  | cons token rest induction =>
      rw [List.foldlM_cons, Parse.runFrom_bind_eq_ok] at absorbed
      rcases absorbed with ⟨middle, between, first, absorbed⟩
      rcases absorb_keeps first straight with ⟨grown, here, middleStraight⟩
      rcases induction absorbed middleStraight with ⟨further, others, afterStraight⟩
      refine ⟨grown.trans further, ?_, afterStraight⟩
      intro selected member
      rcases List.mem_cons.mp member with rfl | member
      · exact here
      · exact others selected member

/-- Only parentheses leave nothing in post order. -/
theorem statementOrder_eq_nil_iff {statement run : List Token} (plain : OneStatement statement)
    (ordered : statementOrder Kind.binding? statement = .ok run)
    (noParens : ∀ token ∈ run, token.isParen = false) :
    run = [] ↔ statement.any (!·.isParen) = false := by
  have same := statementOrder_perm plain ordered
  rw [List.any_eq_false]
  constructor
  · rintro rfl
    rw [List.filter_nil, List.nil_perm, List.filter_eq_nil_iff] at same
    intro token member
    rcases exists_mem_readSigns member none with ⟨previous, read⟩
    rw [← token.isParen_readSign previous]
    exact same _ read
  · intro parens
    rw [List.eq_nil_iff_forall_not_mem]
    intro token member
    have kept := same.mem_iff.mp (List.mem_filter.mpr ⟨member, by simp [noParens token member]⟩)
    rcases exists_of_mem_readSigns (List.mem_filter.mp kept).1 with ⟨original, within, sign, rfl⟩
    have paren := parens original within
    rw [← original.isParen_readSign sign, noParens _ member] at paren
    exact paren rfl

/-- What comes of a statement that is accepted: the tables only grow, no boundary is inside it, and
it has a tree exactly if there is more to it than parentheses. -/
theorem statementTree_keeps {limit : Nat} {statement run : List Token}
    (plain : OneStatement statement) (ordered : statementOrder Kind.binding? statement = .ok run)
    {symbols later : Symbols} {result : Option Tree}
    (built : (statementTree limit run).runFrom symbols = (.ok result, later)) :
    symbols.Extends later ∧ (∀ token ∈ statement, token.bounds = false) ∧
      (∀ tree ∈ result, tree.isStraight) ∧
      result.isSome = statement.any (!·.isParen) := by
  rw [statementTree, Parse.runFrom_bind_eq_ok] at built
  rcases built with ⟨operands, middle, absorbed, completed⟩
  rcases absorb_all_keeps absorbed (List.forall_mem_nil _) with ⟨grown, inside, straight⟩
  rcases length_absorb_all absorbed with ⟨_, noParens, some⟩
  have same := statementOrder_perm plain ordered
  rcases completeStatement_eq_ok completed with ⟨rfl, done⟩
  refine ⟨grown, ?_, ?_, ?_⟩
  · intro token member
    by_cases paren : token.isParen
    · exact Token.bounds_of_isParen paren
    · rcases exists_mem_readSigns member none with ⟨previous, read⟩
      rw [← token.bounds_readSign previous]
      apply inside
      have kept : token.readSign previous ∈ (readSigns none statement).filter (!·.isParen) :=
        List.mem_filter.mpr ⟨read, by simpa [Token.isParen_readSign] using paren⟩
      exact (List.mem_filter.mp (same.mem_iff.mpr kept)).1
  · rcases done with ⟨_, rfl⟩ | ⟨only, rfl, rfl⟩
    · intro tree member
      cases member
    · rintro _ ⟨⟩
      exact straight only List.mem_cons_self
  · -- Nothing is left only of nothing.
    have empty := statementOrder_eq_nil_iff plain ordered noParens
    rcases done with ⟨rfl, rfl⟩ | ⟨only, rfl, rfl⟩
    · have nothing : run = [] := by
        by_contra filled
        exact some filled rfl
      exact (empty.mp nothing).symm
    · by_contra different
      have nothing := empty.mpr (by simpa using Ne.symm different)
      rw [nothing] at absorbed
      cases absorbed

/-- Trees and written statements side by side. -/
structure Corresponds (symbols later : Symbols) (trees : List Tree)
    (statements : List (List Token)) : Prop where
  grown : symbols.Extends later
  parsed : ∀ final, later.Extends final → List.Forall₂ (ParsedFrom final) trees statements

theorem Corresponds.nil (symbols : Symbols) : Corresponds symbols symbols [] [] :=
  ⟨.refl _, fun _ _ => .nil⟩

theorem Corresponds.append {symbols middle later : Symbols} {first second : List Tree}
    {before after : List (List Token)} (earlier : Corresponds symbols middle first before)
    (following : Corresponds middle later second after) :
    Corresponds symbols later (first ++ second) (before ++ after) :=
  ⟨earlier.grown.trans following.grown, fun final grown =>
    List.rel_append (earlier.parsed final (following.grown.trans grown))
      (following.parsed final grown)⟩

theorem statements_correspond {limit : Nat} {statements runs : List (List Token)}
    (plain : ∀ statement ∈ statements, OneStatement statement)
    (ordered : statements.mapM (statementOrder Kind.binding?) = .ok runs)
    {symbols later : Symbols} {results : List (Option Tree)}
    (built : (runs.mapM (statementTree limit)).runFrom symbols = (.ok results, later)) :
    Corresponds symbols later results.reduceOption (statements.filter (·.any (!·.isParen))) ∧
      (∀ statement ∈ statements, ∀ token ∈ statement, token.bounds = false) ∧
      ∀ tree ∈ results.reduceOption, tree.isStraight := by
  induction statements generalizing runs symbols results with
  | nil =>
      cases ordered
      cases built
      exact ⟨.nil _, (fun _ none => nomatch none), (fun _ none => nomatch none)⟩
  | cons statement others induction =>
      rw [List.mapM_cons] at ordered
      cases first : statementOrder Kind.binding? statement with
      | error error =>
          rw [first] at ordered
          cases ordered
      | ok run =>
          cases rest : others.mapM (statementOrder Kind.binding?) with
          | error error =>
              rw [first, rest] at ordered
              cases ordered
          | ok following =>
              rw [first, rest] at ordered
              cases ordered
              rw [List.mapM_cons, Parse.runFrom_bind_eq_ok] at built
              rcases built with ⟨result, middle, here, built⟩
              rw [Parse.runFrom_bind_eq_ok] at built
              rcases built with ⟨more, _, there, same⟩
              cases same
              rcases statementTree_keeps (plain statement List.mem_cons_self) first here with
                ⟨grown, inside, straight, filled⟩
              rcases induction (fun selected member =>
                plain selected (List.mem_cons_of_mem _ member)) rest there with
                ⟨correspond, insideOthers, straightOthers⟩
              have both : ∀ selected ∈ statement :: others, ∀ token ∈ selected,
                  token.bounds = false := by
                intro selected member
                rcases List.mem_cons.mp member with rfl | member
                · exact inside
                · exact insideOthers selected member
              cases result with
              | none =>
                  rw [List.filter_cons_of_neg (by simp [← filled])]
                  exact ⟨⟨grown.trans correspond.grown, correspond.parsed⟩, both, straightOthers⟩
              | some tree =>
                  rw [List.filter_cons_of_pos (by simp [← filled])]
                  have single : Corresponds symbols middle [tree] [statement] :=
                    ⟨grown, fun final further =>
                      .cons ⟨limit, run, symbols, middle, first, here, further⟩ .nil⟩
                  refine ⟨single.append correspond, both, ?_⟩
                  intro selected member
                  rcases List.mem_cons.mp member with rfl | member
                  · exact straight selected rfl
                  · exact straightOthers selected member

/-- Every token stands in a statement or closes one. -/
theorem mem_statementsIn {tokens : List Token} (ends : EndsLast tokens) {token : Token}
    (member : token ∈ tokens) :
    token.kind.endsStatement ∨ ∃ statement ∈ statementsIn tokens, token ∈ statement := by
  induction tokens using statements_induction with
  | last statement plain =>
      rw [statementsIn_statement plain]
      exact .inr ⟨statement, List.mem_cons_self, member⟩
  | ended statement closing later plain closes =>
      cases ends.eq_nil closes
      rw [statementsIn_end plain closes]
      rcases List.mem_append.mp member with member | member
      · exact .inr ⟨statement, List.mem_cons_self, member⟩
      · cases List.mem_singleton.mp member
        exact .inl (by rw [closes]; rfl)
  | closed statement closing later plain closes induction =>
      rw [statementsIn_terminator plain closes]
      rcases List.mem_append.mp member with member | member
      · exact .inr ⟨statement, List.mem_cons_self, member⟩
      · rcases List.mem_cons.mp member with rfl | member
        · exact .inl (by rw [closes]; rfl)
        · rcases induction ends.of_append.2.of_cons member with closing | ⟨found, there, inside⟩
          · exact .inl closing
          · exact .inr ⟨found, List.mem_cons_of_mem _ there, inside⟩

/-- Each tree of tokens that have no block is that of a written statement. -/
theorem straightStatements_correspond {limit : Nat} {tokens : List Token} (ends : EndsLast tokens)
    {symbols later : Symbols} {trees : List Tree}
    (parsed : (straightStatements limit tokens).outcome symbols = .ok (trees, later)) :
    Straight tokens ∧ Corresponds symbols later trees (writtenStatements tokens) ∧
      ∀ tree ∈ trees, tree.isStraight := by
  rw [straightStatements_eq, Parse.outcome_bind_eq_ok] at parsed
  rcases parsed with ⟨runs, _, ordered, parsed⟩
  rw [Parse.outcome_eq_ok, Parse.runFrom_ofExcept, Prod.mk.injEq] at ordered
  rcases ordered with ⟨ordered, rfl⟩
  rw [Parse.outcome_bind_eq_ok] at parsed
  rcases parsed with ⟨results, _, built, same⟩
  cases same
  rcases statements_correspond (fun _ member => oneStatement_of_mem_statementsIn member) ordered
    (Parse.outcome_eq_ok.mp built) with ⟨correspond, inside, straight⟩
  rw [writtenStatements_eq ends inside]
  refine ⟨?_, correspond, straight⟩
  intro token member
  rcases mem_statementsIn ends member with closing | ⟨statement, there, within⟩
  · rcases token with ⟨kind, text, position⟩
    cases kind <;> first | rfl | cases closing
  · have bounded := inside statement there token within
    rw [Token.bounds, Bool.or_eq_false_iff] at bounded
    simpa using bounded.2

theorem flatMap_straights {trees : List Tree} (straight : ∀ tree ∈ trees, tree.isStraight) :
    trees.flatMap Tree.straights = trees := by
  induction trees with
  | nil => rfl
  | cons tree later induction =>
      rw [List.flatMap_cons, straight tree List.mem_cons_self,
        induction fun selected member => straight selected (List.mem_cons_of_mem _ member)]
      rfl

theorem soleCondition_eq_ok {limit : Nat} {keyword : Token} {tokens : List Token}
    {symbols later : Symbols} {condition : Tree}
    (parsed : (soleCondition limit keyword tokens).outcome symbols = .ok (condition, later)) :
    (straightStatements limit tokens).outcome symbols = .ok ([condition], later) := by
  rw [soleCondition, Parse.outcome_bind_eq_ok] at parsed
  rcases parsed with ⟨trees, middle, parsed, same⟩
  rcases trees with _ | ⟨only, _ | ⟨_, _⟩⟩
  · cases same
  · cases same
    exact parsed
  · cases same

/-- What a program with a keyword consists of. -/
theorem statementsOf_control_eq_ok {limit depth : Nat} {before after : List Token}
    {keyword : Token} (straight : Straight before) (isControl : keyword.kind.isControl)
    {symbols later : Symbols} {trees : List Tree}
    (parsed : (statementsOf limit depth (before ++ keyword :: after)).outcome symbols =
      .ok (trees, later)) :
    ∃ earlier condition body following tokens brace block closing rest first second third,
      (straightStatements limit before).outcome symbols = .ok (earlier, first) ∧
      (straightStatements limit tokens).outcome first = .ok ([condition], second) ∧
      (statementsOf limit (depth + 1) block).outcome second = .ok (body, third) ∧
      (statementsOf limit depth rest).outcome third = .ok (following, later) ∧
      brace.kind = .openBlock ∧ closing.kind = .closeBlock ∧
      after = tokens ++ brace :: (block ++ closing :: rest) ∧
      trees = earlier ++
        .control keyword.controlOf condition body keyword.position :: following := by
  rw [statementsOf_control limit depth straight isControl, Parse.outcome_bind_eq_ok] at parsed
  rcases parsed with ⟨earlier, first, runParsed, parsed⟩
  rw [Parse.outcome_bind_eq_ok] at parsed
  rcases parsed with ⟨⟨tree, rest⟩, third, blockParsed, parsed⟩
  rw [Parse.outcome_bind_eq_ok] at parsed
  rcases parsed with ⟨following, _, restParsed, same⟩
  cases same
  rcases governed_eq_ok.mp blockParsed with ⟨_, tokens, brace, inside, block, condition, second,
    body, opened, closed, conditionParsed, bodyParsed, rfl⟩
  rcases splitAtOpen_eq_some opened with ⟨rfl, opens, _⟩
  rcases splitAtClose_eq_some closed with ⟨closing, closes, rfl⟩
  exact ⟨earlier, condition, body, following, tokens, brace, block, closing, rest, first, second,
    third, runParsed, soleCondition_eq_ok conditionParsed, bodyParsed, restParsed, opens, closes,
    rfl, rfl⟩

/-- Each straight statement and each condition of a program is that of a written statement, in the
same order. -/
theorem statementsOf_correspond {limit depth : Nat} {tokens : List Token} (ends : EndsLast tokens)
    {symbols later : Symbols} {trees : List Tree}
    (parsed : (statementsOf limit depth tokens).outcome symbols = .ok (trees, later)) :
    Corresponds symbols later (trees.flatMap Tree.straights) (writtenStatements tokens) := by
  induction tokens using program_induction generalizing depth symbols later trees with
  | straight tokens straight =>
      rw [statementsOf_straight limit depth straight] at parsed
      rcases straightStatements_correspond ends parsed with ⟨_, correspond, straightTrees⟩
      rwa [flatMap_straights straightTrees]
  | brace before stop after straight stops notControl =>
      rw [statementsOf_brace limit depth straight stops notControl] at parsed
      cases parsed
  | control before keyword after straight isControl induction =>
      rcases statementsOf_control_eq_ok straight isControl parsed with
        ⟨earlier, condition, body, following, tokens, brace, block, closing, rest, _, _, _,
          runParsed, conditionParsed, bodyParsed, restParsed, opens, closes, rfl, rfl⟩
      have keywordBounds : keyword.bounds := by
        simp [Token.bounds, not_isStraight_of_isControl isControl]
      have braceBounds : brace.bounds := by simp [Token.bounds, Token.isStraight, opens]
      have closingBounds : closing.bounds := by simp [Token.bounds, Token.isStraight, closes]
      have endsAfter := ends.of_append.2.of_cons
      have endsInside := (EndsLast.of_append endsAfter).2.of_cons
      have endsRest := (EndsLast.of_append endsInside).2.of_cons
      rcases straightStatements_correspond ends.of_append.1 runParsed with
        ⟨_, first, straightFirst⟩
      have second :=
        (straightStatements_correspond (EndsLast.of_append endsAfter).1 conditionParsed).2.1
      have third := induction block (by simp only [List.length_append, List.length_cons]; omega)
        (EndsLast.of_append endsInside).1 bodyParsed
      have fourth := induction rest (by simp only [List.length_append, List.length_cons]; omega)
        endsRest restParsed
      rw [writtenStatements_append keywordBounds, writtenStatements_append braceBounds,
        writtenStatements_append closingBounds, List.flatMap_append, List.flatMap_cons,
        flatMap_straights straightFirst, Tree.straights]
      exact first.append (second.append (third.append fourth))

/-! ## Sources -/

/-- A piece is a stretch of the sequence without a boundary. -/
theorem exists_of_mem_pieces {tokens piece : List Token} (member : piece ∈ pieces tokens) :
    (∃ before after, tokens = before ++ piece ++ after) ∧
      ∀ token ∈ piece, token.bounds = false := by
  have inside : ∀ token ∈ tokens.takeWhile (!·.bounds), token.bounds = false := by
    intro token member
    simpa using List.mem_takeWhile_imp member
  have whole := List.takeWhile_append_dropWhile (p := fun t : Token => !t.bounds) (l := tokens)
  cases found : tokens.dropWhile (!·.bounds) with
  | nil =>
      rw [found, List.append_nil] at whole
      rw [whole] at inside
      rw [pieces, List.splitOnP_eq_singleton inside, List.mem_singleton] at member
      exact ⟨⟨[], [], by simp [member]⟩, member ▸ inside⟩
  | cons boundary later =>
      have bounds := List.head?_dropWhile_not (fun t : Token => !t.bounds) tokens
      rw [found] at whole bounds
      rw [pieces, ← whole,
        List.splitOnP_append_cons_of_forall_mem inside _ (by simpa using bounds)] at member
      rcases List.mem_cons.mp member with rfl | member
      · exact ⟨⟨[], boundary :: later, by rw [List.nil_append, whole]⟩, inside⟩
      · rcases exists_of_mem_pieces member with ⟨⟨before, after, same⟩, bounded⟩
        refine ⟨⟨tokens.takeWhile (!·.bounds) ++ boundary :: before, after, ?_⟩, bounded⟩
        conv_lhs => rw [← whole, same]
        simp
termination_by tokens.length
decreasing_by exact length_lt_of_dropWhile_eq_cons found

theorem Kind.isScanned_of_isLexical {token : Token} (lexical : token.kind.isLexical)
    (inside : token.bounds = false) : token.kind.isScanned := by
  rcases token with ⟨kind, text, position⟩
  cases kind with
  | unary operator => cases operator <;> first | rfl | cases lexical
  | blank => cases lexical
  | _ => first | rfl | cases inside

/-- The tokens of a source are those of its lines and an end mark. -/
theorem scanSource_eq_ok {source : String} {tokens : List Token}
    (read : scanSource source = .ok tokens) :
    ∃ lines line, scanEach 0 (linesOf source) = .ok lines ∧
      tokens = lines ++ [.endOfInput line] := by
  rw [scanSource, scanLines_eq] at read
  cases scanned : scanEach 0 (linesOf source) with
  | error error =>
      rw [scanned] at read
      cases read
  | ok lines =>
      rw [scanned] at read
      cases read
      exact ⟨lines, _, rfl, rfl⟩

/-- The statements of a source are scanned statements, and their tokens stand in order. -/
theorem scanned_of_mem_pieces {source : String} {tokens : List Token}
    (read : scanSource source = .ok tokens)
    (apart : tokens.IsChain fun earlier later => earlier.isFlush later = false)
    {piece : List Token} (member : piece ∈ pieces (separate tokens)) :
    Scanned piece ∧ (∀ token ∈ piece, token.kind.Spells token.text) ∧
      piece.Pairwise Token.Before := by
  rcases exists_of_mem_pieces member with ⟨⟨before, after, whole⟩, inside⟩
  rcases scanSource_eq_ok read with ⟨lines, line, scanned, rfl⟩
  have endBounds : (Token.endOfInput line).bounds := rfl
  have lexical : ∀ token ∈ piece, token.kind.isLexical ∧ token.kind.Spells token.text := by
    intro token within
    have notTerminator : token.kind ≠ .terminator := by
      intro terminator
      have bounded := inside token within
      simp [Token.bounds, Kind.endsStatement, terminator] at bounded
    have among : token ∈ separate (lines ++ [.endOfInput line]) := by
      rw [whole]
      exact List.mem_append_left _ (List.mem_append_right _ within)
    have read := (mem_separateAfter among).resolve_right notTerminator
    rcases List.mem_append.mp read with here | last
    · exact (lexical_scanEach scanned here).resolve_left notTerminator
    · rw [List.mem_singleton.mp last] at within
      have bounded := inside _ within
      rw [endBounds] at bounded
      cases bounded
  refine ⟨⟨?_, ?_⟩, fun token within => (lexical token within).2, ?_⟩
  · intro token within
    exact Kind.isScanned_of_isLexical (lexical token within).1 (inside token within)
  · have unbroken := @separateAfter_unbroken none _ apart
    change (separate (lines ++ [.endOfInput line])).IsChain _ at unbroken
    rw [whole] at unbroken
    exact unbroken.left_of_append.right_of_append
  · have kept : (separate (lines ++ [.endOfInput line])).filter (!·.bounds) =
        lines.filter (!·.bounds) := by
      have drops : ∀ token : Token, token.kind = .terminator → (!token.bounds) = false := by
        intro token terminator
        simp [Token.bounds, Kind.endsStatement, terminator]
      rw [separate, separateAfter_filter drops, List.filter_append,
        List.filter_cons_of_neg (by simp [endBounds]), List.filter_nil, List.append_nil]
    have part : piece.Sublist lines := by
      have all : piece.filter (!·.bounds) = piece :=
        List.filter_eq_self.mpr fun token within => by simp [inside token within]
      rw [whole, List.filter_append, List.filter_append, all] at kept
      have sub : piece.Sublist (lines.filter (!·.bounds)) := by
        rw [← kept, List.append_assoc]
        exact (List.sublist_append_left _ _).trans (List.sublist_append_right _ _)
      exact sub.trans List.filter_sublist
    exact (ordered_scanEach scanned).1.sublist part

theorem endsLast_separate {source : String} {tokens : List Token}
    (read : scanSource source = .ok tokens) : EndsLast (separate tokens) := by
  rcases scanSource_eq_ok read with ⟨lines, line, scanned, rfl⟩
  have unended : ∀ token ∈ separate lines, token.kind ≠ .endOfInput :=
    unended_separate (unended_scanEach scanned)
  rw [separate_append (closed_scanEach scanned), EndsLast, List.pairwise_append]
  refine ⟨?_, List.pairwise_singleton _ _, fun token member _ _ => unended token member⟩
  exact List.pairwise_of_forall_mem_list fun token member _ _ => unended token member

/-- An accepted program is its text, statement by statement, exactly if no command is the operand of
an operator that may bind more tightly: it stands first, behind an opening parenthesis, an
assignment, `print` or `del`. Anywhere else the operator before it takes operands from its left. -/
theorem programOfSource_inOrder_iff {source : String} {tokens : List Token}
    (read : scanSource source = .ok tokens)
    (apart : tokens.IsChain fun earlier later => earlier.isFlush later = false)
    {limit : Nat} {symbols final : Symbols} {program : List Tree}
    (parsed : (programOfSource limit source).runFrom symbols = (.ok program, final)) :
    (program.flatMap Tree.straights).map (Tree.inOrder final) =
        (writtenStatements (separate tokens)).map (List.filter (!·.isParen)) ↔
      ∀ statement ∈ writtenStatements (separate tokens), CommandsLead statement := by
  have statements : (statementsOf limit 0 (separate tokens)).outcome symbols =
      .ok (program, final) := by
    rw [programOfSource, read] at parsed
    exact Parse.outcome_eq_ok.mpr parsed
  have correspond := statementsOf_correspond (endsLast_separate read) statements
  have scanned : ∀ statement ∈ writtenStatements (separate tokens), Scanned statement ∧
      (∀ token ∈ statement, token.kind.Spells token.text) ∧ statement.Pairwise Token.Before :=
    fun _ member => scanned_of_mem_pieces read apart (List.mem_filter.mp member).1
  have sideBySide := correspond.parsed final (.refl _)
  generalize program.flatMap Tree.straights = trees at sideBySide ⊢
  generalize writtenStatements (separate tokens) = written at scanned sideBySide ⊢
  clear correspond
  induction sideBySide with
  | nil => simp
  | cons here _ induction =>
      rcases here with ⟨_, _, _, _, ordered, built, grown⟩
      rcases scanned _ List.mem_cons_self with ⟨kinds, spells, placed⟩
      rw [List.map_cons, List.map_cons, List.cons.injEq, List.forall_mem_cons]
      apply and_congr
      · exact kinds.inOrder_eq_iff spells placed ordered built grown
      · exact induction fun _ member => scanned _ (List.mem_cons_of_mem _ member)

/-- A command in parentheses of its own keeps its place. -/
theorem programOfSource_inOrder_input :
    let source := "\"a\" + (input \"b\")"
    let symbols : Symbols := ⟨.ofTexts ["a", "b"], {}⟩
    let tokens : List Token := [⟨.string, "a", ⟨1, 0⟩⟩, ⟨.binary .add, "+", ⟨1, 4⟩⟩,
      ⟨.openParen, "(", ⟨1, 6⟩⟩, ⟨.command .input, "input", ⟨1, 7⟩⟩, ⟨.string, "b", ⟨1, 13⟩⟩,
      ⟨.closeParen, ")", ⟨1, 16⟩⟩, .terminator ⟨1, 17⟩, .endOfInput 1]
    let sum := Tree.binary .add (.string ⟨0⟩ ⟨1, 0⟩)
      (.command .input (.string ⟨1⟩ ⟨1, 13⟩) ⟨1, 7⟩) ⟨1, 4⟩
    scanSource source = .ok tokens ∧
      (programOfSource 3 source).runFrom {} = (.ok [sum], symbols) ∧
      [sum.inOrder symbols] =
        (writtenStatements (separate tokens)).map (List.filter (!·.isParen)) := by
  intro source symbols tokens sum
  have read : scanSource source = .ok tokens := by cbv
  have parsed : (programOfSource 3 source).runFrom {} = (.ok [sum], symbols) := by cbv
  have lead : ∀ statement ∈ writtenStatements (separate tokens), CommandsLead statement := by
    unfold CommandsLead
    decide +kernel
  have kept := (programOfSource_inOrder_iff read (by decide) parsed).mpr lead
  rw [List.flatMap_singleton, Tree.straights] at kept
  · exact ⟨read, parsed, kept⟩
  · exact fun _ _ _ _ => Tree.noConfusion

/-- A command behind an operator does not: the sum takes its operands from the left of the
parenthesis it is written in, and the comparison is left with the other two. -/
theorem programOfSource_inOrder_regroups :
    let source := "\"a\" = (\"b\" + input \"c\")"
    let symbols : Symbols := ⟨.ofTexts ["a", "b", "c"], {}⟩
    let tokens : List Token := [⟨.string, "a", ⟨1, 0⟩⟩, ⟨.binary .equal, "=", ⟨1, 4⟩⟩,
      ⟨.openParen, "(", ⟨1, 6⟩⟩, ⟨.string, "b", ⟨1, 7⟩⟩, ⟨.binary .add, "+", ⟨1, 11⟩⟩,
      ⟨.command .input, "input", ⟨1, 13⟩⟩, ⟨.string, "c", ⟨1, 19⟩⟩, ⟨.closeParen, ")", ⟨1, 22⟩⟩,
      .terminator ⟨1, 23⟩, .endOfInput 1]
    let tree := Tree.binary .equal
      (.binary .add (.string ⟨0⟩ ⟨1, 0⟩) (.string ⟨1⟩ ⟨1, 7⟩) ⟨1, 11⟩)
      (.command .input (.string ⟨2⟩ ⟨1, 19⟩) ⟨1, 13⟩) ⟨1, 4⟩
    scanSource source = .ok tokens ∧
      (tokens.IsChain fun earlier later => earlier.isFlush later = false) ∧
      (programOfSource 3 source).runFrom {} = (.ok [tree], symbols) ∧
      [tree.inOrder symbols] ≠
        (writtenStatements (separate tokens)).map (List.filter (!·.isParen)) := by
  intro source symbols tokens tree
  refine ⟨?_, ?_, ?_, ?_⟩
  · cbv
  · decide
  · cbv
  · decide +kernel

end Scriptlet
