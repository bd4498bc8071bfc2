import Scriptlet.Proofs.Fidelity
import Scriptlet.Proofs.Runs

/-! Nodes and tokens. Every token of a source becomes one node of its program, except for the marks
that only say how the others belong together. -/

namespace Scriptlet

/-! ## What is compared -/

/-- Whether a token is a parenthesis, a brace, a terminator or an end mark. -/
def Token.isMark (token : Token) : Bool :=
  token.isParen || token.kind == .openBlock || token.kind == .closeBlock ||
    token.kind.endsStatement

/-- The nodes of a tree from left to right, each as the token it is written as. A keyword comes
before its condition, and the condition before the block. -/
def Tree.nodes (symbols : Symbols) : Tree → List Token
  | integer text position => [⟨.integer, text, position⟩]
  | decimal text position => [⟨.decimal, text, position⟩]
  | string handle position => [⟨.string, symbols.stringAt handle, position⟩]
  | boolean value position => [⟨.boolean, if value then "true" else "false", position⟩]
  | identifier handle position => [⟨.identifier, symbols.nameAt handle, position⟩]
  | binary operator left right position =>
      left.nodes symbols ++ .spelled (.binary operator) position :: right.nodes symbols
  | unary operator operand position =>
      .spelled (Kind.unary operator).written position :: operand.nodes symbols
  | assign target value position =>
      target.nodes symbols ++ .spelled .assign position :: value.nodes symbols
  | command keyword operand position =>
      .spelled (.command keyword) position :: operand.nodes symbols
  | control keyword condition body position =>
      .spelled (.control keyword) position ::
        (condition.nodes symbols ++ body.flatMap (nodes symbols))

/-- The same tokens, and the operands among them in the same order. -/
structure Tallies (found given : List Token) : Prop where
  perm : found.Perm given
  operands : found.filter (·.kind.isOperand) = given.filter (·.kind.isOperand)

namespace Tallies

theorem refl (tokens : List Token) : Tallies tokens tokens :=
  ⟨.refl _, rfl⟩

theorem trans {first second third : List Token} (one : Tallies first second)
    (other : Tallies second third) : Tallies first third :=
  ⟨one.perm.trans other.perm, one.operands.trans other.operands⟩

theorem append {first second third fourth : List Token} (one : Tallies first second)
    (other : Tallies third fourth) : Tallies (first ++ third) (second ++ fourth) := by
  constructor
  · exact one.perm.append other.perm
  · rw [List.filter_append, List.filter_append, one.operands, other.operands]

/-- An operator may move behind its last operand. -/
theorem behind {operator : Token} (notOperand : operator.kind.isOperand = false)
    (tokens : List Token) : Tallies (operator :: tokens) (tokens ++ [operator]) := by
  constructor
  · exact (List.perm_append_singleton operator tokens).symm
  · simp [notOperand]

end Tallies

/-! ## Trees -/

section

variable {token : Token}

theorem Token.not_isOperand_written
    (isOperator : token.kind.isUnary ∨ token.kind.isBinary ∨ token.kind.isControl) :
    token.written.kind.isOperand = false := by
  rcases token with ⟨kind, text, position⟩
  cases kind with
  | unary operator => cases operator <;> rfl
  | _ => first | rfl | simp [Kind.isUnary, Kind.isBinary, Kind.isControl] at isOperator

variable (spells : token.kind.Spells token.text)

include spells

theorem Token.nodes_leaf (isOperand : token.kind.isOperand) {symbols final : Symbols}
    (grown : (token.leaf symbols).2.Extends final) :
    (token.leaf symbols).1.nodes final = [token.written] := by
  rw [← Token.inOrder_leaf spells isOperand grown]
  rcases token with ⟨kind, text, position⟩
  cases kind <;> simp [leaf, Tree.nodes, Tree.inOrder]

theorem Token.written_eq_spelled
    (isOperator : token.kind.isUnary ∨ token.kind.isBinary ∨ token.kind.isControl) :
    token.written = .spelled token.kind.written token.position := by
  rcases token with ⟨kind, text, position⟩
  cases kind with
  | unary operator =>
      cases spells
      cases operator <;> rfl
  | binary | assign | command | control =>
      cases spells
      rfl
  | _ => simp [Kind.isUnary, Kind.isBinary, Kind.isControl] at isOperator

theorem Token.nodes_over (isUnary : token.kind.isUnary) (symbols : Symbols) (operand : Tree) :
    (token.over operand).nodes symbols = token.written :: operand.nodes symbols := by
  rw [written_eq_spelled spells (.inl isUnary)]
  rcases token with ⟨kind, text, position⟩
  cases kind with
  | unary | command => simp [Token.over, Tree.nodes, Kind.written]
  | _ => cases isUnary

theorem Token.nodes_between (isBinary : token.kind.isBinary) (symbols : Symbols)
    (left right : Tree) :
    (token.between left right).nodes symbols =
      left.nodes symbols ++ token.written :: right.nodes symbols := by
  rw [written_eq_spelled spells (.inr (.inl isBinary))]
  rcases token with ⟨kind, text, position⟩
  cases kind with
  | binary | assign => simp [between, Tree.nodes, Kind.written]
  | _ => cases isBinary

end

/-- The nodes of the operands, the earliest operand first. -/
def pendingNodes (symbols : Symbols) (operands : List Operand) : List Token :=
  operands.reverse.flatMap (·.tree.nodes symbols)

theorem pendingNodes_cons (symbols : Symbols) (operand : Operand) (below : List Operand) :
    pendingNodes symbols (operand :: below) =
      pendingNodes symbols below ++ operand.tree.nodes symbols := by
  simp [pendingNodes]

/-- A token that is taken in adds one node, which is its own. -/
theorem tallies_absorb {limit : Nat} {operands after : List Operand} {token : Token}
    {symbols later : Symbols} (spells : token.kind.Spells token.text)
    (absorbed : (absorb limit operands token).runFrom symbols = (.ok after, later)) :
    symbols.Extends later ∧ ∀ final, later.Extends final →
      Tallies (pendingNodes final after) (pendingNodes final operands ++ [token.written]) := by
  rcases absorb_cases absorbed with ⟨isOperand, rfl, rfl⟩ |
    ⟨isUnary, rfl, operand, below, rfl, rfl⟩ | ⟨isBinary, rfl, right, left, below, rfl, rfl⟩
  · refine ⟨token.extends_leaf symbols, fun final grown => ?_⟩
    rw [pendingNodes_cons, Token.nodes_leaf spells isOperand grown]
    exact .refl _
  · refine ⟨.refl _, fun final _ => ?_⟩
    have operator := Token.not_isOperand_written (.inl isUnary)
    rw [pendingNodes_cons, pendingNodes_cons, Token.nodes_over spells isUnary, List.append_assoc]
    exact (Tallies.refl _).append (.behind operator _)
  · refine ⟨.refl _, fun final _ => ?_⟩
    have operator := Token.not_isOperand_written (.inr (.inl isBinary))
    rw [pendingNodes_cons, pendingNodes_cons, pendingNodes_cons,
      Token.nodes_between spells isBinary]
    simp only [List.append_assoc]
    exact (Tallies.refl _).append ((Tallies.refl _).append (.behind operator _))

theorem tallies_absorb_all {limit : Nat} {run : List Token} {operands after : List Operand}
    {symbols later : Symbols} (spells : ∀ token ∈ run, token.kind.Spells token.text)
    (absorbed : (run.foldlM (absorb limit) operands).runFrom symbols = (.ok after, later)) :
    symbols.Extends later ∧ ∀ final, later.Extends final →
      Tallies (pendingNodes final after)
        (pendingNodes final operands ++ run.map Token.written) := by
  induction run generalizing operands symbols with
  | nil =>
      cases absorbed
      refine ⟨.refl _, fun final _ => ?_⟩
      rw [List.map_nil, List.append_nil]
      exact .refl _
  | cons token rest induction =>
      rw [List.foldlM_cons, Parse.runFrom_bind_eq_ok] at absorbed
      rcases absorbed with ⟨middle, between, first, absorbed⟩
      rcases tallies_absorb (spells token List.mem_cons_self) first with ⟨grown, here⟩
      rcases induction (fun token member => spells token (List.mem_cons_of_mem _ member))
        absorbed with ⟨further, there⟩
      refine ⟨grown.trans further, fun final extended => ?_⟩
      have step := (here final (further.trans extended)).append
        (.refl (rest.map Token.written))
      rw [List.append_assoc, List.singleton_append] at step
      exact (there final extended).trans step

/-! ## Post order -/

theorem Token.keepsPlace_of_isOperand {token : Token} (isOperand : token.kind.isOperand) :
    token.keepsPlace := by
  rcases token with ⟨kind, text, position⟩
  cases kind <;> first | rfl | cases isOperand

/-- The post order of a statement leaves its operands in order. -/
theorem statementOrder_operands {statement run : List Token} (plain : OneStatement statement)
    (ordered : statementOrder Kind.binding? statement = .ok run) :
    run.filter (·.kind.isOperand) = statement.filter (·.kind.isOperand) := by
  have among (tokens : List Token) : (tokens.filter Token.keepsPlace).filter (·.kind.isOperand) =
      tokens.filter (·.kind.isOperand) := by
    rw [List.filter_filter]
    apply List.filter_congr
    intro token _
    cases isOperand : token.kind.isOperand with
    | false => rfl
    | true => exact Token.keepsPlace_of_isOperand isOperand
  rw [← among run, ← among statement, (statementOrder_tidy plain ordered).2]

theorem map_written_readSigns {statement : List Token}
    (scanned : ∀ token ∈ statement, token.kind.isScanned) (previous : Option Kind) :
    (readSigns previous statement).map Token.written = statement := by
  induction statement generalizing previous with
  | nil => rfl
  | cons next later induction =>
      rw [readSigns, List.map_cons, Token.written_readSign (scanned next List.mem_cons_self),
        induction fun token member => scanned token (List.mem_cons_of_mem _ member)]

theorem Token.isParen_written (token : Token) : token.written.isParen = token.isParen := by
  rcases token with ⟨kind, text, position⟩
  cases kind with
  | unary operator => cases operator <;> rfl
  | _ => rfl

theorem Token.isOperand_written (token : Token) :
    token.written.kind.isOperand = token.kind.isOperand := by
  rcases token with ⟨kind, text, position⟩
  cases kind with
  | unary operator => cases operator <;> rfl
  | _ => rfl

/-- What is written of a statement's post order tallies with the statement. -/
theorem tallies_statementOrder {statement run : List Token}
    (scanned : ∀ token ∈ statement, token.kind.isScanned) (plain : OneStatement statement)
    (ordered : statementOrder Kind.binding? statement = .ok run)
    (noParens : ∀ token ∈ run, token.isParen = false) :
    Tallies (run.map Token.written) (statement.filter (!·.isParen)) := by
  constructor
  · have sameParens : ((fun token : Token => !token.isParen) ∘ Token.written) =
        fun token => !token.isParen := by
      funext token
      exact congrArg _ token.isParen_written
    have whole : run.filter (!·.isParen) = run :=
      List.filter_eq_self.mpr fun token member => by simp [noParens token member]
    have same := (statementOrder_perm plain ordered).map Token.written
    rw [whole] at same
    rwa [← map_written_readSigns scanned none, List.filter_map, sameParens]
  · have sameOperands : ((fun token : Token => token.kind.isOperand) ∘ Token.written) =
        fun token => token.kind.isOperand := by
      funext token
      exact token.isOperand_written
    have kept : (run.filter (·.kind.isOperand)).map Token.written =
        run.filter (·.kind.isOperand) := by
      rw [List.map_congr_left fun token member =>
        Token.written_of_isOperand (List.mem_filter.mp member).2]
      exact List.map_id' _
    have operands : ∀ token : Token, (token.kind.isOperand && !token.isParen) =
        token.kind.isOperand := by
      intro token
      by_cases isOperand : token.kind.isOperand
      · simp [isOperand, Token.not_isParen_of_isOperand isOperand]
      · simp [isOperand]
    rw [List.filter_map, sameOperands, kept, statementOrder_operands plain ordered,
      List.filter_filter]
    simp only [operands]

/-! ## Statements -/

/-- Tokens as a scanner gives them. -/
def Lexical (tokens : List Token) : Prop :=
  ∀ token ∈ tokens, token.kind.endsStatement ∨ token.kind.isLexical ∧ token.kind.Spells token.text

theorem Lexical.of_append {before after : List Token} (lexical : Lexical (before ++ after)) :
    Lexical before ∧ Lexical after :=
  ⟨fun token member => lexical token (List.mem_append_left _ member),
    fun token member => lexical token (List.mem_append_right _ member)⟩

/-- Inside of a statement every token is a lexeme that may stand there. -/
theorem Lexical.scanned {tokens : List Token} (lexical : Lexical tokens) {token : Token}
    (member : token ∈ tokens) (inside : token.bounds = false) :
    token.kind.isScanned ∧ token.kind.Spells token.text := by
  rcases lexical token member with ends | ⟨isLexical, spells⟩
  · simp [Token.bounds, ends] at inside
  · exact ⟨Kind.isScanned_of_isLexical isLexical inside, spells⟩

theorem ParsedFrom.tallies {final : Symbols} {tree : Tree} {statement : List Token}
    (parsed : ParsedFrom final tree statement)
    (scanned : ∀ token ∈ statement, token.kind.isScanned ∧ token.kind.Spells token.text)
    (plain : OneStatement statement) :
    Tallies (tree.nodes final) (statement.filter (!·.isParen)) := by
  rcases parsed with ⟨limit, run, symbols, later, ordered, built, grown⟩
  rw [statementTree, Parse.runFrom_bind_eq_ok] at built
  rcases built with ⟨operands, middle, absorbed, completed⟩
  rcases completeStatement_eq_ok completed with ⟨rfl, ⟨_, impossible⟩ | ⟨only, rfl, same⟩⟩
  · cases impossible
  · cases same
    have noParens := (length_absorb_all absorbed).2.1
    have spells : ∀ token ∈ run, token.kind.Spells token.text := by
      intro token member
      have kept := (statementOrder_perm plain ordered).mem_iff.mp
        (List.mem_filter.mpr ⟨member, by simp [noParens token member]⟩)
      rcases exists_of_mem_readSigns (List.mem_filter.mp kept).1 with ⟨original, within, sign, rfl⟩
      exact Token.spells_readSign (scanned original within).2 sign
    have nodes := (tallies_absorb_all spells absorbed).2 final grown
    rw [pendingNodes_cons] at nodes
    exact nodes.trans (tallies_statementOrder (fun token member => (scanned token member).1) plain
      ordered noParens)

theorem flatten_splitOnP (test : α → Bool) (items : List α) :
    (items.splitOnP test).flatten = items.filter (!test ·) := by
  induction items with
  | nil => rfl
  | cons item later induction =>
      rw [List.splitOnP_cons_eq_if_modifyHead]
      split
      · rename_i cut
        rw [List.flatten_cons, List.nil_append, induction, List.filter_cons_of_neg (by simp [cut])]
      · rename_i kept
        rw [List.filter_cons_of_pos (by simpa using kept), ← induction]
        cases parts : later.splitOnP test with
        | nil => exact absurd parts (List.splitOnP_ne_nil _ _)
        | cons first others => rfl

theorem filter_flatten_filter_any (test : α → Bool) (parts : List (List α)) :
    (parts.filter (·.any test)).flatten.filter test = parts.flatten.filter test := by
  induction parts with
  | nil => rfl
  | cons part later induction =>
      rw [List.flatten_cons, List.filter_append, ← induction]
      by_cases some : part.any test
      · rw [List.filter_cons, if_pos some, List.flatten_cons, List.filter_append]
      · have none : part.filter test = [] := by
          rw [List.filter_eq_nil_iff]
          simpa using some
        rw [List.filter_cons, if_neg some, none, List.nil_append]

/-- The written statements of tokens without a block hold everything but the marks. -/
theorem filter_flatten_writtenStatements {tokens : List Token} (straight : Straight tokens) :
    (writtenStatements tokens).flatten.filter (!·.isParen) = tokens.filter (!·.isMark) := by
  rw [writtenStatements, filter_flatten_filter_any, pieces, flatten_splitOnP, List.filter_filter]
  apply List.filter_congr
  intro token member
  have isStraight := straight token member
  simp only [Token.isStraight, Bool.not_eq_true', Bool.or_eq_false_iff] at isStraight
  simp [Token.isMark, Token.bounds, Token.isStraight, isStraight]

theorem tallies_of_parsedFrom {final : Symbols} {trees : List Tree}
    {statements : List (List Token)}
    (parsed : List.Forall₂ (ParsedFrom final) trees statements)
    (scanned : ∀ statement ∈ statements, ∀ token ∈ statement,
      token.kind.isScanned ∧ token.kind.Spells token.text)
    (plain : ∀ statement ∈ statements, OneStatement statement) :
    Tallies (trees.flatMap (Tree.nodes final)) (statements.flatten.filter (!·.isParen)) := by
  induction parsed with
  | nil => exact .refl _
  | cons first _ induction =>
      rw [List.flatMap_cons, List.flatten_cons, List.filter_append]
      apply Tallies.append
      · exact first.tallies (scanned _ List.mem_cons_self) (plain _ List.mem_cons_self)
      · apply induction
        · exact fun statement member => scanned statement (List.mem_cons_of_mem _ member)
        · exact fun statement member => plain statement (List.mem_cons_of_mem _ member)

/-- The nodes of tokens without a block are those tokens, apart from the marks. -/
theorem straightStatements_tally {limit : Nat} {tokens : List Token} (ends : EndsLast tokens)
    (lexical : Lexical tokens) {symbols later : Symbols} {trees : List Tree}
    (parsed : (straightStatements limit tokens).outcome symbols = .ok (trees, later)) :
    symbols.Extends later ∧ ∀ final, later.Extends final →
      Tallies (trees.flatMap (Tree.nodes final)) (tokens.filter (!·.isMark)) := by
  rcases straightStatements_correspond ends parsed with ⟨straight, correspond, _⟩
  have part : ∀ statement ∈ writtenStatements tokens, ∀ token ∈ statement,
      token ∈ tokens ∧ token.bounds = false := by
    intro statement member token inside
    rcases exists_of_mem_pieces (List.mem_filter.mp member).1 with ⟨⟨before, after, whole⟩, bounded⟩
    refine ⟨?_, bounded token inside⟩
    rw [whole]
    exact List.mem_append_left _ (List.mem_append_right _ inside)
  refine ⟨correspond.grown, fun final grown => ?_⟩
  rw [← filter_flatten_writtenStatements straight]
  apply tallies_of_parsedFrom (correspond.parsed final grown)
  · intro statement member token inside
    exact lexical.scanned (part statement member token inside).1
      (part statement member token inside).2
  · intro statement member token inside
    have bounded := (part statement member token inside).2
    rw [Token.bounds, Bool.or_eq_false_iff] at bounded
    exact bounded.1

/-! ## Programs -/

theorem Token.spelled_of_isControl {token : Token} (isControl : token.kind.isControl)
    (spells : token.kind.Spells token.text) :
    .spelled (.control token.controlOf) token.position = token := by
  rcases token with ⟨kind, text, position⟩
  cases kind with
  | control control =>
      cases spells
      cases control <;> rfl
  | _ => cases isControl

theorem Token.not_isMark_of_isControl {token : Token} (isControl : token.kind.isControl) :
    token.isMark = false := by
  rcases token with ⟨kind, text, position⟩
  cases kind <;> first | rfl | cases isControl

/-- The nodes of a program are its tokens, apart from the marks. -/
theorem statementsOf_tally {limit depth : Nat} {tokens : List Token} (ends : EndsLast tokens)
    (lexical : Lexical tokens) {symbols later : Symbols} {trees : List Tree}
    (parsed : (statementsOf limit depth tokens).outcome symbols = .ok (trees, later)) :
    symbols.Extends later ∧ ∀ final, later.Extends final →
      Tallies (trees.flatMap (Tree.nodes final)) (tokens.filter (!·.isMark)) := by
  induction tokens using program_induction generalizing depth symbols later trees with
  | straight tokens straight =>
      rw [statementsOf_straight limit depth straight] at parsed
      exact straightStatements_tally ends lexical parsed
  | brace before stop after straight stops notControl =>
      rw [statementsOf_brace limit depth straight stops notControl] at parsed
      cases parsed
  | control before keyword after straight isControl induction =>
      rcases statementsOf_control_eq_ok straight isControl parsed with
        ⟨earlier, condition, body, following, tokens, brace, block, closing, rest, _, _, _,
          runParsed, conditionParsed, bodyParsed, restParsed, opens, closes, rfl, rfl⟩
      have keywordSpells : keyword.kind.Spells keyword.text := by
        rcases lexical keyword (by simp) with ending | spells
        · rcases keyword with ⟨kind, text, position⟩
          cases kind with
          | control => cases ending
          | _ => cases isControl
        · exact spells.2
      have braceMark : brace.isMark := by simp [Token.isMark, opens]
      have closingMark : closing.isMark := by simp [Token.isMark, closes]
      have endsAfter := ends.of_append.2.of_cons
      have endsInside := (EndsLast.of_append endsAfter).2.of_cons
      have endsRest := (EndsLast.of_append endsInside).2.of_cons
      have lexicalAfter : Lexical (tokens ++ brace :: (block ++ closing :: rest)) :=
        fun token member => lexical.of_append.2 token (List.mem_cons_of_mem _ member)
      have lexicalInside : Lexical (block ++ closing :: rest) :=
        fun token member => lexicalAfter.of_append.2 token (List.mem_cons_of_mem _ member)
      have lexicalRest : Lexical rest :=
        fun token member => lexicalInside.of_append.2 token (List.mem_cons_of_mem _ member)
      have first := straightStatements_tally ends.of_append.1 lexical.of_append.1 runParsed
      have second := straightStatements_tally (EndsLast.of_append endsAfter).1
        lexicalAfter.of_append.1 conditionParsed
      have third := induction block (by simp only [List.length_append, List.length_cons]; omega)
        (EndsLast.of_append endsInside).1 lexicalInside.of_append.1 bodyParsed
      have fourth := induction rest (by simp only [List.length_append, List.length_cons]; omega)
        endsRest lexicalRest restParsed
      refine ⟨first.1.trans (second.1.trans (third.1.trans fourth.1)), fun final grown => ?_⟩
      have thirdGrown := fourth.1.trans grown
      have secondGrown := third.1.trans thirdGrown
      have conditionTallies := second.2 final secondGrown
      rw [List.flatMap_singleton] at conditionTallies
      rw [List.flatMap_append, List.flatMap_cons, Tree.nodes,
        Token.spelled_of_isControl isControl keywordSpells, List.filter_append,
        List.filter_cons_of_pos (by simp [Token.not_isMark_of_isControl isControl]),
        List.filter_append, List.filter_cons_of_neg (by simp [braceMark]), List.filter_append,
        List.filter_cons_of_neg (by simp [closingMark]), List.cons_append, List.append_assoc]
      apply (first.2 final (second.1.trans secondGrown)).append
      apply (Tallies.refl [keyword]).append
      exact conditionTallies.append
        ((third.2 final thirdGrown).append (fourth.2 final grown))

/-! ## Sources -/

theorem lexical_separate {source : String} {tokens : List Token}
    (read : scanSource source = .ok tokens) : Lexical (separate tokens) := by
  intro token member
  rcases scanSource_eq_ok read with ⟨lines, line, scanned, rfl⟩
  rcases mem_separateAfter member with member | terminator
  · rcases List.mem_append.mp member with here | last
    · rcases lexical_scanEach scanned here with terminator | lexical
      · exact .inl (by rw [terminator]; rfl)
      · exact .inr lexical
    · cases List.mem_singleton.mp last
      exact .inl rfl
  · exact .inl (by rw [terminator]; rfl)

theorem Token.isOperand_and_not_isMark (token : Token) :
    (token.kind.isOperand && !token.isMark) = token.kind.isOperand := by
  rcases token with ⟨kind, text, position⟩
  cases kind <;> rfl

/-- The tokens of a source that are no marks stand in order. -/
theorem ordered_scanSource {source : String} {tokens : List Token}
    (read : scanSource source = .ok tokens) :
    (tokens.filter (!·.isMark)).Pairwise Token.Before := by
  rcases scanSource_eq_ok read with ⟨lines, line, scanned, rfl⟩
  have endMark : (Token.endOfInput line).isMark := rfl
  rw [List.filter_append, List.filter_cons_of_neg (by simp [endMark]), List.filter_nil,
    List.append_nil]
  exact (ordered_scanEach scanned).1.sublist List.filter_sublist

/-- Nothing is lost, repeated or made up between a source and its program. The nodes of the program
are the tokens of the source other than the marks, each node with the kind, the text and the place
of its token; no two nodes are in one place; and the leaves, from left to right, are the operands in
the order in which they are written. -/
theorem programOfSource_nodes {source : String} {limit : Nat} {symbols final : Symbols}
    {program : List Tree}
    (parsed : (programOfSource limit source).runFrom symbols = (.ok program, final)) :
    ∃ tokens, scanSource source = .ok tokens ∧
      (program.flatMap (Tree.nodes final)).Perm (tokens.filter (!·.isMark)) ∧
      ((program.flatMap (Tree.nodes final)).map Token.position).Nodup ∧
      (program.flatMap (Tree.nodes final)).filter (·.kind.isOperand) =
        tokens.filter (·.kind.isOperand) ∧
      ((program.flatMap (Tree.nodes final)).filter (·.kind.isOperand)).Pairwise Token.Before := by
  rw [programOfSource, Parse.runFrom_bind_eq_ok] at parsed
  rcases parsed with ⟨tokens, _, read, parsed⟩
  rw [Parse.runFrom_ofExcept, Prod.mk.injEq] at read
  rcases read with ⟨read, rfl⟩
  have tally := (statementsOf_tally (endsLast_separate read) (lexical_separate read)
    (Parse.outcome_eq_ok.mpr parsed)).2 final (.refl _)
  have ordered := ordered_scanSource read
  have distinct : ((tokens.filter (!·.isMark)).map Token.position).Nodup := by
    apply List.pairwise_map.mpr
    apply ordered.imp
    intro earlier later before same
    unfold Token.Before at before
    rw [same] at before
    omega
  have nodes : (separate tokens).filter (!·.isMark) = tokens.filter (!·.isMark) :=
    separateAfter_filter
      (fun token terminator => by simp [Token.isMark, Kind.endsStatement, terminator]) none tokens
  rw [nodes] at tally
  have leaves : (tokens.filter (!·.isMark)).filter (·.kind.isOperand) =
      tokens.filter (·.kind.isOperand) := by
    rw [List.filter_filter]
    apply List.filter_congr
    intro token _
    exact token.isOperand_and_not_isMark
  refine ⟨tokens, read, tally.perm, ?_, ?_, ?_⟩
  · exact (tally.perm.map Token.position).nodup_iff.mpr distinct
  · exact tally.operands.trans leaves
  · rw [tally.operands]
    exact ordered.sublist List.filter_sublist

/-- The minus sign is a node of its own, and so is the keyword; the braces are not. -/
theorem programOfSource_nodes_block :
    let source := "if x < 2 \x7b print -x \x7d"
    let symbols : Symbols := ⟨{}, .ofTexts ["x"]⟩
    let condition := Tree.binary .less (.identifier ⟨0⟩ ⟨1, 3⟩) (.integer "2" ⟨1, 7⟩) ⟨1, 5⟩
    let statement := Tree.command .print (.unary .negate (.identifier ⟨0⟩ ⟨1, 18⟩) ⟨1, 17⟩) ⟨1, 11⟩
    let program := [Tree.control .conditional condition [statement] ⟨1, 0⟩]
    (programOfSource 3 source).runFrom {} = (.ok program, symbols) ∧
      ∃ tokens, scanSource source = .ok tokens ∧
        (program.flatMap (Tree.nodes symbols)).Perm (tokens.filter (!·.isMark)) ∧
        ((program.flatMap (Tree.nodes symbols)).map Token.position).Nodup ∧
        (program.flatMap (Tree.nodes symbols)).filter (·.kind.isOperand) =
          tokens.filter (·.kind.isOperand) ∧
        ((program.flatMap (Tree.nodes symbols)).filter (·.kind.isOperand)).Pairwise
          Token.Before := by
  intro source symbols condition statement program
  have parsed : (programOfSource 3 source).runFrom {} = (.ok program, symbols) := by cbv
  exact ⟨parsed, programOfSource_nodes parsed⟩

end Scriptlet
