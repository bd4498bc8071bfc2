import Scriptlet.Proofs.Contract
import Scriptlet.Proofs.Nodes
import Scriptlet.Proofs.Tiling

/-! What a parse takes from its source. Whatever it enters into the tables, builds into a tree or
reports as a fault comes from a token of the source, and a fault is reported at the token that it is
about. -/

namespace Scriptlet

/-! ## Faults and their tokens -/

/-- A token that is written as every token of its kind is. -/
def Token.Reads (token : Token) (kind : Kind) : Prop :=
  token.kind = kind ∧ token.text = kind.label

/-- The tokens that a fault can be about. A character at which no token starts belongs to none. -/
def SourceError.Cause.Fits (token : Token) : SourceError.Cause → Prop
  | invalidCharacter _ | unterminatedString => False
  | unmatchedParen => token.Reads .closeParen
  | unclosedParen => token.Reads .openParen
  | unclosedBlock => token.Reads .openBlock
  | missingOperand operator =>
      (token.kind.isUnary ∨ token.kind.isBinary) ∧ token.text = operator
  | unexpectedToken text => token.text = text
  | missingBlock keyword | invalidCondition keyword =>
      ∃ control, token.Reads (.control control) ∧ control.keyword = keyword
  | danglingOperand | nestingTooDeep _ => token.isMark = false

/-- A fault is reported where a token of the source stands that it is about. -/
def SourceError.PointsInto (source : Token → Prop) (error : SourceError) : Prop :=
  ∃ token, source token ∧ token.position = error.position ∧ error.cause.Fits token

/-- The tokens of a source are lexemes, each with a text that belongs to its kind. -/
def Lexemes (source : Token → Prop) : Prop :=
  ∀ token, source token → token.kind.isLexical ∧ token.kind.Spells token.text

/-- Tokens of a source, and marks between them that end statements. -/
def Drawn (source : Token → Prop) (tokens : List Token) : Prop :=
  ∀ token ∈ tokens, token.kind.endsStatement ∨ source token

theorem Drawn.of_append {source : Token → Prop} {before after : List Token}
    (drawn : Drawn source (before ++ after)) : Drawn source before ∧ Drawn source after :=
  ⟨fun token member => drawn token (List.mem_append_left _ member),
    fun token member => drawn token (List.mem_append_right _ member)⟩

theorem Token.not_endsStatement_of_stops {token : Token} (stops : token.isStraight = false) :
    ¬token.kind.endsStatement := by
  intro ends
  rcases token with ⟨kind, text, position⟩
  cases kind with
  | endOfInput | terminator => cases stops
  | _ => cases ends

theorem Token.written_readSign_of_isLexical {token : Token} (lexical : token.kind.isLexical)
    (previous : Option Kind) : (token.readSign previous).written = token := by
  rcases token with ⟨kind, text, position⟩
  unfold readSign
  split
  · rename_i sign
    cases sign.1
    rfl
  · cases kind with
    | unary operator => cases operator <;> first | rfl | cases lexical
    | _ => rfl

section

variable {source : Token → Prop} (lexemes : Lexemes source)

include lexemes

/-! ## Post order -/

theorem reads_of_written {token : Token} {kind : Kind} (written : source token.written)
    (here : token.kind = kind) (plain : kind = .openParen ∨ kind = .closeParen) :
    token.written.Reads kind := by
  have spells := (lexemes _ written).2
  rcases token with ⟨_, text, position⟩
  rcases plain with rfl | rfl
  all_goals
    cases here
    exact ⟨rfl, spells⟩

theorem settles_releaseAll {waiting : List Token}
    (waits : ∀ token ∈ waiting, source token.written) :
    Settles (· = waiting) (SourceError.PointsInto source) (releaseAll waiting) := by
  rw [releaseAll]
  split
  · rename_i opened found
    have written := waits opened (List.mem_of_find?_eq_some found)
    have isOpen : opened.kind = .openParen := by simpa using List.find?_some found
    exact ⟨opened.written, written, rfl, reads_of_written lexemes written isOpen (.inl rfl)⟩
  · exact rfl

/-- What is put in order and what waits comes from the source. -/
theorem settles_accept {table : BindingTable} {waiting : List Token} {token : Token}
    (waits : ∀ token ∈ waiting, source token.written)
    (here : token.kind = .terminator ∨ source token.written) :
    Settles
      (fun found => (∀ token ∈ found.1, token.kind.endsStatement ∨ source token.written) ∧
        ∀ token ∈ found.2, source token.written)
      (SourceError.PointsInto source) (accept table waiting token) := by
  have released {part : List Token} (inside : part ⊆ waiting) :
      ∀ token ∈ part, token.kind.endsStatement ∨ source token.written :=
    fun token member => .inr (waits token (inside member))
  rw [accept]
  split
  · rename_i terminates
    apply (settles_releaseAll lexemes waits).bind
    rintro _ rfl
    refine ⟨?_, by simp⟩
    intro selected member
    rcases List.mem_append.mp member with earlier | last
    · exact released (List.Subset.refl _) selected earlier
    · rw [List.mem_singleton.mp last, terminates]
      exact .inl rfl
  · rename_i opens
    have written := here.resolve_left (by simp [opens])
    exact ⟨by simp, List.forall_mem_cons.mpr ⟨written, waits⟩⟩
  · rename_i closes
    have written := here.resolve_left (by simp [closes])
    rw [List.span_eq_takeWhile_dropWhile]
    split
    · exact ⟨token.written, written, rfl, reads_of_written lexemes written closes (.inr rfl)⟩
    · rename_i found
      rcases Prod.mk.inj found with ⟨rfl, rest⟩
      refine ⟨released (List.takeWhile_sublist _).subset, fun selected member => waits selected ?_⟩
      apply (List.dropWhile_sublist (·.kind != .openParen)).subset
      rw [rest]
      exact List.mem_cons_of_mem _ member
  · have written := here.resolve_left ‹_›
    split
    · exact ⟨by simp [written], waits⟩
    · split
      · exact ⟨by simp [written], waits⟩
      · rw [List.span_eq_takeWhile_dropWhile]
        refine ⟨released (List.takeWhile_sublist _).subset, List.forall_mem_cons.mpr ⟨written, ?_⟩⟩
        exact fun selected member => waits selected ((List.dropWhile_sublist _).subset member)

theorem settles_arrange {table : BindingTable} {mark : Token} (marks : mark.kind.endsStatement)
    {tokens : List Token} (drawn : Drawn source tokens) {previous : Option Kind}
    {waiting : List Token} (waits : ∀ token ∈ waiting, source token.written) :
    Settles (fun ordered => ∀ token ∈ ordered, token.kind.endsStatement ∨ source token.written)
      (SourceError.PointsInto source) (arrange table mark previous waiting tokens) := by
  have closed {last : Token} (closes : last.kind.endsStatement) {waiting : List Token}
      (waits : ∀ token ∈ waiting, source token.written) :
      Settles (fun ordered => ∀ token ∈ ordered, token.kind.endsStatement ∨ source token.written)
        (SourceError.PointsInto source)
        (releaseAll waiting >>= fun released => .ok (released ++ [last])) := by
    apply (settles_releaseAll lexemes waits).bind
    rintro _ rfl token member
    rcases List.mem_append.mp member with earlier | here
    · exact .inr (waits token earlier)
    · exact .inl (List.mem_singleton.mp here ▸ closes)
  induction tokens generalizing previous waiting with
  | nil =>
      rw [arrange]
      exact closed marks waits
  | cons next later induction =>
      have here : (next.readSign previous).kind.endsStatement ∨
          source (next.readSign previous).written := by
        rcases drawn next List.mem_cons_self with ends | taken
        · exact .inl (next.endsStatement_readSign previous ▸ ends)
        · rw [Token.written_readSign_of_isLexical (lexemes next taken).1]
          exact .inr taken
      rw [arrange]
      dsimp only
      split
      · rename_i last
        exact closed (by simp [Kind.endsStatement, last]) waits
      · rename_i notLast
        have inside : (next.readSign previous).kind = .terminator ∨
            source (next.readSign previous).written := by
          simpa [Kind.endsStatement, notLast] using here
        apply (settles_accept lexemes waits inside).bind
        rintro ⟨released, remaining⟩ ⟨ordered, waits⟩
        apply Settles.bind
          (induction (fun token member => drawn token (List.mem_cons_of_mem _ member)) waits)
        intro rest reached token member
        rcases List.mem_append.mp member with earlier | there
        · exact ordered token earlier
        · exact reached token there

/-- The post order of tokens holds nothing but tokens of the source and marks. -/
theorem settles_postOrder {tokens : List Token} (drawn : Drawn source tokens) :
    Settles (fun ordered => ∀ token ∈ ordered, token.kind.endsStatement ∨ source token.written)
      (SourceError.PointsInto source) (postOrder tokens) :=
  settles_arrange lexemes rfl drawn (by simp)

end

/-! ## Trees -/

/-- No block is governed inside of the tree. -/
def Tree.isPlain : Tree → Bool
  | integer _ _ | decimal _ _ | string _ _ | boolean _ _ | identifier _ _ => true
  | binary _ left right _ | assign left right _ => left.isPlain && right.isPlain
  | unary _ operand _ | command _ operand _ => operand.isPlain
  | control _ _ _ _ => false

/-- Blocks are governed only by statements, in other blocks or outside of them. -/
inductive Tree.LaidOut : Tree → Prop where
  | plain {tree : Tree} (plain : tree.isPlain) : LaidOut tree
  | control {keyword : Control} {condition : Tree} {body : List Tree} {position : Position}
      (plain : condition.isPlain) (inner : ∀ statement ∈ body, LaidOut statement) :
      LaidOut (.control keyword condition body position)

/-- A plain tree whose root stands where a token of the source does. -/
structure Tree.Stems (source : Token → Prop) (tree : Tree) : Prop where
  plain : tree.isPlain
  rooted : ∃ token, source token ∧ token.position = tree.position ∧ token.isMark = false

/-- What holds of the tables stays so when a string or a name of the source is entered. -/
structure Admits (source : Token → Prop) (keeps : Symbols → Prop) : Prop where
  string : ∀ token symbols, source token → token.kind = .string → keeps symbols →
    keeps (symbols.enterString token.text).2
  name : ∀ token symbols, source token → token.kind = .identifier → keeps symbols →
    keeps (symbols.enterName token.text).2

section

variable {source : Token → Prop} {token : Token} (taken : source token.written)

include taken

theorem Token.stems_leaf (isOperand : token.kind.isOperand) (symbols : Symbols) :
    (token.leaf symbols).1.Stems source := by
  rcases token with ⟨kind, text, position⟩
  cases kind with
  | identifier | string | integer | decimal | boolean => exact ⟨rfl, _, taken, rfl, rfl⟩
  | _ => cases isOperand

theorem Token.stems_over (isUnary : token.kind.isUnary) {operand : Tree}
    (stems : operand.Stems source) : (token.over operand).Stems source := by
  rcases token with ⟨kind, text, position⟩
  cases kind with
  | command => exact ⟨stems.plain, _, taken, rfl, rfl⟩
  | unary operator =>
      refine ⟨stems.plain, _, taken, rfl, ?_⟩
      cases operator <;> rfl
  | _ => cases isUnary

theorem Token.stems_between (isBinary : token.kind.isBinary) {left right : Tree}
    (leftStems : left.Stems source) (rightStems : right.Stems source) :
    (token.between left right).Stems source := by
  have plain : (left.isPlain && right.isPlain) = true := by
    rw [leftStems.plain, rightStems.plain]
    rfl
  rcases token with ⟨kind, text, position⟩
  cases kind with
  | binary | assign => exact ⟨plain, _, taken, rfl, rfl⟩
  | _ => cases isBinary

/-- An operator that lacks an operand is reported. -/
theorem Token.points_missingOperand (isOperator : token.kind.isUnary ∨ token.kind.isBinary) :
    SourceError.PointsInto source ⟨.missingOperand token.text, token.position⟩ := by
  refine ⟨token.written, taken, rfl, ?_, rfl⟩
  rcases token with ⟨kind, text, position⟩
  cases kind with
  | unary operator => cases operator <;> simp [written, Kind.written, Kind.isUnary, Kind.isBinary]
  | _ => exact isOperator

end

section

variable {source : Token → Prop} {keeps : Symbols → Prop}

theorem Operand.meets_combine {limit below : Nat} {tree : Tree} (stems : tree.Stems source) :
    Meets keeps (fun operand => operand.tree.Stems source) (SourceError.PointsInto source)
      (combine limit below tree) := by
  rcases stems.rooted with ⟨token, taken, here, notMark⟩
  unfold combine
  split
  · exact .throw ⟨token, taken, here, notMark⟩
  · exact .pure stems

variable (admits : Admits source keeps)

include admits

theorem Token.keeps_leaf {token : Token} (taken : source token.written)
    (isOperand : token.kind.isOperand) {symbols : Symbols} (kept : keeps symbols) :
    keeps (token.leaf symbols).2 := by
  rcases token with ⟨kind, text, position⟩
  cases kind with
  | string => exact admits.string _ symbols taken rfl kept
  | identifier => exact admits.name _ symbols taken rfl kept
  | integer | decimal | boolean => exact kept
  | _ => cases isOperand

theorem meets_absorb {limit : Nat} {operands : List Operand} {token : Token}
    (taken : source token.written) (stem : ∀ operand ∈ operands, operand.tree.Stems source) :
    Meets keeps (fun after => ∀ operand ∈ after, operand.tree.Stems source)
      (SourceError.PointsInto source) (absorb limit operands token) := by
  by_cases isOperand : token.kind.isOperand
  · intro symbols kept
    have run := absorb_operand isOperand limit operands symbols
    rw [Parse.runFrom] at run
    rw [run]
    exact ⟨token.keeps_leaf admits taken isOperand kept,
      List.forall_mem_cons.mpr ⟨token.stems_leaf taken isOperand symbols, stem⟩⟩
  by_cases isUnary : token.kind.isUnary
  · cases operands with
    | nil =>
        rw [absorb_unary_nil isUnary]
        exact .throw (token.points_missingOperand taken (.inl isUnary))
    | cons operand below =>
        rcases List.forall_mem_cons.mp stem with ⟨first, others⟩
        rw [absorb_unary_cons isUnary]
        apply (Operand.meets_combine (token.stems_over taken isUnary first)).bind
        intro combined stems
        exact .pure (List.forall_mem_cons.mpr ⟨stems, others⟩)
  by_cases isBinary : token.kind.isBinary
  · by_cases short : operands.length < 2
    · rw [absorb_binary_short isBinary limit short]
      exact .throw (token.points_missingOperand taken (.inr isBinary))
    · rcases operands with _ | ⟨right, _ | ⟨left, below⟩⟩
      · exact absurd Nat.two_pos short
      · exact absurd Nat.one_lt_two short
      · rcases List.forall_mem_cons.mp stem with ⟨first, others⟩
        rcases List.forall_mem_cons.mp others with ⟨second, others⟩
        rw [absorb_binary_cons isBinary]
        apply (Operand.meets_combine (token.stems_between taken isBinary second first)).bind
        intro combined stems
        exact .pure (List.forall_mem_cons.mpr ⟨stems, others⟩)
  · rw [absorb_other (by simpa using isOperand) (by simpa using isUnary)
      (by simpa using isBinary)]
    exact .throw ⟨token.written, taken, rfl, rfl⟩

omit admits in
theorem meets_completeStatement {operands : List Operand}
    (stem : ∀ operand ∈ operands, operand.tree.Stems source) :
    Meets keeps (fun statement => ∀ tree ∈ statement.toList, tree.isPlain)
      (SourceError.PointsInto source) (completeStatement operands) := by
  have stem : ∀ operand ∈ operands.reverse, operand.tree.Stems source :=
    fun operand member => stem operand (List.mem_reverse.mp member)
  unfold completeStatement
  split
  · exact .pure (by simp)
  · rename_i only single
    rw [single] at stem
    exact .pure (by simpa using (stem only List.mem_cons_self).plain)
  · rename_i extra _ several
    rw [several] at stem
    rcases (stem extra (by simp)).rooted with ⟨token, taken, here, notMark⟩
    exact .throw ⟨token, taken, here, notMark⟩

theorem meets_treesFrom {limit : Nat} {operands : List Operand} {tokens : List Token}
    (taken : ∀ token ∈ tokens, token.kind.endsStatement ∨ source token.written)
    (stem : ∀ operand ∈ operands, operand.tree.Stems source) :
    Meets keeps (fun trees => ∀ tree ∈ trees, tree.isPlain) (SourceError.PointsInto source)
      (treesFrom limit operands tokens) := by
  induction tokens generalizing operands with
  | nil =>
      rw [treesFrom]
      exact (meets_completeStatement stem).bind fun statement plain => .pure plain
  | cons token later induction =>
      rcases List.forall_mem_cons.mp taken with ⟨here, there⟩
      rw [treesFrom]
      split
      · apply (meets_completeStatement stem).bind
        intro statement plain
        apply (induction there (by simp)).bind
        intro following others
        apply Meets.pure
        intro tree member
        rcases List.mem_append.mp member with first | rest
        · exact plain tree first
        · exact others tree rest
      · rename_i inside
        apply (meets_absorb admits (here.resolve_left (by simpa using inside)) stem).bind
        intro after stem
        exact induction there stem

/-! ## Statements -/

variable (lexemes : Lexemes source)

include lexemes

theorem meets_straightStatements {limit : Nat} {tokens : List Token} (drawn : Drawn source tokens) :
    Meets keeps (fun trees => ∀ tree ∈ trees, tree.isPlain) (SourceError.PointsInto source)
      (straightStatements limit tokens) := by
  rw [straightStatements]
  have ordered := settles_postOrder lexemes drawn
  apply Meets.bind (fun symbols kept => ⟨kept, ordered⟩)
  intro run taken
  exact meets_treesFrom admits taken (by simp)

omit admits in
theorem reads_control {keyword : Token} (taken : source keyword)
    (isControl : keyword.kind.isControl) :
    ∃ control, keyword.Reads (.control control) ∧ control.keyword = keyword.text := by
  have spells := (lexemes keyword taken).2
  rcases keyword with ⟨kind, text, position⟩
  cases kind with
  | control control => exact ⟨control, ⟨rfl, spells⟩, spells.symm⟩
  | _ => cases isControl

theorem meets_soleCondition {limit : Nat} {keyword : Token} {tokens : List Token}
    (taken : source keyword) (isControl : keyword.kind.isControl) (drawn : Drawn source tokens) :
    Meets keeps (fun condition => condition.isPlain) (SourceError.PointsInto source)
      (soleCondition limit keyword tokens) := by
  rw [soleCondition]
  apply (meets_straightStatements admits lexemes drawn).bind
  intro trees plain
  split
  · exact .pure (plain _ List.mem_cons_self)
  · exact .throw ⟨keyword, taken, rfl, reads_control lexemes taken isControl⟩

theorem meets_governed {limit depth : Nat} {keyword : Token} {after : List Token}
    (taken : source keyword) (isControl : keyword.kind.isControl) (drawn : Drawn source after)
    (inner : ∀ block : List Token, block.length < after.length → Drawn source block →
      Meets keeps (fun trees => ∀ tree ∈ trees, tree.LaidOut) (SourceError.PointsInto source)
        (statementsOf limit (depth + 1) block)) :
    Meets keeps
      (fun found => found.1.LaidOut ∧ Drawn source found.2 ∧ found.2.length < after.length)
      (SourceError.PointsInto source) (governed limit depth keyword after) := by
  rw [governed_eq]
  split
  · exact .throw ⟨keyword, taken, rfl, Token.not_isMark_of_isControl isControl⟩
  split
  · exact .throw ⟨keyword, taken, rfl, reads_control lexemes taken isControl⟩
  rename_i tokens brace inside opened
  have shorter := splitAtOpen_length opened
  rcases splitAtOpen_eq_some opened with ⟨rfl, opens, _⟩
  rcases drawn.of_append with ⟨before, rest⟩
  rcases List.forall_mem_cons.mp rest with ⟨here, rest⟩
  apply (meets_soleCondition admits lexemes taken isControl before).bind
  intro condition plain
  split
  · have taken : source brace := here.resolve_left (by simp [Kind.endsStatement, opens])
    have spells := (lexemes brace taken).2
    rw [opens] at spells
    exact .throw ⟨brace, taken, rfl, opens, spells⟩
  rename_i block rest closed
  have shortest := splitAtClose_length closed
  rcases splitAtClose_eq_some closed with ⟨closing, _, rfl⟩
  rcases Drawn.of_append rest with ⟨within, behind⟩
  apply (inner block (by omega) within).bind
  intro body laidOut
  refine .pure ⟨.control plain laidOut, ?_, by dsimp only; omega⟩
  exact fun token member => behind token (List.mem_cons_of_mem _ member)

/-- Whatever is parsed comes from the tokens, and faults are reported at the tokens that they are
about. -/
theorem meets_statementsOf {limit depth : Nat} {tokens : List Token}
    (drawn : Drawn source tokens) :
    Meets keeps (fun trees => ∀ tree ∈ trees, tree.LaidOut) (SourceError.PointsInto source)
      (statementsOf limit depth tokens) := by
  induction tokens using program_induction generalizing depth with
  | straight tokens straight =>
      rw [statementsOf_straight limit depth straight]
      exact (meets_straightStatements admits lexemes drawn).imp
        fun trees plain tree member => .plain (plain tree member)
  | brace before stop later straight stops notControl =>
      rw [statementsOf_brace limit depth straight stops notControl]
      have taken : source stop :=
        (drawn stop (by simp)).resolve_left (Token.not_endsStatement_of_stops stops)
      exact .throw ⟨stop, taken, rfl, rfl⟩
  | control before keyword later straight isControl induction =>
      rcases drawn.of_append with ⟨ahead, rest⟩
      rcases List.forall_mem_cons.mp rest with ⟨here, behind⟩
      have taken : source keyword :=
        here.resolve_left (Token.not_endsStatement_of_stops (not_isStraight_of_isControl isControl))
      rw [statementsOf_control limit depth straight isControl]
      apply (meets_straightStatements admits lexemes ahead).bind
      intro earlier plain
      apply (meets_governed admits lexemes taken isControl behind
        fun block shorter drawn => induction block shorter drawn).bind
      rintro ⟨statement, rest⟩ ⟨laidOut, drawn, shorter⟩
      apply (induction rest shorter drawn).bind
      intro following others
      apply Meets.pure
      intro tree member
      rcases List.mem_append.mp member with first | member
      · exact .plain (plain tree first)
      · rcases List.mem_cons.mp member with rfl | last
        · exact laidOut
        · exact others tree last

end

/-! ## Sources -/

/-- A lexeme of a source text. -/
def Token.StandsIn (source : String) (token : Token) : Prop :=
  ∃ tokens, scanSource source = .ok tokens ∧ token ∈ tokens ∧ token.kind.isLexical

theorem drawn_separate {source : String} {tokens : List Token}
    (read : scanSource source = .ok tokens) :
    Drawn (Token.StandsIn source) (separate tokens) := by
  intro token member
  rcases lexical_separate read token member with ends | ⟨isLexical, _⟩
  · exact .inl ends
  · refine .inr ⟨tokens, read, ?_, isLexical⟩
    refine (mem_separateAfter member).resolve_right fun terminates => ?_
    rw [terminates] at isLexical
    cases isLexical

/-- No lexeme is the mark at the end. -/
theorem mem_of_mem_append_mark {tokens : List Token} {mark token : Token}
    (member : token ∈ tokens ++ [mark]) (isLexical : token.kind.isLexical)
    (isMark : mark.kind.isLexical = false) : token ∈ tokens := by
  rcases List.mem_append.mp member with here | last
  · exact here
  · rw [List.mem_singleton.mp last, isMark] at isLexical
    cases isLexical

theorem lexemes_standsIn (source : String) : Lexemes (Token.StandsIn source) := by
  rintro token ⟨tokens, read, member, isLexical⟩
  rcases scanSource_eq_ok read with ⟨lines, line, scanned, rfl⟩
  have inside := mem_of_mem_append_mark member isLexical rfl
  refine (lexical_scanEach scanned inside).resolve_left fun terminates => ?_
  rw [terminates] at isLexical
  cases isLexical

/-- The tokens of a text are those of its lines, and so is the first fault. -/
theorem settles_scanEach (before : Nat) (lines : List (List Char)) :
    Settles
      (fun tokens => ∀ token ∈ tokens, ∃ text index words, lines[index]? = some text ∧
        scanLine (before + index + 1) text = .ok words ∧ token ∈ words)
      (fun error => ∃ text index, lines[index]? = some text ∧
        scanLine (before + index + 1) text = .error error)
      (scanEach before lines) := by
  induction lines generalizing before with
  | nil => exact fun _ member => (List.not_mem_nil member).elim
  | cons text later induction =>
      have next (index : Nat) : before + 1 + index + 1 = before + (index + 1) + 1 := by omega
      rw [scanEach]
      cases here : scanLine (before + 1) text with
      | error fault => exact ⟨text, 0, rfl, here⟩
      | ok words =>
          refine ((induction (before + 1)).weaken ?_).bind fun following others => ?_
          · rintro error ⟨text, index, found, failed⟩
            exact ⟨text, index + 1, found, next index ▸ failed⟩
          · intro token member
            rcases List.mem_append.mp member with first | rest
            · exact ⟨text, 0, words, rfl, here, first⟩
            · rcases others token rest with ⟨text, index, words, found, read, inside⟩
              exact ⟨text, index + 1, words, found, next index ▸ read, inside⟩

/-- A lexeme stands where its position says: there no pattern matches more of the line. -/
theorem Token.StandsIn.longest {source : String} {token : Token} (stands : token.StandsIn source) :
    ∃ text index, (linesOf source)[index]? = some text ∧ token.position.line = index + 1 ∧
      token.lexeme.Longest (text.drop token.position.cursor) := by
  rcases stands with ⟨tokens, read, member, isLexical⟩
  rcases scanSource_eq_ok read with ⟨lines, line, scanned, rfl⟩
  have each := settles_scanEach 0 (linesOf source)
  rw [scanned] at each
  rcases each token (mem_of_mem_append_mark member isLexical rfl) with
    ⟨text, index, words, found, read, within⟩
  rcases scanLine_eq_ok_iff.mp read with ⟨words, rfl, tiling⟩
  have among := mem_of_mem_append_mark within isLexical rfl
  refine ⟨text, index, found, ?_, tiling.longest token among⟩
  have placed := (tiling.placed token among).1
  omega

/-- A character at which no token starts is reported where it stands. -/
def SourceError.PointsAtCharacter (source : String) (error : SourceError) : Prop :=
  ∃ text index character, (linesOf source)[index]? = some text ∧
    error.position.line = index + 1 ∧ text[error.position.cursor]? = some character ∧
    (∀ kind spelling, spelling <+: text.drop error.position.cursor →
      ¬Kind.Matches kind spelling) ∧
    error.cause = if character = '"' then .unterminatedString else .invalidCharacter character

theorem points_of_scanLine {line : Nat} {text : List Char} {error : SourceError}
    (failed : scanLine line text = .error error) :
    error.position.line = line ∧ ∃ character, text[error.position.cursor]? = some character ∧
      (∀ kind spelling, spelling <+: text.drop error.position.cursor →
        ¬Kind.Matches kind spelling) ∧
      error.cause =
        if character = '"' then .unterminatedString else .invalidCharacter character := by
  rcases @Scanner.exists_tiling line text 0 text rfl (Nat.zero_le _) with
    ⟨words, stop, ending, items, tiling, ends⟩
  rw [scanLine, items, mapM_id_append] at failed
  cases ends with
  | whole => cases failed
  | @fault stop first rest here other unmatched =>
      cases failed
      refine ⟨rfl, first, ?_, ?_, rfl⟩
      · rw [← List.head?_drop, here]
        rfl
      · dsimp only
        rw [here]
        exact unmatched

theorem points_of_scanSource {source : String} {error : SourceError}
    (failed : scanSource source = .error error) : error.PointsAtCharacter source := by
  have each := settles_scanEach 0 (linesOf source)
  rw [scanSource, scanLines_eq] at failed
  cases scanned : scanEach 0 (linesOf source) with
  | ok tokens =>
      rw [scanned] at failed
      cases failed
  | error fault =>
      rw [scanned] at failed each
      cases failed
      rcases each with ⟨text, index, found, fails⟩
      rcases points_of_scanLine fails with ⟨line, character, here, unmatched, cause⟩
      exact ⟨text, index, character, found, by omega, here, unmatched, cause⟩

/-- Whatever is parsed comes from the lexemes of the source. A fault is reported at the lexeme that
it is about, or at a character at which none starts. -/
theorem meets_programOfSource {source : String} {keeps : Symbols → Prop}
    (admits : Admits (Token.StandsIn source) keeps) (limit : Nat) :
    Meets keeps (fun trees => ∀ tree ∈ trees, tree.LaidOut)
      (fun error => error.PointsAtCharacter source ∨ error.PointsInto (Token.StandsIn source))
      (programOfSource limit source) := by
  rw [programOfSource]
  cases read : scanSource source with
  | error error => exact fun symbols kept => ⟨kept, .inl (points_of_scanSource read)⟩
  | ok tokens =>
      have parsed : Meets keeps _ _ (programOf limit (separate tokens)) :=
        meets_statementsOf admits (lexemes_standsIn source) (drawn_separate read)
      exact parsed.weaken fun error points => .inr points

end Scriptlet
