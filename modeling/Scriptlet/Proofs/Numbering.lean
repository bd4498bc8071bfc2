import Scriptlet.Proofs.Nodes

/-! Handles are places in the order of first occurrence. Names and strings are entered operator by
operator, run by run and block by block, yet in the order in which they are written; and what a
failed parse has entered is what some first part of the tokens holds. -/

namespace Scriptlet

/-! ## First occurrences -/

/-- The entries of a table into which texts are entered: those that are there, and then the new ones,
each where it first occurs. -/
def TextTable.numbered (table : TextTable) (texts : List String) : List String :=
  table.entries.toList ++ (texts.filter (· ∉ table.entries.toList)).eraseDups

/-- The texts of the tokens of one kind. -/
def textsOf (kind : Kind) (tokens : List Token) : List String :=
  (tokens.filter (·.kind == kind)).map Token.text

theorem TextTable.numbered_enter (table : TextTable) (text : String) (later : List String) :
    (table.enter text).2.numbered later = table.numbered (text :: later) := by
  rw [numbered, numbered]
  rcases table.enter_cases text with ⟨index, found, entered⟩ | ⟨new, _, entered⟩
  · have known := Array.mem_of_getElem? found
    rw [entered, List.filter_cons_of_neg (by simpa using known)]
  · rw [entered, Interner.push, Array.toList_push, List.filter_cons_of_pos (by simpa using new),
      List.eraseDups_cons, List.append_assoc, List.singleton_append, List.filter_filter]
    congr 4
    funext other
    simp [Bool.beq_eq_decide_eq, Bool.and_comm]

/-! ## Entering tokens -/

/-- The tables once the strings and the names among tokens have been entered, one by one. -/
def Symbols.enterAll (symbols : Symbols) (tokens : List Token) : Symbols :=
  tokens.foldl (fun symbols token => (token.leaf symbols).2) symbols

namespace Symbols

theorem enterAll_append (symbols : Symbols) (first second : List Token) :
    symbols.enterAll (first ++ second) = (symbols.enterAll first).enterAll second :=
  List.foldl_append

theorem names_leaf (token : Token) (symbols : Symbols) :
    (token.leaf symbols).2.names =
      if token.kind == .identifier then (symbols.names.enter token.text).2 else symbols.names := by
  rcases token with ⟨kind, text, position⟩
  cases kind <;> rfl

theorem strings_leaf (token : Token) (symbols : Symbols) :
    (token.leaf symbols).2.strings =
      if token.kind == .string then (symbols.strings.enter token.text).2 else symbols.strings := by
  rcases token with ⟨kind, text, position⟩
  cases kind <;> rfl

theorem enterAll_names (symbols : Symbols) (tokens : List Token) :
    (symbols.enterAll tokens).names.entries.toList =
      symbols.names.numbered (textsOf .identifier tokens) := by
  induction tokens generalizing symbols with
  | nil => simp [enterAll, TextTable.numbered, textsOf]
  | cons token later induction =>
      change ((token.leaf symbols).2.enterAll later).names.entries.toList = _
      rw [induction, names_leaf, textsOf, textsOf, List.filter_cons]
      split
      · rw [TextTable.numbered_enter, List.map_cons]
      · rfl

theorem enterAll_strings (symbols : Symbols) (tokens : List Token) :
    (symbols.enterAll tokens).strings.entries.toList =
      symbols.strings.numbered (textsOf .string tokens) := by
  induction tokens generalizing symbols with
  | nil => simp [enterAll, TextTable.numbered, textsOf]
  | cons token later induction =>
      change ((token.leaf symbols).2.enterAll later).strings.entries.toList = _
      rw [induction, strings_leaf, textsOf, textsOf, List.filter_cons]
      split
      · rw [TextTable.numbered_enter, List.map_cons]
      · rfl

end Symbols

/-! ## What a step enters -/

/-- A step enters the operands that it is given in their order, and all of them if it comes
through. -/
def Enters (step : Parse α) (operands : List Token) : Prop :=
  ∀ symbols, ∃ entered, entered <+: operands ∧
    (step.runFrom symbols).2 = symbols.enterAll entered ∧
    ∀ value, (step.runFrom symbols).1 = .ok value → entered = operands

namespace Enters

/-- A step that leaves the tables alone. -/
theorem still {step : Parse α} (same : ∀ symbols, (step.runFrom symbols).2 = symbols) :
    Enters step [] :=
  fun symbols => ⟨[], List.prefix_rfl, same symbols, fun _ _ => rfl⟩

theorem pure (value : α) : Enters (pure value : Parse α) [] :=
  still fun _ => rfl

theorem ofExcept (result : Except SourceError α) : Enters (Parse.ofExcept result) [] :=
  still fun _ => rfl

theorem fail (cause : SourceError.Cause) (position : Position) (operands : List Token) :
    Enters (Parse.fail cause position : Parse α) operands :=
  fun symbols => ⟨[], List.nil_prefix, rfl, fun _ impossible => by cases impossible⟩

theorem fail_bind (cause : SourceError.Cause) (position : Position) (next : α → Parse β)
    (operands : List Token) : Enters (Parse.fail cause position >>= next) operands :=
  fun symbols => ⟨[], List.nil_prefix, rfl, fun _ impossible => by cases impossible⟩

theorem bind {step : Parse α} {next : α → Parse β} {first second : List Token}
    (enters : Enters step first)
    (following : ∀ value symbols later, step.runFrom symbols = (.ok value, later) →
      Enters (next value) second) : Enters (step >>= next) (first ++ second) := by
  intro symbols
  obtain ⟨entered, ahead, tables, whole⟩ := enters symbols
  have rest := fun value => following value symbols
  rw [Parse.runFrom_bind]
  generalize step.runFrom symbols = ending at tables whole rest ⊢
  rcases ending with ⟨error | value, later⟩
  · exact ⟨entered, ahead.trans (List.prefix_append first second), tables,
      fun _ impossible => by cases impossible⟩
  · obtain ⟨further, aheadToo, tablesToo, wholeToo⟩ := rest value later rfl later
    cases whole value rfl
    cases tables
    refine ⟨first ++ further, (List.prefix_append_right_inj first).mpr aheadToo, ?_, ?_⟩
    · rw [Symbols.enterAll_append]
      exact tablesToo
    · intro value isOk
      rw [wholeToo value isOk]

theorem andThen {step : Parse α} {next : α → Parse β} {operands : List Token}
    (enters : Enters step operands) (still : ∀ value, Enters (next value) []) :
    Enters (step >>= next) operands := by
  have both := enters.bind fun value _ _ _ => still value
  rwa [List.append_nil] at both

end Enters

/-! ### Statements -/

theorem Operand.enters_combine (limit below : Nat) (tree : Tree) :
    Enters (combine limit below tree) [] := by
  apply Enters.still
  intro symbols
  rw [runFrom_combine]
  split <;> rfl

/-- A token that is taken in enters what it holds if it is an operand, and nothing otherwise. -/
theorem enters_absorb (limit : Nat) (operands : List Operand) (token : Token) :
    Enters (absorb limit operands token) ([token].filter (·.kind.isOperand)) := by
  by_cases isOperand : token.kind.isOperand
  · rw [List.filter_cons_of_pos (by simpa using isOperand), List.filter_nil]
    intro symbols
    rw [absorb_operand isOperand]
    exact ⟨[token], List.prefix_rfl, rfl, fun _ _ => rfl⟩
  rw [List.filter_cons_of_neg (by simpa using isOperand), List.filter_nil]
  by_cases isUnary : token.kind.isUnary
  · cases operands with
    | nil =>
        rw [absorb_unary_nil isUnary]
        exact .fail _ _ _
    | cons operand below =>
        rw [absorb_unary_cons isUnary]
        exact (Operand.enters_combine _ _ _).andThen fun combined => .pure _
  by_cases isBinary : token.kind.isBinary
  · match operands with
    | [] | [_] =>
        rw [absorb_binary_short isBinary limit (by simp)]
        exact .fail _ _ _
    | right :: left :: below =>
        rw [absorb_binary_cons isBinary]
        exact (Operand.enters_combine _ _ _).andThen fun combined => .pure _
  · rw [absorb_other (by simpa using isOperand) (by simpa using isUnary) (by simpa using isBinary)]
    exact .fail _ _ _

theorem enters_absorb_all (limit : Nat) (operands : List Operand) (run : List Token) :
    Enters (run.foldlM (absorb limit) operands) (run.filter (·.kind.isOperand)) := by
  induction run generalizing operands with
  | nil => exact .pure operands
  | cons token later induction =>
      rw [List.foldlM_cons, ← List.singleton_append, List.filter_append]
      exact (enters_absorb limit operands token).bind fun after _ _ _ => induction after

theorem enters_completeStatement (operands : List Operand) :
    Enters (completeStatement operands) [] := by
  apply Enters.still
  intro symbols
  unfold completeStatement
  split <;> rfl

theorem enters_statementTree (limit : Nat) (run : List Token) :
    Enters (statementTree limit run) (run.filter (·.kind.isOperand)) :=
  (enters_absorb_all limit [] run).andThen enters_completeStatement

theorem enters_statementTrees (limit : Nat) (runs : List (List Token)) :
    Enters (runs.mapM (statementTree limit)) (runs.flatten.filter (·.kind.isOperand)) := by
  induction runs with
  | nil => exact .pure []
  | cons run later induction =>
      rw [List.mapM_cons, List.flatten_cons, List.filter_append]
      exact (enters_statementTree limit run).bind fun statement _ _ _ =>
        induction.andThen fun statements => .pure _

/-- Putting statements in post order leaves their operands in order. -/
theorem operands_of_statementOrders {statements runs : List (List Token)}
    (plain : ∀ statement ∈ statements, OneStatement statement)
    (ordered : List.Forall₂ (fun statement run => statementOrder Kind.binding? statement = .ok run)
      statements runs) :
    runs.flatten.filter (·.kind.isOperand) = statements.flatten.filter (·.kind.isOperand) := by
  induction ordered with
  | nil => rfl
  | cons first _ induction =>
      rw [List.flatten_cons, List.flatten_cons, List.filter_append, List.filter_append,
        statementOrder_operands (plain _ List.mem_cons_self) first,
        induction fun statement member => plain statement (List.mem_cons_of_mem _ member)]

theorem operands_of_statementsIn {tokens : List Token} (ends : EndsLast tokens) :
    (statementsIn tokens).flatten.filter (·.kind.isOperand) =
      tokens.filter (·.kind.isOperand) := by
  induction tokens using statements_induction with
  | last statement plain => rw [statementsIn_statement plain, List.flatten_singleton]
  | ended statement closing later plain closes =>
      cases ends.eq_nil closes
      rw [statementsIn_end plain closes, List.flatten_singleton, List.filter_append,
        List.filter_cons_of_neg (by simp [closes, Kind.isOperand]), List.filter_nil,
        List.append_nil]
  | closed statement closing later plain closes induction =>
      rw [statementsIn_terminator plain closes, List.flatten_cons, List.filter_append,
        induction ends.of_append.2.of_cons, List.filter_append,
        List.filter_cons_of_neg (by simp [closes, Kind.isOperand])]

theorem enters_straightStatements (limit : Nat) {tokens : List Token} (ends : EndsLast tokens) :
    Enters (straightStatements limit tokens) (tokens.filter (·.kind.isOperand)) := by
  rw [straightStatements_eq, ← operands_of_statementsIn ends]
  apply (Enters.ofExcept _).bind
  intro runs symbols later ordered
  rw [Parse.runFrom_ofExcept, Prod.mk.injEq] at ordered
  have same := operands_of_statementOrders
    (fun _ member => oneStatement_of_mem_statementsIn member) (mapM_eq_ok_iff.mp ordered.1)
  rw [← same]
  exact (enters_statementTrees limit runs).andThen fun statements => .pure _

theorem enters_soleCondition (limit : Nat) (keyword : Token) {tokens : List Token}
    (ends : EndsLast tokens) :
    Enters (soleCondition limit keyword tokens) (tokens.filter (·.kind.isOperand)) := by
  apply (enters_straightStatements limit ends).andThen
  intro statements
  split
  · exact .pure _
  · exact .fail _ _ _

/-! ### Programs -/

theorem not_isOperand_of_isControl {token : Token} (isControl : token.kind.isControl) :
    token.kind.isOperand = false := by
  rcases token with ⟨kind, text, position⟩
  cases kind <;> first | rfl | cases isControl

/-- What is entered for a governed statement, and then for what follows it. -/
theorem enters_governed {limit depth : Nat} {keyword : Token} {after : List Token}
    (ends : EndsLast after) {next : Tree × List Token → Parse α}
    (inner : ∀ block : List Token, block.length < after.length → EndsLast block →
      Enters (statementsOf limit (depth + 1) block) (block.filter (·.kind.isOperand)))
    (behind : ∀ tree rest, rest.length < after.length → EndsLast rest →
      Enters (next (tree, rest)) (rest.filter (·.kind.isOperand))) :
    Enters (governed limit depth keyword after >>= next) (after.filter (·.kind.isOperand)) := by
  rw [governed_eq]
  split
  · exact .fail_bind _ _ _ _
  split
  · exact .fail_bind _ _ _ _
  rename_i tokens brace inside opened
  have shorter := splitAtOpen_length opened
  obtain ⟨rfl, opens, _⟩ := splitAtOpen_eq_some opened
  have endsInside := ends.of_append.2.of_cons
  rw [bind_assoc, List.filter_append, List.filter_cons_of_neg (by simp [opens, Kind.isOperand])]
  apply (enters_soleCondition limit keyword ends.of_append.1).bind
  intro condition _ _ _
  split
  · exact .fail_bind _ _ _ _
  rename_i block rest closed
  have shortest := splitAtClose_length closed
  obtain ⟨closing, closes, rfl⟩ := splitAtClose_eq_some closed
  rw [bind_assoc, List.filter_append, List.filter_cons_of_neg (by simp [closes, Kind.isOperand])]
  apply (inner block (by omega) (EndsLast.of_append endsInside).1).bind
  intro body _ _ _
  rw [pure_bind]
  exact behind _ rest (by omega) (EndsLast.of_append endsInside).2.of_cons

theorem enters_statementsOf (limit depth : Nat) {tokens : List Token} (ends : EndsLast tokens) :
    Enters (statementsOf limit depth tokens) (tokens.filter (·.kind.isOperand)) := by
  induction tokens using program_induction generalizing depth with
  | straight tokens straight =>
      rw [statementsOf_straight limit depth straight]
      exact enters_straightStatements limit ends
  | brace before stop later straight stops notControl =>
      rw [statementsOf_brace limit depth straight stops notControl]
      exact .fail _ _ _
  | control before keyword later straight isControl induction =>
      rw [statementsOf_control limit depth straight isControl, List.filter_append,
        List.filter_cons_of_neg (by simp [not_isOperand_of_isControl isControl])]
      apply (enters_straightStatements limit ends.of_append.1).bind
      intro earlier _ _ _
      apply enters_governed ends.of_append.2.of_cons
      · exact fun block shorter endsBlock => induction block shorter (depth + 1) endsBlock
      · exact fun tree rest shorter endsRest =>
          (induction rest shorter depth endsRest).andThen fun following => .pure _

/-! ## Sources -/

theorem textsOf_operands {kind : Kind} (isOperand : kind.isOperand) (tokens : List Token) :
    textsOf kind (tokens.filter (·.kind.isOperand)) = textsOf kind tokens := by
  rw [textsOf, textsOf, List.filter_filter]
  congr 2
  funext token
  by_cases same : token.kind = kind
  · simp [same, isOperand]
  · simp [same]

/-- What the operands among tokens enter is numbered by their first occurrence. -/
theorem Symbols.enterAll_operands (symbols : Symbols) (tokens : List Token) :
    let final := symbols.enterAll (tokens.filter (·.kind.isOperand))
    final.names.entries.toList = symbols.names.numbered (textsOf .identifier tokens) ∧
      final.strings.entries.toList = symbols.strings.numbered (textsOf .string tokens) := by
  dsimp only
  rw [enterAll_names, enterAll_strings, textsOf_operands rfl, textsOf_operands rfl]
  exact ⟨rfl, rfl⟩

/-- A source numbers its names and its strings by their first occurrence, whatever they occur in. A
source that is rejected has numbered those of some first part of its tokens. -/
theorem programOfSource_numbered {source : String} {tokens : List Token}
    (read : scanSource source = .ok tokens) (limit : Nat) (symbols : Symbols) :
    let (result, final) := (programOfSource limit source).runFrom symbols
    ∃ ahead, ahead <+: tokens ∧ (∀ program, result = .ok program → ahead = tokens) ∧
      final.names.entries.toList = symbols.names.numbered (textsOf .identifier ahead) ∧
      final.strings.entries.toList = symbols.strings.numbered (textsOf .string ahead) := by
  have parse : programOfSource limit source = statementsOf limit 0 (separate tokens) := by
    rw [programOfSource, read]
    rfl
  have operands : (separate tokens).filter (·.kind.isOperand) = tokens.filter (·.kind.isOperand) :=
    separateAfter_filter (fun token terminates => by simp [terminates, Kind.isOperand]) none tokens
  obtain ⟨entered, first, tables, whole⟩ :=
    enters_statementsOf limit 0 (endsLast_separate read) symbols
  rw [operands] at first whole
  rw [parse]
  generalize (statementsOf limit 0 (separate tokens)).runFrom symbols = ending at tables whole ⊢
  rcases ending with ⟨error | program, final⟩
  · obtain ⟨ahead, within, rfl⟩ := List.prefix_filter_iff.mp first
    cases tables
    refine ⟨ahead, within, ?_, symbols.enterAll_operands ahead⟩
    intro program impossible
    cases impossible
  · cases whole program rfl
    cases tables
    exact ⟨tokens, List.prefix_rfl, fun _ _ => rfl, symbols.enterAll_operands tokens⟩

/-- The block is rejected for its open parenthesis, before the name in it is entered. -/
theorem programOfSource_numbered_block :
    let source := "print b & a\nif \"s\" = a \x7b c := ( \x7d"
    let tokens : List Token :=
      [⟨.command .print, "print", ⟨1, 0⟩⟩, ⟨.identifier, "b", ⟨1, 6⟩⟩, ⟨.binary .and, "&", ⟨1, 8⟩⟩,
        ⟨.identifier, "a", ⟨1, 10⟩⟩, .terminator ⟨1, 11⟩, ⟨.control .conditional, "if", ⟨2, 0⟩⟩,
        ⟨.string, "s", ⟨2, 3⟩⟩, ⟨.binary .equal, "=", ⟨2, 7⟩⟩, ⟨.identifier, "a", ⟨2, 9⟩⟩,
        ⟨.openBlock, "\x7b", ⟨2, 11⟩⟩, ⟨.identifier, "c", ⟨2, 13⟩⟩, ⟨.assign, ":=", ⟨2, 15⟩⟩,
        ⟨.openParen, "(", ⟨2, 18⟩⟩, ⟨.closeBlock, "\x7d", ⟨2, 20⟩⟩, .terminator ⟨2, 21⟩,
        .endOfInput 2]
    let symbols : Symbols := ⟨.ofTexts ["t"], .ofTexts ["a"]⟩
    let final : Symbols := ⟨.ofTexts ["t", "s"], .ofTexts ["a", "b"]⟩
    scanSource source = .ok tokens ∧
      (programOfSource 3 source).runFrom symbols =
        (.error ⟨.unclosedParen, ⟨2, 18⟩⟩, final) ∧
      ∃ ahead, ahead <+: tokens ∧
        final.names.entries.toList = symbols.names.numbered (textsOf .identifier ahead) ∧
        final.strings.entries.toList = symbols.strings.numbered (textsOf .string ahead) := by
  intro source tokens symbols final
  have read : scanSource source = .ok tokens := by cbv
  have rejected : (programOfSource 3 source).runFrom symbols =
      (.error ⟨.unclosedParen, ⟨2, 18⟩⟩, final) := by cbv
  have numbered := programOfSource_numbered read 3 symbols
  rw [rejected] at numbered
  obtain ⟨ahead, within, _, numbers⟩ := numbered
  exact ⟨read, rejected, ahead, within, numbers⟩

end Scriptlet
