import Scriptlet.Proofs.Nodes

/-! Numbers flush against names. Such a pair is left in one statement, where it is one operand too
many. What becomes of it is a matter of counting: the statement can only be parsed if as many
operands are missing elsewhere in it. -/

namespace Scriptlet

/-! ## Counting -/

/-- How many operands are missing: wherever one is due, at the start, behind an operator and behind
an open parenthesis, and none begins. -/
def lacking : Bool → List Token → Nat
  | due, [] => if due then 1 else 0
  | true, next :: later =>
      if next.kind.isOperand then lacking false later
      else if next.kind = .openParen ∨ next.leads then lacking true later
      else if next.kind = .closeParen then lacking false later + 1
      else lacking true later + 1
  | false, next :: later =>
      if next.kind.isBinary then lacking true later else lacking false later

theorem Kind.not_closesOperand_of_isBinary {kind : Kind} (isBinary : kind.isBinary) :
    kind.closesOperand = false := by
  cases kind <;> first | rfl | cases isBinary

theorem Token.not_closesOperand_of_leads {token : Token} (leads : token.leads) :
    token.kind.closesOperand = false := by
  have notParen := not_isParen_of_leads leads
  rw [isParen, Bool.or_eq_false_iff] at notParen
  rw [Kind.closesOperand, not_isOperand_of_leads leads, notParen.2]
  rfl

section

variable {next : Token} (later : List Token)

theorem lacking_operand (isOperand : next.kind.isOperand) (due : Bool) :
    lacking due (next :: later) = lacking false later := by
  have notBinary : next.kind.isBinary = false := by
    rcases next with ⟨kind, text, position⟩
    cases kind <;> first | rfl | cases isOperand
  cases due with
  | false => rw [lacking, notBinary, if_neg Bool.false_ne_true]
  | true => rw [lacking, if_pos isOperand]

theorem lacking_close (closes : next.kind = .closeParen) (due : Bool) :
    lacking due (next :: later) = lacking false later + if due then 1 else 0 := by
  have notLeads : ¬next.leads := by
    intro leads
    have notParen := Token.not_isParen_of_leads leads
    simp [Token.isParen, closes] at notParen
  cases due <;> simp [lacking, closes, notLeads, Kind.isOperand, Kind.isBinary]

theorem lacking_open (opens : next.kind = .openParen) :
    lacking true (next :: later) = lacking true later := by
  simp [lacking, opens, Kind.isOperand]

theorem lacking_leads (leads : next.leads) :
    lacking true (next :: later) = lacking true later := by
  simp [lacking, leads, Token.not_isOperand_of_leads leads]

theorem lacking_binary (isBinary : next.kind.isBinary) {due : Bool}
    (notSign : due → next.kind ≠ .binary .subtract) :
    lacking due (next :: later) = lacking true later + if due then 1 else 0 := by
  cases due with
  | false => rw [lacking, if_pos isBinary, if_neg Bool.false_ne_true, Nat.add_zero]
  | true =>
      have notLeads : ¬next.leads := by
        rw [Token.leads, Token.readSign_of_kind_ne (notSign rfl)]
        rcases next with ⟨kind, text, position⟩
        cases kind <;> first | exact Bool.false_ne_true | cases isBinary
      have notParen := Token.not_isParen_of_isBinary isBinary
      simp only [Token.isParen, Bool.or_eq_false_iff, beq_eq_false_iff_ne] at notParen
      simp [lacking, notLeads, notParen, Kind.not_isOperand_of_isBinary isBinary]

end

/-- How many numbers are flush against a name. -/
def flushPairs : List Token → Nat
  | first :: second :: later =>
      (if first.isFlush second then 1 else 0) + flushPairs (second :: later)
  | _ => 0

theorem flushPairs_append (previous : Option Token) (next : Token) (later : List Token) :
    flushPairs (previous.toList ++ next :: later) =
      (if previous.any (·.isFlush next) then 1 else 0) + flushPairs (next :: later) := by
  cases previous with
  | none => simp
  | some last => simp [flushPairs]

theorem flushPairs_le_cons (token : Token) (tokens : List Token) :
    flushPairs tokens ≤ flushPairs (token :: tokens) := by
  cases tokens with
  | nil => exact Nat.le_refl _
  | cons next later => exact Nat.le_add_left _ _

theorem flushPairs_pos {number name : Token} (flush : number.isFlush name) {tokens : List Token}
    (within : [number, name] <:+: tokens) : 0 < flushPairs tokens := by
  rcases within with ⟨before, after, rfl⟩
  rw [List.append_assoc]
  induction before with
  | nil => simp [flushPairs, flush]
  | cons token earlier induction => exact induction.trans_le (flushPairs_le_cons token _)

theorem Token.isOperand_of_isFlush {previous next : Token} (flush : previous.isFlush next) :
    previous.kind.isOperand ∧ next.kind.isOperand := by
  simp only [isFlush, isNumber, Bool.and_eq_true, Bool.or_eq_true, beq_iff_eq] at flush
  rcases flush with ⟨⟨number | number, name⟩, _⟩
  all_goals
    rw [number, name]
    exact ⟨rfl, rfl⟩

theorem any_isFlush_of_not_isOperand {next : Token} (notOperand : next.kind.isOperand = false)
    (previous : Option Token) : previous.any (·.isFlush next) = false := by
  cases previous with
  | none => rfl
  | some last =>
      cases flush : last.isFlush next with
      | false => exact flush
      | true =>
          rw [(Token.isOperand_of_isFlush flush).2] at notOperand
          cases notOperand

theorem any_isFlush_of_due {previous : Option Token}
    (due : previous.any (·.kind.closesOperand) = false) (next : Token) :
    previous.any (·.isFlush next) = false := by
  cases previous with
  | none => rfl
  | some last =>
      cases flush : last.isFlush next with
      | false => exact flush
      | true =>
          simp [Kind.closesOperand, (Token.isOperand_of_isFlush flush).1] at due

/-- What a token adds to the balance makes up for what is missing and what is too many there, and
for what is due on either side of it. -/
structure Counted (before : Option Kind) (due : Bool) (next : Token) (later : List Token)
    (extra : Bool) (after : Bool) : Prop where
  state : operandDue (some (next.readSign before).kind) = after
  closes : next.kind.closesOperand = !after
  count : (next.readSign before).weight + lacking due (next :: later) + (if after then 1 else 0) =
    (if due then 1 else 0) + (if extra then 1 else 0) + lacking after later

section

variable {before : Option Kind} {due : Bool} {next : Token} (later : List Token)

/-- An operand is too many where none is due. -/
theorem counted_operand (isOperand : next.kind.isOperand) :
    Counted before due next later (!due) false := by
  have same := Token.readSign_of_kind_ne (Kind.ne_subtract_of_isOperand isOperand) before
  constructor
  · rw [same]
    exact operandDue_operand isOperand
  · rw [Kind.closesOperand, isOperand]
    rfl
  · rw [same, Token.weight_operand isOperand, lacking_operand later isOperand]
    cases due <;> simp

theorem counted_close (closes : next.kind = .closeParen) :
    Counted before due next later false false := by
  have same : next.readSign before = next :=
    Token.readSign_of_kind_ne (by rw [closes]; exact Kind.noConfusion) before
  constructor
  · rw [same, closes]
    rfl
  · rw [closes]
    rfl
  · rw [same, Token.weight_paren (by rw [Token.isParen, closes]; rfl), lacking_close later closes]
    cases due <;> simp [Int.add_comm]

theorem counted_open (opens : next.kind = .openParen) :
    Counted before true next later false true := by
  have same : next.readSign before = next :=
    Token.readSign_of_kind_ne (by rw [opens]; exact Kind.noConfusion) before
  constructor
  · rw [same, opens]
    rfl
  · rw [opens]
    rfl
  · rw [same, Token.weight_paren (by rw [Token.isParen, opens]; rfl), lacking_open later opens]
    simp [Int.add_comm]

theorem counted_leads (state : operandDue before = true) (leads : next.leads) :
    Counted before true next later false true := by
  have read := Token.readSign_of_due state next
  constructor
  · rw [read]
    exact operandDue_operator (.inl leads)
  · exact Token.not_closesOperand_of_leads leads
  · rw [read, Token.weight_unary leads, lacking_leads later leads]
    simp [Int.add_comm]

theorem counted_binary (isBinary : next.kind.isBinary) (state : operandDue before = due)
    (notSign : due → next.kind ≠ .binary .subtract) :
    Counted before due next later false true := by
  have same : next.readSign before = next := by
    cases due with
    | false => exact Token.readSign_of_not_due state next
    | true => exact Token.readSign_of_kind_ne (notSign rfl) before
  constructor
  · rw [same]
    exact operandDue_operator (.inr isBinary)
  · exact Kind.not_closesOperand_of_isBinary isBinary
  · rw [same, Token.weight_binary isBinary, lacking_binary later isBinary notSign]
    cases due <;> simp [Int.add_comm]

/-- Every token can be counted, and an operand is too many only where it is a name that a number is
flush against. -/
theorem exists_counted (scanned : next.kind.isScanned) {previous : Option Token}
    (joined : ∀ last ∈ previous, last.isFlush next ∨
      ¬(last.kind.closesOperand ∧ next.kind.opensStatement))
    (state : operandDue before = due) (closes : previous.any (·.kind.closesOperand) = !due) :
    ∃ after, Counted before due next later (previous.any (·.isFlush next)) after := by
  cases due with
  | true =>
      rw [any_isFlush_of_due closes]
      rcases Token.cases_of_due scanned with
        isOperand | opens | leads | closing | ⟨isBinary, notSign⟩
      · exact ⟨false, counted_operand later isOperand⟩
      · exact ⟨true, counted_open later opens⟩
      · exact ⟨true, counted_leads later state leads⟩
      · exact ⟨false, counted_close later closing⟩
      · exact ⟨true, counted_binary later isBinary state fun _ => notSign⟩
  | false =>
      obtain ⟨last, rfl⟩ : ∃ last, previous = some last := by
        cases previous with
        | none => cases closes
        | some last => exact ⟨last, rfl⟩
      cases starts : next.kind.opensStatement with
      | true =>
          have flush : last.isFlush next := (joined last rfl).resolve_right fun apart =>
            apart ⟨by simpa using closes, starts⟩
          rw [Option.any_some, flush]
          exact ⟨false, counted_operand later (Token.isOperand_of_isFlush flush).2⟩
      | false =>
          rcases Token.cases_of_not_due scanned starts with closing | isBinary
          · rw [any_isFlush_of_not_isOperand (by rw [closing]; rfl)]
            exact ⟨false, counted_close later closing⟩
          · rw [any_isFlush_of_not_isOperand (Kind.not_isOperand_of_isBinary isBinary)]
            exact ⟨true, counted_binary later isBinary state (absurd · Bool.false_ne_true)⟩

end

/-- The balance of a statement is what is due, with an operand more for every number flush against a
name, and one less for every operand that is missing. -/
theorem balance_add_lacking {statement : List Token}
    (scanned : ∀ token ∈ statement, token.kind.isScanned) {previous : Option Token}
    (joined : (previous.toList ++ statement).IsChain fun earlier later =>
      earlier.isFlush later ∨ ¬(earlier.kind.closesOperand ∧ later.kind.opensStatement))
    {before : Option Kind} {due : Bool} (state : operandDue before = due)
    (closes : previous.any (·.kind.closesOperand) = !due) :
    balance (readSigns before statement) + lacking due statement =
      (if due then 1 else 0) + flushPairs (previous.toList ++ statement) := by
  induction statement generalizing previous before due with
  | nil =>
      have none : flushPairs (previous.toList ++ []) = 0 := by
        cases previous <;> rfl
      rw [none]
      cases due <;> simp [readSigns, lacking]
  | cons next later induction =>
      rcases List.forall_mem_cons.mp scanned with ⟨kind, others⟩
      have beside : ∀ last ∈ previous, last.isFlush next ∨
          ¬(last.kind.closesOperand ∧ next.kind.opensStatement) := by
        rintro last ⟨⟩
        exact (List.isChain_cons_cons.mp joined).1
      rcases exists_counted later kind beside state closes with ⟨after, counted⟩
      have rest := @induction others (some next) joined.right_of_append _ after
        counted.state counted.closes
      have count := counted.count
      rw [readSigns, balance_cons, flushPairs_append]
      rw [Option.toList, List.singleton_append] at rest
      push_cast
      omega

/-! ## Statements that are parsed -/

/-- A statement with a tree has one operand over and above its operators. -/
theorem balance_of_parsedFrom {final : Symbols} {tree : Tree} {statement : List Token}
    (plain : OneStatement statement) (parsed : ParsedFrom final tree statement) :
    balance (readSigns none statement) = 1 := by
  rcases parsed with ⟨limit, run, symbols, later, ordered, built, _⟩
  rw [statementTree, Parse.runFrom_bind_eq_ok] at built
  rcases built with ⟨operands, middle, absorbed, completed⟩
  have count := (length_absorb_all absorbed).1
  rcases (completeStatement_eq_ok completed).2 with ⟨_, none⟩ | ⟨only, rfl, _⟩
  · cases none
  · rw [← balance_statementOrder plain ordered]
    simpa using count.symm

/-- In a program every statement lacks as many operands as there are numbers flush against a name in
it. -/
theorem lacking_eq_flushPairs {source : String} {tokens : List Token}
    (read : scanSource source = .ok tokens) {limit : Nat} {symbols later : Symbols}
    {program : List Tree}
    (parsed : (programOf limit (separate tokens)).outcome symbols = .ok (program, later))
    {statement : List Token} (member : statement ∈ writtenStatements (separate tokens)) :
    lacking true statement = flushPairs statement := by
  rcases exists_of_mem_pieces (List.mem_filter.mp member).1 with ⟨⟨front, back, whole⟩, inside⟩
  have among (token : Token) (within : token ∈ statement) : token ∈ separate tokens := by
    rw [whole]
    exact List.mem_append_left _ (List.mem_append_right _ within)
  have scanned (token : Token) (within : token ∈ statement) : token.kind.isScanned :=
    ((lexical_separate read).scanned (among token within) (inside token within)).1
  have plain : OneStatement statement := by
    intro token within
    have unbounded := inside token within
    rw [Token.bounds, Bool.or_eq_false_iff] at unbounded
    exact unbounded.1
  have joined := separate_unbroken tokens
  rw [whole] at joined
  have counted := @balance_add_lacking statement scanned none
    joined.left_of_append.right_of_append none true rfl rfl
  have correspond :=
    (statementsOf_correspond (endsLast_separate read) parsed).parsed later (.refl _)
  rcases List.forall₂_iff_get.mp correspond with ⟨same, each⟩
  rcases List.mem_iff_get.mp member with ⟨⟨index, below⟩, here⟩
  have one := balance_of_parsedFrom plain (here ▸ each index (same ▸ below) below)
  rw [one] at counted
  simp only [if_true, Option.toList, List.nil_append] at counted
  omega

/-! ## Where a pair stands -/

theorem Token.joins_of_isFlush {previous next : Token} (flush : previous.isFlush next) :
    previous.endsStatementBefore next = false := by
  have notBlock : previous.kind ≠ .closeBlock := by
    intro block
    simp [isFlush, isNumber, block] at flush
  rw [isFlush] at flush
  rw [endsStatementBefore, if_neg notBlock, if_pos flush]

theorem exists_separateAfter {number name : Token} (flush : number.isFlush name)
    (previous : Option Token) (before after : List Token) :
    ∃ front back, separateAfter previous (before ++ number :: name :: after) =
      front ++ number :: name :: back := by
  have inside := Token.isOperand_of_isFlush flush
  have notTerminator {token : Token} (isOperand : token.kind.isOperand) :
      token.kind ≠ .terminator := by
    intro terminator
    rw [terminator] at isOperand
    cases isOperand
  induction before generalizing previous with
  | nil =>
      have joins : ∀ last ∈ some number, last.endsStatementBefore name = false := by
        rintro _ ⟨⟩
        exact Token.joins_of_isFlush flush
      have kept := separateAfter_keep (notTerminator inside.2) joins after
      rcases separateAfter_cons previous number with ⟨terminator, _⟩ | ⟨_, here⟩ | here
      · exact absurd terminator (notTerminator inside.1)
      · refine ⟨[], separateAfter (some name) after, ?_⟩
        rw [List.nil_append, here, kept]
        rfl
      · refine ⟨[.terminator number.position], separateAfter (some name) after, ?_⟩
        rw [List.nil_append, here, kept]
        rfl
  | cons token earlier induction =>
      rw [List.cons_append]
      rcases separateAfter_cons previous token with ⟨_, _, dropped⟩ | ⟨_, here⟩ | here
      · rw [dropped]
        exact induction previous
      · rcases induction (some token) with ⟨front, back, rest⟩
        exact ⟨token :: front, back, by rw [here, rest]; rfl⟩
      · rcases induction (some token) with ⟨front, back, rest⟩
        exact ⟨.terminator token.position :: token :: front, back, by rw [here, rest]; rfl⟩

theorem exists_splitOnP_append {test : α → Bool} {stretch : List α}
    (inside : ∀ item ∈ stretch, test item = false) (after : List α) :
    ∃ rest others, (stretch ++ after).splitOnP test = (stretch ++ rest) :: others := by
  induction stretch with
  | nil => exact List.exists_cons_of_ne_nil (List.splitOnP_ne_nil test after)
  | cons item later induction =>
      rcases List.forall_mem_cons.mp inside with ⟨here, there⟩
      rcases induction there with ⟨rest, others, same⟩
      refine ⟨rest, others, ?_⟩
      rw [List.cons_append, List.splitOnP_cons_eq_if_modifyHead, here,
        if_neg Bool.false_ne_true, same]
      rfl

/-- A stretch without a boundary is part of a piece. -/
theorem exists_infix_splitOnP {test : α → Bool} {stretch : List α}
    (inside : ∀ item ∈ stretch, test item = false) (before after : List α) :
    ∃ piece ∈ (before ++ (stretch ++ after)).splitOnP test, stretch <:+: piece := by
  induction before with
  | nil =>
      rcases exists_splitOnP_append inside after with ⟨rest, others, same⟩
      refine ⟨stretch ++ rest, ?_, (List.prefix_append stretch rest).isInfix⟩
      rw [List.nil_append, same]
      exact List.mem_cons_self
  | cons item earlier induction =>
      rcases induction with ⟨piece, member, within⟩
      rw [List.cons_append, List.splitOnP_cons_eq_if_modifyHead]
      split
      · exact ⟨piece, List.mem_cons_of_mem _ member, within⟩
      · cases same : (earlier ++ (stretch ++ after)).splitOnP test with
        | nil => exact absurd same (List.splitOnP_ne_nil _ _)
        | cons first others =>
            rw [same] at member
            rcases List.mem_cons.mp member with rfl | member
            · exact ⟨item :: piece, List.mem_cons_self, List.infix_cons within⟩
            · exact ⟨piece, List.mem_cons_of_mem _ member, within⟩

/-- A number flush against a name stands in one statement with it. -/
theorem exists_writtenStatement {tokens before after : List Token} {number name : Token}
    (pair : tokens = before ++ number :: name :: after) (flush : number.isFlush name) :
    ∃ statement ∈ writtenStatements (separate tokens), [number, name] <:+: statement := by
  have operands := Token.isOperand_of_isFlush flush
  have inside : ∀ token ∈ [number, name], token.bounds = false := by
    intro token member
    rcases List.mem_pair.mp member with rfl | rfl
    · exact Token.not_bounds (.inl operands.1)
    · exact Token.not_bounds (.inl operands.2)
  rcases exists_separateAfter flush none before after with ⟨front, back, separated⟩
  rcases exists_infix_splitOnP inside front back with ⟨statement, member, within⟩
  refine ⟨statement, List.mem_filter.mpr ⟨?_, ?_⟩, within⟩
  · rw [pieces, pair, separate, separated]
    exact member
  · rw [List.any_eq_true]
    refine ⟨number, within.subset List.mem_cons_self, ?_⟩
    rw [Token.not_isParen_of_isOperand operands.1]
    rfl

/-- A number flush against a name stands in one statement with it, and there is no program unless
that statement lacks exactly as many operands as there are such pairs in it. If it lacks none, there
is no program. -/
theorem programOfSource_flush {source : String} {tokens before after : List Token}
    {number name : Token} (read : scanSource source = .ok tokens)
    (pair : tokens = before ++ number :: name :: after) (flush : number.isFlush name) :
    ∃ statement ∈ writtenStatements (separate tokens), [number, name] <:+: statement ∧
      0 < flushPairs statement ∧
      (lacking true statement ≠ flushPairs statement →
        ∀ limit symbols, ∃ error later,
          (programOfSource limit source).runFrom symbols = (.error error, later)) := by
  rcases exists_writtenStatement pair flush with ⟨statement, member, within⟩
  refine ⟨statement, member, within, flushPairs_pos flush within, ?_⟩
  intro different limit symbols
  rcases ran : (programOfSource limit source).runFrom symbols with ⟨error | program, later⟩
  · exact ⟨error, later, rfl⟩
  · rw [programOfSource, read] at ran
    exact absurd (lacking_eq_flushPairs read (Parse.outcome_eq_ok.mpr ran) member) different

/-- Behind a keyword nothing takes the second operand. -/
theorem programOfSource_flush_print :
    let number : Token := ⟨.integer, "2", ⟨1, 6⟩⟩
    let name : Token := ⟨.identifier, "x", ⟨1, 7⟩⟩
    scanSource "print 2x" =
        .ok ([.spelled (.command .print) ⟨1, 0⟩] ++ number :: name ::
          [.terminator ⟨1, 8⟩, .endOfInput 1]) ∧
      number.isFlush name ∧
      ∀ limit symbols, ∃ error later,
        (programOfSource limit "print 2x").runFrom symbols = (.error error, later) := by
  intro number name
  have read : scanSource "print 2x" =
      .ok ([.spelled (.command .print) ⟨1, 0⟩] ++ number :: name ::
        [.terminator ⟨1, 8⟩, .endOfInput 1]) := by
    dsimp only [number, name]
    cbv
  have flush : number.isFlush name := by
    dsimp only [number, name]
    cbv
  rcases programOfSource_flush read rfl flush with ⟨statement, member, _, _, rejected⟩
  have only : writtenStatements (separate ([.spelled (.command .print) ⟨1, 0⟩] ++ number :: name ::
      [.terminator ⟨1, 8⟩, .endOfInput 1])) =
        [[.spelled (.command .print) ⟨1, 0⟩, number, name]] := by
    dsimp only [number, name]
    cbv
  rw [only, List.mem_singleton] at member
  subst member
  refine ⟨read, flush, rejected ?_⟩
  dsimp only [number, name]
  cbv

/-- An operator that lacks an operand takes the one that is too many. -/
theorem programOfSource_flush_operator :
    ¬ ∀ (source : String) (tokens before after : List Token) (number name : Token),
      scanSource source = .ok tokens → tokens = before ++ number :: name :: after →
      number.isFlush name → ∀ limit symbols, ∃ error later,
        (programOfSource limit source).runFrom symbols = (.error error, later) := by
  intro all
  have read : scanSource "2x+" =
      .ok ([] ++ ⟨.integer, "2", ⟨1, 0⟩⟩ :: ⟨.identifier, "x", ⟨1, 1⟩⟩ ::
        [.spelled (.binary .add) ⟨1, 2⟩, .terminator ⟨1, 3⟩, .endOfInput 1]) := by
    cbv
  have parsed : (programOfSource 3 "2x+").runFrom {} =
      (.ok [.binary .add (.integer "2" ⟨1, 0⟩) (.identifier ⟨0⟩ ⟨1, 1⟩) ⟨1, 2⟩],
        ⟨{}, .ofTexts ["x"]⟩) := by
    cbv
  rcases all _ _ _ _ _ _ read rfl (by cbv) 3 {} with ⟨error, later, rejected⟩
  rw [parsed] at rejected
  cases rejected

end Scriptlet
