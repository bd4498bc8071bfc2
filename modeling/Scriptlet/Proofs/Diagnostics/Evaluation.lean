import Scriptlet.Proofs.Diagnostics.Parsing
import Scriptlet.Proofs.Events.Basic
import Scriptlet.Proofs.Session.Basic

/-! Where the errors of a program are reported. Every node of a program stands where its token does,
and an error that arises at a node is about that token. -/

namespace Scriptlet

/-! ## Errors and their tokens -/

/-- The tokens that an error can be about. -/
def EvalError.Cause.Fits (token : Token) : EvalError.Cause → Prop
  | incompatibleTypes operator | wrongTypes operator | expectedBooleans operator
  | expectedNumbers operator => token.Reads (.binary operator)
  | expectedCondition control => token.Reads (.control control)
  | wrongOperand operator _ =>
      token.kind = (Kind.unary operator).written ∧ token.text = operator.symbol
  | unboundIdentifier name => token.kind = .identifier ∧ token.text = name
  | expectedIdentifier beside => token.Reads beside
  | invalidLiteral text _ => token.isNumber ∧ token.text = text
  | missingValue =>
      token.Reads .assign ∨ token.Reads (.command .print) ∨ token.Reads (.command .delete)
  | divisionByZero => token.Reads (.binary .divide) ∨ token.Reads (.binary .power)
  | overflow => ∃ operator : BinaryOperator,
      operator.class = .arithmetic ∧ token.Reads (.binary operator)

/-- An error is reported where a token of the source stands that it is about. A failure of the
console has no place. -/
def EvalError.PointsInto (source : Token → Prop) : EvalError → Prop
  | fault cause position =>
      ∃ token, source token ∧ token.position = position ∧ cause.Fits token
  | console _ => True

def Stop.PointsInto (source : Token → Prop) : Stop → Prop
  | .error reported => reported.PointsInto source
  | .outOfFuel => True

/-! ## Operators -/

theorem Value.fits_refusal {operator : BinaryOperator} {token : Token}
    (reads : token.Reads (.binary operator)) (left right : Value) :
    (refusal operator left right).Fits token := by
  unfold refusal
  split
  · split <;> exact reads
  all_goals exact reads

/-- What an operator makes of two values is no variable, and its errors are its own. -/
def Value.Settled (token : Token) : Except EvalError.Cause Value → Prop :=
  Settles (fun value => value.type ≠ .identifier) (EvalError.Cause.Fits token)

theorem Value.settled_fitted {operator : BinaryOperator} {token : Token}
    (reads : token.Reads (.binary operator)) (arithmetic : operator.class = .arithmetic)
    (result : Option Integer) : Settled token (fitted result) := by
  cases result with
  | none => exact ⟨operator, arithmetic, reads⟩
  | some => exact ValueType.noConfusion

theorem Value.settled_combineIntegers {operator : BinaryOperator} {token : Token}
    (reads : token.Reads (.binary operator)) (left right : Integer) :
    Settled token (combineIntegers operator left right) := by
  cases operator with
  | add | subtract | multiply => exact settled_fitted reads rfl _
  | divide =>
      rw [combineIntegers]
      split
      · exact .inl reads
      · exact settled_fitted reads rfl _
  | power =>
      rw [combineIntegers]
      split
      · exact .inr reads
      · exact settled_fitted reads rfl _
  | less | greater | lessEqual | greaterEqual | equal | notEqual => exact ValueType.noConfusion
  | and | or => exact reads

theorem Value.settled_combineDecimals {operator : BinaryOperator} {token : Token}
    (reads : token.Reads (.binary operator)) (left right : Decimal) :
    Settled token (combineDecimals operator left right) := by
  cases operator with
  | divide =>
      rw [combineDecimals]
      split
      · exact .inl reads
      · exact ValueType.noConfusion
  | power =>
      rw [combineDecimals]
      split
      · exact .inr reads
      · exact ValueType.noConfusion
  | and | or => exact reads
  | _ => exact ValueType.noConfusion

theorem Value.settled_combineBooleans {operator : BinaryOperator} {token : Token}
    (reads : token.Reads (.binary operator)) (left right : Bool) :
    Settled token (combineBooleans operator left right) := by
  cases operator with
  | and | or | equal | notEqual => exact ValueType.noConfusion
  | _ => exact fits_refusal reads (.boolean left) (.boolean right)

theorem Value.settled_combine {operator : BinaryOperator} {token : Token}
    (reads : token.Reads (.binary operator)) (left right : Value) (symbols : Symbols) :
    Settled token (combine operator left right symbols).1 := by
  unfold combine
  split
  · rename_i first second
    cases operator with
    | add | equal | notEqual => exact ValueType.noConfusion
    | _ => exact fits_refusal reads (.string first) (.string second)
  · exact settled_combineBooleans reads _ _
  · split
    · exact settled_combineIntegers reads _ _
    · exact settled_combineDecimals reads _ _
    · exact fits_refusal reads _ _

theorem Value.settled_transform {operator : UnaryOperator} {token : Token}
    (kind : token.kind = (Kind.unary operator).written) (text : token.text = operator.symbol)
    (operand : Value) : Settled token (transform operator operand) := by
  unfold transform
  split
  · exact @settled_fitted .subtract token ⟨kind, text⟩ rfl _
  · exact ValueType.noConfusion
  · exact ValueType.noConfusion
  · exact ⟨kind, text⟩

/-! ## Actions -/

/-- An action that enters no names, gives what it should and reports every error where it
belongs. -/
def Reports (source : Token → Prop) (symbols : Symbols) (gives : α → Prop) (step : Evaluate α) :
    Prop :=
  Meets (fun machine : Machine => machine.symbols.names = symbols.names) gives
    (Stop.PointsInto source) step

/-- A value that is missing, or a variable that is unbound, can be reported at a position. -/
def Yields (source : Token → Prop) (symbols : Symbols) (position : Position) :
    Option Value → Prop
  | none => (EvalError.fault .missingValue position).PointsInto source
  | some (.identifier handle) =>
      (EvalError.fault (.unboundIdentifier (symbols.nameAt handle)) position).PointsInto source
  | some _ => True

theorem yields_of_type {source : Token → Prop} {symbols : Symbols} {position : Position}
    {value : Value} (settled : value.type ≠ .identifier) :
    Yields source symbols position (some value) := by
  cases value with
  | identifier => exact absurd rfl settled
  | _ => trivial

namespace Reports

variable {source : Token → Prop} {symbols : Symbols} {gives : α → Prop}

theorem fail {cause : EvalError.Cause} {position : Position}
    (points : (EvalError.fault cause position).PointsInto source) :
    Reports source symbols gives (Evaluate.fail cause position) :=
  Meets.throw points

theorem ofExcept {token : Token} {position : Position} {outcome : Except EvalError.Cause α}
    (taken : source token) (here : token.position = position)
    (settles : Settles gives (EvalError.Cause.Fits token) outcome) :
    Reports source symbols gives (Evaluate.ofExcept position outcome) := by
  cases outcome with
  | ok value => exact .pure settles
  | error cause => exact fail ⟨token, taken, here, settles⟩

theorem lookUp {value : Value} {position : Position}
    (yields : Yields source symbols position (some value)) :
    Reports source symbols (fun _ => True) (Evaluate.lookUp value position) := by
  cases value with
  | identifier handle =>
      intro machine same
      have name : machine.symbols.nameAt handle = symbols.nameAt handle := by
        rw [Symbols.nameAt, same]
        rfl
      rw [Evaluate.run_lookUp]
      cases machine.environment.get? (machine.symbols.nameAt handle) with
      | none =>
          rw [name]
          exact ⟨same, yields⟩
      | some bound => exact ⟨same, trivial⟩
  | integer | decimal | string | boolean => exact .pure trivial

theorem combine {operator : BinaryOperator} {position : Position}
    (taken : source (.spelled (.binary operator) position)) (left right : Value) :
    Reports source symbols (fun value => value.type ≠ .identifier)
      (Evaluate.combine operator left right position) := by
  refine Meets.bind ?_ fun outcome
    (settled : Value.Settled (.spelled (.binary operator) position) outcome) =>
      ofExcept taken rfl settled
  intro machine same
  refine ⟨?_, Value.settled_combine ⟨rfl, rfl⟩ left right machine.symbols⟩
  change (Value.combine operator left right machine.symbols).2.names = symbols.names
  rcases Value.combine_symbols operator left right machine.symbols with
    kept | ⟨first, second, joined⟩
  · rw [kept]
    exact same
  · rw [joined]
    exact same

theorem transform {operator : UnaryOperator} {position : Position}
    (taken : source (.spelled (Kind.unary operator).written position)) (operand : Value) :
    Reports source symbols (fun value => value.type ≠ .identifier)
      (Evaluate.transform operator operand position) := by
  have text : (Kind.unary operator).written.label = operator.symbol := by
    cases operator <;> rfl
  exact ofExcept taken rfl (Value.settled_transform rfl text operand)

theorem targetName {beside : Kind} {position : Position} (taken : source (.spelled beside position))
    (target : Value) :
    Reports source symbols (fun _ => True) (Evaluate.targetName target beside position) := by
  cases target with
  | identifier => exact fun machine same => ⟨same, trivial⟩
  | integer | decimal | string | boolean => exact fail ⟨_, taken, rfl, rfl, rfl⟩

theorem assign (name : String) (value : Value) :
    Reports source symbols (fun _ => True) (Evaluate.assign name value) :=
  fun _ same => ⟨same, trivial⟩

theorem forget (name : String) :
    Reports source symbols (fun _ => True) (Evaluate.forget name) :=
  fun _ same => ⟨same, trivial⟩

theorem onConsole {action : Console → Except Console.Failure α × Console}
    (given : ∀ value, gives value) : Reports source symbols gives (Evaluate.onConsole action) := by
  intro machine same
  rw [Evaluate.run_onConsole]
  rcases action machine.console with ⟨_ | value, _⟩
  · exact ⟨same, trivial⟩
  · exact ⟨same, given value⟩

theorem printLine (value : Value) :
    Reports source symbols (fun _ => True) (Evaluate.printLine value) := by
  intro machine same
  rw [Evaluate.run_printLine]
  exact onConsole (fun _ => trivial) machine same

theorem inputLine :
    Reports source symbols (fun value => value.type ≠ .identifier) Evaluate.inputLine := by
  intro machine same
  rw [Evaluate.run_inputLine]
  split
  · exact ⟨same, ValueType.noConfusion⟩
  · exact ⟨same, trivial⟩

/-! ### Trees -/

section

variable {step : Evaluate (Option Value)} {position : Position}
  (reports : Reports source symbols (Yields source symbols position) step)

include reports

theorem required :
    Reports source symbols (fun value => Yields source symbols position (some value))
      (Evaluate.required position step) := by
  apply Meets.bind reports
  intro yielded yields
  cases yielded with
  | none => exact fail yields
  | some value => exact .pure yields

theorem operand :
    Reports source symbols (fun _ => True) (Evaluate.operand position step) :=
  reports.required.bind fun _ yields => lookUp yields

theorem condition {control : Control} {keyword : Position}
    (taken : source (.spelled (.control control) keyword)) :
    Reports source symbols (fun _ => True)
      (Evaluate.condition control keyword position step) := by
  apply reports.operand.bind
  intro value _
  cases value with
  | boolean => exact .pure trivial
  | _ => exact fail ⟨_, taken, rfl, rfl, rfl⟩

theorem command {command : Command} {place : Position}
    (taken : source (.spelled (.command command) place)) :
    Reports source symbols (Yields source symbols place)
      (Evaluate.command command position place step) := by
  cases command with
  | print =>
      apply reports.operand.bind
      intro value _
      exact (printLine value).bind fun _ _ => .pure ⟨_, taken, rfl, .inr (.inl ⟨rfl, rfl⟩)⟩
  | input =>
      apply reports.operand.bind
      intro value _
      apply (printLine value).bind
      intro _ _
      apply Meets.bind (onConsole fun _ => trivial)
      intro _ _
      exact inputLine.bind fun line settled => .pure (yields_of_type settled)
  | delete =>
      apply reports.required.bind
      intro target _
      apply (targetName taken target).bind
      intro name _
      exact (forget name).bind fun _ _ => .pure ⟨_, taken, rfl, .inr (.inr ⟨rfl, rfl⟩)⟩

end

end Reports

/-! ## Blocks -/

section

variable {keeps : Machine → Prop} {fails : Stop → Prop}

theorem Meets.loop {holds : Evaluate Bool} {body : Evaluate Unit}
    (tests : Meets keeps (fun _ => True) fails holds)
    (passes : Meets keeps (fun _ => True) fails body) (unlimited : fails .outOfFuel) (fuel : Nat) :
    @Meets _ _ Unit keeps (fun _ => True) fails (Evaluate.loop holds body fuel) := by
  induction fuel with
  | zero => exact fun machine kept => ⟨kept, unlimited⟩
  | succ fuel induction =>
      rw [Evaluate.loop_succ]
      apply tests.bind
      intro continues _
      cases continues with
      | false => exact .pure trivial
      | true => exact passes.bind fun _ _ => induction

theorem meets_evaluateAll {body : List Tree} {fuel : Nat}
    (each : ∀ statement ∈ body, Meets keeps (fun _ => True) fails (evaluate fuel statement)) :
    Meets keeps (fun _ => True) fails (evaluateAll fuel body) := by
  induction body with
  | nil =>
      rw [evaluateAll]
      exact .pure trivial
  | cons statement later induction =>
      rw [evaluateAll]
      apply (each statement List.mem_cons_self).bind
      intro _ _
      exact induction fun statement member => each statement (List.mem_cons_of_mem _ member)

/-- A block is met by its condition and its statements. -/
theorem meets_control {keyword : Control} {condition : Tree} {body : List Tree}
    {position : Position} {fuel : Nat}
    (tests : Meets keeps (fun _ => True) fails
      (Evaluate.condition keyword position condition.position (evaluate fuel condition)))
    (each : ∀ statement ∈ body, Meets keeps (fun _ => True) fails (evaluate fuel statement))
    (unlimited : fails .outOfFuel) :
    Meets keeps (fun _ => True) fails
      (evaluate fuel (.control keyword condition body position)) := by
  have passes := meets_evaluateAll each
  cases keyword with
  | conditional =>
      rw [evaluate]
      apply tests.bind
      intro holds _
      cases holds with
      | false => exact .pure trivial
      | true => exact passes.bind fun _ _ => .pure trivial
  | loop =>
      rw [evaluate]
      exact (tests.loop passes unlimited fuel).bind fun _ _ => .pure trivial

theorem meets_actions {program : List Tree} {fuel : Nat}
    (each : ∀ statement ∈ program, Meets keeps (fun _ => True) fails (evaluate fuel statement))
    (flushes : Meets keeps (fun _ => True) fails Evaluate.flush) :
    ∀ action ∈ actions fuel program, Meets keeps (fun _ => True) fails action := by
  intro action member
  rcases List.mem_append.mp member with inside | last
  · rcases List.mem_map.mp inside with ⟨statement, within, rfl⟩
    exact (each statement within).bind fun _ _ => .pure trivial
  · rw [List.mem_singleton.mp last]
    exact flushes

end

/-! ## Programs -/

section

variable {source : Token → Prop} {symbols : Symbols}

/-- A number that cannot be read is reported with its text. -/
theorem settles_literal {φ : Type} {token : Token} (isNumber : token.isNumber)
    (reading : Except φ α) (fault : φ → LiteralFault) :
    Settles (fun _ => True) (EvalError.Cause.Fits token)
      (reading.mapError fun found => .invalidLiteral token.text (fault found)) := by
  cases reading with
  | ok => exact trivial
  | error => exact ⟨isNumber, rfl⟩

theorem reports_evaluate {tree : Tree} (plain : tree.isPlain)
    (taken : ∀ node ∈ tree.nodes symbols, source node) (fuel : Nat) :
    Reports source symbols (Yields source symbols tree.position) (evaluate fuel tree) := by
  induction tree using Tree.induction with
  | integer text position =>
      rw [evaluate]
      have here : source ⟨.integer, text, position⟩ := taken _ (by simp [Tree.nodes])
      have literal :=
        @settles_literal _ _ ⟨.integer, text, position⟩ rfl (Integer.read text) .integer
      exact (Reports.ofExcept here rfl literal).bind fun value _ => .pure trivial
  | decimal text position =>
      rw [evaluate]
      have here : source ⟨.decimal, text, position⟩ := taken _ (by simp [Tree.nodes])
      have literal :=
        @settles_literal _ _ ⟨.decimal, text, position⟩ rfl (Decimal.read text) .decimal
      exact (Reports.ofExcept here rfl literal).bind fun value _ => .pure trivial
  | string | boolean =>
      rw [evaluate]
      exact .pure trivial
  | identifier handle position =>
      rw [evaluate]
      have here : source ⟨.identifier, symbols.nameAt handle, position⟩ :=
        taken _ (by simp [Tree.nodes])
      exact .pure ⟨_, here, rfl, rfl, rfl⟩
  | binary operator left right position leftInduction rightInduction =>
      rw [Tree.isPlain, Bool.and_eq_true] at plain
      simp only [Tree.nodes, List.forall_mem_append, List.forall_mem_cons] at taken
      rw [evaluate]
      apply (leftInduction plain.1 taken.1).operand.bind
      intro first _
      apply (rightInduction plain.2 taken.2.2).operand.bind
      intro second _
      exact (Reports.combine taken.2.1 first second).bind
        fun value settled => .pure (yields_of_type settled)
  | unary operator operand position induction =>
      simp only [Tree.nodes, List.forall_mem_cons] at taken
      rw [evaluate]
      apply (induction plain taken.2).operand.bind
      intro value _
      exact (Reports.transform taken.1 value).bind
        fun value settled => .pure (yields_of_type settled)
  | assign target value position targetInduction valueInduction =>
      rw [Tree.isPlain, Bool.and_eq_true] at plain
      simp only [Tree.nodes, List.forall_mem_append, List.forall_mem_cons] at taken
      rw [evaluate]
      apply (targetInduction plain.1 taken.1).required.bind
      intro slot _
      apply (valueInduction plain.2 taken.2.2).operand.bind
      intro bound _
      apply (Reports.targetName taken.2.1 slot).bind
      intro name _
      exact (Reports.assign name bound).bind
        fun _ _ => .pure ⟨_, taken.2.1, rfl, .inl ⟨rfl, rfl⟩⟩
  | command keyword operand position induction =>
      simp only [Tree.nodes, List.forall_mem_cons] at taken
      rw [evaluate]
      exact (induction plain taken.2).command taken.1
  | control => cases plain

/-- A statement reports its errors at the tokens that its nodes stand for. -/
theorem reports_statement {tree : Tree} (laidOut : tree.LaidOut)
    (taken : ∀ node ∈ tree.nodes symbols, source node) (fuel : Nat) :
    Reports source symbols (fun _ => True) (evaluate fuel tree) := by
  induction laidOut with
  | plain plain => exact (reports_evaluate plain taken fuel).imp fun _ _ => trivial
  | @control keyword condition body position plain _ induction =>
      simp only [Tree.nodes, List.forall_mem_cons, List.forall_mem_append] at taken
      apply meets_control ((reports_evaluate plain taken.2.1 fuel).condition taken.1) _ trivial
      intro statement member
      apply induction statement member
      exact fun node within => taken.2.2 node (List.mem_flatMap.mpr ⟨statement, member, within⟩)

theorem reports_actions {program : List Tree} (laidOut : ∀ tree ∈ program, tree.LaidOut)
    (taken : ∀ tree ∈ program, ∀ node ∈ tree.nodes symbols, source node) (fuel : Nat) :
    ∀ action ∈ actions fuel program, Reports source symbols (fun _ => True) action :=
  meets_actions
    (fun statement member =>
      reports_statement (laidOut statement member) (taken statement member) fuel)
    (Reports.onConsole fun _ => trivial)

end

/-- The errors that are collected are those that the steps fail with. -/
theorem errors_performAll {keeps : Machine → Prop} {fails : Stop → Prop}
    {steps : List (Evaluate Unit)} (each : ∀ step ∈ steps, Meets keeps (fun _ => True) fails step)
    {machine : Machine} (kept : keeps machine) {errors : List EvalError}
    (completed : (performAll steps machine).1 = .completed errors) :
    ∀ error ∈ errors, fails (.error error) := by
  induction steps generalizing machine errors with
  | nil =>
      cases completed
      simp
  | cons step later induction =>
      have ends := each step List.mem_cons_self machine kept
      have rest (after : Machine) (kept : keeps after) (errors : List EvalError) :=
        @induction (fun step member => each step (List.mem_cons_of_mem _ member)) after kept errors
      rcases ran : step.run machine with ⟨(error | _) | _, after⟩
      all_goals rw [ran] at ends
      · rw [performAll_of_error later ran] at completed
        cases result : (performAll later after).1 with
        | completed more =>
            rw [result] at completed
            cases completed
            exact List.forall_mem_cons.mpr ⟨ends.2, rest after ends.1 more result⟩
        | rejected | outOfFuel =>
            rw [result] at completed
            cases completed
      · rw [performAll_of_outOfFuel later ran] at completed
        cases completed
      · rw [performAll_of_ok later ran] at completed
        exact rest after ends.1 errors completed

theorem points_performAll {source : Token → Prop} {symbols : Symbols}
    {steps : List (Evaluate Unit)}
    (each : ∀ step ∈ steps, Reports source symbols (fun _ => True) step) {machine : Machine}
    (same : machine.symbols.names = symbols.names) {errors : List EvalError}
    (completed : (performAll steps machine).1 = .completed errors) :
    ∀ error ∈ errors, error.PointsInto source :=
  errors_performAll each same completed

/-! ## Sources -/

theorem tallies_programOfSource {limit : Nat} {source : String} {symbols final : Symbols}
    {program : List Tree}
    (parsed : (programOfSource limit source).runFrom symbols = (.ok program, final)) :
    ∃ tokens, scanSource source = .ok tokens ∧
      Tallies (program.flatMap (Tree.nodes final)) ((separate tokens).filter (!·.isMark)) := by
  rw [programOfSource, Parse.runFrom_bind_eq_ok] at parsed
  rcases parsed with ⟨tokens, _, read, parsed⟩
  rw [Parse.runFrom_ofExcept, Prod.mk.injEq] at read
  rcases read with ⟨read, rfl⟩
  exact ⟨tokens, read, (statementsOf_tally (endsLast_separate read) (lexical_separate read)
    (Parse.outcome_eq_ok.mpr parsed)).2 final (.refl _)⟩

/-- Every node of a program is a lexeme of its source. -/
theorem standsIn_nodes {limit : Nat} {source : String} {symbols final : Symbols}
    {program : List Tree}
    (parsed : (programOfSource limit source).runFrom symbols = (.ok program, final)) :
    ∀ tree ∈ program, ∀ node ∈ tree.nodes final, node.StandsIn source := by
  rcases tallies_programOfSource parsed with ⟨tokens, read, tally⟩
  intro tree member node within
  have among := tally.perm.mem_iff.mp (List.mem_flatMap.mpr ⟨tree, member, within⟩)
  rcases List.mem_filter.mp among with ⟨inside, notMark⟩
  refine (drawn_separate read node inside).resolve_left fun ends => ?_
  simp [Token.isMark, ends] at notMark

/-- What is reported of a source is reported where it belongs, whatever machine runs it: a lexical
fault at the character at which no lexeme starts, and any other fault or error at a lexeme of the
source that it is about. A lexeme stands where its position says. -/
theorem Machine.run_diagnostics (machine : Machine) (fuel limit : Nat) (source : String) :
    (∀ error, (machine.run fuel limit source).1 = .rejected error →
      error.PointsAtCharacter source ∨ error.PointsInto (Token.StandsIn source)) ∧
    (∀ errors, (machine.run fuel limit source).1 = .completed errors →
      ∀ error ∈ errors, error.PointsInto (Token.StandsIn source)) ∧
    ∀ token, Token.StandsIn source token →
      ∃ text index, (linesOf source)[index]? = some text ∧ token.position.line = index + 1 ∧
        token.lexeme.Longest (text.drop token.position.cursor) := by
  have admits : Admits (Token.StandsIn source) fun _ => True :=
    ⟨fun _ _ _ _ _ => trivial, fun _ _ _ _ _ => trivial⟩
  have settles := (meets_programOfSource admits limit machine.symbols trivial).2
  rw [Machine.run, Machine.parse]
  rcases ran : (programOfSource limit source).run machine.symbols with ⟨error | program, symbols⟩
  all_goals rw [ran] at settles
  · refine ⟨?_, ?_, fun token stands => stands.longest⟩
    · intro _ rejected
      cases rejected
      exact settles
    · intro _ completed
      cases completed
  · refine ⟨?_, ?_, fun token stands => stands.longest⟩
    · intro error rejected
      exact absurd rejected (performAll_ne_rejected _ _ error)
    · intro errors completed
      exact points_performAll (reports_actions settles (standsIn_nodes ran) fuel) rfl completed

/-- A division, a variable and a parenthesis. -/
theorem Machine.run_diagnostics_division :
    let source := "x := 7 / 0\nprint y"
    let rejected := "print 1 + (2"
    (({} : Machine).run 1 3 source).1 = .completed
        [.fault .divisionByZero ⟨1, 7⟩, .fault (.unboundIdentifier "y") ⟨2, 6⟩] ∧
      (EvalError.fault .divisionByZero ⟨1, 7⟩).PointsInto (Token.StandsIn source) ∧
      (EvalError.fault (.unboundIdentifier "y") ⟨2, 6⟩).PointsInto (Token.StandsIn source) ∧
      (({} : Machine).run 1 3 rejected).1 = .rejected ⟨.unclosedParen, ⟨1, 10⟩⟩ ∧
      (SourceError.PointsAtCharacter rejected ⟨.unclosedParen, ⟨1, 10⟩⟩ ∨
        SourceError.PointsInto (Token.StandsIn rejected) ⟨.unclosedParen, ⟨1, 10⟩⟩) := by
  intro source rejected
  have completed : (({} : Machine).run 1 3 source).1 = .completed
      [.fault .divisionByZero ⟨1, 7⟩, .fault (.unboundIdentifier "y") ⟨2, 6⟩] := by
    dsimp only [source]
    cbv
  have refused : (({} : Machine).run 1 3 rejected).1 = .rejected ⟨.unclosedParen, ⟨1, 10⟩⟩ := by
    dsimp only [rejected]
    cbv
  have points := (Machine.run_diagnostics {} 1 3 source).2.1 _ completed
  exact ⟨completed, points _ (by simp), points _ (by simp), refused,
    (Machine.run_diagnostics {} 1 3 rejected).1 _ refused⟩

end Scriptlet
