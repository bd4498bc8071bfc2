import Scriptlet.Proofs.Diagnostics.Evaluation
import Scriptlet.Proofs.Literal
import Scriptlet.Proofs.Rendering
import Scriptlet.Proofs.Session.Invariant

/-! Literals are scanned and read by different rules, and the rules agree. Whatever is scanned as a
literal can be read, except for an integer that no word holds. -/

namespace Scriptlet

/-! ## Literals -/

/-- Whether a token stands for a value of its own, whatever the tables. -/
def Token.isLiteral (token : Token) : Bool :=
  token.isNumber || token.kind == .boolean

theorem Token.not_isMark_of_isLiteral (token : Token) (isLiteral : token.isLiteral) :
    token.isMark = false := by
  rcases token with ⟨kind, text, position⟩
  cases kind with
  | integer | decimal | boolean => rfl
  | _ => cases isLiteral

theorem Token.Genuine.number {token : Token} (genuine : token.Genuine) (isNumber : token.isNumber) :
    token.kind = .integer ∧ Lexeme.isInteger token.text.toList ∨
      token.kind = .decimal ∧ Lexeme.isDecimal token.text.toList := by
  have notWord : ∀ entry ∈ Lexeme.reservedWords, entry.2 ≠ .integer ∧ entry.2 ≠ .decimal := by
    decide
  have notSign : ∀ entry ∈ Lexeme.symbols, entry.2 ≠ .integer ∧ entry.2 ≠ .decimal := by decide
  cases genuine with
  | integer shape => exact .inl ⟨rfl, shape⟩
  | decimal shape => exact .inr ⟨rfl, shape⟩
  | name | string => cases isNumber
  | reserved member => simp [Token.isNumber, notWord _ member] at isNumber
  | symbol member => simp [Token.isNumber, notSign _ member] at isNumber

theorem Token.StandsIn.genuine {source : String} {token : Token} (stands : token.StandsIn source) :
    token.Genuine := by
  rcases stands.longest with ⟨_, _, _, _, longest⟩
  exact Token.genuine_of_longest longest

/-! ## Who is to blame for an error -/

/-- A literal that cannot be read is one of the given ones. -/
def Stop.Blames (literals : Token → Prop) : Stop → Prop
  | .error (.fault (.invalidLiteral text (.integer fault)) position) =>
      literals ⟨.integer, text, position⟩ ∧ Integer.read text = .error fault
  | .error (.fault (.invalidLiteral text (.decimal fault)) position) =>
      literals ⟨.decimal, text, position⟩ ∧ Decimal.read text = .error fault
  | _ => True

/-- An action that finds no fault with literals other than the given ones. -/
def Blames (literals : Token → Prop) (step : Evaluate α) : Prop :=
  Meets (fun _ => True) (fun _ => True) (Stop.Blames literals) step

/-- An error that is not about a number blames no literal. -/
theorem Stop.blames_of_points {literals : Token → Prop} {stop : Stop}
    (points : stop.PointsInto fun token => token.isNumber = false) : stop.Blames literals := by
  rcases stop with (⟨cause, position⟩ | failure) | _
  · cases cause with
    | invalidLiteral text fault =>
        rcases points with ⟨token, notNumber, _, isNumber, _⟩
        rw [notNumber] at isNumber
        cases isNumber
    | _ => trivial
  · trivial
  · trivial

namespace Blames

variable {literals : Token → Prop}

/-- Most actions have nothing to do with literals. -/
theorem of_reports {gives : α → Prop} {step : Evaluate α}
    (reports : ∀ symbols, Reports (fun token => token.isNumber = false) symbols gives step) :
    Blames literals step := by
  intro machine _
  have ends := (reports machine.symbols machine rfl).2
  exact ⟨trivial, (ends.imp fun _ _ => trivial).weaken fun _ => Stop.blames_of_points⟩

theorem lookUp (value : Value) (position : Position) :
    Blames literals (Evaluate.lookUp value position) := by
  apply of_reports
  intro symbols
  apply Reports.lookUp
  cases value with
  | identifier handle => exact ⟨⟨.identifier, symbols.nameAt handle, position⟩, rfl, rfl, rfl, rfl⟩
  | _ => trivial

theorem combine (operator : BinaryOperator) (left right : Value) (position : Position) :
    Blames literals (Evaluate.combine operator left right position) :=
  of_reports fun _ => Reports.combine (Eq.refl false) left right

theorem transform (operator : UnaryOperator) (operand : Value) (position : Position) :
    Blames literals (Evaluate.transform operator operand position) := by
  apply of_reports
  intro _
  apply Reports.transform
  cases operator <;> rfl

theorem targetName (target : Value) {beside : Kind} (position : Position)
    (notNumber : (Token.spelled beside position).isNumber = false) :
    Blames literals (Evaluate.targetName target beside position) :=
  of_reports fun _ => Reports.targetName notNumber target

/-- A literal that cannot be read has itself to blame. -/
theorem literal {φ : Type} {reading : Except φ α} {fault : φ → LiteralFault} {text : String}
    {position : Position}
    (blamed : ∀ found, reading = .error found →
      Stop.Blames literals (.error (.fault (.invalidLiteral text (fault found)) position))) :
    Blames literals (Evaluate.ofExcept position
      (reading.mapError fun found => .invalidLiteral text (fault found))) := by
  cases reading with
  | ok value => exact .pure trivial
  | error found => exact Meets.throw (blamed found rfl)

section

variable {step : Evaluate (Option Value)} (blames : Blames literals step) (position : Position)

include blames

theorem required : Blames literals (Evaluate.required position step) := by
  apply blames.bind
  intro yielded _
  cases yielded with
  | none => exact Meets.throw trivial
  | some value => exact .pure trivial

theorem operand : Blames literals (Evaluate.operand position step) :=
  (blames.required position).bind fun value _ => lookUp value position

theorem condition (control : Control) (keyword : Position) :
    Blames literals (Evaluate.condition control keyword position step) := by
  apply (blames.operand position).bind
  intro value _
  cases value with
  | boolean => exact .pure trivial
  | _ => exact Meets.throw trivial

theorem command (command : Command) (place : Position) :
    Blames literals (Evaluate.command command position place step) := by
  cases command with
  | print =>
      apply (blames.operand position).bind
      intro value _
      apply (of_reports fun _ => .printLine value).bind
      exact fun _ _ => .pure trivial
  | input =>
      apply (blames.operand position).bind
      intro value _
      apply (of_reports fun _ => .printLine value).bind
      intro _ _
      apply (of_reports fun _ => .onConsole fun _ => trivial).bind
      intro _ _
      apply (of_reports fun _ => .inputLine).bind
      exact fun _ _ => .pure trivial
  | delete =>
      apply (blames.required position).bind
      intro target _
      apply (targetName target place rfl).bind
      intro name _
      apply (of_reports fun _ => .forget name).bind
      exact fun _ _ => .pure trivial

end

end Blames

/-- An evaluation finds no fault with literals other than those of its tree. -/
theorem blames_evaluate {literals : Token → Prop} {symbols : Symbols} {tree : Tree}
    (taken : ∀ node ∈ tree.nodes symbols, literals node) (fuel : Nat) :
    Blames literals (evaluate fuel tree) := by
  induction tree using Tree.induction with
  | integer text position =>
      have here : literals ⟨.integer, text, position⟩ := taken _ (by simp [Tree.nodes])
      rw [evaluate]
      refine Meets.bind (Blames.literal ?_) fun _ _ => .pure trivial
      exact fun _ failed => ⟨here, failed⟩
  | decimal text position =>
      have here : literals ⟨.decimal, text, position⟩ := taken _ (by simp [Tree.nodes])
      rw [evaluate]
      refine Meets.bind (Blames.literal ?_) fun _ _ => .pure trivial
      exact fun _ failed => ⟨here, failed⟩
  | string | boolean | identifier =>
      rw [evaluate]
      exact .pure trivial
  | binary operator left right position leftInduction rightInduction =>
      simp only [Tree.nodes, List.forall_mem_append, List.forall_mem_cons] at taken
      rw [evaluate]
      apply ((leftInduction taken.1).operand left.position).bind
      intro first _
      apply ((rightInduction taken.2.2).operand right.position).bind
      intro second _
      apply (Blames.combine operator first second position).bind
      exact fun _ _ => .pure trivial
  | unary operator operand position induction =>
      simp only [Tree.nodes, List.forall_mem_cons] at taken
      rw [evaluate]
      apply ((induction taken.2).operand operand.position).bind
      intro value _
      apply (Blames.transform operator value position).bind
      exact fun _ _ => .pure trivial
  | assign target value position targetInduction valueInduction =>
      simp only [Tree.nodes, List.forall_mem_append, List.forall_mem_cons] at taken
      rw [evaluate]
      apply ((targetInduction taken.1).required target.position).bind
      intro slot _
      apply ((valueInduction taken.2.2).operand value.position).bind
      intro bound _
      apply (Blames.targetName slot position rfl).bind
      intro name _
      apply (Blames.of_reports fun _ => .assign name bound).bind
      exact fun _ _ => .pure trivial
  | command keyword operand position induction =>
      simp only [Tree.nodes, List.forall_mem_cons] at taken
      rw [evaluate]
      exact (induction taken.2).command operand.position keyword position
  | control keyword condition body position conditionInduction bodyInduction =>
      simp only [Tree.nodes, List.forall_mem_cons, List.forall_mem_append] at taken
      have tests := (conditionInduction taken.2.1).condition condition.position keyword position
      apply meets_control tests _ trivial
      intro statement member
      apply bodyInduction statement member
      exact fun node within => taken.2.2 node (List.mem_flatMap.mpr ⟨statement, member, within⟩)

theorem blames_actions {literals : Token → Prop} {symbols : Symbols} {program : List Tree}
    (taken : ∀ tree ∈ program, ∀ node ∈ tree.nodes symbols, literals node) (fuel : Nat) :
    ∀ action ∈ actions fuel program, Blames literals action :=
  meets_actions (fun statement member => blames_evaluate (taken statement member) fuel)
    (Blames.of_reports fun _ => .onConsole fun _ => trivial)

/-! ## Literals of a program -/

/-- A tree that is evaluated as a part of another, or is that one itself. -/
inductive Tree.OccursIn : Tree → Tree → Prop where
  | self (tree : Tree) : OccursIn tree tree
  | part {inner part tree : Tree} (inside : part ∈ tree.parts) (occurs : OccursIn inner part) :
      OccursIn inner tree

/-- The tree of a literal is a part of every tree that has the literal among its nodes. -/
theorem Tree.occursIn_of_literal {symbols : Symbols} {tree : Tree} {token : Token}
    (member : token ∈ tree.nodes symbols) (isLiteral : token.isLiteral) :
    OccursIn (token.leaf symbols).1 tree := by
  induction tree using Tree.induction with
  | integer | decimal =>
      simp only [Tree.nodes, List.mem_singleton] at member
      rw [member]
      exact .self _
  | boolean value position =>
      simp only [Tree.nodes, List.mem_singleton] at member
      rw [member]
      cases value <;> exact .self _
  | string | identifier =>
      simp only [Tree.nodes, List.mem_singleton] at member
      rw [member] at isLiteral
      cases isLiteral
  | binary operator left right position leftInduction rightInduction =>
      simp only [Tree.nodes, List.mem_append, List.mem_cons] at member
      rcases member with member | rfl | member
      · exact .part (by simp [parts]) (leftInduction member)
      · cases isLiteral
      · exact .part (by simp [parts]) (rightInduction member)
  | unary operator operand position induction =>
      simp only [Tree.nodes, List.mem_cons] at member
      rcases member with rfl | member
      · cases operator <;> cases isLiteral
      · exact .part (by simp [parts]) (induction member)
  | assign target value position targetInduction valueInduction =>
      simp only [Tree.nodes, List.mem_append, List.mem_cons] at member
      rcases member with member | rfl | member
      · exact .part (by simp [parts]) (targetInduction member)
      · cases isLiteral
      · exact .part (by simp [parts]) (valueInduction member)
  | command keyword operand position induction =>
      simp only [Tree.nodes, List.mem_cons] at member
      rcases member with rfl | member
      · cases isLiteral
      · exact .part (by simp [parts]) (induction member)
  | control keyword condition body position conditionInduction bodyInduction =>
      simp only [Tree.nodes, List.mem_cons, List.mem_append, List.mem_flatMap] at member
      rcases member with rfl | member | ⟨statement, inside, member⟩
      · cases isLiteral
      · exact .part (by simp [parts]) (conditionInduction member)
      · exact .part (by simp [parts, inside]) (bodyInduction statement inside member)

/-- Every lexeme of a source is a node of its program, apart from the marks. -/
theorem Token.StandsIn.mem_nodes {limit : Nat} {source : String} {symbols final : Symbols}
    {program : List Tree}
    (parsed : (programOfSource limit source).runFrom symbols = (.ok program, final))
    {token : Token} (stands : token.StandsIn source) (notMark : token.isMark = false) :
    ∃ tree ∈ program, token ∈ tree.nodes final := by
  rcases tallies_programOfSource parsed with ⟨tokens, read, tally⟩
  rcases stands with ⟨_, readToo, member, _⟩
  cases read.symm.trans readToo
  have kept : (separate tokens).filter (!·.isMark) = tokens.filter (!·.isMark) :=
    separateAfter_filter
      (fun token terminator => by simp [Token.isMark, Kind.endsStatement, terminator]) none tokens
  have among : token ∈ program.flatMap (Tree.nodes final) := by
    rw [tally.perm.mem_iff, kept, List.mem_filter]
    exact ⟨member, by rw [notMark]; rfl⟩
  exact List.mem_flatMap.mp among

/-- If an error is about a literal, then about an integer of the source that no word holds. -/
def EvalError.BlamesTooLarge (source : String) : EvalError → Prop
  | fault (.invalidLiteral text reason) position =>
      reason = .integer .tooLarge ∧ Integer.greatest < Integer.denoted text ∧
        Token.StandsIn source ⟨.integer, text, position⟩
  | _ => True

theorem EvalError.blamesTooLarge {source : String} {error : EvalError}
    (blames : Stop.Blames (Token.StandsIn source) (.error error)) :
    error.BlamesTooLarge source := by
  rcases error with ⟨cause, position⟩ | failure
  · cases cause with
    | invalidLiteral text fault =>
        rcases fault with fault | fault
        · rcases blames with ⟨stands, failed⟩
          rcases stands.genuine.number rfl with ⟨_, shape⟩ | ⟨other, _⟩
          · rcases Integer.read_cases shape with ⟨word, read, _⟩ | ⟨read, large⟩
            · cases read.symm.trans failed
            · cases read.symm.trans failed
              exact ⟨rfl, large, stands⟩
          · cases other
        · rcases blames with ⟨stands, failed⟩
          rcases stands.genuine.number rfl with ⟨other, _⟩ | ⟨_, shape⟩
          · cases other
          · rcases Decimal.exists_read shape with ⟨value, read⟩
            cases read.symm.trans failed
    | _ => trivial
  · trivial

section

variable {source text : String} {position : Position} (fuel : Nat) (machine : Machine)

theorem evaluate_integerToken (stands : Token.StandsIn source ⟨.integer, text, position⟩) :
    (∃ word : Integer, word.toInt = Integer.denoted text ∧
      (evaluate fuel (.integer text position)).run machine =
        (.ok (some (.integer word)), machine)) ∨
    Integer.greatest < Integer.denoted text ∧
      (evaluate fuel (.integer text position)).run machine =
        (.error (.error (.fault (.invalidLiteral text (.integer .tooLarge)) position)),
          machine) := by
  have shape := (stands.genuine.number rfl).resolve_right fun other => Kind.noConfusion other.1
  rw [evaluate]
  rcases Integer.read_cases shape.2 with ⟨word, read, same⟩ | ⟨read, large⟩
  · rw [read]
    exact .inl ⟨word, same, rfl⟩
  · rw [read]
    exact .inr ⟨large, rfl⟩

theorem evaluate_decimalToken (stands : Token.StandsIn source ⟨.decimal, text, position⟩) :
    ∃ value, (evaluate fuel (.decimal text position)).run machine =
      (.ok (some (.decimal value)), machine) := by
  have shape := (stands.genuine.number rfl).resolve_left fun other => Kind.noConfusion other.1
  rcases Decimal.exists_read shape.2 with ⟨value, read⟩
  rw [evaluate, read]
  exact ⟨value, rfl⟩

end

/-- Scanning and evaluation agree about literals, whatever machine runs a source. The only literals
that are faulted, by a run as a whole or by any statement of the program, are integers of the source
that denote more than any word holds. The tree of every literal of the source is a part of the
program. An integer evaluates to the number that it denotes unless that is too large, a decimal
always evaluates to a number, and a truth value evaluates to the one that it names. -/
theorem Machine.run_literals (machine : Machine) (limit : Nat) (source : String) :
    (∀ fuel errors, (machine.run fuel limit source).1 = .completed errors →
      ∀ error ∈ errors, error.BlamesTooLarge source) ∧
    (∀ program after, machine.parse limit source = (.ok program, after) →
      (∀ statement ∈ program, ∀ fuel current error,
        ((evaluate fuel statement).run current).1 = .error (.error error) →
        error.BlamesTooLarge source) ∧
      ∀ token : Token, token.StandsIn source → token.isLiteral →
        ∃ statement ∈ program, Tree.OccursIn (token.leaf after.symbols).1 statement) ∧
    ∀ (token : Token) symbols fuel current, token.StandsIn source →
      let ending := (evaluate fuel (token.leaf symbols).1).run current
      (token.kind = .integer →
        (∃ word : Integer, word.toInt = Integer.denoted token.text ∧
          ending = (.ok (some (.integer word)), current)) ∨
        Integer.greatest < Integer.denoted token.text ∧
          ending = (.error (.error (.fault
            (.invalidLiteral token.text (.integer .tooLarge)) token.position)), current)) ∧
      (token.kind = .decimal → ∃ value, ending = (.ok (some (.decimal value)), current)) ∧
      (token.kind = .boolean → ∃ truth, token.text = (if truth then "true" else "false") ∧
        ending = (.ok (some (.boolean truth)), current)) := by
  refine ⟨?_, ?_, ?_⟩
  · intro fuel errors completed error member
    rw [Machine.run, Machine.parse] at completed
    rcases ran : (programOfSource limit source).run machine.symbols with ⟨_ | program, symbols⟩
    all_goals rw [ran] at completed
    · cases completed
    · apply EvalError.blamesTooLarge
      exact errors_performAll (blames_actions (standsIn_nodes ran) fuel) trivial completed error
        member
  · intro program after parsed
    rw [Machine.parse] at parsed
    rcases ran : (programOfSource limit source).run machine.symbols with ⟨_ | trees, symbols⟩
    all_goals rw [ran] at parsed
    · cases parsed
    · cases parsed
      refine ⟨?_, ?_⟩
      · intro statement member fuel current error failed
        have ends := (blames_evaluate (standsIn_nodes ran statement member) fuel current trivial).2
        rw [failed] at ends
        exact EvalError.blamesTooLarge ends
      · intro token stands isLiteral
        rcases stands.mem_nodes ran (token.not_isMark_of_isLiteral isLiteral) with
          ⟨statement, member, within⟩
        exact ⟨statement, member, Tree.occursIn_of_literal within isLiteral⟩
  · rintro ⟨kind, text, position⟩ symbols fuel current stands
    refine ⟨?_, ?_, ?_⟩
    · rintro ⟨⟩
      exact evaluate_integerToken fuel current stands
    · rintro ⟨⟩
      exact evaluate_decimalToken fuel current stands
    · rintro ⟨⟩
      rcases (lexemes_standsIn source _ stands).2 with rfl | rfl
      · exact ⟨true, rfl, rfl⟩
      · exact ⟨false, rfl, rfl⟩

/-- A number that is one too large is faulted; zeros in front of a number do not count. -/
theorem Machine.run_literals_bounds :
    let source := "print 9223372036854775808\nx := 007"
    let error := EvalError.fault
      (.invalidLiteral "9223372036854775808" (.integer .tooLarge)) ⟨1, 6⟩
    let seven := Tree.integer "007" ⟨2, 5⟩
    let parsed := ({} : Machine).parse 3 source
    (({} : Machine).run 1 3 source).1 = .completed [error] ∧ error.BlamesTooLarge source ∧
      (∃ program, parsed.1 = .ok program ∧ ∃ statement ∈ program, seven.OccursIn statement) ∧
      ∃ word : Integer, word.toInt = Integer.denoted "007" ∧
        (evaluate 1 seven).run {} = (.ok (some (.integer word)), {}) := by
  intro source error seven parsed
  have completed : (({} : Machine).run 1 3 source).1 = .completed [error] := by
    dsimp only [source, error]
    cbv
  have stands : Token.StandsIn source ⟨.integer, "007", ⟨2, 5⟩⟩ := by
    refine ⟨[⟨.command .print, "print", ⟨1, 0⟩⟩, ⟨.integer, "9223372036854775808", ⟨1, 6⟩⟩,
      .terminator ⟨1, 25⟩, ⟨.identifier, "x", ⟨2, 0⟩⟩, ⟨.assign, ":=", ⟨2, 2⟩⟩,
      ⟨.integer, "007", ⟨2, 5⟩⟩, .terminator ⟨2, 8⟩, .endOfInput 2], ?_, by decide, rfl⟩
    dsimp only [source]
    cbv
  have program : parsed = (.ok [.command .print (.integer "9223372036854775808" ⟨1, 6⟩) ⟨1, 0⟩,
      .assign (.identifier ⟨0⟩ ⟨2, 0⟩) seven ⟨2, 2⟩], { symbols := ⟨{}, .ofTexts ["x"]⟩ }) := by
    dsimp only [parsed, seven, source]
    cbv
  have literals := run_literals {} 3 source
  rcases (literals.2.1 _ _ program).2 _ stands rfl with ⟨statement, member, occurs⟩
  refine ⟨completed, literals.1 1 _ completed error List.mem_cons_self, ?_, ?_⟩
  · exact ⟨_, congrArg Prod.fst program, statement, member, occurs⟩
  · apply ((literals.2.2 _ {} 1 {} stands).1 rfl).resolve_right
    exact fun large => absurd large.1 (by decide)

end Scriptlet
