import Scriptlet.Proofs.Parentheses

/-! The runs of a post order. Every statement contributes one, followed by the token that closes the
statement. A run is made of the statement's own tokens and of nothing else: the parentheses are gone,
the operators have moved, and a minus sign with nothing on its left has become a negation. -/

namespace Scriptlet

/-! ## Signs by their neighbours -/

/-- Whether a minus sign behind this token has nothing on its left; `none` is the start of the
statement. -/
def negatesAfter : Option Token → Bool
  | none => true
  | some previous =>
      previous.kind.isOperator || previous.kind == .openParen || previous.kind.isControl

def Token.negatedAfter (previous : Option Token) (token : Token) : Token :=
  if token.kind = .binary .subtract ∧ negatesAfter previous then
    { token with kind := .unary .negate }
  else token

/-- A statement in which each minus sign is read by the token in front of it. -/
def negationsRead (statement : List Token) : List Token :=
  List.zipWith Token.negatedAfter (none :: statement.map some) statement

theorem negatesAfter_eq {token : Token} (inside : token.kind.endsStatement = false)
    (previous : Option Kind) :
    operandDue (some (token.readSign previous).kind) = negatesAfter (some token) := by
  have notTerminator : (token.kind == .terminator) = false := by
    simp only [Kind.endsStatement, Bool.or_eq_false_iff] at inside
    exact inside.1
  rcases token.readSign_kind previous with same | ⟨before, after⟩
  · rw [same, operandDue, negatesAfter, notTerminator, Bool.or_false, Bool.or_right_comm]
  · rw [after, negatesAfter, before]
    rfl

theorem readSigns_eq {statement : List Token} (plain : OneStatement statement)
    {previous : Option Kind} {before : Option Token}
    (same : operandDue previous = negatesAfter before) :
    readSigns previous statement =
      List.zipWith Token.negatedAfter (before :: statement.map some) statement := by
  induction statement generalizing previous before with
  | nil => rfl
  | cons next later induction =>
      have first : next.readSign previous = next.negatedAfter before := by
        rw [Token.readSign, Token.negatedAfter, same]
      rw [readSigns, List.zipWith_cons_cons, first]
      have inside := plain next List.mem_cons_self
      rw [← first, induction (fun token member => plain token (List.mem_cons_of_mem _ member))
        (negatesAfter_eq inside previous), List.map_cons]

/-! ## Tokens that keep their place -/

/-- Operands and tokens that concern no operand, such as a keyword of a block. -/
def Token.keepsPlace (token : Token) : Bool :=
  !token.kind.isOperator && !token.isParen

theorem Token.keepsPlace_readSign (previous : Option Kind) (token : Token) :
    [token.readSign previous].filter keepsPlace = [token].filter keepsPlace := by
  by_cases sign : token.kind = .binary .subtract
  · have moves : (token.readSign previous).keepsPlace = false := by
      rcases token.readSign_kind previous with same | ⟨_, negates⟩
      · simp [keepsPlace, same, sign, Kind.isOperator]
      · simp [keepsPlace, negates, Kind.isOperator]
    have movesToo : token.keepsPlace = false := by simp [keepsPlace, sign, Kind.isOperator]
    simp [moves, movesToo]
  · rw [readSign_of_kind_ne sign]

theorem Token.not_keepsPlace_of_binding {token : Token} {binding : Binding}
    (inside : token.kind.endsStatement = false) (bound : token.kind.binding? = some binding) :
    token.keepsPlace = false := by
  rcases token with ⟨kind, text, position⟩
  cases kind with
  | terminator => cases inside
  | _ => first | rfl | cases bound

theorem Token.not_keepsPlace_of_isParen {token : Token} (paren : token.isParen) :
    token.keepsPlace = false := by
  simp [keepsPlace, paren]

theorem Token.isParen_eq_false {token : Token} (notOpen : token.kind ≠ .openParen)
    (notClose : token.kind ≠ .closeParen) : token.isParen = false := by
  simp [isParen, notOpen, notClose]

/-- An open parenthesis or an operator. -/
def Token.Waits (token : Token) : Prop :=
  token.kind ≠ .closeParen ∧ token.keepsPlace = false

theorem filter_keepsPlace_of_waits {tokens : List Token} (moving : ∀ token ∈ tokens, token.Waits) :
    tokens.filter Token.keepsPlace = [] := by
  rw [List.filter_eq_nil_iff]
  intro token member
  simp [(moving token member).2]

/-- A token releases operators only, and itself if it keeps its place. -/
theorem accept_tidy {waiting released remaining : List Token} {token : Token}
    (inside : token.kind.endsStatement = false) (moving : ∀ token ∈ waiting, token.Waits)
    (accepted : accept Kind.binding? waiting token = .ok (released, remaining)) :
    (∀ earlier ∈ released, earlier.isParen = false) ∧ (∀ later ∈ remaining, later.Waits) ∧
      released.filter Token.keepsPlace = [token].filter Token.keepsPlace := by
  have notTerminator : token.kind ≠ .terminator := by
    intro terminator
    simp [Kind.endsStatement, terminator] at inside
  rcases accept_cases notTerminator accepted with
    ⟨opens, rfl, rfl⟩ | ⟨closes, opened, opens, inner, rfl⟩ |
    ⟨notOpen, notClose, rfl, rfl⟩ | ⟨notOpen, notClose, incoming, below, bound, yielding, rfl, rfl⟩
  · have moves : token.keepsPlace = false :=
      Token.not_keepsPlace_of_isParen (by simp [Token.isParen, opens])
    refine ⟨by simp, ?_, by simp [moves]⟩
    exact List.forall_mem_cons.mpr ⟨⟨by simp [opens], moves⟩, moving⟩
  · have moves : token.keepsPlace = false :=
      Token.not_keepsPlace_of_isParen (by simp [Token.isParen, closes])
    have above : ∀ earlier ∈ released, earlier.Waits := fun earlier member =>
      moving earlier (List.mem_append_left _ member)
    refine ⟨fun earlier member => ?_, fun later member => ?_, ?_⟩
    · exact Token.isParen_eq_false (inner earlier member) (above earlier member).1
    · exact moving later (by simp [member])
    · simp [filter_keepsPlace_of_waits above, moves]
  · refine ⟨?_, moving, rfl⟩
    simp [Token.isParen_eq_false notOpen notClose]
  · have moves := Token.not_keepsPlace_of_binding inside bound
    have above : ∀ earlier ∈ released, earlier.Waits := fun earlier member =>
      moving earlier (List.mem_append_left _ member)
    refine ⟨fun earlier member => ?_, ?_, by simp [filter_keepsPlace_of_waits above, moves]⟩
    · apply Token.isParen_eq_false _ (above earlier member).1
      intro opens
      have yields := yielding earlier member
      rw [Token.yieldsTo, opens] at yields
      cases yields
    · refine List.forall_mem_cons.mpr ⟨⟨notClose, moves⟩, fun later member => ?_⟩
      exact moving later (List.mem_append_right _ member)

namespace Arrangement

/-- What is true once the tokens `taken` have been taken: no parenthesis has been put in order, and
what keeps its place is where it was. -/
structure Tidy (taken : List Token) (state : Arrangement) : Prop where
  unparenthesized : ∀ token ∈ state.output, token.isParen = false
  moving : ∀ token ∈ state.waiting, token.Waits
  steady : state.output.filter Token.keepsPlace = taken.filter Token.keepsPlace

variable {state after : Arrangement} {taken : List Token}

theorem Tidy.take (tidy : Tidy taken state) {next : Token}
    (inside : next.kind.endsStatement = false)
    (step : state.take Kind.binding? next = .ok after) : Tidy (taken ++ [next]) after := by
  rw [Arrangement.take] at step
  cases accepted : accept Kind.binding? state.waiting (next.readSign state.previous) with
  | error error =>
      rw [accepted] at step
      cases step
  | ok parts =>
      rw [accepted] at step
      cases step
      rw [← Token.endsStatement_readSign state.previous] at inside
      obtain ⟨clean, moving, kept⟩ := accept_tidy inside tidy.moving accepted
      refine ⟨?_, moving, ?_⟩
      · intro token member
        rcases List.mem_append.mp member with member | member
        · exact tidy.unparenthesized token member
        · exact clean token member
      · rw [List.filter_append, List.filter_append, tidy.steady, kept, Token.keepsPlace_readSign]

theorem Tidy.take_all (tidy : Tidy taken state) {statement : List Token}
    (plain : OneStatement statement)
    (steps : statement.foldlM (Arrangement.take Kind.binding?) state = .ok after) :
    Tidy (taken ++ statement) after := by
  induction statement generalizing state taken with
  | nil =>
      cases steps
      rwa [List.append_nil]
  | cons next later induction =>
      rw [List.foldlM_cons] at steps
      cases step : state.take Kind.binding? next with
      | error error =>
          rw [step] at steps
          cases steps
      | ok middle =>
          rw [step] at steps
          have rest := induction (tidy.take (plain next List.mem_cons_self) step)
            (fun token member => plain token (List.mem_cons_of_mem _ member)) steps
          rwa [List.append_assoc, List.singleton_append] at rest

theorem tidy_nothing : Tidy [] {} :=
  ⟨by simp, by simp, rfl⟩

end Arrangement

/-- The post order of a statement has no parentheses, and what keeps its place is where it was. -/
theorem statementOrder_tidy {statement run : List Token} (plain : OneStatement statement)
    (ordered : statementOrder Kind.binding? statement = .ok run) :
    (∀ token ∈ run, token.isParen = false) ∧
      run.filter Token.keepsPlace = statement.filter Token.keepsPlace := by
  rw [statementOrder] at ordered
  cases steps : statement.foldlM (Arrangement.take Kind.binding?) {} with
  | error error =>
      rw [steps] at ordered
      cases ordered
  | ok after =>
      have tidy := Arrangement.tidy_nothing.take_all plain steps
      rw [steps] at ordered
      change after.finish = .ok run at ordered
      rw [Arrangement.finish_eq] at ordered
      split at ordered
      · rename_i closed
        cases ordered
        rw [Arrangement.openParens, List.filter_eq_nil_iff] at closed
        refine ⟨fun token member => ?_, ?_⟩
        · rcases List.mem_append.mp member with member | member
          · exact tidy.unparenthesized token member
          · exact Token.isParen_eq_false (by simpa using closed token member)
              (tidy.moving token member).1
        · rw [List.filter_append, tidy.steady, filter_keepsPlace_of_waits tidy.moving]
          simp
      · cases ordered

/-! ## Statements on their own -/

/-- What the run of a statement is: the post order of the statement alone, made of its tokens. -/
structure RunOf (statement run : List Token) : Prop where
  alone : postOrder statement = .ok (run ++ [.endOfInput (lastLine statement)])
  perm : run.Perm ((negationsRead statement).filter (!·.isParen))
  steady : run.filter Token.keepsPlace = statement.filter Token.keepsPlace

theorem runOf_statementOrder {statement run : List Token} (plain : OneStatement statement)
    (ordered : statementOrder Kind.binding? statement = .ok run) : RunOf statement run := by
  obtain ⟨unparenthesized, steady⟩ := statementOrder_tidy plain ordered
  have same := statementOrder_perm plain ordered
  have all : run.filter (!·.isParen) = run := by
    rw [List.filter_eq_self]
    intro token member
    simp [unparenthesized token member]
  have signs : readSigns none statement = negationsRead statement := readSigns_eq plain rfl
  rw [all, signs] at same
  exact ⟨postOrder_statement plain ordered, same, steady⟩

/-! ## Runs and the tokens that close them -/

theorem length_splitOnP (test : α → Bool) (items : List α) :
    (items.splitOnP test).length = (items.filter test).length + 1 := by
  induction items with
  | nil => rfl
  | cons item later induction =>
      rw [List.splitOnP_cons_eq_if_modifyHead]
      split
      · rename_i cut
        rw [List.length_cons, induction, List.filter_cons_of_pos cut, List.length_cons]
      · rename_i kept
        rw [List.length_modifyHead, induction, List.filter_cons_of_neg kept]

theorem closeRuns_splitOnP (test : Token → Bool) (tokens : List Token) (mark : Token) :
    closeRuns (tokens.splitOnP test) (tokens.filter test ++ [mark]) = tokens ++ [mark] := by
  induction tokens with
  | nil => rfl
  | cons token later induction =>
      rw [List.splitOnP_cons_eq_if_modifyHead]
      split
      · rename_i cut
        rw [List.filter_cons_of_pos cut, List.cons_append, List.cons_append, ← induction]
        rfl
      · rename_i kept
        rw [List.filter_cons_of_neg kept, List.cons_append, ← induction]
        cases parts : later.splitOnP test with
        | nil => exact absurd parts (List.splitOnP_ne_nil _ _)
        | cons first others =>
            cases closings : later.filter test ++ [mark] with
            | nil => simp at closings
            | cons closing rest => rfl

theorem closeRuns_concat {runs : List (List Token)} {closings : List Token}
    (paired : runs.length = closings.length) (run : List Token) (mark : Token) :
    closeRuns (runs ++ [run]) (closings ++ [mark]) = closeRuns runs closings ++ run ++ [mark] := by
  simp [closeRuns, List.zipWith_append paired]

theorem mem_closeRuns {runs : List (List Token)} {closings : List Token} {token : Token}
    (member : token ∈ closeRuns runs closings) : (∃ run ∈ runs, token ∈ run) ∨ token ∈ closings := by
  rw [closeRuns, List.mem_flatten] at member
  obtain ⟨closed, within, inside⟩ := member
  rw [← List.map_uncurry_zip_eq_zipWith, List.mem_map] at within
  obtain ⟨⟨run, closing⟩, pair, rfl⟩ := within
  have parts := List.of_mem_zip pair
  rcases List.mem_append.mp inside with inside | inside
  · exact .inl ⟨run, parts.1, inside⟩
  · rw [List.mem_singleton.mp inside]
    exact .inr parts.2

/-- The token that ends a sequence: its end mark, or one that is supplied. -/
theorem kind_mark (tokens : List Token) (line : Nat) :
    ((tokens.find? (·.kind == .endOfInput)).getD (.endOfInput line)).kind = .endOfInput := by
  cases found : tokens.find? (·.kind == .endOfInput) with
  | none => rfl
  | some mark => simpa using List.find?_some found

/-- The post order of a token sequence is made of one run for each statement up to the end mark. -/
theorem postOrder_runs {tokens ordered : List Token} (found : postOrder tokens = .ok ordered) :
    let ahead := tokens.takeWhile (·.kind != .endOfInput)
    let terminators := ahead.filter (·.kind == .terminator)
    let mark := (tokens.find? (·.kind == .endOfInput)).getD (.endOfInput (lastLine tokens))
    closeRuns (statementsIn tokens) (terminators ++ [mark]) = ahead ++ [mark] ∧
      (statementsIn tokens).length = terminators.length + 1 ∧
      (∃ runs, List.Forall₂ RunOf (statementsIn tokens) runs ∧
        ordered = closeRuns runs (terminators ++ [mark])) ∧
      ∃ body, ordered = body ++ [mark] ∧ mark.kind = .endOfInput ∧
        ∀ token ∈ body, token.kind ≠ .endOfInput := by
  intro ahead terminators mark
  have count : (statementsIn tokens).length = terminators.length + 1 := length_splitOnP _ ahead
  obtain ⟨runs, each, whole⟩ := postOrder_eq_ok_iff.mp found
  have plain {statement : List Token} (member : statement ∈ statementsIn tokens) :=
    oneStatement_of_mem_statementsIn member
  have unended : ∀ run ∈ runs, OneStatement run := by
    intro run member
    obtain ⟨statement, within, ordered⟩ := exists_of_mem_mapM (mapM_eq_ok_iff.mpr each) member
    exact (plain within).of_statementOrder ordered
  refine ⟨closeRuns_splitOnP _ ahead mark, count, ⟨runs, ?_, whole⟩, ?_⟩
  · exact ((List.forall₂_and_left _ _).mpr ⟨fun _ member => plain member, each⟩).imp
      fun statement run both => runOf_statementOrder both.1 both.2
  · rw [each.length_eq] at count
    rcases List.eq_nil_or_concat runs with rfl | ⟨earlier, last, rfl⟩
    · cases count
    · rw [List.concat_eq_append] at count unended whole
      have paired : earlier.length = terminators.length := by simpa using count
      refine ⟨closeRuns earlier terminators ++ last, ?_, kind_mark tokens _, ?_⟩
      · exact whole.trans (closeRuns_concat paired last mark)
      · intro token member ends
        have inside {run : List Token} (among : run ∈ earlier ++ [last]) : token ∉ run := by
          intro within
          have notEnd := unended run among token within
          rw [ends] at notEnd
          cases notEnd
        rcases List.mem_append.mp member with member | member
        · rcases mem_closeRuns member with ⟨run, among, within⟩ | within
          · exact inside (by simp [among]) within
          · have terminates := (List.mem_filter.mp within).2
            rw [ends] at terminates
            cases terminates
        · exact inside (by simp) member

/-- `x := -(1)` and `if -x` on two lines; what follows the end mark is not read. -/
theorem postOrder_runs_negation :
    let tokens : List Token :=
      [⟨.identifier, "x", ⟨1, 0⟩⟩, ⟨.assign, ":=", ⟨1, 2⟩⟩, ⟨.binary .subtract, "-", ⟨1, 5⟩⟩,
        ⟨.openParen, "(", ⟨1, 6⟩⟩, ⟨.integer, "1", ⟨1, 7⟩⟩, ⟨.closeParen, ")", ⟨1, 8⟩⟩,
        .terminator ⟨1, 9⟩, ⟨.control .conditional, "if", ⟨2, 0⟩⟩,
        ⟨.binary .subtract, "-", ⟨2, 3⟩⟩, ⟨.identifier, "x", ⟨2, 4⟩⟩, .endOfInput 2,
        ⟨.closeParen, ")", ⟨3, 0⟩⟩]
    let ordered : List Token :=
      [⟨.identifier, "x", ⟨1, 0⟩⟩, ⟨.integer, "1", ⟨1, 7⟩⟩, ⟨.unary .negate, "-", ⟨1, 5⟩⟩,
        ⟨.assign, ":=", ⟨1, 2⟩⟩, .terminator ⟨1, 9⟩, ⟨.control .conditional, "if", ⟨2, 0⟩⟩,
        ⟨.identifier, "x", ⟨2, 4⟩⟩, ⟨.unary .negate, "-", ⟨2, 3⟩⟩, .endOfInput 2]
    postOrder tokens = .ok ordered ∧
      ∃ runs, List.Forall₂ RunOf (statementsIn tokens) runs ∧
        ordered = closeRuns runs [.terminator ⟨1, 9⟩, .endOfInput 2] := by
  intro tokens ordered
  have found : postOrder tokens = .ok ordered := rfl
  exact ⟨found, (postOrder_runs found).2.2.1⟩

end Scriptlet
