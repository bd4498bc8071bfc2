import Scriptlet.Proofs.Program

/-! Statements of concatenated token sequences. Where the first sequence ends with a terminator the
statements of the whole are those of the one followed by those of the other, although the last run
of the first and the first run of the second are parsed as one. -/

namespace Scriptlet

/-! ## The end mark

An end mark adds nothing to a sequence. -/

section

variable {mark : Token}

theorem statementsIn_append_end (marks : mark.kind = .endOfInput) (tokens : List Token) :
    statementsIn (tokens ++ [mark]) = statementsIn tokens := by
  have stopped : [mark].takeWhile (·.kind != .endOfInput) = [] :=
    List.takeWhile_cons_of_neg (by simp [marks])
  have same : (tokens ++ [mark]).takeWhile (·.kind != .endOfInput) =
      tokens.takeWhile (·.kind != .endOfInput) := by
    rw [List.takeWhile_append]
    split
    · rename_i whole
      rw [stopped, List.append_nil]
      exact ((List.takeWhile_sublist _).eq_of_length whole).symm
    · rfl
  rw [statementsIn, statementsIn, same]

theorem straightStatements_append_end (limit : Nat) (marks : mark.kind = .endOfInput)
    (tokens : List Token) :
    straightStatements limit (tokens ++ [mark]) = straightStatements limit tokens := by
  rw [straightStatements_eq, straightStatements_eq, statementsIn_append_end marks]

theorem isStraight_of_end (marks : mark.kind = .endOfInput) : mark.isStraight := by
  rw [Token.isStraight, marks]
  rfl

theorem governed_append_end (limit depth : Nat) (keyword : Token) (marks : mark.kind = .endOfInput)
    (after : List Token) :
    governed limit depth keyword (after ++ [mark]) =
      governed limit depth keyword after >>= fun found => return (found.1, found.2 ++ [mark]) := by
  rw [governed_eq, governed_eq]
  split
  · rfl
  · cases opened : splitAtOpen after with
    | none =>
        rw [splitAtOpen_append_end opened marks]
        rfl
    | some parts =>
        rcases parts with ⟨condition, brace, inside⟩
        rw [splitAtOpen_append opened]
        simp only [bind_assoc]
        congr
        funext tree
        cases closed : splitAtClose 1 inside with
        | none =>
            rw [splitAtClose_append_end closed marks]
            rfl
        | some parts =>
            rcases parts with ⟨block, rest⟩
            rw [splitAtClose_append closed]
            simp only [bind_assoc, pure_bind]

theorem statementsOf_append_end (limit depth : Nat) (marks : mark.kind = .endOfInput)
    (tokens : List Token) :
    statementsOf limit depth (tokens ++ [mark]) = statementsOf limit depth tokens := by
  induction tokens using program_induction with
  | straight tokens straight =>
      have longer : Straight (tokens ++ [mark]) := by
        intro token member
        rcases List.mem_append.mp member with member | last
        · exact straight token member
        · rw [List.mem_singleton.mp last]
          exact isStraight_of_end marks
      rw [statementsOf_straight limit depth longer, statementsOf_straight limit depth straight,
        straightStatements_append_end limit marks]
  | brace before stop later straight stops notControl =>
      rw [List.append_assoc, List.cons_append,
        statementsOf_brace limit depth straight stops notControl,
        statementsOf_brace limit depth straight stops notControl]
  | control before keyword later straight isControl induction =>
      rw [List.append_assoc, List.cons_append, statementsOf_control limit depth straight isControl,
        statementsOf_control limit depth straight isControl, governed_append_end limit depth keyword
        marks]
      simp only [bind_assoc, pure_bind]
      congr
      funext earlier
      apply Parse.bind_congr_of_ok
      intro found symbols middle parsed
      rw [induction found.2 (length_governed (Parse.outcome_eq_ok.mpr parsed))]

theorem outcome_statementsOf_append_end (limit depth : Nat) (marks : mark.kind = .endOfInput)
    (tokens : List Token) (symbols : Symbols) :
    (statementsOf limit depth (tokens ++ [mark])).outcome symbols =
      (statementsOf limit depth tokens).outcome symbols := by
  rw [statementsOf_append_end limit depth marks]

end

/-! ## One sequence after another -/

/-- The last token, if there is one, ends a statement. -/
def Closed (tokens : List Token) : Prop :=
  ∀ last ∈ tokens.getLast?, last.kind = .terminator

def Unended (tokens : List Token) : Prop :=
  ∀ token ∈ tokens, token.kind ≠ .endOfInput

theorem Closed.of_append {before after : List Token} (closed : Closed (before ++ after)) :
    Closed after := by
  intro last member
  apply closed
  rw [List.getLast?_append, Option.mem_def.mp member]
  rfl

theorem Closed.append {first second : List Token} (one : Closed first) (other : Closed second) :
    Closed (first ++ second) := by
  intro last member
  rw [List.getLast?_append] at member
  cases found : second.getLast? with
  | none =>
      rw [found] at member
      exact one last member
  | some ending =>
      rw [found] at member
      cases member
      exact other last found

theorem closed_line (words : List Token) (position : Position) :
    Closed (words ++ [.terminator position]) := by
  intro last member
  rw [List.getLast?_append] at member
  cases member
  rfl

theorem Unended.append {first second : List Token} (one : Unended first) (other : Unended second) :
    Unended (first ++ second) := by
  intro token member
  rcases List.mem_append.mp member with member | member
  · exact one token member
  · exact other token member

theorem unended_token {token : Token} (notEnd : token.kind ≠ .endOfInput) : Unended [token] := by
  intro selected member
  rwa [List.mem_singleton.mp member]

theorem statementsIn_append {before : List Token} (unended : Unended before) {closing : Token}
    (closes : closing.kind = .terminator) (after : List Token) :
    statementsIn (before ++ closing :: after) = statementsIn before ++ statementsIn after := by
  have passes : ∀ token ∈ before, (token.kind != .endOfInput) = true := by
    intro token member
    simpa using unended token member
  have all := @List.takeWhile_append_of_pos _ _ before [] passes
  rw [List.append_nil, List.takeWhile_nil, List.append_nil] at all
  rw [statementsIn, statementsIn, statementsIn, List.takeWhile_append_of_pos passes, all,
    List.takeWhile_cons_of_pos (by simp [closes]),
    List.splitOnP_append_cons _ _ (by simp [closes])]

theorem statementsIn_nil : statementsIn [] = [[]] :=
  statementsIn_statement fun _ none => nomatch none

/-- The trees of statements in post order. -/
def builtTrees (limit : Nat) (runs : List (List Token)) : Parse (List Tree) :=
  runs.mapM (statementTree limit) >>= fun statements => return statements.reduceOption

theorem builtTrees_append (limit : Nat) (left right : List (List Token)) :
    builtTrees limit (left ++ right) =
      builtTrees limit left >>= fun earlier =>
        builtTrees limit right >>= fun later => return earlier ++ later := by
  rw [builtTrees, builtTrees, builtTrees, List.mapM_append]
  simp only [bind_assoc, pure_bind, List.reduceOption_append]

theorem builtTrees_empty (limit : Nat) : builtTrees limit [[]] = return [] := rfl

/-- Straight statements one after the other. -/
theorem outcome_straightStatements_append {limit : Nat} {before : List Token}
    (unended : Unended before) {closing : Token} (closes : closing.kind = .terminator)
    {symbols middle : Symbols} {earlier : List Tree}
    (parsed : (straightStatements limit (before ++ [closing])).outcome symbols =
      .ok (earlier, middle)) (after : List Token) :
    (straightStatements limit (before ++ closing :: after)).outcome symbols =
      (straightStatements limit after).outcome middle >>= fun later =>
        .ok (earlier ++ later.1, later.2) := by
  rw [straightStatements_eq, statementsIn_append unended closes, statementsIn_nil,
    List.mapM_append] at parsed
  rw [straightStatements_eq, straightStatements_eq, statementsIn_append unended closes,
    List.mapM_append]
  cases ordered : (statementsIn before).mapM (statementOrder Kind.binding?) with
  | error error =>
      rw [ordered] at parsed
      cases parsed
  | ok runs =>
      rw [ordered] at parsed
      change (builtTrees limit (runs ++ [[]])).outcome symbols = _ at parsed
      rw [builtTrees_append, builtTrees_empty] at parsed
      simp only [pure_bind, List.append_nil, bind_pure] at parsed
      cases (statementsIn after).mapM (statementOrder Kind.binding?) with
      | error error => rfl
      | ok others =>
          change (builtTrees limit (runs ++ others)).outcome symbols =
            (builtTrees limit others).outcome middle >>= _
          rw [builtTrees_append, Parse.outcome_bind_of_ok parsed, Parse.outcome_bind]
          rfl

/-- A governed statement does not look at what follows its block. -/
theorem governed_append {limit depth : Nat} {keyword : Token} {after rest : List Token}
    {symbols final : Symbols} {tree : Tree}
    (parsed : (governed limit depth keyword after).outcome symbols = .ok ((tree, rest), final)) :
    (∃ block, after = block ++ rest) ∧ ∀ later,
      (governed limit depth keyword (after ++ later)).outcome symbols =
        .ok ((tree, rest ++ later), final) := by
  rcases governed_eq_ok.mp parsed with ⟨shallow, tokens, brace, inside, block, condition, middle,
    body, opened, closed, conditionParsed, bodyParsed, same⟩
  constructor
  · rcases splitAtClose_eq_some closed with ⟨closing, _, insideSame⟩
    refine ⟨tokens ++ brace :: block ++ [closing], ?_⟩
    rw [(splitAtOpen_eq_some opened).1, insideSame]
    simp
  · intro later
    exact governed_eq_ok.mpr ⟨shallow, tokens, brace, inside ++ later, block, condition, middle,
      body, splitAtOpen_append opened later, splitAtClose_append closed later, conditionParsed,
      bodyParsed, same⟩

/-- Straight statements followed by those of any other sequence, in which a run may go on. -/
theorem outcome_statementsOf_straight_append {limit depth : Nat} {first : List Token}
    (straight : Straight first) (closed : Closed first) (unended : Unended first)
    {symbols middle : Symbols} {earlier : List Tree}
    (parsed : (straightStatements limit first).outcome symbols = .ok (earlier, middle))
    (second : List Token) :
    (statementsOf limit depth (first ++ second)).outcome symbols =
      (statementsOf limit depth second).outcome middle >>= fun later =>
        .ok (earlier ++ later.1, later.2) := by
  have append {run : List Token} : Straight run → Straight (first ++ run) := by
    intro straightRun token member
    rcases List.mem_append.mp member with member | member
    · exact straight token member
    · exact straightRun token member
  have runs (run : List Token) : (straightStatements limit (first ++ run)).outcome symbols =
      (straightStatements limit run).outcome middle >>= fun later =>
        .ok (earlier ++ later.1, later.2) := by
    rcases List.eq_nil_or_concat first with rfl | ⟨before, closing, rfl⟩
    · cases parsed
      rw [List.nil_append]
      cases (straightStatements limit run).outcome symbols <;> rfl
    · rw [List.concat_eq_append] at closed unended parsed ⊢
      rw [List.append_assoc, List.singleton_append]
      exact outcome_straightStatements_append
        (fun token member => unended token (List.mem_append_left _ member))
        (closed closing (by simp)) parsed run
  induction second using program_induction with
  | straight second straightSecond =>
      rw [statementsOf_straight limit depth (append straightSecond),
        statementsOf_straight limit depth straightSecond]
      exact runs second
  | brace before stop later straightBefore stops notControl =>
      rw [← List.append_assoc, statementsOf_brace limit depth (append straightBefore) stops
        notControl, statementsOf_brace limit depth straightBefore stops notControl]
      rfl
  | control before keyword later straightBefore isControl _ =>
      rw [← List.append_assoc, statementsOf_control limit depth (append straightBefore) isControl,
        statementsOf_control limit depth straightBefore isControl]
      simp only [Parse.outcome_bind, runs, bind_assoc, Parse.outcome_pure]
      congr
      funext before
      change (governed limit depth keyword later).outcome before.2 >>= _ = _
      congr
      funext found
      congr
      funext following
      change Except.ok (_, _) = Except.ok (_, _)
      rw [List.append_assoc]

/-- Statements of a sequence that is closed, followed by those of any other sequence. -/
theorem outcome_statementsOf_append {limit depth : Nat} {first : List Token}
    (closed : Closed first) (unended : Unended first) {symbols middle : Symbols}
    {earlier : List Tree}
    (parsed : (statementsOf limit depth first).outcome symbols = .ok (earlier, middle))
    (second : List Token) :
    (statementsOf limit depth (first ++ second)).outcome symbols =
      (statementsOf limit depth second).outcome middle >>= fun later =>
        .ok (earlier ++ later.1, later.2) := by
  induction first using program_induction generalizing symbols earlier with
  | straight first straight =>
      rw [statementsOf_straight limit depth straight] at parsed
      exact outcome_statementsOf_straight_append straight closed unended parsed second
  | brace before stop later straight stops notControl =>
      rw [statementsOf_brace limit depth straight stops notControl] at parsed
      cases parsed
  | control before keyword later straight isControl induction =>
      rw [statementsOf_control limit depth straight isControl, Parse.outcome_bind_eq_ok] at parsed
      rcases parsed with ⟨trees, _, runParsed, parsed⟩
      rw [Parse.outcome_bind_eq_ok] at parsed
      rcases parsed with ⟨⟨tree, rest⟩, _, blockParsed, parsed⟩
      rw [Parse.outcome_bind_eq_ok] at parsed
      rcases parsed with ⟨following, _, restParsed, same⟩
      cases same
      rcases governed_append blockParsed with ⟨⟨block, rfl⟩, longer⟩
      have whole : before ++ keyword :: (block ++ rest) = (before ++ keyword :: block) ++ rest := by
        simp
      rw [whole] at closed unended
      have rest := induction rest (length_governed blockParsed) closed.of_append
        (fun token member => unended token (List.mem_append_right _ member)) restParsed
      rw [List.append_assoc, List.cons_append, statementsOf_control limit depth straight isControl,
        Parse.outcome_bind_of_ok runParsed, Parse.outcome_bind_of_ok (longer second),
        Parse.outcome_bind, rest]
      cases (statementsOf limit depth second).outcome middle with
      | error error => rfl
      | ok later =>
          change Except.ok (_, _) = Except.ok (_, _)
          rw [List.append_assoc]
          rfl

theorem outcome_statementsOf_terminator (limit depth : Nat) (position : Position)
    (tokens : List Token) (symbols : Symbols) :
    (statementsOf limit depth (.terminator position :: tokens)).outcome symbols =
      (statementsOf limit depth tokens).outcome symbols := by
  have straight : Straight [.terminator position] := by
    intro token member
    rw [List.mem_singleton.mp member]
    rfl
  have nothing : (statementsOf limit depth [.terminator position]).outcome symbols =
      .ok ([], symbols) := by
    rw [statementsOf_straight limit depth straight]
    rfl
  have whole := outcome_statementsOf_append (closed_line [] position)
    (unended_token Kind.noConfusion) nothing tokens
  rw [List.nil_append, List.singleton_append] at whole
  rw [whole]
  cases (statementsOf limit depth tokens).outcome symbols <;> rfl

end Scriptlet
