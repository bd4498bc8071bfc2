import Scriptlet.Proofs.Fuel
import Scriptlet.Proofs.Lines
import Scriptlet.Proofs.Session.Basic

/-! A program run in two parts. The second part meets other tables than it would as the end of one
program: the strings that the first part made are in them already, and its own literals are not. -/

namespace Scriptlet

/-! ## One run after another -/

/-- What comes of going on from where a run ended, if it came to its end. -/
def followedBy (ending : RunResult × Machine) (next : Machine → RunResult × Machine) :
    RunResult × Machine :=
  match ending with
  | (.completed errors, middle) => ((next middle).1.recordAll errors, (next middle).2)
  | stopped => stopped

theorem RunResult.recordAll_nil (result : RunResult) : result.recordAll [] = result := by
  cases result <;> rfl

theorem RunResult.recordAll_cons (error : EvalError) (errors : List EvalError)
    (result : RunResult) :
    (result.recordAll errors).recordAll [error] = result.recordAll (error :: errors) := by
  cases result <;> rfl

theorem performAll_append (first second : List (Evaluate Unit)) (machine : Machine) :
    performAll (first ++ second) machine =
      followedBy (performAll first machine) (performAll second) := by
  induction first generalizing machine with
  | nil =>
      rw [List.nil_append, performAll, followedBy, RunResult.recordAll_nil]
  | cons step later induction =>
      rw [List.cons_append]
      rcases ran : step.run machine with ⟨(error | _) | _, after⟩
      · rw [performAll_of_error _ ran, performAll_of_error _ ran, induction]
        rcases performAll later after with ⟨_ | errors | _, middle⟩
        · rfl
        · exact Prod.ext (RunResult.recordAll_cons error errors _) rfl
        · rfl
      · rw [performAll_of_outOfFuel _ ran, performAll_of_outOfFuel _ ran]
        rfl
      · rw [performAll_of_ok _ ran, performAll_of_ok _ ran, induction]

/-- A flush that does not fail leaves nothing to be seen. -/
theorem performAll_flush {steps : List (Evaluate Unit)} {machine : Machine}
    (flushes : (performAll steps machine).2.console.flushFails = false) :
    performAll (steps ++ [Evaluate.flush]) machine = performAll steps machine := by
  rw [performAll_append]
  generalize performAll steps machine = ending at flushes ⊢
  rcases ending with ⟨_ | errors | _, middle⟩
  · rfl
  · have flushed : Evaluate.flush.run middle = (.ok (), middle) := by
      rw [Evaluate.run_flush, flushes]
      rfl
    rw [followedBy, performAll_of_ok [] flushed, performAll, RunResult.recordAll,
      List.append_nil]
  · rfl

/-! ## Both parts -/

theorem actions_append (fuel : Nat) (first second : List Tree) :
    actions fuel (first ++ second) = steps fuel first ++ actions fuel second := by
  rw [actions_eq, actions_eq, steps, List.map_append, List.append_assoc]
  rfl

namespace Machine

/-- Statements that were parsed from other tables, and moved, do what the source does. -/
theorem Alike.run_moved {first second : Machine} (alike : first.Alike second) {limit : Nat}
    {source : String} {program : List Tree} {symbols after : Symbols}
    (parsed : (programOfSource limit source).runFrom symbols = (.ok program, after))
    (grown : after.Extends second.symbols) (place : Position → Position) (fuel : Nat) :
    (performAll (actions fuel (program.map (Tree.move place))) second).1 =
        (first.run fuel limit source).1.move place ∧
      (first.run fuel limit source).2.Alike
        (performAll (actions fuel (program.map (Tree.move place))) second).2 := by
  have parsedToo := agree_programOfSource limit source first.symbols symbols
    (.refl first.symbols) (.refl symbols) trivial
  rw [Parse.runFrom] at parsed
  rw [parsed] at parsedToo
  generalize one : (programOfSource limit source).run first.symbols = ending at parsedToo
  cases parsedToo with
  | @ok own _ ownSymbols _ firstGrown _ _ trees =>
      rw [run_of_ok one]
      have moved : Tree.AllAlike place ownSymbols second.symbols own
          (program.map (Tree.move place)) := by
        apply List.forall₂_map_right_iff.mpr
        exact trees.imp fun _ _ each => (each.move place).mono (.refl _) grown
      have ran := runsAlike_performAll (agree_actions fuel moved) (.refl _) (.refl _)
        (alike.grow firstGrown.extends (.refl _))
      exact ⟨ran.result, ran.alike⟩

/-- A program run in two parts ends as the whole does, with any fuel. -/
theorem Alike.run_append {machine : Machine} (alike : machine.Alike machine)
    (flushes : machine.console.flushFails = false) {limit : Nat} {first second : String}
    (wholeLines : ∀ last ∈ first.toList.getLast?, last = '\n') {earlier later : List Tree}
    {middle final : Symbols}
    (firstParsed : (programOfSource limit first).runFrom machine.symbols = (.ok earlier, middle))
    (secondParsed : (programOfSource limit second).runFrom middle = (.ok later, final))
    (fuel : Nat) :
    let down := Position.below (linesOf first).length
    let split := followedBy (machine.run fuel limit first) fun between =>
      ((between.run fuel limit second).1.move down, (between.run fuel limit second).2)
    (machine.run fuel limit (first ++ second)).1 = split.1 ∧
      split.2.Alike (machine.run fuel limit (first ++ second)).2 := by
  intro down
  have wholeParsed : (programOfSource limit (first ++ second)).runFrom machine.symbols =
      (.ok (earlier ++ later.map (Tree.move down)), final) := by
    apply Parse.outcome_eq_ok.mp
    rw [outcome_programOfSource_append wholeLines (Parse.outcome_eq_ok.mpr firstParsed),
      Parse.outcome_eq_ok.mpr secondParsed]
    rfl
  rcases programOfSource_sound firstParsed with ⟨firstGrown, firstSound⟩
  rcases programOfSource_sound secondParsed with ⟨secondGrown, _⟩
  -- The first part is compared from the tables that it was parsed to and from those of the whole.
  have earlierAlike : Tree.AllAlike id middle final earlier earlier :=
    (firstSound earlier rfl).mono (.refl middle) secondGrown.extends
  have startAlike := alike.grow firstGrown.extends (firstGrown.trans secondGrown).extends
  have firstPart := runsAlike_performAll (agree_steps fuel earlierAlike) (.refl _) (.refl _)
    startAlike
  have firstRun : machine.run fuel limit first =
      performAll (steps fuel earlier) { machine with symbols := middle } := by
    rw [run_of_ok firstParsed, actions_eq]
    exact performAll_flush (firstPart.leftLater.flushFails.trans flushes)
  rw [firstRun, run_of_ok wholeParsed, actions_append, performAll_append]
  generalize performAll (steps fuel earlier) { machine with symbols := middle } = one at firstPart ⊢
  generalize performAll (steps fuel earlier) { machine with symbols := final } = other
    at firstPart ⊢
  rcases one with ⟨result, between⟩
  rcases other with ⟨_, betweenToo⟩
  rcases firstPart with ⟨rfl, betweenAlike, _, rightLater⟩
  dsimp only at *
  rw [RunResult.move_id]
  cases result with
  | rejected | outOfFuel => exact ⟨rfl, betweenAlike⟩
  | completed errors =>
      have secondPart := betweenAlike.run_moved secondParsed rightLater.extends down fuel
      exact ⟨congrArg (RunResult.recordAll errors) secondPart.1, secondPart.2⟩

end Machine

/-! ## Splitting a program -/

/-- A source that can be parsed. -/
def Parses (limit : Nat) (source : String) : Prop :=
  ∃ program symbols, (programOfSource limit source).runFrom {} = (.ok program, symbols)

/-- What can be parsed can be parsed from any tables. -/
theorem Parses.runFrom {limit : Nat} {source : String} (parses : Parses limit source)
    (symbols : Symbols) :
    ∃ program after, (programOfSource limit source).runFrom symbols = (.ok program, after) := by
  rcases parses with ⟨program, final, parsed⟩
  have ended := agree_programOfSource limit source {} symbols (.refl {}) (.refl symbols) trivial
  rw [Parse.runFrom] at parsed
  rw [parsed] at ended
  generalize other : (programOfSource limit source).run symbols = ending at ended
  cases ended with
  | ok => exact ⟨_, _, other⟩

/-- Splitting a program at the end of a line cannot be seen, as long as flushing does not fail: its
two parts, run one after the other, come to their ends exactly if the whole does. They report the
same errors, read and write the same, and leave the same names bound to the same contents. -/
theorem Machine.runs_append {machine : Machine} (reachable : machine.Reachable)
    (flushes : machine.console.flushFails = false) {limit : Nat} {first second : String}
    (wholeLines : ∀ last ∈ first.toList.getLast?, last = '\n') (firstParses : Parses limit first)
    (secondParses : Parses limit second) :
    let down := Position.below (linesOf first).length
    (∀ early between late final, machine.Runs limit first (.completed early) between →
      between.Runs limit second (.completed late) final →
      ∃ whole, machine.Runs limit (first ++ second)
          (.completed (early ++ late.map (EvalError.move down))) whole ∧
        whole.console = final.console ∧ whole.contents = final.contents) ∧
    ∀ errors whole, machine.Runs limit (first ++ second) (.completed errors) whole →
      ∃ early between late final, machine.Runs limit first (.completed early) between ∧
        between.Runs limit second (.completed late) final ∧
        errors = early ++ late.map (EvalError.move down) ∧
        whole.console = final.console ∧ whole.contents = final.contents := by
  intro down
  rcases firstParses.runFrom machine.symbols with ⟨earlier, middle, firstParsed⟩
  rcases secondParses.runFrom middle with ⟨later, final, secondParsed⟩
  have append := reachable.alike.run_append flushes wholeLines firstParsed secondParsed
  constructor
  · intro early between late final firstRuns secondRuns
    rcases firstRuns.exists_enough with ⟨enough, firstRan⟩
    rcases secondRuns.exists_enough with ⟨enoughToo, secondRan⟩
    have ended := append (max enough enoughToo)
    rw [firstRan _ (Nat.le_max_left enough enoughToo)] at ended
    simp only [followedBy, secondRan _ (Nat.le_max_right enough enoughToo)] at ended
    refine ⟨_, ⟨RunResult.noConfusion, _, Prod.ext ended.1 rfl⟩, ?_⟩
    exact ⟨ended.2.console.symm, ended.2.contents.symm⟩
  · rintro errors whole ⟨_, fuel, ran⟩
    have ended := append fuel
    rcases firstRan : machine.run fuel limit first with ⟨_ | early | _, between⟩
    all_goals rw [firstRan, ran] at ended
    · cases ended.1
    · rcases secondRan : between.run fuel limit second with ⟨_ | late | _, final⟩
      all_goals simp only [followedBy, secondRan] at ended
      · cases ended.1
      · refine ⟨early, between, late, final, ⟨RunResult.noConfusion, fuel, firstRan⟩,
          ⟨RunResult.noConfusion, fuel, secondRan⟩, ?_, ?_⟩
        · exact RunResult.completed.inj ended.1
        · exact ⟨ended.2.console.symm, ended.2.contents.symm⟩
      · cases ended.1
    · cases ended.1

/-- The string that the first line makes is in the tables before the literal of the second line. -/
theorem Machine.runs_append_unbound :
    ∃ between final whole : Machine,
      Machine.Runs 8 "x := \"a\" + \"b\"\n" {} (.completed []) between ∧
      between.Runs 8 "print \"c\" + z" (.completed [.fault (.unboundIdentifier "z") ⟨1, 12⟩])
        final ∧
      final.symbols.strings.entries = #["a", "b", "ab", "c"] ∧
      Machine.Runs 8 ("x := \"a\" + \"b\"\n" ++ "print \"c\" + z") {}
        (.completed [.fault (.unboundIdentifier "z") ⟨2, 12⟩]) whole ∧
      whole.console = final.console ∧ whole.contents = final.contents := by
  have firstParses : Parses 8 "x := \"a\" + \"b\"\n" :=
    ⟨[.assign (.identifier ⟨0⟩ ⟨1, 0⟩)
        (.binary .add (.string ⟨0⟩ ⟨1, 5⟩) (.string ⟨1⟩ ⟨1, 11⟩) ⟨1, 9⟩) ⟨1, 2⟩],
      ⟨.ofTexts ["a", "b"], .ofTexts ["x"]⟩, by cbv⟩
  have secondParses : Parses 8 "print \"c\" + z" :=
    ⟨[.command .print
        (.binary .add (.string ⟨0⟩ ⟨1, 6⟩) (.identifier ⟨0⟩ ⟨1, 12⟩) ⟨1, 10⟩) ⟨1, 0⟩],
      ⟨.ofTexts ["c"], .ofTexts ["z"]⟩, by cbv⟩
  have wholeLines : ∀ last ∈ "x := \"a\" + \"b\"\n".toList.getLast?, last = '\n' := by
    rintro _ ⟨⟩
    rfl
  have lines : (linesOf "x := \"a\" + \"b\"\n").length = 1 := by decide +kernel
  have firstRuns : Machine.Runs 8 "x := \"a\" + \"b\"\n" {} (.completed [])
      (Machine.run 0 8 "x := \"a\" + \"b\"\n" {}).2 :=
    ⟨RunResult.noConfusion, 0, Prod.ext (by cbv) rfl⟩
  have secondRuns : (Machine.run 0 8 "x := \"a\" + \"b\"\n" {}).2.Runs 8 "print \"c\" + z"
      (.completed [.fault (.unboundIdentifier "z") ⟨1, 12⟩])
      ((Machine.run 0 8 "x := \"a\" + \"b\"\n" {}).2.run 0 8 "print \"c\" + z").2 :=
    ⟨RunResult.noConfusion, 0, Prod.ext (by cbv) rfl⟩
  have split := runs_append (.fresh {}) rfl wholeLines firstParses secondParses
  rw [lines] at split
  rcases split.1 _ _ _ _ firstRuns secondRuns with ⟨whole, wholeRuns, console, contents⟩
  exact ⟨_, _, whole, firstRuns, secondRuns, by cbv, wholeRuns, console, contents⟩

end Scriptlet
