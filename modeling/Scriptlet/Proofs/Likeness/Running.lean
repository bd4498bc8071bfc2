import Scriptlet.Proofs.Likeness.Evaluation
import Scriptlet.Proofs.Likeness.Parsing

/-! Runs with other tables. A source does the same to like machines: it is rejected for the same
fault, or its statements fail in the same way, and like machines are left. -/

namespace Scriptlet

/-! ## Results moved to other places -/

def RunResult.move (place : Position → Position) : RunResult → RunResult
  | rejected error => rejected (error.move place)
  | completed errors => completed (errors.map (EvalError.move place))
  | outOfFuel => outOfFuel

theorem EvalError.move_id (error : EvalError) : error.move id = error := by
  cases error <;> rfl

theorem RunResult.move_id (result : RunResult) : result.move id = result := by
  cases result with
  | rejected error => rfl
  | completed errors =>
      have same : EvalError.move id = id := funext EvalError.move_id
      rw [move, same, List.map_id]
  | outOfFuel => rfl

/-! ## Statement after statement -/

/-- The result of a run in which errors were met before. -/
def RunResult.recordAll (errors : List EvalError) : RunResult → RunResult
  | completed later => completed (errors ++ later)
  | stopped => stopped

theorem RunResult.move_recordAll (place : Position → Position) (errors : List EvalError)
    (result : RunResult) :
    (result.recordAll errors).move place =
      (result.move place).recordAll (errors.map (EvalError.move place)) := by
  cases result with
  | completed later => rw [recordAll, move, move, recordAll, List.map_append]
  | rejected | outOfFuel => rfl

section

variable {step : Evaluate Unit} {machine after : Machine}

theorem performAll_of_ok (later : List (Evaluate Unit)) (ran : step.run machine = (.ok (), after)) :
    performAll (step :: later) machine = performAll later after := by
  rw [performAll, ran]

theorem performAll_of_outOfFuel (later : List (Evaluate Unit))
    (ran : step.run machine = (.error .outOfFuel, after)) :
    performAll (step :: later) machine = (.outOfFuel, after) := by
  rw [performAll, ran]

theorem performAll_of_error (later : List (Evaluate Unit)) {error : EvalError}
    (ran : step.run machine = (.error (.error error), after)) :
    performAll (step :: later) machine =
      ((performAll later after).1.recordAll [error], (performAll later after).2) := by
  rw [performAll, ran]
  dsimp only
  rcases performAll later after with ⟨_ | _ | _, final⟩ <;> rfl

end

/-- A flush tells whether it fails, and changes nothing. -/
theorem Evaluate.run_flush (machine : Machine) :
    flush.run machine =
      (if machine.console.flushFails then .error (.error (.console .flushFailed)) else .ok (),
        machine) := by
  rcases machine with ⟨symbols, environment, ⟨waiting, written, capacity, flushFails⟩⟩
  cases flushFails <;> rfl

/-- What the statements of a program do, one after the other. -/
def steps (fuel : Nat) (program : List Tree) : List (Evaluate Unit) :=
  program.map fun statement => do let _ ← evaluate fuel statement

theorem actions_eq (fuel : Nat) (program : List Tree) :
    actions fuel program = steps fuel program ++ [Evaluate.flush] := rfl

/-- How two machines came out of a run: with the same result, and as like as they were. -/
structure RunsAlike (place : Position → Position) (here there : Machine)
    (one other : RunResult × Machine) : Prop where
  result : other.1 = one.1.move place
  alike : one.2.Alike other.2
  leftLater : here.Advances one.2
  rightLater : there.Advances other.2

section

variable {place : Position → Position} {left right : Machine}

theorem runsAlike_performAll {steps stepsToo : List (Evaluate Unit)}
    (agree : List.Forall₂ ((Evaluate.comparison place).Agree left right fun _ _ _ _ => True) steps
      stepsToo)
    {here there : Machine} (leftLater : left.Advances here) (rightLater : right.Advances there)
    (alike : here.Alike there) :
    RunsAlike place here there (performAll steps here) (performAll stepsToo there) := by
  induction agree generalizing here there with
  | nil => exact ⟨rfl, alike, .refl here, .refl there⟩
  | @cons step stepToo later laterToo first _ induction =>
      have ended := first here there leftLater rightLater alike
      generalize one : step.run here = ending at ended
      generalize other : stepToo.run there = endingToo at ended
      cases ended with
      | ok leftAfter rightAfter alikeAfter _ =>
          rw [performAll_of_ok later one, performAll_of_ok laterToo other]
          have rest := induction (leftLater.trans leftAfter) (rightLater.trans rightAfter)
            alikeAfter
          exact ⟨rest.result, rest.alike, leftAfter.trans rest.leftLater,
            rightAfter.trans rest.rightLater⟩
      | @error stop _ _ _ leftAfter rightAfter alikeAfter failed =>
          cases failed
          cases stop with
          | outOfFuel =>
              rw [performAll_of_outOfFuel later one, performAll_of_outOfFuel laterToo other]
              exact ⟨rfl, alikeAfter, leftAfter, rightAfter⟩
          | error error =>
              -- An error is recorded on both sides, and the later steps still have to agree.
              rw [performAll_of_error later one, performAll_of_error laterToo other]
              have rest := induction (leftLater.trans leftAfter) (rightLater.trans rightAfter)
                alikeAfter
              refine ⟨?_, rest.alike, leftAfter.trans rest.leftLater,
                rightAfter.trans rest.rightLater⟩
              rw [RunResult.move_recordAll, rest.result]
              rfl

/-- The steps of like programs agree one by one. -/
theorem agree_steps (fuel : Nat) {program programToo : List Tree}
    (alike : Tree.AllAlike place left.symbols right.symbols program programToo) :
    List.Forall₂ ((Evaluate.comparison place).Agree left right fun _ _ _ _ => True)
      (steps fuel program) (steps fuel programToo) := by
  rw [steps, steps, List.forall₂_map_left_iff, List.forall₂_map_right_iff]
  apply alike.imp
  intro statement statementToo each
  apply Comparison.Agree.bind (agree_evaluate fuel each)
  intro here there _ _ _ _ _
  exact .pure fun _ _ _ _ => trivial

theorem agree_actions (fuel : Nat) {program programToo : List Tree}
    (alike : Tree.AllAlike place left.symbols right.symbols program programToo) :
    List.Forall₂ ((Evaluate.comparison place).Agree left right fun _ _ _ _ => True)
      (actions fuel program) (actions fuel programToo) := by
  rw [actions_eq, actions_eq]
  apply List.rel_append (agree_steps fuel alike)
  exact .cons (Evaluate.agree_flush.imp fun _ _ _ _ _ => trivial) .nil

end

/-! ## Sources -/

namespace Machine

theorem run_of_error {machine : Machine} {limit : Nat} {source : String} {error : SourceError}
    {symbols : Symbols}
    (parsed : (programOfSource limit source).runFrom machine.symbols = (.error error, symbols))
    (fuel : Nat) :
    machine.run fuel limit source = (.rejected error, { machine with symbols }) := by
  rw [Parse.runFrom] at parsed
  rw [run, parse, parsed]

theorem run_of_ok {machine : Machine} {limit : Nat} {source : String} {program : List Tree}
    {symbols : Symbols}
    (parsed : (programOfSource limit source).runFrom machine.symbols = (.ok program, symbols))
    (fuel : Nat) :
    machine.run fuel limit source = performAll (actions fuel program) { machine with symbols } := by
  rw [Parse.runFrom] at parsed
  rw [run, parse, parsed]

/-- Like machines run a source alike, and it only adds to their tables. -/
theorem Alike.run {first second : Machine} (alike : first.Alike second) (fuel limit : Nat)
    (source : String) :
    (second.run fuel limit source).1 = (first.run fuel limit source).1 ∧
      (first.run fuel limit source).2.Alike (second.run fuel limit source).2 ∧
      first.symbols.Grows (first.run fuel limit source).2.symbols := by
  have parsed := agree_programOfSource limit source first.symbols second.symbols
    (.refl first.symbols) (.refl second.symbols) trivial
  generalize one : (programOfSource limit source).run first.symbols = ending at parsed
  generalize other : (programOfSource limit source).run second.symbols = endingToo at parsed
  cases parsed with
  | error firstGrown secondGrown _ same =>
      cases same
      rw [run_of_error one, run_of_error other]
      exact ⟨rfl, alike.grow firstGrown.extends secondGrown.extends, firstGrown⟩
  | ok firstGrown secondGrown _ trees =>
      rw [run_of_ok one, run_of_ok other]
      have ran := runsAlike_performAll (agree_actions fuel trees) (.refl _) (.refl _)
        (alike.grow firstGrown.extends secondGrown.extends)
      refine ⟨?_, ran.alike, firstGrown.trans ran.leftLater.grows⟩
      rw [ran.result, RunResult.move_id]

end Machine

end Scriptlet
