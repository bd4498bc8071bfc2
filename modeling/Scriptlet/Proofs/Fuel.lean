import Scriptlet.Proofs.Likeness.Running

/-! Fuel decides only whether an evaluation comes to its end. One that does is the same with any
greater amount, so that the end of a run is a matter of the source and the machine alone. -/

namespace Scriptlet

namespace Evaluate

/-- The second action does what the first does, unless that is out of fuel. -/
def Continues (less more : Evaluate α) : Prop :=
  ∀ machine, (less.run machine).1 ≠ .error .outOfFuel → more.run machine = less.run machine

namespace Continues

theorem refl (step : Evaluate α) : Continues step step :=
  fun _ _ => rfl

theorem bind {less more : Evaluate α} {next nextMore : α → Evaluate β}
    (first : Continues less more) (following : ∀ value, Continues (next value) (nextMore value)) :
    Continues (less >>= next) (more >>= nextMore) := by
  intro machine finished
  rw [Comparison.run_bind] at finished
  rw [Comparison.run_bind, Comparison.run_bind]
  have start := first machine
  generalize less.run machine = ending at finished start ⊢
  rcases ending with ⟨stop | value, after⟩
  · rw [start (by simpa using finished)]
  · rw [start (by simp)]
    exact following value after finished

/-- What is done with an outcome does not depend on fuel. -/
theorem andThen {less more : Evaluate α} (first : Continues less more) (next : α → Evaluate β) :
    Continues (less >>= next) (more >>= next) :=
  first.bind fun value => refl (next value)

section

variable {less more : Evaluate (Option Value)} (step : Continues less more)

include step

theorem required (position : Position) :
    Continues (required position less) (required position more) :=
  step.andThen _

theorem operand (position : Position) :
    Continues (operand position less) (operand position more) :=
  (step.required position).andThen _

theorem condition (control : Control) (keyword position : Position) :
    Continues (condition control keyword position less)
      (condition control keyword position more) :=
  (step.operand position).andThen _

theorem command (keyword : Command) (operandPosition position : Position) :
    Continues (command keyword operandPosition position less)
      (command keyword operandPosition position more) := by
  cases keyword with
  | print | input => exact (step.operand operandPosition).andThen _
  | delete => exact (step.required operandPosition).andThen _

end

/-- A loop that comes to its end does so with more fuel. -/
theorem loop {holds holdsMore : Evaluate Bool} {body bodyMore : Evaluate Unit}
    (test : Continues holds holdsMore) (pass : Continues body bodyMore) {less more : Nat}
    (enough : less ≤ more) :
    @Continues Unit (loop holds body less) (loop holdsMore bodyMore more) := by
  -- With no fuel a loop does not come to its end, so there is nothing to show.
  induction less generalizing more with
  | zero => exact fun machine finished => absurd rfl finished
  | succ less induction =>
      cases more with
      | zero => omega
      | succ more =>
          rw [loop_succ, loop_succ]
          apply test.bind
          intro continues
          cases continues with
          | false => exact refl _
          | true => exact pass.bind fun _ => induction (by omega)

end Continues

end Evaluate

/-! ## Trees -/

theorem continues_evaluateAll {less more : Nat} {body : List Tree}
    (each : ∀ statement ∈ body,
      Evaluate.Continues (evaluate less statement) (evaluate more statement)) :
    Evaluate.Continues (evaluateAll less body) (evaluateAll more body) := by
  induction body with
  | nil =>
      rw [evaluateAll, evaluateAll]
      exact .refl _
  | cons statement later induction =>
      rw [evaluateAll, evaluateAll]
      apply (each statement List.mem_cons_self).bind
      intro _
      exact induction fun statement member => each statement (List.mem_cons_of_mem _ member)

theorem continues_evaluate {less more : Nat} (enough : less ≤ more) (tree : Tree) :
    Evaluate.Continues (evaluate less tree) (evaluate more tree) := by
  induction tree using Tree.induction with
  | integer | decimal | string | boolean | identifier =>
      rw [evaluate, evaluate]
      exact .refl _
  | binary operator left right position leftInduction rightInduction =>
      rw [evaluate, evaluate]
      apply (leftInduction.operand left.position).bind
      intro first
      exact (rightInduction.operand right.position).andThen _
  | unary operator operand position induction =>
      rw [evaluate, evaluate]
      exact (induction.operand operand.position).andThen _
  | assign target value position targetInduction valueInduction =>
      rw [evaluate, evaluate]
      apply (targetInduction.required target.position).bind
      intro slot
      exact (valueInduction.operand value.position).andThen _
  | command keyword operand position induction =>
      rw [evaluate, evaluate]
      exact induction.command keyword operand.position position
  | control keyword condition body position conditionInduction bodyInduction =>
      have test := conditionInduction.condition keyword position condition.position
      have pass := continues_evaluateAll bodyInduction
      cases keyword with
      | conditional =>
          rw [evaluate, evaluate]
          apply test.bind
          intro holds
          cases holds with
          | false => exact .refl _
          | true => exact pass.andThen _
      | loop =>
          rw [evaluate, evaluate]
          exact (test.loop pass enough).andThen _

/-! ## Runs -/

theorem performAll_continues {steps stepsMore : List (Evaluate Unit)}
    (each : List.Forall₂ Evaluate.Continues steps stepsMore) (machine : Machine)
    (finished : (performAll steps machine).1 ≠ .outOfFuel) :
    performAll stepsMore machine = performAll steps machine := by
  induction each generalizing machine with
  | nil => rfl
  | @cons step stepMore later laterMore first _ induction =>
      have start := first machine
      rcases ran : step.run machine with ⟨(error | _) | _, after⟩
      · rw [ran] at start
        rw [performAll_of_error later ran] at finished
        have rest : (performAll later after).1 ≠ .outOfFuel := by
          intro ended
          rw [ended] at finished
          exact finished rfl
        rw [performAll_of_error later ran, performAll_of_error laterMore (start (by simp)),
          induction after rest]
      · rw [performAll_of_outOfFuel later ran] at finished
        exact absurd rfl finished
      · rw [ran] at start
        rw [performAll_of_ok later ran] at finished
        rw [performAll_of_ok later ran, performAll_of_ok laterMore (start (by simp)),
          induction after finished]

theorem continues_actions {less more : Nat} (enough : less ≤ more) (program : List Tree) :
    List.Forall₂ Evaluate.Continues (actions less program) (actions more program) := by
  apply List.rel_append
  · rw [List.forall₂_map_left_iff, List.forall₂_map_right_iff, List.forall₂_same]
    exact fun statement _ => (continues_evaluate enough statement).andThen _
  · exact .cons (.refl _) .nil

namespace Machine

/-- A run that comes to its end is the same with more fuel. -/
theorem run_continues {less more limit : Nat} (enough : less ≤ more) {source : String}
    {machine : Machine} (finished : (machine.run less limit source).1 ≠ .outOfFuel) :
    machine.run more limit source = machine.run less limit source := by
  rcases parsed : (programOfSource limit source).runFrom machine.symbols with ⟨_ | program, symbols⟩
  · rw [run_of_error parsed, run_of_error parsed]
  · rw [run_of_ok parsed] at finished
    rw [run_of_ok parsed, run_of_ok parsed]
    exact performAll_continues (continues_actions enough program) _ finished

/-- A run that comes to its end, with enough fuel: how it ends, and the machine that it leaves. -/
def Runs (limit : Nat) (source : String) (machine : Machine) (result : RunResult)
    (after : Machine) : Prop :=
  result ≠ .outOfFuel ∧ ∃ fuel, machine.run fuel limit source = (result, after)

theorem Runs.exists_enough {limit : Nat} {source : String} {machine after : Machine}
    {result : RunResult} (runs : machine.Runs limit source result after) :
    ∃ enough, ∀ fuel, enough ≤ fuel → machine.run fuel limit source = (result, after) := by
  rcases runs with ⟨finished, enough, ran⟩
  refine ⟨enough, ?_⟩
  intro fuel more
  have ended : (machine.run enough limit source).1 ≠ .outOfFuel := by
    rw [ran]
    exact finished
  rw [run_continues more ended, ran]

/-- A run comes to one end only. -/
theorem Runs.unique {limit : Nat} {source : String} {machine after afterToo : Machine}
    {result resultToo : RunResult} (one : machine.Runs limit source result after)
    (other : machine.Runs limit source resultToo afterToo) :
    result = resultToo ∧ after = afterToo := by
  rcases one.exists_enough with ⟨enough, ran⟩
  rcases other.exists_enough with ⟨enoughToo, ranToo⟩
  have here := ran _ (Nat.le_max_left enough enoughToo)
  have there := ranToo _ (Nat.le_max_right enough enoughToo)
  exact Prod.mk.inj (here.symm.trans there)

end Machine

end Scriptlet
