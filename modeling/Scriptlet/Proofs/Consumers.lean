import Scriptlet.Proofs.Locality

/-! What consumes operands is given no variable that is still to be looked up. Evaluation is said
once more, over any operators, conditions and printing; and as long as no variable stands for
another one, what these would do with a variable makes no difference. -/

namespace Scriptlet

/-! ## Evaluation over any consumers -/

/-- What operands are given to once they have been looked up. -/
structure Consumers where
  combine : BinaryOperator → Value → Value → Position → Evaluate Value
  transform : UnaryOperator → Value → Position → Evaluate Value
  truth : Control → Position → Value → Evaluate Bool
  printLine : Value → Evaluate Unit

/-- The consumers of the language. -/
def Consumers.standard : Consumers where
  combine := Evaluate.combine
  transform := Evaluate.transform
  truth := Evaluate.truth
  printLine := Evaluate.printLine

namespace Consumers

/-- The truth value of a condition, as the given consumers have it. -/
def condition (consumers : Consumers) (control : Control) (keyword position : Position)
    (step : Evaluate (Option Value)) : Evaluate Bool := do
  consumers.truth control keyword (← Evaluate.operand position step)

/-- What a command does to its operand, with the printing of the given consumers. -/
def command (consumers : Consumers) (command : Command) (operandPosition position : Position)
    (step : Evaluate (Option Value)) : Evaluate (Option Value) :=
  match command with
  | .print => do
    consumers.printLine (← Evaluate.operand operandPosition step)
    return none
  | .input => do
    consumers.printLine (← Evaluate.operand operandPosition step)
    Evaluate.flush
    return some (← Evaluate.inputLine)
  | .delete => do
    let target ← Evaluate.required operandPosition step
    Evaluate.forget (← Evaluate.targetName target (.command .delete) position)
    return none

end Consumers

mutual

/-- Evaluates a tree over the given consumers. -/
def evaluateWith (consumers : Consumers) (fuel : Nat) : Tree → Evaluate (Option Value)
  | .integer text position => evaluate fuel (.integer text position)
  | .decimal text position => evaluate fuel (.decimal text position)
  | .string handle position => evaluate fuel (.string handle position)
  | .boolean value position => evaluate fuel (.boolean value position)
  | .identifier handle position => evaluate fuel (.identifier handle position)
  | .binary operator left right position => do
    let first ← Evaluate.operand left.position (evaluateWith consumers fuel left)
    let second ← Evaluate.operand right.position (evaluateWith consumers fuel right)
    return some (← consumers.combine operator first second position)
  | .unary operator operand position => do
    let value ← Evaluate.operand operand.position (evaluateWith consumers fuel operand)
    return some (← consumers.transform operator value position)
  | .assign target value position => do
    let slot ← Evaluate.required target.position (evaluateWith consumers fuel target)
    let bound ← Evaluate.operand value.position (evaluateWith consumers fuel value)
    Evaluate.assign (← Evaluate.targetName slot .assign position) bound
    return none
  | .command command operand position =>
    consumers.command command operand.position position (evaluateWith consumers fuel operand)
  | .control .conditional condition body position => do
    let holds ← consumers.condition .conditional position condition.position
      (evaluateWith consumers fuel condition)
    if holds then evaluateAllWith consumers fuel body
    return none
  | .control .loop condition body position => do
    Evaluate.loop
      (consumers.condition .loop position condition.position
        (evaluateWith consumers fuel condition))
      (evaluateAllWith consumers fuel body) fuel
    return none

def evaluateAllWith (consumers : Consumers) (fuel : Nat) : List Tree → Evaluate Unit
  | [] => return ()
  | statement :: later => do
    let _ ← evaluateWith consumers fuel statement
    evaluateAllWith consumers fuel later

end

theorem evaluateAllWith_eq {consumers : Consumers} {fuel : Nat} {body : List Tree}
    (each : ∀ statement ∈ body, evaluateWith consumers fuel statement = evaluate fuel statement) :
    evaluateAllWith consumers fuel body = evaluateAll fuel body := by
  induction body with
  | nil => rw [evaluateAllWith, evaluateAll]
  | cons statement later induction =>
      rw [List.forall_mem_cons] at each
      rw [evaluateAllWith, evaluateAll, each.1, induction each.2]

/-- Over the consumers of the language this is what evaluation is. -/
theorem evaluateWith_standard (fuel : Nat) (tree : Tree) :
    evaluateWith .standard fuel tree = evaluate fuel tree := by
  induction tree using Tree.induction with
  | integer | decimal | string | boolean | identifier => rw [evaluateWith]
  | binary operator left right position leftInduction rightInduction =>
      rw [evaluateWith, evaluate, leftInduction, rightInduction]
      rfl
  | unary operator operand position induction =>
      rw [evaluateWith, evaluate, induction]
      rfl
  | assign target value position targetInduction valueInduction =>
      rw [evaluateWith, evaluate, targetInduction, valueInduction]
  | command keyword operand position induction =>
      rw [evaluateWith, evaluate, induction]
      rfl
  | control keyword condition body position conditionInduction bodyInduction =>
      have same := evaluateAllWith_eq bodyInduction
      cases keyword <;> rw [evaluateWith, evaluate, conditionInduction, same] <;> rfl

/-- Consumers that do with every value what those of the language do. What they do with a variable
that has not been looked up is left open. -/
structure Consumers.Faithful (consumers : Consumers) : Prop where
  combine : ∀ operator left right position, left.type ≠ .identifier → right.type ≠ .identifier →
    consumers.combine operator left right position = Evaluate.combine operator left right position
  transform : ∀ operator operand position, operand.type ≠ .identifier →
    consumers.transform operator operand position = Evaluate.transform operator operand position
  truth : ∀ control keyword value, value.type ≠ .identifier →
    consumers.truth control keyword value = Evaluate.truth control keyword value
  printLine : ∀ value, value.type ≠ .identifier →
    consumers.printLine value = Evaluate.printLine value

/-- The consumers of the language, except that they stop at a variable that has not been looked
up. -/
def Consumers.wary (stop : Stop) : Consumers where
  combine operator left right position :=
    if left.type = .identifier ∨ right.type = .identifier then throw stop
    else Evaluate.combine operator left right position
  transform operator operand position :=
    if operand.type = .identifier then throw stop else Evaluate.transform operator operand position
  truth control keyword value :=
    if value.type = .identifier then throw stop else Evaluate.truth control keyword value
  printLine value := if value.type = .identifier then throw stop else Evaluate.printLine value

theorem Consumers.faithful_wary (stop : Stop) : (wary stop).Faithful where
  combine := fun _ _ _ _ first second => if_neg (not_or.mpr ⟨first, second⟩)
  transform := fun _ _ _ settled => if_neg settled
  truth := fun _ _ _ settled => if_neg settled
  printLine := fun _ settled => if_neg settled

/-! ## Settled machines -/

/-- No variable stands for another one. -/
def Machine.Settled (machine : Machine) : Prop :=
  ∀ name value, machine.environment.get? name = some value → value.type ≠ .identifier

namespace Evaluate

/-- Two actions that do the same on settled machines and leave settled machines. -/
def together : Comparison Machine Stop where
  State here there := here = there ∧ here.Settled
  Later _ _ := True
  Failure := Eq
  refl _ := trivial
  trans _ _ := trivial

section

variable {left right : Machine}

/-! ## Single actions -/

theorem Ignores.together {step : Evaluate α} (ignores : Ignores step) :
    together.Agree left right (fun _ _ => Eq) step step := by
  rintro here _ _ _ ⟨rfl, settled⟩
  have after : (step.run here).2.Settled := by
    rw [Machine.Settled, ignores.environment here]
    exact settled
  generalize step.run here = ending at after ⊢
  rcases ending with ⟨stop | value, final⟩
  · exact .error trivial trivial ⟨rfl, after⟩ rfl
  · exact .ok trivial trivial ⟨rfl, after⟩ rfl

theorem Ignores.targetName (target : Value) (beside : Kind) (position : Position) :
    Ignores (targetName target beside position) := by
  cases target with
  | identifier handle => exact ⟨fun _ _ => rfl, fun _ => rfl⟩
  | integer | decimal | string | boolean => exact fail _ position

theorem Ignores.truth (control : Control) (keyword : Position) (value : Value) :
    Ignores (truth control keyword value) := by
  cases value with
  | boolean holds => exact pure holds
  | integer | decimal | string | identifier => exact fail _ keyword

theorem Ignores.inputLine : Ignores inputLine :=
  (onConsole Console.takeLine).bind fun _ => ⟨fun _ _ => rfl, fun _ => rfl⟩

/-- A variable may get a settled value or lose its value. -/
theorem together_change {name : String} {change : Environment → Environment} {bound : Option Value}
    (changed : ∀ environment other, (change environment).get? other =
      if other = name then bound else environment.get? other)
    (settled : ∀ value ∈ bound, value.type ≠ .identifier) :
    together.Agree left right (fun _ _ => Eq)
      (modify fun machine => { machine with environment := change machine.environment } :
        Evaluate Unit)
      (modify fun machine => { machine with environment := change machine.environment } :
        Evaluate Unit) := by
  apply Comparison.Agree.modifyGet
  rintro here _ _ _ ⟨rfl, others⟩
  refine ⟨trivial, trivial, ⟨rfl, ?_⟩, rfl⟩
  intro other value found
  rw [changed] at found
  split at found
  · exact settled value found
  · exact others other value found

/-! ## Operands -/

/-- The same value on both sides, and no variable that is still to be looked up. -/
abbrev Resolved (_ _ : Machine) (one other : Value) : Prop :=
  one = other ∧ one.type ≠ .identifier

theorem together_lookUp (value : Value) (position : Position) :
    together.Agree left right Resolved (lookUp value position) (lookUp value position) := by
  cases value with
  | identifier handle =>
      apply Comparison.Agree.bind Comparison.Agree.get
      rintro _ _ here _ _ _ ⟨rfl, rfl, rfl, settled⟩
      cases found : here.environment.get? (here.symbols.nameAt handle) with
      | none =>
          simp only [found]
          exact .throw rfl
      | some bound =>
          simp only [found]
          exact .pure fun _ _ _ _ => ⟨rfl, settled _ _ found⟩
  | integer | decimal | string | boolean => exact .pure fun _ _ _ _ => ⟨rfl, ValueType.noConfusion⟩

variable {step stepToo : Evaluate (Option Value)}

theorem together_required (agree : together.Agree left right (fun _ _ => Eq) step stepToo)
    (position : Position) :
    together.Agree left right (fun _ _ => Eq) (required position step)
      (required position stepToo) := by
  apply Comparison.Agree.bind agree
  rintro here there yielded _ _ _ rfl
  cases yielded with
  | none => exact .throw rfl
  | some value => exact .pure fun _ _ _ _ => rfl

theorem together_operand (agree : together.Agree left right (fun _ _ => Eq) step stepToo)
    (position : Position) :
    together.Agree left right Resolved (operand position step) (operand position stepToo) := by
  apply Comparison.Agree.bind (together_required agree position)
  rintro here there value _ _ _ rfl
  exact together_lookUp value position

/-! ## Trees -/

variable {consumers : Consumers}

theorem together_evaluateAllWith (fuel : Nat) {body : List Tree}
    (each : ∀ statement ∈ body, ∀ left right, together.Agree left right (fun _ _ => Eq)
      (evaluateWith consumers fuel statement) (evaluate fuel statement)) :
    together.Agree left right (fun _ _ => Eq) (evaluateAllWith consumers fuel body)
      (evaluateAll fuel body) := by
  induction body generalizing left right with
  | nil =>
      rw [evaluateAllWith, evaluateAll]
      exact (Ignores.pure _).together
  | cons statement later induction =>
      rw [List.forall_mem_cons] at each
      rw [evaluateAllWith, evaluateAll]
      apply Comparison.Agree.bind (each.1 left right)
      intro _ _ _ _ _ _ _
      exact induction each.2

variable (faithful : consumers.Faithful)

include faithful

theorem together_condition (agree : together.Agree left right (fun _ _ => Eq) step stepToo)
    (control : Control) (keyword position : Position) :
    together.Agree left right (fun _ _ => Eq) (consumers.condition control keyword position step)
      (condition control keyword position stepToo) := by
  apply Comparison.Agree.bind (together_operand agree position)
  rintro _ _ value _ _ _ ⟨rfl, settled⟩
  rw [faithful.truth control keyword value settled]
  exact (Ignores.truth control keyword value).together

theorem together_command (agree : together.Agree left right (fun _ _ => Eq) step stepToo)
    (keyword : Command) (operandPosition position : Position) :
    together.Agree left right (fun _ _ => Eq)
      (consumers.command keyword operandPosition position step)
      (command keyword operandPosition position stepToo) := by
  cases keyword with
  | print =>
      apply Comparison.Agree.bind (together_operand agree operandPosition)
      rintro _ _ value _ _ _ ⟨rfl, settled⟩
      rw [faithful.printLine value settled]
      exact ((Ignores.printLine value).bind fun _ => .pure _).together
  | input =>
      apply Comparison.Agree.bind (together_operand agree operandPosition)
      rintro _ _ value _ _ _ ⟨rfl, settled⟩
      rw [faithful.printLine value settled]
      have asks : Ignores (flush >>= fun _ => inputLine >>= fun line => pure (some line)) :=
        (Ignores.onConsole _).bind fun _ => Ignores.inputLine.bind fun _ => .pure _
      exact ((Ignores.printLine value).bind fun _ => asks).together
  | delete =>
      apply Comparison.Agree.bind (together_required agree operandPosition)
      rintro _ _ target _ _ _ rfl
      apply Comparison.Agree.bind (Ignores.targetName target _ position).together
      rintro _ _ name _ _ _ rfl
      apply Comparison.Agree.bind (together_change
        (fun environment => environment.get?_erase name) (by simp))
      intro _ _ _ _ _ _ _
      exact (Ignores.pure _).together

theorem together_evaluateWith (fuel : Nat) (tree : Tree) :
    together.Agree left right (fun _ _ => Eq) (evaluateWith consumers fuel tree)
      (evaluate fuel tree) := by
  induction tree using Tree.induction generalizing left right with
  | integer text position =>
      rw [evaluateWith, evaluate]
      exact ((Ignores.ofExcept position _).bind fun _ => .pure _).together
  | decimal text position =>
      rw [evaluateWith, evaluate]
      exact ((Ignores.ofExcept position _).bind fun _ => .pure _).together
  | string | boolean | identifier =>
      rw [evaluateWith, evaluate]
      exact (Ignores.pure _).together
  | binary operator one other position oneInduction otherInduction =>
      rw [evaluateWith, evaluate]
      apply Comparison.Agree.bind (together_operand oneInduction one.position)
      rintro _ _ first _ _ _ ⟨rfl, firstSettled⟩
      apply Comparison.Agree.bind (together_operand otherInduction other.position)
      rintro _ _ second _ _ _ ⟨rfl, secondSettled⟩
      rw [faithful.combine operator first second position firstSettled secondSettled]
      exact ((Ignores.combine operator first second position).bind fun _ => .pure _).together
  | unary operator operand position induction =>
      rw [evaluateWith, evaluate]
      apply Comparison.Agree.bind (together_operand induction operand.position)
      rintro _ _ value _ _ _ ⟨rfl, settled⟩
      rw [faithful.transform operator value position settled]
      exact ((Ignores.ofExcept position _).bind fun _ => .pure _).together
  | assign target value position targetInduction valueInduction =>
      rw [evaluateWith, evaluate]
      apply Comparison.Agree.bind (together_required targetInduction target.position)
      rintro _ _ slot _ _ _ rfl
      apply Comparison.Agree.bind (together_operand valueInduction value.position)
      rintro _ _ bound _ _ _ ⟨rfl, settled⟩
      apply Comparison.Agree.bind (Ignores.targetName slot _ position).together
      rintro _ _ name _ _ _ rfl
      apply Comparison.Agree.bind (together_change
        (fun environment other => environment.get?_insert name other bound)
        (by simpa using settled))
      intro _ _ _ _ _ _ _
      exact (Ignores.pure _).together
  | command keyword operand position induction =>
      rw [evaluateWith, evaluate]
      exact together_command faithful induction keyword operand.position position
  | control keyword condition body position conditionInduction bodyInduction =>
      have test := together_condition faithful (@conditionInduction left right) keyword position
        condition.position
      have pass {left right : Machine} : together.Agree left right (fun _ _ => Eq)
          (evaluateAllWith consumers fuel body) (evaluateAll fuel body) :=
        together_evaluateAllWith fuel fun statement member _ _ => bodyInduction statement member
      cases keyword with
      | conditional =>
          rw [evaluateWith, evaluate]
          apply Comparison.Agree.bind test
          rintro _ _ holds _ _ _ rfl
          cases holds with
          | false => exact (Ignores.pure _).together
          | true =>
              apply Comparison.Agree.bind pass
              intro _ _ _ _ _ _ _
              exact (Ignores.pure _).together
      | loop =>
          rw [evaluateWith, evaluate]
          have repeats := agree_loop rfl test (pass.imp fun _ _ _ _ _ => trivial) fuel
          apply Comparison.Agree.bind repeats
          intro _ _ _ _ _ _ _
          exact (Ignores.pure _).together

end

end Evaluate

/-- No consumer is given a variable that is still to be looked up: whatever it would do with one,
evaluation goes as it does over the consumers of the language. -/
theorem Consumers.Faithful.run_evaluateWith {consumers : Consumers} (faithful : consumers.Faithful)
    {machine : Machine} (settled : machine.Settled) (fuel : Nat) (tree : Tree) :
    (evaluateWith consumers fuel tree).run machine = (evaluate fuel tree).run machine := by
  have ended := @Evaluate.together_evaluateWith machine machine consumers faithful fuel tree
    machine machine trivial trivial ⟨rfl, settled⟩
  generalize (evaluateWith consumers fuel tree).run machine = one at ended ⊢
  generalize (evaluate fuel tree).run machine = other at ended ⊢
  cases ended with
  | ok _ _ same value => rw [value, same.1]
  | error _ _ same failed => rw [failed, same.1]

end Scriptlet
