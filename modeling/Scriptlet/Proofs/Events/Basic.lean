import Scriptlet.Proofs.Locality

/-! What a program does as it runs, action by action.

An evaluation is a sequence of single actions on the machine. Most of them cannot be seen from
outside. Those that can are events: a line is shown, or a line is received. -/

namespace Scriptlet

inductive Event where
  | shown (text : String)
  | received (text : String)
deriving DecidableEq, Repr

/-- The texts that were shown, in order. -/
def shownBy (events : List Event) : List String :=
  events.filterMap fun
    | .shown text => some text
    | .received _ => none

/-- The lines that were received, in order. -/
def receivedBy (events : List Event) : List String :=
  events.filterMap fun
    | .shown _ => none
    | .received text => some text

theorem shownBy_append (first second : List Event) :
    shownBy (first ++ second) = shownBy first ++ shownBy second :=
  List.filterMap_append

theorem receivedBy_append (first second : List Event) :
    receivedBy (first ++ second) = receivedBy first ++ receivedBy second :=
  List.filterMap_append

/-! ## Single actions -/

namespace Machine

/-- What a single action of an evaluation can make of a machine, and what is seen of it. A line that
cannot be written as a whole or cannot be read as text is no event. -/
inductive Step : Machine → List Event → Machine → Prop where
  | bound (machine : Machine) (environment : Environment) :
      Step machine [] { machine with environment }
  | joined (machine : Machine) (first second : StringHandle) :
      Step machine [] { machine with
        symbols := (machine.symbols.enterString
          (machine.symbols.stringAt first ++ machine.symbols.stringAt second)).2 }
  | shown {machine : Machine} {value : Value} {console : Console}
      (wrote : machine.console.putLine (value.text machine.symbols) = (.ok (), console)) :
      Step machine [.shown (value.text machine.symbols)] { machine with console }
  | cut {machine : Machine} {value : Value} {failure : Console.Failure} {console : Console}
      (wrote : machine.console.putLine (value.text machine.symbols) = (.error failure, console)) :
      Step machine [] { machine with console }
  | received {machine : Machine} {line : String} {console : Console}
      (took : machine.console.takeLine = (.ok line, console)) :
      Step machine [.received line] { machine with
        console, symbols := (machine.symbols.enterString line).2 }
  | spoiled {machine : Machine} {failure : Console.Failure} {console : Console}
      (took : machine.console.takeLine = (.error failure, console)) :
      Step machine [] { machine with console }

/-- What actions one after the other make of a machine, and all that is seen of them. -/
inductive Steps : Machine → List Event → Machine → Prop where
  | refl (machine : Machine) : Steps machine [] machine
  | cons {machine middle after : Machine} {events later : List Event}
      (first : machine.Step events middle) (rest : Steps middle later after) :
      Steps machine (events ++ later) after

namespace Steps

variable {machine middle after : Machine} {events later : List Event}

theorem single (step : machine.Step events after) : machine.Steps events after := by
  rw [← List.append_nil events]
  exact .cons step (.refl after)

theorem trans (first : machine.Steps events middle) (second : middle.Steps later after) :
    machine.Steps (events ++ later) after := by
  induction first with
  | refl => exact second
  | cons step _ induction =>
      rw [List.append_assoc]
      exact .cons step (induction second)

/-- What every action keeps is kept by all of them together. -/
theorem invariant {holds : Machine → List Event → Prop} {before : List Event}
    (steps : machine.Steps events after)
    (each : ∀ here there past seen, here.Step seen there → holds here past →
      holds there (past ++ seen))
    (start : holds machine before) : holds after (before ++ events) := by
  induction steps generalizing before with
  | refl =>
      rw [List.append_nil]
      exact start
  | cons step _ induction =>
      rw [← List.append_assoc]
      exact induction (each _ _ _ _ step start)

end Steps

end Machine

/-! ## What is seen of an evaluation -/

/-- What is seen, depending on the machine that it starts from. -/
abbrev Sight := Machine → List Event

namespace Evaluate

/-- What is seen after a step, if it comes through. -/
def followedBy (step : Evaluate α) (next : α → Sight) (machine : Machine) : List Event :=
  match step.run machine with
  | (.ok value, after) => next value after
  | (.error _, _) => []

theorem followedBy_pure (value : α) (next : α → Sight) :
    (pure value : Evaluate α).followedBy next = next value := rfl

theorem followedBy_bind (step : Evaluate α) (next : α → Evaluate β) (later : β → Sight) :
    (step >>= next).followedBy later =
      step.followedBy fun value => (next value).followedBy later := by
  funext machine
  rw [followedBy, followedBy, Comparison.run_bind]
  rcases step.run machine with ⟨_ | _, _⟩ <;> rfl

theorem followedBy_append (step : Evaluate α) (first second : α → Sight) (machine : Machine) :
    step.followedBy first machine ++ step.followedBy second machine =
      step.followedBy (fun value after => first value after ++ second value after) machine := by
  rw [followedBy, followedBy, followedBy]
  rcases step.run machine with ⟨_ | _, _⟩ <;> rfl

/-- A value is shown as its text, if that can be written. -/
def showing (value : Value) : Sight := fun machine =>
  (printLine value).followedBy (fun _ _ => [.shown (value.text machine.symbols)]) machine

/-- What is received is the text that comes of it. -/
def receiving (yielded : Option Value) : Sight := fun machine =>
  yielded.toList.map fun value => .received (value.text machine.symbols)

/-- What is seen of a loop: of each test of its condition, and of each pass. -/
def looping (holds : Evaluate Bool) (body : Evaluate Unit) (test pass : Sight) : Nat → Sight
  | 0, _ => []
  | fuel + 1, machine =>
    test machine ++ holds.followedBy (fun continues after =>
      if continues then
        pass after ++ body.followedBy (fun _ => looping holds body test pass fuel) after
      else []) machine

end Evaluate

mutual

/-- What is seen of the evaluation of a tree. Operands come before what is done with them; a
`print` shows its operand, and an `input` shows its prompt and then receives what it yields. -/
def seen (fuel : Nat) : Tree → Sight
  | .integer _ _ | .decimal _ _ | .string _ _ | .boolean _ _ | .identifier _ _ => fun _ => []
  | .binary _ left right _ => fun machine =>
    seen fuel left machine ++
      (evaluateToOperand fuel left).followedBy (fun _ => seen fuel right) machine
  | .unary _ operand _ => seen fuel operand
  | .assign target value _ => fun machine =>
    seen fuel target machine ++
      (evaluateToValue fuel target).followedBy (fun _ => seen fuel value) machine
  | .command .print operand _ => fun machine =>
    seen fuel operand machine ++
      (evaluateToOperand fuel operand).followedBy Evaluate.showing machine
  | .command .input operand position => fun machine =>
    seen fuel operand machine ++
      (evaluateToOperand fuel operand).followedBy Evaluate.showing machine ++
      (evaluate fuel (.command .input operand position)).followedBy Evaluate.receiving machine
  | .command .delete operand _ => seen fuel operand
  | .control .conditional condition body position => fun machine =>
    seen fuel condition machine ++
      (Evaluate.condition .conditional position condition.position
        (evaluate fuel condition)).followedBy
        (fun holds after => if holds then seenAll fuel body after else []) machine
  | .control .loop condition body position =>
    Evaluate.looping
      (Evaluate.condition .loop position condition.position (evaluate fuel condition))
      (evaluateAll fuel body) (seen fuel condition) (seenAll fuel body) fuel

/-- What is seen of statements in order, up to the first that stops. -/
def seenAll (fuel : Nat) : List Tree → Sight
  | [] => fun _ => []
  | statement :: later => fun machine =>
    seen fuel statement machine ++
      (evaluate fuel statement).followedBy (fun _ => seenAll fuel later) machine

end

/-! ## Evaluations are made of actions -/

/-- An action is made of single actions, of which exactly the events are seen. -/
def Accounts (step : Evaluate α) (events : Sight) : Prop :=
  ∀ machine : Machine, machine.Steps (events machine) (step.run machine).2

/-- An action of which nothing is seen. -/
abbrev Quiet (step : Evaluate α) : Prop :=
  Accounts step fun _ => []

namespace Accounts

theorem pure (value : α) : Quiet (pure value : Evaluate α) :=
  fun machine => .refl machine

theorem throw (stop : Stop) : Quiet (throw stop : Evaluate α) :=
  fun machine => .refl machine

theorem fail (cause : EvalError.Cause) (position : Position) :
    Quiet (Evaluate.fail cause position : Evaluate α) :=
  throw _

theorem bind {step : Evaluate α} {next : α → Evaluate β} {events : Sight} {later : α → Sight}
    (first : Accounts step events) (following : ∀ value, Accounts (next value) (later value)) :
    Accounts (step >>= next) fun machine => events machine ++ step.followedBy later machine := by
  intro machine
  have start := first machine
  dsimp only
  rw [Comparison.run_bind, Evaluate.followedBy]
  generalize step.run machine = ending at start ⊢
  rcases ending with ⟨_ | value, middle⟩
  · rw [List.append_nil]
    exact start
  · exact start.trans (following value middle)

/-- What is done quietly with an outcome is not seen. -/
theorem andThen {step : Evaluate α} {next : α → Evaluate β} {events : Sight}
    (first : Accounts step events) (quiet : ∀ value, Quiet (next value)) :
    Accounts (step >>= next) events := by
  have both := first.bind quiet
  have none (machine : Machine) : step.followedBy (fun _ _ => []) machine = [] := by
    rw [Evaluate.followedBy]
    split <;> rfl
  simpa only [none, List.append_nil] using both

/-- Nor is what is done quietly beforehand. -/
theorem quietly {step : Evaluate α} {next : α → Evaluate β} {later : α → Sight}
    (quiet : Quiet step) (following : ∀ value, Accounts (next value) (later value)) :
    Accounts (step >>= next) (step.followedBy later) := by
  simpa only [List.nil_append] using quiet.bind following

theorem ofExcept (position : Position) (outcome : Except EvalError.Cause α) :
    Quiet (Evaluate.ofExcept position outcome) := by
  cases outcome with
  | ok value => exact pure value
  | error cause => exact fail cause position

end Accounts

/-! ### Single actions -/

/-- What is looked up of a name. -/
theorem Evaluate.run_lookUp (handle : NameHandle) (position : Position) (machine : Machine) :
    (lookUp (.identifier handle) position).run machine =
      (match machine.environment.get? (machine.symbols.nameAt handle) with
        | some bound => pure bound
        | none => fail (.unboundIdentifier (machine.symbols.nameAt handle)) position :
          Evaluate Value).run machine := rfl

namespace Accounts

theorem lookUp (value : Value) (position : Position) :
    Quiet (Evaluate.lookUp value position) := by
  cases value with
  | identifier handle =>
      intro machine
      rw [Evaluate.run_lookUp]
      cases machine.environment.get? (machine.symbols.nameAt handle) with
      | none => exact fail _ position machine
      | some bound => exact pure bound machine
  | integer | decimal | string | boolean => exact pure _

theorem transform (operator : UnaryOperator) (operand : Value) (position : Position) :
    Quiet (Evaluate.transform operator operand position) :=
  ofExcept position _

end Accounts

/-- An operator leaves the tables alone, or joins two strings. -/
theorem Value.combine_symbols (operator : BinaryOperator) (left right : Value)
    (symbols : Symbols) :
    (combine operator left right symbols).2 = symbols ∨
      ∃ first second, (combine operator left right symbols).2 =
        (symbols.enterString (symbols.stringAt first ++ symbols.stringAt second)).2 := by
  cases left with
  | string first =>
      cases right with
      | string second =>
          cases operator with
          | add => exact .inr ⟨first, second, rfl⟩
          | _ => exact .inl rfl
      | integer | decimal | boolean | identifier => exact .inl rfl
  | boolean | integer | decimal | identifier => cases right <;> exact .inl rfl

namespace Accounts

theorem combine (operator : BinaryOperator) (left right : Value) (position : Position) :
    Quiet (Evaluate.combine operator left right position) := by
  refine andThen (fun machine => ?_) fun outcome => ofExcept position outcome
  change machine.Steps [] { machine with
    symbols := (Value.combine operator left right machine.symbols).2 }
  rcases Value.combine_symbols operator left right machine.symbols with
    same | ⟨first, second, joined⟩
  · rw [same]
    exact .refl machine
  · rw [joined]
    exact .single (.joined machine first second)

theorem targetName (target : Value) (beside : Kind) (position : Position) :
    Quiet (Evaluate.targetName target beside position) := by
  cases target with
  | identifier handle => exact fun machine => .refl machine
  | integer | decimal | string | boolean => exact fail _ position

theorem assign (name : String) (value : Value) : Quiet (Evaluate.assign name value) :=
  fun machine => .single (.bound machine _)

theorem forget (name : String) : Quiet (Evaluate.forget name) :=
  fun machine => .single (.bound machine _)

end Accounts

/-! ### The console -/

namespace Evaluate

/-- What an action on the console comes to. -/
theorem run_onConsole (action : Console → Except Console.Failure α × Console)
    (machine : Machine) :
    (onConsole action).run machine =
      match action machine.console with
      | (.ok value, console) => (.ok value, { machine with console })
      | (.error failure, console) => (.error (.error (.console failure)), { machine with console })
    := by
  have acts : (modifyGet fun before : Machine => ((action before.console).1,
      { before with console := (action before.console).2 }) : Evaluate _).run machine =
      (.ok (action machine.console).1,
        { machine with console := (action machine.console).2 }) := rfl
  rw [onConsole, Comparison.run_bind, acts]
  rcases action machine.console with ⟨_ | _, _⟩ <;> rfl

theorem run_printLine (value : Value) (machine : Machine) :
    (printLine value).run machine =
      (onConsole (·.putLine (value.text machine.symbols))).run machine := rfl

theorem run_inputLine (machine : Machine) :
    inputLine.run machine =
      match machine.console.takeLine with
      | (.ok line, console) =>
        (.ok (.string (machine.symbols.enterString line).1),
          { machine with console, symbols := (machine.symbols.enterString line).2 })
      | (.error failure, console) =>
        (.error (.error (.console failure)), { machine with console }) := by
  rw [inputLine, Comparison.run_bind, run_onConsole]
  rcases machine.console.takeLine with ⟨_ | _, _⟩ <;> rfl

end Evaluate

namespace Accounts

theorem printLine (value : Value) :
    Accounts (Evaluate.printLine value) (Evaluate.showing value) := by
  intro machine
  rw [Evaluate.showing, Evaluate.followedBy, Evaluate.run_printLine, Evaluate.run_onConsole]
  rcases wrote : machine.console.putLine (value.text machine.symbols) with ⟨_ | _, console⟩
  · exact .single (.cut wrote)
  · exact .single (.shown wrote)

theorem flush : Quiet Evaluate.flush := by
  intro machine
  rw [Evaluate.run_flush]
  exact .refl machine

theorem inputLine :
    Accounts Evaluate.inputLine
      (Evaluate.inputLine.followedBy fun value => Evaluate.receiving (some value)) := by
  intro machine
  rw [Evaluate.followedBy, Evaluate.run_inputLine]
  rcases took : machine.console.takeLine with ⟨_ | line, console⟩
  · exact .single (.spoiled took)
  · have text := Symbols.stringAt_enterString (.refl (machine.symbols.enterString line).2)
    dsimp only [Evaluate.receiving, Option.toList, List.map, Value.text]
    rw [text]
    exact .single (.received took)

end Accounts

/-! ### Trees -/

namespace Accounts

section

variable {step : Evaluate (Option Value)} {events : Sight} (accounts : Accounts step events)

include accounts

theorem required (position : Position) : Accounts (Evaluate.required position step) events := by
  apply accounts.andThen
  intro yielded
  cases yielded with
  | none => exact fail _ position
  | some value => exact pure value

theorem operand (position : Position) : Accounts (Evaluate.operand position step) events :=
  (accounts.required position).andThen fun value => lookUp value position

theorem condition (control : Control) (keyword position : Position) :
    Accounts (Evaluate.condition control keyword position step) events := by
  apply (accounts.operand position).andThen
  intro value
  cases value with
  | boolean holds => exact pure holds
  | integer | decimal | string | identifier => exact fail _ keyword

theorem print (operandPosition position : Position) :
    Accounts (Evaluate.command .print operandPosition position step) fun machine =>
      events machine ++
        (Evaluate.operand operandPosition step).followedBy Evaluate.showing machine :=
  (accounts.operand operandPosition).bind fun value =>
    (printLine value).andThen fun _ => pure none

/-- What an `input` yields is what it receives. -/
theorem input (operandPosition position : Position) :
    Accounts (Evaluate.command .input operandPosition position step) fun machine =>
      events machine ++
        (Evaluate.operand operandPosition step).followedBy Evaluate.showing machine ++
        (Evaluate.command .input operandPosition position step).followedBy Evaluate.receiving
          machine := by
  have reads : Accounts (Evaluate.flush >>= fun _ => Evaluate.inputLine >>= fun line =>
      Pure.pure (some line)) (Evaluate.flush.followedBy fun _ =>
        Evaluate.inputLine.followedBy fun value => Evaluate.receiving (some value)) :=
    flush.quietly fun _ => inputLine.andThen fun line => pure (some line)
  have whole := (accounts.operand operandPosition).bind fun value =>
    (printLine value).bind fun _ => reads
  have yields : (Evaluate.command .input operandPosition position step).followedBy
      Evaluate.receiving = (Evaluate.operand operandPosition step).followedBy fun value =>
        (Evaluate.printLine value).followedBy fun _ => Evaluate.flush.followedBy fun _ =>
          Evaluate.inputLine.followedBy fun value => Evaluate.receiving (some value) := by
    rw [Evaluate.command]
    simp only [Evaluate.followedBy_bind, Evaluate.followedBy_pure]
  simp only [yields, List.append_assoc, Evaluate.followedBy_append]
  exact whole

theorem delete (operandPosition position : Position) :
    Accounts (Evaluate.command .delete operandPosition position step) events :=
  (accounts.required operandPosition).andThen fun target =>
    (targetName target _ position).andThen fun name => (forget name).andThen fun _ => pure none

end

theorem looping {holds : Evaluate Bool} {body : Evaluate Unit} {test pass : Sight}
    (tests : Accounts holds test) (passes : Accounts body pass) (fuel : Nat) :
    @Accounts Unit (Evaluate.loop holds body fuel)
      (Evaluate.looping holds body test pass fuel) := by
  induction fuel with
  | zero => exact fun machine => .refl machine
  | succ fuel induction =>
      rw [Evaluate.loop_succ]
      apply tests.bind
      intro continues
      cases continues with
      | false => exact pure ()
      | true => exact passes.bind fun _ => induction

end Accounts

theorem accounts_evaluateAll {fuel : Nat} {body : List Tree}
    (each : ∀ statement ∈ body, Accounts (evaluate fuel statement) (seen fuel statement)) :
    Accounts (evaluateAll fuel body) (seenAll fuel body) := by
  induction body with
  | nil =>
      rw [evaluateAll, seenAll]
      exact .pure ()
  | cons statement later induction =>
      rw [evaluateAll, seenAll]
      apply (each statement List.mem_cons_self).bind
      intro _
      exact induction fun statement member => each statement (List.mem_cons_of_mem _ member)

/-- An evaluation is made of single actions, and what is seen of them is what is seen of the
tree. -/
theorem accounts_evaluate (fuel : Nat) (tree : Tree) :
    Accounts (evaluate fuel tree) (seen fuel tree) := by
  induction tree using Tree.induction with
  | integer | decimal =>
      rw [evaluate, seen]
      exact (Accounts.ofExcept _ _).andThen fun value => .pure _
  | string | boolean | identifier =>
      rw [evaluate, seen]
      exact .pure _
  | binary operator left right position leftInduction rightInduction =>
      rw [evaluate, seen]
      apply (leftInduction.operand left.position).bind
      intro first
      apply (rightInduction.operand right.position).andThen
      intro second
      exact (Accounts.combine operator first second position).andThen fun value => .pure _
  | unary operator operand position induction =>
      rw [evaluate, seen]
      apply (induction.operand operand.position).andThen
      intro value
      exact (Accounts.transform operator value position).andThen fun value => .pure _
  | assign target value position targetInduction valueInduction =>
      rw [evaluate, seen]
      apply (targetInduction.required target.position).bind
      intro slot
      apply (valueInduction.operand value.position).andThen
      intro bound
      exact (Accounts.targetName slot _ position).andThen fun name =>
        (Accounts.assign name bound).andThen fun _ => .pure none
  | command keyword operand position induction =>
      cases keyword with
      | print =>
          rw [evaluate, seen]
          exact induction.print operand.position position
      | input =>
          rw [seen, evaluate]
          exact induction.input operand.position position
      | delete =>
          rw [evaluate, seen]
          exact induction.delete operand.position position
  | control keyword condition body position conditionInduction bodyInduction =>
      have tests := conditionInduction.condition keyword position condition.position
      have passes := accounts_evaluateAll bodyInduction
      cases keyword with
      | conditional =>
          rw [evaluate, seen]
          apply tests.bind
          intro holds
          cases holds with
          | false => exact .pure none
          | true => exact passes.andThen fun _ => .pure none
      | loop =>
          rw [evaluate, seen]
          exact (tests.looping passes fuel).andThen fun _ => .pure none

end Scriptlet
