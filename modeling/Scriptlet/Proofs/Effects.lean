import Scriptlet.Proofs.Diagnostics.Evaluation
import Scriptlet.Proofs.Events.Input

/-! What an evaluation that succeeds leaves as it was. A tree that yields a value has asked for input
at most: nothing in it assigns, deletes or prints, and nothing it does changes a variable. A statement
changes the variable that it names and no other. -/

namespace Scriptlet

/-! ## Actions that succeed -/

/-- The variables are the same, except that the one of the given name may be another. -/
def Environment.SameBut (name : String) (first second : Environment) : Prop :=
  ∀ other, other ≠ name → second.get? other = first.get? other

/-- An action that changes neither the variables nor what was written. -/
structure Machine.Still (before after : Machine) : Prop where
  environment : after.environment = before.environment
  written : after.console.written = before.console.written

namespace Evaluate

section

variable {machine after : Machine}

theorem run_bind_eq_ok {step : Evaluate α} {next : α → Evaluate β} {result : β}
    (ran : (step >>= next).run machine = (.ok result, after)) :
    ∃ value middle, step.run machine = (.ok value, middle) ∧
      (next value).run middle = (.ok result, after) := by
  rw [Comparison.run_bind] at ran
  rcases first : step.run machine with ⟨_ | value, middle⟩
  all_goals rw [first] at ran
  · cases ran
  · exact ⟨value, middle, rfl, ran⟩

theorem run_ofExcept_eq_ok {position : Position} {outcome : Except EvalError.Cause α} {value : α}
    (ran : (ofExcept position outcome).run machine = (.ok value, after)) :
    outcome = .ok value ∧ after = machine := by
  cases outcome with
  | error => cases ran
  | ok => cases ran; exact ⟨rfl, rfl⟩

theorem run_required_eq_ok {position : Position} {step : Evaluate (Option Value)} {value : Value}
    (ran : (required position step).run machine = (.ok value, after)) :
    step.run machine = (.ok (some value), after) := by
  obtain ⟨yielded, middle, first, rest⟩ := run_bind_eq_ok ran
  cases yielded with
  | none => cases rest
  | some => cases rest; exact first

theorem run_lookUp_eq_ok {value bound : Value} {position : Position}
    (ran : (lookUp value position).run machine = (.ok bound, after)) : after = machine := by
  cases value with
  | identifier handle =>
      rw [run_lookUp] at ran
      split at ran
      all_goals cases ran
      rfl
  | integer | decimal | string | boolean => cases ran; rfl

theorem run_operand_eq_ok {position : Position} {step : Evaluate (Option Value)} {value : Value}
    (ran : (operand position step).run machine = (.ok value, after)) :
    ∃ given, step.run machine = (.ok (some given), after) := by
  obtain ⟨given, middle, first, found⟩ := run_bind_eq_ok ran
  cases run_lookUp_eq_ok found
  exact ⟨given, run_required_eq_ok first⟩

theorem run_combine_eq_ok {operator : BinaryOperator} {left right value : Value}
    {position : Position}
    (ran : (combine operator left right position).run machine = (.ok value, after)) :
    value.type ≠ .identifier ∧ machine.Still after := by
  have acts : (combine operator left right position).run machine =
      (ofExcept position (Value.combine operator left right machine.symbols).1).run
        { machine with symbols := (Value.combine operator left right machine.symbols).2 } := rfl
  rw [acts] at ran
  obtain ⟨combined, rfl⟩ := run_ofExcept_eq_ok ran
  have settled := @Value.settled_combine operator (.spelled (.binary operator) position) ⟨rfl, rfl⟩
    left right machine.symbols
  rw [combined] at settled
  exact ⟨settled, rfl, rfl⟩

theorem run_transform_eq_ok {operator : UnaryOperator} {operand value : Value} {position : Position}
    (ran : (transform operator operand position).run machine = (.ok value, after)) :
    value.type ≠ .identifier ∧ after = machine := by
  obtain ⟨transformed, rfl⟩ := run_ofExcept_eq_ok ran
  exact ⟨(Value.plain_transform operator operand value transformed).2, rfl⟩

theorem run_targetName_eq_ok {target : Value} {beside : Kind} {position : Position} {name : String}
    (ran : (targetName target beside position).run machine = (.ok name, after)) :
    ∃ handle, target = .identifier handle ∧ name = machine.symbols.nameAt handle ∧
      after = machine := by
  cases target with
  | identifier handle => cases ran; exact ⟨handle, rfl, rfl, rfl⟩
  | integer | decimal | string | boolean => cases ran

/-- A line that is written without a failure is written as a whole. -/
theorem run_printLine_eq_ok {value : Value} {result : Unit}
    (ran : (printLine value).run machine = (.ok result, after)) :
    after.environment = machine.environment ∧
      after.console.written =
        machine.console.written ++ (value.text machine.symbols ++ "\n").toUTF8 := by
  rw [run_printLine, run_onConsole] at ran
  split at ran
  · rename_i wrote
    cases ran
    rw [Console.putLine, Console.write] at wrote
    split at wrote
    · cases wrote; exact ⟨rfl, rfl⟩
    · split at wrote
      · cases wrote; exact ⟨rfl, rfl⟩
      · cases wrote
  · cases ran

theorem run_inputLine_eq_ok {value : Value}
    (ran : inputLine.run machine = (.ok value, after)) :
    value.type ≠ .identifier ∧ machine.Still after := by
  rw [run_inputLine] at ran
  split at ran
  · rename_i took
    cases ran
    refine ⟨ValueType.noConfusion, rfl, ?_⟩
    dsimp only
    rw [(Console.takeLine_frame took).1]
  · cases ran

end

end Evaluate

/-! ## Trees that succeed -/

section

variable {fuel : Nat} {position : Position} {machine after : Machine} {yielded : Option Value}

theorem evaluateToOperand_eq_ok {tree : Tree} {value : Value}
    (ran : (evaluateToOperand fuel tree).run machine = (.ok value, after)) :
    ∃ given, (evaluate fuel tree).run machine = (.ok (some given), after) :=
  Evaluate.run_operand_eq_ok ran

theorem evaluate_binary_eq_ok {operator : BinaryOperator} {left right : Tree}
    (ran : (evaluate fuel (.binary operator left right position)).run machine =
      (.ok yielded, after)) :
    ∃ first second value middle later,
      (evaluateToOperand fuel left).run machine = (.ok first, middle) ∧
      (evaluateToOperand fuel right).run middle = (.ok second, later) ∧
      yielded = some value ∧ value.type ≠ .identifier ∧ later.Still after := by
  rw [evaluate] at ran
  obtain ⟨first, middle, firstRan, ran⟩ := Evaluate.run_bind_eq_ok ran
  obtain ⟨second, later, secondRan, ran⟩ := Evaluate.run_bind_eq_ok ran
  obtain ⟨value, last, combined, yields⟩ := Evaluate.run_bind_eq_ok ran
  cases yields
  obtain ⟨notName, still⟩ := Evaluate.run_combine_eq_ok combined
  exact ⟨first, second, value, middle, later, firstRan, secondRan, rfl, notName, still⟩

theorem evaluate_unary_eq_ok {operator : UnaryOperator} {operand : Tree}
    (ran : (evaluate fuel (.unary operator operand position)).run machine = (.ok yielded, after)) :
    ∃ given value, (evaluateToOperand fuel operand).run machine = (.ok given, after) ∧
      yielded = some value ∧ value.type ≠ .identifier := by
  rw [evaluate] at ran
  obtain ⟨given, middle, operandRan, ran⟩ := Evaluate.run_bind_eq_ok ran
  obtain ⟨value, last, transformed, yields⟩ := Evaluate.run_bind_eq_ok ran
  cases yields
  obtain ⟨notName, rfl⟩ := Evaluate.run_transform_eq_ok transformed
  exact ⟨given, value, operandRan, rfl, notName⟩

theorem evaluate_assign_eq_ok {target value : Tree}
    (ran : (evaluate fuel (.assign target value position)).run machine = (.ok yielded, after)) :
    ∃ handle bound middle later,
      (evaluate fuel target).run machine = (.ok (some (.identifier handle)), middle) ∧
      (evaluateToOperand fuel value).run middle = (.ok bound, later) ∧ yielded = none ∧
      after.environment = later.environment.insert (later.symbols.nameAt handle) bound := by
  rw [evaluate] at ran
  obtain ⟨slot, middle, targetRan, ran⟩ := Evaluate.run_bind_eq_ok ran
  obtain ⟨bound, later, valueRan, ran⟩ := Evaluate.run_bind_eq_ok ran
  obtain ⟨name, _, named, ran⟩ := Evaluate.run_bind_eq_ok ran
  obtain ⟨_, _, assigns, yields⟩ := Evaluate.run_bind_eq_ok ran
  obtain ⟨handle, rfl, rfl, rfl⟩ := Evaluate.run_targetName_eq_ok named
  cases assigns
  cases yields
  exact ⟨handle, bound, middle, _, Evaluate.run_required_eq_ok targetRan, valueRan, rfl, rfl⟩

theorem evaluate_print_eq_ok {operand : Tree}
    (ran : (evaluate fuel (.command .print operand position)).run machine = (.ok yielded, after)) :
    ∃ given middle, (evaluateToOperand fuel operand).run machine = (.ok given, middle) ∧
      yielded = none ∧ after.environment = middle.environment := by
  rw [evaluate] at ran
  obtain ⟨given, middle, operandRan, ran⟩ := Evaluate.run_bind_eq_ok ran
  obtain ⟨_, _, wrote, yields⟩ := Evaluate.run_bind_eq_ok ran
  cases yields
  exact ⟨given, middle, operandRan, rfl, (Evaluate.run_printLine_eq_ok wrote).1⟩

theorem evaluate_input_eq_ok {prompt : Tree}
    (ran : (evaluate fuel (.command .input prompt position)).run machine = (.ok yielded, after)) :
    ∃ given value middle, (evaluateToOperand fuel prompt).run machine = (.ok given, middle) ∧
      yielded = some value ∧ value.type ≠ .identifier ∧
      after.environment = middle.environment ∧
      after.console.written =
        middle.console.written ++ (given.text middle.symbols ++ "\n").toUTF8 := by
  rw [evaluate] at ran
  obtain ⟨given, middle, promptRan, ran⟩ := Evaluate.run_bind_eq_ok ran
  obtain ⟨_, written, wrote, ran⟩ := Evaluate.run_bind_eq_ok ran
  obtain ⟨_, flushed, flushes, ran⟩ := Evaluate.run_bind_eq_ok ran
  obtain ⟨line, last, read, yields⟩ := Evaluate.run_bind_eq_ok ran
  cases yields
  rw [Evaluate.run_flush] at flushes
  cases (Prod.mk.inj flushes).2
  obtain ⟨same, grown⟩ := Evaluate.run_printLine_eq_ok wrote
  obtain ⟨notName, still⟩ := Evaluate.run_inputLine_eq_ok read
  exact ⟨given, line, middle, promptRan, rfl, notName, still.environment.trans same,
    still.written.trans grown⟩

theorem evaluate_delete_eq_ok {target : Tree}
    (ran : (evaluate fuel (.command .delete target position)).run machine =
      (.ok yielded, after)) :
    ∃ handle middle,
      (evaluate fuel target).run machine = (.ok (some (.identifier handle)), middle) ∧
      yielded = none ∧
      after.environment = middle.environment.erase (middle.symbols.nameAt handle) := by
  rw [evaluate] at ran
  obtain ⟨slot, middle, targetRan, ran⟩ := Evaluate.run_bind_eq_ok ran
  obtain ⟨name, _, named, ran⟩ := Evaluate.run_bind_eq_ok ran
  obtain ⟨_, _, forgets, yields⟩ := Evaluate.run_bind_eq_ok ran
  obtain ⟨handle, rfl, rfl, rfl⟩ := Evaluate.run_targetName_eq_ok named
  cases forgets
  cases yields
  exact ⟨handle, _, Evaluate.run_required_eq_ok targetRan, rfl, rfl⟩

theorem evaluate_control_eq_ok {keyword : Control} {condition : Tree} {body : List Tree}
    (ran : (evaluate fuel (.control keyword condition body position)).run machine =
      (.ok yielded, after)) : yielded = none := by
  cases keyword with
  | conditional =>
      rw [evaluate] at ran
      obtain ⟨holds, _, _, ran⟩ := Evaluate.run_bind_eq_ok ran
      cases holds with
      | false => cases ran; rfl
      | true =>
          obtain ⟨_, _, _, yields⟩ := Evaluate.run_bind_eq_ok ran
          cases yields
          rfl
  | loop =>
      rw [evaluate] at ran
      obtain ⟨_, _, _, yields⟩ := Evaluate.run_bind_eq_ok ran
      cases yields
      rfl

/-- Only a variable yields a variable. -/
theorem evaluate_eq_identifier {tree : Tree} {handle : NameHandle}
    (ran : (evaluate fuel tree).run machine = (.ok (some (.identifier handle)), after)) :
    (∃ place, tree = .identifier handle place) ∧ after = machine := by
  cases tree with
  | integer | decimal =>
      rw [evaluate] at ran
      obtain ⟨_, _, _, yields⟩ := Evaluate.run_bind_eq_ok ran
      cases yields
  | string | boolean =>
      rw [evaluate] at ran
      cases ran
  | identifier other place =>
      rw [evaluate] at ran
      cases ran
      exact ⟨⟨place, rfl⟩, rfl⟩
  | binary =>
      obtain ⟨_, _, _, _, _, _, _, same, notName, _⟩ := evaluate_binary_eq_ok ran
      cases same
      exact absurd rfl notName
  | unary =>
      obtain ⟨_, _, _, same, notName⟩ := evaluate_unary_eq_ok ran
      cases same
      exact absurd rfl notName
  | assign =>
      obtain ⟨_, _, _, _, _, _, none, _⟩ := evaluate_assign_eq_ok ran
      cases none
  | command keyword =>
      cases keyword with
      | print =>
          obtain ⟨_, _, _, none, _⟩ := evaluate_print_eq_ok ran
          cases none
      | input =>
          obtain ⟨_, _, _, _, same, notName, _⟩ := evaluate_input_eq_ok ran
          cases same
          exact absurd rfl notName
      | delete =>
          obtain ⟨_, _, _, none, _⟩ := evaluate_delete_eq_ok ran
          cases none
  | control => cases evaluate_control_eq_ok ran

end

/-! ## Trees that yield values -/

namespace Tree

/-- Whether every node yields a value, so that none assigns, deletes or prints and none governs a
block. -/
def allYield : Tree → Bool
  | integer _ _ | decimal _ _ | string _ _ | boolean _ _ | identifier _ _ => true
  | binary _ left right _ => left.allYield && right.allYield
  | unary _ operand _ => operand.allYield
  | command keyword operand _ => keyword == .input && operand.allYield
  | assign _ _ _ | control _ _ _ _ => false

/-- The prompts of the `input` nodes in post order, from left to right. -/
def prompts : Tree → List Tree
  | integer _ _ | decimal _ _ | string _ _ | boolean _ _ | identifier _ _ => []
  | binary _ left right _ => left.prompts ++ right.prompts
  | unary _ operand _ => operand.prompts
  | assign target value _ => target.prompts ++ value.prompts
  | command .input prompt _ => prompt.prompts ++ [prompt]
  | command _ operand _ => operand.prompts
  | control _ condition body _ => condition.prompts ++ body.flatMap prompts

end Tree

/-- What a tree asks as it is evaluated from a machine: the prompts of its `input` nodes, each with
the text that it gives where the evaluation comes to it. -/
inductive Asks (fuel : Nat) : Tree → Machine → List (Tree × String) → Prop where
  | nothing {tree : Tree} (machine : Machine) (none : tree.prompts = []) :
      Asks fuel tree machine []
  | binary {operator : BinaryOperator} {left right : Tree} {position : Position}
      {machine middle : Machine} {value : Value} {earlier later : List (Tree × String)}
      (first : Asks fuel left machine earlier)
      (evaluated : (evaluateToOperand fuel left).run machine = (.ok value, middle))
      (second : Asks fuel right middle later) :
      Asks fuel (.binary operator left right position) machine (earlier ++ later)
  | unary {operator : UnaryOperator} {operand : Tree} {position : Position} {machine : Machine}
      {asked : List (Tree × String)} (asks : Asks fuel operand machine asked) :
      Asks fuel (.unary operator operand position) machine asked
  | input {prompt : Tree} {position : Position} {machine middle : Machine} {value : Value}
      {earlier : List (Tree × String)} (first : Asks fuel prompt machine earlier)
      (evaluated : (evaluateToOperand fuel prompt).run machine = (.ok value, middle)) :
      Asks fuel (.command .input prompt position) machine
        (earlier ++ [(prompt, value.text middle.symbols)])

theorem Asks.prompts {fuel : Nat} {tree : Tree} {machine : Machine} {asked : List (Tree × String)}
    (asks : Asks fuel tree machine asked) : asked.map Prod.fst = tree.prompts := by
  induction asks with
  | nothing _ none => exact none.symm
  | binary _ _ _ firstInduction secondInduction =>
      rw [Tree.prompts, List.map_append, firstInduction, secondInduction]
  | unary _ induction => rw [Tree.prompts, induction]
  | input _ _ induction => rw [Tree.prompts, List.map_append, induction, List.map_singleton]

/-- Between two machines these texts were written, each as one line, and nothing else. -/
def Machine.Wrote (before : Machine) (texts : List String) (after : Machine) : Prop :=
  after.console.written =
    before.console.written ++ (String.join (texts.map (· ++ "\n"))).toUTF8

namespace Machine.Wrote

variable {before middle after : Machine} {texts more : List String}

theorem none (same : after.console.written = before.console.written) : before.Wrote [] after := by
  rw [Wrote, same, String.toUTF8_eq_toByteArray]
  exact ByteArray.append_empty.symm

theorem append (first : before.Wrote texts middle) (second : middle.Wrote more after) :
    before.Wrote (texts ++ more) after := by
  rw [Wrote] at first second
  rw [Wrote, second, first, ByteArray.append_assoc, List.map_append, String.join_append,
    String.toUTF8_eq_toByteArray, String.toUTF8_eq_toByteArray, String.toUTF8_eq_toByteArray,
    String.toByteArray_append]

theorem single {text : String}
    (written : after.console.written = before.console.written ++ (text ++ "\n").toUTF8) :
    before.Wrote [text] after := by
  rw [Wrote, written]
  simp

theorem still (first : before.Wrote texts middle) (still : middle.Still after) :
    before.Wrote texts after := by
  rw [← List.append_nil texts]
  exact first.append (none still.written)

end Machine.Wrote

/-- The evaluation of a tree asked for input at most. -/
structure Inquires (fuel : Nat) (tree : Tree) (before after : Machine) : Prop where
  allYield : tree.allYield
  environment : after.environment = before.environment
  prompts : ∃ asked, Asks fuel tree before asked ∧ asked.map Prod.fst = tree.prompts ∧
    before.Wrote (asked.map Prod.snd) after

section

variable {fuel : Nat} {machine after : Machine}

theorem Inquires.of_asks {tree : Tree} {asked : List (Tree × String)} (allYield : tree.allYield)
    (environment : after.environment = machine.environment) (asks : Asks fuel tree machine asked)
    (wrote : machine.Wrote (asked.map Prod.snd) after) : Inquires fuel tree machine after :=
  ⟨allYield, environment, asked, asks, asks.prompts, wrote⟩

theorem Inquires.nothing {tree : Tree} (allYield : tree.allYield) (none : tree.prompts = [])
    (machine : Machine) : Inquires fuel tree machine machine :=
  .of_asks allYield rfl (.nothing machine none) (.none rfl)

/-- A tree that yields a value asked for input at most. -/
theorem inquires_evaluate {tree : Tree} {value : Value}
    (ran : (evaluate fuel tree).run machine = (.ok (some value), after)) :
    Inquires fuel tree machine after := by
  induction tree using Tree.induction generalizing machine value after with
  | integer | decimal =>
      rw [evaluate] at ran
      obtain ⟨_, middle, read, yields⟩ := Evaluate.run_bind_eq_ok ran
      obtain ⟨_, rfl⟩ := Evaluate.run_ofExcept_eq_ok read
      cases yields
      exact .nothing rfl (by rw [Tree.prompts]) _
  | string | boolean | identifier =>
      rw [evaluate] at ran
      cases ran
      exact .nothing rfl (by rw [Tree.prompts]) _
  | binary operator left right position leftInduction rightInduction =>
      obtain ⟨_, _, _, middle, later, firstRan, secondRan, _, _, still⟩ :=
        evaluate_binary_eq_ok ran
      obtain ⟨_, firstYields⟩ := evaluateToOperand_eq_ok firstRan
      obtain ⟨_, secondYields⟩ := evaluateToOperand_eq_ok secondRan
      obtain ⟨leftYield, same, earlier, leftAsks, _, leftWrote⟩ := leftInduction firstYields
      obtain ⟨rightYield, sameToo, more, rightAsks, _, rightWrote⟩ := rightInduction secondYields
      refine .of_asks ?_ ?_ (.binary leftAsks firstRan rightAsks) ?_
      · rw [Tree.allYield, leftYield, rightYield]
        rfl
      · rw [still.environment, sameToo, same]
      · rw [List.map_append]
        exact (leftWrote.append rightWrote).still still
  | unary operator operand position induction =>
      obtain ⟨_, _, operandRan, _, _⟩ := evaluate_unary_eq_ok ran
      obtain ⟨_, operandYields⟩ := evaluateToOperand_eq_ok operandRan
      obtain ⟨yields, same, asked, asks, _, wrote⟩ := induction operandYields
      exact .of_asks yields same (.unary asks) wrote
  | assign =>
      obtain ⟨_, _, _, _, _, _, none, _⟩ := evaluate_assign_eq_ok ran
      cases none
  | command keyword operand position induction =>
      cases keyword with
      | print =>
          obtain ⟨_, _, _, none, _⟩ := evaluate_print_eq_ok ran
          cases none
      | input =>
          obtain ⟨_, _, middle, promptRan, _, _, same, line⟩ := evaluate_input_eq_ok ran
          obtain ⟨_, promptYields⟩ := evaluateToOperand_eq_ok promptRan
          obtain ⟨yields, unchanged, asked, asks, _, wrote⟩ := induction promptYields
          refine .of_asks yields (same.trans unchanged) (.input asks promptRan) ?_
          rw [List.map_append]
          exact wrote.append (.single line)
      | delete =>
          obtain ⟨_, _, _, none, _⟩ := evaluate_delete_eq_ok ran
          cases none
  | control => cases evaluate_control_eq_ok ran

theorem evaluateToOperand_environment {tree : Tree} {value : Value}
    (ran : (evaluateToOperand fuel tree).run machine = (.ok value, after)) :
    after.environment = machine.environment := by
  obtain ⟨_, yields⟩ := evaluateToOperand_eq_ok ran
  exact (inquires_evaluate yields).environment

end

/-! ## Names -/

theorem Machine.Step.names {machine after : Machine} {events : List Event}
    (step : machine.Step events after) : after.symbols.names = machine.symbols.names := by
  cases step <;> rfl

theorem Machine.Steps.names {machine after : Machine} {events : List Event}
    (steps : machine.Steps events after) : after.symbols.names = machine.symbols.names := by
  induction steps with
  | refl => rfl
  | cons step _ induction => exact induction.trans step.names

/-- Every handle stands for the same name before and after. -/
theorem evaluateToOperand_nameAt {fuel : Nat} {tree : Tree} {machine after : Machine}
    {value : Value} (ran : (evaluateToOperand fuel tree).run machine = (.ok value, after))
    (handle : NameHandle) : after.symbols.nameAt handle = machine.symbols.nameAt handle := by
  have steps := (accounts_evaluate fuel tree).operand tree.position machine
  rw [← evaluateToOperand, ran] at steps
  rw [Symbols.nameAt, steps.names]
  rfl

/-! ## Statements -/

section

variable {fuel : Nat} {position : Position} {machine after : Machine} {yielded : Option Value}

theorem effects_assign {target value : Tree}
    (ran : (evaluate fuel (.assign target value position)).run machine = (.ok yielded, after)) :
    ∃ handle place bound middle, target = .identifier handle place ∧
      (evaluateToOperand fuel value).run machine = (.ok bound, middle) ∧
      after.environment.get? (machine.symbols.nameAt handle) = some bound ∧
      machine.environment.SameBut (machine.symbols.nameAt handle) after.environment := by
  obtain ⟨handle, bound, _, later, targetRan, valueRan, _, assigned⟩ := evaluate_assign_eq_ok ran
  obtain ⟨⟨place, rfl⟩, rfl⟩ := evaluate_eq_identifier targetRan
  rw [evaluateToOperand_nameAt valueRan, evaluateToOperand_environment valueRan] at assigned
  refine ⟨handle, place, bound, later, rfl, valueRan, ?_, ?_⟩
  · rw [assigned, Environment.get?_insert, if_pos rfl]
  · intro other different
    rw [assigned, Environment.get?_insert, if_neg different]

theorem effects_delete {target : Tree}
    (ran : (evaluate fuel (.command .delete target position)).run machine =
      (.ok yielded, after)) :
    ∃ handle place, target = .identifier handle place ∧
      after.environment.get? (machine.symbols.nameAt handle) = none ∧
      machine.environment.SameBut (machine.symbols.nameAt handle) after.environment := by
  obtain ⟨handle, _, targetRan, _, erased⟩ := evaluate_delete_eq_ok ran
  obtain ⟨⟨place, rfl⟩, rfl⟩ := evaluate_eq_identifier targetRan
  refine ⟨handle, place, rfl, ?_, ?_⟩
  · rw [erased, Environment.get?_erase, if_pos rfl]
  · intro other different
    rw [erased, Environment.get?_erase, if_neg different]

theorem effects_print {operand : Tree}
    (ran : (evaluate fuel (.command .print operand position)).run machine = (.ok yielded, after)) :
    after.environment = machine.environment := by
  obtain ⟨_, _, operandRan, _, same⟩ := evaluate_print_eq_ok ran
  exact same.trans (evaluateToOperand_environment operandRan)

/-- What succeeds without a value is a statement. -/
theorem exists_statement {tree : Tree}
    (ran : (evaluate fuel tree).run machine = (.ok none, after)) :
    (∃ target value place, tree = .assign target value place) ∨
      (∃ target place, tree = .command .delete target place) ∨
      (∃ operand place, tree = .command .print operand place) ∨
      ∃ keyword condition body place, tree = .control keyword condition body place := by
  cases tree with
  | integer | decimal =>
      rw [evaluate] at ran
      obtain ⟨_, _, _, yields⟩ := Evaluate.run_bind_eq_ok ran
      cases yields
  | string | boolean | identifier =>
      rw [evaluate] at ran
      cases ran
  | binary =>
      obtain ⟨_, _, _, _, _, _, _, some, _⟩ := evaluate_binary_eq_ok ran
      cases some
  | unary =>
      obtain ⟨_, _, _, some, _⟩ := evaluate_unary_eq_ok ran
      cases some
  | assign target value place => exact .inl ⟨target, value, place, rfl⟩
  | command keyword operand place =>
      cases keyword with
      | print => exact .inr (.inr (.inl ⟨operand, place, rfl⟩))
      | input =>
          obtain ⟨_, _, _, _, some, _⟩ := evaluate_input_eq_ok ran
          cases some
      | delete => exact .inr (.inl ⟨operand, place, rfl⟩)
  | control keyword condition body place =>
      exact .inr (.inr (.inr ⟨keyword, condition, body, place, rfl⟩))

/-- What succeeds and is no block changes one variable at most. -/
theorem exists_sameBut {tree : Tree}
    (ran : (evaluate fuel tree).run machine = (.ok yielded, after))
    (noBlock : ∀ keyword condition body place, tree ≠ .control keyword condition body place) :
    ∃ name, machine.environment.SameBut name after.environment := by
  cases yielded with
  | some value =>
      refine ⟨"", fun other _ => ?_⟩
      rw [(inquires_evaluate ran).environment]
  | none =>
      rcases exists_statement ran with ⟨_, _, _, rfl⟩ | ⟨_, _, rfl⟩ | ⟨_, _, rfl⟩ | ⟨_, _, _, _, rfl⟩
      · obtain ⟨_, _, _, _, _, _, _, others⟩ := effects_assign ran
        exact ⟨_, others⟩
      · obtain ⟨_, _, _, _, others⟩ := effects_delete ran
        exact ⟨_, others⟩
      · refine ⟨"", fun other _ => ?_⟩
        rw [effects_print ran]
      · exact absurd rfl (noBlock _ _ _ _)

end

/-- What succeeds has no hidden effects. A tree that yields a value consists of nodes that yield one,
changes no variable, and has written the prompts of its `input` nodes, from left to right in post
order. An assignment binds the variable that it names, `del` unbinds it, and `print` changes no
variable; so whatever is no block changes one variable at most. -/
theorem evaluate_effects {fuel : Nat} {tree : Tree} {machine after : Machine}
    {yielded : Option Value} (ran : (evaluate fuel tree).run machine = (.ok yielded, after)) :
    (yielded.isSome → Inquires fuel tree machine after) ∧
    (∀ target value position, tree = .assign target value position →
      ∃ handle place bound middle, target = .identifier handle place ∧
        (evaluateToOperand fuel value).run machine = (.ok bound, middle) ∧
        after.environment.get? (machine.symbols.nameAt handle) = some bound ∧
        machine.environment.SameBut (machine.symbols.nameAt handle) after.environment) ∧
    (∀ target position, tree = .command .delete target position →
      ∃ handle place, target = .identifier handle place ∧
        after.environment.get? (machine.symbols.nameAt handle) = none ∧
        machine.environment.SameBut (machine.symbols.nameAt handle) after.environment) ∧
    (∀ operand position, tree = .command .print operand position →
      after.environment = machine.environment) ∧
    ((∀ keyword condition body position, tree ≠ .control keyword condition body position) →
      ∃ name, machine.environment.SameBut name after.environment) := by
  refine ⟨?_, ?_, ?_, ?_, exists_sameBut ran⟩
  · intro isSome
    obtain ⟨value, rfl⟩ := Option.isSome_iff_exists.mp isSome
    exact inquires_evaluate ran
  · rintro target value position rfl
    exact effects_assign ran
  · rintro target position rfl
    exact effects_delete ran
  · rintro operand position rfl
    exact effects_print ran

/-- The inner prompt is written first, and the answer to it is the outer prompt. -/
theorem evaluate_effects_input :
    let machine : Machine := {
      symbols := ⟨.ofTexts ["a"], .ofTexts ["x", "y"]⟩
      environment := ⟨[("x", .boolean true)]⟩
      console := { waiting := [some "b\n", some "c\n"] } }
    let inner := Tree.command .input (.string ⟨0⟩ ⟨1, 17⟩) ⟨1, 11⟩
    let outer := Tree.command .input inner ⟨1, 5⟩
    let statement := Tree.assign (.identifier ⟨1⟩ ⟨1, 0⟩) outer ⟨1, 2⟩
    let asked : Machine := {
      symbols := ⟨.ofTexts ["a", "b", "c"], .ofTexts ["x", "y"]⟩
      environment := ⟨[("x", .boolean true)]⟩
      console := { written := ⟨#[97, 10, 98, 10]⟩ } }
    let assigned : Machine := {
      asked with environment := ⟨[("y", .string ⟨2⟩), ("x", .boolean true)]⟩ }
    (evaluate 0 outer).run machine = (.ok (some (.string ⟨2⟩)), asked) ∧
      Inquires 0 outer machine asked ∧ outer.prompts = [.string ⟨0⟩ ⟨1, 17⟩, inner] ∧
      (evaluate 0 statement).run machine = (.ok none, assigned) ∧
      ∃ bound middle, (evaluateToOperand 0 outer).run machine = (.ok bound, middle) ∧
        assigned.environment.get? "y" = some bound ∧
        machine.environment.SameBut "y" assigned.environment := by
  intro machine inner outer statement asked assigned
  have asks : (evaluate 0 outer).run machine = (.ok (some (.string ⟨2⟩)), asked) := by cbv
  have assigns : (evaluate 0 statement).run machine = (.ok none, assigned) := by cbv
  refine ⟨asks, (evaluate_effects asks).1 rfl, by cbv, assigns, ?_⟩
  obtain ⟨handle, place, bound, middle, target, given, binds, others⟩ :=
    (evaluate_effects assigns).2.1 _ _ _ rfl
  cases target
  exact ⟨bound, middle, given, binds, others⟩

end Scriptlet
