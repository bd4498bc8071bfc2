import Scriptlet.Proofs.Fuel

/-! Evaluation is local. What a tree does depends on the variables that it mentions and on no
others, and it changes only those that it assigns or deletes. -/

namespace Scriptlet

/-! ## The variables of a tree -/

namespace Tree

/-- The variables that a tree mentions. -/
def names : Tree → List NameHandle
  | integer _ _ | decimal _ _ | string _ _ | boolean _ _ => []
  | identifier handle _ => [handle]
  | binary _ left right _ => left.names ++ right.names
  | unary _ operand _ => operand.names
  | assign target value _ => target.names ++ value.names
  | command _ operand _ => operand.names
  | control _ condition body _ => condition.names ++ body.flatMap names

/-- The variable that a tree is. -/
def asName? : Tree → Option NameHandle
  | identifier handle _ => some handle
  | _ => none

/-- The variables that a tree assigns or deletes. A target that is no variable names none. -/
def targets : Tree → List NameHandle
  | integer _ _ | decimal _ _ | string _ _ | boolean _ _ | identifier _ _ => []
  | binary _ left right _ => left.targets ++ right.targets
  | unary _ operand _ => operand.targets
  | assign target value _ => target.asName?.toList ++ target.targets ++ value.targets
  | command .delete operand _ => operand.asName?.toList ++ operand.targets
  | command _ operand _ => operand.targets
  | control _ condition body _ => condition.targets ++ body.flatMap targets

theorem mem_names_of_asName? {tree : Tree} {handle : NameHandle}
    (isName : tree.asName? = some handle) : handle ∈ tree.names := by
  cases tree with
  | identifier =>
      cases isName
      rw [names]
      exact List.mem_singleton_self _
  | _ => cases isName

end Tree

namespace Machine

/-- Machines that cannot be told apart by means of some variables. -/
structure AgreeOn (names : List NameHandle) (first second : Machine) : Prop where
  symbols : first.symbols = second.symbols
  console : first.console = second.console
  bindings : ∀ handle ∈ names, first.environment.get? (first.symbols.nameAt handle) =
    second.environment.get? (second.symbols.nameAt handle)

theorem AgreeOn.symm {names : List NameHandle} {first second : Machine}
    (agree : first.AgreeOn names second) : second.AgreeOn names first :=
  ⟨agree.symbols.symm, agree.console.symm, fun handle member => (agree.bindings handle member).symm⟩

/-- Only the values of some variables may have changed, none of the names. -/
structure Keeps (targets : List NameHandle) (earlier later : Machine) : Prop where
  names : later.symbols.names = earlier.symbols.names
  bindings : ∀ name, (∀ handle ∈ targets, earlier.symbols.nameAt handle ≠ name) →
    later.environment.get? name = earlier.environment.get? name

theorem Keeps.nameAt {targets : List NameHandle} {earlier later : Machine}
    (keeps : earlier.Keeps targets later) (handle : NameHandle) :
    later.symbols.nameAt handle = earlier.symbols.nameAt handle := by
  rw [Symbols.nameAt, Symbols.nameAt, keeps.names]

theorem Keeps.refl (targets : List NameHandle) (machine : Machine) :
    machine.Keeps targets machine :=
  ⟨rfl, fun _ _ => rfl⟩

theorem Keeps.trans {targets : List NameHandle} {first second third : Machine}
    (earlier : first.Keeps targets second) (later : second.Keeps targets third) :
    first.Keeps targets third := by
  refine ⟨later.names.trans earlier.names, ?_⟩
  intro name other
  have otherToo : ∀ handle ∈ targets, second.symbols.nameAt handle ≠ name := by
    intro handle member
    rw [earlier.nameAt]
    exact other handle member
  exact (later.bindings name otherToo).trans (earlier.bindings name other)

end Machine

/-- Two values are joined into one string, or give an outcome that needs no table. -/
theorem Value.combine_cases (operator : BinaryOperator) (left right : Value) (symbols : Symbols) :
    (∃ text, combine operator left right symbols =
      (.ok (.string (symbols.enterString text).1), (symbols.enterString text).2)) ∨
    ∃ outcome, Plain outcome ∧ combine operator left right symbols = (outcome, symbols) := by
  have plain := plain_combineNumbers operator left right
  cases left with
  | string first =>
      cases right with
      | string second =>
          cases operator with
          | add => exact .inl ⟨_, rfl⟩
          | equal | notEqual => exact .inr ⟨_, plain_boolean _, rfl⟩
          | _ => exact .inr ⟨_, plain_error _, rfl⟩
      | integer | decimal | boolean | identifier => exact .inr ⟨_, plain, rfl⟩
  | boolean first =>
      cases right with
      | boolean second => exact .inr ⟨_, plain_combineBooleans operator first second, rfl⟩
      | integer | decimal | string | identifier => exact .inr ⟨_, plain, rfl⟩
  | integer | decimal | identifier => cases right <;> exact .inr ⟨_, plain, rfl⟩

namespace Evaluate

/-- Actions start from machines that agree on some variables, and change some only. They fail in the
same way. -/
def locality (names targets : List NameHandle) : Comparison Machine Stop where
  State := Machine.AgreeOn names
  Later := Machine.Keeps targets
  Failure := Eq
  refl := Machine.Keeps.refl targets
  trans := Machine.Keeps.trans

/-! ## Actions that leave the variables alone -/

/-- An action that neither looks at the variables nor changes them. -/
structure Ignores (step : Evaluate α) : Prop where
  run : ∀ machine environment, step.run { machine with environment } =
    ((step.run machine).1, { (step.run machine).2 with environment })
  names : ∀ machine, (step.run machine).2.symbols.names = machine.symbols.names

namespace Ignores

theorem environment {step : Evaluate α} (ignores : Ignores step) (machine : Machine) :
    (step.run machine).2.environment = machine.environment :=
  congrArg (·.2.environment) (ignores.run machine machine.environment)

theorem pure (value : α) : Ignores (pure value : Evaluate α) :=
  ⟨fun _ _ => rfl, fun _ => rfl⟩

theorem fail (cause : EvalError.Cause) (position : Position) :
    Ignores (fail cause position : Evaluate α) :=
  ⟨fun _ _ => rfl, fun _ => rfl⟩

theorem bind {step : Evaluate α} {next : α → Evaluate β} (first : Ignores step)
    (following : ∀ value, Ignores (next value)) : Ignores (step >>= next) := by
  constructor
  · intro machine environment
    rw [Comparison.run_bind, Comparison.run_bind, first.run machine environment]
    rcases step.run machine with ⟨_ | value, after⟩
    · rfl
    · exact (following value).run after environment
  · intro machine
    have kept := first.names machine
    rw [Comparison.run_bind]
    generalize step.run machine = ending at kept ⊢
    rcases ending with ⟨_ | value, after⟩
    · exact kept
    · exact ((following value).names after).trans kept

theorem ofExcept (position : Position) (outcome : Except EvalError.Cause α) :
    Ignores (ofExcept position outcome) := by
  cases outcome with
  | ok value => exact pure value
  | error cause => exact fail cause position

theorem onConsole (action : Console → Except Console.Failure α × Console) :
    Ignores (onConsole action) := by
  apply bind ⟨fun _ _ => rfl, fun _ => rfl⟩
  intro outcome
  cases outcome with
  | ok value => exact pure value
  | error failure => exact ⟨fun _ _ => rfl, fun _ => rfl⟩

theorem printLine (value : Value) : Ignores (printLine value) := by
  have run (machine : Machine) : (Evaluate.printLine value).run machine =
      (Evaluate.onConsole (·.putLine (value.text machine.symbols))).run machine := rfl
  constructor
  · intro machine environment
    rw [run, run]
    exact (onConsole _).run machine environment
  · intro machine
    rw [run]
    exact (onConsole _).names machine

theorem combine (operator : BinaryOperator) (left right : Value) (position : Position) :
    Ignores (combine operator left right position) := by
  refine bind ⟨fun _ _ => rfl, ?_⟩ fun outcome => ofExcept position outcome
  intro machine
  rcases Value.combine_cases operator left right machine.symbols with
    ⟨text, joined⟩ | ⟨outcome, _, given⟩
  · exact congrArg (·.2.names) joined
  · exact congrArg (·.2.names) given

end Ignores

/-! ## Actions on variables -/

section

variable {names targets : List NameHandle} {left right : Machine}

/-- An action that leaves the variables alone gives one result, wherever it starts. -/
theorem Ignores.agree_result {step : Evaluate α} (ignores : Ignores step) :
    (locality names targets).Agree left right
      (fun _ _ one other => one = other ∧ ∃ machine, (step.run machine).1 = .ok one) step step := by
  intro here there _ _ same
  have other : there = { here with environment := there.environment } := by
    rcases here with ⟨_, _, _⟩
    rcases there with ⟨_, _, _⟩
    cases same.symbols
    cases same.console
    rfl
  have keptNames := ignores.names here
  have kept := ignores.environment here
  have moved := ignores.run here there.environment
  rw [← other] at moved
  rw [moved]
  have ended : ∃ machine, (step.run machine).1 = (step.run here).1 := ⟨here, rfl⟩
  generalize step.run here = ending at keptNames kept ended ⊢
  have hereKeeps : here.Keeps targets ending.2 :=
    ⟨keptNames, fun _ _ => by rw [kept]⟩
  have thereKeeps : there.Keeps targets { ending.2 with environment := there.environment } :=
    ⟨keptNames.trans (by rw [same.symbols]), fun _ _ => rfl⟩
  have agree : Machine.AgreeOn names ending.2
      { ending.2 with environment := there.environment } := by
    refine ⟨rfl, rfl, ?_⟩
    intro handle member
    have before := same.bindings handle member
    rw [same.symbols, ← thereKeeps.nameAt handle] at before
    rw [kept]
    exact before
  rcases ending with ⟨stop | value, after⟩
  · exact .error hereKeeps thereKeeps agree rfl
  · exact .ok hereKeeps thereKeeps agree ⟨rfl, ended⟩

theorem Ignores.agree {step : Evaluate α} (ignores : Ignores step) :
    (locality names targets).Agree left right (fun _ _ => Eq) step step :=
  ignores.agree_result.imp fun _ _ _ _ => And.left

/-- A value on both sides. Only a tree that is a variable yields a variable. -/
def Settled (name? : Option NameHandle) (one other : Value) : Prop :=
  one = other ∧ ∀ handle, one = .identifier handle → name? = some handle

/-- No value on either side, or the same one. -/
abbrev Yields (name? : Option NameHandle) : Option Value → Option Value → Prop :=
  Option.Rel (Settled name?)

variable {name? : Option NameHandle} {one other : Value}

theorem Ignores.agree_settled {step : Evaluate Value} (ignores : Ignores step)
    (noName : ∀ machine handle, (step.run machine).1 ≠ .ok (.identifier handle)) :
    (locality names targets).Agree left right (fun _ _ => Settled none) step step := by
  apply ignores.agree_result.imp
  rintro _ _ value _ ⟨rfl, machine, ended⟩
  refine ⟨rfl, ?_⟩
  rintro handle rfl
  exact absurd ended (noName machine handle)

theorem agree_lookUp_mentioned (settled : Settled name? one other)
    (mentioned : ∀ handle ∈ name?, handle ∈ names) (position : Position) :
    (locality names targets).Agree left right (fun _ _ => Eq) (lookUp one position)
      (lookUp other position) := by
  rcases settled with ⟨rfl, isName⟩
  cases one with
  | identifier handle =>
      apply Comparison.Agree.bind Comparison.Agree.get
      rintro _ _ here there _ _ ⟨rfl, rfl, same⟩
      have bound := same.bindings handle (mentioned handle (isName handle rfl))
      rw [same.symbols] at bound
      simp only [same.symbols, bound]
      cases there.environment.get? _ with
      | none => exact (Ignores.fail _ position).agree
      | some value => exact (Ignores.pure value).agree
  | integer | decimal | string | boolean => exact (Ignores.pure _).agree

theorem agree_targetName_mentioned (settled : Settled name? one other)
    (targeted : ∀ handle ∈ name?, handle ∈ targets) (beside : Kind) (position : Position) :
    (locality names targets).Agree left right
      (fun here _ name nameToo =>
        name = nameToo ∧ ∃ handle ∈ targets, here.symbols.nameAt handle = name)
      (targetName one beside position) (targetName other beside position) := by
  rcases settled with ⟨rfl, isName⟩
  cases one with
  | identifier handle =>
      apply Comparison.Agree.bind Comparison.Agree.get
      rintro _ _ here there _ _ ⟨rfl, rfl, same⟩
      apply Comparison.Agree.pure
      intro hereAfter thereAfter kept _
      rw [same.symbols]
      refine ⟨rfl, handle, targeted handle (isName handle rfl), ?_⟩
      rw [kept.nameAt, same.symbols]
  | integer | decimal | string | boolean => exact .throw rfl

/-- A target gets a value, or loses the one it has, on both sides. -/
theorem agree_change {name : String}
    (target : ∃ handle ∈ targets, left.symbols.nameAt handle = name)
    {change : Environment → Environment} {bound : Option Value}
    (changed : ∀ environment other, (change environment).get? other =
      if other = name then bound else environment.get? other) :
    (locality names targets).Agree left right (fun _ _ _ _ => True)
      (modify fun machine => { machine with environment := change machine.environment } :
        Evaluate Unit)
      (modify fun machine => { machine with environment := change machine.environment } :
        Evaluate Unit) := by
  apply Comparison.Agree.modifyGet
  intro here there leftLater _ same
  rcases target with ⟨handle, member, named⟩
  rw [← leftLater.nameAt] at named
  have keeps (machine : Machine) (symbols : machine.symbols = here.symbols) :
      machine.Keeps targets { machine with environment := change machine.environment } := by
    refine ⟨rfl, ?_⟩
    intro selected others
    have different : selected ≠ name := by
      rintro rfl
      exact others handle member (symbols ▸ named)
    rw [changed, if_neg different]
  refine ⟨keeps here rfl, keeps there same.symbols.symm, ⟨same.symbols, same.console, ?_⟩, trivial⟩
  intro mentioned memberToo
  have before := same.bindings mentioned memberToo
  rw [same.symbols] at before
  rw [changed, changed, same.symbols, before]

theorem agree_inputLine_local :
    (locality names targets).Agree left right (fun _ _ => Settled none) inputLine inputLine := by
  apply Comparison.Agree.bind (Ignores.onConsole Console.takeLine).agree
  intro here there line _ _ _ same
  cases same
  apply Ignores.agree_settled ⟨fun _ _ => rfl, fun _ => rfl⟩
  intro machine handle isName
  cases isName

theorem ofExcept_ne_name {outcome : Except EvalError.Cause Value} (plain : Plain outcome)
    (position : Position) (machine : Machine) (handle : NameHandle) :
    ((ofExcept position outcome).run machine).1 ≠ .ok (.identifier handle) := by
  cases outcome with
  | error cause =>
      intro isName
      cases isName
  | ok value =>
      intro isName
      cases isName
      exact (plain _ rfl).2 rfl

theorem agree_transform_local (operator : UnaryOperator) (one : Value) (position : Position) :
    (locality names targets).Agree left right (fun _ _ => Settled none)
      (transform operator one position) (transform operator one position) :=
  (Ignores.ofExcept position _).agree_settled
    (ofExcept_ne_name (Value.plain_transform operator one) position)

theorem agree_combine_local (operator : BinaryOperator) (one other : Value) (position : Position) :
    (locality names targets).Agree left right (fun _ _ => Settled none)
      (combine operator one other position) (combine operator one other position) := by
  apply (Ignores.combine operator one other position).agree_settled
  intro machine handle
  have run : (combine operator one other position).run machine =
      (ofExcept position (Value.combine operator one other machine.symbols).1).run
        { machine with symbols := (Value.combine operator one other machine.symbols).2 } := rfl
  rw [run]
  rcases Value.combine_cases operator one other machine.symbols with
    ⟨text, joined⟩ | ⟨outcome, plain, given⟩
  · rw [joined]
    intro isName
    cases isName
  · rw [given]
    exact ofExcept_ne_name plain position _ handle

theorem agree_literal_local (position : Position) (outcome : Except EvalError.Cause α)
    {build : α → Value} (noName : ∀ value handle, build value ≠ .identifier handle) :
    (locality names targets).Agree left right (fun _ _ => Yields none)
      (ofExcept position outcome >>= fun value => pure (some (build value)))
      (ofExcept position outcome >>= fun value => pure (some (build value))) := by
  apply Comparison.Agree.bind (Ignores.ofExcept position outcome).agree
  intro here there value _ _ _ same
  cases same
  exact .pure fun _ _ _ _ => .some ⟨rfl, fun handle isName => absurd isName (noName value handle)⟩

/-! ## Operands -/

section

variable {step : Evaluate (Option Value)}
  (agree : (locality names targets).Agree left right (fun _ _ => Yields name?) step step)

include agree

theorem agree_required_local (position : Position) :
    (locality names targets).Agree left right (fun _ _ => Settled name?) (required position step)
      (required position step) := by
  apply Comparison.Agree.bind agree
  intro here there found foundToo _ _ related
  cases related with
  | none => exact .throw rfl
  | some settled => exact .pure fun _ _ _ _ => settled

theorem agree_operand_local (mentioned : ∀ handle ∈ name?, handle ∈ names) (position : Position) :
    (locality names targets).Agree left right (fun _ _ => Eq) (operand position step)
      (operand position step) := by
  apply Comparison.Agree.bind (agree_required_local agree position)
  intro here there one other _ _ settled
  exact agree_lookUp_mentioned settled mentioned position

theorem agree_condition_local (mentioned : ∀ handle ∈ name?, handle ∈ names) (control : Control)
    (keyword position : Position) :
    (locality names targets).Agree left right (fun _ _ => Eq)
      (condition control keyword position step) (condition control keyword position step) := by
  apply Comparison.Agree.bind (agree_operand_local agree mentioned position)
  intro here there value _ _ _ same
  cases same
  cases value with
  | boolean holds => exact .pure fun _ _ _ _ => rfl
  | integer | decimal | string | identifier => exact .throw rfl

theorem agree_command_local (mentioned : ∀ handle ∈ name?, handle ∈ names) (keyword : Command)
    (targeted : keyword = .delete → ∀ handle ∈ name?, handle ∈ targets)
    (operandPosition position : Position) :
    (locality names targets).Agree left right (fun _ _ => Yields none)
      (command keyword operandPosition position step)
      (command keyword operandPosition position step) := by
  cases keyword with
  | print =>
      apply Comparison.Agree.bind (agree_operand_local agree mentioned operandPosition)
      intro here there value _ _ _ same
      cases same
      apply Comparison.Agree.bind (Ignores.printLine value).agree
      intro here there _ _ _ _ _
      exact .pure fun _ _ _ _ => .none
  | input =>
      apply Comparison.Agree.bind (agree_operand_local agree mentioned operandPosition)
      intro here there value _ _ _ same
      cases same
      apply Comparison.Agree.bind (Ignores.printLine value).agree
      intro here there _ _ _ _ _
      apply Comparison.Agree.bind (Ignores.onConsole _).agree
      intro here there _ _ _ _ _
      apply Comparison.Agree.bind agree_inputLine_local
      intro here there line lineToo _ _ settled
      exact .pure fun _ _ _ _ => .some settled
  | delete =>
      apply Comparison.Agree.bind (agree_required_local agree operandPosition)
      intro here there one other _ _ settled
      apply Comparison.Agree.bind
        (agree_targetName_mentioned settled (targeted rfl) _ position)
      intro here there name _ _ _ ⟨same, target⟩
      cases same
      apply Comparison.Agree.bind (agree_change target fun environment =>
        environment.get?_erase name)
      intro here there _ _ _ _ _
      exact .pure fun _ _ _ _ => .none

end

end

end Evaluate

/-! ## Trees -/

section

variable {names targets : List NameHandle} {left right : Machine}

theorem agree_evaluateAll_local (fuel : Nat) {body : List Tree}
    (each : ∀ statement ∈ body, ∀ here there, ∃ name?,
      (Evaluate.locality names targets).Agree here there (fun _ _ => Evaluate.Yields name?)
        (evaluate fuel statement) (evaluate fuel statement)) :
    (Evaluate.locality names targets).Agree left right (fun _ _ _ _ => True)
      (evaluateAll fuel body) (evaluateAll fuel body) := by
  induction body generalizing left right with
  | nil =>
      rw [evaluateAll]
      exact .pure fun _ _ _ _ => trivial
  | cons statement later induction =>
      rw [evaluateAll]
      rcases each statement List.mem_cons_self left right with ⟨_, first⟩
      apply Comparison.Agree.bind first
      intro here there _ _ _ _ _
      exact induction fun statement member => each statement (List.mem_cons_of_mem _ member)

theorem agree_evaluate_local (fuel : Nat) {tree : Tree} (mentioned : tree.names ⊆ names)
    (targeted : tree.targets ⊆ targets) :
    (Evaluate.locality names targets).Agree left right (fun _ _ => Evaluate.Yields tree.asName?)
      (evaluate fuel tree) (evaluate fuel tree) := by
  have own {part : Tree} (inside : part.names ⊆ names) :
      ∀ handle ∈ part.asName?, handle ∈ names :=
    fun handle isName => inside (Tree.mem_names_of_asName? isName)
  induction tree using Tree.induction generalizing left right with
  | integer text position | decimal text position =>
      rw [evaluate]
      exact Evaluate.agree_literal_local position _ fun _ _ => Value.noConfusion
  | string handle position | boolean value position =>
      rw [evaluate]
      exact .pure fun _ _ _ _ => .some ⟨rfl, fun _ => Value.noConfusion⟩
  | identifier handle position =>
      rw [evaluate]
      apply Comparison.Agree.pure
      intro here there _ _
      refine .some ⟨rfl, ?_⟩
      rintro _ ⟨⟩
      rfl
  | binary operator one other position oneInduction otherInduction =>
      rw [Tree.names, List.append_subset] at mentioned
      rw [Tree.targets, List.append_subset] at targeted
      rw [evaluate]
      apply Comparison.Agree.bind (Evaluate.agree_operand_local
        (oneInduction mentioned.1 targeted.1) (own mentioned.1) _)
      intro here there first _ _ _ same
      cases same
      apply Comparison.Agree.bind (Evaluate.agree_operand_local
        (otherInduction mentioned.2 targeted.2) (own mentioned.2) _)
      intro here there second _ _ _ same
      cases same
      apply Comparison.Agree.bind (Evaluate.agree_combine_local operator first second position)
      intro here there result resultToo _ _ settled
      exact .pure fun _ _ _ _ => .some settled
  | unary operator operand position induction =>
      rw [Tree.names] at mentioned
      rw [Tree.targets] at targeted
      rw [evaluate]
      apply Comparison.Agree.bind (Evaluate.agree_operand_local
        (induction mentioned targeted) (own mentioned) _)
      intro here there value _ _ _ same
      cases same
      apply Comparison.Agree.bind (Evaluate.agree_transform_local operator value position)
      intro here there result resultToo _ _ settled
      exact .pure fun _ _ _ _ => .some settled
  | assign target value position targetInduction valueInduction =>
      rw [Tree.names, List.append_subset] at mentioned
      rw [Tree.targets, List.append_subset, List.append_subset] at targeted
      rw [evaluate]
      apply Comparison.Agree.bind (Evaluate.agree_required_local
        (targetInduction mentioned.1 targeted.1.2) _)
      intro here there slot slotToo _ _ settled
      apply Comparison.Agree.bind (Evaluate.agree_operand_local
        (valueInduction mentioned.2 targeted.2) (own mentioned.2) _)
      intro here there bound _ _ _ same
      cases same
      apply Comparison.Agree.bind (Evaluate.agree_targetName_mentioned settled
        (fun handle isName => targeted.1.1 (Option.mem_toList.mpr isName)) _ position)
      rintro here there name _ _ _ ⟨rfl, isTarget⟩
      apply Comparison.Agree.bind (Evaluate.agree_change isTarget fun environment other =>
        environment.get?_insert name other bound)
      intro here there _ _ _ _ _
      exact .pure fun _ _ _ _ => .none
  | command keyword operand position induction =>
      rw [Tree.names] at mentioned
      have inside : operand.targets ⊆ targets := by
        cases keyword with
        | print | input =>
            rw [Tree.targets] at targeted
            · exact targeted
            · exact Command.noConfusion
        | delete =>
            rw [Tree.targets, List.append_subset] at targeted
            exact targeted.2
      rw [evaluate]
      apply Evaluate.agree_command_local (induction mentioned inside) (own mentioned)
      rintro rfl handle isName
      rw [Tree.targets, List.append_subset] at targeted
      exact targeted.1 (Option.mem_toList.mpr isName)
  | control keyword condition body position conditionInduction bodyInduction =>
      rw [Tree.names, List.append_subset] at mentioned
      rw [Tree.targets, List.append_subset] at targeted
      have holds : (Evaluate.locality names targets).Agree left right (fun _ _ => Eq)
          (Evaluate.condition keyword position condition.position (evaluate fuel condition))
          (Evaluate.condition keyword position condition.position (evaluate fuel condition)) :=
        Evaluate.agree_condition_local (conditionInduction mentioned.1 targeted.1)
          (own mentioned.1) keyword position condition.position
      have each : ∀ statement ∈ body, ∀ here there, ∃ name?,
          (Evaluate.locality names targets).Agree here there (fun _ _ => Evaluate.Yields name?)
            (evaluate fuel statement) (evaluate fuel statement) := by
        intro statement member here there
        refine ⟨_, bodyInduction statement member ?_ ?_⟩
        · exact fun handle here => mentioned.2 (List.mem_flatMap.mpr ⟨statement, member, here⟩)
        · exact fun handle here => targeted.2 (List.mem_flatMap.mpr ⟨statement, member, here⟩)
      cases keyword with
      | conditional =>
          rw [evaluate]
          apply Comparison.Agree.bind holds
          intro here there continues _ _ _ same
          cases same
          cases continues with
          | false => exact .pure fun _ _ _ _ => .none
          | true =>
              apply Comparison.Agree.bind (agree_evaluateAll_local fuel each)
              intro here there _ _ _ _ _
              exact .pure fun _ _ _ _ => .none
      | loop =>
          rw [evaluate]
          apply Comparison.Agree.bind
            (Evaluate.agree_loop rfl holds (agree_evaluateAll_local fuel each) fuel)
          intro here there _ _ _ _ _
          exact .pure fun _ _ _ _ => .none

end

/-! ## Evaluations that come to their end -/

namespace Machine

/-- An evaluation that comes to its end, with enough fuel: what it yields or the error that stops
it, and the machine that it leaves. -/
def Evaluates (tree : Tree) (machine : Machine) (result : Except Stop (Option Value))
    (after : Machine) : Prop :=
  result ≠ .error .outOfFuel ∧ ∃ fuel, (evaluate fuel tree).run machine = (result, after)

theorem Evaluates.unique {tree : Tree} {machine after afterToo : Machine}
    {result resultToo : Except Stop (Option Value)}
    (one : machine.Evaluates tree result after)
    (other : machine.Evaluates tree resultToo afterToo) :
    result = resultToo ∧ after = afterToo := by
  rcases one with ⟨ended, fuel, ran⟩
  rcases other with ⟨endedToo, fuelToo, ranToo⟩
  have here := continues_evaluate (Nat.le_max_left fuel fuelToo) tree machine (by rwa [ran])
  have there := continues_evaluate (Nat.le_max_right fuel fuelToo) tree machine (by rwa [ranToo])
  rw [here, ran, ranToo] at there
  exact Prod.mk.inj there

/-- One evaluation of a tree on two machines that agree on its variables. -/
theorem AgreeOn.evaluate {tree : Tree} {first second : Machine}
    (agree : first.AgreeOn tree.names second) (fuel : Nat) :
    ((evaluate fuel tree).run first).1 = ((evaluate fuel tree).run second).1 ∧
      ((evaluate fuel tree).run first).2.AgreeOn tree.names ((evaluate fuel tree).run second).2 ∧
      first.Keeps tree.targets ((evaluate fuel tree).run first).2 ∧
      second.Keeps tree.targets ((evaluate fuel tree).run second).2 := by
  have outcome := @agree_evaluate_local tree.names tree.targets first second fuel tree
    (List.Subset.refl _) (List.Subset.refl _) first second (.refl _ _) (.refl _ _) agree
  generalize (Scriptlet.evaluate fuel tree).run first = one at outcome ⊢
  generalize (Scriptlet.evaluate fuel tree).run second = other at outcome ⊢
  cases outcome with
  | ok firstKeeps secondKeeps after related =>
      refine ⟨?_, after, firstKeeps, secondKeeps⟩
      cases related with
      | none => rfl
      | some settled => rw [settled.1]
  | error firstKeeps secondKeeps after same => exact ⟨by rw [same], after, firstKeeps, secondKeeps⟩

theorem AgreeOn.evaluates {tree : Tree} {first second after : Machine}
    (agree : first.AgreeOn tree.names second) {result : Except Stop (Option Value)}
    (evaluates : first.Evaluates tree result after) :
    ∃ afterToo, second.Evaluates tree result afterToo ∧ after.AgreeOn tree.names afterToo ∧
      first.Keeps tree.targets after ∧ second.Keeps tree.targets afterToo := by
  rcases evaluates with ⟨ended, fuel, ran⟩
  have together := agree.evaluate fuel
  rw [ran] at together
  refine ⟨((Scriptlet.evaluate fuel tree).run second).2, ⟨ended, fuel, ?_⟩, together.2⟩
  exact Prod.ext together.1.symm rfl

/-- Evaluation is local to the variables of a tree. On two machines that agree on them it comes to
its end on both or on neither, with one result; they still agree on them afterwards, and every
variable that the tree neither assigns nor deletes is as it was. -/
theorem evaluates_local (tree : Tree) {first second : Machine}
    (agree : first.AgreeOn tree.names second) :
    (∀ result, (∃ after, first.Evaluates tree result after) ↔
      ∃ after, second.Evaluates tree result after) ∧
    ∀ result firstAfter resultToo secondAfter, first.Evaluates tree result firstAfter →
      second.Evaluates tree resultToo secondAfter →
      result = resultToo ∧ firstAfter.AgreeOn tree.names secondAfter ∧
        first.Keeps tree.targets firstAfter ∧ second.Keeps tree.targets secondAfter := by
  constructor
  · intro result
    constructor
    · intro ⟨after, evaluates⟩
      rcases agree.evaluates evaluates with ⟨afterToo, evaluatesToo, _⟩
      exact ⟨afterToo, evaluatesToo⟩
    · intro ⟨after, evaluates⟩
      rcases agree.symm.evaluates evaluates with ⟨afterToo, evaluatesToo, _⟩
      exact ⟨afterToo, evaluatesToo⟩
  · intro result firstAfter resultToo secondAfter evaluates evaluatesToo
    rcases agree.evaluates evaluates with ⟨afterToo, there, together⟩
    rcases evaluatesToo.unique there with ⟨rfl, rfl⟩
    exact ⟨rfl, together⟩

/-- A loop counts `x` up to two and does not see `y`, which has a value on one side only. -/
theorem evaluates_local_loop :
    let symbols : Symbols := ⟨{}, .ofTexts ["x", "y"]⟩
    let variableX := Tree.identifier ⟨0⟩ ⟨1, 6⟩
    let increment := Tree.assign variableX
      (.binary .add variableX (.integer "1" ⟨1, 21⟩) ⟨1, 19⟩) ⟨1, 14⟩
    let tree := Tree.control .loop
      (.binary .less variableX (.integer "2" ⟨1, 10⟩) ⟨1, 8⟩) [increment] ⟨1, 0⟩
    let first : Machine := { symbols, environment := ⟨[("x", .integer 0)]⟩ }
    let second : Machine := { symbols, environment := ⟨[("y", .integer 7), ("x", .integer 0)]⟩ }
    ∃ after afterToo, first.Evaluates tree (.ok none) after ∧
      second.Evaluates tree (.ok none) afterToo ∧ after.AgreeOn tree.names afterToo ∧
      afterToo.environment.get? "y" = some (.integer 7) := by
  intro symbols variableX increment tree first second
  have agree : first.AgreeOn tree.names second := by
    refine ⟨rfl, rfl, ?_⟩
    intro handle member
    have isX : handle = ⟨0⟩ := by
      simpa [tree, increment, variableX, Tree.names] using member
    rw [isX]
    rfl
  have evaluates : first.Evaluates tree (.ok none) ((evaluate 3 tree).run first).2 :=
    ⟨by simp, 3, Prod.ext (by cbv) rfl⟩
  rcases evaluates_local tree agree with ⟨same, together⟩
  rcases (same _).mp ⟨_, evaluates⟩ with ⟨afterToo, evaluatesToo⟩
  rcases together _ _ _ _ evaluates evaluatesToo with ⟨_, agreeAfter, _, keeps⟩
  refine ⟨_, afterToo, evaluates, evaluatesToo, agreeAfter, ?_⟩
  rw [keeps.bindings "y" ?_]
  · rfl
  · have assigned : tree.targets = [⟨0⟩] := by
      simp [tree, increment, variableX, Tree.targets, Tree.asName?]
    rw [assigned]
    decide

end Machine

end Scriptlet
