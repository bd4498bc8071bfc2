import Scriptlet.Evaluation.Machine
import Scriptlet.Proofs.Comparison
import Scriptlet.Proofs.Likeness.Basic

/-! Machines that differ in their tables only. Every single action keeps them so: it looks at what
the handles stand for and never at the handles. -/

namespace Scriptlet

/-! ## Operators -/

/-- An outcome that is read without a table. -/
def Plain (outcome : Except EvalError.Cause Value) : Prop :=
  ∀ value, outcome = .ok value → value.type ≠ .string ∧ value.type ≠ .identifier

theorem plain_error (cause : EvalError.Cause) : Plain (.error cause) := by
  intro value isOk
  cases isOk

theorem plain_ok {value : Value} (notString : value.type ≠ .string)
    (notName : value.type ≠ .identifier) : Plain (.ok value) := by
  intro value isOk
  cases isOk
  exact ⟨notString, notName⟩

theorem plain_integer (value : Integer) : Plain (.ok (.integer value)) :=
  plain_ok ValueType.noConfusion ValueType.noConfusion

theorem plain_decimal (value : Decimal) : Plain (.ok (.decimal value)) :=
  plain_ok ValueType.noConfusion ValueType.noConfusion

theorem plain_boolean (value : Bool) : Plain (.ok (.boolean value)) :=
  plain_ok ValueType.noConfusion ValueType.noConfusion

namespace Value

theorem plain_fitted (result : Option Integer) : Plain (fitted result) := by
  cases result with
  | none => exact plain_error _
  | some value => exact plain_integer value

theorem plain_combineIntegers (operator : BinaryOperator) (left right : Integer) :
    Plain (combineIntegers operator left right) := by
  unfold combineIntegers
  split
  any_goals exact plain_fitted _
  any_goals exact plain_boolean _
  any_goals exact plain_error _
  · split
    · exact plain_error _
    · exact plain_fitted _
  · split
    · exact plain_error _
    · exact plain_fitted _

theorem plain_combineDecimals (operator : BinaryOperator) (left right : Decimal) :
    Plain (combineDecimals operator left right) := by
  unfold combineDecimals
  split
  any_goals exact plain_decimal _
  any_goals exact plain_boolean _
  any_goals exact plain_error _
  · split
    · exact plain_error _
    · exact plain_decimal _
  · split
    · exact plain_error _
    · exact plain_decimal _

theorem plain_combineBooleans (operator : BinaryOperator) (left right : Bool) :
    Plain (combineBooleans operator left right) := by
  unfold combineBooleans
  split
  · exact plain_boolean _
  · exact plain_boolean _
  · split
    · exact plain_boolean _
    · exact plain_error _

theorem plain_transform (operator : UnaryOperator) (operand : Value) :
    Plain (transform operator operand) := by
  unfold transform
  split
  · exact plain_fitted _
  · exact plain_decimal _
  · exact plain_boolean _
  · exact plain_error _

/-- What an operator makes of two values that are neither two strings nor two truth values. -/
def combineNumbers (operator : BinaryOperator) (left right : Value) :
    Except EvalError.Cause Value :=
  match left.commonNumbers? right with
  | some (.integers first second) => combineIntegers operator first second
  | some (.decimals first second) => combineDecimals operator first second
  | none => .error (refusal operator left right)

theorem plain_combineNumbers (operator : BinaryOperator) (left right : Value) :
    Plain (combineNumbers operator left right) := by
  unfold combineNumbers
  split
  · exact plain_combineIntegers _ _ _
  · exact plain_combineDecimals _ _ _
  · exact plain_error _

namespace Alike

variable {left right : Symbols} {one oneToo other otherToo : Value}

theorem refusal (first : Alike left right one oneToo) (second : Alike left right other otherToo)
    (operator : BinaryOperator) :
    Value.refusal operator one other = Value.refusal operator oneToo otherToo := by
  rw [Value.refusal, Value.refusal, sameFamily, sameFamily, first.type, second.type]

theorem combineNumbers (first : Alike left right one oneToo)
    (second : Alike left right other otherToo) (operator : BinaryOperator) :
    Value.combineNumbers operator one other = Value.combineNumbers operator oneToo otherToo := by
  have numbers : one.commonNumbers? other = oneToo.commonNumbers? otherToo := by
    cases first <;> cases second <;> rfl
  rw [Value.combineNumbers, Value.combineNumbers, numbers, first.refusal second]

theorem transform (first : Alike left right one oneToo) (operator : UnaryOperator) :
    Value.transform operator one = Value.transform operator oneToo := by
  cases operator <;> cases first <;> rfl

/-- Two like pairs of values are joined into one string, or give one outcome that needs no table. -/
theorem combine_cases (first : Alike left right one oneToo)
    (second : Alike left right other otherToo) (operator : BinaryOperator) :
    (∃ text,
      Value.combine operator one other left =
        (.ok (.string (left.enterString text).1), (left.enterString text).2) ∧
      Value.combine operator oneToo otherToo right =
        (.ok (.string (right.enterString text).1), (right.enterString text).2)) ∨
    ∃ outcome, Plain outcome ∧ Value.combine operator one other left = (outcome, left) ∧
      Value.combine operator oneToo otherToo right = (outcome, right) := by
  have numbers := first.combineNumbers second operator
  have plain := plain_combineNumbers operator one other
  cases first with
  | string same =>
      cases second with
      | string sameToo =>
          cases operator with
          | add =>
              refine .inl ⟨_, rfl, ?_⟩
              rw [same.stringAt, sameToo.stringAt]
              rfl
          | equal | notEqual =>
              refine .inr ⟨_, plain_boolean _, rfl, ?_⟩
              rw [same.stringAt, sameToo.stringAt]
              rfl
          | _ => exact .inr ⟨_, plain_error _, rfl, rfl⟩
      | integer | decimal | boolean | identifier =>
          exact .inr ⟨_, plain, rfl, congrArg (·, right) numbers.symm⟩
  | boolean value =>
      cases second with
      | boolean valueToo => exact .inr ⟨_, plain_combineBooleans operator value valueToo, rfl, rfl⟩
      | integer | decimal | string | identifier =>
          exact .inr ⟨_, plain, rfl, congrArg (·, right) numbers.symm⟩
  | integer | decimal | identifier =>
      cases second <;> exact .inr ⟨_, plain, rfl, congrArg (·, right) numbers.symm⟩

end Alike

end Value

/-! ## Variables -/

theorem Environment.get?_erase (environment : Environment) (name other : String) :
    (environment.erase name).get? other =
      if other = name then none else environment.get? other := by
  rw [erase, get?, get?]
  induction environment.bindings with
  | nil => simp
  | cons binding later induction =>
      rcases binding with ⟨bound, value⟩
      by_cases erased : bound = name
      · subst erased
        rw [List.filter_cons_of_neg (by simp), induction, List.lookup_cons]
        by_cases same : other = bound
        · rw [if_pos same, if_pos same]
        · rw [if_neg same, if_neg same, beq_false_of_ne same]
      · rw [List.filter_cons_of_pos (by simp [erased]), List.lookup_cons, List.lookup_cons,
          induction]
        by_cases same : other = bound
        · subst same
          rw [if_neg erased, if_neg erased, beq_self_eq_true]
        · rw [beq_false_of_ne same]

theorem Environment.get?_insert (environment : Environment) (name other : String) (value : Value) :
    (environment.insert name value).get? other =
      if other = name then some value else environment.get? other := by
  have erased := environment.get?_erase name other
  rw [get?] at erased
  rw [insert, get?, List.lookup_cons, erased]
  by_cases same : other = name
  · subst same
    rw [if_pos rfl, if_pos rfl, beq_self_eq_true]
  · rw [if_neg same, if_neg same, beq_false_of_ne same]

/-- The same value with the tables of either machine. Whether it is a variable that has not been
looked up yet is known beforehand. -/
structure Value.Given (isName : Bool) (first second : Machine) (one other : Value) : Prop where
  alike : Value.Alike first.symbols second.symbols one other
  isName_iff : one.type = .identifier ↔ isName

/-- No value on either side, or the same one. -/
abbrev Value.Yielded (isName : Bool) (first second : Machine) :
    Option Value → Option Value → Prop :=
  Option.Rel (Value.Given isName first second)

namespace Machine

/-- What the actions of a program can make of a machine. -/
structure Advances (earlier later : Machine) : Prop where
  strings : earlier.symbols.strings.Grows later.symbols.strings
  names : later.symbols.names = earlier.symbols.names
  flushFails : later.console.flushFails = earlier.console.flushFails

theorem Advances.refl (machine : Machine) : machine.Advances machine :=
  ⟨.refl, rfl, rfl⟩

theorem Advances.trans {first second third : Machine} (earlier : first.Advances second)
    (later : second.Advances third) : first.Advances third :=
  ⟨earlier.strings.trans later.strings, later.names.trans earlier.names,
    later.flushFails.trans earlier.flushFails⟩

theorem Advances.grows {earlier later : Machine} (advances : earlier.Advances later) :
    earlier.symbols.Grows later.symbols :=
  ⟨advances.strings, advances.names ▸ .refl⟩

theorem Advances.extends {earlier later : Machine} (advances : earlier.Advances later) :
    earlier.symbols.Extends later.symbols :=
  advances.grows.extends

/-- Machines with the same console and the same variables, where a variable never stands for
another one. -/
structure Alike (first second : Machine) : Prop where
  bindings : ∀ name, Value.Yielded false first second (first.environment.get? name)
    (second.environment.get? name)
  console : first.console = second.console

end Machine

theorem Value.Given.mono {isName : Bool} {first second firstAfter secondAfter : Machine}
    {one other : Value} (given : Given isName first second one other)
    (firstGrown : first.symbols.Extends firstAfter.symbols)
    (secondGrown : second.symbols.Extends secondAfter.symbols) :
    Given isName firstAfter secondAfter one other :=
  ⟨given.alike.mono firstGrown secondGrown, given.isName_iff⟩

/-- Growing tables leave the variables of like machines alike. -/
theorem Machine.Alike.grow {first second : Machine} (alike : first.Alike second)
    {firstSymbols secondSymbols : Symbols} (firstGrown : first.symbols.Extends firstSymbols)
    (secondGrown : second.symbols.Extends secondSymbols) :
    Machine.Alike { first with symbols := firstSymbols }
      { second with symbols := secondSymbols } := by
  refine ⟨?_, alike.console⟩
  intro name
  exact optionRel_imp (alike.bindings name) fun _ _ given => given.mono firstGrown secondGrown

/-! ## Stops -/

def EvalError.move (place : Position → Position) : EvalError → EvalError
  | fault cause position => fault cause (place position)
  | console failure => console failure

def Stop.move (place : Position → Position) : Stop → Stop
  | error failure => error (failure.move place)
  | outOfFuel => outOfFuel

/-! ## Actions -/

theorem Plain.given {outcome : Except EvalError.Cause Value} (plain : Plain outcome)
    {value : Value} (isOk : outcome = .ok value) (first second : Machine) :
    Value.Given false first second value value := by
  rcases plain value isOk with ⟨notString, notName⟩
  refine ⟨?_, by simp [notName]⟩
  cases value with
  | integer value => exact .integer value
  | decimal value => exact .decimal value
  | boolean value => exact .boolean value
  | string handle => exact absurd rfl notString
  | identifier handle => exact absurd rfl notName

theorem Console.flushFails_write (console : Console) (text : String) :
    (console.write text).2.flushFails = console.flushFails := by
  rw [write]
  split
  · rfl
  · split <;> rfl

theorem Console.flushFails_takeLine (console : Console) :
    console.takeLine.2.flushFails = console.flushFails := by
  rw [takeLine]
  split
  · rfl
  · split <;> rfl

namespace Evaluate

/-- Actions start from like machines; they fail in the same way, in the place to which `place`
takes the place of the first. -/
def comparison (place : Position → Position) : Comparison Machine Stop where
  State := Machine.Alike
  Later := Machine.Advances
  Failure first second := second = first.move place
  refl := Machine.Advances.refl
  trans := Machine.Advances.trans

section

variable {place : Position → Position} {left right : Machine} {one oneToo other otherToo : Value}

theorem agree_fail {value : Machine → Machine → α → β → Prop} (cause : EvalError.Cause)
    (position : Position) :
    (comparison place).Agree left right value (fail cause position)
      (fail cause (place position)) :=
  .throw rfl

theorem agree_ofExcept {value : Machine → Machine → α → α → Prop}
    {outcome : Except EvalError.Cause α} (position : Position)
    (related : ∀ result, outcome = .ok result → ∀ here there, value here there result result) :
    (comparison place).Agree left right value (ofExcept position outcome)
      (ofExcept (place position) outcome) := by
  cases outcome with
  | error cause => exact agree_fail cause position
  | ok result => exact .pure fun here there _ _ => related result rfl here there

/-! ### Values -/

theorem agree_enterString (text : String) :
    (comparison place).Agree left right (Value.Given false) (enterString text)
      (enterString text) := by
  apply Comparison.Agree.modifyGet
  intro here there _ _ same
  refine ⟨⟨here.symbols.strings.grows_enter text, rfl, rfl⟩,
    ⟨there.symbols.strings.grows_enter text, rfl, rfl⟩, ?_, ?_⟩
  · exact same.grow (here.symbols.extends_enterString text) (there.symbols.extends_enterString text)
  · exact ⟨.string (sameString_enterString here.symbols there.symbols text), by simp [Value.type]⟩

theorem agree_lookUp {isName : Bool} (given : Value.Given isName left right one other)
    (position : Position) :
    (comparison place).Agree left right (Value.Given false) (lookUp one position)
      (lookUp other (place position)) := by
  have settled (notName : one.type ≠ .identifier) : (comparison place).Agree left right
      (Value.Given false) (pure one) (pure other) := by
    apply Comparison.Agree.pure
    intro here there leftLater rightLater
    exact ⟨given.alike.mono leftLater.extends rightLater.extends, by simp [notName]⟩
  rcases given with ⟨alike, _⟩
  cases alike with
  | integer | decimal | string | boolean => exact settled ValueType.noConfusion
  | @identifier handle handleToo sameName =>
      apply Comparison.Agree.bind Comparison.Agree.get
      rintro _ _ here there leftLater rightLater ⟨rfl, rfl, same⟩
      have name := (sameName.mono leftLater.extends rightLater.extends).nameAt
      have bound := same.bindings (there.symbols.nameAt handleToo)
      simp only [name]
      generalize here.environment.get? _ = found at bound ⊢
      generalize there.environment.get? _ = foundToo at bound ⊢
      cases bound with
      | none => exact agree_fail _ position
      | some given =>
          apply Comparison.Agree.pure
          intro hereAfter thereAfter leftAfter rightAfter
          exact given.mono leftAfter.extends rightAfter.extends

theorem agree_combine (operator : BinaryOperator) (first : Value.Given false left right one oneToo)
    (second : Value.Given false left right other otherToo) (position : Position) :
    (comparison place).Agree left right (Value.Given false) (combine operator one other position)
      (combine operator oneToo otherToo (place position)) := by
  intro here there leftLater rightLater same
  have run (left right : Value) (position : Position) (machine : Machine) :
      (combine operator left right position).run machine =
        (ofExcept position (Value.combine operator left right machine.symbols).1).run
          { machine with symbols := (Value.combine operator left right machine.symbols).2 } := rfl
  rw [run, run]
  rcases (first.alike.mono leftLater.extends rightLater.extends).combine_cases
    (second.alike.mono leftLater.extends rightLater.extends) operator with
    ⟨text, joined, joinedToo⟩ | ⟨outcome, plain, given, givenToo⟩
  · rw [joined, joinedToo]
    exact agree_enterString text here there leftLater rightLater same
  · rw [given, givenToo]
    exact agree_ofExcept position (fun _ isOk => plain.given isOk) here there leftLater rightLater
      same

theorem agree_transform (operator : UnaryOperator) (given : Value.Given false left right one other)
    (position : Position) :
    (comparison place).Agree left right (Value.Given false) (transform operator one position)
      (transform operator other (place position)) := by
  rw [transform, transform, given.alike.transform]
  exact agree_ofExcept position fun _ isOk => (Value.plain_transform operator other).given isOk

/-! ### Variables -/

theorem agree_targetName {isName : Bool} (given : Value.Given isName left right one other)
    (beside : Kind) (position : Position) :
    (comparison place).Agree left right (fun _ _ => Eq) (targetName one beside position)
      (targetName other beside (place position)) := by
  rcases given with ⟨alike, _⟩
  cases alike with
  | integer | decimal | string | boolean => exact agree_fail _ position
  | identifier sameName =>
      apply Comparison.Agree.bind Comparison.Agree.get
      rintro _ _ here there leftLater rightLater ⟨rfl, rfl, _⟩
      have name := (sameName.mono leftLater.extends rightLater.extends).nameAt
      exact .pure fun _ _ _ _ => name

/-- Changes to the variables that keep them alike. -/
theorem agree_modifyEnvironment (change changeToo : Environment → Environment)
    (keeps : ∀ here there, left.Advances here → right.Advances there → here.Alike there →
      ∀ name, Value.Yielded false here there ((change here.environment).get? name)
        ((changeToo there.environment).get? name)) :
    (comparison place).Agree left right (fun _ _ _ _ => True)
      (modify fun machine => { machine with environment := change machine.environment } :
        Evaluate Unit)
      (modify fun machine => { machine with environment := changeToo machine.environment } :
        Evaluate Unit) := by
  apply Comparison.Agree.modifyGet
  intro here there leftLater rightLater same
  refine ⟨⟨.refl, rfl, rfl⟩, ⟨.refl, rfl, rfl⟩, ⟨?_, same.console⟩, trivial⟩
  intro name
  exact optionRel_imp (keeps here there leftLater rightLater same name)
    fun _ _ given => ⟨given.alike, given.isName_iff⟩

theorem agree_assign (name : String) (given : Value.Given false left right one other) :
    (comparison place).Agree left right (fun _ _ _ _ => True) (assign name one)
      (assign name other) := by
  apply agree_modifyEnvironment (·.insert name one) (·.insert name other)
  intro here there leftLater rightLater same selected
  rw [Environment.get?_insert, Environment.get?_insert]
  split
  · exact .some (given.mono leftLater.extends rightLater.extends)
  · exact same.bindings selected

theorem agree_forget (name : String) :
    (comparison place).Agree left right (fun _ _ _ _ => True) (forget name) (forget name) := by
  apply agree_modifyEnvironment (·.erase name) (·.erase name)
  intro here there _ _ same selected
  rw [Environment.get?_erase, Environment.get?_erase]
  split
  · exact .none
  · exact same.bindings selected

/-! ### The console -/

theorem agree_onConsole {action : Console → Except Console.Failure α × Console}
    (keeps : ∀ console, (action console).2.flushFails = console.flushFails) :
    (comparison place).Agree left right (fun _ _ => Eq) (onConsole action) (onConsole action) := by
  have performed : (comparison place).Agree left right (fun _ _ => Eq)
      (modifyGet fun machine : Machine =>
        ((action machine.console).1, { machine with console := (action machine.console).2 }))
      (modifyGet fun machine : Machine =>
        ((action machine.console).1, { machine with console := (action machine.console).2 })) := by
    apply Comparison.Agree.modifyGet
    intro here there _ _ same
    refine ⟨⟨.refl, rfl, keeps _⟩, ⟨.refl, rfl, keeps _⟩, ⟨?_, ?_⟩, ?_⟩
    · intro name
      exact optionRel_imp (same.bindings name) fun _ _ given => ⟨given.alike, given.isName_iff⟩
    · exact congrArg (fun console => (action console).2) same.console
    · exact congrArg (fun console => (action console).1) same.console
  apply Comparison.Agree.bind performed
  intro here there outcome _ _ _ same
  cases same
  cases outcome with
  | error failure => exact .throw rfl
  | ok value => exact .pure fun _ _ _ _ => rfl

theorem agree_printLine (given : Value.Given false left right one other) :
    (comparison place).Agree left right (fun _ _ => Eq) (printLine one) (printLine other) := by
  apply Comparison.Agree.bind Comparison.Agree.get
  rintro _ _ here there leftLater rightLater ⟨rfl, rfl, _⟩
  have text := (given.alike.mono leftLater.extends rightLater.extends).text
  simp only [text]
  exact agree_onConsole fun console => console.flushFails_write _

theorem agree_flush :
    (comparison place).Agree left right (fun _ _ => Eq) flush flush :=
  agree_onConsole fun _ => rfl

theorem agree_inputLine :
    (comparison place).Agree left right (Value.Given false) inputLine inputLine := by
  apply Comparison.Agree.bind (agree_onConsole Console.flushFails_takeLine)
  intro here there line _ _ _ same
  cases same
  exact agree_enterString line

end

end Evaluate

end Scriptlet
