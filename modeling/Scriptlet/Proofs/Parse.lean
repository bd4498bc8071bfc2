import Scriptlet.Tree.Build
import Mathlib

/-! Parsing as a step from symbol tables to symbol tables. -/

namespace Scriptlet.Parse

/-- What a parse gives, and the tables that it leaves. -/
def runFrom (step : Parse α) (symbols : Symbols) : Except SourceError α × Symbols :=
  step.run symbols

@[simp] theorem runFrom_ofExcept (result : Except SourceError α) (symbols : Symbols) :
    (ofExcept result).runFrom symbols = (result, symbols) := rfl

theorem runFrom_bind (step : Parse α) (next : α → Parse β) (symbols : Symbols) :
    (step >>= next).runFrom symbols =
      match step.runFrom symbols with
      | (.ok value, later) => (next value).runFrom later
      | (.error error, later) => (.error error, later) := by
  change ExceptT.bindCont next (step.runFrom symbols).1 (step.runFrom symbols).2 = _
  rcases step.runFrom symbols with ⟨_ | _, _⟩ <;> rfl

theorem runFrom_bind_of_ok {step : Parse α} {symbols later : Symbols} {value : α}
    (first : step.runFrom symbols = (.ok value, later)) (next : α → Parse β) :
    (step >>= next).runFrom symbols = (next value).runFrom later := by
  rw [runFrom_bind, first]

/-- A parse in two steps succeeds exactly if both steps do. -/
theorem runFrom_bind_eq_ok {step : Parse α} {next : α → Parse β} {symbols final : Symbols}
    {value : β} :
    (step >>= next).runFrom symbols = (.ok value, final) ↔
      ∃ middle later, step.runFrom symbols = (.ok middle, later) ∧
        (next middle).runFrom later = (.ok value, final) := by
  rw [runFrom_bind]
  rcases step.runFrom symbols with ⟨_ | middle, later⟩
  · simp
  · constructor
    · intro second
      exact ⟨middle, later, rfl, second⟩
    · rintro ⟨_, _, first, second⟩
      cases first
      exact second

theorem ext_runFrom {step other : Parse α}
    (same : ∀ symbols, step.runFrom symbols = other.runFrom symbols) : step = other :=
  funext same

/-- Only what the first step can give goes into the second. -/
theorem bind_congr_of_ok {step : Parse α} {next other : α → Parse β}
    (same : ∀ value symbols later, step.runFrom symbols = (.ok value, later) →
      next value = other value) : step >>= next = step >>= other := by
  apply ext_runFrom
  intro symbols
  rw [runFrom_bind, runFrom_bind]
  have rest := fun value => same value symbols
  generalize step.runFrom symbols = ending at rest ⊢
  rcases ending with ⟨error | value, later⟩
  · rfl
  · exact congrArg (runFrom · later) (rest value later rfl)

/-! ## Outcomes

What a failed parse leaves in the tables depends on how far it came. Its outcome does not. -/

/-- What a parse gives with the tables that it leaves, or its error. -/
def outcome (step : Parse α) (symbols : Symbols) : Except SourceError (α × Symbols) :=
  match step.runFrom symbols with
  | (.ok value, later) => .ok (value, later)
  | (.error error, _) => .error error

theorem outcome_eq_ok {step : Parse α} {symbols later : Symbols} {value : α} :
    step.outcome symbols = .ok (value, later) ↔ step.runFrom symbols = (.ok value, later) := by
  rw [outcome]
  rcases step.runFrom symbols with ⟨_ | _, _⟩ <;> simp

theorem outcome_eq_error {step : Parse α} {symbols : Symbols} {error : SourceError} :
    step.outcome symbols = .error error ↔
      ∃ later, step.runFrom symbols = (.error error, later) := by
  rw [outcome]
  rcases step.runFrom symbols with ⟨_ | _, _⟩ <;> simp

@[simp] theorem outcome_pure (value : α) (symbols : Symbols) :
    (pure value : Parse α).outcome symbols = .ok (value, symbols) := rfl

@[simp] theorem outcome_fail (cause : SourceError.Cause) (position : Position)
    (symbols : Symbols) :
    (fail cause position : Parse α).outcome symbols = .error ⟨cause, position⟩ := rfl

@[simp] theorem outcome_ofExcept (result : Except SourceError α) (symbols : Symbols) :
    (ofExcept result).outcome symbols = (·, symbols) <$> result := by
  cases result <;> rfl

theorem outcome_bind (step : Parse α) (next : α → Parse β) (symbols : Symbols) :
    (step >>= next).outcome symbols =
      step.outcome symbols >>= fun found => (next found.1).outcome found.2 := by
  rw [outcome, runFrom_bind, outcome]
  rcases step.runFrom symbols with ⟨_ | _, _⟩ <;> rfl

theorem outcome_bind_of_ok {step : Parse α} {symbols later : Symbols} {value : α}
    (first : step.outcome symbols = .ok (value, later)) (next : α → Parse β) :
    (step >>= next).outcome symbols = (next value).outcome later := by
  rw [outcome_bind, first]
  rfl

theorem outcome_bind_eq_ok {step : Parse α} {next : α → Parse β} {symbols final : Symbols}
    {value : β} :
    (step >>= next).outcome symbols = .ok (value, final) ↔
      ∃ middle later, step.outcome symbols = .ok (middle, later) ∧
        (next middle).outcome later = .ok (value, final) := by
  simp only [outcome_eq_ok]
  exact runFrom_bind_eq_ok

end Scriptlet.Parse
