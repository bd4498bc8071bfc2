import Scriptlet.Proofs.Comparison

/-! What a computation can be relied on for: what it keeps of the state, what it gives, and what it
fails with. -/

namespace Scriptlet

variable {σ ε α β : Type}

/-- What is given or failed with. -/
def Settles (gives : α → Prop) (fails : ε → Prop) : Except ε α → Prop
  | .ok value => gives value
  | .error error => fails error

/-- From every state of which `keeps` holds, a computation leads to such a state again, and settles
as it should. -/
def Meets (keeps : σ → Prop) (gives : α → Prop) (fails : ε → Prop)
    (step : ExceptT ε (StateM σ) α) : Prop :=
  ∀ state, keeps state → keeps (step.run state).2 ∧ Settles gives fails (step.run state).1

section

variable {gives : α → Prop} {further : β → Prop} {fails : ε → Prop}

theorem Settles.bind {result : Except ε α} {next : α → Except ε β}
    (first : Settles gives fails result)
    (following : ∀ value, gives value → Settles further fails (next value)) :
    Settles further fails (result >>= next) := by
  cases result with
  | error => exact first
  | ok value => exact following value first

theorem Settles.imp {other : α → Prop} {result : Except ε α}
    (settles : Settles gives fails result) (implies : ∀ value, gives value → other value) :
    Settles other fails result := by
  cases result with
  | error => exact settles
  | ok value => exact implies value settles

theorem Settles.weaken {others : ε → Prop} {result : Except ε α}
    (settles : Settles gives fails result) (implies : ∀ error, fails error → others error) :
    Settles gives others result := by
  cases result with
  | error error => exact implies error settles
  | ok => exact settles

namespace Meets

variable {keeps : σ → Prop}

theorem pure {value : α} (given : gives value) :
    Meets keeps gives fails (pure value : ExceptT ε (StateM σ) α) :=
  fun _ kept => ⟨kept, given⟩

theorem throw {error : ε} (failed : fails error) :
    Meets keeps gives fails (throw error : ExceptT ε (StateM σ) α) :=
  fun _ kept => ⟨kept, failed⟩

theorem bind {step : ExceptT ε (StateM σ) α} {next : α → ExceptT ε (StateM σ) β}
    (first : Meets keeps gives fails step)
    (following : ∀ value, gives value → Meets keeps further fails (next value)) :
    Meets keeps further fails (step >>= next) := by
  intro state kept
  have ends := first state kept
  rw [Comparison.run_bind]
  generalize step.run state = ending at ends ⊢
  rcases ending with ⟨_ | value, middle⟩
  · exact ends
  · exact following value ends.2 middle ends.1

theorem imp {other : α → Prop} {step : ExceptT ε (StateM σ) α}
    (meets : Meets keeps gives fails step) (implies : ∀ value, gives value → other value) :
    Meets keeps other fails step :=
  fun state kept => (meets state kept).imp_right fun settles => settles.imp implies

theorem weaken {others : ε → Prop} {step : ExceptT ε (StateM σ) α}
    (meets : Meets keeps gives fails step) (implies : ∀ error, fails error → others error) :
    Meets keeps gives others step :=
  fun state kept => (meets state kept).imp_right fun settles => settles.weaken implies

end Meets

end

end Scriptlet
