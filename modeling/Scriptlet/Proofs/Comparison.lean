import Mathlib

/-! Two computations side by side. Each changes a state of its own and may fail; they are compared
step by step, from states that count as the same to states that count as the same. -/

namespace Scriptlet

/-- What two computations are compared by: which states and which failures count as the same, and
what a step may make of a state. -/
structure Comparison (σ ε : Type) where
  State : σ → σ → Prop
  Later : σ → σ → Prop
  Failure : ε → ε → Prop
  refl : ∀ state, Later state state
  trans : ∀ {first second third}, Later first second → Later second third → Later first third

namespace Comparison

variable {σ ε α β γ δ : Type} (comparison : Comparison σ ε)

/-- How two computations that started in `left` and in `right` ended: both failed in the same way,
or both gave values, which are related in the states that they left. -/
inductive Outcome (value : σ → σ → α → β → Prop) (left right : σ) :
    Except ε α × σ → Except ε β × σ → Prop where
  | ok {first : α} {second : β} {leftAfter rightAfter : σ}
      (leftLater : comparison.Later left leftAfter)
      (rightLater : comparison.Later right rightAfter)
      (same : comparison.State leftAfter rightAfter)
      (related : value leftAfter rightAfter first second) :
      Outcome value left right (.ok first, leftAfter) (.ok second, rightAfter)
  | error {first second : ε} {leftAfter rightAfter : σ}
      (leftLater : comparison.Later left leftAfter)
      (rightLater : comparison.Later right rightAfter)
      (same : comparison.State leftAfter rightAfter)
      (failed : comparison.Failure first second) :
      Outcome value left right (.error first, leftAfter) (.error second, rightAfter)

/-- Two computations end alike wherever they start at or after the given states. -/
def Agree (left right : σ) (value : σ → σ → α → β → Prop)
    (first : ExceptT ε (StateM σ) α) (second : ExceptT ε (StateM σ) β) : Prop :=
  ∀ here there, comparison.Later left here → comparison.Later right there →
    comparison.State here there →
    comparison.Outcome value here there (first.run here) (second.run there)

variable {comparison} {left right : σ} {value : σ → σ → α → β → Prop}
  {further : σ → σ → γ → δ → Prop}

theorem Outcome.trans {here there : σ} (leftLater : comparison.Later left here)
    (rightLater : comparison.Later right there) {first : Except ε α × σ} {second : Except ε β × σ}
    (outcome : comparison.Outcome value here there first second) :
    comparison.Outcome value left right first second := by
  cases outcome with
  | ok leftAfter rightAfter same related =>
      exact .ok (comparison.trans leftLater leftAfter) (comparison.trans rightLater rightAfter)
        same related
  | error leftAfter rightAfter same failed =>
      exact .error (comparison.trans leftLater leftAfter)
        (comparison.trans rightLater rightAfter) same failed

/-- What is related to itself before a computation is so after it. -/
theorem Outcome.self {value : σ → σ → α → α → Prop} {here : σ} {ending : Except ε α × σ}
    (outcome : comparison.Outcome value here here ending ending) :
    comparison.Later here ending.2 ∧ comparison.State ending.2 ending.2 ∧
      ∀ result, ending.1 = .ok result → value ending.2 ending.2 result result := by
  generalize same : ending = other at outcome
  cases outcome with
  | ok later _ state related =>
      cases same
      refine ⟨later, state, ?_⟩
      intro result isOk
      cases isOk
      exact related
  | error later _ state _ =>
      cases same
      refine ⟨later, state, ?_⟩
      intro result isOk
      cases isOk

theorem run_bind (step : ExceptT ε (StateM σ) α) (next : α → ExceptT ε (StateM σ) γ) (state : σ) :
    (step >>= next).run state =
      match step.run state with
      | (.ok value, later) => (next value).run later
      | (.error error, later) => (.error error, later) := by
  change ExceptT.bindCont next (step.run state).1 (step.run state).2 = _
  rcases step.run state with ⟨_ | _, _⟩ <;> rfl

namespace Agree

/-- What agrees from some states on agrees from later ones on. -/
theorem later {first : ExceptT ε (StateM σ) α} {second : ExceptT ε (StateM σ) β}
    (agree : comparison.Agree left right value first second) {here there : σ}
    (leftLater : comparison.Later left here) (rightLater : comparison.Later right there) :
    comparison.Agree here there value first second :=
  fun _ _ leftAfter rightAfter same => agree _ _ (comparison.trans leftLater leftAfter)
    (comparison.trans rightLater rightAfter) same

theorem imp {weaker : σ → σ → α → β → Prop} {first : ExceptT ε (StateM σ) α}
    {second : ExceptT ε (StateM σ) β} (agree : comparison.Agree left right value first second)
    (implies : ∀ here there one other, value here there one other → weaker here there one other) :
    comparison.Agree left right weaker first second := by
  intro here there leftLater rightLater same
  have ended := agree here there leftLater rightLater same
  generalize first.run here = one at ended ⊢
  generalize second.run there = other at ended ⊢
  cases ended with
  | ok leftAfter rightAfter after related =>
      exact .ok leftAfter rightAfter after (implies _ _ _ _ related)
  | error leftAfter rightAfter after failed => exact .error leftAfter rightAfter after failed

theorem pure {first : α} {second : β}
    (related : ∀ here there, comparison.Later left here → comparison.Later right there →
      value here there first second) :
    comparison.Agree left right value (Pure.pure first) (Pure.pure second) :=
  fun here there leftLater rightLater same =>
    .ok (comparison.refl here) (comparison.refl there) same
      (related here there leftLater rightLater)

theorem throw {first second : ε} (failed : comparison.Failure first second) :
    comparison.Agree left right value (throw first) (throw second) :=
  fun here there _ _ same => .error (comparison.refl here) (comparison.refl there) same failed

/-- Looking at the states shows two that count as the same. -/
theorem get : comparison.Agree left right
    (fun here there one other => one = here ∧ other = there ∧ comparison.State here there)
    (MonadState.get : ExceptT ε (StateM σ) σ) (MonadState.get : ExceptT ε (StateM σ) σ) :=
  fun here there _ _ same =>
    .ok (comparison.refl here) (comparison.refl there) same ⟨rfl, rfl, same⟩

theorem modifyGet {change : σ → α × σ} {changeToo : σ → β × σ}
    (agree : ∀ here there, comparison.Later left here → comparison.Later right there →
      comparison.State here there →
      comparison.Later here (change here).2 ∧ comparison.Later there (changeToo there).2 ∧
        comparison.State (change here).2 (changeToo there).2 ∧
        value (change here).2 (changeToo there).2 (change here).1 (changeToo there).1) :
    comparison.Agree left right value (modifyGet change : ExceptT ε (StateM σ) α)
      (modifyGet changeToo : ExceptT ε (StateM σ) β) := by
  intro here there leftLater rightLater same
  rcases agree here there leftLater rightLater same with ⟨leftAfter, rightAfter, after, related⟩
  exact .ok leftAfter rightAfter after related

/-- Steps that agree do so one after the other. -/
theorem bind {first : ExceptT ε (StateM σ) α} {second : ExceptT ε (StateM σ) β}
    {next : α → ExceptT ε (StateM σ) γ} {nextToo : β → ExceptT ε (StateM σ) δ}
    (agree : comparison.Agree left right value first second)
    (following : ∀ here there one other, comparison.Later left here →
      comparison.Later right there → value here there one other →
      comparison.Agree here there further (next one) (nextToo other)) :
    comparison.Agree left right further (first >>= next) (second >>= nextToo) := by
  intro here there leftLater rightLater same
  have start := agree here there leftLater rightLater same
  rw [run_bind, run_bind]
  generalize first.run here = one at start ⊢
  generalize second.run there = other at start ⊢
  cases start with
  | ok leftAfter rightAfter sameAfter related =>
      have rest := following _ _ _ _ (comparison.trans leftLater leftAfter)
        (comparison.trans rightLater rightAfter) related
      exact (rest _ _ (comparison.refl _) (comparison.refl _) sameAfter).trans leftAfter rightAfter
  | error leftAfter rightAfter sameAfter failed =>
      exact .error leftAfter rightAfter sameAfter failed

section

variable (stays : ∀ {here there hereAfter thereAfter one other},
  comparison.Later here hereAfter → comparison.Later there thereAfter →
  value here there one other → value hereAfter thereAfter one other)

include stays

theorem foldlM {ι : Type} {items : List ι} {step : α → ι → ExceptT ε (StateM σ) α}
    {stepToo : β → ι → ExceptT ε (StateM σ) β}
    (agree : ∀ here there one other item, value here there one other →
      comparison.Agree here there value (step one item) (stepToo other item))
    {first : α} {second : β} (related : value left right first second) :
    comparison.Agree left right value (items.foldlM step first) (items.foldlM stepToo second) := by
  induction items generalizing left right first second with
  | nil => exact .pure fun here there leftLater rightLater => stays leftLater rightLater related
  | cons item later induction =>
      rw [List.foldlM_cons, List.foldlM_cons]
      apply bind (agree left right first second item related)
      intro here there one other _ _ relatedAfter
      exact induction relatedAfter

theorem mapM {ι : Type} {items : List ι} {step : ι → ExceptT ε (StateM σ) α}
    {stepToo : ι → ExceptT ε (StateM σ) β}
    (agree : ∀ here there item, comparison.Agree here there value (step item) (stepToo item)) :
    comparison.Agree left right (fun here there => List.Forall₂ (value here there))
      (items.mapM step) (items.mapM stepToo) := by
  induction items generalizing left right with
  | nil => exact .pure fun _ _ _ _ => .nil
  | cons item later induction =>
      rw [List.mapM_cons, List.mapM_cons]
      apply bind (agree left right item)
      intro here there one other _ _ related
      apply bind induction
      intro hereAfter thereAfter ones others leftLater rightLater rest
      apply Agree.pure
      intro final finalToo finalLater finalTooLater
      refine .cons ?_ ?_
      · exact stays (comparison.trans leftLater finalLater)
          (comparison.trans rightLater finalTooLater) related
      · exact rest.imp fun _ _ => stays finalLater finalTooLater

end

end Agree

end Comparison

end Scriptlet
