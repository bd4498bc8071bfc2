import Scriptlet.Proofs.Likeness.Machine
import Scriptlet.Session

/-! Evaluation with other tables. Like trees do the same to like machines: they yield like values or
stop in the same way, and leave like machines. -/

namespace Scriptlet

/-- Whether a tree is a variable. -/
def Tree.isName : Tree → Bool
  | .identifier _ _ => true
  | _ => false

namespace Evaluate

variable {place : Position → Position} {left right : Machine}

/-! ## Operands -/

theorem agree_none {isName : Bool} :
    (comparison place).Agree left right (Value.Yielded isName) (pure none) (pure none) :=
  .pure fun _ _ _ _ => .none

theorem agree_some {isName : Bool} {one other : Value}
    (given : Value.Given isName left right one other) :
    (comparison place).Agree left right (Value.Yielded isName) (pure (some one))
      (pure (some other)) :=
  .pure fun _ _ leftLater rightLater => .some (given.mono leftLater.extends rightLater.extends)

/-- A literal means the same with any tables. -/
theorem agree_literal (outcome : Except EvalError.Cause α) {build : α → Value}
    (plain : ∀ value, Plain (.ok (build value))) (position : Position) :
    (comparison place).Agree left right (Value.Yielded false)
      (ofExcept position outcome >>= fun value => pure (some (build value)))
      (ofExcept (place position) outcome >>= fun value => pure (some (build value))) := by
  have read : (comparison place).Agree left right (fun _ _ => Eq) (ofExcept position outcome)
      (ofExcept (place position) outcome) := agree_ofExcept position fun _ _ _ _ => rfl
  apply Comparison.Agree.bind read
  intro here there value _ _ _ same
  cases same
  exact agree_some ((plain value).given rfl here there)

section

variable {step stepToo : Evaluate (Option Value)} {isName : Bool}
  (agree : (comparison place).Agree left right (Value.Yielded isName) step stepToo)

include agree

theorem agree_required (position : Position) :
    (comparison place).Agree left right (Value.Given isName) (required position step)
      (required (place position) stepToo) := by
  apply Comparison.Agree.bind agree
  intro here there found foundToo _ _ related
  cases related with
  | none => exact agree_fail _ position
  | some given =>
      apply Comparison.Agree.pure
      intro hereAfter thereAfter leftLater rightLater
      exact given.mono leftLater.extends rightLater.extends

theorem agree_operand (position : Position) :
    (comparison place).Agree left right (Value.Given false) (operand position step)
      (operand (place position) stepToo) := by
  apply Comparison.Agree.bind (agree_required agree position)
  intro here there one other _ _ given
  exact agree_lookUp given position

theorem agree_condition (control : Control) (keyword position : Position) :
    (comparison place).Agree left right (fun _ _ => Eq) (condition control keyword position step)
      (condition control (place keyword) (place position) stepToo) := by
  apply Comparison.Agree.bind (agree_operand agree position)
  rintro here there one other _ _ ⟨alike, _⟩
  cases alike with
  | boolean value => exact .pure fun _ _ _ _ => rfl
  | integer | decimal | string | identifier => exact agree_fail _ keyword

theorem agree_command (keyword : Command) (operandPosition position : Position) :
    (comparison place).Agree left right (Value.Yielded false)
      (command keyword operandPosition position step)
      (command keyword (place operandPosition) (place position) stepToo) := by
  cases keyword with
  | print =>
      apply Comparison.Agree.bind (agree_operand agree operandPosition)
      intro here there one other _ _ given
      apply Comparison.Agree.bind (agree_printLine given)
      intro here there _ _ _ _ _
      exact agree_none
  | input =>
      apply Comparison.Agree.bind (agree_operand agree operandPosition)
      intro here there one other _ _ given
      apply Comparison.Agree.bind (agree_printLine given)
      intro here there _ _ _ _ _
      apply Comparison.Agree.bind agree_flush
      intro here there _ _ _ _ _
      apply Comparison.Agree.bind agree_inputLine
      intro here there line lineToo _ _ given
      exact agree_some given
  | delete =>
      apply Comparison.Agree.bind (agree_required agree operandPosition)
      intro here there one other _ _ given
      apply Comparison.Agree.bind (agree_targetName given _ position)
      intro here there name _ _ _ same
      cases same
      apply Comparison.Agree.bind (agree_forget name)
      intro here there _ _ _ _ _
      exact agree_none

end

/-! ## Loops -/

/-- A loop tests its condition and then, if it holds, runs its body and goes on. -/
theorem loop_succ (holds : Evaluate Bool) (body : Evaluate Unit) (fuel : Nat) :
    @Eq (Evaluate Unit) (loop holds body (fuel + 1))
      (holds >>= fun continues =>
        if continues then body >>= fun _ => loop holds body fuel else pure ()) := by
  funext machine
  change _ = (holds >>= fun continues => _).run machine
  rw [loop, Comparison.run_bind]
  rcases holds.run machine with ⟨_ | _ | _, after⟩
  · rfl
  · rfl
  · simp only [if_true, Comparison.run_bind]
    rcases body.run after with ⟨_ | _, final⟩ <;> rfl

/-- Loops agree in any comparison in which their conditions and their bodies do. -/
theorem agree_loop {comparison : Comparison Machine Stop}
    (spent : comparison.Failure .outOfFuel .outOfFuel) {holds holdsToo : Evaluate Bool}
    {body bodyToo : Evaluate Unit}
    (agreeHolds : comparison.Agree left right (fun _ _ => Eq) holds holdsToo)
    (agreeBody : comparison.Agree left right (fun _ _ _ _ => True) body bodyToo) (fuel : Nat) :
    comparison.Agree left right (fun _ _ _ _ => True) (loop holds body fuel)
      (loop holdsToo bodyToo fuel) := by
  -- Both loops count the same tests, so they run out of fuel together.
  induction fuel generalizing left right with
  | zero => exact .throw spent
  | succ fuel induction =>
      rw [loop_succ, loop_succ]
      apply Comparison.Agree.bind agreeHolds
      intro here there continues _ leftLater rightLater same
      cases same
      cases continues with
      | false => exact .pure fun _ _ _ _ => trivial
      | true =>
          apply Comparison.Agree.bind (agreeBody.later leftLater rightLater)
          intro hereAfter thereAfter _ _ leftAfter rightAfter _
          have leftEnd := comparison.trans leftLater leftAfter
          have rightEnd := comparison.trans rightLater rightAfter
          exact induction (agreeHolds.later leftEnd rightEnd) (agreeBody.later leftEnd rightEnd)

end Evaluate

/-! ## Trees -/

section

variable {place : Position → Position} {left right : Machine}

/-- Like statements agree if each of them does. -/
theorem agree_evaluateAll (fuel : Nat) {body bodyToo : List Tree}
    (alike : Tree.AllAlike place left.symbols right.symbols body bodyToo)
    (each : ∀ statement ∈ body, ∀ here there statementToo,
      Tree.Alike place here.symbols there.symbols statement statementToo →
      (Evaluate.comparison place).Agree here there (Value.Yielded statement.isName)
        (evaluate fuel statement) (evaluate fuel statementToo)) :
    (Evaluate.comparison place).Agree left right (fun _ _ _ _ => True) (evaluateAll fuel body)
      (evaluateAll fuel bodyToo) := by
  induction body generalizing left right bodyToo with
  | nil =>
      cases alike
      rw [evaluateAll]
      exact .pure fun _ _ _ _ => trivial
  | cons statement later induction =>
      cases alike with
      | cons first others =>
          rw [evaluateAll, evaluateAll]
          apply Comparison.Agree.bind
            (each statement List.mem_cons_self left right _ first)
          intro here there _ _ leftLater rightLater _
          apply induction (Tree.AllAlike.mono others leftLater.extends rightLater.extends)
          intro statement member
          exact each statement (List.mem_cons_of_mem _ member)

theorem agree_evaluate (fuel : Nat) {tree treeToo : Tree}
    (alike : Tree.Alike place left.symbols right.symbols tree treeToo) :
    (Evaluate.comparison place).Agree left right (Value.Yielded tree.isName) (evaluate fuel tree)
      (evaluate fuel treeToo) := by
  induction tree using Tree.induction generalizing left right treeToo with
  | integer text position =>
      cases alike
      rw [evaluate, evaluate]
      exact Evaluate.agree_literal _ plain_integer position
  | decimal text position =>
      cases alike
      rw [evaluate, evaluate]
      exact Evaluate.agree_literal _ plain_decimal position
  | string handle position =>
      cases alike with
      | string same =>
          rw [evaluate, evaluate]
          exact Evaluate.agree_some ⟨.string same, by simp [Value.type, Tree.isName]⟩
  | boolean value position =>
      cases alike
      rw [evaluate, evaluate]
      exact Evaluate.agree_some ⟨.boolean value, by simp [Value.type, Tree.isName]⟩
  | identifier handle position =>
      cases alike with
      | identifier same =>
          rw [evaluate, evaluate]
          exact Evaluate.agree_some ⟨.identifier same, by simp [Value.type, Tree.isName]⟩
  | binary operator one other position oneInduction otherInduction =>
      cases alike with
      | binary _ _ oneAlike otherAlike =>
          rw [evaluate, evaluate, oneAlike.position, otherAlike.position]
          apply Comparison.Agree.bind (Evaluate.agree_operand (oneInduction oneAlike) _)
          intro here there first firstToo leftLater rightLater firstGiven
          apply Comparison.Agree.bind (Evaluate.agree_operand
            (otherInduction (otherAlike.mono leftLater.extends rightLater.extends)) _)
          intro hereThen thereThen second secondToo leftThen rightThen secondGiven
          apply Comparison.Agree.bind (Evaluate.agree_combine operator
            (firstGiven.mono leftThen.extends rightThen.extends) secondGiven position)
          intro hereLast thereLast result resultToo _ _ given
          exact Evaluate.agree_some given
  | unary operator operand position induction =>
      cases alike with
      | unary _ _ alike =>
          rw [evaluate, evaluate, alike.position]
          apply Comparison.Agree.bind (Evaluate.agree_operand (induction alike) _)
          intro here there value valueToo _ _ valueGiven
          apply Comparison.Agree.bind (Evaluate.agree_transform operator valueGiven position)
          intro hereThen thereThen result resultToo _ _ given
          exact Evaluate.agree_some given
  | assign target value position targetInduction valueInduction =>
      cases alike with
      | assign _ targetAlike valueAlike =>
          rw [evaluate, evaluate, targetAlike.position, valueAlike.position]
          apply Comparison.Agree.bind (Evaluate.agree_required (targetInduction targetAlike) _)
          intro here there slot slotToo leftLater rightLater slotGiven
          apply Comparison.Agree.bind (Evaluate.agree_operand
            (valueInduction (valueAlike.mono leftLater.extends rightLater.extends)) _)
          intro hereThen thereThen bound boundToo leftThen rightThen boundGiven
          apply Comparison.Agree.bind (Evaluate.agree_targetName
            (slotGiven.mono leftThen.extends rightThen.extends) _ position)
          intro hereNext thereNext name _ leftNext rightNext same
          cases same
          apply Comparison.Agree.bind (Evaluate.agree_assign name
            (boundGiven.mono leftNext.extends rightNext.extends))
          intro hereLast thereLast _ _ _ _ _
          exact Evaluate.agree_none
  | command keyword operand position induction =>
      cases alike with
      | command _ _ alike =>
          rw [evaluate, evaluate, alike.position]
          exact Evaluate.agree_command (induction alike) keyword _ position
  | control keyword condition body position conditionInduction bodyInduction =>
      cases alike with
      | control _ _ conditionAlike bodyAlike =>
          have holds := Evaluate.agree_condition (conditionInduction conditionAlike) keyword
            position condition.position
          have each := fun statement member here there statementToo =>
            @bodyInduction statement member here there statementToo
          cases keyword with
          | conditional =>
              rw [evaluate, evaluate, conditionAlike.position]
              apply Comparison.Agree.bind holds
              intro here there continues _ leftLater rightLater same
              cases same
              cases continues with
              | false => exact Evaluate.agree_none
              | true =>
                  apply Comparison.Agree.bind (agree_evaluateAll fuel
                    (Tree.AllAlike.mono bodyAlike leftLater.extends rightLater.extends) each)
                  intro hereLast thereLast _ _ _ _ _
                  exact Evaluate.agree_none
          | loop =>
              rw [evaluate, evaluate, conditionAlike.position]
              apply Comparison.Agree.bind
                (Evaluate.agree_loop rfl holds (agree_evaluateAll fuel bodyAlike each) fuel)
              intro hereLast thereLast _ _ _ _ _
              exact Evaluate.agree_none

end

end Scriptlet
