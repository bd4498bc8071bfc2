import Scriptlet.Evaluation.Basic
import Scriptlet.Proofs.Comparison
import Scriptlet.Proofs.Likeness.Basic
import Scriptlet.Proofs.Literal

/-! Arithmetic on integers is exact or fails. Words take the place of unbounded numbers: as long as
every number that comes up fits, the outcome is the same, and otherwise the first node that has no
word to give is reported. -/

namespace Scriptlet

/-! ## Unbounded numbers -/

/-- What an operator makes of two numbers, if it does not divide by zero. Quotients and powers are
rounded toward zero. -/
def BinaryOperator.exactValue? : BinaryOperator → Int → Int → Option Int
  | add, left, right => some (left + right)
  | subtract, left, right => some (left - right)
  | multiply, left, right => some (left * right)
  | divide, left, right => if right = 0 then none else some (left.tdiv right)
  | power, left, right =>
      if left = 0 ∧ right < 0 then none else some (towardZero ((left : ℚ) ^ right))
  | _, _, _ => none

namespace Tree

/-- Literals made of digits, negations, sums, differences, products, quotients and powers. -/
def isArithmetic : Tree → Bool
  | integer text _ => Lexeme.isInteger text.toList
  | unary operator operand _ => operator == .negate && operand.isArithmetic
  | binary operator left right _ =>
      operator.class == .arithmetic && left.isArithmetic && right.isArithmetic
  | _ => false

/-- The value of an arithmetic tree, if nothing in it divides by zero. -/
def exactValue? : Tree → Option Int
  | integer text _ => some (Integer.denoted text)
  | unary .negate operand _ => operand.exactValue?.map (-·)
  | binary operator left right _ => do
      operator.exactValue? (← left.exactValue?) (← right.exactValue?)
  | _ => none

/-- The nodes of an arithmetic tree from left to right, each behind its operands. -/
def subtrees : Tree → List Tree
  | tree@(unary _ operand _) => operand.subtrees ++ [tree]
  | tree@(binary _ left right _) => left.subtrees ++ right.subtrees ++ [tree]
  | tree => [tree]

/-- Whether a node has a value and a word holds it. -/
def fits (node : Tree) : Bool :=
  node.exactValue?.any fun value => Integer.least ≤ value ∧ value ≤ Integer.greatest

/-- What is wrong with a node that does not fit although its operands do. -/
def offence : Tree → EvalError.Cause
  | integer text _ => .invalidLiteral text (.integer .tooLarge)
  | node => if node.exactValue?.isNone then .divisionByZero else .overflow

/-- The node itself, if it does not fit. -/
def selfCulprit? (node : Tree) : Option Tree :=
  if node.fits then none else some node

/-- The first node that does not fit. -/
def culprit? (tree : Tree) : Option Tree :=
  tree.subtrees.find? (!·.fits)

theorem find?_singleton (node : Tree) : [node].find? (!·.fits) = node.selfCulprit? := by
  rw [selfCulprit?, List.find?_singleton]
  cases node.fits <;> rfl

theorem culprit?_integer (text : String) (position : Position) :
    (integer text position).culprit? = (integer text position).selfCulprit? :=
  find?_singleton _

theorem culprit?_unary (operator : UnaryOperator) (operand : Tree) (position : Position) :
    (unary operator operand position).culprit? =
      operand.culprit?.or (unary operator operand position).selfCulprit? := by
  rw [culprit?, subtrees, List.find?_append, find?_singleton, ← culprit?]

theorem culprit?_binary (operator : BinaryOperator) (left right : Tree) (position : Position) :
    (binary operator left right position).culprit? =
      left.culprit?.or
        (right.culprit?.or (binary operator left right position).selfCulprit?) := by
  rw [culprit?, subtrees, List.find?_append, List.find?_append, find?_singleton, ← culprit?,
    ← culprit?, Option.or_assoc]

/-- A node is its own culprit exactly if no word holds its value. -/
theorem selfCulprit?_cases (node : Tree) :
    (∃ word : Integer, node.exactValue? = some word.toInt ∧ node.selfCulprit? = none) ∨
      node.exactValue?.bind Integer.ofInt? = none ∧ node.selfCulprit? = some node := by
  rw [selfCulprit?, fits]
  cases node.exactValue? with
  | none => exact .inr ⟨rfl, rfl⟩
  | some value =>
      cases held : Integer.ofInt? value with
      | some word =>
          have same := Integer.ofInt?_eq_some_iff.mp held
          refine .inl ⟨word, by rw [same], if_pos ?_⟩
          rw [← same]
          exact decide_eq_true word.fits
      | none =>
          refine .inr ⟨held, if_neg ?_⟩
          simpa using Integer.ofInt?_eq_none_iff.mp held

end Tree

/-! ## Words -/

/-- An arithmetic operator on words is the exact one, as far as a word holds what that gives. -/
theorem Value.combineIntegers_eq {operator : BinaryOperator}
    (arithmetic : operator.class = .arithmetic) (left right : Integer) :
    combineIntegers operator left right =
      (operator.exactValue? left.toInt right.toInt).elim (.error .divisionByZero)
        fun value => fitted (Integer.ofInt? value) := by
  cases operator with
  | add | subtract | multiply => rfl
  | divide =>
      rw [combineIntegers, BinaryOperator.exactValue?]
      by_cases zero : right = 0
      · rw [if_pos zero, if_pos (Integer.toInt_eq_zero_iff.mpr zero)]
        rfl
      · rw [if_neg zero, if_neg (mt Integer.toInt_eq_zero_iff.mp zero)]
        rfl
  | power =>
      have undefined : (left.toInt = 0 ∧ right.toInt < 0) ↔ (left = 0 ∧ right < 0) := by
        rw [Integer.toInt_eq_zero_iff, Int64.lt_iff_toInt_lt, Int64.toInt_zero]
      rw [combineIntegers, BinaryOperator.exactValue?]
      by_cases divides : left = 0 ∧ right < 0
      · rw [if_pos divides, if_pos (undefined.mpr divides)]
        rfl
      · rw [if_neg divides, if_neg (mt undefined.mp divides), Integer.power?_eq divides]
        rfl
  | _ => cases arithmetic

/-! ## Evaluation -/

namespace Evaluate

section

variable {step : Evaluate (Option Value)} {machine after : Machine}

theorem run_bind_of_ok {first : Evaluate α} {next : α → Evaluate β} {value : α}
    (ran : first.run machine = (.ok value, after)) :
    (first >>= next).run machine = (next value).run after := by
  rw [Comparison.run_bind, ran]

theorem run_bind_of_error {first : Evaluate α} {next : α → Evaluate β} {stop : Stop}
    (ran : first.run machine = (.error stop, after)) :
    (first >>= next).run machine = (.error stop, after) := by
  rw [Comparison.run_bind, ran]

theorem run_operand_integer {word : Integer}
    (ran : step.run machine = (.ok (some (.integer word)), after)) (position : Position) :
    (operand position step).run machine = (.ok (.integer word), after) := by
  have yields : (required position step).run machine = (.ok (.integer word), after) := by
    rw [required, run_bind_of_ok ran]
    rfl
  rw [operand, run_bind_of_ok yields]
  rfl

theorem run_operand_error {stop : Stop} (ran : step.run machine = (.error stop, after))
    (position : Position) : (operand position step).run machine = (.error stop, after) := by
  rw [operand, required, run_bind_of_error (run_bind_of_error ran)]

end

end Evaluate

/-- What an evaluation comes to: the error of a culprit, or if there is none the word that holds the
exact value. The machine is as it was. -/
def Tree.ComesTo (tree : Tree) (found : Option Tree) (machine : Machine)
    (ending : Except Stop (Option Value) × Machine) : Prop :=
  match found with
  | some culprit => ending = (.error (.error (.fault culprit.offence culprit.position)), machine)
  | none => ∃ word : Integer, tree.exactValue? = some word.toInt ∧
      ending = (.ok (some (.integer word)), machine)

section

variable {machine : Machine}

theorem Tree.comesTo_integer {text : String} (shape : Lexeme.isInteger text.toList)
    (fuel : Nat) (position : Position) :
    ComesTo (.integer text position) (selfCulprit? (.integer text position)) machine
      ((evaluate fuel (.integer text position)).run machine) := by
  rw [evaluate, Integer.read_eq shape]
  rcases selfCulprit?_cases (.integer text position) with ⟨word, same, none⟩ | ⟨unheld, self⟩
  · rw [none]
    refine ⟨word, same, ?_⟩
    rw [Integer.ofInt?_eq_some_iff.mpr (Option.some.inj same).symm]
    rfl
  · have unheld : Integer.ofInt? (Integer.denoted text) = none := unheld
    rw [self, unheld]
    rfl

/-- The last step of an operator, when its operands are words. -/
theorem Tree.comesTo_operator {node : Tree}
    (operator : node.offence = if node.exactValue?.isNone then .divisionByZero else .overflow) :
    node.ComesTo node.selfCulprit? machine
      ((do return some (← Evaluate.ofExcept node.position
        (node.exactValue?.elim (.error .divisionByZero)
          fun value => Value.fitted (Integer.ofInt? value))) : Evaluate (Option Value)).run
        machine) := by
  rcases selfCulprit?_cases node with ⟨word, same, none⟩ | ⟨unheld, self⟩
  · rw [none, same, Option.elim_some, Integer.ofInt?_eq_some_iff.mpr rfl]
    exact ⟨word, same, rfl⟩
  · rw [self]
    cases exactly : node.exactValue? with
    | none =>
        rw [exactly] at operator
        rw [ComesTo, operator]
        rfl
    | some value =>
        rw [exactly] at operator unheld
        rw [ComesTo, operator, Option.elim_some]
        rw [Option.bind_some] at unheld
        rw [unheld]
        rfl

end

/-- Operands are evaluated from left to right, and each of them before its operator, so an
evaluation comes to the first culprit. -/
theorem comesTo_evaluate {tree : Tree} (arithmetic : tree.isArithmetic) (fuel : Nat)
    (machine : Machine) :
    tree.ComesTo tree.culprit? machine ((evaluate fuel tree).run machine) := by
  induction tree using Tree.induction with
  | integer text position =>
      rw [Tree.culprit?_integer]
      exact Tree.comesTo_integer arithmetic fuel position
  | unary operator operand position induction =>
      rw [Tree.isArithmetic, Bool.and_eq_true, beq_iff_eq] at arithmetic
      rcases arithmetic with ⟨rfl, inside⟩
      have operandRan := induction inside
      rw [Tree.culprit?_unary, evaluate]
      cases found : operand.culprit? with
      | some culprit =>
          rw [found] at operandRan
          rw [Evaluate.run_bind_of_error (Evaluate.run_operand_error operandRan _)]
          rfl
      | none =>
          rw [found] at operandRan
          rcases operandRan with ⟨word, same, ran⟩
          have exactly :
              (Tree.unary .negate operand position).exactValue? = some (-word.toInt) := by
            rw [Tree.exactValue?, same]
            rfl
          have last := @Tree.comesTo_operator machine (.unary .negate operand position) rfl
          rw [exactly] at last
          rw [Evaluate.run_bind_of_ok (Evaluate.run_operand_integer ran _)]
          exact last
  | binary operator left right position leftInduction rightInduction =>
      rw [Tree.isArithmetic, Bool.and_eq_true, Bool.and_eq_true, beq_iff_eq] at arithmetic
      rcases arithmetic with ⟨⟨arithmetic, leftInside⟩, rightInside⟩
      have leftRan := leftInduction leftInside
      have rightRan := rightInduction rightInside
      rw [Tree.culprit?_binary, evaluate]
      cases leftFound : left.culprit? with
      | some culprit =>
          rw [leftFound] at leftRan
          rw [Evaluate.run_bind_of_error (Evaluate.run_operand_error leftRan _)]
          rfl
      | none =>
          rw [leftFound] at leftRan
          rcases leftRan with ⟨first, leftSame, leftRan⟩
          rw [Evaluate.run_bind_of_ok (Evaluate.run_operand_integer leftRan _)]
          cases rightFound : right.culprit? with
          | some culprit =>
              rw [rightFound] at rightRan
              rw [Evaluate.run_bind_of_error (Evaluate.run_operand_error rightRan _)]
              rfl
          | none =>
              rw [rightFound] at rightRan
              rcases rightRan with ⟨second, rightSame, rightRan⟩
              have exactly : (Tree.binary operator left right position).exactValue? =
                  operator.exactValue? first.toInt second.toInt := by
                rw [Tree.exactValue?, leftSame, rightSame]
                rfl
              have last := @Tree.comesTo_operator machine (.binary operator left right position) rfl
              rw [exactly, ← Value.combineIntegers_eq arithmetic] at last
              rw [Evaluate.run_bind_of_ok (Evaluate.run_operand_integer rightRan _)]
              exact last
  | _ => cases arithmetic

theorem Tree.fits_of_exactValue {node : Tree} {number : Int}
    (value : node.exactValue? = some number)
    (inside : Integer.least ≤ number ∧ number ≤ Integer.greatest) : node.fits := by
  rw [fits, value]
  exact decide_eq_true inside

/-- An arithmetic tree in which everything fits comes to its exact value. -/
theorem evaluate_of_fits {tree : Tree} (arithmetic : tree.isArithmetic)
    (fit : ∀ node ∈ tree.subtrees, node.fits) {integer : Integer}
    (value : tree.exactValue? = some integer.toInt) (fuel : Nat) (machine : Machine) :
    (evaluate fuel tree).run machine = (.ok (some (.integer integer)), machine) := by
  have ending := comesTo_evaluate arithmetic fuel machine
  have innocent : tree.culprit? = none := by simpa [Tree.culprit?] using fit
  rw [innocent] at ending
  rcases ending with ⟨word, same, ran⟩
  rw [ran, Int64.toInt_inj.mp (Option.some.inj (same.symm.trans value))]

/-- Arithmetic yields the exact value if and only if that of every node fits. Otherwise it fails
where the first node stands that does not fit: with a literal that is too large, a division by zero
or an overflow. In either case the machine is as it was. -/
theorem evaluate_arithmetic {tree : Tree} (arithmetic : tree.isArithmetic) (fuel : Nat)
    (machine : Machine) :
    ((∃ word : Integer, tree.exactValue? = some word.toInt ∧
        ((evaluate fuel tree).run machine).1 = .ok (some (.integer word))) ↔
      ∀ node ∈ tree.subtrees, node.fits) ∧
    (∀ earlier node later, tree.subtrees = earlier ++ node :: later →
      (∀ other ∈ earlier, other.fits) → ¬node.fits →
      ((evaluate fuel tree).run machine).1 =
        .error (.error (.fault node.offence node.position))) ∧
    ((evaluate fuel tree).run machine).2 = machine := by
  have ending := comesTo_evaluate arithmetic fuel machine
  cases found : tree.culprit? with
  | none =>
      have allFit : ∀ node ∈ tree.subtrees, node.fits := by
        simpa [Tree.culprit?] using found
      rw [found] at ending
      rcases ending with ⟨word, same, ran⟩
      rw [ran]
      refine ⟨⟨fun _ => allFit, fun _ => ⟨word, same, rfl⟩⟩, ?_, rfl⟩
      intro earlier node later whole _ offends
      exact absurd (allFit node (by rw [whole]; simp)) offends
  | some culprit =>
      have offends : ¬culprit.fits := by simpa using List.find?_some found
      have member : culprit ∈ tree.subtrees := List.mem_of_find?_eq_some found
      rw [found] at ending
      rw [ending]
      refine ⟨⟨?_, ?_⟩, ?_, rfl⟩
      · rintro ⟨_, _, yields⟩
        cases yields
      · exact fun allFit => absurd (allFit culprit member) offends
      · intro earlier node later whole fit nodeOffends
        have first : tree.culprit? = some node := by
          rw [Tree.culprit?, List.find?_eq_some_iff_append]
          exact ⟨by simpa using nodeOffends, earlier, later, whole, by simpa using fit⟩
        rw [found] at first
        cases first
        rfl

/-- A sum that overflows comes before a division by zero, and the least integer can be computed. -/
theorem evaluate_arithmetic_bounds :
    let greatest := Tree.integer "9223372036854775807" ⟨1, 1⟩
    let one := Tree.integer "1" ⟨1, 23⟩
    let sum := Tree.binary .add greatest one ⟨1, 21⟩
    let quotient := Tree.binary .divide one (.integer "00" ⟨1, 32⟩) ⟨1, 30⟩
    let product := Tree.binary .multiply sum quotient ⟨1, 26⟩
    let least := Tree.binary .subtract (.unary .negate greatest ⟨1, 0⟩) one ⟨1, 21⟩
    product.isArithmetic ∧ least.isArithmetic ∧ (∀ node ∈ least.subtrees, node.fits) ∧
      ((evaluate 0 product).run {}).1 = .error (.error (.fault .overflow ⟨1, 21⟩)) ∧
      ∃ word : Integer, word.toInt = -9223372036854775808 ∧
        ((evaluate 0 least).run {}).1 = .ok (some (.integer word)) := by
  intro greatest one sum quotient product least
  have arithmetic : product.isArithmetic := by decide
  have arithmeticToo : least.isArithmetic := by decide
  have fit : ∀ node ∈ least.subtrees, node.fits := by decide
  rcases (evaluate_arithmetic arithmeticToo 0 {}).1.mpr fit with ⟨word, value, ran⟩
  refine ⟨arithmetic, arithmeticToo, fit, ?_, word, (Option.some.inj value).symm, ran⟩
  exact (evaluate_arithmetic arithmetic 0 {}).2.1 [greatest, one] sum
    [one, .integer "00" ⟨1, 32⟩, quotient, product] rfl (by decide) (by decide)

end Scriptlet
