import Scriptlet.Proofs.Comparison
import Scriptlet.Proofs.InOrder
import Scriptlet.Proofs.Likeness.Basic

/-! Parsing with other tables. What a source says does not depend on what was entered before it:
from any two pairs of tables it gives like statements, or the same fault. -/

namespace Scriptlet

/-! ## Single steps -/

/-- Parses may start from any two tables, and only add to them. -/
def Parse.comparison : Comparison Symbols SourceError where
  State _ _ := True
  Later := Symbols.Grows
  Failure := Eq
  refl := Symbols.Grows.refl
  trans := Symbols.Grows.trans

section

variable {left right : Symbols}

theorem Parse.agree_fail {value : Symbols → Symbols → α → β → Prop} (cause : SourceError.Cause)
    (position : Position) :
    comparison.Agree left right value (fail cause position) (fail cause position) :=
  .throw rfl

theorem Parse.agree_ofExcept (result : Except SourceError α) :
    comparison.Agree left right (fun _ _ => Eq) (ofExcept result) (ofExcept result) := by
  cases result with
  | error error => exact .throw rfl
  | ok value => exact .pure fun _ _ _ _ => rfl

/-! ## Nodes -/

theorem Token.alike_leaf (token : Token) (left right : Symbols) :
    Tree.Alike id (token.leaf left).2 (token.leaf right).2 (token.leaf left).1
      (token.leaf right).1 := by
  rw [leaf, leaf]
  split
  · exact .integer token.text token.position
  · exact .decimal token.text token.position
  · exact .string (sameString_enterString left right token.text) token.position
  · exact .identifier (sameName_enterName left right token.text) token.position
  · exact .boolean (token.text == "true") token.position

theorem Token.alike_over (operator : Token) {operand operandToo : Tree}
    (alike : Tree.Alike id left right operand operandToo) :
    Tree.Alike id left right (operator.over operand) (operator.over operandToo) := by
  rw [Token.over, Token.over]
  split
  · exact .command _ operator.position alike
  · exact .unary _ operator.position alike
  · exact alike

theorem Token.alike_between (operator : Token) {one other oneToo otherToo : Tree}
    (leftAlike : Tree.Alike id left right one oneToo)
    (rightAlike : Tree.Alike id left right other otherToo) :
    Tree.Alike id left right (operator.between one other) (operator.between oneToo otherToo) := by
  rw [between, between]
  split
  · exact .binary _ operator.position leftAlike rightAlike
  · exact .assign operator.position leftAlike rightAlike

/-! ## Operands -/

structure Operand.Alike (left right : Symbols) (first second : Operand) : Prop where
  tree : Tree.Alike id left right first.tree second.tree
  depth : first.depth = second.depth

theorem Operand.Alike.mono {first second : Operand} (alike : Alike left right first second)
    {leftAfter rightAfter : Symbols} (leftGrown : left.Grows leftAfter)
    (rightGrown : right.Grows rightAfter) : Alike leftAfter rightAfter first second :=
  ⟨alike.tree.mono leftGrown.extends rightGrown.extends, alike.depth⟩

theorem Operand.agree_combine (limit below : Nat) {tree treeToo : Tree}
    (alike : Tree.Alike id left right tree treeToo) :
    Parse.comparison.Agree left right Operand.Alike (combine limit below tree)
      (combine limit below treeToo) := by
  rw [combine, combine, alike.position]
  split
  · exact Parse.agree_fail _ _
  · apply Comparison.Agree.pure
    intro here there leftLater rightLater
    exact ⟨alike.mono leftLater.extends rightLater.extends, rfl⟩

/-- A token does the same to like operands. -/
theorem agree_absorb (limit : Nat) (token : Token) {operands operandsToo : List Operand}
    (alike : List.Forall₂ (Operand.Alike left right) operands operandsToo) :
    Parse.comparison.Agree left right (fun here there => List.Forall₂ (Operand.Alike here there))
      (absorb limit operands token) (absorb limit operandsToo token) := by
  -- The operands below the new one were alike in earlier tables and stay so.
  have below {above aboveToo : Operand} {rest restToo : List Operand} {here there : Symbols}
      (leftLater : left.Grows here) (rightLater : right.Grows there)
      (first : Operand.Alike here there above aboveToo)
      (others : List.Forall₂ (Operand.Alike left right) rest restToo) :
      Parse.comparison.Agree here there
        (fun here there => List.Forall₂ (Operand.Alike here there))
        (pure (above :: rest)) (pure (aboveToo :: restToo)) := by
    apply Comparison.Agree.pure
    intro hereAfter thereAfter leftAfter rightAfter
    refine .cons (first.mono leftAfter rightAfter) ?_
    exact others.imp fun _ _ alike =>
      alike.mono (leftLater.trans leftAfter) (rightLater.trans rightAfter)
  by_cases isOperand : token.kind.isOperand
  · intro here there leftLater rightLater _
    have one := absorb_operand isOperand limit operands here
    have other := absorb_operand isOperand limit operandsToo there
    rw [Parse.runFrom] at one other
    rw [one, other]
    refine .ok (token.grows_leaf here) (token.grows_leaf there) trivial (.cons ?_ ?_)
    · exact ⟨token.alike_leaf here there, rfl⟩
    · exact alike.imp fun _ _ alike => alike.mono (leftLater.trans (token.grows_leaf here))
        (rightLater.trans (token.grows_leaf there))
  by_cases isUnary : token.kind.isUnary
  · cases alike with
    | nil =>
        rw [absorb_unary_nil isUnary]
        exact Parse.agree_fail _ _
    | cons first others =>
        rw [absorb_unary_cons isUnary, absorb_unary_cons isUnary, first.depth]
        apply Comparison.Agree.bind (Operand.agree_combine limit _ (token.alike_over first.tree))
        intro here there one other leftLater rightLater combined
        exact below leftLater rightLater combined others
  by_cases isBinary : token.kind.isBinary
  · match alike with
    | .nil =>
        rw [absorb_binary_short isBinary limit (by simp)]
        exact Parse.agree_fail _ _
    | .cons _ .nil =>
        rw [absorb_binary_short isBinary limit (by simp),
          absorb_binary_short isBinary limit (by simp)]
        exact Parse.agree_fail _ _
    | .cons second (.cons first others) =>
        rw [absorb_binary_cons isBinary, absorb_binary_cons isBinary, first.depth, second.depth]
        apply Comparison.Agree.bind
          (Operand.agree_combine limit _ (token.alike_between first.tree second.tree))
        intro here there one other leftLater rightLater combined
        exact below leftLater rightLater combined others
  · have other (operands : List Operand) := absorb_other (by simpa using isOperand)
      (by simpa using isUnary) (by simpa using isBinary) limit operands
    rw [other, other]
    exact Parse.agree_fail _ _

/-! ## Statements -/

theorem agree_completeStatement {operands operandsToo : List Operand}
    (alike : List.Forall₂ (Operand.Alike left right) operands operandsToo) :
    Parse.comparison.Agree left right (fun here there => Option.Rel (Tree.Alike id here there))
      (completeStatement operands) (completeStatement operandsToo) := by
  have reversed := List.forall₂_reverse_iff.mpr alike
  rw [completeStatement, completeStatement]
  generalize operands.reverse = inOrder at reversed
  generalize operandsToo.reverse = inOrderToo at reversed
  rcases reversed with _ | ⟨only, _ | ⟨extra, _⟩⟩
  · exact .pure fun _ _ _ _ => .none
  · apply Comparison.Agree.pure
    intro here there leftLater rightLater
    exact .some (only.mono leftLater rightLater).tree
  · change Parse.comparison.Agree left right _ (Parse.fail _ _) (Parse.fail _ _)
    rw [extra.tree.position]
    exact Parse.agree_fail _ _

theorem agree_statementTree (limit : Nat) (run : List Token) :
    Parse.comparison.Agree left right (fun here there => Option.Rel (Tree.Alike id here there))
      (statementTree limit run) (statementTree limit run) := by
  have absorbed : Parse.comparison.Agree left right
      (fun here there => List.Forall₂ (Operand.Alike here there))
      (run.foldlM (absorb limit) []) (run.foldlM (absorb limit) []) := by
    apply Comparison.Agree.foldlM
    · intro here there hereAfter thereAfter one other leftLater rightLater alike
      exact alike.imp fun _ _ alike => alike.mono leftLater rightLater
    · intro here there one other token alike
      exact agree_absorb limit token alike
    · exact .nil
  apply Comparison.Agree.bind absorbed
  intro here there one other _ _ alike
  exact agree_completeStatement alike

theorem forall₂_reduceOption {related : α → β → Prop} {items : List (Option α)}
    {others : List (Option β)} (each : List.Forall₂ (Option.Rel related) items others) :
    List.Forall₂ related items.reduceOption others.reduceOption := by
  induction each with
  | nil => exact .nil
  | cons first _ induction =>
      cases first with
      | none => exact induction
      | some first => exact .cons first induction

theorem agree_straightStatements (limit : Nat) (tokens : List Token) :
    Parse.comparison.Agree left right (Tree.AllAlike id)
      (straightStatements limit tokens) (straightStatements limit tokens) := by
  rw [straightStatements_eq]
  apply Comparison.Agree.bind (Parse.agree_ofExcept _)
  intro here there runs _ _ _ same
  cases same
  have built : Parse.comparison.Agree here there
      (fun here there => List.Forall₂ (Option.Rel (Tree.Alike id here there)))
      (runs.mapM (statementTree limit)) (runs.mapM (statementTree limit)) := by
    apply Comparison.Agree.mapM
    · intro here there hereAfter thereAfter one other leftLater rightLater alike
      exact optionRel_imp alike fun _ _ alike => alike.mono leftLater.extends rightLater.extends
    · intro here there run
      exact agree_statementTree limit run
  apply Comparison.Agree.bind built
  intro here there statements statementsToo _ _ alike
  apply Comparison.Agree.pure
  intro hereAfter thereAfter leftLater rightLater
  have statementsAlike : Tree.AllAlike id here there _ _ := forall₂_reduceOption alike
  exact statementsAlike.mono leftLater.extends rightLater.extends

/-! ## Blocks -/

theorem agree_soleCondition (limit : Nat) (keyword : Token) (tokens : List Token) :
    Parse.comparison.Agree left right (Tree.Alike id) (soleCondition limit keyword tokens)
      (soleCondition limit keyword tokens) := by
  apply Comparison.Agree.bind (agree_straightStatements limit tokens)
  intro here there statements statementsToo _ _ alike
  match alike with
  | .nil => exact Parse.agree_fail _ _
  | .cons only .nil =>
      apply Comparison.Agree.pure
      intro hereAfter thereAfter leftLater rightLater
      exact only.mono leftLater.extends rightLater.extends
  | .cons _ (.cons _ _) => exact Parse.agree_fail _ _

theorem agree_governed (limit depth : Nat) (keyword : Token) (after : List Token)
    (agree : ∀ block, block.length < after.length → ∀ left right,
      Parse.comparison.Agree left right (Tree.AllAlike id)
        (statementsOf limit (depth + 1) block) (statementsOf limit (depth + 1) block)) :
    Parse.comparison.Agree left right
      (fun here there one other => Tree.Alike id here there one.1 other.1 ∧ one.2 = other.2 ∧
        one.2.length < after.length)
      (governed limit depth keyword after) (governed limit depth keyword after) := by
  rw [governed_eq]
  split
  · exact Parse.agree_fail _ _
  split
  · exact Parse.agree_fail _ _
  rename_i tokens brace inside opened
  have afterOpen := splitAtOpen_length opened
  apply Comparison.Agree.bind (agree_soleCondition limit keyword tokens)
  intro here there condition conditionToo _ _ conditionAlike
  split
  · exact Parse.agree_fail _ _
  rename_i block rest closed
  have afterClose := splitAtClose_length closed
  apply Comparison.Agree.bind (agree block (by omega) here there)
  intro hereThen thereThen body bodyToo leftLater rightLater bodyAlike
  apply Comparison.Agree.pure
  intro hereAfter thereAfter leftAfter rightAfter
  refine ⟨.control keyword.controlOf keyword.position ?_ ?_, rfl, by simp only; omega⟩
  · exact conditionAlike.mono (leftLater.trans leftAfter).extends
      (rightLater.trans rightAfter).extends
  · exact bodyAlike.mono leftAfter.extends rightAfter.extends

theorem agree_statementsOf (limit depth : Nat) (tokens : List Token) :
    Parse.comparison.Agree left right (Tree.AllAlike id)
      (statementsOf limit depth tokens) (statementsOf limit depth tokens) := by
  induction tokens using program_induction generalizing depth left right with
  | straight tokens straight =>
      rw [statementsOf_straight limit depth straight]
      exact agree_straightStatements limit tokens
  | brace before stop later straight stops notControl =>
      rw [statementsOf_brace limit depth straight stops notControl]
      exact Parse.agree_fail _ _
  | control before keyword later straight isControl induction =>
      rw [statementsOf_control limit depth straight isControl]
      apply Comparison.Agree.bind (agree_straightStatements limit before)
      intro here there earlier earlierToo _ _ earlierAlike
      apply Comparison.Agree.bind (agree_governed limit depth keyword later
        fun block shorter left right => induction block shorter (depth + 1))
      rintro hereThen thereThen ⟨tree, rest⟩ ⟨treeToo, _⟩ leftThen rightThen
        ⟨treeAlike, rfl, shorter⟩
      apply Comparison.Agree.bind (induction rest shorter depth)
      intro hereNext thereNext following followingToo leftNext rightNext followingAlike
      apply Comparison.Agree.pure
      intro final finalToo leftLater rightLater
      have leftLast := leftNext.trans leftLater
      have rightLast := rightNext.trans rightLater
      apply List.rel_append
      · exact earlierAlike.mono (leftThen.trans leftLast).extends
          (rightThen.trans rightLast).extends
      · refine .cons (treeAlike.mono leftLast.extends rightLast.extends) ?_
        exact followingAlike.mono leftLater.extends rightLater.extends

/-- A source says the same whatever the tables hold. -/
theorem agree_programOfSource (limit : Nat) (source : String) :
    Parse.comparison.Agree left right (Tree.AllAlike id)
      (programOfSource limit source) (programOfSource limit source) := by
  apply Comparison.Agree.bind (Parse.agree_ofExcept _)
  intro here there tokens _ _ _ same
  cases same
  exact agree_statementsOf limit 0 (separate tokens)

end

/-- Parsing only adds to the tables, also where it fails, and every handle in what it gives is in
them. -/
theorem programOfSource_sound {limit : Nat} {source : String} {symbols after : Symbols}
    {parsed : Except SourceError (List Tree)}
    (run : (programOfSource limit source).runFrom symbols = (parsed, after)) :
    symbols.Grows after ∧
      ∀ program, parsed = .ok program → Tree.AllAlike id after after program program := by
  have ended := agree_programOfSource limit source symbols symbols (.refl symbols) (.refl symbols)
    trivial
  rw [Parse.runFrom] at run
  rw [run] at ended
  exact ⟨ended.self.1, ended.self.2.2⟩

end Scriptlet
