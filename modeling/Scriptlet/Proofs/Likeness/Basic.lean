import Scriptlet.Proofs.Relocation
import Scriptlet.Proofs.Symbols
import Scriptlet.Value.Basic

/-! Values and trees by what their handles stand for. Two tables may keep a text in different
places; then the same value, and the same tree, has a different handle with each of them. -/

namespace Scriptlet

/-! ## Handles -/

/-- Both handles are in their tables and stand for one string. -/
def SameString (left right : Symbols) (first second : StringHandle) : Prop :=
  ∃ text, left.strings.get? first.index = some text ∧
    right.strings.get? second.index = some text

/-- Both handles are in their tables and stand for one name. -/
def SameName (left right : Symbols) (first second : NameHandle) : Prop :=
  ∃ name, left.names.get? first.index = some name ∧ right.names.get? second.index = some name

section

variable {left right leftAfter rightAfter : Symbols}

theorem SameString.mono {first second : StringHandle} (same : SameString left right first second)
    (leftGrown : left.Extends leftAfter) (rightGrown : right.Extends rightAfter) :
    SameString leftAfter rightAfter first second := by
  rcases same with ⟨text, here, there⟩
  exact ⟨text, leftGrown.strings _ _ here, rightGrown.strings _ _ there⟩

theorem SameName.mono {first second : NameHandle} (same : SameName left right first second)
    (leftGrown : left.Extends leftAfter) (rightGrown : right.Extends rightAfter) :
    SameName leftAfter rightAfter first second := by
  rcases same with ⟨name, here, there⟩
  exact ⟨name, leftGrown.names _ _ here, rightGrown.names _ _ there⟩

theorem SameString.stringAt {first second : StringHandle}
    (same : SameString left right first second) :
    left.stringAt first = right.stringAt second := by
  rcases same with ⟨text, here, there⟩
  rw [Symbols.stringAt, Symbols.stringAt, here, there]

theorem SameName.nameAt {first second : NameHandle} (same : SameName left right first second) :
    left.nameAt first = right.nameAt second := by
  rcases same with ⟨name, here, there⟩
  rw [Symbols.nameAt, Symbols.nameAt, here, there]

theorem sameString_enterString (left right : Symbols) (text : String) :
    SameString (left.enterString text).2 (right.enterString text).2 (left.enterString text).1
      (right.enterString text).1 :=
  ⟨text, (left.strings.extends_enter text).2, (right.strings.extends_enter text).2⟩

theorem sameName_enterName (left right : Symbols) (name : String) :
    SameName (left.enterName name).2 (right.enterName name).2 (left.enterName name).1
      (right.enterName name).1 :=
  ⟨name, (left.names.extends_enter name).2, (right.names.extends_enter name).2⟩

end

/-! ## Values -/

/-- The same value, once with the left tables and once with the right ones. -/
inductive Value.Alike (left right : Symbols) : Value → Value → Prop where
  | integer (value : Integer) : Alike left right (integer value) (integer value)
  | decimal (value : Decimal) : Alike left right (decimal value) (decimal value)
  | string {first second : StringHandle} (same : SameString left right first second) :
      Alike left right (string first) (string second)
  | boolean (value : Bool) : Alike left right (boolean value) (boolean value)
  | identifier {first second : NameHandle} (same : SameName left right first second) :
      Alike left right (identifier first) (identifier second)

namespace Value.Alike

variable {left right leftAfter rightAfter : Symbols} {first second : Value}

theorem mono (alike : Alike left right first second) (leftGrown : left.Extends leftAfter)
    (rightGrown : right.Extends rightAfter) : Alike leftAfter rightAfter first second := by
  cases alike with
  | integer value => exact .integer value
  | decimal value => exact .decimal value
  | string same => exact .string (same.mono leftGrown rightGrown)
  | boolean value => exact .boolean value
  | identifier same => exact .identifier (same.mono leftGrown rightGrown)

theorem type (alike : Alike left right first second) : first.type = second.type := by
  cases alike <;> rfl

theorem text (alike : Alike left right first second) : first.text left = second.text right := by
  cases alike with
  | integer | decimal => rfl
  | boolean value => cases value <;> rfl
  | string same => exact same.stringAt
  | identifier same => exact same.nameAt

end Value.Alike

/-! ## Trees -/

/-- A property of trees follows from what each node adds to it. -/
theorem Tree.induction {motive : Tree → Prop}
    (integer : ∀ text position, motive (integer text position))
    (decimal : ∀ text position, motive (decimal text position))
    (string : ∀ handle position, motive (string handle position))
    (boolean : ∀ value position, motive (boolean value position))
    (identifier : ∀ handle position, motive (identifier handle position))
    (binary : ∀ operator left right position, motive left → motive right →
      motive (binary operator left right position))
    (unary : ∀ operator operand position, motive operand →
      motive (unary operator operand position))
    (assign : ∀ target value position, motive target → motive value →
      motive (assign target value position))
    (command : ∀ keyword operand position, motive operand →
      motive (command keyword operand position))
    (control : ∀ keyword condition body position, motive condition →
      (∀ statement ∈ body, motive statement) → motive (control keyword condition body position))
    (tree : Tree) : motive tree := by
  apply @Tree.rec motive (fun body => ∀ statement ∈ body, motive statement) integer decimal string
    boolean identifier binary unary assign command control
  · exact fun _ none => nomatch none
  · exact fun _ _ first others => List.forall_mem_cons.mpr ⟨first, others⟩

theorem Tree.move_id (tree : Tree) : tree.move id = tree := by
  induction tree using Tree.induction with
  | integer | decimal | string | boolean | identifier => rw [move, id]
  | binary operator left right position leftInduction rightInduction =>
      rw [move, leftInduction, rightInduction, id]
  | unary operator operand position induction => rw [move, induction, id]
  | assign target value position targetInduction valueInduction =>
      rw [move, targetInduction, valueInduction, id]
  | command keyword operand position induction => rw [move, induction, id]
  | control keyword condition body position conditionInduction bodyInduction =>
      rw [move, conditionInduction, List.map_congr_left bodyInduction, List.map_id', id]

/-- The same tree, once with the left tables and once with the right ones, where every node stands
in the place to which `place` takes it. -/
inductive Tree.Alike (place : Position → Position) (left right : Symbols) : Tree → Tree → Prop where
  | integer (text : String) (position : Position) :
      Alike place left right (integer text position) (integer text (place position))
  | decimal (text : String) (position : Position) :
      Alike place left right (decimal text position) (decimal text (place position))
  | string {first second : StringHandle} (same : SameString left right first second)
      (position : Position) :
      Alike place left right (string first position) (string second (place position))
  | boolean (value : Bool) (position : Position) :
      Alike place left right (boolean value position) (boolean value (place position))
  | identifier {first second : NameHandle} (same : SameName left right first second)
      (position : Position) :
      Alike place left right (identifier first position) (identifier second (place position))
  | binary (operator : BinaryOperator) {one other oneToo otherToo : Tree} (position : Position)
      (leftAlike : Alike place left right one oneToo)
      (rightAlike : Alike place left right other otherToo) :
      Alike place left right (binary operator one other position)
        (binary operator oneToo otherToo (place position))
  | unary (operator : UnaryOperator) {operand operandToo : Tree} (position : Position)
      (alike : Alike place left right operand operandToo) :
      Alike place left right (unary operator operand position)
        (unary operator operandToo (place position))
  | assign {target value targetToo valueToo : Tree} (position : Position)
      (targetAlike : Alike place left right target targetToo)
      (valueAlike : Alike place left right value valueToo) :
      Alike place left right (assign target value position)
        (assign targetToo valueToo (place position))
  | command (keyword : Command) {operand operandToo : Tree} (position : Position)
      (alike : Alike place left right operand operandToo) :
      Alike place left right (command keyword operand position)
        (command keyword operandToo (place position))
  | control (keyword : Control) {condition conditionToo : Tree} {body bodyToo : List Tree}
      (position : Position) (conditionAlike : Alike place left right condition conditionToo)
      (bodyAlike : List.Forall₂ (Alike place left right) body bodyToo) :
      Alike place left right (control keyword condition body position)
        (control keyword conditionToo bodyToo (place position))

theorem optionRel_imp {related further : α → β → Prop} {item : Option α} {other : Option β}
    (rel : Option.Rel related item other) (implies : ∀ one two, related one two → further one two) :
    Option.Rel further item other := by
  cases rel with
  | none => exact .none
  | some first => exact .some (implies _ _ first)

theorem forall₂_imp_of_mem {related further : α → β → Prop} {items : List α} {others : List β}
    (each : List.Forall₂ related items others)
    (implies : ∀ item ∈ items, ∀ other, related item other → further item other) :
    List.Forall₂ further items others := by
  induction each with
  | nil => exact .nil
  | cons first _ induction =>
      refine .cons (implies _ List.mem_cons_self _ first) ?_
      exact induction fun item member => implies item (List.mem_cons_of_mem _ member)

namespace Tree.Alike

variable {place : Position → Position} {left right leftAfter rightAfter : Symbols}
  {first second : Tree}

theorem position (alike : Alike place left right first second) :
    second.position = place first.position := by
  cases alike <;> rfl

/-- Trees stay alike while the tables grow, and the second may be moved. -/
theorem relocate (alike : Alike place left right first second)
    (leftGrown : left.Extends leftAfter) (rightGrown : right.Extends rightAfter)
    (further : Position → Position) :
    Alike (further ∘ place) leftAfter rightAfter first (second.move further) := by
  induction first using Tree.induction generalizing second with
  | integer text position =>
      cases alike
      rw [Tree.move]
      exact .integer text position
  | decimal text position =>
      cases alike
      rw [Tree.move]
      exact .decimal text position
  | string handle position =>
      cases alike with
      | string same =>
          rw [Tree.move]
          exact .string (same.mono leftGrown rightGrown) position
  | boolean value position =>
      cases alike
      rw [Tree.move]
      exact .boolean value position
  | identifier handle position =>
      cases alike with
      | identifier same =>
          rw [Tree.move]
          exact .identifier (same.mono leftGrown rightGrown) position
  | binary operator _ _ position leftInduction rightInduction =>
      cases alike with
      | binary _ _ leftAlike rightAlike =>
          rw [Tree.move]
          exact .binary operator position (leftInduction leftAlike) (rightInduction rightAlike)
  | unary operator _ position induction =>
      cases alike with
      | unary _ _ alike =>
          rw [Tree.move]
          exact .unary operator position (induction alike)
  | assign _ _ position targetInduction valueInduction =>
      cases alike with
      | assign _ targetAlike valueAlike =>
          rw [Tree.move]
          exact .assign position (targetInduction targetAlike) (valueInduction valueAlike)
  | command keyword _ position induction =>
      cases alike with
      | command _ _ alike =>
          rw [Tree.move]
          exact .command keyword position (induction alike)
  | control keyword _ _ position conditionInduction bodyInduction =>
      cases alike with
      | control _ _ conditionAlike bodyAlike =>
          rw [Tree.move]
          refine .control keyword position (conditionInduction conditionAlike) ?_
          rw [List.forall₂_map_right_iff]
          apply forall₂_imp_of_mem bodyAlike
          exact fun statement member _ => bodyInduction statement member

theorem mono (alike : Alike place left right first second) (leftGrown : left.Extends leftAfter)
    (rightGrown : right.Extends rightAfter) : Alike place leftAfter rightAfter first second := by
  rw [← second.move_id]
  exact alike.relocate leftGrown rightGrown id

theorem move (alike : Alike id left right first second) (place : Position → Position) :
    Alike place left right first (second.move place) :=
  alike.relocate (.refl left) (.refl right) place

end Tree.Alike

/-- Statements that are alike one by one. -/
abbrev Tree.AllAlike (place : Position → Position) (left right : Symbols) :
    List Tree → List Tree → Prop :=
  List.Forall₂ (Tree.Alike place left right)

theorem Tree.AllAlike.mono {place : Position → Position}
    {left right leftAfter rightAfter : Symbols} {trees treesToo : List Tree}
    (alike : AllAlike place left right trees treesToo) (leftGrown : left.Extends leftAfter)
    (rightGrown : right.Extends rightAfter) : AllAlike place leftAfter rightAfter trees treesToo :=
  alike.imp fun _ _ each => each.mono leftGrown rightGrown

end Scriptlet
