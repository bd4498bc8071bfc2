import Scriptlet.Proofs.Expression.Basic

/-! Which operator takes an operand that stands between two. The earlier one takes it if it yields to
the later one, that is, if it is stronger, or equally strong while the later one groups to the left;
otherwise the later one does. An expression grouped that way is put in post order as it stands. -/

namespace Scriptlet

/-- The binding of an operator. -/
def Token.binding (token : Token) : Binding :=
  (Kind.binding? token.kind).getD ⟨0, .left⟩

theorem Token.binding?_eq {token : Token} (operator : token.kind.isUnary ∨ token.kind.isBinary) :
    Kind.binding? token.kind = some token.binding := by
  rcases token with ⟨kind, text, position⟩
  cases kind <;> first | rfl | simp [Kind.isUnary, Kind.isBinary] at operator

theorem Token.yieldsTo_eq {token : Token} (operator : token.kind.isUnary ∨ token.kind.isBinary)
    (incoming : Binding) :
    token.yieldsTo Kind.binding? incoming = token.binding.yieldsTo incoming := by
  rw [yieldsTo, binding?_eq operator, Option.any_some]

/-- An operand is due behind an operator. -/
theorem operandDue_operator {kind : Kind} (operator : kind.isUnary ∨ kind.isBinary) :
    operandDue (some kind) = true := by
  cases kind <;> first | rfl | simp [Kind.isUnary, Kind.isBinary] at operator

theorem operandDue_operand {kind : Kind} (isOperand : kind.isOperand) :
    operandDue (some kind) = false := by
  cases kind <;> first | rfl | cases isOperand

theorem Token.readSign_of_due {previous : Option Kind} (due : operandDue previous = true)
    (token : Token) : token.readSign previous = token.readSign none :=
  readSign_congr due token

theorem Token.readSign_of_not_due {previous : Option Kind} (settled : operandDue previous = false)
    (token : Token) : token.readSign previous = token := by
  simp [readSign, settled]

/-! ## What a token does to the operators that wait -/

theorem accept_operand (table : BindingTable) {token : Token} (isOperand : token.kind.isOperand)
    (waiting : List Token) : accept table waiting token = .ok ([token], waiting) := by
  rcases token with ⟨kind, text, position⟩
  cases kind <;> first | rfl | cases isOperand

theorem accept_openParen (table : BindingTable) {token : Token} (opens : token.kind = .openParen)
    (waiting : List Token) : accept table waiting token = .ok ([], token :: waiting) := by
  rw [accept, opens]

theorem accept_closeParen (table : BindingTable) {token opened : Token}
    (closes : token.kind = .closeParen) (opens : opened.kind = .openParen)
    {above : List Token} (inside : ∀ earlier ∈ above, earlier.kind ≠ .openParen)
    (below : List Token) :
    accept table (above ++ opened :: below) token = .ok (above, below) := by
  have passes : ∀ earlier ∈ above, (earlier.kind != .openParen) = true := by
    intro earlier member
    simpa using inside earlier member
  rw [accept, closes, List.span_eq_takeWhile_dropWhile]
  simp only [List.takeWhile_append_of_pos passes, List.dropWhile_append_of_pos passes]
  rw [List.takeWhile_cons_of_neg (by simp [opens]), List.dropWhile_cons_of_neg (by simp [opens]),
    List.append_nil]

theorem accept_operator {token : Token} (operator : token.kind.isUnary ∨ token.kind.isBinary)
    (above below : List Token)
    (yielding : ∀ earlier ∈ above, earlier.yieldsTo Kind.binding? token.binding)
    (holding : ∀ earlier ∈ below.head?, ¬earlier.yieldsTo Kind.binding? token.binding) :
    accept Kind.binding? (above ++ below) token = .ok (above, token :: below) := by
  have bound := Token.binding?_eq operator
  have stopped : below.takeWhile (·.yieldsTo Kind.binding? token.binding) = [] ∧
      below.dropWhile (·.yieldsTo Kind.binding? token.binding) = below := by
    cases below with
    | nil => exact ⟨rfl, rfl⟩
    | cons next rest =>
        have stays := holding next rfl
        exact ⟨List.takeWhile_cons_of_neg stays, List.dropWhile_cons_of_neg stays⟩
  have parts : (above ++ below).span (·.yieldsTo Kind.binding? token.binding) =
      (above, below) := by
    rw [List.span_eq_takeWhile_dropWhile, List.takeWhile_append_of_pos yielding,
      List.dropWhile_append_of_pos yielding, stopped.1, stopped.2, List.append_nil]
  rcases token with ⟨kind, text, position⟩
  cases kind with
  | binary | unary | assign | command =>
      simp only [accept, Kind.isOperand, bound, parts, Bool.false_eq_true, if_false]
  | _ => simp [Kind.isUnary, Kind.isBinary] at operator

namespace Expression

/-! ## Grouping -/

/-- `holder` is the operator that waits for the expression; in parentheses there is none. -/
def Grouped : Option Binding → Expression → Prop
  | _, operand _ _ => True
  | _, group _ _ _ _ inner => inner.Grouped none
  | holder, unary operator _ argument =>
      (∀ held ∈ holder, ¬held.yieldsTo (operator.readSign none).binding) ∧
        argument.Grouped (some (operator.readSign none).binding)
  | holder, binary operator _ left right =>
      (∀ held ∈ holder, ¬held.yieldsTo operator.binding) ∧ left.Grouped holder ∧
        (∀ earlier ∈ left.pending, earlier.binding.yieldsTo operator.binding) ∧
        right.Grouped (some operator.binding)

theorem operator_of_mem_pending {expression : Expression} {token : Token}
    (member : token ∈ expression.pending) : token.kind.isUnary ∨ token.kind.isBinary := by
  induction expression with
  | operand | group => cases member
  | unary operator leads argument induction =>
      rw [pending, List.mem_append, List.mem_singleton] at member
      rcases member with member | rfl
      · exact induction member
      · exact .inl leads
  | binary operator isBinary left right _ induction =>
      rw [pending, List.mem_append, List.mem_singleton] at member
      rcases member with member | rfl
      · exact induction member
      · exact .inr isBinary

/-- The operator on top of those that wait, if there is one, is the holder. -/
def HeldBy (holder : Option Binding) (waiting : List Token) : Prop :=
  ∀ token ∈ waiting.head?, Kind.binding? token.kind = holder

theorem HeldBy.not_yieldsTo {holder : Option Binding} {waiting : List Token}
    (held : HeldBy holder waiting) {incoming : Binding}
    (holds : ∀ binding ∈ holder, ¬binding.yieldsTo incoming) :
    ∀ earlier ∈ waiting.head?, ¬earlier.yieldsTo Kind.binding? incoming := by
  intro earlier member
  rw [Token.yieldsTo, held earlier member]
  cases holder with
  | none => exact Bool.false_ne_true
  | some binding => exact holds binding rfl

theorem heldBy_operator {token : Token} (operator : token.kind.isUnary ∨ token.kind.isBinary)
    (waiting : List Token) : HeldBy (some token.binding) (token :: waiting) := by
  intro top member
  cases member
  exact Token.binding?_eq operator

/-- Reading a grouped expression settles all of it but the operators along its right edge. -/
theorem take_tokens (expression : Expression) {holder : Option Binding}
    (grouped : expression.Grouped holder) (state : Arrangement)
    (due : operandDue state.previous = true) (held : HeldBy holder state.waiting) :
    ∃ last, operandDue (some last) = false ∧
      expression.tokens.foldlM (Arrangement.take Kind.binding?) state =
        .ok ⟨state.output ++ expression.settled, some last,
          expression.pending ++ state.waiting⟩ := by
  induction expression generalizing holder state with
  | operand token isOperand =>
      refine ⟨token.kind, operandDue_operand isOperand, ?_⟩
      have same : token.readSign state.previous = token := by
        apply Token.readSign_of_kind_ne
        intro sign
        rw [sign] at isOperand
        cases isOperand
      rw [tokens, List.foldlM_cons, Arrangement.take_of_accept (accept_operand _
        (by rwa [same]) _), same]
      rfl
  | group opening closing opens closes inner induction =>
      have openSame : opening.readSign state.previous = opening :=
        Token.readSign_of_kind_ne (by rw [opens]; exact Kind.noConfusion) _
      rcases induction grouped
        ⟨state.output, some .openParen, opening :: state.waiting⟩ rfl
        (by intro top member; cases member; rw [opens]; rfl) with ⟨last, settledLast, read⟩
      have closeSame : closing.readSign (some last) = closing :=
        Token.readSign_of_not_due settledLast closing
      refine ⟨.closeParen, rfl, ?_⟩
      rw [tokens, List.foldlM_cons, Arrangement.take_of_accept (accept_openParen _
        (by rwa [openSame]) _), openSame, opens, List.append_nil]
      change (inner.tokens ++ [closing]).foldlM (Arrangement.take Kind.binding?) _ = _
      rw [List.foldlM_append, read]
      change [closing].foldlM (Arrangement.take Kind.binding?) _ = _
      have inside : ∀ earlier ∈ inner.pending, earlier.kind ≠ .openParen := by
        intro earlier member opened
        rcases operator_of_mem_pending member with operator | operator <;>
          rw [opened] at operator <;> cases operator
      rw [List.foldlM_cons, Arrangement.take_of_accept (accept_closeParen _
        (by rwa [closeSame]) opens inside _), closeSame, closes, List.append_assoc,
        settled_append_pending]
      rfl
  | unary operator leads argument induction =>
      have same := Token.readSign_of_due due operator
      rcases induction grouped.2
        ⟨state.output, some (operator.readSign none).kind,
          operator.readSign none :: state.waiting⟩
        (operandDue_operator (.inl leads)) (heldBy_operator (.inl leads) _) with
        ⟨last, settledLast, read⟩
      refine ⟨last, settledLast, ?_⟩
      have accepted := accept_operator (.inl leads) [] state.waiting (by simp)
        (held.not_yieldsTo grouped.1)
      rw [List.nil_append, ← same] at accepted
      rw [tokens, List.foldlM_cons, Arrangement.take_of_accept accepted, same, List.append_nil]
      refine read.trans ?_
      rw [settled, pending, List.append_assoc, List.singleton_append]
  | binary operator isBinary left right leftInduction rightInduction =>
      rcases grouped with ⟨free, leftGrouped, yielding, rightGrouped⟩
      rcases leftInduction leftGrouped state due held with ⟨middle, settledMiddle, readLeft⟩
      have same : operator.readSign (some middle) = operator :=
        Token.readSign_of_not_due settledMiddle operator
      rcases rightInduction rightGrouped
        ⟨state.output ++ left.settled ++ left.pending, some operator.kind,
          operator :: state.waiting⟩
        (operandDue_operator (.inr isBinary)) (heldBy_operator (.inr isBinary) _) with
        ⟨last, settledLast, readRight⟩
      refine ⟨last, settledLast, ?_⟩
      have accepted := accept_operator (.inr isBinary) left.pending state.waiting
        (fun earlier member => by
          rw [Token.yieldsTo_eq (operator_of_mem_pending member)]
          exact yielding earlier member)
        (held.not_yieldsTo free)
      rw [tokens, List.foldlM_append, readLeft]
      change (operator :: right.tokens).foldlM (Arrangement.take Kind.binding?) _ = _
      rw [List.foldlM_cons, Arrangement.take_of_accept (by rw [same]; exact accepted), same]
      refine readRight.trans ?_
      rw [settled, pending, ← settled_append_pending left]
      simp only [List.append_assoc, List.cons_append, List.nil_append]

/-- A grouped expression is put in its own post order. -/
theorem statementOrder_tokens (expression : Expression) (grouped : expression.Grouped none) :
    statementOrder Kind.binding? expression.tokens = .ok expression.postOrder := by
  rcases expression.take_tokens grouped {} rfl (by intro _ member; cases member) with
    ⟨last, _, read⟩
  have closed : expression.pending.find? (·.kind == .openParen) = none := by
    rw [List.find?_eq_none]
    intro token member opened
    rw [beq_iff_eq] at opened
    rcases operator_of_mem_pending member with operator | operator <;>
      rw [opened] at operator <;> cases operator
  rw [statementOrder, read]
  change Arrangement.finish _ = _
  rw [Arrangement.finish, releaseAll, List.append_nil, closed, ← settled_append_pending]
  rfl

end Expression

end Scriptlet
