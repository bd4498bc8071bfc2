import Scriptlet.Proofs.Expression.Recognition

/-! Comparisons and connectives. The binding table has them on one level, together with `input`, and
only their grouping tells them apart: among equals the incoming operator decides, a comparison never
makes another operator go first and a connective always does. That comes to the same as a level of
their own for the comparisons, above the connectives. -/

namespace Scriptlet

def Kind.isComparison : Kind → Bool
  | .binary operator =>
      match operator with
      | .less | .greater | .lessEqual | .greaterEqual | .equal | .notEqual => true
      | _ => false
  | _ => false

def Kind.isConnective : Kind → Bool
  | .binary .and | .binary .or => true
  | _ => false

/-! ## A level of their own -/

/-- Tables that group every operator as it is and change the levels in one point: a comparison stands
above whatever else was on its level. -/
structure RaisesComparisons (table : BindingTable) : Prop where
  grouping : ∀ kind, (table kind).map Binding.grouping = (Kind.binding? kind).map Binding.grouping
  order : ∀ {lower upper : Kind} {low high lowRaised highRaised : Binding},
    lower.binding? = some low → upper.binding? = some high →
    table lower = some lowRaised → table upper = some highRaised →
    (lowRaised.strength < highRaised.strength ↔ low.strength < high.strength ∨
      low.strength = high.strength ∧ lower.isComparison = false ∧ upper.isComparison)

theorem Kind.binding?_of_isComparison {kind : Kind} (isComparison : kind.isComparison) :
    kind.binding? = some ⟨2, .right⟩ := by
  cases kind with
  | binary operator => cases operator <;> first | rfl | cases isComparison
  | _ => cases isComparison

theorem Kind.binding?_of_isConnective {kind : Kind} (isConnective : kind.isConnective) :
    kind.binding? = some ⟨2, .left⟩ := by
  cases kind with
  | binary operator => cases operator <;> first | rfl | cases isConnective
  | _ => cases isConnective

/-- Whatever shares the level of the comparisons groups to the left. -/
theorem Kind.grouping_of_shared {kind : Kind} {binding : Binding}
    (bound : kind.binding? = some binding) (shared : binding.strength = 2)
    (other : kind.isComparison = false) : binding.grouping = .left := by
  cases kind with
  | binary operator =>
      cases bound
      cases operator <;> simp_all [isComparison, BinaryOperator.binding]
  | command command =>
      cases bound
      cases command <;> simp_all [Command.binding]
  | unary | assign =>
      cases bound
      cases shared
  | terminator | openBlock | closeBlock =>
      cases bound
      rfl
  | _ => cases bound

namespace RaisesComparisons

variable {table : BindingTable}

theorem exists_binding (raises : RaisesComparisons table) {kind : Kind} {binding : Binding}
    (bound : kind.binding? = some binding) :
    ∃ raised, table kind = some raised ∧ raised.grouping = binding.grouping := by
  have same := raises.grouping kind
  rw [bound] at same
  simpa using same

theorem unbound (raises : RaisesComparisons table) {kind : Kind} (free : kind.binding? = none) :
    table kind = none := by
  have same := raises.grouping kind
  rw [free] at same
  simpa using same

/-- The same operators go first. -/
theorem yieldsTo_eq (raises : RaisesComparisons table) {waiting incoming : Kind}
    {held arriving heldRaised arrivingRaised : Binding} (heldBound : waiting.binding? = some held)
    (arrivingBound : incoming.binding? = some arriving)
    (heldTable : table waiting = some heldRaised)
    (arrivingTable : table incoming = some arrivingRaised) :
    heldRaised.yieldsTo arrivingRaised = held.yieldsTo arriving := by
  have grouping : arrivingRaised.grouping = arriving.grouping := by
    obtain ⟨raised, found, same⟩ := raises.exists_binding arrivingBound
    cases found.symm.trans arrivingTable
    exact same
  have below := raises.order arrivingBound heldBound arrivingTable heldTable
  have above := raises.order heldBound arrivingBound heldTable arrivingTable
  rw [Bool.eq_iff_iff]
  simp only [Binding.yieldsTo, grouping, Bool.or_eq_true, decide_eq_true_eq, Bool.and_eq_true,
    beq_iff_eq, below]
  cases heldKind : waiting.isComparison with
  | true =>
      cases heldBound.symm.trans (Kind.binding?_of_isComparison heldKind)
      cases arrivingKind : incoming.isComparison with
      | true => grind
      | false =>
          have left := fun shared => Kind.grouping_of_shared arrivingBound shared arrivingKind
          grind
  | false =>
      cases arrivingKind : incoming.isComparison with
      | true =>
          cases arrivingBound.symm.trans (Kind.binding?_of_isComparison arrivingKind)
          grind
      | false => grind

theorem yieldsTo_token (raises : RaisesComparisons table) {incoming : Kind}
    {arriving arrivingRaised : Binding} (bound : incoming.binding? = some arriving)
    (raised : table incoming = some arrivingRaised) (waiting : Token) :
    waiting.yieldsTo table arrivingRaised = waiting.yieldsTo Kind.binding? arriving := by
  rw [Token.yieldsTo, Token.yieldsTo]
  cases held : waiting.kind.binding? with
  | none =>
      rw [raises.unbound held]
      rfl
  | some binding =>
      obtain ⟨heldRaised, found, _⟩ := raises.exists_binding held
      rw [found]
      exact raises.yieldsTo_eq held bound found raised

theorem accept_eq (raises : RaisesComparisons table) (waiting : List Token) (token : Token) :
    accept table waiting token = accept Kind.binding? waiting token := by
  unfold accept
  split
  · rfl
  · rfl
  · rfl
  · split
    · rfl
    · cases bound : token.kind.binding? with
      | none => rw [raises.unbound bound]
      | some arriving =>
          obtain ⟨raised, found, _⟩ := raises.exists_binding bound
          have same : (fun earlier : Token => earlier.yieldsTo table raised) =
              fun earlier => earlier.yieldsTo Kind.binding? arriving :=
            funext (raises.yieldsTo_token bound found)
          simp only [found, same]

theorem arrange_eq (raises : RaisesComparisons table) (mark : Token) (previous : Option Kind)
    (waiting tokens : List Token) :
    arrange table mark previous waiting tokens =
      arrange Kind.binding? mark previous waiting tokens := by
  induction tokens generalizing previous waiting with
  | nil => rfl
  | cons next later induction => simp only [arrange, raises.accept_eq, induction]

end RaisesComparisons

/-- Twice as many levels: comparisons move to the one that becomes free above theirs. -/
def Kind.raisedBinding? : BindingTable := fun kind =>
  kind.binding?.map fun binding =>
    ⟨2 * binding.strength + (if kind.isComparison then 1 else 0), binding.grouping⟩

theorem raisesComparisons_raisedBinding? : RaisesComparisons Kind.raisedBinding? where
  grouping := by
    intro kind
    simp [Kind.raisedBinding?, Function.comp_def]
  order := by
    intro lower upper low high lowRaised highRaised lowBound highBound lowFound highFound
    simp only [Kind.raisedBinding?, lowBound, highBound, Option.map_some, Option.some.injEq]
      at lowFound highFound
    cases lowFound
    cases highFound
    cases lower.isComparison <;> cases upper.isComparison <;> simp <;> omega

/-! ## Chains -/

theorem Token.binding_of_isComparison {operator : Token}
    (isComparison : operator.kind.isComparison) : operator.binding = ⟨2, .right⟩ := by
  rw [binding, Kind.binding?_of_isComparison isComparison]
  rfl

theorem Token.binding_of_isConnective {operator : Token}
    (isConnective : operator.kind.isConnective) : operator.binding = ⟨2, .left⟩ := by
  rw [binding, Kind.binding?_of_isConnective isConnective]
  rfl

theorem Kind.not_isConnective_of_isUnary {kind : Kind} (isUnary : kind.isUnary) :
    kind.isConnective = false := by
  cases kind <;> first | rfl | cases isUnary

theorem Binding.strength_le_of_not_yieldsTo {holder operator : Binding}
    (holds : ¬holder.yieldsTo operator) : holder.strength ≤ operator.strength := by
  simp [yieldsTo] at holds
  exact holds.1

namespace Expression

/-- The operators outside of all parentheses. -/
def outerOperators : Expression → List Token
  | operand _ _ | group _ _ _ _ _ => []
  | unary operator _ argument => operator.readSign none :: argument.outerOperators
  | binary operator _ left right => left.outerOperators ++ operator :: right.outerOperators

/-- Connectives, if there are any, stand in parentheses. -/
def Unconnected (expression : Expression) : Prop :=
  ∀ operator ∈ expression.outerOperators, operator.kind.isConnective = false

/-- Comparisons are grouped before the connectives between them, and these group to the left. -/
def ConnectsLast : Expression → Prop
  | operand _ _ => True
  | group _ _ _ _ inner => inner.ConnectsLast
  | unary _ _ argument => argument.ConnectsLast
  | binary operator _ left right =>
      left.ConnectsLast ∧ right.ConnectsLast ∧
        (operator.kind.isComparison → left.Unconnected ∧ right.Unconnected) ∧
        (operator.kind.isConnective → right.Unconnected)

@[simp] theorem unconnected_operand (token : Token) (isOperand : token.kind.isOperand) :
    (operand token isOperand).Unconnected := by
  simp [Unconnected, outerOperators]

@[simp] theorem unconnected_group {opening closing : Token} (opens : opening.kind = .openParen)
    (closes : closing.kind = .closeParen) (inner : Expression) :
    (group opening closing opens closes inner).Unconnected := by
  simp [Unconnected, outerOperators]

@[simp] theorem unconnected_unary {operator : Token} (leads : operator.leads)
    (argument : Expression) :
    (unary operator leads argument).Unconnected ↔ argument.Unconnected := by
  have unconnecting := Kind.not_isConnective_of_isUnary leads
  simp [Unconnected, outerOperators, unconnecting]

@[simp] theorem unconnected_binary {operator : Token} (isBinary : operator.kind.isBinary)
    (left right : Expression) :
    (binary operator isBinary left right).Unconnected ↔
      operator.kind.isConnective = false ∧ left.Unconnected ∧ right.Unconnected := by
  simp only [Unconnected, outerOperators, List.mem_append, List.mem_cons]
  grind

/-- What a comparison or anything stronger waits for has no connective to it. -/
theorem Grouped.unconnected {expression : Expression} {holder : Binding}
    (grouped : expression.Grouped (some holder)) (strong : 2 ≤ holder.strength) :
    expression.Unconnected := by
  induction expression generalizing holder with
  | operand token isOperand => simp
  | group opening closing opens closes inner => simp
  | unary operator leads argument induction =>
      obtain ⟨holds, argumentGrouped⟩ := grouped
      have stronger := Binding.strength_le_of_not_yieldsTo (holds holder rfl)
      simpa using induction argumentGrouped (by omega)
  | binary operator isBinary left right leftInduction rightInduction =>
      obtain ⟨holds, leftGrouped, _, rightGrouped⟩ := grouped
      have stronger := Binding.strength_le_of_not_yieldsTo (holds holder rfl)
      have unconnecting : operator.kind.isConnective = false := by
        by_contra connects
        have binding := Token.binding_of_isConnective (by simpa using connects)
        have notYielding := holds holder rfl
        simp [Binding.yieldsTo, binding] at notYielding
        omega
      rw [unconnected_binary]
      exact ⟨unconnecting, leftInduction leftGrouped strong, rightInduction rightGrouped (by omega)⟩

/-- A connective would be among the operators that wait, unless one as weak waits above it. -/
theorem Grouped.unconnected_of_pending {expression : Expression} {holder : Option Binding}
    (grouped : expression.Grouped holder)
    (strong : ∀ earlier ∈ expression.pending, 2 < earlier.binding.strength) :
    expression.Unconnected := by
  induction expression generalizing holder with
  | operand token isOperand => simp
  | group opening closing opens closes inner => simp
  | unary operator leads argument =>
      have waits := strong (operator.readSign none) (by simp [pending])
      simpa using grouped.2.unconnected (by omega)
  | binary operator isBinary left right leftInduction =>
      obtain ⟨_, leftGrouped, yielding, rightGrouped⟩ := grouped
      have waits := strong operator (by simp [pending])
      have unconnecting : operator.kind.isConnective = false := by
        by_contra connects
        rw [Token.binding_of_isConnective (by simpa using connects)] at waits
        exact Nat.lt_irrefl 2 waits
      have leftStrong : ∀ earlier ∈ left.pending, 2 < earlier.binding.strength := by
        intro earlier member
        have yields := yielding earlier member
        simp [Binding.yieldsTo] at yields
        omega
      rw [unconnected_binary]
      exact ⟨unconnecting, leftInduction leftGrouped leftStrong,
        rightGrouped.unconnected (by omega)⟩

theorem Grouped.connectsLast {expression : Expression} {holder : Option Binding}
    (grouped : expression.Grouped holder) : expression.ConnectsLast := by
  induction expression generalizing holder with
  | operand token isOperand => trivial
  | group opening closing opens closes inner induction => exact induction grouped
  | unary operator leads argument induction => exact induction grouped.2
  | binary operator isBinary left right leftInduction rightInduction =>
      obtain ⟨_, leftGrouped, yielding, rightGrouped⟩ := grouped
      refine ⟨leftInduction leftGrouped, rightInduction rightGrouped, ?_, ?_⟩
      · intro isComparison
        have binding := Token.binding_of_isComparison isComparison
        rw [binding] at yielding rightGrouped
        have leftStrong : ∀ earlier ∈ left.pending, 2 < earlier.binding.strength := by
          intro earlier member
          simpa [Binding.yieldsTo] using yielding earlier member
        exact ⟨leftGrouped.unconnected_of_pending leftStrong,
          rightGrouped.unconnected (Nat.le_refl 2)⟩
      · intro isConnective
        rw [Token.binding_of_isConnective isConnective] at rightGrouped
        exact rightGrouped.unconnected (Nat.le_refl 2)

/-- A grouped expression is a whole sequence of tokens as well as a statement of one. -/
theorem postOrder_tokens (expression : Expression) (grouped : expression.Grouped none) :
    Scriptlet.postOrder expression.tokens =
      .ok (expression.postOrder ++ [.endOfInput (lastLine expression.tokens)]) :=
  postOrder_statement expression.oneStatement (expression.statementOrder_tokens grouped)

end Expression

/-- Any table that gives the comparisons a level of their own above the connectives puts every
sequence of tokens in the same order, or finds the same fault. So in every expression comparisons come
first and connectives group to the left, also in parentheses. A command has to lead: behind one of
these operators it would make that operator go before its second operand is read. -/
theorem postOrder_connectsLast {table : BindingTable} (raises : RaisesComparisons table) :
    (∀ tokens, postOrderWith table tokens = postOrder tokens) ∧
      ∀ statement, Expression.Derives statement → CommandsLead statement →
        ∃ expression : Expression, expression.tokens = statement ∧ expression.ConnectsLast ∧
          postOrder statement =
            .ok (expression.postOrder ++ [.endOfInput (lastLine statement)]) ∧
          ∀ limit symbols, expression.depth ≤ limit →
            (statementTree limit expression.postOrder).runFrom symbols =
              (.ok (some (expression.tree symbols).1), (expression.tree symbols).2) := by
  constructor
  · intro tokens
    exact raises.arrange_eq _ none [] tokens
  · intro statement derives placed
    obtain ⟨expression, _, rfl, grouped, _⟩ := statement_of_shaped derives.shaped placed
    refine ⟨expression, rfl, grouped.connectsLast, expression.postOrder_tokens grouped, ?_⟩
    intro limit symbols fits
    exact expression.statementTree_postOrder fits symbols

/-- `a < b & c = d`, as it is and with twice as many levels. -/
theorem postOrder_connectsLast_raised :
    let statement : List Token :=
      [⟨.identifier, "a", ⟨1, 0⟩⟩, ⟨.binary .less, "<", ⟨1, 2⟩⟩, ⟨.identifier, "b", ⟨1, 4⟩⟩,
        ⟨.binary .and, "&", ⟨1, 6⟩⟩, ⟨.identifier, "c", ⟨1, 8⟩⟩, ⟨.binary .equal, "=", ⟨1, 10⟩⟩,
        ⟨.identifier, "d", ⟨1, 12⟩⟩]
    RaisesComparisons Kind.raisedBinding? ∧ Expression.Derives statement ∧
      CommandsLead statement ∧ postOrderWith Kind.raisedBinding? statement = postOrder statement ∧
      ∃ expression : Expression, expression.tokens = statement ∧ expression.ConnectsLast ∧
        postOrder statement = .ok (expression.postOrder ++ [.endOfInput 1]) := by
  intro statement
  have raises := raisesComparisons_raisedBinding?
  have derives : Expression.Derives statement :=
    ⟨.binary ⟨.binary .and, "&", ⟨1, 6⟩⟩ rfl
      (.binary ⟨.binary .less, "<", ⟨1, 2⟩⟩ rfl (.operand ⟨.identifier, "a", ⟨1, 0⟩⟩ rfl)
        (.operand ⟨.identifier, "b", ⟨1, 4⟩⟩ rfl))
      (.binary ⟨.binary .equal, "=", ⟨1, 10⟩⟩ rfl (.operand ⟨.identifier, "c", ⟨1, 8⟩⟩ rfl)
        (.operand ⟨.identifier, "d", ⟨1, 12⟩⟩ rfl)), rfl⟩
  have placed : CommandsLead statement := by
    unfold CommandsLead
    decide
  obtain ⟨same, chains⟩ := postOrder_connectsLast raises
  obtain ⟨expression, written, connects, ordered, _⟩ := chains statement derives placed
  exact ⟨raises, derives, placed, same statement, expression, written, connects, ordered⟩

end Scriptlet
