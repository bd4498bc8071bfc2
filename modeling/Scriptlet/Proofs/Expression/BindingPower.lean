import Scriptlet.Proofs.Expression.Shape

/-! Reading expressions by binding powers.

An operator pulls at the operand on either side of it, and of the two operators next to an operand
the one that pulls harder takes it. The reader carries the least power that an operator must have
to go on with the expression at hand. -/

namespace Scriptlet

namespace Binding

/-- How hard an operator pulls at the operand on its left. -/
def leftPower (binding : Binding) : Nat :=
  2 * binding.strength + if binding.grouping = .right then 1 else 0

/-- How hard an operator pulls at the operand on its right. -/
def rightPower (binding : Binding) : Nat :=
  2 * binding.strength + 1

theorem yieldsTo_iff (waiting incoming : Binding) :
    waiting.yieldsTo incoming ↔ incoming.leftPower < waiting.rightPower := by
  rcases incoming with ⟨strength, grouping⟩
  cases grouping <;> simp [yieldsTo, leftPower, rightPower]
  all_goals omega

end Binding

namespace Expression

mutual

/-- One operand, and every operator behind it that has at least the given power. -/
def read (least : Nat) (tokens : List Token) :
    Option (Expression × { rest : List Token // rest.length < tokens.length }) :=
  match tokens with
  | [] => none
  | first :: later =>
      if isOperand : first.kind.isOperand then do
        let (whole, rest) ← extend least (.operand first isOperand) later
        return (whole, ⟨rest, Nat.lt_succ_of_le rest.property⟩)
      else if opens : first.kind = .openParen then do
        match ← read 0 later with
        | (_, ⟨[], _⟩) => none
        | (inner, ⟨closing :: after, shorter⟩) =>
            if closes : closing.kind = .closeParen then do
              let (whole, rest) ← extend least (.group first closing opens closes inner) after
              return (whole, ⟨rest, by
                have := rest.property
                simp only [List.length_cons] at shorter ⊢
                omega⟩)
            else none
      else if leads : first.leads then do
        let (argument, after) ← read (first.readSign none).binding.rightPower later
        let (whole, rest) ← extend least (.unary first leads argument) after
        return (whole, ⟨rest, by
          have := rest.property
          have := after.property
          simp only [List.length_cons]
          omega⟩)
      else none
termination_by tokens.length
decreasing_by
  · simp only [List.length_cons]
    omega
  · simp only [List.length_cons]
    omega
  · simp only [List.length_cons] at shorter ⊢
    omega
  · simp only [List.length_cons]
    omega
  · have := after.property
    simp only [List.length_cons]
    omega

/-- Everything that follows an expression and belongs to it. -/
def extend (least : Nat) (left : Expression) (tokens : List Token) :
    Option (Expression × { rest : List Token // rest.length ≤ tokens.length }) :=
  match tokens with
  | [] => some (left, ⟨[], Nat.le_refl _⟩)
  | operator :: later =>
      if isBinary : operator.kind.isBinary then
        if least ≤ operator.binding.leftPower then do
          let (right, after) ← read operator.binding.rightPower later
          let (whole, rest) ← extend least (.binary operator isBinary left right) after
          return (whole, ⟨rest, by
            have := rest.property
            have := after.property
            simp only [List.length_cons]
            omega⟩)
        else some (left, ⟨operator :: later, Nat.le_refl _⟩)
      else some (left, ⟨operator :: later, Nat.le_refl _⟩)
termination_by tokens.length

end

/-- Reading gives the expression and leaves the rest. -/
def Reads (least : Nat) (tokens : List Token) (expression : Expression) (rest : List Token) : Prop :=
  ∃ shorter, read least tokens = some (expression, ⟨rest, shorter⟩)

/-- Extending the left expression gives the whole and leaves the rest. -/
def Extends (least : Nat) (left : Expression) (tokens : List Token) (whole : Expression)
    (rest : List Token) : Prop :=
  ∃ shorter, extend least left tokens = some (whole, ⟨rest, shorter⟩)

section

variable {least : Nat} {first : Token} {later after rest : List Token} {left whole : Expression}

theorem Reads.operand (isOperand : first.kind.isOperand)
    (extended : Extends least (.operand first isOperand) later whole rest) :
    Reads least (first :: later) whole rest := by
  rcases extended with ⟨shorter, same⟩
  refine ⟨Nat.lt_succ_of_le shorter, ?_⟩
  rw [read, dif_pos isOperand, same]
  rfl

theorem Reads.group {closing : Token} {inner : Expression} (opens : first.kind = .openParen)
    (closes : closing.kind = .closeParen) (inside : Reads 0 later inner (closing :: after))
    (extended : Extends least (.group first closing opens closes inner) after whole rest) :
    Reads least (first :: later) whole rest := by
  rcases inside with ⟨innerShorter, inside⟩
  rcases extended with ⟨shorter, same⟩
  simp only [List.length_cons] at innerShorter
  refine ⟨by simp only [List.length_cons]; omega, ?_⟩
  rw [read, dif_neg (by rw [opens]; exact Bool.false_ne_true), dif_pos opens, inside]
  simp only [Option.bind_eq_bind, Option.bind_some, dif_pos closes, same]
  rfl

theorem Reads.unary {argument : Expression} (leads : first.leads)
    (inside : Reads (first.readSign none).binding.rightPower later argument after)
    (extended : Extends least (.unary first leads argument) after whole rest) :
    Reads least (first :: later) whole rest := by
  rcases inside with ⟨innerShorter, inside⟩
  rcases extended with ⟨shorter, same⟩
  refine ⟨by simp only [List.length_cons]; omega, ?_⟩
  rw [read, dif_neg (by rw [Token.not_isOperand_of_leads leads]; exact Bool.false_ne_true),
    dif_neg (Token.kind_ne_openParen_of_leads leads), dif_pos leads, inside]
  simp only [Option.bind_eq_bind, Option.bind_some, same]
  rfl

theorem Extends.nil : Extends least left [] left [] := by
  refine ⟨Nat.le_refl _, ?_⟩
  rw [extend]

theorem Extends.binary {right : Expression} (isBinary : first.kind.isBinary)
    (strong : least ≤ first.binding.leftPower)
    (follows : Reads first.binding.rightPower later right after)
    (extended : Extends least (.binary first isBinary left right) after whole rest) :
    Extends least left (first :: later) whole rest := by
  rcases follows with ⟨rightShorter, follows⟩
  rcases extended with ⟨shorter, same⟩
  refine ⟨by simp only [List.length_cons]; omega, ?_⟩
  rw [extend, dif_pos isBinary, if_pos strong, follows]
  simp only [Option.bind_eq_bind, Option.bind_some, same]
  rfl

theorem Extends.stop (weak : first.kind.isBinary → first.binding.leftPower < least) :
    Extends least left (first :: later) left (first :: later) := by
  refine ⟨Nat.le_refl _, ?_⟩
  rw [extend]
  split
  · rename_i isBinary
    rw [if_neg (Nat.not_le_of_lt (weak isBinary))]
  · rfl

end

/-- The expression that the tokens of a statement are read as, if nothing is left over. -/
def readAll (statement : List Token) : Option Expression :=
  match read 0 statement with
  | some (expression, ⟨[], _⟩) => some expression
  | _ => none

/-! ## Commands

A command pulls no harder at what is on its left than a weak operator does. Behind a stronger one it
would take that operator's place, so it has to come first. -/

end Expression

def Kind.isCommand : Kind → Bool
  | .command _ => true
  | _ => false

/-- What a command may stand behind. -/
def Kind.admitsCommand : Kind → Bool
  | .openParen | .assign | .command .print | .command .delete => true
  | _ => false

/-- Every command is the first token of the statement or stands behind one that admits it. -/
def CommandsLead (statement : List Token) : Prop :=
  statement.IsChain fun earlier later => later.kind.isCommand → earlier.kind.admitsCommand

theorem Token.strength_le (token : Token) : token.binding.strength ≤ 5 := by
  rcases token with ⟨kind, text, position⟩
  cases kind with
  | binary operator => cases operator <;> simp [binding, Kind.binding?, BinaryOperator.binding]
  | command command => cases command <;> simp [binding, Kind.binding?, Command.binding]
  | _ => simp [binding, Kind.binding?]

theorem Token.binding_of_isUnary {token : Token} (isUnary : token.kind.isUnary)
    (notCommand : token.kind.isCommand = false) : token.binding = ⟨5, .right⟩ := by
  rcases token with ⟨kind, text, position⟩
  cases kind with
  | unary operator => rfl
  | command command => cases notCommand
  | _ => cases isUnary

theorem Token.isCommand_readSign (previous : Option Kind) (token : Token) :
    (token.readSign previous).kind.isCommand = token.kind.isCommand := by
  rcases token.readSign_kind previous with same | ⟨before, after⟩
  · rw [same]
  · rw [before, after]
    rfl

theorem Token.admitsCommand_readSign (previous : Option Kind) (token : Token) :
    (token.readSign previous).kind.admitsCommand = token.kind.admitsCommand := by
  rcases token.readSign_kind previous with same | ⟨before, after⟩
  · rw [same]
  · rw [before, after]
    rfl

/-- An operator yields to a command exactly if it does not admit one. -/
theorem Token.yieldsTo_command {operator command : Token}
    (isOperator : operator.kind.isUnary ∨ operator.kind.isBinary)
    (isCommand : command.kind.isCommand) :
    operator.binding.yieldsTo command.binding = !operator.kind.admitsCommand := by
  rcases operator with ⟨kind, _, _⟩
  rcases command with ⟨commandKind, _, _⟩
  cases commandKind with
  | command incoming =>
      cases kind with
      | binary operator => cases operator <;> cases incoming <;> rfl
      | unary operator => cases incoming <;> rfl
      | command waiting => cases waiting <;> cases incoming <;> rfl
      | assign => cases incoming <;> rfl
      | _ => simp [Kind.isUnary, Kind.isBinary] at isOperator
  | _ => cases isCommand

/-- An operator that leads an expression leaves the operator in front of it alone. -/
theorem Token.not_yieldsTo_lead {operator next : Token}
    (isOperator : operator.kind.isUnary ∨ operator.kind.isBinary) (leads : next.leads)
    (placed : next.kind.isCommand → operator.kind.admitsCommand) :
    ¬operator.binding.yieldsTo (next.readSign none).binding := by
  rw [← next.isCommand_readSign none] at placed
  cases isCommand : (next.readSign none).kind.isCommand with
  | true =>
      rw [yieldsTo_command isOperator isCommand, placed isCommand]
      exact Bool.false_ne_true
  | false =>
      have bounded := operator.strength_le
      rw [binding_of_isUnary leads isCommand]
      simp [Binding.yieldsTo, bounded]

namespace Expression

/-! ## Reading what has the right shape -/

/-- An operator between two expressions in front of the remaining tokens has less than the given
power. -/
def StopsBelow (power : Nat) (rest : List Token) : Prop :=
  ∀ operator ∈ rest.head?, operator.kind.isBinary → operator.binding.leftPower < power

/-- The power that an operator must have to go on with what its holder waits for. -/
def leastPower : Option Binding → Nat
  | none => 0
  | some holder => holder.rightPower

/-- What is left behind an expression belongs neither to it nor to any operator that waits in it. -/
structure Stops (holder : Option Binding) (depth : Nat) (expression : Expression)
    (rest : List Token) : Prop where
  shape : shaped false depth rest
  holder : StopsBelow (leastPower holder) rest
  pending : ∀ waiting ∈ expression.pending, StopsBelow waiting.binding.rightPower rest

/-- In parentheses nothing but the closing one can be left. -/
theorem Stops.closing {depth : Nat} {expression : Expression} {rest : List Token}
    (stops : Stops none (depth + 1) expression rest) :
    ∃ closing after, rest = closing :: after ∧ closing.kind = .closeParen ∧
      shaped false depth after := by
  have shape := stops.shape
  match rest, stops with
  | [], _ => simp [shaped] at shape
  | closing :: after, stops =>
      rw [shaped] at shape
      split at shape
      · rename_i closes
        rw [Bool.and_eq_true] at shape
        exact ⟨closing, after, rfl, closes, shape.2⟩
      · rw [Bool.and_eq_true] at shape
        exact absurd (stops.holder closing rfl shape.1) (Nat.not_lt_zero _)

/-- Outside of parentheses nothing can be left. -/
theorem Stops.eq_nil {expression : Expression} {rest : List Token}
    (stops : Stops none 0 expression rest) : rest = [] := by
  have shape := stops.shape
  match rest, stops with
  | [], _ => rfl
  | next :: after, stops =>
      rw [shaped] at shape
      split at shape
      · cases shape
      · rw [Bool.and_eq_true] at shape
        exact absurd (stops.holder next rfl shape.1) (Nat.not_lt_zero _)

/-- What leads an expression leaves its holder alone. -/
def LeadsFor (holder : Option Binding) (tokens : List Token) : Prop :=
  ∀ first ∈ tokens.head?, first.leads →
    ∀ held ∈ holder, ¬held.yieldsTo (first.readSign none).binding

/-- Behind an operator, once its sign has been read, a command stands only where it is admitted. -/
theorem leadsFor_operator {operator read : Token} {later : List Token}
    (same : read.kind.admitsCommand = operator.kind.admitsCommand)
    (isOperator : read.kind.isUnary ∨ read.kind.isBinary)
    (placed : CommandsLead (operator :: later)) :
    LeadsFor (some read.binding) later := by
  rintro first member leads held ⟨⟩
  apply Token.not_yieldsTo_lead isOperator leads
  intro isCommand
  rw [same]
  exact placed.rel_head? member isCommand

theorem not_yieldsTo_of_leastPower {holder : Option Binding} {incoming : Binding}
    (strong : leastPower holder ≤ incoming.leftPower) :
    ∀ held ∈ holder, ¬held.yieldsTo incoming := by
  rintro held ⟨⟩
  rw [Binding.yieldsTo_iff]
  exact Nat.not_lt_of_le strong

mutual

/-- Where an operand is due an expression is read, and it is grouped. -/
theorem reads_of_shaped (tokens : List Token) (holder : Option Binding) {depth : Nat}
    (shape : shaped true depth tokens) (placed : CommandsLead tokens)
    (leading : LeadsFor holder tokens) :
    ∃ expression rest, Reads (leastPower holder) tokens expression rest ∧
      expression.tokens ++ rest = tokens ∧ expression.Grouped holder ∧
      Stops holder depth expression rest := by
  match tokens with
  | [] => cases shape
  | first :: later =>
      have placedLater : CommandsLead later := placed.tail
      rw [shaped] at shape
      split at shape
      · rename_i isOperand
        rcases extends_of_shaped (.operand first isOperand) later holder shape placedLater trivial
            (fun _ member => nomatch member) with ⟨whole, rest, extended, same, grouped, stops⟩
        exact ⟨whole, rest, .operand isOperand extended, same, grouped, stops⟩
      · split at shape
        · rename_i opens
          obtain ⟨inner, inside, reads, innerSame, innerGrouped, innerStops⟩ :=
            reads_of_shaped later none shape placedLater (fun _ _ _ _ none => nomatch none)
          rcases innerStops.closing with ⟨closing, after, rfl, closes, shapeAfter⟩
          have placedAfter : CommandsLead after := by
            rw [← innerSame] at placedLater
            exact (List.IsChain.right_of_append placedLater).tail
          rcases extends_of_shaped (.group first closing opens closes inner) after holder shapeAfter
              placedAfter innerGrouped (fun _ none => nomatch none) with
            ⟨whole, rest, extended, same, grouped, stops⟩
          refine ⟨whole, rest, .group opens closes reads extended, ?_, grouped, stops⟩
          rw [same, Expression.tokens, ← innerSame]
          simp
        · rw [Bool.and_eq_true] at shape
          rcases shape with ⟨leads, shapeLater⟩
          rcases reads_of_shaped later (some (first.readSign none).binding) shapeLater placedLater
              (leadsFor_operator (first.admitsCommand_readSign none) (.inl leads) placed) with
            ⟨argument, after, reads, argumentSame, argumentGrouped, argumentStops⟩
          have wholePending : ∀ waiting ∈ (unary first leads argument).pending,
              StopsBelow waiting.binding.rightPower after := by
            intro waiting member
            rw [Expression.pending, List.mem_append, List.mem_singleton] at member
            rcases member with member | rfl
            · exact argumentStops.pending waiting member
            · exact argumentStops.holder
          have placedAfter : CommandsLead after := by
            rw [← argumentSame] at placedLater
            exact List.IsChain.right_of_append placedLater
          rcases extends_of_shaped (.unary first leads argument) after holder argumentStops.shape
              placedAfter ⟨leading first rfl leads, argumentGrouped⟩ wholePending with
            ⟨whole, rest, extended, same, grouped, stops⟩
          refine ⟨whole, rest, .unary leads reads extended, ?_, grouped, stops⟩
          rw [same, Expression.tokens, ← argumentSame]
          simp
termination_by tokens.length

/-- Behind an expression whatever belongs to it is read. -/
theorem extends_of_shaped (left : Expression) (tokens : List Token) (holder : Option Binding)
    {depth : Nat} (shape : shaped false depth tokens) (placed : CommandsLead tokens)
    (leftGrouped : left.Grouped holder)
    (pending : ∀ waiting ∈ left.pending, StopsBelow waiting.binding.rightPower tokens) :
    ∃ whole rest, Extends (leastPower holder) left tokens whole rest ∧
      whole.tokens ++ rest = left.tokens ++ tokens ∧ whole.Grouped holder ∧
      Stops holder depth whole rest := by
  match tokens with
  | [] => exact ⟨left, [], .nil, rfl, leftGrouped, shape, (fun _ none => nomatch none), pending⟩
  | first :: later =>
      by_cases goesOn : first.kind.isBinary ∧ leastPower holder ≤ first.binding.leftPower
      · rcases goesOn with ⟨isBinary, strong⟩
        rw [shaped, if_neg (Kind.ne_closeParen_of_isBinary isBinary), isBinary,
          Bool.true_and] at shape
        rcases reads_of_shaped later (some first.binding) shape placed.tail
            (leadsFor_operator rfl (.inr isBinary) placed) with
          ⟨right, after, reads, rightSame, rightGrouped, rightStops⟩
        have wholeGrouped : (binary first isBinary left right).Grouped holder :=
          ⟨not_yieldsTo_of_leastPower strong, leftGrouped, fun waiting member =>
            (Binding.yieldsTo_iff ..).mpr (pending waiting member first rfl isBinary), rightGrouped⟩
        have wholePending : ∀ waiting ∈ (binary first isBinary left right).pending,
            StopsBelow waiting.binding.rightPower after := by
          intro waiting member
          rw [Expression.pending, List.mem_append, List.mem_singleton] at member
          rcases member with member | rfl
          · exact rightStops.pending waiting member
          · exact rightStops.holder
        have placedAfter : CommandsLead after := by
          have placedLater : CommandsLead later := placed.tail
          rw [← rightSame] at placedLater
          exact List.IsChain.right_of_append placedLater
        rcases extends_of_shaped (.binary first isBinary left right) after holder rightStops.shape
            placedAfter wholeGrouped wholePending with ⟨whole, rest, extended, same, grouped, stops⟩
        refine ⟨whole, rest, .binary isBinary strong reads extended, ?_, grouped, stops⟩
        rw [same, Expression.tokens, ← rightSame]
        simp
      · have weak : StopsBelow (leastPower holder) (first :: later) := by
          rintro operator ⟨⟩ isBinary
          exact Nat.lt_of_not_le fun strong => goesOn ⟨isBinary, strong⟩
        exact ⟨left, first :: later, .stop (weak first rfl), rfl, leftGrouped, shape, weak, pending⟩
termination_by tokens.length

end

/-- A statement whose operands and operators take turns is read as a whole. -/
theorem readAll_of_shaped {statement : List Token} (shape : shaped true 0 statement)
    (placed : CommandsLead statement) :
    ∃ expression, readAll statement = some expression ∧ expression.tokens = statement ∧
      expression.Grouped none := by
  rcases reads_of_shaped statement none shape placed (fun _ _ _ _ none => nomatch none) with
    ⟨expression, rest, ⟨shorter, reads⟩, same, grouped, stops⟩
  cases stops.eq_nil
  rw [List.append_nil] at same
  refine ⟨expression, ?_, same, grouped⟩
  rw [leastPower] at reads
  rw [readAll, reads]

end Expression

end Scriptlet
