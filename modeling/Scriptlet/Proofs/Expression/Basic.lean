import Scriptlet.Proofs.Building

/-! Expressions as they are written: operands, parentheses, operators in front of one expression and
operators between two. An expression is a derivation of its own tokens, so the tokens of a
statement are a sentence if some expression is written that way. -/

namespace Scriptlet

/-- A minus sign in front of an expression is unary, whatever its kind says. -/
def Token.leads (token : Token) : Bool :=
  (token.readSign none).kind.isUnary

inductive Expression where
  | operand (token : Token) (isOperand : token.kind.isOperand)
  | group (opening closing : Token) (opens : opening.kind = .openParen)
      (closes : closing.kind = .closeParen) (inner : Expression)
  | unary (operator : Token) (leads : operator.leads) (argument : Expression)
  | binary (operator : Token) (isBinary : operator.kind.isBinary) (left right : Expression)

namespace Expression

/-- The expression as it is written. -/
def tokens : Expression → List Token
  | operand token _ => [token]
  | group opening closing _ _ inner => opening :: (inner.tokens ++ [closing])
  | unary operator _ argument => operator :: argument.tokens
  | binary operator _ left right => left.tokens ++ operator :: right.tokens

/-- Whether tokens can be derived as an expression. -/
def Derives (statement : List Token) : Prop :=
  ∃ expression : Expression, expression.tokens = statement

/-! ## Post order

While an expression is read, the operators along its right edge wait: what follows may still take
their last operand away. -/

mutual

/-- What has been put in post order when the last token has been read. -/
def settled : Expression → List Token
  | operand token _ => [token]
  | group _ _ _ _ inner => inner.postOrder
  | unary _ _ argument => argument.settled
  | binary _ _ left right => left.postOrder ++ right.settled

/-- What waits when the last token has been read, the latest first. -/
def pending : Expression → List Token
  | operand _ _ | group _ _ _ _ _ => []
  | unary operator _ argument => argument.pending ++ [operator.readSign none]
  | binary operator _ _ right => right.pending ++ [operator]

def postOrder : Expression → List Token
  | operand token _ => [token]
  | group _ _ _ _ inner => inner.postOrder
  | unary operator _ argument => argument.postOrder ++ [operator.readSign none]
  | binary operator _ left right => left.postOrder ++ right.postOrder ++ [operator]

end

theorem settled_append_pending (expression : Expression) :
    expression.settled ++ expression.pending = expression.postOrder := by
  induction expression with
  | operand | group => simp [settled, pending, postOrder]
  | unary operator leads argument induction =>
      rw [settled, pending, postOrder, ← List.append_assoc, induction]
  | binary operator isBinary left right _ induction =>
      rw [settled, pending, postOrder, List.append_assoc, ← List.append_assoc right.settled,
        induction, List.append_assoc]

/-! ## Trees -/

/-- A node is one level deeper than its deepest operand; parentheses add no level. -/
def depth : Expression → Nat
  | operand _ _ => 1
  | group _ _ _ _ inner => inner.depth
  | unary _ _ argument => argument.depth + 1
  | binary _ _ left right => max left.depth right.depth + 1

theorem depth_le_length (expression : Expression) :
    expression.depth ≤ expression.tokens.length := by
  induction expression with
  | operand => simp [depth, tokens]
  | group _ _ _ _ inner induction =>
      simp only [depth, tokens, List.length_cons, List.length_append]
      omega
  | unary _ _ argument induction =>
      simp only [depth, tokens, List.length_cons]
      omega
  | binary _ _ left right leftInduction rightInduction =>
      simp only [depth, tokens, List.length_cons, List.length_append]
      omega

/-- The tree that an expression stands for, with its strings and names entered from left to right. -/
def tree : Expression → Symbols → Tree × Symbols
  | operand token _, symbols => token.leaf symbols
  | group _ _ _ _ inner, symbols => inner.tree symbols
  | unary operator _ argument, symbols =>
      let (below, symbols) := argument.tree symbols
      ((operator.readSign none).over below, symbols)
  | binary operator _ left right, symbols =>
      let (first, symbols) := left.tree symbols
      let (second, symbols) := right.tree symbols
      (operator.between first second, symbols)

/-- Building from the post order of an expression leaves its tree on top of the operands. -/
theorem absorb_postOrder (expression : Expression) {limit : Nat}
    (fits : expression.depth ≤ limit) (operands : List Operand) (symbols : Symbols) :
    (expression.postOrder.foldlM (absorb limit) operands).runFrom symbols =
      (.ok (⟨(expression.tree symbols).1, expression.depth⟩ :: operands),
        (expression.tree symbols).2) := by
  induction expression generalizing operands symbols with
  | operand token isOperand =>
      rw [postOrder, List.foldlM_cons, Parse.runFrom_bind, absorb_operand isOperand]
      rfl
  | group opening closing opens closes inner induction => exact induction fits operands symbols
  | unary operator leads argument induction =>
      rw [depth] at fits
      rw [postOrder, List.foldlM_append,
        Parse.runFrom_bind_of_ok (induction (by omega) operands symbols), List.foldlM_cons,
        absorb_unary_cons leads, bind_assoc, Parse.runFrom_bind, Operand.runFrom_combine,
        if_neg (by dsimp only; omega)]
      rfl
  | binary operator isBinary left right leftInduction rightInduction =>
      rw [depth] at fits
      rw [postOrder, List.foldlM_append, List.foldlM_append, bind_assoc,
        Parse.runFrom_bind_of_ok (leftInduction (by omega) operands symbols),
        Parse.runFrom_bind_of_ok (rightInduction (by omega) _ _), List.foldlM_cons,
        absorb_binary_cons isBinary, bind_assoc, Parse.runFrom_bind, Operand.runFrom_combine,
        if_neg (by dsimp only; omega)]
      rfl

/-- A statement in the post order of an expression has that expression's tree. -/
theorem statementTree_postOrder (expression : Expression) {limit : Nat}
    (fits : expression.depth ≤ limit) (symbols : Symbols) :
    (statementTree limit expression.postOrder).runFrom symbols =
      (.ok (some (expression.tree symbols).1), (expression.tree symbols).2) := by
  rw [statementTree, Parse.runFrom_bind_of_ok (expression.absorb_postOrder fits [] symbols)]
  rfl

end Expression

end Scriptlet
