import Scriptlet.Program
import Scriptlet.Proofs.Parse
import Scriptlet.Proofs.PostOrder

/-! How trees are built: what one token does to the operands, and the statements of a token sequence
as those of its parts. -/

namespace Scriptlet

/-! ## One token -/

/-- The operators that stand behind one operand in post order. -/
def Kind.isUnary : Kind → Bool
  | .unary _ | .command _ => true
  | _ => false

/-- The operators that stand behind two operands in post order. -/
def Kind.isBinary : Kind → Bool
  | .binary _ | .assign => true
  | _ => false

/-- The tree of an operand. Only a string or a name concerns the tables. -/
def Token.leaf (token : Token) (symbols : Symbols) : Tree × Symbols :=
  match token.kind with
  | .integer => (.integer token.text token.position, symbols)
  | .decimal => (.decimal token.text token.position, symbols)
  | .string =>
      let (handle, symbols) := symbols.enterString token.text
      (.string handle token.position, symbols)
  | .identifier =>
      let (handle, symbols) := symbols.enterName token.text
      (.identifier handle token.position, symbols)
  | _ => (.boolean (token.text == "true") token.position, symbols)

/-- The tree of an operator over one operand. -/
def Token.over (operator : Token) (operand : Tree) : Tree :=
  match operator.kind with
  | .command command => .command command operand operator.position
  | .unary unary => .unary unary operand operator.position
  | _ => operand

/-- The tree of an operator between two operands. -/
def Token.between (operator : Token) (left right : Tree) : Tree :=
  match operator.kind with
  | .binary binary => .binary binary left right operator.position
  | _ => .assign left right operator.position

theorem absorb_operand {token : Token} (isOperand : token.kind.isOperand) (limit : Nat)
    (operands : List Operand) (symbols : Symbols) :
    (absorb limit operands token).runFrom symbols =
      (.ok (⟨(token.leaf symbols).1, 1⟩ :: operands), (token.leaf symbols).2) := by
  rcases token with ⟨kind, text, position⟩
  cases kind <;> first | rfl | cases isOperand

theorem absorb_unary_cons {token : Token} (isUnary : token.kind.isUnary) (limit : Nat)
    (operand : Operand) (below : List Operand) :
    absorb limit (operand :: below) token = do
      let combined ← Operand.combine limit operand.depth (token.over operand.tree)
      return combined :: below := by
  rcases token with ⟨kind, text, position⟩
  cases kind <;> first | rfl | cases isUnary

theorem absorb_unary_nil {token : Token} (isUnary : token.kind.isUnary) (limit : Nat) :
    absorb limit [] token = .fail (.missingOperand token.text) token.position := by
  rcases token with ⟨kind, text, position⟩
  cases kind <;> first | rfl | cases isUnary

theorem absorb_binary_cons {token : Token} (isBinary : token.kind.isBinary) (limit : Nat)
    (right left : Operand) (below : List Operand) :
    absorb limit (right :: left :: below) token = do
      let combined ← Operand.combine limit (max left.depth right.depth)
        (token.between left.tree right.tree)
      return combined :: below := by
  rcases token with ⟨kind, text, position⟩
  cases kind <;> first | rfl | cases isBinary

theorem absorb_binary_short {token : Token} (isBinary : token.kind.isBinary) (limit : Nat)
    {operands : List Operand} (short : operands.length < 2) :
    absorb limit operands token = .fail (.missingOperand token.text) token.position := by
  rcases token with ⟨kind, text, position⟩
  match operands, short with
  | [], _ => cases kind <;> first | rfl | cases isBinary
  | [_], _ => cases kind <;> first | rfl | cases isBinary

theorem absorb_other {token : Token} (notOperand : token.kind.isOperand = false)
    (notUnary : token.kind.isUnary = false) (notBinary : token.kind.isBinary = false)
    (limit : Nat) (operands : List Operand) :
    absorb limit operands token = .fail (.unexpectedToken token.text) token.position := by
  rcases token with ⟨kind, text, position⟩
  cases kind with
  | identifier | string | integer | decimal | boolean => cases notOperand
  | unary | command => cases notUnary
  | binary | assign => cases notBinary
  | _ => rfl

theorem Operand.runFrom_combine (limit below : Nat) (tree : Tree) (symbols : Symbols) :
    (combine limit below tree).runFrom symbols =
      if limit < below + 1 then (.error ⟨.nestingTooDeep limit, tree.position⟩, symbols)
      else (.ok ⟨tree, below + 1⟩, symbols) := by
  unfold combine
  split <;> rfl

theorem Operand.combine_eq_ok {limit below : Nat} {tree : Tree} {symbols final : Symbols}
    {operand : Operand} (combined : (combine limit below tree).runFrom symbols =
      (.ok operand, final)) :
    operand = ⟨tree, below + 1⟩ ∧ final = symbols := by
  rw [runFrom_combine] at combined
  split at combined
  · cases combined
  · cases combined
    exact ⟨rfl, rfl⟩

/-- What a token can do to the operands without failing. -/
theorem absorb_cases {limit : Nat} {operands after : List Operand} {token : Token}
    {symbols final : Symbols}
    (absorbed : (absorb limit operands token).runFrom symbols = (.ok after, final)) :
    (token.kind.isOperand ∧ after = ⟨(token.leaf symbols).1, 1⟩ :: operands ∧
      final = (token.leaf symbols).2) ∨
    (token.kind.isUnary ∧ final = symbols ∧ ∃ operand below, operands = operand :: below ∧
      after = ⟨token.over operand.tree, operand.depth + 1⟩ :: below) ∨
    (token.kind.isBinary ∧ final = symbols ∧ ∃ right left below,
      operands = right :: left :: below ∧
      after = ⟨token.between left.tree right.tree, max left.depth right.depth + 1⟩ :: below) := by
  by_cases isOperand : token.kind.isOperand
  · rw [absorb_operand isOperand] at absorbed
    cases absorbed
    exact .inl ⟨isOperand, rfl, rfl⟩
  by_cases isUnary : token.kind.isUnary
  · cases operands with
    | nil =>
        rw [absorb_unary_nil isUnary] at absorbed
        cases absorbed
    | cons operand below =>
        rw [absorb_unary_cons isUnary, Parse.runFrom_bind_eq_ok] at absorbed
        rcases absorbed with ⟨combined, middle, combine, rest⟩
        rcases Operand.combine_eq_ok combine with ⟨rfl, rfl⟩
        cases rest
        exact .inr (.inl ⟨isUnary, rfl, operand, below, rfl, rfl⟩)
  by_cases isBinary : token.kind.isBinary
  · match operands with
    | [] | [_] =>
        rw [absorb_binary_short isBinary limit (by simp)] at absorbed
        cases absorbed
    | right :: left :: below =>
        rw [absorb_binary_cons isBinary, Parse.runFrom_bind_eq_ok] at absorbed
        rcases absorbed with ⟨combined, middle, combine, rest⟩
        rcases Operand.combine_eq_ok combine with ⟨rfl, rfl⟩
        cases rest
        exact .inr (.inr ⟨isBinary, rfl, right, left, below, rfl, rfl⟩)
  · rw [absorb_other (by simpa using isOperand) (by simpa using isUnary)
      (by simpa using isBinary)] at absorbed
    cases absorbed

/-! ## One statement -/

/-- The tree of a statement in post order, if it has one. -/
def statementTree (limit : Nat) (run : List Token) : Parse (Option Tree) := do
  let operands ← run.foldlM (absorb limit) []
  completeStatement operands

theorem treesFrom_append {run : List Token} (plain : OneStatement run) (limit : Nat)
    (operands : List Operand) (later : List Token) :
    treesFrom limit operands (run ++ later) =
      run.foldlM (absorb limit) operands >>= fun operands => treesFrom limit operands later := by
  induction run generalizing operands with
  | nil => rfl
  | cons token rest induction =>
      have inside := plain token List.mem_cons_self
      rw [List.cons_append, treesFrom, inside, List.foldlM_cons, bind_assoc]
      simp only [Bool.false_eq_true, if_false]
      congr
      funext operands
      exact induction (fun token member => plain token (List.mem_cons_of_mem _ member)) operands

/-- The trees of runs that are each followed by the token that closes it. -/
theorem treesOf_closeRuns (limit : Nat) {runs : List (List Token)} {closings : List Token}
    (plain : ∀ run ∈ runs, OneStatement run)
    (close : ∀ closing ∈ closings, closing.kind.endsStatement)
    (enough : runs.length = closings.length) :
    treesOf limit (closeRuns runs closings) = do
      let statements ← runs.mapM (statementTree limit)
      return statements.reduceOption := by
  induction runs generalizing closings with
  | nil => rfl
  | cons run later induction =>
      cases closings with
      | nil => cases enough
      | cons closing others =>
          have rest := @induction others
            (fun run member => plain run (List.mem_cons_of_mem _ member))
            (fun closing member => close closing (List.mem_cons_of_mem _ member))
            (Nat.succ.inj enough)
          rw [treesOf] at rest
          rw [treesOf, closeRuns, List.zipWith_cons_cons, List.flatten_cons, List.append_assoc,
            List.singleton_append, treesFrom_append (plain run List.mem_cons_self), List.mapM_cons,
            statementTree]
          simp only [treesFrom, close closing List.mem_cons_self, if_true]
          change (run.foldlM (absorb limit) [] >>= fun operands => do
            let statement ← completeStatement operands
            let following ← treesFrom limit [] (closeRuns later others)
            return statement.toList ++ following) = _
          rw [rest]
          simp only [bind_assoc, pure_bind]
          congr
          funext operands
          congr
          funext statement
          congr
          funext statements
          cases statement <;> rfl

/-! ## Statement after statement -/

theorem closingsIn_close (mark : Token) (marks : mark.kind = .endOfInput) (tokens : List Token) :
    ∀ closing ∈ closingsIn mark tokens, closing.kind.endsStatement := by
  intro closing member
  rw [closingsIn, List.mem_append, List.mem_singleton] at member
  rcases member with terminator | rfl
  · have isTerminator := (List.mem_filter.mp terminator).2
    simp [Kind.endsStatement, isTerminator]
  · cases found : tokens.find? (·.kind == .endOfInput) with
    | none => simp [Kind.endsStatement, marks]
    | some ending =>
        have ends := List.find?_some found
        simp [Kind.endsStatement, ends]

theorem length_statementsIn (mark : Token) (tokens : List Token) :
    (statementsIn tokens).length = (closingsIn mark tokens).length := by
  induction tokens using statements_induction with
  | last statement plain =>
      rw [statementsIn_statement plain, closingsIn_statement mark plain]
      rfl
  | ended statement closing later plain closes =>
      rw [statementsIn_end plain closes, closingsIn_end mark plain closes]
      rfl
  | closed statement closing later plain closes induction =>
      rw [statementsIn_terminator plain closes, closingsIn_terminator mark plain closes,
        List.length_cons, List.length_cons, induction]

theorem oneStatement_of_mem_statementsIn {tokens statement : List Token}
    (member : statement ∈ statementsIn tokens) : OneStatement statement := by
  induction tokens using statements_induction with
  | last single plain =>
      rw [statementsIn_statement plain, List.mem_singleton] at member
      exact member ▸ plain
  | ended single closing later plain closes =>
      rw [statementsIn_end plain closes, List.mem_singleton] at member
      exact member ▸ plain
  | closed first closing later plain closes induction =>
      rw [statementsIn_terminator plain closes, List.mem_cons] at member
      rcases member with rfl | member
      · exact plain
      · exact induction member

/-- The runs that a list of statements gives are made of statements. -/
theorem oneStatement_of_mapM_statementOrder {table : BindingTable}
    {statements runs : List (List Token)}
    (plain : ∀ statement ∈ statements, OneStatement statement)
    (ordered : statements.mapM (statementOrder table) = .ok runs) :
    runs.length = statements.length ∧ ∀ run ∈ runs, OneStatement run := by
  induction statements generalizing runs with
  | nil =>
      cases ordered
      simp
  | cons statement later induction =>
      rw [List.mapM_cons] at ordered
      cases first : statementOrder table statement with
      | error error =>
          rw [first] at ordered
          cases ordered
      | ok run =>
          cases rest : later.mapM (statementOrder table) with
          | error error =>
              rw [first, rest] at ordered
              cases ordered
          | ok following =>
              rw [first, rest] at ordered
              cases ordered
              have after := induction
                (fun statement member => plain statement (List.mem_cons_of_mem _ member)) rest
              have here := (plain statement List.mem_cons_self).of_statementOrder first
              refine ⟨congrArg (· + 1) after.1, ?_⟩
              intro selected member
              rcases List.mem_cons.mp member with rfl | member
              · exact here
              · exact after.2 selected member

/-- The statements of tokens without a block: every statement is put in post order before the first
tree is built. -/
theorem straightStatements_eq (limit : Nat) (tokens : List Token) :
    straightStatements limit tokens =
      Parse.ofExcept ((statementsIn tokens).mapM (statementOrder Kind.binding?)) >>= fun runs =>
        runs.mapM (statementTree limit) >>= fun statements =>
          return statements.reduceOption := by
  rw [straightStatements, postOrder, postOrderWith, arrange_eq]
  cases ordered : (statementsIn tokens).mapM (statementOrder Kind.binding?) with
  | error error => rfl
  | ok runs =>
      have each := oneStatement_of_mapM_statementOrder
        (fun _ member => oneStatement_of_mem_statementsIn member) ordered
      exact treesOf_closeRuns limit each.2
        (closingsIn_close (.endOfInput (lastLine tokens)) rfl tokens)
        (each.1.trans (length_statementsIn _ tokens))

end Scriptlet
