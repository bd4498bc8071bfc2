import Scriptlet.Proofs.Diagnostics.Parsing
import Scriptlet.Proofs.Printing.Expression
import Scriptlet.Proofs.Session.Invariant

/-! Post order is a serialisation of trees. The tokens from which trees can be built are those that
some expressions have in post order; the expressions are determined by the tokens, and the tokens by
the trees. -/

namespace Scriptlet

/-! ## Expressions and their post orders -/

section

variable {token : Token}

theorem Token.readSign_of_isUnary (isUnary : token.kind.isUnary) : token.readSign none = token := by
  apply Token.readSign_of_kind_ne
  intro sign
  rw [sign] at isUnary
  cases isUnary

theorem Token.leads_of_isUnary (isUnary : token.kind.isUnary) : token.leads := by
  rw [leads, readSign_of_isUnary isUnary]
  exact isUnary

end

namespace Expression

/-- An expression without parentheses, in which every sign has been read. -/
def Bare : Expression → Prop
  | operand _ _ => True
  | group _ _ _ _ _ => False
  | unary operator _ argument => operator.kind.isUnary ∧ argument.Bare
  | binary _ _ left right => left.Bare ∧ right.Bare

/-! ### Reading back -/

/-- Takes in one token of a post order. The latest expression comes first. -/
def restore (stack : List Expression) (token : Token) : Option (List Expression) :=
  if isOperand : token.kind.isOperand then some (operand token isOperand :: stack)
  else if isUnary : token.kind.isUnary then
    match stack with
    | argument :: below => some (unary token (Token.leads_of_isUnary isUnary) argument :: below)
    | [] => none
  else if isBinary : token.kind.isBinary then
    match stack with
    | right :: left :: below => some (binary token isBinary left right :: below)
    | _ => none
  else none

section

variable {token : Token}

theorem restore_operand (isOperand : token.kind.isOperand) (stack : List Expression) :
    restore stack token = some (operand token isOperand :: stack) :=
  dif_pos isOperand

theorem restore_unary (isUnary : token.kind.isUnary) (argument : Expression)
    (below : List Expression) :
    restore (argument :: below) token =
      some (unary token (Token.leads_of_isUnary isUnary) argument :: below) := by
  rw [restore, dif_neg (by simp [Kind.not_isOperand_of_isUnary isUnary]), dif_pos isUnary]

theorem restore_binary (isBinary : token.kind.isBinary) (right left : Expression)
    (below : List Expression) :
    restore (right :: left :: below) token = some (binary token isBinary left right :: below) := by
  have notUnary : ¬token.kind.isUnary := by
    intro isUnary
    rw [(Kind.not_isOperand_of_isUnary isUnary).2] at isBinary
    cases isBinary
  rw [restore, dif_neg (by simp [Kind.not_isOperand_of_isBinary isBinary]), dif_neg notUnary,
    dif_pos isBinary]

end

/-- What is read back of a post order is the expression that it belongs to. -/
theorem Bare.restore_postOrder {expression : Expression} (bare : expression.Bare)
    (stack : List Expression) :
    expression.postOrder.foldlM restore stack = some (expression :: stack) := by
  induction expression generalizing stack with
  | operand token isOperand =>
      rw [postOrder, List.foldlM_cons, restore_operand isOperand]
      rfl
  | group => exact bare.elim
  | unary operator leads argument induction =>
      rw [postOrder, Token.readSign_of_isUnary bare.1, List.foldlM_append, induction bare.2]
      exact congrArg (· >>= pure) (restore_unary bare.1 argument stack)
  | binary operator isBinary left right leftInduction rightInduction =>
      rw [postOrder, List.foldlM_append, List.foldlM_append, leftInduction bare.1]
      change (right.postOrder.foldlM restore (left :: stack) >>= _) = _
      rw [rightInduction bare.2]
      exact congrArg (· >>= pure) (restore_binary isBinary right left stack)

theorem Bare.eq_of_postOrder {first second : Expression} (bare : first.Bare) (other : second.Bare)
    (same : first.postOrder = second.postOrder) : first = second := by
  have once := bare.restore_postOrder []
  rw [same, other.restore_postOrder] at once
  exact (List.singleton_inj.mp (Option.some.inj once)).symm

/-! ### Building -/

/-- The post orders of expressions that wait, the earliest first. -/
def waitingTokens (stack : List Expression) : List Token :=
  stack.reverse.flatMap postOrder

theorem waitingTokens_cons (expression : Expression) (below : List Expression) :
    waitingTokens (expression :: below) = waitingTokens below ++ expression.postOrder := by
  simp [waitingTokens]

/-- Operands that can be built are those of bare expressions. -/
theorem exists_stack {limit : Nat} {run : List Token} {operands : List Operand}
    {symbols final : Symbols}
    (absorbed : (run.foldlM (absorb limit) []).runFrom symbols = (.ok operands, final)) :
    ∃ stack : List Expression, stack.length = operands.length ∧ (∀ waits ∈ stack, waits.Bare) ∧
      waitingTokens stack = run := by
  induction run using List.reverseRecOn generalizing operands final with
  | nil =>
      cases absorbed
      exact ⟨[], rfl, by simp, rfl⟩
  | append_singleton earlier token induction =>
      rw [List.foldlM_append, Parse.runFrom_bind_eq_ok] at absorbed
      obtain ⟨middle, between, built, last⟩ := absorbed
      obtain ⟨stack, length, bare, rfl⟩ := induction built
      rw [List.foldlM_cons, Parse.runFrom_bind_eq_ok] at last
      obtain ⟨after, later, step, done⟩ := last
      cases done
      obtain ⟨isOperand, rfl, _⟩ | ⟨isUnary, _, operand, below, rfl, rfl⟩ |
        ⟨isBinary, _, right, left, below, rfl, rfl⟩ := absorb_cases step
      · refine ⟨operand token isOperand :: stack, congrArg (· + 1) length, ?_, ?_⟩
        · exact List.forall_mem_cons.mpr ⟨trivial, bare⟩
        · rw [waitingTokens_cons, postOrder]
      · obtain ⟨argument, others, rfl⟩ := List.exists_cons_of_length_eq_add_one length
        rw [List.forall_mem_cons] at bare
        refine ⟨unary token (Token.leads_of_isUnary isUnary) argument :: others, length, ?_, ?_⟩
        · exact List.forall_mem_cons.mpr ⟨⟨isUnary, bare.1⟩, bare.2⟩
        · rw [waitingTokens_cons, waitingTokens_cons, postOrder,
            Token.readSign_of_isUnary isUnary, List.append_assoc]
      · obtain ⟨second, rest, rfl⟩ := List.exists_cons_of_length_eq_add_one length
        obtain ⟨first, others, rfl⟩ := List.exists_cons_of_length_eq_add_one (Nat.succ.inj length)
        rw [List.forall_mem_cons, List.forall_mem_cons] at bare
        refine ⟨binary token isBinary first second :: others, by simpa using length, ?_, ?_⟩
        · exact List.forall_mem_cons.mpr ⟨⟨bare.2.1, bare.1⟩, bare.2.2⟩
        · simp only [waitingTokens_cons, postOrder, List.append_assoc]

/-- A statement that can be built is empty or the post order of a bare expression. -/
theorem bare_of_statementTree {limit : Nat} {run : List Token} {statement : Option Tree}
    {symbols final : Symbols}
    (built : (statementTree limit run).runFrom symbols = (.ok statement, final)) :
    run = [] ∨ ∃ expression : Expression, expression.Bare ∧ expression.postOrder = run := by
  rw [statementTree, Parse.runFrom_bind_eq_ok] at built
  obtain ⟨operands, middle, absorbed, completed⟩ := built
  obtain ⟨stack, length, bare, rfl⟩ := exists_stack absorbed
  obtain ⟨_, ⟨rfl, _⟩ | ⟨only, rfl, _⟩⟩ := completeStatement_eq_ok completed
  · rw [List.length_nil, List.length_eq_zero_iff] at length
    exact .inl (by rw [length]; rfl)
  · obtain ⟨expression, rfl⟩ := List.length_eq_one_iff.mp length
    exact .inr ⟨expression, bare expression List.mem_cons_self, by simp [waitingTokens]⟩

theorem postOrder_ne_nil (expression : Expression) : expression.postOrder ≠ [] := by
  induction expression with
  | operand | unary | binary => simp [postOrder]
  | group _ _ _ _ inner induction => exact induction

theorem depth_le_length_postOrder (expression : Expression) :
    expression.depth ≤ expression.postOrder.length := by
  induction expression with
  | operand => simp [depth, postOrder]
  | group _ _ _ _ inner induction => exact induction
  | unary _ _ argument induction =>
      simp only [depth, postOrder, List.length_append, List.length_singleton]
      omega
  | binary _ _ left right leftInduction rightInduction =>
      simp only [depth, postOrder, List.length_append, List.length_singleton]
      omega

/-- The trees of expressions, with their strings and names entered from left to right. -/
def trees : List Expression → Symbols → List Tree × Symbols
  | [], symbols => ([], symbols)
  | expression :: later, symbols =>
      let (first, symbols) := expression.tree symbols
      let (others, symbols) := trees later symbols
      (first :: others, symbols)

end Expression

/-! ## Sequences of statements -/

theorem treesFrom_mark (limit : Nat) (operands : List Operand) (tokens : List Token) {mark : Token}
    (closes : mark.kind.endsStatement) :
    treesFrom limit operands (tokens ++ [mark]) = treesFrom limit operands tokens := by
  induction tokens generalizing operands with
  | nil =>
      have nothing : treesFrom limit [] [] = (pure [] : Parse (List Tree)) := rfl
      rw [List.nil_append, treesFrom.eq_2, if_pos closes, nothing, treesFrom]
      simp only [pure_bind, List.append_nil]
  | cons token later induction =>
      rw [List.cons_append, treesFrom, treesFrom]
      simp only [induction]

theorem mem_of_mem_splitOnP {test : α → Bool} {items piece : List α} {item : α}
    (member : piece ∈ items.splitOnP test) (inside : item ∈ piece) :
    item ∈ items ∧ test item = false := by
  have within := List.mem_flatten_of_mem member inside
  rw [flatten_splitOnP, List.mem_filter] at within
  simpa using within

theorem length_le_of_mem_splitOnP {test : α → Bool} {items piece : List α}
    (member : piece ∈ items.splitOnP test) : piece.length ≤ items.length := by
  have within := (List.sublist_flatten_of_mem member).length_le
  rw [flatten_splitOnP] at within
  exact within.trans (List.length_filter_le _ _)

/-- Every piece between two closing tokens is built on its own. -/
theorem treesOf_eq (limit : Nat) (tokens : List Token) :
    treesOf limit tokens =
      (tokens.splitOnP (·.kind.endsStatement)).mapM (statementTree limit) >>= fun statements =>
        return statements.reduceOption := by
  have closes : (Token.endOfInput 0).kind.endsStatement := rfl
  rw [treesOf, ← treesFrom_mark limit [] tokens closes,
    ← closeRuns_splitOnP (·.kind.endsStatement) tokens, ← treesOf]
  apply treesOf_closeRuns
  · exact fun piece member token inside => (mem_of_mem_splitOnP member inside).2
  · intro closing member
    rcases List.mem_append.mp member with member | member
    · exact (List.mem_filter.mp member).2
    · rw [List.mem_singleton.mp member]
      exact closes
  · rw [length_splitOnP, List.length_append, List.length_singleton]

theorem bare_of_statementTrees {limit : Nat} {pieces : List (List Token)}
    {statements : List (Option Tree)} {symbols final : Symbols}
    (built : (pieces.mapM (statementTree limit)).runFrom symbols = (.ok statements, final)) :
    ∀ piece ∈ pieces, piece = [] ∨
      ∃ expression : Expression, expression.Bare ∧ expression.postOrder = piece := by
  induction pieces generalizing symbols statements final with
  | nil => exact fun _ none => nomatch none
  | cons piece later induction =>
      rw [List.mapM_cons, Parse.runFrom_bind_eq_ok] at built
      obtain ⟨statement, middle, first, rest⟩ := built
      rw [Parse.runFrom_bind_eq_ok] at rest
      obtain ⟨others, _, following, _⟩ := rest
      exact List.forall_mem_cons.mpr ⟨Expression.bare_of_statementTree first, induction following⟩

/-- The expressions of pieces that are not empty. -/
theorem exists_expressions {pieces : List (List Token)}
    (each : ∀ piece ∈ pieces, piece = [] ∨
      ∃ expression : Expression, expression.Bare ∧ expression.postOrder = piece) :
    ∃ expressions : List Expression, (∀ expression ∈ expressions, expression.Bare) ∧
      pieces.filter (!·.isEmpty) = expressions.map Expression.postOrder := by
  induction pieces with
  | nil => exact ⟨[], by simp, rfl⟩
  | cons piece later induction =>
      rw [List.forall_mem_cons] at each
      obtain ⟨expressions, bare, same⟩ := induction each.2
      rcases each.1 with rfl | ⟨expression, isBare, rfl⟩
      · exact ⟨expressions, bare, same⟩
      · refine ⟨expression :: expressions, List.forall_mem_cons.mpr ⟨isBare, bare⟩, ?_⟩
        rw [List.filter_cons_of_pos (by simpa using expression.postOrder_ne_nil), same, List.map_cons]

/-- Pieces in the post order of expressions give the trees of these. -/
theorem runFrom_statementTrees {limit : Nat} {pieces : List (List Token)}
    {expressions : List Expression}
    (same : pieces.filter (!·.isEmpty) = expressions.map Expression.postOrder)
    (fits : ∀ piece ∈ pieces, piece.length ≤ limit) (symbols : Symbols) :
    ∃ statements, (pieces.mapM (statementTree limit)).runFrom symbols =
        (.ok statements, (Expression.trees expressions symbols).2) ∧
      statements.reduceOption = (Expression.trees expressions symbols).1 := by
  induction pieces generalizing expressions symbols with
  | nil =>
      rw [List.filter_nil, eq_comm, List.map_eq_nil_iff] at same
      cases same
      exact ⟨[], rfl, rfl⟩
  | cons piece later induction =>
      rw [List.forall_mem_cons] at fits
      cases piece with
      | nil =>
          obtain ⟨statements, built, trees⟩ := induction same fits.2 symbols
          refine ⟨none :: statements, ?_, trees⟩
          have nothing : (statementTree limit []).runFrom symbols = (.ok none, symbols) := rfl
          rw [List.mapM_cons, Parse.runFrom_bind_of_ok nothing, Parse.runFrom_bind_of_ok built]
          rfl
      | cons token rest =>
          rw [List.filter_cons_of_pos rfl] at same
          cases expressions with
          | nil => cases same
          | cons expression others =>
              rw [List.map_cons, List.cons.injEq] at same
              rw [same.1] at fits ⊢
              have deep := expression.depth_le_length_postOrder.trans fits.1
              obtain ⟨statements, built, trees⟩ :=
                induction same.2 fits.2 (expression.tree symbols).2
              refine ⟨some (expression.tree symbols).1 :: statements, ?_, ?_⟩
              · rw [List.mapM_cons,
                  Parse.runFrom_bind_of_ok (expression.statementTree_postOrder deep symbols),
                  Parse.runFrom_bind_of_ok built]
                rfl
              · rw [List.reduceOption_cons_of_some, trees]
                rfl

/-- Tokens whose statements are the post orders of expressions give the trees of these. -/
theorem runFrom_treesOf {limit : Nat} {tokens : List Token} (enough : tokens.length ≤ limit)
    {expressions : List Expression}
    (same : (tokens.splitOnP (·.kind.endsStatement)).filter (!·.isEmpty) =
      expressions.map Expression.postOrder) (symbols : Symbols) :
    (treesOf limit tokens).runFrom symbols =
      (.ok (Expression.trees expressions symbols).1, (Expression.trees expressions symbols).2) := by
  obtain ⟨statements, built, trees⟩ := runFrom_statementTrees same
    (fun piece member => (length_le_of_mem_splitOnP member).trans enough) symbols
  rw [treesOf_eq, Parse.runFrom_bind_of_ok built, trees]
  rfl

/-! ## Serialising -/

/-- The nodes of a tree in post order, each as a token. A statement that governs a block has no post
order. -/
def Tree.postOrder (symbols : Symbols) : Tree → List Token
  | integer text position => [⟨.integer, text, position⟩]
  | decimal text position => [⟨.decimal, text, position⟩]
  | string handle position => [⟨.string, symbols.stringAt handle, position⟩]
  | boolean value position => [⟨.boolean, if value then "true" else "false", position⟩]
  | identifier handle position => [⟨.identifier, symbols.nameAt handle, position⟩]
  | binary operator left right position =>
      left.postOrder symbols ++ right.postOrder symbols ++ [.spelled (.binary operator) position]
  | unary operator operand position =>
      operand.postOrder symbols ++ [.spelled (.unary operator) position]
  | assign target value position =>
      target.postOrder symbols ++ value.postOrder symbols ++ [.spelled .assign position]
  | command keyword operand position =>
      operand.postOrder symbols ++ [.spelled (.command keyword) position]
  | control _ _ _ _ => []

/-- What a node keeps of its token. An operator is spelled as its kind is, and all that counts of a
truth value is whether it is `true`. -/
def Token.kept (token : Token) : Token :=
  if token.kind = .boolean then
    { token with text := if token.text == "true" then "true" else "false" }
  else if token.kind.isOperand then token
  else .spelled token.kind token.position

section

variable {token : Token}

theorem Token.postOrder_leaf (isOperand : token.kind.isOperand) {symbols final : Symbols}
    (grown : (token.leaf symbols).2.Extends final) :
    (token.leaf symbols).1.postOrder final = [token.kept] := by
  rcases token with ⟨kind, text, position⟩
  cases kind with
  | integer | decimal | boolean => simp [leaf, Tree.postOrder, kept, Kind.isOperand]
  | string =>
      exact congrArg (fun text => [Token.mk .string text position])
        (Symbols.stringAt_enterString grown)
  | identifier =>
      exact congrArg (fun text => [Token.mk .identifier text position])
        (Symbols.nameAt_enterName grown)
  | _ => cases isOperand

theorem Token.postOrder_over (isUnary : token.kind.isUnary) (symbols : Symbols) (operand : Tree) :
    (token.over operand).postOrder symbols = operand.postOrder symbols ++ [token.kept] := by
  rcases token with ⟨kind, text, position⟩
  cases kind with
  | unary | command => simp [Token.over, Tree.postOrder, kept, Kind.isOperand]
  | _ => cases isUnary

theorem Token.postOrder_between (isBinary : token.kind.isBinary) (symbols : Symbols)
    (left right : Tree) :
    (token.between left right).postOrder symbols =
      left.postOrder symbols ++ right.postOrder symbols ++ [token.kept] := by
  rcases token with ⟨kind, text, position⟩
  cases kind with
  | binary | assign => simp [between, Tree.postOrder, kept, Kind.isOperand]
  | _ => cases isBinary

end

namespace Expression

/-- The tree of an expression serialises to what it keeps of the tokens. -/
theorem Bare.postOrder_tree {expression : Expression} (bare : expression.Bare)
    {symbols final : Symbols} (grown : (expression.tree symbols).2.Extends final) :
    (expression.tree symbols).1.postOrder final = expression.postOrder.map Token.kept := by
  induction expression generalizing symbols with
  | operand token isOperand => exact Token.postOrder_leaf isOperand grown
  | group => exact bare.elim
  | unary operator leads argument induction =>
      rw [tree, postOrder, Token.readSign_of_isUnary bare.1, Token.postOrder_over bare.1,
        induction bare.2 grown, List.map_append, List.map_singleton]
  | binary operator isBinary left right leftInduction rightInduction =>
      have leftGrown := (right.extends_tree (left.tree symbols).2).trans grown
      rw [tree, postOrder, Token.postOrder_between isBinary, leftInduction bare.1 leftGrown,
        rightInduction bare.2 grown, List.map_append, List.map_append, List.map_singleton]

theorem extends_trees (expressions : List Expression) (symbols : Symbols) :
    symbols.Extends (trees expressions symbols).2 := by
  induction expressions generalizing symbols with
  | nil => exact .refl symbols
  | cons expression later induction =>
      exact (expression.extends_tree symbols).trans (induction _)

theorem postOrder_trees {expressions : List Expression}
    (bare : ∀ expression ∈ expressions, expression.Bare) {symbols final : Symbols}
    (grown : (trees expressions symbols).2.Extends final) :
    (trees expressions symbols).1.map (Tree.postOrder final) =
      (expressions.map postOrder).map (List.map Token.kept) := by
  induction expressions generalizing symbols with
  | nil => rfl
  | cons expression later induction =>
      rw [List.forall_mem_cons] at bare
      have firstGrown := (extends_trees later (expression.tree symbols).2).trans grown
      rw [trees, List.map_cons, List.map_cons, List.map_cons, bare.1.postOrder_tree firstGrown,
        induction bare.2 grown]

end Expression

/-! ## Building what was serialised -/

/-- A text that a table holds is found at its place. -/
theorem TextTable.enter_getD (table : TextTable) {index : Nat} (inside : index < table.size) :
    table.enter ((table.get? index).getD "") = (index, table) := by
  obtain ⟨text, found⟩ : ∃ text, table.get? index = some text :=
    ⟨_, Array.getElem?_eq_getElem inside⟩
  rw [found, Option.getD_some, table.enter_of_get? found]

/-- A tree that governs no block and all of whose handles are places of the tables. -/
structure Tree.Recorded (symbols : Symbols) (tree : Tree) : Prop where
  plain : tree.isPlain
  held : ∀ handle ∈ tree.handles, symbols.Holds handle

theorem Tree.Recorded.part {symbols : Symbols} {tree part : Tree}
    (recorded : tree.Recorded symbols) (inside : part ∈ tree.parts) : part.Recorded symbols := by
  obtain ⟨plain, held⟩ := recorded
  cases tree with
  | integer | decimal | string | boolean | identifier => cases inside
  | binary operator left right position =>
      rw [isPlain, Bool.and_eq_true] at plain
      rw [handles, List.forall_mem_append] at held
      rcases List.mem_pair.mp inside with rfl | rfl
      · exact ⟨plain.1, held.1⟩
      · exact ⟨plain.2, held.2⟩
  | assign target value position =>
      rw [isPlain, Bool.and_eq_true] at plain
      rw [handles, List.forall_mem_append] at held
      rcases List.mem_pair.mp inside with rfl | rfl
      · exact ⟨plain.1, held.1⟩
      · exact ⟨plain.2, held.2⟩
  | unary operator operand position =>
      cases List.mem_singleton.mp inside
      rw [handles] at held
      exact ⟨plain, held⟩
  | command keyword operand position =>
      cases List.mem_singleton.mp inside
      rw [handles] at held
      exact ⟨plain, held⟩
  | control => cases plain

section

variable {symbols : Symbols}

/-- A recorded tree is the tree of the expression that has its post order. -/
theorem Tree.Recorded.exists_expression {tree : Tree} (recorded : tree.Recorded symbols) :
    ∃ expression : Expression, expression.Bare ∧
      expression.postOrder = tree.postOrder symbols ∧
      expression.tree symbols = (tree, symbols) := by
  induction tree using Tree.induction with
  | integer text position => exact ⟨.operand ⟨.integer, text, position⟩ rfl, trivial, rfl, rfl⟩
  | decimal text position => exact ⟨.operand ⟨.decimal, text, position⟩ rfl, trivial, rfl, rfl⟩
  | string handle position =>
      have inside := recorded.held (.inl handle) (by simp [Tree.handles])
      refine ⟨.operand ⟨.string, symbols.stringAt handle, position⟩ rfl, trivial, rfl, ?_⟩
      simp only [Expression.tree, Token.leaf, Symbols.enterString, Symbols.stringAt,
        TextTable.enter_getD _ inside]
  | boolean value position =>
      refine ⟨.operand ⟨.boolean, if value then "true" else "false", position⟩ rfl, trivial, rfl, ?_⟩
      cases value <;> rfl
  | identifier handle position =>
      have inside := recorded.held (.inr handle) (by simp [Tree.handles])
      refine ⟨.operand ⟨.identifier, symbols.nameAt handle, position⟩ rfl, trivial, rfl, ?_⟩
      simp only [Expression.tree, Token.leaf, Symbols.enterName, Symbols.nameAt,
        TextTable.enter_getD _ inside]
  | binary operator left right position leftInduction rightInduction =>
      obtain ⟨first, firstBare, firstOrder, firstTree⟩ :=
        leftInduction (recorded.part List.mem_cons_self)
      obtain ⟨second, secondBare, secondOrder, secondTree⟩ :=
        rightInduction (recorded.part (List.mem_cons_of_mem _ List.mem_cons_self))
      have isBinary : (Token.spelled (.binary operator) position).kind.isBinary := rfl
      refine ⟨.binary _ isBinary first second, ⟨firstBare, secondBare⟩, ?_, ?_⟩
      · rw [Expression.postOrder, firstOrder, secondOrder, postOrder]
      · rw [Expression.tree, firstTree]
        dsimp only
        rw [secondTree]
        rfl
  | unary operator operand position induction =>
      obtain ⟨argument, bare, order, tree⟩ := induction (recorded.part List.mem_cons_self)
      have isUnary : (Token.spelled (.unary operator) position).kind.isUnary := rfl
      refine ⟨.unary _ (Token.leads_of_isUnary isUnary) argument, ⟨isUnary, bare⟩, ?_, ?_⟩
      · rw [Expression.postOrder, Token.readSign_of_isUnary isUnary, order, postOrder]
      · rw [Expression.tree, tree, Token.readSign_of_isUnary isUnary]
        rfl
  | assign target value position targetInduction valueInduction =>
      obtain ⟨first, firstBare, firstOrder, firstTree⟩ :=
        targetInduction (recorded.part List.mem_cons_self)
      obtain ⟨second, secondBare, secondOrder, secondTree⟩ :=
        valueInduction (recorded.part (List.mem_cons_of_mem _ List.mem_cons_self))
      have isBinary : (Token.spelled .assign position).kind.isBinary := rfl
      refine ⟨.binary _ isBinary first second, ⟨firstBare, secondBare⟩, ?_, ?_⟩
      · rw [Expression.postOrder, firstOrder, secondOrder, postOrder]
      · rw [Expression.tree, firstTree]
        dsimp only
        rw [secondTree]
        rfl
  | command keyword operand position induction =>
      obtain ⟨argument, bare, order, tree⟩ := induction (recorded.part List.mem_cons_self)
      have isUnary : (Token.spelled (.command keyword) position).kind.isUnary := rfl
      refine ⟨.unary _ (Token.leads_of_isUnary isUnary) argument, ⟨isUnary, bare⟩, ?_, ?_⟩
      · rw [Expression.postOrder, Token.readSign_of_isUnary isUnary, order, postOrder]
      · rw [Expression.tree, tree, Token.readSign_of_isUnary isUnary]
        rfl
  | control keyword condition body position => cases recorded.plain

theorem Tree.exists_expressions {program : List Tree}
    (recorded : ∀ tree ∈ program, tree.Recorded symbols) :
    ∃ expressions : List Expression,
      expressions.map Expression.postOrder = program.map (Tree.postOrder symbols) ∧
      Expression.trees expressions symbols = (program, symbols) := by
  induction program with
  | nil => exact ⟨[], rfl, rfl⟩
  | cons tree later induction =>
      rw [List.forall_mem_cons] at recorded
      obtain ⟨expression, _, order, first⟩ := recorded.1.exists_expression
      obtain ⟨expressions, orders, others⟩ := induction recorded.2
      refine ⟨expression :: expressions, ?_, ?_⟩
      · rw [List.map_cons, List.map_cons, order, orders]
      · rw [Expression.trees, first]
        dsimp only
        rw [others]

end

/-- Building inverts post order. Tokens can be built exactly if each of their statements is empty or
the post order of one expression and no other, and what is built are the trees of these expressions.
The trees have these post orders, apart from what no node keeps; and trees that are written in post
order, with any tokens that close statements between them, are what is built of that. -/
theorem treesOf_inverts {tokens : List Token} {limit : Nat} (enough : tokens.length ≤ limit)
    (symbols : Symbols) :
    let statements := tokens.splitOnP (·.kind.endsStatement)
    ((∃ program final, (treesOf limit tokens).runFrom symbols = (.ok program, final)) ↔
      ∀ statement ∈ statements, statement = [] ∨
        ∃! expression : Expression, expression.Bare ∧ expression.postOrder = statement) ∧
    (∀ expressions : List Expression,
      statements.filter (!·.isEmpty) = expressions.map Expression.postOrder →
        (treesOf limit tokens).runFrom symbols =
          (.ok (Expression.trees expressions symbols).1,
            (Expression.trees expressions symbols).2)) ∧
    (∀ program final, (treesOf limit tokens).runFrom symbols = (.ok program, final) →
      program.map (Tree.postOrder final) =
          (statements.filter (!·.isEmpty)).map (List.map Token.kept) ∧
        program.flatMap (Tree.postOrder final) =
          (tokens.filter (!·.kind.endsStatement)).map Token.kept) ∧
    ∀ program : List Tree, (∀ tree ∈ program, tree.Recorded symbols) →
      statements.filter (!·.isEmpty) = program.map (Tree.postOrder symbols) →
        (treesOf limit tokens).runFrom symbols = (.ok program, symbols) := by
  intro statements
  have built {program : List Tree} {final : Symbols}
      (built : (treesOf limit tokens).runFrom symbols = (.ok program, final)) :
      ∀ statement ∈ statements, statement = [] ∨
        ∃ expression : Expression, expression.Bare ∧ expression.postOrder = statement := by
    rw [treesOf_eq, Parse.runFrom_bind_eq_ok] at built
    obtain ⟨trees, _, each, _⟩ := built
    exact bare_of_statementTrees each
  refine ⟨⟨?_, ?_⟩, ?_, ?_, ?_⟩
  · rintro ⟨program, final, parsed⟩ statement member
    apply (built parsed statement member).imp_right
    rintro ⟨expression, bare, same⟩
    refine ⟨expression, ⟨bare, same⟩, ?_⟩
    rintro other ⟨otherBare, otherSame⟩
    exact otherBare.eq_of_postOrder bare (otherSame.trans same.symm)
  · intro each
    obtain ⟨expressions, _, same⟩ := exists_expressions fun statement member =>
      (each statement member).imp_right ExistsUnique.exists
    exact ⟨_, _, runFrom_treesOf enough same symbols⟩
  · intro expressions same
    exact runFrom_treesOf enough same symbols
  · intro program final parsed
    obtain ⟨expressions, bare, same⟩ := exists_expressions (built parsed)
    rw [runFrom_treesOf enough same symbols] at parsed
    cases parsed
    have orders := Expression.postOrder_trees bare
      (.refl (Expression.trees expressions symbols).2)
    rw [← same] at orders
    refine ⟨orders, ?_⟩
    rw [List.flatMap_def, orders, ← List.map_flatten, List.flatten_filter_not_isEmpty,
      flatten_splitOnP]
  · intro program recorded same
    obtain ⟨expressions, orders, trees⟩ := Tree.exists_expressions recorded
    rw [runFrom_treesOf enough (same.trans orders.symm) symbols, trees]

/-- The spelling of an operator and of a false value is not kept, and an empty statement leaves no
trace. -/
theorem treesOf_inverts_assignment :
    let tokens : List Token :=
      [⟨.identifier, "x", ⟨1, 0⟩⟩, ⟨.string, "a", ⟨1, 5⟩⟩, ⟨.unary .not, "not", ⟨1, 4⟩⟩,
        ⟨.assign, ":=", ⟨1, 2⟩⟩, .terminator ⟨1, 9⟩, .terminator ⟨2, 0⟩,
        ⟨.boolean, "no", ⟨3, 0⟩⟩, .endOfInput 3]
    let written : List Token :=
      [⟨.identifier, "x", ⟨1, 0⟩⟩, ⟨.string, "a", ⟨1, 5⟩⟩, .spelled (.unary .not) ⟨1, 4⟩,
        .spelled .assign ⟨1, 2⟩, .terminator ⟨0, 0⟩, ⟨.boolean, "false", ⟨3, 0⟩⟩]
    let symbols : Symbols := ⟨.ofTexts ["a"], .ofTexts ["x"]⟩
    let program : List Tree :=
      [.assign (.identifier ⟨0⟩ ⟨1, 0⟩) (.unary .not (.string ⟨0⟩ ⟨1, 5⟩) ⟨1, 4⟩) ⟨1, 2⟩,
        .boolean false ⟨3, 0⟩]
    (treesOf 8 tokens).runFrom {} = (.ok program, symbols) ∧
      program.flatMap (Tree.postOrder symbols) = written.filter (!·.kind.endsStatement) ∧
      (treesOf 8 written).runFrom symbols = (.ok program, symbols) := by
  intro tokens written symbols program
  have parsed : (treesOf 8 tokens).runFrom {} = (.ok program, symbols) := by cbv
  have serialised := ((treesOf_inverts (by decide) {}).2.2.1 program symbols parsed).2
  have held : 0 < symbols.names.size ∧ 0 < symbols.strings.size := by decide
  have recorded : ∀ tree ∈ program, tree.Recorded symbols := by
    intro tree member
    rcases List.mem_pair.mp member with rfl | rfl
    · exact ⟨rfl, by simpa [Tree.handles, Symbols.Holds] using held⟩
    · exact ⟨rfl, by simp [Tree.handles]⟩
  refine ⟨parsed, serialised.trans (by decide), ?_⟩
  exact (treesOf_inverts (by decide) symbols).2.2.2 program recorded (by decide)

end Scriptlet
