import Scriptlet.Proofs.Fidelity
import Scriptlet.Proofs.Likeness.Basic
import Scriptlet.Proofs.Printing.Tree

/-! The nesting limit. A program has a least limit with which it is parsed, and that is the only
thing the limit decides: with a lower one the parse fails for its sake, and all higher ones are the
same. -/

namespace Scriptlet

/-! ## Depth -/

namespace Tree

def isLeaf : Tree → Bool
  | integer _ _ | decimal _ _ | string _ _ | boolean _ _ | identifier _ _ => true
  | _ => false

/-- The levels of a tree, blocks included. A leaf has one. -/
def height : Tree → Nat
  | integer _ _ | decimal _ _ | string _ _ | boolean _ _ | identifier _ _ => 1
  | binary _ left right _ | assign left right _ => max left.height right.height + 1
  | unary _ operand _ | command _ operand _ => operand.height + 1
  | control _ condition body _ => max condition.height ((body.map height).foldr max 0) + 1

/-- Whether the limit allows an expression. A leaf is never too deep. -/
def Shallow (limit : Nat) (tree : Tree) : Prop :=
  tree.isLeaf ∨ tree.height ≤ limit

/-- Whether the limit allows a statement inside of `depth` blocks. -/
structure FitsIn (limit depth : Nat) (tree : Tree) : Prop where
  blocks : tree.blockDepth = 0 ∨ depth + tree.blockDepth ≤ limit
  straights : ∀ straight ∈ tree.straights, straight.Shallow limit

end Tree

theorem foldr_max_le_iff {measure : α → Nat} {items : List α} {bound : Nat} :
    (items.map measure).foldr max 0 ≤ bound ↔ ∀ item ∈ items, measure item ≤ bound := by
  induction items with
  | nil => simp
  | cons item later induction => simp [induction]

theorem Tree.fitsIn_control {limit depth : Nat} {keyword : Control} {condition : Tree}
    {body : List Tree} {position : Position} :
    (control keyword condition body position).FitsIn limit depth ↔
      depth < limit ∧ condition.Shallow limit ∧
        ∀ statement ∈ body, statement.FitsIn limit (depth + 1) := by
  constructor
  · rintro ⟨blocks, straights⟩
    rw [Tree.blockDepth] at blocks
    rw [Tree.straights] at straights
    have inner : (body.map blockDepth).foldr max 0 ≤ limit - (depth + 1) := by omega
    rw [foldr_max_le_iff] at inner
    refine ⟨by omega, straights condition List.mem_cons_self, ?_⟩
    intro statement member
    have deep := inner statement member
    refine ⟨by omega, ?_⟩
    intro straight inside
    apply straights straight
    exact List.mem_cons_of_mem _ (List.mem_flatMap.mpr ⟨statement, member, inside⟩)
  · rintro ⟨shallow, conditionFits, bodyFits⟩
    constructor
    · right
      have inner : (body.map blockDepth).foldr max 0 ≤ limit - (depth + 1) := by
        rw [foldr_max_le_iff]
        intro statement member
        have blocks := (bodyFits statement member).blocks
        omega
      rw [Tree.blockDepth]
      omega
    · intro straight member
      rw [Tree.straights, List.mem_cons, List.mem_flatMap] at member
      rcases member with rfl | ⟨statement, member, inside⟩
      · exact conditionFits
      · exact (bodyFits statement member).straights straight inside

theorem Tree.fitsIn_straight {limit depth : Nat} {tree : Tree} (straight : tree.isStraight) :
    tree.FitsIn limit depth ↔ tree.Shallow limit := by
  have noBlocks : tree.blockDepth = 0 := by
    cases tree with
    | control keyword condition body position =>
        rw [isStraight, straights, List.cons.injEq] at straight
        cases straight.1
    | _ => rw [blockDepth]; simp
  constructor
  · intro fits
    apply fits.straights tree
    rw [straight]
    exact List.mem_singleton_self _
  · intro shallow
    refine ⟨.inl noBlocks, ?_⟩
    intro selected member
    rw [straight, List.mem_singleton] at member
    exact member ▸ shallow

theorem Tree.all_fitsIn_straight {limit depth : Nat} {trees : List Tree}
    (straight : ∀ tree ∈ trees, tree.isStraight) :
    (∀ tree ∈ trees, tree.FitsIn limit depth) ↔ ∀ tree ∈ trees, tree.Shallow limit :=
  forall₂_congr fun tree member => fitsIn_straight (straight tree member)

theorem Tree.fitsIn_outermost {limit : Nat} {tree : Tree} :
    tree.FitsIn limit 0 ↔ tree.blockDepth ≤ limit ∧
      ∀ straight ∈ tree.straights, straight.isLeaf ∨ straight.height ≤ limit := by
  constructor
  · intro fits
    have blocks := fits.blocks
    exact ⟨by omega, fits.straights⟩
  · intro ⟨blocks, straights⟩
    exact ⟨.inr (by omega), straights⟩

theorem Tree.Shallow.height_le {limit : Nat} {tree : Tree} (shallow : tree.Shallow limit) :
    tree.height ≤ max 1 limit := by
  rcases shallow with isLeaf | less
  · cases tree with
    | integer | decimal | string | boolean | identifier => rw [height]; omega
    | _ => cases isLeaf
  · omega

/-- Blocks and expressions are limited apart, so together they reach twice as deep at most. -/
theorem Tree.FitsIn.height_le {limit depth : Nat} {tree : Tree} (fits : tree.FitsIn limit depth)
    (inside : depth ≤ limit) : depth + tree.height ≤ limit + max 1 limit := by
  induction tree using Tree.induction generalizing depth with
  | control keyword condition body position _ bodyInduction =>
      rcases fitsIn_control.mp fits with ⟨deeper, conditionFits, bodyFits⟩
      have conditionHeight := conditionFits.height_le
      have bodyHeight : (body.map height).foldr max 0 ≤ limit + max 1 limit - (depth + 1) := by
        rw [foldr_max_le_iff]
        intro statement member
        have below := bodyInduction statement member (bodyFits statement member) deeper
        omega
      rw [height]
      omega
  | _ =>
      have shallow := (fitsIn_straight (by simp [isStraight, Tree.straights])).mp fits
      have height := shallow.height_le
      omega

/-! ## Steps with a limit -/

/-- A step that fails for the sake of every limit below the threshold, and does the same with all
others. -/
structure Parse.Threshold (step : Nat → Parse α) (symbols : Symbols) (threshold : Nat)
    (result : Except SourceError α) (later : Symbols) : Prop where
  enough : ∀ limit, threshold ≤ limit → (step limit).runFrom symbols = (result, later)
  exceeded : ∀ limit, limit < threshold → ∃ position left,
    (step limit).runFrom symbols = (.error ⟨.nestingTooDeep limit, position⟩, left)

/-- A step that has a threshold from all tables, at most `bound`; if it comes through, what it gives
goes with its threshold. -/
def Guarded (bound : Nat) (step : Nat → Parse α) (goes : α → Nat → Prop) : Prop :=
  ∀ symbols, ∃ threshold result later, threshold ≤ bound ∧
    Parse.Threshold step symbols threshold result later ∧
    ∀ value, result = .ok value → goes value threshold

namespace Guarded

variable {bound : Nat}

theorem imp {step : Nat → Parse α} {goes further : α → Nat → Prop}
    (guarded : Guarded bound step goes)
    (implies : ∀ value threshold, goes value threshold → further value threshold) :
    Guarded bound step further := by
  intro symbols
  rcases guarded symbols with ⟨threshold, result, later, small, held, fits⟩
  exact ⟨threshold, result, later, small, held, fun value ok => implies _ _ (fits value ok)⟩

/-- A step that does not look at the limit. -/
theorem unlimited (step : Parse α) :
    Guarded bound (fun _ => step)
      (fun value threshold => threshold = 0 ∧ ∃ symbols later,
        step.runFrom symbols = (.ok value, later)) := by
  intro symbols
  refine ⟨0, (step.runFrom symbols).1, (step.runFrom symbols).2, Nat.zero_le _, ⟨?_, ?_⟩, ?_⟩
  · exact fun _ _ => rfl
  · intro limit negative
    omega
  · intro value ok
    exact ⟨rfl, symbols, _, Prod.ext ok rfl⟩

theorem pure {value : α} {goes : α → Nat → Prop} (fits : goes value 0) :
    Guarded bound (fun _ => pure value) goes := by
  apply (unlimited (Pure.pure value)).imp
  rintro _ _ ⟨rfl, symbols, later, ran⟩
  cases ran
  exact fits

theorem fail {goes : α → Nat → Prop} (cause : SourceError.Cause) (position : Position) :
    Guarded bound (fun _ => .fail cause position) goes := by
  apply (unlimited (Parse.fail cause position)).imp
  rintro _ _ ⟨rfl, symbols, later, ran⟩
  cases ran

theorem bind {step : Nat → Parse α} {next : Nat → α → Parse β} {goes : α → Nat → Prop}
    {further : β → Nat → Prop} (first : Guarded bound step goes)
    (following : ∀ value threshold, goes value threshold →
      Guarded bound (fun limit => next limit value)
        (fun final least => further final (max threshold least))) :
    Guarded bound (fun limit => step limit >>= next limit) further := by
  intro symbols
  rcases first symbols with ⟨threshold, result, later, small, ⟨enough, exceeded⟩, fits⟩
  have below {limit : Nat} (less : limit < threshold) : ∃ position left,
      (step limit >>= next limit).runFrom symbols =
        (.error ⟨.nestingTooDeep limit, position⟩, left) := by
    rcases exceeded limit less with ⟨position, left, ran⟩
    exact ⟨position, left, by rw [Parse.runFrom_bind, ran]⟩
  cases result with
  | error error =>
      refine ⟨threshold, .error error, later, small, ⟨?_, fun limit => below⟩, ?_⟩
      · intro limit more
        rw [Parse.runFrom_bind, enough limit more]
      · intro value ok
        cases ok
  | ok value =>
      rcases following value threshold (fits value rfl) later with
        ⟨least, final, last, smallToo, ⟨enoughToo, exceededToo⟩, fitsToo⟩
      refine ⟨max threshold least, final, last, by omega, ⟨?_, ?_⟩, fitsToo⟩
      · intro limit more
        rw [Parse.runFrom_bind_of_ok (enough limit (by omega))]
        exact enoughToo limit (by omega)
      · intro limit less
        by_cases early : limit < threshold
        · exact below early
        · rw [Parse.runFrom_bind_of_ok (enough limit (by omega))]
          exact exceededToo limit (by omega)

/-- What holds of all that a step can give may be added. -/
theorem and_of_ok {step : Nat → Parse α} {goes : α → Nat → Prop} {holds : α → Prop}
    (guarded : Guarded bound step goes)
    (always : ∀ limit symbols value later,
      (step limit).runFrom symbols = (.ok value, later) → holds value) :
    Guarded bound step (fun value threshold => holds value ∧ goes value threshold) := by
  intro symbols
  rcases guarded symbols with ⟨threshold, result, later, small, held, fits⟩
  refine ⟨threshold, result, later, small, held, ?_⟩
  rintro value rfl
  exact ⟨always _ _ _ _ (held.enough threshold (Nat.le_refl _)), fits value rfl⟩

theorem mapM {items : List ι} {step : Nat → ι → Parse α} {fits : Nat → α → Prop}
    (each : ∀ item ∈ items, Guarded bound (fun limit => step limit item)
      (fun value threshold => ∀ limit, threshold ≤ limit ↔ fits limit value)) :
    Guarded bound (fun limit => items.mapM (step limit))
      (fun values threshold =>
        ∀ limit, threshold ≤ limit ↔ ∀ value ∈ values, fits limit value) := by
  induction items with
  | nil => exact pure (by simp)
  | cons item later induction =>
      simp only [List.mapM_cons]
      apply bind (each item List.mem_cons_self)
      intro value threshold here
      apply bind (induction fun item member => each item (List.mem_cons_of_mem _ member))
      intro values least there
      apply pure
      intro limit
      rw [List.forall_mem_cons, ← here, ← there]
      omega

end Guarded

/-! ## Straight statements -/

theorem Token.isLeaf_leaf (token : Token) (symbols : Symbols) :
    (token.leaf symbols).1.isLeaf ∧ (token.leaf symbols).1.height = 1 := by
  rcases token with ⟨kind, text, position⟩
  cases kind <;> simp [Token.leaf, Tree.isLeaf, Tree.height]

theorem Token.height_over {token : Token} (isUnary : token.kind.isUnary) (operand : Tree) :
    (token.over operand).isLeaf = false ∧ (token.over operand).height = operand.height + 1 := by
  rcases token with ⟨kind, text, position⟩
  cases kind with
  | unary | command => simp [Token.over, Tree.isLeaf, Tree.height]
  | _ => cases isUnary

theorem Token.height_between (token : Token) (left right : Tree) :
    (token.between left right).isLeaf = false ∧
      (token.between left right).height = max left.height right.height + 1 := by
  rcases token with ⟨kind, text, position⟩
  cases kind <;> simp [Token.between, Tree.isLeaf, Tree.height]

theorem guarded_combine {bound below : Nat} (small : below + 1 ≤ bound) (tree : Tree) :
    Guarded bound (fun limit => Operand.combine limit below tree)
      (fun operand threshold => operand = ⟨tree, below + 1⟩ ∧ threshold = below + 1) := by
  intro symbols
  refine ⟨below + 1, .ok ⟨tree, below + 1⟩, symbols, small, ⟨?_, ?_⟩, ?_⟩
  · intro limit more
    rw [Operand.runFrom_combine, if_neg (by omega)]
  · intro limit less
    exact ⟨tree.position, symbols, by rw [Operand.runFrom_combine, if_pos less]⟩
  · rintro _ ⟨⟩
    exact ⟨rfl, rfl⟩

/-- What is known of operands when `room` tokens are still to come: their depths are right, and so
is the least limit so far. -/
structure Operand.Tracked (bound room : Nat) (operands : List Operand) (least : Nat) : Prop where
  depth : ∀ operand ∈ operands, operand.depth = operand.tree.height
  space : ∀ operand ∈ operands, operand.depth + room ≤ bound
  least_le_iff : ∀ limit, least ≤ limit ↔ ∀ operand ∈ operands, operand.tree.Shallow limit

namespace Operand.Tracked

variable {bound room least : Nat}

theorem leaf {operands : List Operand} (tracked : Tracked bound (room + 1) operands least)
    (space : room + 1 ≤ bound) {tree : Tree} (isLeaf : tree.isLeaf ∧ tree.height = 1) :
    Tracked bound room (⟨tree, 1⟩ :: operands) least where
  depth := List.forall_mem_cons.mpr ⟨isLeaf.2.symm, tracked.depth⟩
  space := by
    rw [List.forall_mem_cons]
    refine ⟨(Nat.add_comm 1 room).trans_le space, ?_⟩
    intro operand member
    have enough := tracked.space operand member
    omega
  least_le_iff := by
    intro limit
    rw [List.forall_mem_cons, tracked.least_le_iff]
    exact (and_iff_right (.inl isLeaf.1)).symm

/-- An operator takes some operands away; its tree is deeper than all of them. -/
theorem node {used below : List Operand} (tracked : Tracked bound (room + 1) (used ++ below) least)
    {depth : Nat} (deepest : ∀ operand ∈ used, operand.depth ≤ depth)
    (space : depth + 1 + room ≤ bound) {tree : Tree}
    (isNode : tree.isLeaf = false ∧ tree.height = depth + 1) :
    Tracked bound room (⟨tree, depth + 1⟩ :: below) (max least (depth + 1)) where
  depth := by
    rw [List.forall_mem_cons]
    exact ⟨isNode.2.symm, fun operand member =>
      tracked.depth operand (List.mem_append_right _ member)⟩
  space := by
    rw [List.forall_mem_cons]
    refine ⟨space, ?_⟩
    intro operand member
    have enough := tracked.space operand (List.mem_append_right _ member)
    omega
  least_le_iff := by
    intro limit
    rw [List.forall_mem_cons, Nat.max_le, tracked.least_le_iff, List.forall_mem_append]
    constructor
    · intro ⟨⟨_, belowShallow⟩, more⟩
      exact ⟨.inr (isNode.2 ▸ more), belowShallow⟩
    · intro ⟨shallow, belowShallow⟩
      have more : depth + 1 ≤ limit := by
        rcases shallow with isLeaf | more
        · rw [isNode.1] at isLeaf
          cases isLeaf
        · exact isNode.2 ▸ more
      refine ⟨⟨?_, belowShallow⟩, more⟩
      intro operand member
      have here := tracked.depth operand (List.mem_append_left _ member)
      have less := deepest operand member
      exact .inr (by omega)

end Operand.Tracked

theorem guarded_absorb {bound room least : Nat} {operands : List Operand}
    (tracked : Operand.Tracked bound (room + 1) operands least) (space : room + 1 ≤ bound)
    (token : Token) :
    Guarded bound (fun limit => absorb limit operands token)
      (fun after threshold => Operand.Tracked bound room after (max least threshold)) := by
  by_cases isOperand : token.kind.isOperand
  · intro symbols
    refine ⟨0, _, _, Nat.zero_le _, ⟨fun limit _ => absorb_operand isOperand limit operands symbols,
      fun limit less => by omega⟩, ?_⟩
    rintro _ ⟨⟩
    rw [Nat.max_zero]
    exact tracked.leaf space (token.isLeaf_leaf symbols)
  by_cases isUnary : token.kind.isUnary
  · cases operands with
    | nil =>
        simp only [absorb_unary_nil isUnary]
        exact .fail _ _
    | cons operand below =>
        have enough := tracked.space operand List.mem_cons_self
        have depth := tracked.depth operand List.mem_cons_self
        simp only [absorb_unary_cons isUnary]
        apply Guarded.bind (guarded_combine (by omega) _)
        rintro _ _ ⟨rfl, rfl⟩
        apply Guarded.pure
        rw [Nat.max_zero]
        rw [← List.singleton_append] at tracked
        apply tracked.node (by simp) (by omega)
        rw [depth]
        exact Token.height_over isUnary operand.tree
  by_cases isBinary : token.kind.isBinary
  · by_cases short : operands.length < 2
    · simp only [absorb_binary_short isBinary _ short]
      exact .fail _ _
    · match operands, short, tracked with
      | [], short, _ | [_], short, _ => simp at short
      | right :: left :: below, _, tracked =>
          have enough := tracked.space right List.mem_cons_self
          have enoughToo := tracked.space left (List.mem_cons_of_mem _ List.mem_cons_self)
          simp only [absorb_binary_cons isBinary]
          apply Guarded.bind (guarded_combine (by omega) _)
          rintro _ _ ⟨rfl, rfl⟩
          apply Guarded.pure
          rw [Nat.max_zero]
          have split : right :: left :: below = [right, left] ++ below := rfl
          rw [split] at tracked
          apply tracked.node (by simp) (by omega)
          rw [tracked.depth right List.mem_cons_self,
            tracked.depth left (List.mem_cons_of_mem _ List.mem_cons_self)]
          exact token.height_between left.tree right.tree
  · simp only [absorb_other (by simpa using isOperand) (by simpa using isUnary)
      (by simpa using isBinary)]
    exact .fail _ _

theorem guarded_absorbAll {bound least : Nat} {run : List Token} {operands : List Operand}
    (tracked : Operand.Tracked bound (run.filter (!·.isParen)).length operands least)
    (space : (run.filter (!·.isParen)).length ≤ bound) :
    Guarded bound (fun limit => run.foldlM (absorb limit) operands)
      (fun after threshold => Operand.Tracked bound 0 after (max least threshold)) := by
  induction run generalizing operands least with
  | nil =>
      apply Guarded.pure
      rw [Nat.max_zero]
      exact tracked
  | cons token rest induction =>
      simp only [List.foldlM_cons]
      cases paren : token.isParen with
      | true =>
          -- A parenthesis cannot be absorbed, so it takes up no room.
          have refused : Guarded bound (fun limit => absorb limit operands token)
              (fun _ _ => False) := by
            simp only [Token.isParen, Bool.or_eq_true, beq_iff_eq] at paren
            rcases paren with opens | closes
            · simp only [absorb, opens]
              exact .fail _ _
            · simp only [absorb, closes]
              exact .fail _ _
          exact refused.bind fun _ _ => False.elim
      | false =>
          rw [List.filter_cons_of_pos (by simp [paren]), List.length_cons] at tracked space
          apply Guarded.bind (guarded_absorb tracked space token)
          intro after threshold trackedAfter
          apply (induction trackedAfter (by omega)).imp
          intro final further trackedFinal
          rw [← Nat.max_assoc]
          exact trackedFinal

theorem guarded_completeStatement {bound least : Nat} {operands : List Operand}
    (tracked : Operand.Tracked bound 0 operands least) :
    Guarded bound (fun _ => completeStatement operands)
      (fun statement threshold => ∀ limit, max least threshold ≤ limit ↔
        ∀ tree ∈ statement, tree.Shallow limit) := by
  apply (Guarded.unlimited (completeStatement operands)).imp
  rintro statement _ ⟨rfl, symbols, later, completed⟩ limit
  rw [Nat.max_zero, tracked.least_le_iff]
  unfold completeStatement at completed
  split at completed
  · rename_i none
    cases completed
    rw [List.reverse_eq_nil_iff.mp none]
    simp
  · rename_i only single
    cases completed
    rw [List.reverse_eq_cons_iff.mp single]
    simp
  · cases completed

theorem guarded_statementTree {bound : Nat} {run : List Token}
    (space : (run.filter (!·.isParen)).length ≤ bound) :
    Guarded bound (fun limit => statementTree limit run)
      (fun statement threshold => ∀ limit, threshold ≤ limit ↔
        ∀ tree ∈ statement, tree.Shallow limit) := by
  have nothing : Operand.Tracked bound (run.filter (!·.isParen)).length [] 0 :=
    ⟨by simp, by simp, by simp⟩
  apply Guarded.bind (guarded_absorbAll nothing space)
  intro operands threshold tracked
  rw [Nat.zero_max] at tracked
  exact guarded_completeStatement tracked

theorem length_readSigns (previous : Option Kind) (tokens : List Token) :
    (readSigns previous tokens).length = tokens.length := by
  induction tokens generalizing previous with
  | nil => rfl
  | cons token later induction => rw [readSigns, List.length_cons, induction, List.length_cons]

theorem length_le_of_mem_statementsIn {tokens statement : List Token}
    (member : statement ∈ statementsIn tokens) : statement.length ≤ tokens.length := by
  induction tokens using statements_induction with
  | last single plain =>
      rw [statementsIn_statement plain, List.mem_singleton] at member
      rw [member]
  | ended single closing later plain closes =>
      rw [statementsIn_end plain closes, List.mem_singleton] at member
      simp [member]
  | closed first closing later plain closes induction =>
      rw [statementsIn_terminator plain closes, List.mem_cons] at member
      rw [List.length_append, List.length_cons]
      rcases member with rfl | member
      · omega
      · have inside := induction member
        omega

/-- What is put in post order is no longer than the tokens it comes from. -/
theorem length_le_of_mem_runs {tokens : List Token} {runs : List (List Token)}
    (ordered : (statementsIn tokens).mapM (statementOrder Kind.binding?) = .ok runs)
    {run : List Token} (member : run ∈ runs) :
    (run.filter (!·.isParen)).length ≤ tokens.length := by
  rcases exists_of_mem_mapM ordered member with ⟨statement, inside, orderedHere⟩
  have plain := oneStatement_of_mem_statementsIn inside
  calc (run.filter (!·.isParen)).length
      = ((readSigns none statement).filter (!·.isParen)).length :=
        (statementOrder_perm plain orderedHere).length_eq
    _ ≤ (readSigns none statement).length := List.length_filter_le _ _
    _ = statement.length := length_readSigns none statement
    _ ≤ tokens.length := length_le_of_mem_statementsIn inside

theorem isStraight_of_straightStatements {limit : Nat} {tokens : List Token}
    {symbols later : Symbols} {trees : List Tree}
    (parsed : (straightStatements limit tokens).runFrom symbols = (.ok trees, later)) :
    ∀ tree ∈ trees, tree.isStraight := by
  rw [straightStatements_eq, Parse.runFrom_bind_eq_ok] at parsed
  rcases parsed with ⟨runs, _, ordered, parsed⟩
  rw [Parse.runFrom_ofExcept, Prod.mk.injEq] at ordered
  rw [Parse.runFrom_bind_eq_ok] at parsed
  rcases parsed with ⟨results, _, built, same⟩
  cases same
  exact (statements_correspond (fun _ member => oneStatement_of_mem_statementsIn member) ordered.1
    built).2.2

/-- The statements of tokens without a block fit or not, whatever is around them. -/
theorem guarded_straightStatements {bound : Nat} {tokens : List Token}
    (space : tokens.length ≤ bound) :
    Guarded bound (fun limit => straightStatements limit tokens)
      (fun trees threshold => (∀ tree ∈ trees, tree.isStraight) ∧
        ∀ limit, threshold ≤ limit ↔ ∀ tree ∈ trees, tree.Shallow limit) := by
  have built : Guarded bound (fun limit => straightStatements limit tokens)
      (fun trees threshold =>
        ∀ limit, threshold ≤ limit ↔ ∀ tree ∈ trees, tree.Shallow limit) := by
    simp only [straightStatements_eq]
    apply Guarded.bind (Guarded.unlimited _)
    rintro runs _ ⟨rfl, symbols, later, ordered⟩
    rw [Parse.runFrom_ofExcept, Prod.mk.injEq] at ordered
    have each : ∀ run ∈ runs, Guarded bound (fun limit => statementTree limit run)
        (fun statement threshold => ∀ limit, threshold ≤ limit ↔
          ∀ tree ∈ statement, tree.Shallow limit) := by
      intro run member
      exact guarded_statementTree ((length_le_of_mem_runs ordered.1 member).trans space)
    apply Guarded.bind (Guarded.mapM each)
    intro statements threshold fits
    apply Guarded.pure
    intro limit
    rw [Nat.zero_max, Nat.max_zero, fits]
    simp only [List.reduceOption_mem_iff, Option.mem_def]
    constructor
    · intro every tree member
      exact every (some tree) member tree rfl
    · rintro every _ member tree rfl
      exact every tree member
  exact built.and_of_ok fun _ _ _ _ => isStraight_of_straightStatements

/-! ## Blocks -/

theorem guarded_soleCondition {bound : Nat} {tokens : List Token} (space : tokens.length ≤ bound)
    (keyword : Token) :
    Guarded bound (fun limit => soleCondition limit keyword tokens)
      (fun condition threshold => ∀ limit, threshold ≤ limit ↔ condition.Shallow limit) := by
  apply Guarded.bind (guarded_straightStatements space)
  rintro trees threshold ⟨_, fits⟩
  match trees, fits with
  | [condition], fits =>
      apply Guarded.pure
      intro limit
      rw [Nat.max_zero, fits]
      simp
  | [], _ => exact .fail _ _
  | _ :: _ :: _, _ => exact .fail _ _

/-- A check of the number of blocks in front of a step. -/
theorem Guarded.checked {bound depth : Nat} (space : depth + 1 ≤ bound) {step : Nat → Parse α}
    {goes : α → Nat → Prop}
    (guarded : Guarded bound step (fun value threshold => goes value (max (depth + 1) threshold)))
    (position : Position) :
    Guarded bound
      (fun limit => if limit ≤ depth then .fail (.nestingTooDeep limit) position else step limit)
      goes := by
  intro symbols
  rcases guarded symbols with ⟨threshold, result, later, small, ⟨enough, exceeded⟩, fits⟩
  refine ⟨max (depth + 1) threshold, result, later, by omega, ⟨?_, ?_⟩, fits⟩
  · intro limit more
    rw [if_neg (by omega)]
    exact enough limit (by omega)
  · intro limit less
    by_cases early : limit ≤ depth
    · rw [if_pos early]
      exact ⟨position, symbols, rfl⟩
    · rw [if_neg early]
      exact exceeded limit (by omega)

/-- Statements in sequence inside of `depth` blocks. -/
def GuardedStatements (bound depth : Nat) (tokens : List Token) : Prop :=
  Guarded bound (fun limit => statementsOf limit depth tokens)
    (fun trees threshold => ∀ limit, threshold ≤ limit ↔ ∀ tree ∈ trees, tree.FitsIn limit depth)

theorem guarded_governed {bound depth : Nat} {after : List Token}
    (space : depth + 1 + after.length ≤ bound)
    (inner : ∀ block, block.length < after.length → GuardedStatements bound (depth + 1) block)
    (keyword : Token) :
    Guarded bound (fun limit => governed limit depth keyword after)
      (fun found threshold => found.2.length < after.length ∧
        ∀ limit, threshold ≤ limit ↔ found.1.FitsIn limit depth) := by
  simp only [governed_eq]
  apply Guarded.checked (by omega)
  cases opened : splitAtOpen after with
  | none => exact .fail _ _
  | some found =>
      rcases found with ⟨tokens, brace, inside⟩
      have openLength := splitAtOpen_length opened
      apply Guarded.bind (guarded_soleCondition (by omega) keyword)
      intro condition threshold conditionFits
      cases closed : splitAtClose 1 inside with
      | none => exact .fail _ _
      | some found =>
          rcases found with ⟨block, rest⟩
          have closeLength := splitAtClose_length closed
          apply Guarded.bind (inner block (by omega))
          intro body least bodyFits
          apply Guarded.pure
          refine ⟨by dsimp only; omega, ?_⟩
          intro limit
          rw [Tree.fitsIn_control, ← conditionFits, ← bodyFits]
          omega

theorem guarded_statementsOf {bound depth : Nat} {tokens : List Token}
    (space : depth + tokens.length ≤ bound) : GuardedStatements bound depth tokens := by
  induction tokens using program_induction generalizing depth with
  | straight tokens straight =>
      simp only [GuardedStatements, statementsOf_straight _ depth straight]
      apply (guarded_straightStatements (by omega)).imp
      rintro trees threshold ⟨straightTrees, fits⟩ limit
      rw [Tree.all_fitsIn_straight straightTrees, fits]
  | brace before stop later straight stops notControl =>
      simp only [GuardedStatements, statementsOf_brace _ depth straight stops notControl]
      exact .fail _ _
  | control before keyword later straight isControl induction =>
      rw [List.length_append, List.length_cons] at space
      simp only [GuardedStatements, statementsOf_control _ depth straight isControl]
      apply Guarded.bind (guarded_straightStatements (by omega))
      rintro earlier first ⟨straightTrees, earlierFits⟩
      apply Guarded.bind (guarded_governed (by omega)
        (fun block shorter => induction block shorter (by omega)) keyword)
      rintro ⟨tree, rest⟩ second ⟨shorter, treeFits⟩
      dsimp only at shorter
      apply Guarded.bind (induction rest shorter (by omega))
      intro following third followingFits
      apply Guarded.pure
      intro limit
      rw [List.forall_mem_append, List.forall_mem_cons, Tree.all_fitsIn_straight straightTrees,
        ← earlierFits, ← treeFits, ← followingFits]
      omega

/-! ## Programs -/

/-- The limit is exact and changes nothing else. A parse is the same as one with a limit that no
program of its length can exceed, or it fails for the sake of the limit; it comes through exactly if
the other does and neither the blocks nor the expressions of the program are nested deeper. So what
it accepts is at most twice as high, and higher limits accept it too. -/
theorem programOf_limit {tokens : List Token} {most : Nat} (enough : tokens.length < most)
    (limit : Nat) (symbols : Symbols) :
    ((programOf limit tokens).runFrom symbols = (programOf most tokens).runFrom symbols ∨
      ∃ position left, (programOf limit tokens).runFrom symbols =
        (.error ⟨.nestingTooDeep limit, position⟩, left)) ∧
    ∀ program later,
      ((programOf limit tokens).runFrom symbols = (.ok program, later) ↔
        (programOf most tokens).runFrom symbols = (.ok program, later) ∧
          ∀ statement ∈ program, statement.blockDepth ≤ limit ∧
            ∀ straight ∈ statement.straights, straight.isLeaf ∨ straight.height ≤ limit) ∧
      ((programOf limit tokens).runFrom symbols = (.ok program, later) →
        (∀ statement ∈ program, statement.height ≤ limit + max 1 limit) ∧
          ∀ higher, limit ≤ higher →
            (programOf higher tokens).runFrom symbols = (.ok program, later)) := by
  rcases @guarded_statementsOf _ 0 tokens (Nat.le_of_eq (Nat.zero_add _)) symbols with
    ⟨threshold, result, final, small, ⟨reached, exceeded⟩, fits⟩
  have free : (programOf most tokens).runFrom symbols = (result, final) :=
    reached most (by omega)
  have accepted {program : List Tree} {later : Symbols} {bound : Nat} :
      (programOf bound tokens).runFrom symbols = (.ok program, later) ↔
        threshold ≤ bound ∧ (result, final) = (.ok program, later) := by
    by_cases enough : threshold ≤ bound
    · rw [programOf, reached bound enough, and_iff_right enough]
    · rcases exceeded bound (by omega) with ⟨position, left, ran⟩
      rw [programOf, ran]
      simp [enough]
  constructor
  · by_cases less : limit < threshold
    · exact .inr (exceeded limit less)
    · rw [free]
      exact .inl (reached limit (by omega))
  · intro program later
    constructor
    · rw [accepted, free, and_comm]
      apply and_congr_right
      rintro ⟨⟩
      rw [fits program rfl]
      exact forall₂_congr fun statement _ => Tree.fitsIn_outermost
    · intro ran
      rcases accepted.mp ran with ⟨enoughHere, same⟩
      cases same
      constructor
      · intro statement member
        have fitsHere := ((fits program rfl limit).mp enoughHere) statement member
        simpa using fitsHere.height_le (Nat.zero_le _)
      · exact fun higher more => accepted.mpr ⟨by omega, rfl⟩

/-- A block around a sum takes one level of blocks and two of expressions. -/
theorem programOf_limit_block :
    let tokens : List Token := [⟨.control .conditional, "if", ⟨1, 0⟩⟩,
      ⟨.boolean, "true", ⟨1, 3⟩⟩, ⟨.openBlock, "\x7b", ⟨1, 8⟩⟩, ⟨.integer, "1", ⟨1, 10⟩⟩,
      ⟨.binary .add, "+", ⟨1, 12⟩⟩, ⟨.integer, "2", ⟨1, 14⟩⟩, ⟨.closeBlock, "\x7d", ⟨1, 16⟩⟩]
    let program := [Tree.control .conditional (.boolean true ⟨1, 3⟩)
      [.binary .add (.integer "1" ⟨1, 10⟩) (.integer "2" ⟨1, 14⟩) ⟨1, 12⟩] ⟨1, 0⟩]
    tokens.length < 8 ∧ (programOf 1 tokens).runFrom {} ≠ (.ok program, {}) ∧
      (programOf 2 tokens).runFrom {} = (.ok program, {}) ∧
      ∀ higher, 2 ≤ higher → (programOf higher tokens).runFrom {} = (.ok program, {}) := by
  intro tokens program
  have short : tokens.length < 8 := by decide
  have free : (programOf 8 tokens).runFrom {} = (.ok program, {}) := by cbv
  have accepted : (programOf 2 tokens).runFrom {} = (.ok program, {}) := by
    rw [((programOf_limit short 2 {}).2 program {}).1]
    refine ⟨free, ?_⟩
    simp [program, Tree.blockDepth, Tree.straights, Tree.isLeaf, Tree.height]
  refine ⟨short, ?_, accepted, (((programOf_limit short 2 {}).2 program {}).2 accepted).2⟩
  intro refused
  have fits := (((programOf_limit short 1 {}).2 program {}).1.mp refused).2
  simp [program, Tree.blockDepth, Tree.straights, Tree.isLeaf, Tree.height] at fits

end Scriptlet
