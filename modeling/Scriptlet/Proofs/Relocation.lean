import Scriptlet.Proofs.Program

/-! Tokens moved to other places. Parsing looks at kinds and texts only, so moving every token moves
the nodes and the faults that come of them and changes nothing else. -/

namespace Scriptlet

section

variable (place : Position → Position)

def Token.move (token : Token) : Token :=
  { token with position := place token.position }

def SourceError.move (error : SourceError) : SourceError :=
  { error with position := place error.position }

def Tree.move : Tree → Tree
  | integer text position => integer text (place position)
  | decimal text position => decimal text (place position)
  | string handle position => string handle (place position)
  | boolean value position => boolean value (place position)
  | identifier handle position => identifier handle (place position)
  | binary operator left right position => binary operator left.move right.move (place position)
  | unary operator operand position => unary operator operand.move (place position)
  | assign target value position => assign target.move value.move (place position)
  | command keyword operand position => command keyword operand.move (place position)
  | control keyword condition body position =>
      control keyword condition.move (body.map move) (place position)

def Operand.move (operand : Operand) : Operand :=
  { operand with tree := operand.tree.move place }

/-- A result with its value changed and its fault moved. -/
def moveResult (change : α → β) : Except SourceError α → Except SourceError β
  | .ok value => .ok (change value)
  | .error error => .error (error.move place)

@[simp] theorem moveResult_ok (change : α → β) (value : α) :
    moveResult place change (.ok value) = .ok (change value) := rfl

@[simp] theorem moveResult_error (change : α → β) (error : SourceError) :
    moveResult place change (.error error) = .error (error.move place) := rfl

@[simp] theorem Token.move_kind (token : Token) : (token.move place).kind = token.kind := rfl

@[simp] theorem Token.move_text (token : Token) : (token.move place).text = token.text := rfl

@[simp] theorem Token.move_position (token : Token) :
    (token.move place).position = place token.position := rfl

end

variable {place : Position → Position}

/-- Two steps that each move as they should do so together. -/
theorem moveResult_bind {first : Except SourceError α} {moved : Except SourceError α'}
    {change : α → α'} (firstMoved : moved = moveResult place change first)
    {next : α → Except SourceError β} {movedNext : α' → Except SourceError β'} {change' : β → β'}
    (nextMoved : ∀ value, movedNext (change value) = moveResult place change' (next value)) :
    moved >>= movedNext = moveResult place change' (first >>= next) := by
  rw [firstMoved]
  cases first with
  | error error => rfl
  | ok value => exact nextMoved value

theorem moveResult_foldlM {step : σ → α → Except SourceError σ}
    {movedStep : σ' → α' → Except SourceError σ'} {change : σ → σ'} {convert : α → α'}
    (moves : ∀ state item, movedStep (change state) (convert item) =
      moveResult place change (step state item)) (items : List α) (state : σ) :
    (items.map convert).foldlM movedStep (change state) =
      moveResult place change (items.foldlM step state) := by
  induction items generalizing state with
  | nil => rfl
  | cons item later induction =>
      rw [List.map_cons, List.foldlM_cons, List.foldlM_cons]
      exact moveResult_bind (moves state item) induction

theorem moveResult_mapM {step : α → Except SourceError β}
    {movedStep : α' → Except SourceError β'} {change : β → β'} {convert : α → α'}
    (moves : ∀ item, movedStep (convert item) = moveResult place change (step item))
    (items : List α) :
    (items.map convert).mapM movedStep =
      moveResult place (List.map change) (items.mapM step) := by
  induction items with
  | nil => rfl
  | cons item later induction =>
      rw [List.map_cons, List.mapM_cons, List.mapM_cons]
      exact moveResult_bind (moves item) fun value =>
        moveResult_bind induction fun values => rfl

/-! ## Post order -/

theorem Token.readSign_move (previous : Option Kind) (token : Token) :
    (token.move place).readSign previous = (token.readSign previous).move place := by
  unfold readSign
  rw [move_kind]
  split <;> rfl

theorem Token.yieldsTo_move (table : BindingTable) (incoming : Binding) (token : Token) :
    (token.move place).yieldsTo table incoming = token.yieldsTo table incoming := rfl

theorem releaseAll_move (waiting : List Token) :
    releaseAll (waiting.map (Token.move place)) =
      moveResult place (List.map (Token.move place)) (releaseAll waiting) := by
  have same : ((fun token : Token => token.kind == .openParen) ∘ Token.move place) =
      fun token => token.kind == .openParen := rfl
  rw [releaseAll, releaseAll, List.find?_map, same]
  cases waiting.find? (·.kind == .openParen) <;> rfl

theorem span_move {test : Token → Bool} (same : ∀ token, test (token.move place) = test token)
    (tokens : List Token) :
    (tokens.map (Token.move place)).span test =
      ((tokens.span test).1.map (Token.move place),
        (tokens.span test).2.map (Token.move place)) := by
  have composed : test ∘ Token.move place = test := funext same
  rw [List.span_eq_takeWhile_dropWhile, List.span_eq_takeWhile_dropWhile, List.takeWhile_map,
    List.dropWhile_map, composed]

theorem accept_move (table : BindingTable) (waiting : List Token) (token : Token) :
    accept table (waiting.map (Token.move place)) (token.move place) =
      moveResult place (fun step => (step.1.map (Token.move place), step.2.map (Token.move place)))
        (accept table waiting token) := by
  unfold accept
  rw [Token.move_kind]
  split
  · refine moveResult_bind (releaseAll_move waiting) fun released => ?_
    simp [pure, Except.pure]
  · rfl
  · rw [span_move fun _ => rfl]
    generalize waiting.span (fun token => token.kind != .openParen) = parts
    rcases parts with ⟨released, _ | ⟨opened, below⟩⟩ <;> rfl
  · split
    · rfl
    · split
      · rfl
      · rename_i incoming bound
        rw [span_move (Token.yieldsTo_move table incoming)]
        rfl

def Arrangement.move (place : Position → Position) (state : Arrangement) : Arrangement :=
  ⟨state.output.map (Token.move place), state.previous, state.waiting.map (Token.move place)⟩

theorem Arrangement.take_move (table : BindingTable) (state : Arrangement) (next : Token) :
    (state.move place).take table (next.move place) =
      moveResult place (move place) (state.take table next) := by
  unfold take
  rw [Token.readSign_move]
  refine moveResult_bind (accept_move table state.waiting _) fun step => ?_
  simp [pure, Except.pure, move]

/-- The post order of a moved statement is that of the statement, moved. -/
theorem statementOrder_move (table : BindingTable) (statement : List Token) :
    statementOrder table (statement.map (Token.move place)) =
      moveResult place (List.map (Token.move place)) (statementOrder table statement) := by
  refine moveResult_bind (moveResult_foldlM (Arrangement.take_move table) statement {})
    fun state => ?_
  rw [Arrangement.finish, Arrangement.finish, Arrangement.move, releaseAll_move]
  cases releaseAll state.waiting with
  | error error => rfl
  | ok released => exact congrArg Except.ok (List.map_append ..).symm

theorem OneStatement.move {statement : List Token} (plain : OneStatement statement) :
    OneStatement (statement.map (Token.move place)) := by
  intro token member
  rcases List.mem_map.mp member with ⟨original, inside, rfl⟩
  exact plain original inside

theorem statementsIn_move (tokens : List Token) :
    statementsIn (tokens.map (Token.move place)) =
      (statementsIn tokens).map (List.map (Token.move place)) := by
  induction tokens using statements_induction with
  | last statement plain =>
      rw [statementsIn_statement plain, statementsIn_statement plain.move]
      rfl
  | ended statement closing later plain closes =>
      have moved : (closing.move place).kind = .endOfInput := closes
      rw [statementsIn_end plain closes, List.map_append, List.map_cons,
        statementsIn_end plain.move moved]
      rfl
  | closed statement closing later plain closes induction =>
      have moved : (closing.move place).kind = .terminator := closes
      rw [statementsIn_terminator plain closes, List.map_append, List.map_cons,
        statementsIn_terminator plain.move moved, induction]
      rfl

/-! ## Trees -/

theorem Token.leaf_move (token : Token) (symbols : Symbols) :
    (token.move place).leaf symbols =
      ((token.leaf symbols).1.move place, (token.leaf symbols).2) := by
  rcases token with ⟨kind, text, position⟩
  cases kind <;> simp [leaf, move, Tree.move]

theorem Token.over_move (token : Token) (operand : Tree) :
    (token.move place).over (operand.move place) = (token.over operand).move place := by
  rcases token with ⟨kind, text, position⟩
  cases kind <;> simp [Token.over, move, Tree.move]

theorem Token.between_move (token : Token) (left right : Tree) :
    (token.move place).between (left.move place) (right.move place) =
      (token.between left right).move place := by
  rcases token with ⟨kind, text, position⟩
  cases kind <;> simp [between, move, Tree.move]

theorem Tree.position_move (tree : Tree) : (tree.move place).position = place tree.position := by
  cases tree <;> simp [move, position]

namespace Parse

/-- The second step does what the first does, somewhere else: its value is changed and its fault
moved, and the tables are the same. -/
def Moves (place : Position → Position) (change : α → β) (step : Parse α) (moved : Parse β) :
    Prop :=
  ∀ symbols, moved.runFrom symbols =
    (moveResult place change (step.runFrom symbols).1, (step.runFrom symbols).2)

namespace Moves

variable {change : α → β}

theorem pure {value : α} {moved : β} (same : moved = change value) :
    Moves place change (pure value) (pure moved) := by
  intro symbols
  rw [same]
  rfl

theorem fail {cause : SourceError.Cause} {position moved : Position}
    (same : moved = place position) :
    Moves place change (fail cause position) (fail cause moved) := by
  intro symbols
  rw [same]
  rfl

theorem ofExcept {result : Except SourceError α} {moved : Except SourceError β}
    (same : moved = moveResult place change result) :
    Moves place change (ofExcept result) (ofExcept moved) := by
  intro symbols
  rw [same]
  rfl

/-- Steps that move as they should do so one after the other. Only what the first can give goes into
the second. -/
theorem bind {step : Parse α} {moved : Parse β} {next : α → Parse γ} {movedNext : β → Parse δ}
    {changeNext : γ → δ} (first : Moves place change step moved)
    (following : ∀ value symbols later, step.runFrom symbols = (.ok value, later) →
      Moves place changeNext (next value) (movedNext (change value))) :
    Moves place changeNext (step >>= next) (moved >>= movedNext) := by
  intro symbols
  rw [runFrom_bind, runFrom_bind, first symbols]
  have rest := fun value => following value symbols
  generalize step.runFrom symbols = ending at rest ⊢
  rcases ending with ⟨error | value, later⟩
  · rfl
  · exact rest value later rfl later

theorem foldlM {step : σ → ι → Parse σ} {movedStep : σ' → ι' → Parse σ'} {change : σ → σ'}
    {convert : ι → ι'}
    (moves : ∀ state item,
      Moves place change (step state item) (movedStep (change state) (convert item)))
    (items : List ι) (state : σ) :
    Moves place change (items.foldlM step state)
      ((items.map convert).foldlM movedStep (change state)) := by
  induction items generalizing state with
  | nil => exact pure rfl
  | cons item later induction =>
      rw [List.map_cons, List.foldlM_cons, List.foldlM_cons]
      exact (moves state item).bind fun value _ _ _ => induction value

theorem mapM {step : ι → Parse α} {movedStep : ι' → Parse β} {convert : ι → ι'}
    (moves : ∀ item, Moves place change (step item) (movedStep (convert item))) (items : List ι) :
    Moves place (List.map change) (items.mapM step) ((items.map convert).mapM movedStep) := by
  induction items with
  | nil => exact pure rfl
  | cons item later induction =>
      rw [List.map_cons, List.mapM_cons, List.mapM_cons]
      exact (moves item).bind fun _ _ _ _ => induction.bind fun _ _ _ _ => pure rfl

theorem outcome {step : Parse α} {moved : Parse β} (moves : Moves place change step moved)
    (symbols : Symbols) :
    moved.outcome symbols =
      moveResult place (fun found => (change found.1, found.2)) (step.outcome symbols) := by
  rw [Parse.outcome, Parse.outcome, moves symbols]
  rcases step.runFrom symbols with ⟨_ | _, _⟩ <;> rfl

end Moves

end Parse

theorem Operand.combine_move (limit below : Nat) (tree : Tree) :
    Parse.Moves place (Operand.move place) (combine limit below tree)
      (combine limit below (tree.move place)) := by
  unfold combine
  split
  · exact .fail (Tree.position_move tree)
  · exact .pure rfl

theorem absorb_move (limit : Nat) (operands : List Operand) (token : Token) :
    Parse.Moves place (List.map (Operand.move place)) (absorb limit operands token)
      (absorb limit (operands.map (Operand.move place)) (token.move place)) := by
  have combined (below : List Operand) (depth : Nat) (tree : Tree) :
      Parse.Moves place (List.map (Operand.move place))
        (Operand.combine limit depth tree >>= fun operand => return operand :: below)
        (Operand.combine limit depth (tree.move place) >>= fun operand =>
          return operand :: below.map (Operand.move place)) :=
    (Operand.combine_move limit depth tree).bind fun _ _ _ _ => .pure rfl
  by_cases isOperand : token.kind.isOperand
  · have moved : (token.move place).kind.isOperand := isOperand
    intro symbols
    rw [absorb_operand isOperand, absorb_operand moved, Token.leaf_move]
    rfl
  by_cases isUnary : token.kind.isUnary
  · have moved : (token.move place).kind.isUnary := isUnary
    cases operands with
    | nil =>
        rw [absorb_unary_nil isUnary, List.map_nil, absorb_unary_nil moved]
        exact .fail rfl
    | cons operand below =>
        rw [absorb_unary_cons isUnary, List.map_cons, absorb_unary_cons moved]
        exact (Token.over_move token operand.tree) ▸ combined below operand.depth _
  by_cases isBinary : token.kind.isBinary
  · have moved : (token.move place).kind.isBinary := isBinary
    match operands with
    | [] | [_] =>
        rw [absorb_binary_short isBinary limit (by simp),
          absorb_binary_short moved limit (by simp)]
        exact .fail rfl
    | right :: left :: below =>
        rw [absorb_binary_cons isBinary, List.map_cons, List.map_cons, absorb_binary_cons moved]
        exact (Token.between_move token left.tree right.tree) ▸ combined below _ _
  · have others : token.kind.isOperand = false ∧ token.kind.isUnary = false ∧
        token.kind.isBinary = false := by
      simp [isOperand, isUnary, isBinary]
    have moved : (token.move place).kind.isOperand = false ∧
        (token.move place).kind.isUnary = false ∧ (token.move place).kind.isBinary = false := others
    rw [absorb_other others.1 others.2.1 others.2.2, absorb_other moved.1 moved.2.1 moved.2.2]
    exact .fail rfl

theorem completeStatement_move (operands : List Operand) :
    Parse.Moves place (Option.map (Tree.move place)) (completeStatement operands)
      (completeStatement (operands.map (Operand.move place))) := by
  rw [completeStatement, completeStatement, ← List.map_reverse]
  match operands.reverse with
  | [] | [_] => exact .pure rfl
  | _ :: extra :: _ => exact .fail (Tree.position_move extra.tree)

theorem statementTree_move (limit : Nat) (run : List Token) :
    Parse.Moves place (Option.map (Tree.move place)) (statementTree limit run)
      (statementTree limit (run.map (Token.move place))) :=
  (Parse.Moves.foldlM (absorb_move limit) run []).bind fun operands _ _ _ =>
    completeStatement_move operands

/-- The trees of moved statements are those of the statements, moved. -/
theorem straightStatements_move (limit : Nat) (tokens : List Token) :
    Parse.Moves place (List.map (Tree.move place)) (straightStatements limit tokens)
      (straightStatements limit (tokens.map (Token.move place))) := by
  rw [straightStatements_eq, straightStatements_eq, statementsIn_move]
  apply Parse.Moves.bind
    (.ofExcept (moveResult_mapM (statementOrder_move Kind.binding?) (statementsIn tokens)))
  intro runs _ _ _
  apply (Parse.Moves.mapM (statementTree_move limit) runs).bind
  intro statements _ _ _
  exact .pure (List.reduceOption_map ..)

/-! ## Programs -/

theorem splitAtOpen_move (tokens : List Token) :
    splitAtOpen (tokens.map (Token.move place)) =
      (splitAtOpen tokens).map fun (before, brace, after) =>
        (before.map (Token.move place), brace.move place, after.map (Token.move place)) := by
  induction tokens with
  | nil => rfl
  | cons token later induction =>
      rw [List.map_cons, splitAtOpen, splitAtOpen, Token.move_kind]
      split
      · rfl
      · rfl
      · rfl
      · rw [induction, Option.map_map, Option.map_map]
        rfl

theorem splitAtClose_move (openBlocks : Nat) (tokens : List Token) :
    splitAtClose openBlocks (tokens.map (Token.move place)) =
      (splitAtClose openBlocks tokens).map fun (before, after) =>
        (before.map (Token.move place), after.map (Token.move place)) := by
  induction tokens generalizing openBlocks with
  | nil => rfl
  | cons token later induction =>
      have grow (count : Nat) :
          (splitAtClose count (later.map (Token.move place))).map
              (fun (before, after) => (token.move place :: before, after)) =
            ((splitAtClose count later).map fun (before, after) => (token :: before, after)).map
              fun (before, after) =>
                (before.map (Token.move place), after.map (Token.move place)) := by
        rw [induction]
        cases splitAtClose count later <;> rfl
      rw [List.map_cons, splitAtClose, splitAtClose, Token.move_kind]
      split
      · exact grow _
      · split
        · rfl
        · exact grow _
      · exact grow _

theorem soleCondition_move (limit : Nat) (keyword : Token) (tokens : List Token) :
    Parse.Moves place (Tree.move place) (soleCondition limit keyword tokens)
      (soleCondition limit (keyword.move place) (tokens.map (Token.move place))) := by
  apply (straightStatements_move limit tokens).bind
  intro trees _ _ _
  match trees with
  | [condition] => exact .pure rfl
  | [] | _ :: _ :: _ => exact .fail rfl

theorem Straight.move {tokens : List Token} (straight : Straight tokens) :
    Straight (tokens.map (Token.move place)) := by
  intro token member
  rcases List.mem_map.mp member with ⟨original, inside, rfl⟩
  exact straight original inside

theorem governed_move (limit depth : Nat) (keyword : Token) (after : List Token)
    (blocks : ∀ block : List Token, block.length < after.length →
      Parse.Moves place (List.map (Tree.move place)) (statementsOf limit (depth + 1) block)
        (statementsOf limit (depth + 1) (block.map (Token.move place)))) :
    Parse.Moves place (fun found => (found.1.move place, found.2.map (Token.move place)))
      (governed limit depth keyword after)
      (governed limit depth (keyword.move place) (after.map (Token.move place))) := by
  rw [governed_eq, governed_eq, splitAtOpen_move]
  split
  · exact .fail rfl
  · cases opened : splitAtOpen after with
    | none => exact .fail rfl
    | some parts =>
        rcases parts with ⟨tokens, brace, inside⟩
        apply (soleCondition_move limit keyword tokens).bind
        intro condition _ _ _
        rw [splitAtClose_move]
        cases closed : splitAtClose 1 inside with
        | none => exact .fail rfl
        | some parts =>
            rcases parts with ⟨block, rest⟩
            have openLength := splitAtOpen_length opened
            have closeLength := splitAtClose_length closed
            apply (blocks block (by omega)).bind
            intro body _ _ _
            have same : (keyword.move place).controlOf = keyword.controlOf := rfl
            exact .pure (by simp [Tree.move, same])

/-- Moving every token moves the statements and the fault. -/
theorem statementsOf_move (limit depth : Nat) (tokens : List Token) :
    Parse.Moves place (List.map (Tree.move place)) (statementsOf limit depth tokens)
      (statementsOf limit depth (tokens.map (Token.move place))) := by
  induction tokens using program_induction generalizing depth with
  | straight tokens straight =>
      rw [statementsOf_straight limit depth straight, statementsOf_straight limit depth
        straight.move]
      exact straightStatements_move limit tokens
  | brace before stop later straight stops notControl =>
      have stopMoved : (stop.move place).isStraight = false ∧
          (stop.move place).kind.isControl = false := ⟨stops, notControl⟩
      rw [List.map_append, List.map_cons, statementsOf_brace limit depth straight stops notControl,
        statementsOf_brace limit depth straight.move stopMoved.1 stopMoved.2]
      exact .fail rfl
  | control before keyword later straight isControl induction =>
      have keywordMoved : (keyword.move place).kind.isControl := isControl
      rw [List.map_append, List.map_cons, statementsOf_control limit depth straight isControl,
        statementsOf_control limit depth straight.move keywordMoved]
      apply (straightStatements_move limit before).bind
      intro earlier _ _ _
      apply (governed_move limit depth keyword later fun block shorter =>
        induction block shorter (depth + 1)).bind
      intro found symbols middle parsed
      have shorter := length_governed (Parse.outcome_eq_ok.mpr parsed)
      apply (induction found.2 shorter depth).bind
      intro following _ _ _
      exact .pure (by simp)

end Scriptlet
