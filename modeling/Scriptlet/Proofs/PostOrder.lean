import Scriptlet.PostOrder
import Scriptlet.Sequence
import Scriptlet.Tree.Build
import Mathlib

/-! Post order statement by statement.

A terminator lets nothing wait across it, so the post order of a token sequence is made of the post
orders of its statements, each followed by the token that closes it. -/

namespace Scriptlet

/-! ## Signs -/

theorem Token.readSign_kind (previous : Option Kind) (token : Token) :
    (token.readSign previous).kind = token.kind ∨
      token.kind = .binary .subtract ∧ (token.readSign previous).kind = .unary .negate := by
  unfold readSign
  split
  · rename_i sign
    exact .inr ⟨sign.1, rfl⟩
  · exact .inl rfl

theorem Token.readSign_of_kind_ne {token : Token} (different : token.kind ≠ .binary .subtract)
    (previous : Option Kind) : token.readSign previous = token := by
  simp [readSign, different]

/-- Reading a sign only asks whether an operand is due. -/
theorem Token.readSign_congr {previous other : Option Kind}
    (same : operandDue previous = operandDue other) (token : Token) :
    token.readSign previous = token.readSign other := by
  simp [readSign, same]

theorem Token.endsStatement_readSign (previous : Option Kind) (token : Token) :
    (token.readSign previous).kind.endsStatement = token.kind.endsStatement := by
  rcases token.readSign_kind previous with same | ⟨before, after⟩
  · rw [same]
  · rw [before, after]
    rfl

theorem Token.readSign_of_endsStatement {token : Token} (closes : token.kind.endsStatement)
    (previous : Option Kind) : token.readSign previous = token := by
  apply readSign_of_kind_ne
  intro sign
  rw [sign] at closes
  cases closes

/-- The tokens of a statement with every sign read. -/
def readSigns : Option Kind → List Token → List Token
  | _, [] => []
  | previous, next :: later =>
      next.readSign previous :: readSigns (some (next.readSign previous).kind) later

/-! ## One token -/

/-- What a token inside a statement can do: an open parenthesis starts to wait; a closing one
releases what waits above its partner; an operator releases what yields to it and starts to wait;
everything else goes straight to the output. -/
theorem accept_cases {table : BindingTable} {waiting released remaining : List Token}
    {token : Token} (inside : token.kind ≠ .terminator)
    (accepted : accept table waiting token = .ok (released, remaining)) :
    (token.kind = .openParen ∧ released = [] ∧ remaining = token :: waiting) ∨
    (token.kind = .closeParen ∧ ∃ opened, opened.kind = .openParen ∧
      (∀ earlier ∈ released, earlier.kind ≠ .openParen) ∧
      waiting = released ++ opened :: remaining) ∨
    (token.kind ≠ .openParen ∧ token.kind ≠ .closeParen ∧
      released = [token] ∧ remaining = waiting) ∨
    (token.kind ≠ .openParen ∧ token.kind ≠ .closeParen ∧ ∃ incoming below,
      table token.kind = some incoming ∧ (∀ earlier ∈ released, earlier.yieldsTo table incoming) ∧
      waiting = released ++ below ∧ remaining = token :: below) := by
  unfold accept at accepted
  split at accepted
  · rename_i terminator
    exact absurd terminator inside
  · rename_i opens
    cases accepted
    exact .inl ⟨opens, rfl, rfl⟩
  · rename_i closes
    rw [List.span_eq_takeWhile_dropWhile] at accepted
    split at accepted
    · cases accepted
    · rename_i _ opened below parts
      cases accepted
      simp only [Prod.mk.injEq] at parts
      rcases parts with ⟨above, fromOpened⟩
      have opens : opened.kind = .openParen := by
        have stopped := List.head?_dropWhile_not (fun t : Token => t.kind != .openParen) waiting
        simpa [fromOpened] using stopped
      refine .inr (.inl ⟨closes, opened, opens, ?_, ?_⟩)
      · intro earlier member
        rw [← above] at member
        simpa using List.mem_takeWhile_imp member
      · rw [← above, ← fromOpened, List.takeWhile_append_dropWhile]
  · rename_i notTerminator notOpen notClose
    split at accepted
    · cases accepted
      exact .inr (.inr (.inl ⟨notOpen, notClose, rfl, rfl⟩))
    · split at accepted
      · cases accepted
        exact .inr (.inr (.inl ⟨notOpen, notClose, rfl, rfl⟩))
      · rename_i incoming bound
        rw [List.span_eq_takeWhile_dropWhile] at accepted
        cases accepted
        refine .inr (.inr (.inr ⟨notOpen, notClose, incoming, _, bound, ?_, ?_, rfl⟩))
        · intro earlier member
          exact List.mem_takeWhile_imp member
        · rw [List.takeWhile_append_dropWhile]

/-- How far the arrangement of a statement has come: what has been put in order, the kind of the last
token, and what waits. -/
structure Arrangement where
  output : List Token := []
  previous : Option Kind := none
  waiting : List Token := []

namespace Arrangement

def take (table : BindingTable) (state : Arrangement) (next : Token) :
    Except SourceError Arrangement := do
  let token := next.readSign state.previous
  let (released, waiting) ← accept table state.waiting token
  return ⟨state.output ++ released, some token.kind, waiting⟩

/-- The whole statement, once everything that waits has been released. -/
def finish (state : Arrangement) : Except SourceError (List Token) :=
  (state.output ++ ·) <$> releaseAll state.waiting

theorem take_of_accept {table : BindingTable} {state : Arrangement} {next : Token}
    {released remaining : List Token}
    (accepted : accept table state.waiting (next.readSign state.previous) =
      .ok (released, remaining)) :
    state.take table next =
      .ok ⟨state.output ++ released, some (next.readSign state.previous).kind, remaining⟩ := by
  rw [take, accepted]
  rfl

end Arrangement

/-- The post order of one statement. -/
def statementOrder (table : BindingTable) (statement : List Token) :
    Except SourceError (List Token) := do
  let state ← statement.foldlM (Arrangement.take table) {}
  state.finish

/-! ## Statement after statement -/

theorem arrange_congr (table : BindingTable) (mark : Token) (previous other : Option Kind)
    (same : operandDue previous = operandDue other) (waiting tokens : List Token) :
    arrange table mark previous waiting tokens = arrange table mark other waiting tokens := by
  cases tokens with
  | nil => rfl
  | cons next later => rw [arrange, arrange, Token.readSign_congr same]

/-- No token ends the statement before its last. -/
def OneStatement (statement : List Token) : Prop :=
  ∀ token ∈ statement, token.kind.endsStatement = false

/-- Inside a statement the tokens are taken one by one. -/
theorem arrange_append (table : BindingTable) (mark : Token) (state : Arrangement)
    {statement : List Token} (plain : OneStatement statement)
    (later : List Token) :
    (state.output ++ ·) <$>
        arrange table mark state.previous state.waiting (statement ++ later) =
      statement.foldlM (Arrangement.take table) state >>= fun after =>
        (after.output ++ ·) <$> arrange table mark after.previous after.waiting later := by
  induction statement generalizing state with
  | nil => rfl
  | cons next rest induction =>
      have inside := plain next List.mem_cons_self
      rw [← Token.endsStatement_readSign state.previous] at inside
      have notEnd : (next.readSign state.previous).kind ≠ .endOfInput := by
        intro ends
        rw [ends] at inside
        cases inside
      rw [List.cons_append, arrange, if_neg notEnd, List.foldlM_cons, Arrangement.take]
      cases accept table state.waiting (next.readSign state.previous) with
      | error error => rfl
      | ok step =>
          refine Eq.trans ?_ (induction ⟨state.output ++ step.1, _, step.2⟩
            fun token member => plain token (List.mem_cons_of_mem _ member))
          change (state.output ++ ·) <$> (step.1 ++ ·) <$> _ = _
          simp only [Functor.map_map, List.append_assoc]

/-- The statements of a token sequence up to its end mark. -/
def statementsIn (tokens : List Token) : List (List Token) :=
  (tokens.takeWhile (·.kind != .endOfInput)).splitOnP (·.kind == .terminator)

/-- The tokens that close the statements: the terminators, then the end mark. -/
def closingsIn (mark : Token) (tokens : List Token) : List Token :=
  (tokens.takeWhile (·.kind != .endOfInput)).filter (·.kind == .terminator) ++
    [(tokens.find? (·.kind == .endOfInput)).getD mark]

section

variable {statement : List Token} {closing : Token}

/-- A property of token sequences follows from what the first statement adds to it. -/
theorem statements_induction {motive : List Token → Prop}
    (last : ∀ statement, OneStatement statement → motive statement)
    (ended : ∀ statement closing later, OneStatement statement → closing.kind = .endOfInput →
      motive (statement ++ closing :: later))
    (closed : ∀ statement closing later, OneStatement statement → closing.kind = .terminator →
      motive later → motive (statement ++ closing :: later))
    (tokens : List Token) : motive tokens := by
  have plain : OneStatement (tokens.takeWhile (!·.kind.endsStatement)) := by
    intro token member
    simpa using List.mem_takeWhile_imp member
  have whole := List.takeWhile_append_dropWhile (p := fun t : Token => !t.kind.endsStatement)
    (l := tokens)
  cases found : tokens.dropWhile (!·.kind.endsStatement) with
  | nil =>
      rw [found, List.append_nil] at whole
      rw [← whole]
      exact last _ plain
  | cons closing later =>
      have closes := List.head?_dropWhile_not (fun t : Token => !t.kind.endsStatement) tokens
      rw [found] at closes whole
      rw [← whole]
      by_cases ends : closing.kind = .endOfInput
      · exact ended _ _ _ plain ends
      · have terminates : closing.kind = .terminator := by
          simpa [Kind.endsStatement, ends] using closes
        exact closed _ _ _ plain terminates (statements_induction last ended closed later)
termination_by tokens.length
decreasing_by exact length_lt_of_dropWhile_eq_cons found

private theorem takeWhile_not_end
    (plain : OneStatement statement) (later : List Token) :
    (statement ++ later).takeWhile (·.kind != .endOfInput) =
      statement ++ later.takeWhile (·.kind != .endOfInput) := by
  apply List.takeWhile_append_of_pos
  intro token member
  have inside := plain token member
  simp only [Kind.endsStatement, Bool.or_eq_false_iff] at inside
  simp [bne, inside.2]

private theorem not_terminator
    (plain : OneStatement statement) :
    ∀ token ∈ statement, (token.kind == .terminator) = false := by
  intro token member
  have inside := plain token member
  simp only [Kind.endsStatement, Bool.or_eq_false_iff] at inside
  exact inside.1

theorem statementsIn_statement
    (plain : OneStatement statement) :
    statementsIn statement = [statement] := by
  have all := takeWhile_not_end plain []
  rw [List.append_nil, List.takeWhile_nil, List.append_nil] at all
  rw [statementsIn, all, List.splitOnP_eq_singleton (not_terminator plain)]

theorem statementsIn_end
    (plain : OneStatement statement)
    (closes : closing.kind = .endOfInput) (later : List Token) :
    statementsIn (statement ++ closing :: later) = [statement] := by
  rw [statementsIn, takeWhile_not_end plain, List.takeWhile_cons_of_neg (by simp [closes]),
    List.append_nil, List.splitOnP_eq_singleton (not_terminator plain)]

theorem statementsIn_terminator
    (plain : OneStatement statement)
    (closes : closing.kind = .terminator) (later : List Token) :
    statementsIn (statement ++ closing :: later) = statement :: statementsIn later := by
  rw [statementsIn, takeWhile_not_end plain, List.takeWhile_cons_of_pos (by simp [closes]),
    List.splitOnP_append_cons_of_forall_mem (not_terminator plain) _ (by simp [closes])]
  rfl

private theorem filter_terminator
    (plain : OneStatement statement) :
    statement.filter (·.kind == .terminator) = [] := by
  rw [List.filter_eq_nil_iff]
  intro token member
  simpa using not_terminator plain token member

private theorem find_end
    (plain : OneStatement statement) (later : List Token) :
    (statement ++ later).find? (·.kind == .endOfInput) =
      later.find? (·.kind == .endOfInput) := by
  rw [List.find?_append, List.find?_eq_none.mpr, Option.none_or]
  intro token member
  have inside := plain token member
  simp only [Kind.endsStatement, Bool.or_eq_false_iff] at inside
  simp [inside.2]

theorem closingsIn_statement (mark : Token)
    (plain : OneStatement statement) :
    closingsIn mark statement = [mark] := by
  have all := takeWhile_not_end plain []
  have unmarked := find_end plain []
  rw [List.append_nil] at all unmarked
  rw [closingsIn, all, unmarked, List.takeWhile_nil, List.append_nil, filter_terminator plain]
  rfl

theorem closingsIn_end (mark : Token)
    (plain : OneStatement statement)
    (closes : closing.kind = .endOfInput) (later : List Token) :
    closingsIn mark (statement ++ closing :: later) = [closing] := by
  rw [closingsIn, takeWhile_not_end plain, List.takeWhile_cons_of_neg (by simp [closes]),
    List.append_nil, filter_terminator plain, find_end plain,
    List.find?_cons_of_pos (by simp [closes])]
  rfl

theorem closingsIn_terminator (mark : Token)
    (plain : OneStatement statement)
    (closes : closing.kind = .terminator) (later : List Token) :
    closingsIn mark (statement ++ closing :: later) = closing :: closingsIn mark later := by
  rw [closingsIn, takeWhile_not_end plain, List.takeWhile_cons_of_pos (by simp [closes]),
    List.filter_append, filter_terminator plain, List.filter_cons_of_pos (by simp [closes]),
    find_end plain, List.find?_cons_of_neg (by simp [closes])]
  rfl

end

/-- Each run followed by the token that closes it. -/
def closeRuns (runs : List (List Token)) (closings : List Token) : List Token :=
  (List.zipWith (fun run closing => run ++ [closing]) runs closings).flatten

theorem Arrangement.arrange_nil (table : BindingTable) (mark : Token) (state : Arrangement) :
    (state.output ++ ·) <$> arrange table mark state.previous state.waiting [] =
      (· ++ [mark]) <$> state.finish := by
  rw [arrange, finish]
  cases releaseAll state.waiting with
  | error error => rfl
  | ok released => exact congrArg Except.ok (List.append_assoc ..).symm

theorem Arrangement.arrange_end (table : BindingTable) (mark : Token) (state : Arrangement)
    {closing : Token} (closes : closing.kind = .endOfInput) (later : List Token) :
    (state.output ++ ·) <$> arrange table mark state.previous state.waiting (closing :: later) =
      (· ++ [closing]) <$> state.finish := by
  have same : closing.readSign state.previous = closing :=
    Token.readSign_of_endsStatement (by rw [closes]; rfl) _
  rw [arrange, same, if_pos closes, finish]
  cases releaseAll state.waiting with
  | error error => rfl
  | ok released => exact congrArg Except.ok (List.append_assoc ..).symm

theorem Arrangement.arrange_terminator (table : BindingTable) (mark : Token)
    (state : Arrangement) {closing : Token} (closes : closing.kind = .terminator)
    (later : List Token) :
    (state.output ++ ·) <$> arrange table mark state.previous state.waiting (closing :: later) =
      state.finish >>= fun run =>
        (run ++ closing :: ·) <$> arrange table mark none [] later := by
  have same : closing.readSign state.previous = closing :=
    Token.readSign_of_endsStatement (by rw [closes]; rfl) _
  have notEnd : closing.kind ≠ .endOfInput := by
    rw [closes]
    exact Kind.noConfusion
  rw [arrange, same, if_neg notEnd, accept, closes, finish]
  cases releaseAll state.waiting with
  | error error => rfl
  | ok released =>
      change (state.output ++ ·) <$> (released ++ [closing] ++ ·) <$>
        arrange table mark (some .terminator) [] later =
          (state.output ++ released ++ closing :: ·) <$> arrange table mark none [] later
      rw [arrange_congr table mark (some .terminator) none rfl]
      simp only [Functor.map_map, List.append_assoc, List.cons_append, List.nil_append]

/-- The post order of a token sequence is that of its statements, one after the other. -/
theorem arrange_eq (table : BindingTable) (mark : Token) (tokens : List Token) :
    arrange table mark none [] tokens = do
      let runs ← (statementsIn tokens).mapM (statementOrder table)
      return closeRuns runs (closingsIn mark tokens) := by
  have taken {statement : List Token} (plain : OneStatement statement) (later : List Token) :
      arrange table mark none [] (statement ++ later) =
        statement.foldlM (Arrangement.take table) {} >>= fun after =>
          (after.output ++ ·) <$> arrange table mark after.previous after.waiting later := by
    rw [← arrange_append table mark {} plain]
    exact (id_map _).symm
  have single (statement : List Token) (mark : Token) :
      ((· ++ [mark]) <$> statementOrder table statement) = (do
        let runs ← [statement].mapM (statementOrder table)
        return closeRuns runs [mark]) := by
    cases found : statementOrder table statement with
    | error error => simp [found]
    | ok run => simp [found, closeRuns]
  induction tokens using statements_induction with
  | last statement plain =>
      rw [statementsIn_statement plain, closingsIn_statement mark plain, ← single,
        ← List.append_nil statement, taken plain, List.append_nil, statementOrder, map_bind]
      simp only [Arrangement.arrange_nil]
  | ended statement closing later plain closes =>
      rw [statementsIn_end plain closes, closingsIn_end mark plain closes, ← single, taken plain,
        statementOrder, map_bind]
      simp only [Arrangement.arrange_end _ _ _ closes]
  | closed statement closing later plain closes induction =>
      rw [statementsIn_terminator plain closes, closingsIn_terminator mark plain closes,
        taken plain]
      simp only [Arrangement.arrange_terminator _ _ _ closes, ← bind_assoc]
      change (statementOrder table statement >>= _) = _
      rw [induction, List.mapM_cons]
      simp only [bind_assoc, map_bind, map_pure, pure_bind, closeRuns, List.zipWith_cons_cons,
        List.flatten_cons, List.append_assoc, List.cons_append, List.nil_append]

/-! ## Nothing is lost

A statement's post order holds its tokens, with their signs read and without the parentheses. -/

def Token.isParen (token : Token) : Bool :=
  token.kind == .openParen || token.kind == .closeParen

theorem Token.isParen_readSign (previous : Option Kind) (token : Token) :
    (token.readSign previous).isParen = token.isParen := by
  rcases token.readSign_kind previous with same | ⟨before, after⟩
  · rw [isParen, isParen, same]
  · rw [isParen, isParen, before, after]
    rfl

theorem exists_mem_readSigns {token : Token} {tokens : List Token} (member : token ∈ tokens)
    (previous : Option Kind) :
    ∃ before, token.readSign before ∈ readSigns previous tokens := by
  induction tokens generalizing previous with
  | nil => cases member
  | cons next later induction =>
      rw [readSigns]
      rcases List.mem_cons.mp member with rfl | member
      · exact ⟨previous, List.mem_cons_self⟩
      · rcases induction member (some (next.readSign previous).kind) with ⟨before, read⟩
        exact ⟨before, List.mem_cons_of_mem _ read⟩

theorem Arrangement.take_perm {table : BindingTable} {state after : Arrangement} {next : Token}
    (inside : next.kind.endsStatement = false) (taken : state.take table next = .ok after) :
    ((after.output ++ after.waiting).filter (!·.isParen)).Perm
        ((state.output ++ state.waiting ++ [next.readSign state.previous]).filter
          (!·.isParen)) ∧
      after.previous = some (next.readSign state.previous).kind := by
  have notTerminator : (next.readSign state.previous).kind ≠ .terminator := by
    intro terminator
    rw [← Token.endsStatement_readSign state.previous, terminator] at inside
    cases inside
  rw [take] at taken
  cases accepted : accept table state.waiting (next.readSign state.previous) with
  | error error =>
      rw [accepted] at taken
      cases taken
  | ok step =>
      rw [accepted] at taken
      cases taken
      refine ⟨?_, rfl⟩
      rcases accept_cases notTerminator accepted with
        ⟨opens, nothing, waits⟩ | ⟨closes, opened, opens, _, waits⟩ |
        ⟨_, _, passes, waits⟩ | ⟨_, _, incoming, below, _, _, waits, remains⟩
      · rw [nothing, waits, List.append_nil, List.append_assoc]
        apply List.Perm.filter
        exact (List.perm_append_singleton _ _).symm.append_left _
      · rw [waits]
        simp [Token.isParen, opens, closes]
      · rw [passes, waits]
        apply List.Perm.filter
        rw [List.append_assoc, List.append_assoc]
        exact (List.perm_append_comm).append_left _
      · rw [waits, remains]
        apply List.Perm.filter
        simp only [List.append_assoc]
        refine List.Perm.append_left _ (List.Perm.append_left _ ?_)
        exact (List.perm_append_singleton _ _).symm

theorem Arrangement.take_all_perm {table : BindingTable} {state after : Arrangement}
    {statement : List Token} (plain : OneStatement statement)
    (taken : statement.foldlM (take table) state = .ok after) :
    ((after.output ++ after.waiting).filter (!·.isParen)).Perm
      ((state.output ++ state.waiting ++ readSigns state.previous statement).filter
        (!·.isParen)) := by
  induction statement generalizing state with
  | nil =>
      cases taken
      rw [readSigns, List.append_nil]
  | cons next later induction =>
      rw [List.foldlM_cons] at taken
      cases step : state.take table next with
      | error error =>
          rw [step] at taken
          cases taken
      | ok middle =>
          rw [step] at taken
          rcases take_perm (plain next List.mem_cons_self) step with ⟨same, read⟩
          have rest := induction (fun token member => plain token (List.mem_cons_of_mem _ member))
            taken
          refine rest.trans ?_
          rw [read, readSigns, List.filter_append]
          refine (same.append_right _).trans ?_
          rw [← List.filter_append, List.append_assoc, List.singleton_append]

/-- The post order of a statement is a rearrangement of its tokens. -/
theorem statementOrder_perm {table : BindingTable} {statement run : List Token}
    (plain : OneStatement statement) (ordered : statementOrder table statement = .ok run) :
    (run.filter (!·.isParen)).Perm ((readSigns none statement).filter (!·.isParen)) := by
  rw [statementOrder] at ordered
  cases taken : statement.foldlM (Arrangement.take table) {} with
  | error error =>
      rw [taken] at ordered
      cases ordered
  | ok after =>
      have same := Arrangement.take_all_perm plain taken
      rw [taken] at ordered
      change after.finish = .ok run at ordered
      rw [Arrangement.finish, releaseAll] at ordered
      split at ordered
      · cases ordered
      · cases ordered
        exact same

theorem OneStatement.of_readSigns {statement : List Token} (plain : OneStatement statement)
    (previous : Option Kind) : OneStatement (readSigns previous statement) := by
  induction statement generalizing previous with
  | nil => exact plain
  | cons next later induction =>
      intro token member
      rw [readSigns, List.mem_cons] at member
      rcases member with rfl | member
      · rw [Token.endsStatement_readSign]
        exact plain next List.mem_cons_self
      · exact induction (fun token member => plain token (List.mem_cons_of_mem _ member)) _
          token member

/-- The post order of a statement is a statement. -/
theorem OneStatement.of_statementOrder {table : BindingTable} {statement run : List Token}
    (plain : OneStatement statement) (ordered : statementOrder table statement = .ok run) :
    OneStatement run := by
  intro token member
  by_cases paren : token.isParen
  · simp only [Token.isParen, Bool.or_eq_true, beq_iff_eq] at paren
    rcases paren with opens | closes
    · rw [opens]
      rfl
    · rw [closes]
      rfl
  · have kept := (statementOrder_perm plain ordered).mem_iff.mp
      (List.mem_filter.mpr ⟨member, by simpa using paren⟩)
    exact plain.of_readSigns none token (List.mem_filter.mp kept).1

end Scriptlet
