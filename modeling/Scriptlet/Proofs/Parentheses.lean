import Scriptlet.Proofs.Expression.Grouping

/-! Which parentheses have a partner, and what is reported if one has none.

Open parentheses wait among the operators. An operator that arrives never moves one, and nothing
waits across a terminator. So whether a statement can be put in post order depends on its own
parentheses alone. -/

namespace Scriptlet

/-! ## Counting -/

def openings (tokens : List Token) : Nat :=
  tokens.countP (·.kind == .openParen)

def closings (tokens : List Token) : Nat :=
  tokens.countP (·.kind == .closeParen)

@[simp] theorem openings_append (first second : List Token) :
    openings (first ++ second) = openings first + openings second :=
  List.countP_append

@[simp] theorem closings_append (first second : List Token) :
    closings (first ++ second) = closings first + closings second :=
  List.countP_append

@[simp] theorem openings_cons (token : Token) (later : List Token) :
    openings (token :: later) = openings later + if token.kind = .openParen then 1 else 0 := by
  simp [openings, List.countP_cons]

@[simp] theorem closings_cons (token : Token) (later : List Token) :
    closings (token :: later) = closings later + if token.kind = .closeParen then 1 else 0 := by
  simp [closings, List.countP_cons]

@[simp] theorem openings_nil : openings [] = 0 := rfl

@[simp] theorem closings_nil : closings [] = 0 := rfl

/-- No parenthesis is closed that is not open, with `depth` of them open in front. -/
def Partnered (depth : Nat) (tokens : List Token) : Prop :=
  ∀ front, front <+: tokens → closings front ≤ depth + openings front

/-- Every parenthesis has its partner. -/
structure Paired (tokens : List Token) : Prop where
  partnered : Partnered 0 tokens
  settled : closings tokens = openings tokens

theorem partnered_nil (depth : Nat) : Partnered depth [] := by
  intro front isFront
  rw [List.prefix_nil.mp isFront]
  simp

theorem partnered_cons {depth : Nat} {token : Token} {later : List Token} :
    Partnered depth (token :: later) ↔ closings [token] ≤ depth + openings [token] ∧
      Partnered (depth + openings [token] - closings [token]) later := by
  constructor
  · intro partnered
    have first := partnered [token] (by simp)
    refine ⟨first, fun front isFront => ?_⟩
    have whole := partnered (token :: front) (by simpa using isFront)
    rw [← List.singleton_append, openings_append, closings_append] at whole
    omega
  · rintro ⟨first, rest⟩ front isFront
    rcases List.prefix_cons_iff.mp isFront with rfl | ⟨others, rfl, within⟩
    · simp
    · have whole := rest others within
      rw [← List.singleton_append, openings_append, closings_append]
      omega

theorem partnered_concat {depth : Nat} {tokens : List Token} {token : Token} :
    Partnered depth (tokens ++ [token]) ↔ Partnered depth tokens ∧
      closings (tokens ++ [token]) ≤ depth + openings (tokens ++ [token]) := by
  simp only [Partnered, List.prefix_concat_iff]
  constructor
  · intro partnered
    exact ⟨fun front isFront => partnered front (.inr isFront), partnered _ (.inl rfl)⟩
  · rintro ⟨partnered, last⟩ front (rfl | isFront)
    · exact last
    · exact partnered front isFront

/-! ## Faults -/

/-- What is wrong with the parentheses of a statement: the first that is closed without being open,
or else the innermost that is still open at the end. -/
inductive ParenFault : List Token → SourceError → Prop where
  | unmatched {before after : List Token} {closing : Token} (paired : Paired before)
      (closes : closing.kind = .closeParen) :
      ParenFault (before ++ closing :: after) ⟨.unmatchedParen, closing.position⟩
  | unclosed {before after : List Token} {opening : Token} (partnered : Partnered 0 before)
      (opens : opening.kind = .openParen) (paired : Paired after) :
      ParenFault (before ++ opening :: after) ⟨.unclosedParen, opening.position⟩

theorem exists_unmatched {tokens : List Token} (fails : ¬Partnered 0 tokens) :
    ∃ before closing after, tokens = before ++ closing :: after ∧ Paired before ∧
      closing.kind = .closeParen := by
  induction tokens using List.reverseRecOn with
  | nil => exact absurd (partnered_nil 0) fails
  | append_singleton tokens token induction =>
      by_cases partnered : Partnered 0 tokens
      · have fewer := partnered tokens (List.prefix_refl tokens)
        have more : ¬closings (tokens ++ [token]) ≤ 0 + openings (tokens ++ [token]) :=
          fun last => fails (partnered_concat.mpr ⟨partnered, last⟩)
        by_cases closes : token.kind = .closeParen
        · simp [closes] at more
          exact ⟨tokens, token, [], rfl, ⟨partnered, by omega⟩, closes⟩
        · simp [closes] at more
          omega
      · obtain ⟨before, closing, after, rfl, paired, closes⟩ := induction partnered
        exact ⟨before, closing, after ++ [token], by simp, paired, closes⟩

/-- The last parenthesis that is not closed again, unless none is. -/
theorem exists_unclosed (tokens : List Token) :
    (∀ back, back <:+ tokens → openings back ≤ closings back) ∨
      ∃ before opening after, tokens = before ++ opening :: after ∧
        opening.kind = .openParen ∧ Paired after := by
  induction tokens with
  | nil =>
      refine .inl fun back isBack => ?_
      rw [List.suffix_nil.mp isBack]
      exact Nat.le_refl 0
  | cons token later induction =>
      rcases induction with closed | ⟨before, opening, after, rfl, opens, paired⟩
      · have all := closed later (List.suffix_refl later)
        by_cases last : token.kind = .openParen ∧ openings later = closings later
        · refine .inr ⟨[], token, later, rfl, last.1, fun front isFront => ?_, last.2.symm⟩
          obtain ⟨back, rfl⟩ := isFront
          have behind := closed back (List.suffix_append front back)
          have total := last.2
          simp at total
          omega
        · refine .inl fun back isBack => ?_
          rcases List.suffix_cons_iff.mp isBack with rfl | isBack
          · simp
            grind
          · exact closed back isBack
      · exact .inr ⟨token :: before, opening, after, rfl, opens, paired⟩

/-- A statement has its parentheses in pairs or shows a fault. -/
theorem paired_or_fault (tokens : List Token) :
    Paired tokens ∨ ∃ error, ParenFault tokens error := by
  by_cases partnered : Partnered 0 tokens
  · by_cases settled : closings tokens = openings tokens
    · exact .inl ⟨partnered, settled⟩
    · have fewer := partnered tokens (List.prefix_refl tokens)
      rcases exists_unclosed tokens with closed | ⟨before, opening, after, rfl, opens, paired⟩
      · have all := closed tokens (List.suffix_refl tokens)
        omega
      · have ahead : Partnered 0 before := fun front isFront =>
          partnered front (isFront.trans (List.prefix_append before _))
        exact .inr ⟨_, .unclosed ahead opens paired⟩
  · obtain ⟨before, closing, after, rfl, paired, closes⟩ := exists_unmatched partnered
    exact .inr ⟨_, .unmatched paired closes⟩

/-! ## Parentheses that wait -/

namespace Arrangement

variable {table : BindingTable} {state : Arrangement} {next : Token}

/-- The parentheses that are open, the innermost first. -/
def openParens (state : Arrangement) : List Token :=
  state.waiting.filter (·.kind == .openParen)

theorem take_opens (opens : next.kind = .openParen) :
    ∃ after, state.take table next = .ok after ∧ after.openParens = next :: state.openParens := by
  have same : next.readSign state.previous = next :=
    Token.readSign_of_kind_ne (by simp [opens]) _
  refine ⟨_, take_of_accept (accept_openParen table (by rwa [same]) _), ?_⟩
  simp [openParens, same, opens]

theorem take_closes (closes : next.kind = .closeParen) {partner : Token} {outer : List Token}
    (opened : state.openParens = partner :: outer) :
    ∃ after, state.take table next = .ok after ∧ after.openParens = outer := by
  have same : next.readSign state.previous = next :=
    Token.readSign_of_kind_ne (by simp [closes]) _
  obtain ⟨above, below, waits, inside, opens, rest⟩ := List.filter_eq_cons_iff.mp opened
  have accepted : accept table state.waiting (next.readSign state.previous) = .ok (above, below) := by
    rw [same, waits]
    exact accept_closeParen table closes (by simpa using opens) (by simpa using inside) below
  exact ⟨_, take_of_accept accepted, rest⟩

theorem take_closes_nothing (closes : next.kind = .closeParen) (none : state.openParens = []) :
    state.take table next = .error ⟨.unmatchedParen, next.position⟩ := by
  have same : next.readSign state.previous = next :=
    Token.readSign_of_kind_ne (by simp [closes]) _
  have all : state.waiting.dropWhile (·.kind != .openParen) = [] := by
    rw [List.dropWhile_eq_nil_iff]
    intro token member
    simpa using List.filter_eq_nil_iff.mp none token member
  have refused : accept table state.waiting next = .error ⟨.unmatchedParen, next.position⟩ := by
    rw [accept, closes, List.span_eq_takeWhile_dropWhile, all]
  rw [take, same, refused]
  rfl

/-- No other token fails, and none touches an open parenthesis. -/
theorem take_passes (unbound : table .openParen = none) (inside : next.kind.endsStatement = false)
    (notParen : next.isParen = false) :
    ∃ after, state.take table next = .ok after ∧ after.openParens = state.openParens := by
  generalize read : next.readSign state.previous = token
  have tokenInside : token.kind.endsStatement = false := by
    rw [← read, Token.endsStatement_readSign]
    exact inside
  have tokenNotParen : token.isParen = false := by
    rw [← read, Token.isParen_readSign]
    exact notParen
  simp only [Token.isParen, Bool.or_eq_false_iff, beq_eq_false_iff_ne] at tokenNotParen
  simp only [Kind.endsStatement, Bool.or_eq_false_iff, beq_eq_false_iff_ne] at tokenInside
  obtain ⟨released, remaining, accepted⟩ : ∃ released remaining,
      accept table state.waiting token = .ok (released, remaining) := by
    unfold accept
    split
    · exact absurd ‹_› tokenInside.1
    · exact absurd ‹_› tokenNotParen.1
    · exact absurd ‹_› tokenNotParen.2
    · split
      · exact ⟨_, _, rfl⟩
      · split
        · exact ⟨_, _, rfl⟩
        · exact ⟨_, _, rfl⟩
  refine ⟨_, take_of_accept (by rw [read]; exact accepted), ?_⟩
  rcases accept_cases tokenInside.1 accepted with
    ⟨opens, _⟩ | ⟨closes, _⟩ | ⟨_, _, _, waits⟩ |
    ⟨_, _, incoming, below, _, yielding, waits, remains⟩
  · exact absurd opens tokenNotParen.1
  · exact absurd closes tokenNotParen.2
  · simp [openParens, waits]
  · have none : released.filter (·.kind == .openParen) = [] := by
      rw [List.filter_eq_nil_iff]
      intro earlier member opens
      have yields := yielding earlier member
      rw [Token.yieldsTo, beq_iff_eq.mp opens, unbound] at yields
      cases yields
    simp [openParens, waits, remains, none, tokenNotParen.1]

/-- Tokens that close none of the parentheses `below` leave them as they are. -/
theorem take_all_partnered (unbound : table .openParen = none) {tokens : List Token}
    (plain : OneStatement tokens) {state : Arrangement} {above below : List Token}
    (opened : state.openParens = above ++ below) (partnered : Partnered above.length tokens) :
    ∃ after still, tokens.foldlM (take table) state = .ok after ∧
      after.openParens = still ++ below ∧
      still.length + closings tokens = above.length + openings tokens := by
  induction tokens generalizing state above with
  | nil => exact ⟨state, above, rfl, opened, rfl⟩
  | cons next later induction =>
      have plainLater : OneStatement later :=
        fun token member => plain token (List.mem_cons_of_mem _ member)
      rw [partnered_cons] at partnered
      -- One step, after which `reopened` are the parentheses above `below`.
      obtain ⟨middle, reopened, step, openMiddle, count⟩ : ∃ middle reopened,
          state.take table next = .ok middle ∧ middle.openParens = reopened ++ below ∧
          reopened.length + closings [next] = above.length + openings [next] := by
        by_cases opens : next.kind = .openParen
        · obtain ⟨middle, step, more⟩ := @take_opens table state next opens
          exact ⟨middle, next :: above, step, by simp [more, opened], by simp [opens]⟩
        · by_cases closes : next.kind = .closeParen
          · cases above with
            | nil => simp [closes] at partnered
            | cons partner outer =>
                obtain ⟨middle, step, fewer⟩ := take_closes closes opened
                exact ⟨middle, outer, step, fewer, by simp [closes]⟩
          · obtain ⟨middle, step, same⟩ := take_passes unbound (plain next List.mem_cons_self)
              (by simp [Token.isParen, opens, closes])
            exact ⟨middle, above, step, by rw [same, opened], by simp [opens, closes]⟩
      have depth : above.length + openings [next] - closings [next] = reopened.length := by omega
      rw [depth] at partnered
      obtain ⟨after, still, taken, left, rest⟩ := induction plainLater openMiddle partnered.2
      refine ⟨after, still, ?_, left, ?_⟩
      · rw [List.foldlM_cons, step]
        exact taken
      · rw [← List.singleton_append, openings_append, closings_append]
        omega

/-- What waits is released unless a parenthesis is open. -/
theorem finish_eq (state : Arrangement) :
    state.finish = match state.openParens with
      | [] => .ok (state.output ++ state.waiting)
      | opened :: _ => .error ⟨.unclosedParen, opened.position⟩ := by
  rw [finish, releaseAll, openParens, ← List.head?_filter]
  cases state.waiting.filter (·.kind == .openParen) with
  | nil => rfl
  | cons opened outer => rfl

end Arrangement

/-! ## Statements -/

section

variable {table : BindingTable} {statement : List Token} {error : SourceError}

theorem statementOrder_of_paired (unbound : table .openParen = none)
    (plain : OneStatement statement) (paired : Paired statement) :
    ∃ run, statementOrder table statement = .ok run := by
  have nothing : ({} : Arrangement).openParens = [] ++ [] := rfl
  obtain ⟨after, still, taken, left, count⟩ :=
    Arrangement.take_all_partnered unbound plain nothing paired.partnered
  have settled := paired.settled
  have none : after.openParens = [] := by
    rw [left, List.append_nil, ← List.length_eq_zero_iff]
    simp at count
    omega
  refine ⟨after.output ++ after.waiting, ?_⟩
  rw [statementOrder, taken]
  change after.finish = _
  rw [Arrangement.finish_eq, none]

theorem statementOrder_of_fault (unbound : table .openParen = none)
    (plain : OneStatement statement) (fault : ParenFault statement error) :
    statementOrder table statement = .error error := by
  have nothing : ({} : Arrangement).openParens = [] ++ [] := rfl
  cases fault with
  | @unmatched before later closing paired closes =>
      have plainBefore : OneStatement before := fun token member => plain token (by simp [member])
      obtain ⟨middle, still, taken, left, count⟩ :=
        Arrangement.take_all_partnered unbound plainBefore nothing paired.partnered
      have settled := paired.settled
      have none : middle.openParens = [] := by
        rw [left, List.append_nil, ← List.length_eq_zero_iff]
        simp at count
        omega
      rw [statementOrder, List.foldlM_append, taken]
      change (closing :: later).foldlM (Arrangement.take table) middle >>= _ = _
      rw [List.foldlM_cons, Arrangement.take_closes_nothing closes none]
      rfl
  | @unclosed before later opening partnered opens paired =>
      have plainBefore : OneStatement before := fun token member => plain token (by simp [member])
      have plainLater : OneStatement later := fun token member => plain token (by simp [member])
      obtain ⟨middle, outer, taken, _⟩ :=
        Arrangement.take_all_partnered unbound plainBefore nothing partnered
      obtain ⟨inner, step, opened⟩ := @Arrangement.take_opens table middle opening opens
      rw [← List.nil_append (opening :: middle.openParens)] at opened
      obtain ⟨after, still, rest, left, count⟩ :=
        Arrangement.take_all_partnered unbound plainLater opened paired.partnered
      have settled := paired.settled
      have nothingMore : still = [] := by
        rw [← List.length_eq_zero_iff]
        simp at count
        omega
      rw [statementOrder, List.foldlM_append, taken]
      change (opening :: later).foldlM (Arrangement.take table) middle >>= _ = _
      rw [List.foldlM_cons, step]
      change later.foldlM (Arrangement.take table) inner >>= _ = _
      rw [rest]
      change after.finish = _
      rw [Arrangement.finish_eq, left, nothingMore]
      rfl

/-- A statement is put in post order exactly if its parentheses come in pairs. -/
theorem statementOrder_isOk_iff_paired (unbound : table .openParen = none)
    (plain : OneStatement statement) :
    (∃ run, statementOrder table statement = .ok run) ↔ Paired statement := by
  refine ⟨?_, statementOrder_of_paired unbound plain⟩
  rintro ⟨run, ordered⟩
  rcases paired_or_fault statement with paired | ⟨error, fault⟩
  · exact paired
  · cases ordered.symm.trans (statementOrder_of_fault unbound plain fault)

/-- A statement that cannot be put in post order is reported with its fault. -/
theorem statementOrder_eq_error_iff (unbound : table .openParen = none)
    (plain : OneStatement statement) :
    statementOrder table statement = .error error ↔ ParenFault statement error := by
  refine ⟨?_, statementOrder_of_fault unbound plain⟩
  intro failed
  rcases paired_or_fault statement with paired | ⟨other, fault⟩
  · obtain ⟨run, ordered⟩ := statementOrder_of_paired unbound plain paired
    cases ordered.symm.trans failed
  · cases failed.symm.trans (statementOrder_of_fault unbound plain fault)
    exact fault

end

/-! ## Statement after statement -/

section

variable {action : α → Except ε β} {item : α} {items : List α} {values : List β} {error : ε}

theorem mapM_cons_of_error (failed : action item = .error error) :
    (item :: items).mapM action = .error error := by
  rw [List.mapM_cons, failed]
  rfl

theorem mapM_cons_of_ok {value : β} (done : action item = .ok value) :
    (item :: items).mapM action = (value :: ·) <$> items.mapM action := by
  rw [List.mapM_cons, done]
  cases items.mapM action with
  | error error => rfl
  | ok values => rfl

theorem mapM_eq_ok_iff :
    items.mapM action = .ok values ↔
      List.Forall₂ (fun item value => action item = .ok value) items values := by
  induction items generalizing values with
  | nil =>
      rw [List.forall₂_nil_left_iff, List.mapM_nil]
      exact ⟨fun same => (Except.ok.inj same).symm, fun same => same ▸ rfl⟩
  | cons item later induction =>
      rw [List.forall₂_cons_left_iff]
      cases found : action item with
      | error error => simp [mapM_cons_of_error found]
      | ok value =>
          simp only [mapM_cons_of_ok found, ← induction, Except.ok.injEq]
          cases later.mapM action with
          | error error => simp
          | ok others => simp [eq_comm]

theorem exists_of_mem_mapM (mapped : items.mapM action = .ok values) {value : β}
    (member : value ∈ values) : ∃ item ∈ items, action item = .ok value := by
  rw [mapM_eq_ok_iff] at mapped
  induction mapped with
  | nil => cases member
  | @cons first found later others step _ induction =>
      rcases List.mem_cons.mp member with rfl | member
      · exact ⟨first, List.mem_cons_self, step⟩
      · obtain ⟨item, within, same⟩ := induction member
        exact ⟨item, List.mem_cons_of_mem _ within, same⟩

/-- The first item that fails decides. -/
theorem mapM_eq_error_iff :
    items.mapM action = .error error ↔ ∃ earlier item later, items = earlier ++ item :: later ∧
      (∀ other ∈ earlier, ∃ value, action other = .ok value) ∧ action item = .error error := by
  constructor
  · intro failed
    induction items with
    | nil => cases failed
    | cons item later induction =>
        cases found : action item with
        | error first =>
            rw [mapM_cons_of_error found] at failed
            cases failed
            exact ⟨[], item, later, rfl, by simp, found⟩
        | ok value =>
            rw [mapM_cons_of_ok found] at failed
            cases rest : later.mapM action with
            | ok values =>
                rw [rest] at failed
                cases failed
            | error first =>
                rw [rest] at failed
                cases failed
                obtain ⟨earlier, culprit, behind, rfl, before, fails⟩ := induction rest
                refine ⟨item :: earlier, culprit, behind, rfl, ?_, fails⟩
                exact List.forall_mem_cons.mpr ⟨⟨value, found⟩, before⟩
  · rintro ⟨earlier, first, rest, rfl, before, fails⟩
    induction earlier with
    | nil => exact mapM_cons_of_error fails
    | cons item later induction =>
        obtain ⟨⟨value, found⟩, others⟩ := List.forall_mem_cons.mp before
        rw [List.cons_append, mapM_cons_of_ok found, induction others]
        rfl

end

section

variable {tokens ordered : List Token} {error : SourceError}

theorem postOrder_eq (tokens : List Token) :
    postOrder tokens =
      (closeRuns · (closingsIn (.endOfInput (lastLine tokens)) tokens)) <$>
        (statementsIn tokens).mapM (statementOrder Kind.binding?) := by
  rw [postOrder, postOrderWith, arrange_eq]
  cases (statementsIn tokens).mapM (statementOrder Kind.binding?) with
  | error error => rfl
  | ok runs => rfl

theorem postOrder_eq_ok_iff :
    postOrder tokens = .ok ordered ↔ ∃ runs,
      List.Forall₂ (fun statement run => statementOrder Kind.binding? statement = .ok run)
        (statementsIn tokens) runs ∧
      ordered = closeRuns runs (closingsIn (.endOfInput (lastLine tokens)) tokens) := by
  simp only [← mapM_eq_ok_iff]
  rw [postOrder_eq]
  cases (statementsIn tokens).mapM (statementOrder Kind.binding?) with
  | error error => simp
  | ok runs => simp [eq_comm]

/-- One statement is a sequence of tokens that only lacks its end mark. -/
theorem postOrder_statement {statement run : List Token} (plain : OneStatement statement)
    (ordered : statementOrder Kind.binding? statement = .ok run) :
    postOrder statement = .ok (run ++ [.endOfInput (lastLine statement)]) := by
  rw [postOrder_eq_ok_iff, statementsIn_statement plain, closingsIn_statement _ plain]
  exact ⟨[run], .cons ordered .nil, by simp [closeRuns]⟩

theorem postOrder_eq_error_iff :
    postOrder tokens = .error error ↔ ∃ earlier statement later,
      statementsIn tokens = earlier ++ statement :: later ∧
      (∀ other ∈ earlier, ∃ run, statementOrder Kind.binding? other = .ok run) ∧
      statementOrder Kind.binding? statement = .error error := by
  rw [← mapM_eq_error_iff, postOrder_eq]
  cases (statementsIn tokens).mapM (statementOrder Kind.binding?) with
  | error error => simp
  | ok runs => simp

end

/-- Parentheses are all that can be wrong with a sequence of tokens. The first statement in which one
has no partner decides what is reported. -/
theorem postOrder_parens (tokens : List Token) :
    ((∃ ordered, postOrder tokens = .ok ordered) ↔
        ∀ statement ∈ statementsIn tokens, Paired statement) ∧
      ∀ error, postOrder tokens = .error error ↔
        ∃ earlier statement later, statementsIn tokens = earlier ++ statement :: later ∧
          (∀ other ∈ earlier, Paired other) ∧ ParenFault statement error := by
  have unbound : Kind.binding? .openParen = none := rfl
  have isOk {statement : List Token} (plain : OneStatement statement) :=
    statementOrder_isOk_iff_paired unbound plain
  have plain {statement : List Token} (member : statement ∈ statementsIn tokens) :=
    oneStatement_of_mem_statementsIn member
  constructor
  · constructor
    · rintro ⟨ordered, found⟩
      obtain ⟨runs, each, _⟩ := postOrder_eq_ok_iff.mp found
      have paired := ((List.forall₂_and_left _ _).mpr ⟨fun _ member => plain member, each⟩).imp
        fun statement run both => And.intro ((isOk both.1).mp ⟨run, both.2⟩) both.2
      exact ((List.forall₂_and_left _ _).mp paired).1
    · intro paired
      cases found : postOrder tokens with
      | ok ordered => exact ⟨ordered, rfl⟩
      | error error =>
          obtain ⟨earlier, statement, later, whole, _, failed⟩ := postOrder_eq_error_iff.mp found
          have member : statement ∈ statementsIn tokens := by simp [whole]
          obtain ⟨run, ordered⟩ := (isOk (plain member)).mpr (paired statement member)
          cases ordered.symm.trans failed
  · intro error
    rw [postOrder_eq_error_iff]
    refine exists_congr fun earlier => exists_congr fun statement => exists_congr fun later =>
      and_congr_right fun whole => and_congr ?_ ?_
    · exact forall₂_congr fun other member => isOk (plain (by simp [whole, member]))
    · exact statementOrder_eq_error_iff unbound (plain (by simp [whole]))

end Scriptlet
