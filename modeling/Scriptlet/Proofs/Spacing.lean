import Scriptlet.Proofs.Boundary

/-! Idle terminators. A terminator counts only between two straight statements. At the start and at
the end of a sequence, next to a brace and next to another terminator it changes nothing, and where
it stands never matters. -/

namespace Scriptlet

/-- Terminators and nothing else. -/
def Gap (tokens : List Token) : Prop :=
  ∀ token ∈ tokens, token.kind = .terminator

def Token.isBrace (token : Token) : Bool :=
  token.kind == .openBlock || token.kind == .closeBlock

/-- Whether a terminator between the two sequences would change nothing. -/
def Idle (before after : List Token) : Prop :=
  before = [] ∨ after = [] ∨ (∃ last ∈ before.getLast?, last.isBrace) ∨
    ∃ first ∈ after.head?, first.isBrace

theorem Idle.of_append_left {front before after : List Token}
    (idle : Idle (front ++ before) after) : Idle before after := by
  rcases List.eq_nil_or_concat before with rfl | ⟨earlier, last, rfl⟩
  · exact .inl rfl
  · rw [Idle, List.concat_eq_append, ← List.append_assoc, List.getLast?_concat] at idle
    rw [Idle, List.concat_eq_append, List.getLast?_concat]
    rcases idle with empty | rest
    · simp at empty
    · exact .inr rest

theorem Idle.of_append_right {before after back : List Token} (idle : Idle before (after ++ back)) :
    Idle before after := by
  cases after with
  | nil => exact .inr (.inl rfl)
  | cons first later =>
      rcases idle with empty | impossible | rest
      · exact .inl empty
      · cases impossible
      · exact .inr (.inr rest)

theorem Idle.eq_nil {before after : List Token} (idle : Idle before after)
    (plainBefore : ∀ token ∈ before, token.isBrace = false)
    (plainAfter : ∀ token ∈ after, token.isBrace = false) : before = [] ∨ after = [] := by
  rcases idle with empty | empty | ⟨last, member, isBrace⟩ | ⟨first, member, isBrace⟩
  · exact .inl empty
  · exact .inr empty
  · rw [plainBefore last (List.mem_of_getLast? member)] at isBrace
    cases isBrace
  · rw [plainAfter first (List.mem_of_head? member)] at isBrace
    cases isBrace

theorem not_isBrace_of_straight {tokens : List Token} (straight : Straight tokens) :
    ∀ token ∈ tokens, token.isBrace = false := by
  intro token member
  have inside := straight token member
  simp only [Token.isStraight, Bool.not_eq_true', Bool.or_eq_false_iff] at inside
  simp [Token.isBrace, inside.1.2, inside.2]

theorem gap_nil : Gap [] :=
  List.forall_mem_nil _

theorem Gap.tail {token : Token} {later : List Token} (isGap : Gap (token :: later)) : Gap later :=
  fun selected member => isGap selected (List.mem_cons_of_mem _ member)

theorem gap_terminator (position : Position) : Gap [.terminator position] := by
  intro token member
  rw [List.mem_singleton.mp member]
  rfl

theorem Gap.straight {gap : List Token} (isGap : Gap gap) : Straight gap := by
  intro token member
  rw [Token.isStraight, isGap token member]
  rfl

theorem Gap.unended {gap : List Token} (isGap : Gap gap) : Unended gap := by
  intro token member ends
  rw [isGap token member] at ends
  cases ends

/-! ## Straight statements -/

/-- The statements that have a token. -/
def filledStatements (tokens : List Token) : List (List Token) :=
  (statementsIn tokens).filter (!·.isEmpty)

theorem builtTrees_filled (limit : Nat) (runs : List (List Token)) :
    builtTrees limit (runs.filter (!·.isEmpty)) = builtTrees limit runs := by
  induction runs with
  | nil => rfl
  | cons run later induction =>
      rw [← List.singleton_append, builtTrees_append, ← induction]
      cases run with
      | nil =>
          rw [builtTrees_empty]
          simp
      | cons token rest => rw [List.singleton_append, List.filter_cons_of_pos rfl,
          ← List.singleton_append, builtTrees_append]

/-- Empty statements do not show in what is put in post order, but for empty runs. -/
theorem mapM_statementOrder_filled (table : BindingTable) (statements : List (List Token)) :
    List.filter (!·.isEmpty) <$> (statements.filter (!·.isEmpty)).mapM (statementOrder table) =
      List.filter (!·.isEmpty) <$> statements.mapM (statementOrder table) := by
  induction statements with
  | nil => rfl
  | cons statement later induction =>
      cases statement with
      | nil =>
          rw [List.filter_cons_of_neg (by simp), induction, List.mapM_cons]
          cases later.mapM (statementOrder table) <;> rfl
      | cons token rest =>
          rw [List.filter_cons_of_pos rfl, List.mapM_cons, List.mapM_cons]
          cases statementOrder table (token :: rest) with
          | error error => rfl
          | ok run =>
              have step (found : Except SourceError (List (List Token))) :
                  List.filter (!·.isEmpty) <$>
                      (Except.ok run >>= fun first => found >>= fun rest => pure (first :: rest)) =
                    ([run].filter (!·.isEmpty) ++ ·) <$> List.filter (!·.isEmpty) <$> found := by
                cases found with
                | error error => rfl
                | ok runs => exact congrArg Except.ok (List.filter_append [run] runs)
              rw [step, step, induction]

theorem straightStatements_filled (limit : Nat) (tokens : List Token) :
    straightStatements limit tokens =
      Parse.ofExcept (List.filter (!·.isEmpty) <$>
        (filledStatements tokens).mapM (statementOrder Kind.binding?)) >>= builtTrees limit := by
  rw [straightStatements_eq, filledStatements, mapM_statementOrder_filled]
  cases (statementsIn tokens).mapM (statementOrder Kind.binding?) with
  | error error => rfl
  | ok runs => exact (builtTrees_filled limit runs).symm

theorem filledStatements_append {before : List Token} (unended : Unended before) {closing : Token}
    (closes : closing.kind = .terminator) (after : List Token) :
    filledStatements (before ++ closing :: after) =
      filledStatements before ++ filledStatements after := by
  rw [filledStatements, statementsIn_append unended closes, List.filter_append]
  rfl

theorem filledStatements_nil : filledStatements [] = [] := by
  rw [filledStatements, statementsIn_nil]
  rfl

theorem filledStatements_gap {gap : List Token} (isGap : Gap gap) (after : List Token) :
    filledStatements (gap ++ after) = filledStatements after := by
  induction gap with
  | nil => rfl
  | cons token later induction =>
      have nothing : Unended [] := List.forall_mem_nil _
      have first := filledStatements_append nothing (isGap token List.mem_cons_self)
        (later ++ after)
      rw [filledStatements_nil, List.nil_append, List.nil_append] at first
      rw [List.cons_append, first]
      exact induction isGap.tail

/-- Statements on the two sides of a gap are apart, whatever the gap is. -/
theorem filledStatements_around {before gap after : List Token} (unended : Unended before)
    (isGap : Gap gap) (idle : gap = [] → before = [] ∨ after = []) :
    filledStatements (before ++ gap ++ after) =
      filledStatements before ++ filledStatements after := by
  cases gap with
  | nil =>
      rcases idle rfl with rfl | rfl
      · rw [filledStatements_nil]
        rfl
      · rw [filledStatements_nil]
        simp
  | cons token later =>
      rw [List.append_assoc, List.cons_append,
        filledStatements_append unended (isGap token List.mem_cons_self),
        filledStatements_gap isGap.tail]

/-- Two gaps between the same sequences, of which neither is missing where the other counts. -/
structure Exchange (before after gap other : List Token) : Prop where
  isGap : Gap gap
  otherIsGap : Gap other
  unended : Unended before
  idle : (gap = [] ↔ other = []) ∨ Idle before after

namespace Exchange

variable {before after gap other : List Token}

theorem straightStatements_eq (exchange : Exchange before after gap other)
    (plainBefore : ∀ token ∈ before, token.isBrace = false)
    (plainAfter : ∀ token ∈ after, token.isBrace = false) (limit : Nat) :
    straightStatements limit (before ++ gap ++ after) =
      straightStatements limit (before ++ other ++ after) := by
  have around (gapEnds : gap = [] → before = [] ∨ after = [])
      (otherEnds : other = [] → before = [] ∨ after = []) :
      straightStatements limit (before ++ gap ++ after) =
        straightStatements limit (before ++ other ++ after) := by
    rw [straightStatements_filled, straightStatements_filled,
      filledStatements_around exchange.unended exchange.isGap gapEnds,
      filledStatements_around exchange.unended exchange.otherIsGap otherEnds]
  rcases exchange.idle with together | idle
  · by_cases missing : gap = []
    · rw [missing, together.mp missing]
    · exact around (fun empty => absurd empty missing)
        fun empty => absurd (together.mpr empty) missing
  · have empty := idle.eq_nil plainBefore plainAfter
    exact around (fun _ => empty) fun _ => empty

theorem of_append_left {front : List Token}
    (exchange : Exchange (front ++ before) after gap other) :
    Exchange before after gap other where
  isGap := exchange.isGap
  otherIsGap := exchange.otherIsGap
  unended := fun token member => exchange.unended token (List.mem_append_right _ member)
  idle := exchange.idle.imp_right Idle.of_append_left

theorem of_append_right {back : List Token} (exchange : Exchange before (after ++ back) gap other) :
    Exchange before after gap other where
  isGap := exchange.isGap
  otherIsGap := exchange.otherIsGap
  unended := exchange.unended
  idle := exchange.idle.imp_right Idle.of_append_right

end Exchange

/-! ## Braces -/

/-- Where the first opening brace is looked for: in a sequence or, if nothing in it tells, behind
it. -/
theorem splitAtOpen_append_cases (tokens : List Token) :
    (∃ before brace after, splitAtOpen tokens = some (before, brace, after)) ∨
    (∀ later, splitAtOpen (tokens ++ later) = none) ∨
    ((∀ token ∈ tokens, token.isBrace = false) ∧ ∀ later, splitAtOpen (tokens ++ later) =
      (splitAtOpen later).map fun found => (tokens ++ found.1, found.2)) := by
  induction tokens with
  | nil =>
      refine .inr (.inr ⟨List.forall_mem_nil _, ?_⟩)
      intro later
      rw [List.nil_append]
      cases splitAtOpen later <;> rfl
  | cons token rest induction =>
      by_cases opens : token.kind = .openBlock
      · exact .inl ⟨[], token, rest, by rw [splitAtOpen, opens]⟩
      by_cases closes : token.kind = .closeBlock
      · exact .inr (.inl fun later => by rw [List.cons_append, splitAtOpen, closes])
      by_cases ends : token.kind = .endOfInput
      · exact .inr (.inl fun later => by rw [List.cons_append, splitAtOpen, ends])
      have step (later : List Token) : splitAtOpen (token :: later) =
          (splitAtOpen later).map fun found => (token :: found.1, found.2) := by
        rw [splitAtOpen]
        split
        · rename_i same
          exact absurd same opens
        · rename_i same
          exact absurd same closes
        · rename_i same
          exact absurd same ends
        · rfl
      rcases induction with ⟨before, brace, after, found⟩ | missing | ⟨plain, behind⟩
      · exact .inl ⟨token :: before, brace, after, by rw [step, found]; rfl⟩
      · exact .inr (.inl fun later => by rw [List.cons_append, step, missing]; rfl)
      · refine .inr (.inr ⟨?_, ?_⟩)
        · rw [List.forall_mem_cons]
          exact ⟨by simp [Token.isBrace, opens, closes], plain⟩
        · intro later
          rw [List.cons_append, step, behind, Option.map_map]
          rfl

theorem splitAtOpen_gap {gap : List Token} (isGap : Gap gap) (later : List Token) :
    splitAtOpen (gap ++ later) =
      (splitAtOpen later).map fun found => (gap ++ found.1, found.2) := by
  induction gap with
  | nil => cases found : splitAtOpen later <;> simp [found]
  | cons token rest induction =>
      rw [List.cons_append, splitAtOpen, isGap token List.mem_cons_self,
        induction isGap.tail]
      cases splitAtOpen later <;> rfl

/-- Where a closing brace is looked for: in a sequence or, with the blocks that it leaves open,
behind it. -/
theorem splitAtClose_append_cases (openBlocks : Nat) (tokens : List Token) :
    (∃ before after, splitAtClose openBlocks tokens = some (before, after)) ∨
    ∃ left, ∀ later, splitAtClose openBlocks (tokens ++ later) =
      (splitAtClose left later).map fun found => (tokens ++ found.1, found.2) := by
  induction tokens generalizing openBlocks with
  | nil =>
      refine .inr ⟨openBlocks, ?_⟩
      intro later
      cases found : splitAtClose openBlocks later <;> simp [found]
  | cons token rest induction =>
      have grow {count : Nat} (step : ∀ later, splitAtClose openBlocks (token :: later) =
          (splitAtClose count later).map fun found => (token :: found.1, found.2)) :
          (∃ before after, splitAtClose openBlocks (token :: rest) = some (before, after)) ∨
          ∃ left, ∀ later, splitAtClose openBlocks (token :: rest ++ later) =
            (splitAtClose left later).map fun found => (token :: rest ++ found.1, found.2) := by
        rcases induction count with ⟨before, after, found⟩ | ⟨left, behind⟩
        · exact .inl ⟨token :: before, after, by rw [step, found]; rfl⟩
        · refine .inr ⟨left, ?_⟩
          intro later
          rw [List.cons_append, step, behind, Option.map_map]
          rfl
      by_cases opens : token.kind = .openBlock
      · exact grow fun later => by rw [splitAtClose, opens]
      by_cases closes : token.kind = .closeBlock
      · by_cases few : openBlocks ≤ 1
        · exact .inl ⟨[], rest, by rw [splitAtClose, closes]; exact if_pos few⟩
        · exact grow fun later => by rw [splitAtClose, closes]; exact if_neg few
      · apply @grow openBlocks
        intro later
        rw [splitAtClose]
        split
        · rename_i same
          exact absurd same opens
        · rename_i same
          exact absurd same closes
        · rfl

theorem splitAtClose_gap {gap : List Token} (isGap : Gap gap) (openBlocks : Nat)
    (later : List Token) :
    splitAtClose openBlocks (gap ++ later) =
      (splitAtClose openBlocks later).map fun found => (gap ++ found.1, found.2) := by
  induction gap with
  | nil => cases found : splitAtClose openBlocks later <;> simp [found]
  | cons token rest induction =>
      rw [List.cons_append, splitAtClose, isGap token List.mem_cons_self]
      dsimp only
      rw [induction isGap.tail]
      cases splitAtClose openBlocks later <;> rfl

/-! ## Programs -/

namespace Exchange

variable {before after gap other : List Token}

/-- A keyword governs the same statement, if the tokens of its block and those behind the block may
be spaced otherwise. -/
theorem governed_bind (exchange : Exchange before after gap other) {limit depth : Nat}
    (blocks : ∀ inside block, inside.length < before.length → Exchange inside block gap other →
      statementsOf limit (depth + 1) (inside ++ gap ++ block) =
        statementsOf limit (depth + 1) (inside ++ other ++ block))
    (keyword : Token) {next : Tree × List Token → Parse α}
    (behind : ∀ tree rest, rest.length < before.length → Exchange rest after gap other →
      next (tree, rest ++ gap ++ after) = next (tree, rest ++ other ++ after)) :
    governed limit depth keyword (before ++ gap ++ after) >>= next =
      governed limit depth keyword (before ++ other ++ after) >>= next := by
  rw [governed_eq, governed_eq]
  split
  · rfl
  rcases splitAtOpen_append_cases before with ⟨tokens, brace, inside, opened⟩ | missing |
    ⟨plain, splits⟩
  -- The condition stands in front of the gap.
  · have openLength := splitAtOpen_length opened
    have inner : Exchange inside after gap other := by
      rw [(splitAtOpen_eq_some opened).1, List.append_cons] at exchange
      exact exchange.of_append_left
    rw [List.append_assoc, List.append_assoc, splitAtOpen_append opened,
      splitAtOpen_append opened]
    simp only [bind_assoc]
    congr
    funext condition
    rcases splitAtClose_append_cases 1 inside with ⟨block, rest, closed⟩ | ⟨left, splits⟩
    · have closeLength := splitAtClose_length closed
      rcases splitAtClose_eq_some closed with ⟨closing, _, whole⟩
      have outer : Exchange rest after gap other := by
        rw [whole, List.append_cons] at inner
        exact inner.of_append_left
      rw [splitAtClose_append closed, splitAtClose_append closed]
      simp only [bind_assoc, pure_bind, ← List.append_assoc]
      congr
      funext body
      exact behind _ rest (by omega) outer
    · rw [splits, splits, splitAtClose_gap exchange.isGap, splitAtClose_gap exchange.otherIsGap]
      cases closed : splitAtClose left after with
      | none => rfl
      | some parts =>
          rcases parts with ⟨block, rest⟩
          rcases splitAtClose_eq_some closed with ⟨closing, _, whole⟩
          rw [whole] at inner
          have same := blocks inside block (by omega) inner.of_append_right
          rw [List.append_assoc, List.append_assoc] at same
          simp only [Option.map_some, same]
  · rw [List.append_assoc, List.append_assoc, missing, missing]
  -- The gap is part of the condition.
  · rw [List.append_assoc, List.append_assoc, splits, splits, splitAtOpen_gap exchange.isGap,
      splitAtOpen_gap exchange.otherIsGap]
    cases opened : splitAtOpen after with
    | none => rfl
    | some parts =>
        rcases parts with ⟨tokens, brace, inside⟩
        rcases splitAtOpen_eq_some opened with ⟨whole, _, inCondition⟩
        rw [whole] at exchange
        have plainTokens : ∀ token ∈ tokens, token.isBrace = false := by
          intro token member
          simp [Token.isBrace, inCondition token member]
        have same := exchange.of_append_right.straightStatements_eq plain plainTokens limit
        rw [List.append_assoc, List.append_assoc] at same
        simp only [Option.map_some, soleCondition, same]

/-- The statements of a sequence do not depend on terminators that count for nothing, nor on where
terminators stand. -/
theorem statementsOf_eq (exchange : Exchange before after gap other) (limit depth : Nat) :
    statementsOf limit depth (before ++ gap ++ after) =
      statementsOf limit depth (before ++ other ++ after) := by
  induction before using program_induction generalizing depth after with
  | straight before straight =>
      have longer {spaces run : List Token} (isGap : Gap spaces) (straightRun : Straight run) :
          Straight (before ++ spaces ++ run) := by
        simp only [Straight, List.forall_mem_append]
        exact ⟨⟨straight, isGap.straight⟩, straightRun⟩
      have plain := not_isBrace_of_straight straight
      induction after using program_induction with
      | straight after straightAfter =>
          rw [statementsOf_straight limit depth (longer exchange.isGap straightAfter),
            statementsOf_straight limit depth (longer exchange.otherIsGap straightAfter)]
          exact exchange.straightStatements_eq plain (not_isBrace_of_straight straightAfter) limit
      | brace run stop later straightRun stops notControl =>
          rw [← List.append_assoc, ← List.append_assoc,
            statementsOf_brace limit depth (longer exchange.isGap straightRun) stops notControl,
            statementsOf_brace limit depth (longer exchange.otherIsGap straightRun) stops
              notControl]
      | control run keyword later straightRun isControl =>
          have first := exchange.of_append_right.straightStatements_eq plain
            (not_isBrace_of_straight straightRun) limit
          rw [← List.append_assoc, ← List.append_assoc,
            statementsOf_control limit depth (longer exchange.isGap straightRun) isControl,
            statementsOf_control limit depth (longer exchange.otherIsGap straightRun) isControl,
            first]
  | brace run stop later straight stops notControl =>
      simp only [List.append_assoc, List.cons_append]
      rw [statementsOf_brace limit depth straight stops notControl,
        statementsOf_brace limit depth straight stops notControl]
  | control run keyword later straight isControl induction =>
      have inner : Exchange later after gap other := by
        rw [List.append_cons] at exchange
        exact exchange.of_append_left
      simp only [List.append_assoc, List.cons_append]
      rw [statementsOf_control limit depth straight isControl,
        statementsOf_control limit depth straight isControl]
      congr
      funext earlier
      rw [← List.append_assoc, ← List.append_assoc]
      apply inner.governed_bind fun inside block shorter exchange =>
        induction inside shorter exchange (depth + 1)
      intro tree rest shorter outer
      dsimp only
      rw [induction rest shorter outer depth]

end Exchange

/-! ## Separating around a gap -/

theorem Gap.append_closed {gap : List Token} (isGap : Gap gap) {words : List Token}
    (ended : gap = [] → words = []) : Closed (words ++ gap) := by
  cases gap with
  | nil =>
      rw [ended rfl]
      exact fun _ none => absurd none (Option.not_mem_none _)
  | cons token later =>
      intro last member
      rw [List.getLast?_append_of_ne_nil _ (by simp)] at member
      exact isGap last (List.mem_of_getLast? member)

theorem separate_nil : separate [] = [] := rfl

theorem separateAfter_gap {gap : List Token} (isGap : Gap gap) {previous : Option Token}
    (terminated : previous.all (·.kind == .terminator)) : separateAfter previous gap = [] := by
  induction gap with
  | nil => rfl
  | cons token later induction =>
      rw [separateAfter, if_pos (isGap token List.mem_cons_self), if_pos terminated]
      exact induction isGap.tail

section

variable {last first : Token}

/-- What follows a token that is no terminator is separated from it only. -/
theorem separateAfter_append_kept (kept : last.kind ≠ .terminator) (previous : Option Token)
    (earlier later : List Token) :
    separateAfter previous (earlier ++ last :: later) =
      separateAfter previous (earlier ++ [last]) ++ separateAfter (some last) later := by
  induction earlier generalizing previous with
  | nil =>
      rcases separateAfter_cons previous last with ⟨terminator, _⟩ | ⟨_, same⟩ | same
      · exact absurd terminator kept
      · rw [List.nil_append, same, List.nil_append, same]
        rfl
      · rw [List.nil_append, same, List.nil_append, same]
        rfl
  | cons token rest induction =>
      rw [List.cons_append, List.cons_append]
      rcases separateAfter_cons previous token with ⟨_, _, same⟩ | ⟨_, same⟩ | same
      · rw [same, same, induction]
      · rw [same, same, induction]
        rfl
      · rw [same, same, induction]
        rfl

/-- Of the terminators that end some words one is kept. -/
theorem separate_append_gap {words gap : List Token}
    (gapless : ∀ token ∈ words, token.kind ≠ .terminator) (isGap : Gap gap)
    (ended : gap = [] → words = []) :
    ∃ ending, separate (words ++ gap) = separate words ++ ending ∧ Gap ending ∧
      (ending = [] ↔ words = []) := by
  rcases List.eq_nil_or_concat words with rfl | ⟨earlier, last, rfl⟩
  · exact ⟨[], separateAfter_gap isGap rfl, gap_nil, by simp⟩
  · rw [List.concat_eq_append] at gapless ended ⊢
    have kept : last.kind ≠ .terminator := gapless last (by simp)
    cases gap with
    | nil => simp at ended
    | cons token later =>
        rcases List.forall_mem_cons.mp isGap with ⟨closes, others⟩
        refine ⟨[token], ?_, ?_, by simp⟩
        · rw [separate, List.append_assoc, List.singleton_append, separateAfter_append_kept kept,
            separateAfter, if_pos closes, if_neg (by simpa using kept),
            separateAfter_gap others (by simpa using closes)]
          rfl
        · intro selected member
          rwa [List.mem_singleton.mp member]

theorem separate_cons (kept : first.kind ≠ .terminator) (later : List Token) :
    separate (first :: later) = first :: separateAfter (some first) later :=
  separateAfter_keep kept (fun _ none => absurd none (Option.not_mem_none _)) later

/-- What is supplied between two tokens that are no terminators. -/
theorem separate_between (kept : last.kind ≠ .terminator) (keptToo : first.kind ≠ .terminator)
    (earlier later : List Token) :
    ∃ supplied, separate (earlier ++ last :: first :: later) =
        separate (earlier ++ [last]) ++ supplied ++ separate (first :: later) ∧
      Gap supplied ∧ (supplied = [] → last.endsStatementBefore first = false) := by
  rw [separate, separateAfter_append_kept kept, separate_cons keptToo]
  rcases separateAfter_cons (some last) first with ⟨terminator, _⟩ | ⟨few, same⟩ | same
  · exact absurd terminator keptToo
  · refine ⟨[], ?_, gap_nil, fun _ => few.resolve_left keptToo⟩
    rw [same, List.append_nil]
    rfl
  · refine ⟨[.terminator first.position], ?_, gap_terminator _, by simp⟩
    rw [same, List.append_assoc]
    rfl

theorem head?_separate (kept : first.kind ≠ .terminator) (later : List Token) :
    (separate (first :: later)).head? = some first := by
  rw [separate_cons kept]
  rfl

theorem getLast?_separateAfter (kept : last.kind ≠ .terminator) (previous : Option Token)
    (earlier : List Token) : (separateAfter previous (earlier ++ [last])).getLast? = some last := by
  induction earlier generalizing previous with
  | nil =>
      rcases separateAfter_cons previous last with ⟨terminator, _⟩ | ⟨_, same⟩ | same
      · exact absurd terminator kept
      · rw [List.nil_append, same]
        rfl
      · rw [List.nil_append, same]
        rfl
  | cons token rest induction =>
      rw [List.cons_append]
      rcases separateAfter_cons previous token with ⟨_, _, same⟩ | ⟨_, same⟩ | same
      · rw [same, induction]
      · rw [same, List.getLast?_cons, induction]
        rfl
      · rw [same, List.getLast?_cons, List.getLast?_cons, induction]
        rfl

end

/-! ## A line in two -/

/-- Whether a terminator may be put between two tokens of a line. -/
def Token.MayBreak (previous next : Token) : Prop :=
  previous.isBrace ∨ next.isBrace ∨
    previous.kind.closesOperand ∧ next.kind.opensStatement ∧ previous.isFlush next = false

theorem Token.MayBreak.ends {previous next : Token} (breaks : previous.MayBreak next)
    (continues : previous.endsStatementBefore next = false) :
    previous.isBrace ∨ next.isBrace := by
  rcases breaks with brace | brace | ⟨closes, opens, notFlush⟩
  · exact .inl brace
  · exact .inr brace
  · exact absurd ⟨closes, opens⟩ (Token.unbroken_of_not_ends notFlush continues)

/-- The words of a line, `ahead` and `behind` of the point where it is broken, between the lines
`before` and `after` it. The line had one ending and gets two. -/
structure Broken (place : Position → Position) (before ahead behind after : List Token) : Prop where
  closed : Closed before
  unended : Unended (before ++ ahead ++ behind)
  gapless : ∀ token ∈ ahead ++ behind, token.kind ≠ .terminator
  breaks : ∀ previous ∈ ahead.getLast?, ∀ next ∈ behind.head?, previous.MayBreak next
  fixed : ∀ token ∈ before ++ ahead, token.move place = token
  touching : ∀ tokens ∈ [behind, after], ∀ earlier ∈ tokens, ∀ later ∈ tokens,
    (earlier.move place).touches (later.move place) = earlier.touches later

theorem Gap.map_move {gap : List Token} (isGap : Gap gap) (place : Position → Position) :
    Gap (gap.map (Token.move place)) := by
  intro token member
  rcases List.mem_map.mp member with ⟨original, inside, rfl⟩
  exact isGap original inside

theorem Unended.map_move {tokens : List Token} (unended : Unended tokens)
    (place : Position → Position) : Unended (tokens.map (Token.move place)) := by
  intro token member
  rcases List.mem_map.mp member with ⟨original, inside, rfl⟩
  exact unended original inside

theorem separate_fixed {place : Position → Position} {tokens : List Token}
    (fixed : ∀ token ∈ tokens, token.move place = token) :
    (separate tokens).map (Token.move place) = separate tokens := by
  have same : tokens.map (Token.move place) = tokens := by
    conv_rhs => rw [← List.map_id tokens]
    exact List.map_congr_left fixed
  rw [← separate_move, same]
  intro earlier member later memberToo
  rw [fixed earlier member, fixed later memberToo]

namespace Broken

variable {place : Position → Position} {before ahead behind after ending gap other : List Token}

theorem unended_before (broken : Broken place before ahead behind after) :
    Unended (separate before ++ separate ahead) :=
  (unended_separate fun token member => broken.unended token (by simp [member])).append
    (unended_separate fun token member => broken.unended token (by simp [member]))

theorem unended_behind (broken : Broken place before ahead behind after) :
    Unended ((separate behind).map (Token.move place)) :=
  (unended_separate fun token member => broken.unended token (by simp [member])).map_move place

/-- Where no statement ends between two words, one of them is a brace. -/
theorem idle {earlier later : List Token} {last first : Token}
    (broken : Broken place before (earlier ++ [last]) (first :: later) after)
    (continues : last.endsStatementBefore first = false) (front back : List Token) :
    Idle (front ++ separate (earlier ++ [last]))
      ((separate (first :: later)).map (Token.move place) ++ back) := by
  have kept : last.kind ≠ .terminator := broken.gapless last (by simp)
  have keptToo : first.kind ≠ .terminator := broken.gapless first (by simp)
  have lastOf : (front ++ separate (earlier ++ [last])).getLast? = some last := by
    rw [List.getLast?_append, separate, getLast?_separateAfter kept]
    rfl
  have firstOf : ((separate (first :: later)).map (Token.move place) ++ back).head? =
      some (first.move place) := by
    rw [List.head?_append, List.head?_map, head?_separate keptToo]
    rfl
  rcases (broken.breaks last (by simp) first (by simp)).ends continues with brace | brace
  · exact .inr (.inr (.inl ⟨last, lastOf, brace⟩))
  · exact .inr (.inr (.inr ⟨first.move place, firstOf, brace⟩))

/-- Broken in two, the words of a line are the same statements, whatever terminators end them. -/
theorem statementsOf_eq (broken : Broken place before ahead behind after) (isEnding : Gap ending)
    (ended : ending = [] ↔ ahead ++ behind = []) (isGap : Gap gap)
    (endedAhead : gap = [] ↔ ahead = []) (isOther : Gap other)
    (endedBehind : other = [] ↔ behind = []) (limit depth : Nat) (back : List Token) :
    statementsOf limit depth (separate before ++
        (separate (ahead ++ behind)).map (Token.move place) ++ ending ++ back) =
      statementsOf limit depth (separate before ++ separate ahead ++ gap ++
        (separate behind).map (Token.move place) ++ other ++ back) := by
  have fixed : (separate ahead).map (Token.move place) = separate ahead :=
    separate_fixed fun token member => broken.fixed token (List.mem_append_right _ member)
  have unended := broken.unended_before
  -- With words on one side only the ending is exchanged; between words there is another exchange.
  rcases List.eq_nil_or_concat ahead with rfl | ⟨earlier, last, rfl⟩
  · have exchange : Exchange (separate before ++ separate [] ++
        (separate behind).map (Token.move place)) back ending other :=
      ⟨isEnding, isOther, unended.append broken.unended_behind,
        .inl (ended.trans endedBehind.symm)⟩
    have same := exchange.statementsOf_eq limit depth
    simpa only [endedAhead.mpr rfl, separate_nil, List.nil_append, List.append_nil] using same
  rw [List.concat_eq_append] at *
  cases behind with
  | nil =>
      have together : ending = [] ↔ gap = [] := by
        rw [ended, endedAhead, List.append_nil]
      have exchange : Exchange (separate before ++ separate (earlier ++ [last])) back ending gap :=
        ⟨isEnding, isGap, unended, .inl together⟩
      have same := exchange.statementsOf_eq limit depth
      rw [List.append_nil, fixed, same, endedBehind.mpr rfl, separate_nil, List.map_nil,
        List.append_nil, List.append_nil]
  | cons first later =>
      rcases separate_between (broken.gapless last (by simp)) (broken.gapless first (by simp))
          earlier later with ⟨supplied, between, isSupplied, continues⟩
      have moved := isSupplied.map_move place
      have behind := broken.unended_behind
      have one : Exchange (separate before ++ separate (earlier ++ [last]))
          ((separate (first :: later)).map (Token.move place) ++ (ending ++ back))
          (supplied.map (Token.move place)) gap := by
        refine ⟨moved, isGap, unended, ?_⟩
        by_cases empty : supplied = []
        · exact .inr (broken.idle (continues empty) _ _)
        · exact .inl (by simp [empty, endedAhead])
      have two : Exchange (separate before ++ separate (earlier ++ [last]) ++ gap ++
          (separate (first :: later)).map (Token.move place)) back ending other := by
        refine ⟨isEnding, isOther, (unended.append isGap.unended).append behind, .inl ?_⟩
        rw [ended, endedBehind]
        simp
      have same := (one.statementsOf_eq limit depth).trans
        (by simpa only [List.append_assoc] using two.statementsOf_eq limit depth)
      rw [← List.append_cons, between]
      simpa only [List.map_append, fixed, List.append_assoc] using same

/-- A line that is broken where it may be gives the same statements. -/
theorem moves (broken : Broken place before ahead behind after) (isEnding : Gap ending)
    (ended : ending = [] → ahead ++ behind = []) (isGap : Gap gap)
    (endedAhead : gap = [] → ahead = []) (isOther : Gap other)
    (endedBehind : other = [] → behind = []) (limit depth : Nat) :
    Parse.Moves place (List.map (Tree.move place))
      (statementsOf limit depth (separate (before ++ ((ahead ++ behind ++ ending) ++ after))))
      (statementsOf limit depth (separate (before ++ ((ahead ++ gap) ++
        ((behind.map (Token.move place) ++ other) ++ after.map (Token.move place)))))) := by
  have gaplessAhead : ∀ token ∈ ahead, token.kind ≠ .terminator :=
    fun token member => broken.gapless token (List.mem_append_left _ member)
  have gaplessBehind : ∀ token ∈ behind.map (Token.move place), token.kind ≠ .terminator := by
    intro token member
    rcases List.mem_map.mp member with ⟨original, inside, rfl⟩
    exact broken.gapless original (List.mem_append_right _ inside)
  have endedMoved : other = [] → behind.map (Token.move place) = [] :=
    fun empty => List.map_eq_nil_iff.mpr (endedBehind empty)
  rcases separate_append_gap broken.gapless isEnding ended with ⟨one, whole, oneIsGap, oneEmpty⟩
  rcases separate_append_gap gaplessAhead isGap endedAhead with
    ⟨two, wholeAhead, twoIsGap, twoEmpty⟩
  rcases separate_append_gap gaplessBehind isOther endedMoved with
    ⟨three, wholeBehind, threeIsGap, threeEmpty⟩
  rw [separate_append broken.closed, separate_append (isEnding.append_closed ended), whole,
    separate_append broken.closed, separate_append (isGap.append_closed endedAhead),
    separate_append (isOther.append_closed endedMoved), wholeAhead, wholeBehind,
    separate_move (broken.touching behind (by simp)),
    separate_move (broken.touching after (by simp))]
  have moved := @statementsOf_move place limit depth
    (separate before ++ (separate (ahead ++ behind) ++ one ++ separate after))
  have same := broken.statementsOf_eq (oneIsGap.map_move place) (List.map_eq_nil_iff.trans oneEmpty)
    twoIsGap twoEmpty threeIsGap (threeEmpty.trans List.map_eq_nil_iff) limit depth
    ((separate after).map (Token.move place))
  simp only [List.map_append, separate_fixed fun token member =>
    broken.fixed token (List.mem_append_left _ member), ← List.append_assoc] at moved ⊢
  rwa [same] at moved

end Broken

end Scriptlet
