import Scriptlet.Proofs.Symbols
import Scriptlet.Proofs.Boundary
import Scriptlet.Proofs.Scanning

/-! Sources one after the other. A source of whole lines can be parsed on its own: what follows it
gives the same statements as if it were parsed next, only further down. -/

namespace Scriptlet

/-! ## Pieces -/

theorem splitAfter_nil (endsPiece : α → Bool) : splitAfter endsPiece [] = [] := by
  rw [splitAfter]
  rfl

theorem splitAfter_piece {endsPiece : α → Bool} {items : List α} (some : items ≠ [])
    (inside : ∀ item ∈ items, endsPiece item = false) : splitAfter endsPiece items = [items] := by
  have nothing : items.dropWhile (!endsPiece ·) = [] := by
    rw [List.dropWhile_eq_nil_iff]
    intro item member
    simp [inside item member]
  rw [splitAfter]
  split
  · simp [some]
  · rename_i found
    rw [nothing] at found
    cases found

theorem splitAfter_append_cons {endsPiece : α → Bool} {before : List α} {last : α}
    (inside : ∀ item ∈ before, endsPiece item = false) (ends : endsPiece last) (later : List α) :
    splitAfter endsPiece (before ++ last :: later) =
      (before ++ [last]) :: splitAfter endsPiece later := by
  have passes : ∀ item ∈ before, (!endsPiece item) = true := by
    intro item member
    simp [inside item member]
  have here : (before ++ last :: later).dropWhile (!endsPiece ·) = last :: later := by
    rw [List.dropWhile_append_of_pos passes, List.dropWhile_cons_of_neg (by simp [ends])]
  rw [splitAfter]
  split
  · rename_i found
    rw [here] at found
    cases found
  · rename_i found
    rw [here] at found
    cases found
    rw [List.takeWhile_append_of_pos passes, List.takeWhile_cons_of_neg (by simp [ends]),
      List.append_nil]

/-- Items that end with the last of a piece are cut on their own. -/
theorem splitAfter_append {endsPiece : α → Bool} (first second : List α)
    (ends : ∀ last ∈ first.getLast?, endsPiece last) :
    splitAfter endsPiece (first ++ second) =
      splitAfter endsPiece first ++ splitAfter endsPiece second := by
  have inside : ∀ item ∈ first.takeWhile (!endsPiece ·), endsPiece item = false := by
    intro item member
    simpa using List.mem_takeWhile_imp member
  have whole := List.takeWhile_append_dropWhile (p := fun item => !endsPiece item) (l := first)
  cases found : first.dropWhile (!endsPiece ·) with
  | nil =>
      rw [found, List.append_nil] at whole
      have empty : first = [] := by
        rcases List.eq_nil_or_concat first with empty | ⟨before, last, rfl⟩
        · exact empty
        · rw [List.concat_eq_append] at ends whole inside
          have last' := inside last (by rw [whole]; simp)
          rw [ends last (by simp)] at last'
          cases last'
      rw [empty, List.nil_append, splitAfter_nil, List.nil_append]
  | cons last later =>
      rw [found] at whole
      have here : endsPiece last := by
        have stops := List.head?_dropWhile_not (fun item => !endsPiece item) first
        rw [found] at stops
        simpa using stops
      have rest : ∀ last ∈ later.getLast?, endsPiece last := by
        intro final member
        apply ends
        rw [← whole, List.getLast?_append, List.getLast?_cons, Option.mem_def.mp member]
        rfl
      have shorter := length_lt_of_dropWhile_eq_cons found
      rw [← whole, List.append_assoc, List.cons_append, splitAfter_append_cons inside here,
        splitAfter_append_cons inside here, splitAfter_append later second rest, List.cons_append]
termination_by first.length

/-! ## Lines of characters -/

def linesIn (characters : List Char) : List (List Char) :=
  (splitAfter (· == '\n') characters).map dropLineEnding

def WholeLines (characters : List Char) : Prop :=
  ∀ last ∈ characters.getLast?, last = '\n'

theorem linesIn_nil : linesIn [] = [] := by
  rw [linesIn, splitAfter_nil]
  rfl

theorem linesIn_append {first : List Char} (whole : WholeLines first) (second : List Char) :
    linesIn (first ++ second) = linesIn first ++ linesIn second := by
  rw [linesIn, linesIn, linesIn, splitAfter_append, List.map_append]
  intro last member
  simpa using whole last member

theorem linesOf_append {first : String} (wholeLines : ∀ last ∈ first.toList.getLast?, last = '\n')
    (second : String) : linesOf (first ++ second) = linesOf first ++ linesOf second := by
  have lines := linesIn_append wholeLines second.toList
  rwa [← String.toList_append] at lines

/-! ## Scanning -/

/-- The tokens of lines, each with its terminator, without an end mark. -/
def scanEach (before : Nat) : List (List Char) → Except SourceError (List Token)
  | [] => .ok []
  | text :: later => do
      let tokens ← scanLine (before + 1) text
      let following ← scanEach (before + 1) later
      return tokens ++ following

theorem scanEach_append (before : Nat) (first second : List (List Char)) :
    scanEach before (first ++ second) =
      scanEach before first >>= fun tokens =>
        scanEach (before + first.length) second >>= fun following =>
          return tokens ++ following := by
  induction first generalizing before with
  | nil =>
      change scanEach before second = scanEach before second >>= _
      cases scanEach before second <;> rfl
  | cons text later induction =>
      rw [List.cons_append, scanEach, scanEach, induction, List.length_cons]
      simp only [bind_assoc, pure_bind, List.append_assoc, Nat.add_assoc, Nat.add_comm later.length]

theorem scanEach_append_eq_ok {before : Nat} {first second : List (List Char)}
    {tokens : List Token} :
    scanEach before (first ++ second) = .ok tokens ↔
      ∃ earlier later, scanEach before first = .ok earlier ∧
        scanEach (before + first.length) second = .ok later ∧ tokens = earlier ++ later := by
  rw [scanEach_append]
  cases scanEach before first with
  | error error =>
      constructor
      · intro scanned
        cases scanned
      · rintro ⟨_, _, scanned, _⟩
        cases scanned
  | ok earlier =>
      cases scanEach (before + first.length) second with
      | error error =>
          constructor
          · intro scanned
            cases scanned
          · rintro ⟨_, _, _, scanned, _⟩
            cases scanned
      | ok later =>
          constructor
          · rintro ⟨⟩
            exact ⟨earlier, later, rfl, rfl, rfl⟩
          · rintro ⟨_, _, ⟨⟩, ⟨⟩, rfl⟩
            rfl

theorem scanEach_singleton (before : Nat) (text : List Char) :
    scanEach before [text] = scanLine (before + 1) text := by
  rw [scanEach]
  cases scanLine (before + 1) text with
  | error error => rfl
  | ok tokens => exact congrArg Except.ok (List.append_nil tokens)

theorem scanLines_eq (before : Nat) (lines : List (List Char)) :
    scanLines before lines =
      scanEach before lines >>= fun tokens =>
        return tokens ++ [.endOfInput (before + lines.length)] := by
  induction lines generalizing before with
  | nil => rfl
  | cons text later induction =>
      rw [scanLines, scanEach, induction, List.length_cons]
      simp only [bind_assoc, pure_bind, List.append_assoc, Nat.add_assoc, Nat.add_comm later.length]

theorem scanLines_append (before : Nat) (first second : List (List Char)) :
    scanLines before (first ++ second) =
      scanEach before first >>= fun tokens =>
        scanLines (before + first.length) second >>= fun following =>
          return tokens ++ following := by
  rw [scanLines_eq, scanEach_append, scanLines_eq, List.length_append]
  simp only [bind_assoc, pure_bind, List.append_assoc, Nat.add_assoc]

theorem scanEach_cons_eq_ok {before : Nat} {text : List Char} {later : List (List Char)}
    {tokens : List Token} (scanned : scanEach before (text :: later) = .ok tokens) :
    ∃ words position following, LineTokens (before + 1) 0 (words ++ [.terminator position]) ∧
      (∀ token ∈ words, token.kind.isLexical ∧ token.kind.Spells token.text) ∧
      scanEach (before + 1) later = .ok following ∧
      tokens = words ++ [.terminator position] ++ following := by
  rw [scanEach] at scanned
  cases here : scanLine (before + 1) text with
  | error error =>
      rw [here] at scanned
      cases scanned
  | ok first =>
      cases rest : scanEach (before + 1) later with
      | error error =>
          rw [here, rest] at scanned
          cases scanned
      | ok following =>
          rw [here, rest] at scanned
          cases scanned
          have line := lineTokens_scanFrom here
          rcases line.ending with ⟨words, position, rfl, lexical⟩
          exact ⟨words, position, following, line, lexical, rfl, rfl⟩

/-- The tokens of whole lines are closed by a terminator. -/
theorem closed_scanEach {before : Nat} {lines : List (List Char)} {tokens : List Token}
    (scanned : scanEach before lines = .ok tokens) : Closed tokens := by
  induction lines generalizing before tokens with
  | nil =>
      cases scanned
      exact fun _ none => nomatch none
  | cons text later induction =>
      rcases scanEach_cons_eq_ok scanned with ⟨words, position, following, _, _, rest, rfl⟩
      exact (closed_line words position).append (induction rest)

/-- All tokens of lines but the terminators are lexemes. -/
theorem lexical_scanEach {before : Nat} {lines : List (List Char)} {tokens : List Token}
    (scanned : scanEach before lines = .ok tokens) {token : Token} (member : token ∈ tokens) :
    token.kind = .terminator ∨ token.kind.isLexical ∧ token.kind.Spells token.text := by
  induction lines generalizing before tokens with
  | nil =>
      cases scanned
      cases member
  | cons text later induction =>
      rcases scanEach_cons_eq_ok scanned with ⟨words, position, following, _, lexical, rest, rfl⟩
      rcases List.mem_append.mp member with member | member
      · rcases List.mem_append.mp member with member | member
        · exact .inr (lexical token member)
        · cases List.mem_singleton.mp member
          exact .inl rfl
      · exact induction rest member

theorem unended_scanEach {before : Nat} {lines : List (List Char)} {tokens : List Token}
    (scanned : scanEach before lines = .ok tokens) : Unended tokens := by
  intro token member ends
  rcases lexical_scanEach scanned member with terminator | ⟨lexical, _⟩
  · rw [terminator] at ends
    cases ends
  · rw [ends] at lexical
    cases lexical

/-- The tokens of lines stand in order. -/
theorem ordered_scanEach {before : Nat} {lines : List (List Char)} {tokens : List Token}
    (scanned : scanEach before lines = .ok tokens) :
    tokens.Pairwise Token.Before ∧ ∀ token ∈ tokens, before < token.position.line := by
  induction lines generalizing before tokens with
  | nil =>
      cases scanned
      exact ⟨.nil, (fun _ none => nomatch none)⟩
  | cons text later induction =>
      rcases scanEach_cons_eq_ok scanned with ⟨words, position, following, line, _, rest, rfl⟩
      rcases induction rest with ⟨ordered, below⟩
      constructor
      · rw [List.pairwise_append]
        refine ⟨line.ordered, ordered, ?_⟩
        intro earlier here next there
        apply Or.inl
        have further := below next there
        rw [(line.placed earlier here).1]
        exact further
      · intro token member
        rcases List.mem_append.mp member with here | there
        · rw [(line.placed token here).1]
          exact Nat.lt_succ_self before
        · have further := below token there
          omega

theorem line_le_of_scanEach {before : Nat} {lines : List (List Char)} {tokens : List Token}
    (scanned : scanEach before lines = .ok tokens) :
    ∀ token ∈ tokens, token.position.line ≤ before + lines.length := by
  induction lines generalizing before tokens with
  | nil =>
      cases scanned
      exact fun _ none => nomatch none
  | cons text later induction =>
      rcases scanEach_cons_eq_ok scanned with ⟨words, position, following, line, _, rest, rfl⟩
      intro token member
      rw [List.length_cons]
      rcases List.mem_append.mp member with here | there
      · have same := (line.placed token here).1
        omega
      · have further := induction rest token there
        omega

section

variable (lines : Nat)

theorem scanFrom_below (line cursor : Nat) (characters : List Char) :
    scanFrom (line + lines) cursor characters =
      moveResult (Position.below lines) (List.map (Token.move (Position.below lines)))
        (scanFrom line cursor characters) := by
  induction cursor, characters using scan_induction with
  | blank cursor characters blank =>
      rw [scanFrom_blank _ cursor blank, scanFrom_blank _ cursor blank]
      rfl
  | fault cursor characters first later found unmatched =>
      rw [scanFrom_fault _ cursor found unmatched, scanFrom_fault _ cursor found unmatched]
      rfl
  | lexeme cursor characters first later lexeme found matched induction =>
      rw [scanFrom_lexeme _ cursor found matched, scanFrom_lexeme _ cursor found matched,
        induction]
      cases scanFrom line _ _ <;> rfl

theorem scanEach_below (before : Nat) (texts : List (List Char)) :
    scanEach (before + lines) texts =
      moveResult (Position.below lines) (List.map (Token.move (Position.below lines)))
        (scanEach before texts) := by
  induction texts generalizing before with
  | nil => rfl
  | cons text later induction =>
      rw [scanEach, scanEach, scanLine_eq, scanLine_eq, Nat.add_right_comm, scanFrom_below,
        induction]
      refine moveResult_bind rfl fun tokens => ?_
      refine moveResult_bind rfl fun following => ?_
      exact congrArg Except.ok (List.map_append ..).symm

theorem scanLines_below (before : Nat) (texts : List (List Char)) :
    scanLines (before + lines) texts =
      moveResult (Position.below lines) (List.map (Token.move (Position.below lines)))
        (scanLines before texts) := by
  rw [scanLines_eq, scanLines_eq, scanEach_below, Nat.add_right_comm]
  refine moveResult_bind rfl fun tokens => ?_
  change Except.ok _ = Except.ok _
  rw [List.map_append]
  rfl

end

/-! ## Programs -/

/-- What comes of a source that follows whole lines. -/
theorem outcome_programOfSource_append {limit : Nat} {first : String}
    (wholeLines : ∀ last ∈ first.toList.getLast?, last = '\n') {symbols middle : Symbols}
    {earlier : List Tree}
    (parsed : (programOfSource limit first).outcome symbols = .ok (earlier, middle))
    (second : String) :
    (programOfSource limit (first ++ second)).outcome symbols =
      moveResult (Position.below (linesOf first).length)
        (fun found =>
          (earlier ++ found.1.map (Tree.move (Position.below (linesOf first).length)), found.2))
        ((programOfSource limit second).outcome middle) := by
  rw [programOfSource, scanSource, scanLines_eq] at parsed
  rw [programOfSource, programOfSource, scanSource, scanSource, linesOf_append wholeLines,
    scanLines_append]
  cases scanned : scanEach 0 (linesOf first) with
  | error error =>
      rw [scanned] at parsed
      cases parsed
  | ok tokens =>
      rw [scanned] at parsed
      have closed := closed_scanEach scanned
      have unended := unended_scanEach scanned
      change (statementsOf limit 0 (separate (tokens ++ [_]))).outcome symbols = _ at parsed
      rw [separate_append closed] at parsed
      change (statementsOf limit 0 (separate tokens ++ [_])).outcome symbols = _ at parsed
      rw [outcome_statementsOf_append_end limit 0 rfl] at parsed
      rw [scanLines_below (linesOf first).length 0 (linesOf second)]
      cases scanLines 0 (linesOf second) with
      | error error => rfl
      | ok others =>
          change (statementsOf limit 0 (separate (tokens ++ others.map _))).outcome symbols =
            moveResult _ _ ((statementsOf limit 0 (separate others)).outcome middle)
          rw [separate_append closed, separate_below,
            outcome_statementsOf_append (closed_separate closed) (unended_separate unended) parsed,
            (statementsOf_move limit 0 (separate others)).outcome]
          cases (statementsOf limit 0 (separate others)).outcome middle <;> rfl

/-- Parsing is compositional. Whatever follows whole lines that can be parsed gives the same
statements, names and strings, or the same fault, as when it is parsed next from the tables that
those lines leave; only its places are that many lines further down. -/
theorem programOfSource_append {limit : Nat} {first : String}
    (wholeLines : ∀ last ∈ first.toList.getLast?, last = '\n') {symbols middle : Symbols}
    {earlier : List Tree}
    (parsed : (programOfSource limit first).runFrom symbols = (.ok earlier, middle))
    (second : String) :
    let down := Position.below (linesOf first).length
    (∀ later final, (programOfSource limit second).runFrom middle = (.ok later, final) →
      (programOfSource limit (first ++ second)).runFrom symbols =
        (.ok (earlier ++ later.map (Tree.move down)), final)) ∧
    (∀ error left, (programOfSource limit second).runFrom middle = (.error error, left) →
      ∃ final, (programOfSource limit (first ++ second)).runFrom symbols =
        (.error (error.move down), final)) := by
  intro down
  have whole := outcome_programOfSource_append wholeLines (Parse.outcome_eq_ok.mpr parsed) second
  constructor
  · intro later final next
    rw [Parse.outcome_eq_ok.mpr next] at whole
    exact Parse.outcome_eq_ok.mp whole
  · intro error left next
    rw [Parse.outcome_eq_error.mpr ⟨left, next⟩] at whole
    exact Parse.outcome_eq_error.mp whole

/-- A minus sign at the start of a line is a negation, whatever stands on the line before. -/
theorem programOfSource_append_negation :
    let symbols : Symbols := ⟨{}, .ofTexts ["x"]⟩
    let assignment := Tree.assign (.identifier ⟨0⟩ ⟨1, 0⟩) (.integer "2" ⟨1, 5⟩) ⟨1, 2⟩
    (programOfSource 4 "x := 2\n").runFrom {} = (.ok [assignment], symbols) ∧
      (programOfSource 4 "-x").runFrom symbols =
        (.ok [.unary .negate (.identifier ⟨0⟩ ⟨1, 1⟩) ⟨1, 0⟩], symbols) ∧
      (programOfSource 4 ("x := 2\n" ++ "-x")).runFrom {} =
        (.ok [assignment, .unary .negate (.identifier ⟨0⟩ ⟨2, 1⟩) ⟨2, 0⟩], symbols) := by
  intro symbols assignment
  have first : (programOfSource 4 "x := 2\n").runFrom {} = (.ok [assignment], symbols) := by
    cbv
  have second : (programOfSource 4 "-x").runFrom symbols =
      (.ok [.unary .negate (.identifier ⟨0⟩ ⟨1, 1⟩) ⟨1, 0⟩], symbols) := by
    cbv
  have lines : (linesOf "x := 2\n").length = 1 := by decide +kernel
  have wholeLines : ∀ last ∈ "x := 2\n".toList.getLast?, last = '\n' := by
    rintro _ ⟨⟩
    rfl
  have whole := (programOfSource_append wholeLines first "-x").1 _ _ second
  rw [lines] at whole
  refine ⟨first, second, whole.trans ?_⟩
  simp [Tree.move, Position.below]

end Scriptlet
