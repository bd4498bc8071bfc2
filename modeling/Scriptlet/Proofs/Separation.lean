import Scriptlet.Proofs.Spacing

/-! What separating statements does, in full.

Terminators aside, a token sequence is a sequence of words. Separating keeps the words. Between two
neighbours it leaves at most one terminator: the first of those that stood there, or one of its own
if a statement ends between them. These conditions leave nothing open, so they also say which
sequences are separated already. -/

namespace Scriptlet

/-! ## Words and gaps -/

/-- The tokens that are no terminators. -/
def wordsIn (tokens : List Token) : List Token :=
  tokens.filter (·.kind != .terminator)

@[simp] theorem wordsIn_append (first second : List Token) :
    wordsIn (first ++ second) = wordsIn first ++ wordsIn second :=
  List.filter_append first second

theorem wordsIn_cons {word : Token} (kept : word.kind ≠ .terminator) (later : List Token) :
    wordsIn (word :: later) = word :: wordsIn later :=
  List.filter_cons_of_pos (by simpa using kept)

theorem wordsIn_gap {gap : List Token} (isGap : Gap gap) : wordsIn gap = [] := by
  rw [wordsIn, List.filter_eq_nil_iff]
  intro token member
  simp [isGap token member]

theorem gap_of_wordsIn_eq_nil {tokens : List Token} (none : wordsIn tokens = []) : Gap tokens := by
  intro token member
  simpa using List.filter_eq_nil_iff.mp none token member

/-- A word is told apart by the words in front of it. -/
theorem eq_of_wordsIn_eq {before after other behind : List Token} {word next : Token}
    (kept : word.kind ≠ .terminator) (keptToo : next.kind ≠ .terminator)
    (same : before ++ word :: after = other ++ next :: behind)
    (front : wordsIn before = wordsIn other) : before = other ∧ word = next ∧ after = behind := by
  have sameLength := congrArg List.length front
  rcases List.append_eq_append_iff.mp same with ⟨between, rfl, rest⟩ | ⟨between, rfl, rest⟩
  · cases between with
    | nil => simpa using rest
    | cons first others =>
        cases rest
        simp [wordsIn_cons kept] at sameLength
  · cases between with
    | nil => simpa [eq_comm] using rest
    | cons first others =>
        cases rest
        simp [wordsIn_cons keptToo] at sameLength

/-- A property of token sequences follows from what the first word adds to it. -/
theorem words_induction {motive : List Token → Prop} (gap : ∀ gap, Gap gap → motive gap)
    (word : ∀ gap word later, Gap gap → word.kind ≠ .terminator → motive later →
      motive (gap ++ word :: later))
    (tokens : List Token) : motive tokens := by
  have isGap : Gap (tokens.takeWhile (·.kind == .terminator)) := by
    intro token member
    simpa using List.mem_takeWhile_imp member
  have whole := List.takeWhile_append_dropWhile (p := fun t : Token => t.kind == .terminator)
    (l := tokens)
  cases found : tokens.dropWhile (·.kind == .terminator) with
  | nil =>
      rw [found, List.append_nil] at whole
      exact gap tokens (whole ▸ isGap)
  | cons first later =>
      have kept := List.head?_dropWhile_not (fun t : Token => t.kind == .terminator) tokens
      rw [found] at kept whole
      rw [← whole]
      exact word _ _ _ isGap (by simpa using kept) (words_induction gap word later)
termination_by tokens.length
decreasing_by exact length_lt_of_dropWhile_eq_cons found

/-! ## Conditions -/

/-- The terminator that belongs between two words with `gap` between them: its first, or else one at
the later word if a statement ends there. -/
def boundary (earlier : Token) (gap : List Token) (later : Token) : Option Token :=
  gap.head?.or
    (if earlier.endsStatementBefore later then some (.terminator later.position) else none)

/-- What `result` has to do with `tokens` if it separates their statements. -/
structure Separates (tokens result : List Token) : Prop where
  words : wordsIn result = wordsIn tokens
  begins : ∀ first ∈ result.head?, first.kind ≠ .terminator
  single : result.IsChain fun earlier later =>
    ¬(earlier.kind = .terminator ∧ later.kind = .terminator)
  between : ∀ before earlier gap later after,
    tokens = before ++ earlier :: (gap ++ later :: after) →
    earlier.kind ≠ .terminator → Gap gap → later.kind ≠ .terminator →
    ∃ front back, wordsIn front = wordsIn before ∧ wordsIn back = wordsIn after ∧
      result = front ++ earlier :: ((boundary earlier gap later).toList ++ later :: back)
  ending : ∀ before last gap, tokens = before ++ last :: gap →
    last.kind ≠ .terminator → Gap gap →
    ∃ front, wordsIn front = wordsIn before ∧ result = front ++ last :: gap.head?.toList

/-- Sequences in which every boundary is marked, and marked once. -/
structure Spaced (tokens : List Token) : Prop where
  begins : ∀ first ∈ tokens.head?, first.kind ≠ .terminator
  single : tokens.IsChain fun earlier later =>
    ¬(earlier.kind = .terminator ∧ later.kind = .terminator)
  unbroken : tokens.IsChain fun earlier later => earlier.endsStatementBefore later = false

/-! ## Separating word by word -/

section

variable {word next : Token} {gap : List Token}

theorem separateAfter_gap_append (isGap : Gap gap) {previous : Option Token}
    (terminated : previous.all (·.kind == .terminator)) (later : List Token) :
    separateAfter previous (gap ++ later) = separateAfter none later := by
  induction gap with
  | nil => exact separateAfter_of_terminator terminated later
  | cons token rest induction =>
      rw [List.cons_append, separateAfter, if_pos (isGap token List.mem_cons_self),
        if_pos terminated]
      exact induction isGap.tail

theorem separate_word (isGap : Gap gap) (kept : word.kind ≠ .terminator) (later : List Token) :
    separate (gap ++ word :: later) = word :: separateAfter (some word) later := by
  rw [separate, separateAfter_gap_append isGap rfl]
  exact separate_cons kept later

/-- Behind a word the first terminator stays. -/
theorem separateAfter_terminated (kept : word.kind ≠ .terminator) {first : Token}
    (terminates : first.kind = .terminator) (later : List Token) :
    separateAfter (some word) (first :: later) = first :: separateAfter (some first) later := by
  rw [separateAfter, if_pos terminates, if_neg (by simpa using kept)]

theorem separateAfter_ending (kept : word.kind ≠ .terminator) (isGap : Gap gap) :
    separateAfter (some word) gap = gap.head?.toList := by
  cases gap with
  | nil => rfl
  | cons first others =>
      have terminates := isGap first List.mem_cons_self
      rw [separateAfter_terminated kept terminates,
        separateAfter_gap isGap.tail (by simpa using terminates)]
      rfl

theorem separateAfter_next (kept : word.kind ≠ .terminator) (isGap : Gap gap)
    (keptToo : next.kind ≠ .terminator) (later : List Token) :
    separateAfter (some word) (gap ++ next :: later) =
      (boundary word gap next).toList ++ next :: separateAfter (some next) later := by
  cases gap with
  | nil =>
      rw [List.nil_append, separateAfter, if_neg keptToo]
      cases ends : word.endsStatementBefore next with
      | true => simp [boundary, ends]
      | false => simp [boundary, ends]
  | cons first others =>
      have terminates := isGap first List.mem_cons_self
      rw [List.cons_append, separateAfter_terminated kept terminates,
        separateAfter_gap_append isGap.tail (by simpa using terminates)]
      exact congrArg (first :: ·) (separate_cons keptToo later)

theorem gap_boundary (isGap : Gap gap) : Gap (boundary word gap next).toList := by
  intro mark member
  rw [Option.mem_toList, boundary, Option.or_eq_some_iff] at member
  rcases member with head | ⟨_, supplied⟩
  · exact isGap mark (List.mem_of_head? head)
  · rw [Option.ite_none_right_eq_some, Option.some.injEq] at supplied
    rw [← supplied.2]
    rfl

/-- What is separated up to a word ends with that word. -/
theorem exists_separateAfter_word (kept : word.kind ≠ .terminator) (previous : Option Token)
    (before : List Token) :
    ∃ front, wordsIn front = wordsIn before ∧
      separateAfter previous (before ++ [word]) = front ++ [word] := by
  have last := getLast?_separateAfter kept previous before
  obtain ⟨front, whole⟩ := List.getLast?_eq_some_iff.mp last
  refine ⟨front, ?_, whole⟩
  have same : wordsIn (separateAfter previous (before ++ [word])) = wordsIn (before ++ [word]) :=
    separateAfter_filter (by simp) previous _
  rw [whole, wordsIn_append, wordsIn_append] at same
  exact List.append_cancel_right same

theorem Token.joins_terminator {earlier later : Token}
    (terminates : earlier.kind = .terminator ∨ later.kind = .terminator) :
    earlier.endsStatementBefore later = false := by
  rcases terminates with terminates | terminates
  · apply not_endsStatementBefore
    · simp [terminates]
    · simp [terminates, Kind.closesOperand, Kind.isOperand]
  · simp [endsStatementBefore, terminates, Kind.opensStatement, Kind.isOperand]

end

/-! ## The conditions hold -/

/-- Of two neighbours behind a word, one is a word. -/
theorem separateAfter_single {word : Token} (kept : word.kind ≠ .terminator)
    (later : List Token) :
    (word :: separateAfter (some word) later).IsChain fun earlier later =>
      ¬(earlier.kind = .terminator ∧ later.kind = .terminator) := by
  induction later using words_induction generalizing word with
  | gap gap isGap =>
      rw [separateAfter_ending kept isGap]
      cases gap with
      | nil => exact .singleton word
      | cons first others => exact List.isChain_pair.mpr (by simp [kept])
  | word gap next later isGap keptToo induction =>
      rw [separateAfter_next kept isGap keptToo]
      have rest := induction keptToo
      cases boundary word gap next with
      | none => exact rest.cons_cons (by simp [kept])
      | some mark => exact (rest.cons_cons (by simp [keptToo])).cons_cons (by simp [kept])

theorem spaced_separate (tokens : List Token) : Spaced (separate tokens) := by
  have unbroken : (separate tokens).IsChain fun earlier later =>
      earlier.endsStatementBefore later = false := by
    apply @separateAfter_isChain _ (fun _ _ => Token.joins_terminator) none
    apply List.Pairwise.isChain
    exact List.pairwise_of_forall fun _ _ joins => joins
  induction tokens using words_induction with
  | gap gap isGap =>
      have empty : separate gap = [] := separateAfter_gap isGap rfl
      rw [empty]
      exact ⟨by simp, .nil, .nil⟩
  | word gap word later isGap kept _ =>
      rw [separate_word isGap kept] at unbroken ⊢
      refine ⟨?_, separateAfter_single kept later, unbroken⟩
      intro first member
      cases member
      exact kept

theorem separates_separate (tokens : List Token) : Separates tokens (separate tokens) where
  words := separateAfter_filter (by simp) none tokens
  begins := (spaced_separate tokens).begins
  single := (spaced_separate tokens).single
  between := by
    intro before earlier gap later after whole kept isGap keptToo
    obtain ⟨front, words, ends⟩ := exists_separateAfter_word kept none before
    refine ⟨front, separateAfter (some later) after, words, separateAfter_filter (by simp) _ _, ?_⟩
    rw [whole, separate, separateAfter_append_kept kept, ends,
      separateAfter_next kept isGap keptToo, List.append_assoc, List.singleton_append]
  ending := by
    intro before last gap whole kept isGap
    obtain ⟨front, words, ends⟩ := exists_separateAfter_word kept none before
    refine ⟨front, words, ?_⟩
    rw [whole, separate, separateAfter_append_kept kept, ends, separateAfter_ending kept isGap,
      List.append_assoc, List.singleton_append]

/-! ## The conditions leave nothing open -/

section

variable {tokens result : List Token}

/-- What stands behind a word in the result is what separating gives there. -/
theorem Separates.eq_separateAfter (separates : Separates tokens result) {later : List Token} :
    ∀ (before front : List Token) {behind : List Token} {word : Token},
      tokens = before ++ word :: later → result = front ++ word :: behind →
      wordsIn front = wordsIn before → word.kind ≠ .terminator →
      behind = separateAfter (some word) later := by
  induction later using words_induction with
  | gap gap isGap =>
      intro before front behind word whole same words kept
      obtain ⟨other, otherWords, otherSame⟩ := separates.ending before word gap whole kept isGap
      have aligned := eq_of_wordsIn_eq kept kept (same.symm.trans otherSame)
        (words.trans otherWords.symm)
      rw [separateAfter_ending kept isGap]
      exact aligned.2.2
  | word gap next later isGap keptToo induction =>
      intro before front behind word whole same words kept
      obtain ⟨other, back, otherWords, _, otherSame⟩ :=
        separates.between before word gap next later whole kept isGap keptToo
      have aligned := eq_of_wordsIn_eq kept kept (same.symm.trans otherSame)
        (words.trans otherWords.symm)
      have wordsToo : wordsIn (front ++ word :: (boundary word gap next).toList) =
          wordsIn (before ++ word :: gap) := by
        rw [wordsIn_append, wordsIn_append, wordsIn_cons kept, wordsIn_cons kept, words,
          wordsIn_gap isGap, wordsIn_gap (gap_boundary isGap)]
      have rest : back = separateAfter (some next) later :=
        induction _ _ (by simp [whole]) (by simp [same, aligned.2.2]) wordsToo keptToo
      rw [aligned.2.2, separateAfter_next kept isGap keptToo, rest]

theorem Separates.eq_separate (separates : Separates tokens result) :
    result = separate tokens := by
  have words := separates.words
  have begins := separates.begins
  induction tokens using words_induction with
  | gap gap isGap =>
      rw [wordsIn_gap isGap] at words
      have empty : separate gap = [] := separateAfter_gap isGap rfl
      cases result with
      | nil => exact empty.symm
      | cons first others =>
          exact absurd (gap_of_wordsIn_eq_nil words first List.mem_cons_self) (begins first rfl)
  | word gap word later isGap kept _ =>
      rw [wordsIn_append, wordsIn_gap isGap, wordsIn_cons kept, List.nil_append] at words
      cases result with
      | nil => cases words
      | cons first behind =>
          rw [wordsIn_cons (begins first rfl), List.cons.injEq] at words
          obtain ⟨rfl, _⟩ := words
          have rest : behind = separateAfter (some first) later :=
            separates.eq_separateAfter gap [] rfl rfl (wordsIn_gap isGap).symm kept
          rw [separate_word isGap kept, rest]

/-! ## Sequences that are separated -/

/-- Where no terminators are neighbours, a gap holds at most one. -/
theorem Spaced.gap_eq (before after : List Token) {gap : List Token}
    (spaced : Spaced (before ++ gap ++ after)) (isGap : Gap gap) : gap.head?.toList = gap := by
  match gap with
  | [] | [_] => rfl
  | first :: second :: _ =>
      have chain := (spaced.single.left_of_append).right_of_append
      exact absurd ⟨isGap first (by simp), isGap second (by simp)⟩
        (List.isChain_cons_cons.mp chain).1

theorem Spaced.separates (spaced : Spaced tokens) : Separates tokens tokens where
  words := rfl
  begins := spaced.begins
  single := spaced.single
  between := by
    intro before earlier gap later after whole kept isGap keptToo
    refine ⟨before, after, rfl, rfl, ?_⟩
    have same : (boundary earlier gap later).toList = gap := by
      cases gap with
      | nil =>
          have chain := (whole ▸ spaced.unbroken).right_of_append
          simp [boundary, (List.isChain_cons_cons.mp chain).1]
      | cons first others =>
          apply Spaced.gap_eq (before ++ [earlier]) (later :: after) _ isGap
          simpa [whole] using spaced
    rw [same, whole]
  ending := by
    intro before last gap whole kept isGap
    refine ⟨before, rfl, ?_⟩
    have same : gap.head?.toList = gap := by
      apply Spaced.gap_eq (before ++ [last]) [] _ isGap
      simpa [whole] using spaced
    rw [same, whole]

end

/-- What separating gives is exactly what the conditions ask for. So it changes nothing where every
boundary is marked once, and that is so for its own results. -/
theorem separate_exact (tokens : List Token) :
    (∀ result, result = separate tokens ↔ Separates tokens result) ∧
      separate (separate tokens) = separate tokens ∧
      (separate tokens = tokens ↔ Spaced tokens) := by
  have fixed {tokens : List Token} (spaced : Spaced tokens) : separate tokens = tokens :=
    spaced.separates.eq_separate.symm
  refine ⟨fun result => ⟨?_, Separates.eq_separate⟩, fixed (spaced_separate tokens), ?_, fixed⟩
  · rintro rfl
    exact separates_separate tokens
  · intro same
    rw [← same]
    exact spaced_separate tokens

end Scriptlet
