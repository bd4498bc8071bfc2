import Scriptlet.Proofs.Lines
import Scriptlet.Proofs.Spacing
import Scriptlet.Proofs.Tiling

/-! Line breaks. A source may be laid out in lines in other ways: a line may be broken next to a
brace and between two statements, and blank lines may be put in between lines. What comes of the
source stays the same but for its places. -/

namespace Scriptlet

/-! ## Single lines -/

theorem wholeLines_nil : WholeLines [] :=
  fun _ none => absurd none (Option.not_mem_none _)

theorem wholeLines_concat (characters : List Char) : WholeLines (characters ++ ['\n']) := by
  intro last member
  rw [List.getLast?_concat] at member
  exact (Option.some.inj member).symm

/-- A line with its ending, which only the last line of a text may lack. -/
structure IsLine (body ending : List Char) : Prop where
  plain : '\n' ∉ body
  ends : ending = [] ∨ ending = ['\n']

namespace IsLine

variable {body ending : List Char}

theorem linesIn_eq (isLine : IsLine body ending) (some : body ++ ending ≠ []) :
    linesIn (body ++ ending) = [dropLineEnding (body ++ ending)] := by
  have inside : ∀ character ∈ body, (character == '\n') = false := by
    intro character member
    have different : character ≠ '\n' := fun same => isLine.plain (same ▸ member)
    simpa using different
  rcases isLine.ends with rfl | rfl
  · rw [List.append_nil] at some ⊢
    rw [linesIn, splitAfter_piece some inside]
    rfl
  · rw [linesIn, splitAfter_append_cons inside rfl, splitAfter_nil]
    rfl

/-- The ending of a line takes at most a separator with it. -/
theorem exists_dropped (isLine : IsLine body ending) :
    ∃ dropped, body = dropLineEnding (body ++ ending) ++ dropped ∧
      ∀ character ∈ dropped, isSeparator character := by
  have reversed (first : Char) (rest : List Char)
      (same : (body ++ ending).reverse = first :: rest) (feed : first = '\n') :
      body = rest.reverse := by
    rcases isLine.ends with rfl | rfl
    · have member : first ∈ (body ++ []).reverse := by rw [same]; exact List.mem_cons_self
      rw [List.append_nil, List.mem_reverse, feed] at member
      exact absurd member isLine.plain
    · rw [List.reverse_append] at same
      have behind : body.reverse = rest := (List.cons.inj same).2
      rw [← behind, List.reverse_reverse]
  rw [dropLineEnding]
  split
  · rename_i rest same
    refine ⟨['\r'], ?_, List.forall_mem_singleton.mpr rfl⟩
    rw [reversed _ _ same rfl, List.reverse_cons]
  · rename_i rest _ same
    refine ⟨[], ?_, List.forall_mem_nil _⟩
    rw [reversed _ _ same rfl, List.append_nil]
  · rename_i notReturn notFeed
    refine ⟨[], ?_, List.forall_mem_nil _⟩
    rcases isLine.ends with rfl | rfl
    · rw [List.append_nil, List.append_nil]
    · exact absurd (List.reverse_append ..) (notFeed body.reverse)

theorem tiling_iff (isLine : IsLine body ending) {line : Nat} {words : List Token} :
    Tiling line body 0 body.length words ↔
      Tiling line (dropLineEnding (body ++ ending)) 0 (dropLineEnding (body ++ ending)).length
        words := by
  rcases isLine.exists_dropped with ⟨dropped, whole, separators⟩
  conv_lhs => rw [whole]
  exact Tiling.append_iff separators

/-- The words of a line, which a terminator ends if there are any, tile it. -/
theorem tiling_of_scanEach (isLine : IsLine body ending) {before : Nat} {tokens : List Token}
    (scanned : scanEach before (linesIn (body ++ ending)) = .ok tokens) :
    ∃ words gap, tokens = words ++ gap ∧ Gap gap ∧ (gap = [] → words = []) ∧
      Tiling (before + 1) body 0 body.length words := by
  by_cases none : body ++ ending = []
  · rw [none, linesIn_nil] at scanned
    cases scanned
    refine ⟨[], [], rfl, gap_nil, fun _ => rfl, ?_⟩
    rw [(List.append_eq_nil_iff.mp none).1]
    exact .empty _
  · rw [isLine.linesIn_eq none, scanEach_singleton, scanLine_eq_ok_iff] at scanned
    rcases scanned with ⟨words, rfl, tiling⟩
    exact ⟨words, _, rfl, gap_terminator _, fun empty => absurd empty (List.cons_ne_nil _ _),
      isLine.tiling_iff.mpr tiling⟩

theorem scanEach_of_tiling (isLine : IsLine body ending) {before : Nat} {words : List Token}
    (tiling : Tiling (before + 1) body 0 body.length words) :
    ∃ gap, scanEach before (linesIn (body ++ ending)) = .ok (words ++ gap) ∧ Gap gap ∧
      (gap = [] → words = []) := by
  by_cases none : body ++ ending = []
  · rw [none, linesIn_nil]
    rw [(List.append_eq_nil_iff.mp none).1] at tiling
    rw [tiling.eq_nil]
    exact ⟨[], rfl, gap_nil, fun _ => rfl⟩
  · rw [isLine.linesIn_eq none, scanEach_singleton]
    exact ⟨_, scanLine_eq_ok_iff.mpr ⟨words, rfl, isLine.tiling_iff.mp tiling⟩, gap_terminator _,
      fun empty => absurd empty (List.cons_ne_nil _ _)⟩

end IsLine

/-- Every text ends in the middle of a line, or where the next one would begin. -/
theorem exists_start (characters : List Char) :
    ∃ lines start, characters = lines ++ start ∧ WholeLines lines ∧ '\n' ∉ start := by
  induction characters with
  | nil => exact ⟨[], [], rfl, wholeLines_nil, by simp⟩
  | cons character later induction =>
      rcases induction with ⟨lines, start, rfl, whole, plain⟩
      rcases List.eq_nil_or_concat lines with rfl | ⟨earlier, last, rfl⟩
      · by_cases feed : character = '\n'
        · exact ⟨[character], start, rfl, feed ▸ wholeLines_concat [], plain⟩
        · exact ⟨[], character :: start, rfl, wholeLines_nil, by simp [plain, Ne.symm feed]⟩
      · refine ⟨character :: earlier.concat last, start, rfl, ?_, plain⟩
        rw [List.concat_eq_append] at whole ⊢
        rw [whole last (by simp), ← List.cons_append]
        exact wholeLines_concat _

/-- Every text begins in the middle of a line, which it ends or not. -/
theorem exists_rest (characters : List Char) :
    ∃ body ending lines, characters = body ++ ending ++ lines ∧ IsLine body ending ∧
      (ending = [] → lines = []) := by
  by_cases feed : '\n' ∈ characters
  · rcases List.eq_append_cons_of_mem feed with ⟨body, lines, rfl, plain⟩
    exact ⟨body, ['\n'], lines, by simp, ⟨plain, .inr rfl⟩, by simp⟩
  · exact ⟨characters, [], [], by simp, ⟨feed, .inl rfl⟩, fun _ => rfl⟩

theorem WholeLines.of_append {first second : List Char} (whole : WholeLines (first ++ second)) :
    WholeLines second := by
  intro last member
  apply whole
  rw [List.getLast?_append, Option.mem_def.mp member]
  rfl

theorem length_linesIn {lines : List Char} (whole : WholeLines lines) :
    (linesIn lines).length = lines.count '\n' := by
  by_cases feed : '\n' ∈ lines
  · rcases List.eq_append_cons_of_mem feed with ⟨body, later, same, plain⟩
    have isLine : IsLine body ['\n'] := ⟨plain, .inr rfl⟩
    have shorter : later.length < lines.length := by
      rw [same]
      simp +arith
    rw [same, List.append_cons] at whole
    rw [same, List.append_cons, linesIn_append (wholeLines_concat body),
      isLine.linesIn_eq (by simp), List.length_append, length_linesIn whole.of_append,
      List.count_append, List.count_append, List.count_eq_zero_of_not_mem plain,
      List.length_singleton, List.count_singleton_self]
  · rcases List.eq_nil_or_concat lines with rfl | ⟨earlier, last, rfl⟩
    · rw [linesIn_nil]
      rfl
    · rw [List.concat_eq_append] at whole feed
      rw [whole last (by simp)] at feed
      simp at feed
termination_by lines.length

/-! ## Places -/

/-- The place right behind a text. -/
def Position.behind (text : String) : Position :=
  ⟨text.toList.count '\n' + 1, (text.toList.reverse.takeWhile (· != '\n')).length⟩

theorem Position.behind_eq {text : String} {lines start : List Char}
    (same : text.toList = lines ++ start) (whole : WholeLines lines) (plain : '\n' ∉ start) :
    behind text = ⟨(linesIn lines).length + 1, start.length⟩ := by
  have pass : ∀ character ∈ start.reverse, (character != '\n') = true := by
    intro character member
    have different : character ≠ '\n' :=
      fun same => plain (same ▸ List.mem_reverse.mp member)
    simpa using different
  have stops : ∀ next ∈ lines.reverse.head?, (next != '\n') = false := by
    intro next member
    rw [List.head?_reverse] at member
    simp [whole next member]
  rw [behind, same, List.reverse_append, (Lexeme.takeWhile_stops pass stops).1, List.count_append,
    List.count_eq_zero_of_not_mem plain, length_linesIn whole, List.length_reverse]

/-- Where what stands somewhere comes to stand if lines are put in at a point. -/
def Position.pushed (point : Position) (lines : Nat) (position : Position) : Position :=
  if lines = 0 ∨ position.line < point.line ∨
      position.line = point.line ∧ position.cursor < point.cursor then position
  else if position.line = point.line then
    ⟨position.line + lines, position.cursor - point.cursor⟩
  else ⟨position.line + lines, position.cursor⟩

section

variable {point position : Position} {lines : Nat}

theorem Position.pushed_before (lines : Nat)
    (before : position.line < point.line ∨
      position.line = point.line ∧ position.cursor < point.cursor) :
    pushed point lines position = position :=
  if_pos (.inr before)

theorem Position.pushed_line (some : lines ≠ 0) (line : position.line = point.line)
    (behind : point.cursor ≤ position.cursor) :
    pushed point lines position = ⟨point.line + lines, position.cursor - point.cursor⟩ := by
  rw [pushed, if_neg (by omega), if_pos line, line]

theorem Position.pushed_after (some : lines ≠ 0) (below : point.line < position.line) :
    pushed point lines position = position.below lines := by
  rw [pushed, if_neg (by omega), if_neg (by omega), Position.below]

end

namespace Token

def EndsBy (token : Token) (point : Position) : Prop :=
  token.position.line < point.line ∨
    token.position.line = point.line ∧ token.stop ≤ point.cursor

def StartsFrom (token : Token) (point : Position) : Prop :=
  point.line < token.position.line ∨
    token.position.line = point.line ∧ point.cursor ≤ token.position.cursor

instance (token : Token) (point : Position) : Decidable (token.EndsBy point) :=
  inferInstanceAs (Decidable (_ ∨ _))

instance (token : Token) (point : Position) : Decidable (token.StartsFrom point) :=
  inferInstanceAs (Decidable (_ ∨ _))

variable {earlier later : Token} {point : Position}

theorem EndsBy.trans (before : earlier.EndsBy later.position) (ends : later.EndsBy point) :
    earlier.EndsBy point := by
  unfold EndsBy stop at *
  omega

theorem StartsFrom.trans (starts : earlier.StartsFrom point)
    (before : earlier.EndsBy later.position) : later.StartsFrom point := by
  unfold EndsBy StartsFrom stop at *
  omega

end Token

/-- The tokens of lines stand one behind the other. -/
theorem endsBy_scanEach {before : Nat} {lines : List (List Char)} {tokens : List Token}
    (scanned : scanEach before lines = .ok tokens) :
    tokens.Pairwise fun earlier later => earlier.EndsBy later.position := by
  induction lines generalizing before tokens with
  | nil =>
      cases scanned
      exact .nil
  | cons text later induction =>
      rw [← List.singleton_append] at scanned
      rcases scanEach_append_eq_ok.mp scanned with ⟨line, following, here, rest, rfl⟩
      rw [scanEach_singleton] at here
      rcases scanLine_eq_ok_iff.mp here with ⟨words, rfl, tiling⟩
      have inLine : ∀ token ∈ words ++ [.terminator ⟨before + 1, text.length⟩],
          token.position.line = before + 1 := by
        intro token member
        rcases List.mem_append.mp member with member | member
        · exact (tiling.placed token member).1
        · rw [List.mem_singleton.mp member]
          rfl
      rw [List.pairwise_append, List.pairwise_append]
      refine ⟨⟨?_, List.pairwise_singleton _ _, ?_⟩, induction rest, ?_⟩
      · apply tiling.ordered.imp_of_mem
        intro earlier later member memberToo ordered
        have one := (tiling.placed earlier member).1
        have other := (tiling.placed later memberToo).1
        exact .inr ⟨one.trans other.symm, ordered.2⟩
      · intro token member ending last
        have placed := tiling.placed token member
        rw [List.mem_singleton.mp last]
        exact .inr ⟨placed.1, placed.2.2⟩
      · intro earlier member next memberToo
        have below := (ordered_scanEach rest).2 next memberToo
        have here := inLine earlier member
        exact .inl (by rw [here]; exact below)

/-- Whether a line may be broken at a point: it lies between two neighbours that allow it. -/
def BreaksAt (tokens : List Token) (point : Position) : Prop :=
  ∃ before previous next after, tokens = before ++ previous :: next :: after ∧
    previous.EndsBy point ∧ next.StartsFrom point ∧ previous.MayBreak next

theorem BreaksAt.exists_parts {tokens : List Token} {mark : Token} {point : Position}
    (ordered : tokens.Pairwise fun earlier later => earlier.EndsBy later.position)
    (breaks : BreaksAt (tokens ++ [mark]) point) :
    ∃ ahead behind, tokens = ahead ++ behind ∧ (∀ token ∈ ahead, token.EndsBy point) ∧
      (∀ token ∈ behind, token.StartsFrom point) ∧
      ∀ previous ∈ ahead.getLast?, ∀ next ∈ behind.head?, previous.MayBreak next := by
  rcases breaks with ⟨before, previous, next, after, whole, ends, starts, allowed⟩
  have same : tokens = (before ++ [previous]) ++ (next :: after).dropLast := by
    have dropped : (tokens ++ [mark]).dropLast = tokens := List.dropLast_concat
    rw [← dropped, whole, List.append_cons, List.dropLast_append_of_ne_nil (by simp)]
  rw [same, List.pairwise_append, List.pairwise_append] at ordered
  refine ⟨_, _, same, ?_, ?_, ?_⟩
  · intro token member
    rcases List.mem_append.mp member with member | member
    · exact (ordered.1.2.2 token member previous (by simp)).trans ends
    · rwa [List.mem_singleton.mp member]
  · cases after with
    | nil => exact List.forall_mem_nil _
    | cons second later =>
        rw [List.dropLast_cons_cons] at ordered ⊢
        intro token member
        rcases List.mem_cons.mp member with rfl | member
        · exact starts
        · exact starts.trans ((List.pairwise_cons.mp ordered.2.1).1 token member)
  · intro last isLast first isFirst
    rw [List.getLast?_concat] at isLast
    cases isLast
    cases after with
    | nil => cases isFirst
    | cons second later =>
        cases isFirst
        exact allowed

/-- The words of a line on the two sides of a cursor at which the line may be broken. -/
structure Parted (cursor : Nat) (ahead behind : List Token) : Prop where
  ends : ∀ token ∈ ahead, token.stop ≤ cursor
  starts : ∀ token ∈ behind, cursor ≤ token.position.cursor
  breaks : ∀ previous ∈ ahead.getLast?, ∀ next ∈ behind.head?, previous.MayBreak next

theorem parted_ahead {cursor : Nat} {words : List Token}
    (ends : ∀ token ∈ words, token.stop ≤ cursor) : Parted cursor words [] :=
  ⟨ends, List.forall_mem_nil _, fun _ _ _ none => absurd none (Option.not_mem_none _)⟩

theorem parted_behind {cursor : Nat} {words : List Token}
    (starts : ∀ token ∈ words, cursor ≤ token.position.cursor) : Parted cursor [] words :=
  ⟨List.forall_mem_nil _, starts, fun _ none => absurd none (Option.not_mem_none _)⟩

/-- The words of the line with the point are parted by it, and those of other lines are not. -/
theorem BreaksAt.exists_parted {before words after : List Token} {mark : Token} {point : Position}
    (ordered : (before ++ (words ++ after)).Pairwise
      fun earlier later => earlier.EndsBy later.position)
    (breaks : BreaksAt (before ++ (words ++ after) ++ [mark]) point)
    (inLine : ∀ token ∈ words, token.position.line = point.line) :
    ∃ ahead behind, words = ahead ++ behind ∧ Parted point.cursor ahead behind := by
  rcases breaks.exists_parts ordered with ⟨left, right, whole, ends, starts, allowed⟩
  have endsHere : ∀ token ∈ words, token ∈ left → token.stop ≤ point.cursor := by
    intro token member inLeft
    have same := inLine token member
    have ending := ends token inLeft
    unfold Token.EndsBy at ending
    omega
  have startsHere : ∀ token ∈ words, token ∈ right → point.cursor ≤ token.position.cursor := by
    intro token member inRight
    have same := inLine token member
    have start := starts token inRight
    unfold Token.StartsFrom at start
    omega
  -- The point lies behind these words, between two of them, or in front of them.
  rcases List.append_eq_append_iff.mp whole with ⟨extra, rfl, rest⟩ | ⟨extra, rfl, rfl⟩
  · rcases List.append_eq_append_iff.mp rest with ⟨more, rfl, rfl⟩ | ⟨behind, rfl, rfl⟩
    · exact ⟨words, [], (List.append_nil _).symm,
        parted_ahead fun token member => endsHere token member (by simp [member])⟩
    · refine ⟨extra, behind, rfl, ?_, ?_, ?_⟩
      · exact fun token member => endsHere token (by simp [member]) (by simp [member])
      · exact fun token member => startsHere token (by simp [member]) (by simp [member])
      · intro previous isLast next isFirst
        apply allowed
        · rw [List.getLast?_append, Option.mem_def.mp isLast]
          rfl
        · rw [List.head?_append, Option.mem_def.mp isFirst]
          rfl
  · exact ⟨[], words, rfl,
      parted_behind fun token member => startsHere token member (by simp [member])⟩

/-! ## Blank lines -/

/-- Lines with nothing but the given separators. -/
def blankLines (blanks : List (List Char)) : List Char :=
  blanks.flatMap (· ++ ['\n'])

theorem isLine_blank {blank : List Char} (separators : ∀ character ∈ blank, isSeparator character)
    {start : List Char} (plain : '\n' ∉ start) : IsLine (start ++ blank) ['\n'] := by
  refine ⟨?_, .inr rfl⟩
  intro member
  rcases List.mem_append.mp member with member | member
  · exact plain member
  · cases separators '\n' member

/-- Blank lines behind the start of a line end it and give terminators only. -/
theorem scanEach_blankLines {blanks : List (List Char)}
    (separators : ∀ blank ∈ blanks, ∀ character ∈ blank, isSeparator character)
    {start : List Char} (plain : '\n' ∉ start) (ended : blanks = [] → start = []) {before : Nat}
    {words : List Token} (tiling : Tiling (before + 1) start 0 start.length words)
    {behind : List Char} {tokens : List Token}
    (scanned : scanEach (before + blanks.length) (linesIn behind) = .ok tokens) :
    ∃ gap, scanEach before (linesIn (start ++ blankLines blanks ++ behind)) =
        .ok (words ++ gap ++ tokens) ∧ Gap gap ∧ (gap = [] → words = []) := by
  induction blanks generalizing before start words with
  | nil =>
      rw [ended rfl] at tiling ⊢
      rw [tiling.eq_nil]
      exact ⟨[], scanned, gap_nil, fun _ => rfl⟩
  | cons blank later induction =>
      rcases List.forall_mem_cons.mp separators with ⟨here, others⟩
      have isLine := isLine_blank here plain
      rcases isLine.scanEach_of_tiling ((Tiling.append_iff here).mpr tiling) with
        ⟨one, first, oneIsGap, ended⟩
      rw [List.length_cons, Nat.add_comm later.length, ← Nat.add_assoc] at scanned
      rcases induction others (by simp) (fun _ => rfl) (.empty _) scanned with
        ⟨two, rest, twoIsGap, _⟩
      refine ⟨one ++ two, ?_, ?_, ?_⟩
      · have lines : start ++ blankLines (blank :: later) ++ behind =
            (start ++ blank ++ ['\n']) ++ ([] ++ blankLines later ++ behind) := by
          simp [blankLines]
        rw [lines, linesIn_append (wholeLines_concat _)]
        refine scanEach_append_eq_ok.mpr ⟨_, [] ++ two ++ tokens, first, ?_, by simp⟩
        rw [isLine.linesIn_eq (by simp)]
        exact rest
      · intro token member
        exact (List.mem_append.mp member).elim (oneIsGap token) (twoIsGap token)
      · exact fun empty => ended (List.append_eq_nil_iff.mp empty).1

/-! ## Sources -/

namespace IsLine

variable {body ending rest : List Char}

theorem linesIn_append (isLine : IsLine body ending) (last : ending = [] → rest = []) :
    linesIn (body ++ ending ++ rest) = linesIn (body ++ ending) ++ linesIn rest := by
  rcases isLine.ends with empty | rfl
  · rw [last empty, linesIn_nil, List.append_nil, List.append_nil]
  · exact Scriptlet.linesIn_append (wholeLines_concat body) rest

/-- What follows a line is on the next one. -/
theorem scanEach_rest (isLine : IsLine body ending) (last : ending = [] → rest = [])
    (before : Nat) :
    scanEach (before + (linesIn (body ++ ending)).length) (linesIn rest) =
      scanEach (before + 1) (linesIn rest) := by
  rcases isLine.ends with empty | rfl
  · rw [last empty, linesIn_nil]
    rfl
  · rw [isLine.linesIn_eq (by simp)]
    rfl

end IsLine

/-- A text on the two sides of a point, with the line that the point is in. -/
structure Apart (front back lines start body ending rest : List Char) : Prop where
  front : front = lines ++ start
  back : back = body ++ ending ++ rest
  whole : WholeLines lines
  plain : '\n' ∉ start
  isLine : IsLine body ending
  last : ending = [] → rest = []

theorem exists_apart (front back : List Char) :
    ∃ lines start body ending rest, Apart front back lines start body ending rest := by
  rcases exists_start front with ⟨lines, start, same, whole, plain⟩
  rcases exists_rest back with ⟨body, ending, rest, sameBack, isLine, last⟩
  exact ⟨lines, start, body, ending, rest, same, sameBack, whole, plain, isLine, last⟩

namespace Apart

variable {front back lines start body ending rest : List Char}

/-- The tokens of the lines before the point, of the line with it and of the lines after it. -/
theorem exists_words (apart : Apart front back lines start body ending rest) {tokens : List Token}
    (scanned : scanEach 0 (linesIn (front ++ back)) = .ok tokens) :
    ∃ before words gap after, tokens = before ++ (words ++ gap ++ after) ∧
      scanEach 0 (linesIn lines) = .ok before ∧
      Tiling ((linesIn lines).length + 1) (start ++ body) 0 (start ++ body).length words ∧
      Gap gap ∧ (gap = [] → words = []) ∧
      scanEach ((linesIn lines).length + 1) (linesIn rest) = .ok after := by
  have isLine : IsLine (start ++ body) ending :=
    ⟨by simp [apart.plain, apart.isLine.plain], apart.isLine.ends⟩
  have whole : front ++ back = lines ++ (start ++ body ++ ending ++ rest) := by
    rw [apart.front, apart.back]
    simp
  rw [whole, linesIn_append apart.whole, isLine.linesIn_append apart.last] at scanned
  rcases scanEach_append_eq_ok.mp scanned with ⟨before, _, first, following, rfl⟩
  rcases scanEach_append_eq_ok.mp following with ⟨_, after, line, others, rfl⟩
  rw [isLine.scanEach_rest apart.last, Nat.zero_add] at others
  rw [Nat.zero_add] at line
  rcases isLine.tiling_of_scanEach line with ⟨words, gap, rfl, isGap, ended, tiling⟩
  exact ⟨before, words, gap, after, rfl, first, tiling, isGap, ended, others⟩

/-- The tokens after blank lines have been put in at the point. -/
theorem scanEach_inserted (apart : Apart front back lines start body ending rest)
    {blanks : List (List Char)} (some : blanks ≠ [])
    (separators : ∀ blank ∈ blanks, ∀ character ∈ blank, isSeparator character)
    {before ahead behind after : List Token} (first : scanEach 0 (linesIn lines) = .ok before)
    (left : Tiling ((linesIn lines).length + 1) start 0 start.length ahead)
    (right : Tiling ((linesIn lines).length + 1 + blanks.length) body 0 body.length behind)
    (others : scanEach ((linesIn lines).length + 1) (linesIn rest) = .ok after) :
    ∃ gap other, scanEach 0 (linesIn (front ++ blankLines blanks ++ back)) =
        .ok (before ++ (ahead ++ gap ++
          (behind ++ other ++ after.map (Token.move (Position.below blanks.length))))) ∧
      Gap gap ∧ (gap = [] → ahead = []) ∧ Gap other ∧ (other = [] → behind = []) := by
  have further := scanEach_below blanks.length ((linesIn lines).length + 1) (linesIn rest)
  rw [others, moveResult_ok, Nat.add_right_comm] at further
  rw [Nat.add_right_comm] at right
  rcases apart.isLine.scanEach_of_tiling right with ⟨other, line, isOther, ended⟩
  have behindBlanks := scanEach_append_eq_ok.mpr ⟨_, _, line,
    (apart.isLine.scanEach_rest apart.last _).trans further, rfl⟩
  rw [← apart.isLine.linesIn_append apart.last] at behindBlanks
  rcases scanEach_blankLines separators apart.plain (fun empty => absurd empty some) left
      behindBlanks with ⟨gap, scanned, isGap, endedAhead⟩
  refine ⟨gap, other, ?_, isGap, endedAhead, isOther, ended⟩
  have whole : front ++ blankLines blanks ++ back =
      lines ++ (start ++ blankLines blanks ++ (body ++ ending ++ rest)) := by
    rw [apart.front, apart.back]
    simp
  rw [whole, linesIn_append apart.whole]
  refine scanEach_append_eq_ok.mpr ⟨_, _, first, ?_, rfl⟩
  rw [Nat.zero_add]
  exact scanned

end Apart

/-- A line that may be broken at a point, between the lines around it. -/
theorem Parted.broken {point : Position} {ahead behind : List Token}
    (parted : Parted point.cursor ahead behind) {text : List Char} {stop : Nat}
    (tiling : Tiling point.line text 0 stop (ahead ++ behind)) {before after : List Token}
    (closed : Closed before) (unended : Unended before)
    (above : ∀ token ∈ before, token.position.line < point.line)
    (below : ∀ token ∈ after, point.line < token.position.line) {lines : Nat} (some : lines ≠ 0) :
    Broken (Position.pushed point lines) before ahead behind after where
  closed := closed
  unended := by
    rw [List.append_assoc]
    apply unended.append
    intro token member ends
    have lexical := tiling.isLexical token member
    rw [ends] at lexical
    cases lexical
  gapless := by
    intro token member terminates
    have lexical := tiling.isLexical token member
    rw [terminates] at lexical
    cases lexical
  breaks := parted.breaks
  fixed := by
    intro token member
    rcases List.mem_append.mp member with member | member
    · exact congrArg _ (Position.pushed_before lines (.inl (above token member)))
    · have words := List.mem_append_left behind member
      have consumed := Token.cursor_lt_stop (tiling.longest token words)
      have ends := parted.ends token member
      exact congrArg _ (Position.pushed_before lines
        (.inr ⟨(tiling.placed token words).1, by omega⟩))
  touching := by
    simp only [List.forall_mem_cons, List.not_mem_nil, false_implies, implies_true, and_true]
    constructor
    · intro earlier member later memberToo
      have one := parted.starts earlier member
      have other := parted.starts later memberToo
      have line := (tiling.placed earlier (List.mem_append_right _ member)).1
      have lineToo := (tiling.placed later (List.mem_append_right _ memberToo)).1
      rw [Token.touches, Token.touches, Token.move_position, Token.move_position,
        Position.pushed_line some line one, Position.pushed_line some lineToo other, line, lineToo]
      rw [Bool.eq_iff_iff]
      simp only [Token.move_text, beq_self_eq_true, Bool.true_and, beq_iff_eq]
      omega
    · intro earlier member later memberToo
      rw [← Token.touches_below lines earlier later]
      have one := Position.pushed_after some (below earlier member)
      have other := Position.pushed_after some (below later memberToo)
      simp only [Token.touches, Token.move, one, other]

theorem exists_of_scanSource {source : String} {tokens : List Token}
    (scanned : scanSource source = .ok tokens) :
    ∃ lexemes, scanEach 0 (linesIn source.toList) = .ok lexemes ∧
      tokens = lexemes ++ [.endOfInput (linesIn source.toList).length] := by
  rw [scanSource, scanLines_eq, Nat.zero_add] at scanned
  change scanEach 0 (linesIn source.toList) >>= _ = _ at scanned
  cases found : scanEach 0 (linesIn source.toList) with
  | error error =>
      rw [found] at scanned
      cases scanned
  | ok lexemes =>
      rw [found] at scanned
      cases scanned
      exact ⟨lexemes, rfl, rfl⟩

theorem programOfSource_eq {source : String} {tokens : List Token}
    (scanned : scanEach 0 (linesIn source.toList) = .ok tokens) (limit : Nat) :
    programOfSource limit source = statementsOf limit 0 (separate tokens) := by
  have whole : scanSource source =
      .ok (tokens ++ [.endOfInput (linesIn source.toList).length]) := by
    rw [scanSource, scanLines_eq, ← Nat.zero_add (linesIn source.toList).length]
    exact congrArg (· >>= _) scanned
  have marks : (Token.endOfInput (linesIn source.toList).length).kind = .endOfInput := rfl
  have mark : separate [.endOfInput (linesIn source.toList).length] =
      [.endOfInput (linesIn source.toList).length] := rfl
  rw [programOfSource, whole, ← statementsOf_append_end limit 0 marks, ← mark,
    ← separate_append (closed_scanEach scanned)]
  rfl

/-- Nothing is moved where nothing is put in. -/
theorem programOfSource_still {source : String} {tokens : List Token}
    (scanned : scanEach 0 (linesIn source.toList) = .ok tokens) {place : Position → Position}
    (fixed : ∀ position, place position = position) (limit : Nat) :
    Parse.Moves place (List.map (Tree.move place)) (programOfSource limit source)
      (programOfSource limit source) := by
  have moved := @statementsOf_move place limit 0 (separate tokens)
  rw [separate_fixed fun token _ => congrArg _ (fixed token.position)] at moved
  rwa [programOfSource_eq scanned]

/-- Whether a point lies between two lines of a text, or at its end. -/
def BetweenLines (front back : String) : Prop :=
  back = "" ∨ ∀ last ∈ front.toList.getLast?, last = '\n'

theorem BetweenLines.exists_parted {front back : String} (between : BetweenLines front back)
    {lines start body ending rest : List Char}
    (apart : Apart front.toList back.toList lines start body ending rest) {line : Nat}
    {words : List Token}
    (tiling : Tiling line (start ++ body) 0 (start ++ body).length words) :
    ∃ ahead behind, words = ahead ++ behind ∧ Parted start.length ahead behind := by
  rcases between with rfl | whole
  · have none := apart.back
    have empty : body = [] := by
      rcases body with _ | ⟨first, later⟩
      · rfl
      · cases none
    rw [empty, List.append_nil] at tiling
    exact ⟨words, [], (List.append_nil _).symm,
      parted_ahead fun token member => (tiling.placed token member).2.2⟩
  · have empty : start = [] := by
      rcases List.eq_nil_or_concat start with empty | ⟨earlier, last, rfl⟩
      · exact empty
      · have feed := whole last (by simp [apart.front])
        exact absurd (by simp [feed]) apart.plain
    refine ⟨[], words, rfl, parted_behind fun token member => ?_⟩
    rw [empty]
    exact Nat.zero_le _

/-- What comes of a source after blank lines have been put in where a line may be broken. -/
theorem Apart.moves {front back : String} {lines start body ending rest : List Char}
    (apart : Apart front.toList back.toList lines start body ending rest)
    {before ahead behind gap after : List Token}
    (scanned : scanEach 0 (linesIn (front ++ back).toList) =
      .ok (before ++ (ahead ++ behind ++ gap ++ after)))
    (first : scanEach 0 (linesIn lines) = .ok before)
    (tiling : Tiling ((linesIn lines).length + 1) (start ++ body) 0 (start ++ body).length
      (ahead ++ behind))
    (isGap : Gap gap) (ended : gap = [] → ahead ++ behind = [])
    (others : scanEach ((linesIn lines).length + 1) (linesIn rest) = .ok after)
    (parted : Parted start.length ahead behind) {blanks : List (List Char)} (some : blanks ≠ [])
    (separators : ∀ blank ∈ blanks, ∀ character ∈ blank, isSeparator character) (limit : Nat) :
    let place := Position.pushed ⟨(linesIn lines).length + 1, start.length⟩ blanks.length
    Parse.Moves place (List.map (Tree.move place)) (programOfSource limit (front ++ back))
      (programOfSource limit (front ++ String.ofList (blankLines blanks) ++ back)) := by
  intro place
  have someLines : blanks.length ≠ 0 := by simpa using some
  have above : ∀ token ∈ before, token.position.line < (linesIn lines).length + 1 := by
    intro token member
    have top := line_le_of_scanEach first token member
    omega
  have below := (ordered_scanEach others).2
  have right : Tiling ((linesIn lines).length + 1 + blanks.length) body 0 body.length
      (behind.map (Token.move place)) :=
    tiling.cut_right parted.ends parted.starts fun token member =>
      Position.pushed_line someLines (tiling.placed token (List.mem_append_right _ member)).1
        (parted.starts token member)
  rcases apart.scanEach_inserted some separators first (tiling.cut_left parted.ends parted.starts)
      right others with ⟨one, other, changed, oneIsGap, endedAhead, isOther, endedBehind⟩
  have pushed : after.map (Token.move (Position.below blanks.length)) =
      after.map (Token.move place) := by
    apply List.map_congr_left
    intro token member
    have same : place token.position = token.position.below blanks.length :=
      Position.pushed_after someLines (below token member)
    rw [Token.move, Token.move, same]
  have source : (front ++ String.ofList (blankLines blanks) ++ back).toList =
      front.toList ++ blankLines blanks ++ back.toList := by
    simp
  have broken : Broken place before ahead behind after :=
    Parted.broken parted tiling (closed_scanEach first) (unended_scanEach first) above below
      someLines
  rw [pushed, ← source] at changed
  rw [programOfSource_eq scanned, programOfSource_eq changed]
  exact broken.moves isGap ended oneIsGap endedAhead isOther
    (fun empty => List.map_eq_nil_iff.mp (endedBehind empty)) limit 0

/-- Layout does not matter. Where a line may be broken, and between lines, any number of blank lines
may be put in; a line break is one of them without characters. The source then gives the same
statements, or the same fault, and leaves the same tables. Only the places behind the point are
pushed on. -/
theorem programOfSource_blankLines {front back : String} {tokens : List Token}
    (scanned : scanSource (front ++ back) = .ok tokens) {blanks : List (List Char)}
    (separators : ∀ blank ∈ blanks, ∀ character ∈ blank, isSeparator character)
    (allowed : BetweenLines front back ∨ BreaksAt tokens (.behind front)) (limit : Nat) :
    let place := Position.pushed (.behind front) blanks.length
    Parse.Moves place (List.map (Tree.move place)) (programOfSource limit (front ++ back))
      (programOfSource limit (front ++ String.ofList (blankLines blanks) ++ back)) := by
  intro place
  rcases exists_of_scanSource scanned with ⟨lexemes, lexed, rfl⟩
  by_cases some : blanks = []
  · have same : front ++ String.ofList (blankLines blanks) ++ back = front ++ back := by
      rw [some]
      exact congrArg (· ++ back) String.append_empty
    rw [same]
    apply programOfSource_still lexed
    exact fun position => if_pos (.inl (by rw [some]; rfl))
  rcases exists_apart front.toList back.toList with ⟨lines, start, body, ending, rest, apart⟩
  have point := Position.behind_eq apart.front apart.whole apart.plain
  rcases apart.exists_words (by rwa [← String.toList_append]) with
    ⟨before, words, gap, after, rfl, first, tiling, isGap, ended, others⟩
  have parted : ∃ ahead behind, words = ahead ++ behind ∧ Parted start.length ahead behind := by
    rcases allowed with between | breaks
    · exact between.exists_parted apart tiling
    · have ordered := endsBy_scanEach lexed
      rw [List.append_assoc words] at breaks ordered
      rw [point] at breaks
      exact breaks.exists_parted ordered fun token member => (tiling.placed token member).1
  rcases parted with ⟨ahead, behind, rfl, parted⟩
  have moves := apart.moves lexed first tiling isGap ended others parted some separators limit
  rwa [← point] at moves

/-- A block may open on the next line. -/
theorem programOfSource_blankLines_block :
    let symbols : Symbols := ⟨{}, .ofTexts ["x"]⟩
    let condition := Tree.identifier ⟨0⟩ ⟨1, 6⟩
    (programOfSource 4 ("while x " ++ "\x7bdel x\x7d")).runFrom {} =
        (.ok [.control .loop condition [.command .delete (.identifier ⟨0⟩ ⟨1, 13⟩) ⟨1, 9⟩] ⟨1, 0⟩],
          symbols) ∧
      (programOfSource 4 ("while x " ++ "\n" ++ "\x7bdel x\x7d")).runFrom {} =
        (.ok [.control .loop condition [.command .delete (.identifier ⟨0⟩ ⟨2, 5⟩) ⟨2, 1⟩] ⟨1, 0⟩],
          symbols) := by
  intro symbols condition
  have original : (programOfSource 4 ("while x " ++ "\x7bdel x\x7d")).runFrom {} =
      (.ok [.control .loop condition [.command .delete (.identifier ⟨0⟩ ⟨1, 13⟩) ⟨1, 9⟩] ⟨1, 0⟩],
        symbols) := by
    cbv
  have scanned : scanSource ("while x " ++ "\x7bdel x\x7d") =
      .ok ([⟨.control .loop, "while", ⟨1, 0⟩⟩] ++ ⟨.identifier, "x", ⟨1, 6⟩⟩ ::
        ⟨.openBlock, "\x7b", ⟨1, 8⟩⟩ :: [⟨.command .delete, "del", ⟨1, 9⟩⟩,
          ⟨.identifier, "x", ⟨1, 13⟩⟩, ⟨.closeBlock, "\x7d", ⟨1, 14⟩⟩, .terminator ⟨1, 15⟩,
          .endOfInput 1]) := by
    cbv
  have point : Position.behind "while x " = ⟨1, 8⟩ := by decide +kernel
  have moves := @programOfSource_blankLines _ _ _ scanned [[]] (by simp)
    (.inr ⟨_, _, _, _, rfl, by rw [point]; decide, by rw [point]; decide, .inr (.inl rfl)⟩) 4 {}
  refine ⟨original, moves.trans ?_⟩
  rw [original, point]
  simp [Tree.move, Position.pushed, condition]

end Scriptlet
