import Scriptlet.Proofs.Pattern
import Scriptlet.Proofs.Relocation

/-! A scanned line as a tiling. Its lexemes stand one behind the other with only separators between
them, each the longest that any pattern matches at its place. They reach to the end of the line, or
to a character at which no pattern matches. -/

namespace Scriptlet

/-! ## Tokens in their line -/

namespace Token

/-- The characters that a token stands for in its line. A string gets its quotes back. -/
def spelling (token : Token) : List Char :=
  match token.kind with
  | .string => Lexeme.quoted token.text.toList
  | _ => token.text.toList

def lexeme (token : Token) : Lexeme :=
  ⟨token.kind, token.spelling⟩

/-- The cursor right behind a token. -/
def stop (token : Token) : Nat :=
  token.position.cursor + token.spelling.length

def Covers (token : Token) (index : Nat) : Prop :=
  token.position.cursor ≤ index ∧ index < token.stop

/-- A token that begins with a letter takes the whole run of characters that can stand in a word. It
is reserved only if the run is. -/
def IsWholeWord (text : List Char) (token : Token) : Prop :=
  ∀ first rest, text.drop token.position.cursor = first :: rest → isLetter first →
    token.spelling = first :: rest.takeWhile (!Lexeme.endsWord ·) ∧
      token.kind = (Lexeme.reservedWords.lookup token.spelling).getD .identifier

end Token

theorem Kind.Matches.quoted {spelling : List Char} (matched : Kind.string.Matches spelling) :
    ∃ content, spelling = Lexeme.quoted content := by
  cases matched with
  | string plain => exact ⟨_, rfl⟩
  | reserved member => cases (Lexeme.family_reserved _ member).2
  | symbol member => cases (Lexeme.family_symbol _ member).2

theorem Token.lexeme_mk {lexeme : Lexeme} (matched : lexeme.kind.Matches lexeme.spelling)
    (position : Position) : Token.lexeme ⟨lexeme.kind, lexeme.text, position⟩ = lexeme := by
  rcases lexeme with ⟨kind, spelling⟩
  cases kind with
  | string =>
      rcases matched.quoted with ⟨content, rfl⟩
      simp [lexeme, Token.spelling, Lexeme.text_quoted]
  | _ => simp [lexeme, Token.spelling, Lexeme.text]

theorem Token.text_lexeme (token : Token) : token.lexeme.text = token.text := by
  rcases token with ⟨kind, text, position⟩
  cases kind <;> simp [lexeme, spelling, Lexeme.text, Lexeme.quoted]

theorem Token.stop_mk {lexeme : Lexeme} (matched : lexeme.kind.Matches lexeme.spelling)
    (position : Position) : Token.stop ⟨lexeme.kind, lexeme.text, position⟩ =
      position.cursor + lexeme.spelling.length :=
  congrArg (position.cursor + ·.spelling.length) (lexeme_mk matched position)

theorem Lexeme.Longest.isWholeWord {text : List Char} {token : Token}
    (longest : token.lexeme.Longest (text.drop token.position.cursor)) :
    token.IsWholeWord text := by
  intro first rest here letter
  have read := longest?_eq_some_iff.mpr longest
  rw [here, longest?, if_pos letter] at read
  have isWord : word first rest = token.lexeme := Option.some.inj read
  have run : first :: rest.takeWhile (!endsWord ·) = token.spelling := congrArg spelling isWord
  have looked : (reservedWords.lookup (first :: rest.takeWhile (!endsWord ·))).getD .identifier =
      token.kind := congrArg Lexeme.kind isWord
  exact ⟨run.symm, run ▸ looked.symm⟩

theorem Lexeme.Longest.not_separator {first : Char} {rest : List Char} {lexeme : Lexeme}
    (longest : lexeme.Longest (first :: rest)) : isSeparator first = false := by
  have read := longest?_eq_some_iff.mpr longest
  cases separates : isSeparator first with
  | false => rfl
  | true =>
      simp only [isSeparator, Bool.or_eq_true, beq_iff_eq] at separates
      rcases separates with ((rfl | rfl) | rfl) | rfl <;> cases read

/-! ## Blanks -/

/-- Whether only separators stand from one cursor to another. -/
def BlankBetween (text : List Char) (start stop : Nat) : Prop :=
  ∀ index character, start ≤ index → index < stop → text[index]? = some character →
    isSeparator character

section

variable {text : List Char} {start stop : Nat}

theorem blankBetween_takeWhile (text : List Char) (start : Nat) :
    BlankBetween text start (start + ((text.drop start).takeWhile isSeparator).length) := by
  intro index character above below here
  have inside : ((text.drop start).takeWhile isSeparator ++
      (text.drop start).dropWhile isSeparator)[index - start]? =
        ((text.drop start).takeWhile isSeparator)[index - start]? :=
    List.getElem?_append_left (by omega)
  rw [List.takeWhile_append_dropWhile, List.getElem?_drop, Nat.add_sub_cancel' above, here]
    at inside
  exact List.mem_takeWhile_imp (List.mem_of_getElem? inside.symm)

theorem dropWhile_eq_drop (text : List Char) (start : Nat) :
    (text.drop start).dropWhile isSeparator =
      text.drop (start + ((text.drop start).takeWhile isSeparator).length) := by
  have behind : ((text.drop start).takeWhile isSeparator ++
      (text.drop start).dropWhile isSeparator).drop
        ((text.drop start).takeWhile isSeparator).length =
      (text.drop start).dropWhile isSeparator := List.drop_left
  rw [List.takeWhile_append_dropWhile, List.drop_drop] at behind
  exact behind.symm

/-- Blanks up to something else are skipped at once. -/
theorem BlankBetween.skipped (blank : BlankBetween text start stop) (forward : start ≤ stop)
    (inside : stop ≤ text.length)
    (other : ∀ next ∈ (text.drop stop).head?, isSeparator next = false) :
    start + ((text.drop start).takeWhile isSeparator).length = stop ∧
      (text.drop start).dropWhile isSeparator = text.drop stop := by
  have whole : text.drop start = (text.drop start).take (stop - start) ++ text.drop stop := by
    conv_lhs => rw [← List.take_append_drop (stop - start) (text.drop start)]
    rw [List.drop_drop, Nat.add_sub_cancel' forward]
  have separators : ∀ character ∈ (text.drop start).take (stop - start),
      isSeparator character := by
    intro character member
    rcases List.getElem?_of_mem member with ⟨index, here⟩
    have below : index < stop - start := by
      by_contra above
      rw [List.getElem?_take, if_neg above] at here
      cases here
    rw [List.getElem?_take_of_lt below, List.getElem?_drop] at here
    exact blank (start + index) character (Nat.le_add_right _ _) (by omega) here
  rcases Lexeme.takeWhile_stops separators other with ⟨taken, dropped⟩
  rw [← whole] at taken dropped
  refine ⟨?_, dropped⟩
  rw [taken, List.length_take, List.length_drop]
  omega

end

/-! ## Tilings -/

/-- A part of a line tiled with tokens. -/
structure Tiling (line : Nat) (text : List Char) (start stop : Nat) (tokens : List Token) :
    Prop where
  forward : start ≤ stop
  placed : ∀ token ∈ tokens, token.position.line = line ∧ start ≤ token.position.cursor ∧
    token.stop ≤ stop
  longest : ∀ token ∈ tokens, token.lexeme.Longest (text.drop token.position.cursor)
  ordered : tokens.Pairwise fun earlier later =>
    earlier.position.cursor < later.position.cursor ∧ earlier.stop ≤ later.position.cursor
  blank : ∀ index character, start ≤ index → index < stop → text[index]? = some character →
    (∀ token ∈ tokens, ¬token.Covers index) → isSeparator character

/-- What stands behind the tiled part of a line, and how it is reported: nothing, or a character at
which no pattern matches. -/
inductive LineEnd (line : Nat) (text : List Char) : Nat → Except SourceError Token → Prop where
  | whole : LineEnd line text text.length (.ok (.terminator ⟨line, text.length⟩))
  | fault {stop : Nat} {first : Char} {rest : List Char} (here : text.drop stop = first :: rest)
      (other : isSeparator first = false)
      (unmatched : ∀ kind spelling, spelling <+: first :: rest → ¬Kind.Matches kind spelling) :
      LineEnd line text stop (.error
        ⟨if first = '"' then .unterminatedString else .invalidCharacter first, ⟨line, stop⟩⟩)

theorem Token.cursor_lt_stop {token : Token} {characters : List Char}
    (longest : token.lexeme.Longest characters) : token.position.cursor < token.stop :=
  Nat.lt_add_of_pos_right (List.length_pos_iff.mpr longest.matched.ne_nil)

namespace Tiling

variable {line : Nat} {text : List Char} {start stop : Nat} {token : Token} {tokens : List Token}

theorem nil_iff : Tiling line text start stop [] ↔ start ≤ stop ∧ BlankBetween text start stop := by
  constructor
  · intro tiling
    exact ⟨tiling.forward, fun index character above below here =>
      tiling.blank index character above below here (List.forall_mem_nil _)⟩
  · intro ⟨forward, blank⟩
    exact {
      forward := forward
      placed := List.forall_mem_nil _
      longest := List.forall_mem_nil _
      ordered := .nil
      blank := fun index character above below here _ => blank index character above below here }

/-- A tiling is extended to the left by a token and the blanks in front of it. -/
theorem cons_iff : Tiling line text start stop (token :: tokens) ↔
    (token.position.line = line ∧ start ≤ token.position.cursor ∧
      token.lexeme.Longest (text.drop token.position.cursor) ∧
      BlankBetween text start token.position.cursor) ∧
    Tiling line text token.stop stop tokens := by
  constructor
  · intro tiling
    rcases tiling.placed token List.mem_cons_self with ⟨sameLine, above, below⟩
    have longest := tiling.longest token List.mem_cons_self
    rcases List.pairwise_cons.mp tiling.ordered with ⟨before, ordered⟩
    have uncovered {index : Nat} (early : index < token.stop) :
        ∀ later ∈ tokens, ¬later.Covers index := by
      intro later member ⟨covered, _⟩
      have behind := (before later member).2
      omega
    have consumed := Token.cursor_lt_stop longest
    refine ⟨⟨sameLine, above, longest, ?_⟩, below, ?_, ?_, ordered, ?_⟩
    · intro index character start early here
      apply tiling.blank index character start (by omega) here
      intro covering member
      rcases List.mem_cons.mp member with rfl | member
      · exact fun covers => absurd covers.1 (by omega)
      · exact uncovered (by omega) covering member
    · intro later member
      rcases tiling.placed later (List.mem_cons_of_mem _ member) with ⟨sameLine, _, below⟩
      exact ⟨sameLine, (before later member).2, below⟩
    · exact fun later member => tiling.longest later (List.mem_cons_of_mem _ member)
    · intro index character start below here others
      apply tiling.blank index character (by omega) below here
      intro covering member
      rcases List.mem_cons.mp member with rfl | member
      · exact fun covers => absurd covers.2 (by omega)
      · exact others covering member
  · intro ⟨⟨sameLine, above, longest, blank⟩, tiling⟩
    have consumed := Token.cursor_lt_stop longest
    have reached := tiling.forward
    refine ⟨by omega, ?_, ?_, ?_, ?_⟩
    · intro selected member
      rcases List.mem_cons.mp member with rfl | member
      · exact ⟨sameLine, above, reached⟩
      · rcases tiling.placed selected member with ⟨sameLine, behind, below⟩
        exact ⟨sameLine, by omega, below⟩
    · intro selected member
      rcases List.mem_cons.mp member with rfl | member
      · exact longest
      · exact tiling.longest selected member
    · rw [List.pairwise_cons]
      refine ⟨?_, tiling.ordered⟩
      intro later member
      have behind := (tiling.placed later member).2.1
      exact ⟨by omega, behind⟩
    · intro index character start below here uncovered
      have notHere := uncovered token List.mem_cons_self
      by_cases early : index < token.position.cursor
      · exact blank index character start early here
      · have late : token.stop ≤ index := by
          by_contra inside
          exact notHere ⟨by omega, by omega⟩
        exact tiling.blank index character late below here fun covering member =>
          uncovered covering (List.mem_cons_of_mem _ member)

theorem empty (line : Nat) : Tiling line [] 0 0 [] :=
  nil_iff.mpr ⟨Nat.le_refl _, fun index _ _ below => absurd below (Nat.not_lt_zero index)⟩

theorem eq_nil (tiling : Tiling line [] 0 0 tokens) : tokens = [] := by
  cases tokens with
  | nil => rfl
  | cons token tokens =>
      have consumed := Token.cursor_lt_stop (tiling.longest token List.mem_cons_self)
      have inside := (tiling.placed token List.mem_cons_self).2.2
      exact absurd (Nat.lt_of_lt_of_le consumed inside) (Nat.not_lt_zero _)

theorem isLexical (tiling : Tiling line text start stop tokens) :
    ∀ token ∈ tokens, token.kind.isLexical := by
  intro token member
  have read := Lexeme.longest?_eq_some_iff.mpr (tiling.longest token member)
  exact (Lexeme.spells_longest read).1

end Tiling

/-! ## Parts of a line

Separators at the end of a line change nothing, and a line may be cut wherever no token stands. -/

theorem Kind.Matches.last_visible {kind : Kind} {spelling : List Char}
    (matched : kind.Matches spelling) : ∀ last ∈ spelling.getLast?, isSeparator last = false := by
  intro last ends
  have member := List.mem_of_getLast? ends
  cases separates : isSeparator last with
  | false => rfl
  | true =>
      have plain : isLetter last = false ∧ last.isDigit = false ∧ Lexeme.endsWord last ∧
          last ≠ '"' := by
        simp only [isSeparator, Bool.or_eq_true, beq_iff_eq] at separates
        rcases separates with ((rfl | rfl) | rfl) | rfl <;> decide
      rcases plain with ⟨notLetter, notDigit, endsWord, notQuote⟩
      cases matched with
      | name letter inside =>
          rcases List.mem_cons.mp member with rfl | member
          · exact absurd rfl (Lexeme.ne_of_isLetter letter notLetter)
          · exact absurd rfl (Lexeme.ne_of_not_endsWord (inside last member) endsWord)
      | string plain =>
          rw [Lexeme.quoted, List.getLast?_concat] at ends
          cases ends
          exact absurd rfl notQuote
      | integer some each => exact absurd rfl (Lexeme.ne_of_isDigit (each last member) notDigit)
      | @decimal whole fraction _ _ someFraction eachFraction =>
          rw [List.getLast?_append_of_ne_nil _ (by simp), ← List.singleton_append,
            List.getLast?_append_of_ne_nil _ someFraction] at ends
          exact absurd rfl
            (Lexeme.ne_of_isDigit (eachFraction last (List.mem_of_getLast? ends)) notDigit)
      | reserved member =>
          have visible : ∀ entry ∈ Lexeme.reservedWords,
              entry.1.getLast?.any isSeparator = false := by
            decide
          have here := visible _ member
          rw [Option.mem_def.mp ends, Option.any_some, separates] at here
          cases here
      | symbol member =>
          have visible : ∀ entry ∈ Lexeme.symbols, entry.1.getLast?.any isSeparator = false := by
            decide
          have here := visible _ member
          rw [Option.mem_def.mp ends, Option.any_some, separates] at here
          cases here

section

variable {characters blanks : List Char} (separators : ∀ character ∈ blanks, isSeparator character)

include separators

/-- No spelling reaches into the separators at the end. -/
theorem Kind.Matches.here_of_append {kind : Kind} {spelling : List Char}
    (matched : kind.Matches spelling) (here : spelling <+: characters ++ blanks) :
    spelling <+: characters := by
  rcases List.prefix_or_prefix_of_prefix here (List.prefix_append _ _) with inside | ⟨rest, rfl⟩
  · exact inside
  · have reaches := (List.prefix_append_right_inj characters).mp here
    rcases List.eq_nil_or_concat rest with rfl | ⟨earlier, last, rfl⟩
    · rw [List.append_nil]
    · rw [List.concat_eq_append] at matched reaches
      have visible := matched.last_visible last (by simp)
      rw [separators last (reaches.subset (by simp))] at visible
      cases visible

theorem Lexeme.longest_append_iff {lexeme : Lexeme} :
    lexeme.Longest (characters ++ blanks) ↔ lexeme.Longest characters := by
  have longer := List.prefix_append characters blanks
  constructor
  · intro ⟨here, matched, longest, preferred⟩
    exact ⟨matched.here_of_append separators here, matched, fun kind spelling inside =>
      longest kind spelling (inside.trans longer), preferred⟩
  · intro ⟨here, matched, longest, preferred⟩
    exact ⟨here.trans longer, matched, fun kind spelling inside matched =>
      longest kind spelling (matched.here_of_append separators inside) matched, preferred⟩

theorem Tiling.append_iff {line : Nat} {tokens : List Token} :
    Tiling line (characters ++ blanks) 0 (characters ++ blanks).length tokens ↔
      Tiling line characters 0 characters.length tokens := by
  have rest (cursor : Nat) : ∀ character ∈ blanks.drop (cursor - characters.length),
      isSeparator character :=
    fun character member => separators character (List.mem_of_mem_drop member)
  have longest (token : Token) :
      token.lexeme.Longest ((characters ++ blanks).drop token.position.cursor) ↔
        token.lexeme.Longest (characters.drop token.position.cursor) := by
    rw [List.drop_append]
    exact Lexeme.longest_append_iff (rest token.position.cursor)
  constructor
  · intro tiling
    have inside := fun token member => (longest token).mp (tiling.longest token member)
    refine ⟨Nat.zero_le _, ?_, inside, tiling.ordered, ?_⟩
    · intro token member
      have placed := tiling.placed token member
      have consumed := Token.cursor_lt_stop (inside token member)
      have length := (inside token member).here.length_le
      rw [List.length_drop] at length
      refine ⟨placed.1, placed.2.1, ?_⟩
      simp only [Token.stop, Token.lexeme] at consumed length ⊢
      omega
    · intro index character above below here
      refine tiling.blank index character above ?_ ?_
      · rw [List.length_append]
        omega
      · rwa [List.getElem?_append_left below]
  · intro tiling
    refine ⟨Nat.zero_le _, ?_, ?_, tiling.ordered, ?_⟩
    · intro token member
      have placed := tiling.placed token member
      rw [List.length_append]
      exact ⟨placed.1, placed.2.1, by omega⟩
    · exact fun token member => (longest token).mpr (tiling.longest token member)
    · intro index character above below here uncovered
      by_cases inside : index < characters.length
      · rw [List.getElem?_append_left inside] at here
        exact tiling.blank index character above inside here uncovered
      · rw [List.getElem?_append_right (Nat.le_of_not_lt inside)] at here
        exact separators character (List.mem_of_getElem? here)

end

theorem Lexeme.Longest.of_prefix {characters part : List Char} {lexeme : Lexeme}
    (longest : lexeme.Longest characters) (here : lexeme.spelling <+: part)
    (shorter : part <+: characters) : lexeme.Longest part where
  here := here
  matched := longest.matched
  longest := fun kind spelling inside => longest.longest kind spelling (inside.trans shorter)
  preferred := longest.preferred

section

variable {line : Nat} {left right : List Char} {ahead behind : List Token}

theorem Tiling.cut_left
    (tiling : Tiling line (left ++ right) 0 (left ++ right).length (ahead ++ behind))
    (ends : ∀ token ∈ ahead, token.stop ≤ left.length)
    (starts : ∀ token ∈ behind, left.length ≤ token.position.cursor) :
    Tiling line left 0 left.length ahead where
  forward := Nat.zero_le _
  placed := fun token member =>
    ⟨(tiling.placed token (List.mem_append_left _ member)).1, Nat.zero_le _, ends token member⟩
  longest := by
    intro token member
    have longest := tiling.longest token (List.mem_append_left _ member)
    have inside := ends token member
    rw [Token.stop] at inside
    have behind : (left ++ right).drop token.position.cursor =
        left.drop token.position.cursor ++ right :=
      List.drop_append_of_le_length (by omega)
    rw [behind] at longest
    apply longest.of_prefix _ (List.prefix_append _ _)
    apply List.prefix_of_prefix_length_le longest.here (List.prefix_append _ _)
    rw [List.length_drop]
    simp only [Token.lexeme]
    omega
  ordered := (List.pairwise_append.mp tiling.ordered).1
  blank := by
    intro index character above below here uncovered
    rw [← List.getElem?_append_left below] at here
    apply tiling.blank index character above (by rw [List.length_append]; omega) here
    intro token member
    rcases List.mem_append.mp member with member | member
    · exact uncovered token member
    · have start := starts token member
      exact fun covers => absurd covers.1 (by omega)

/-- What stands behind a cut is a line of its own, with its tokens moved to where they stand in
it. -/
theorem Tiling.cut_right
    (tiling : Tiling line (left ++ right) 0 (left ++ right).length (ahead ++ behind))
    (ends : ∀ token ∈ ahead, token.stop ≤ left.length)
    (starts : ∀ token ∈ behind, left.length ≤ token.position.cursor)
    {place : Position → Position} {row : Nat}
    (placed : ∀ token ∈ behind,
      place token.position = ⟨row, token.position.cursor - left.length⟩) :
    Tiling row right 0 right.length (behind.map (Token.move place)) := by
  have moved : ∀ token ∈ behind,
      (token.move place).position.cursor + left.length = token.position.cursor ∧
      (token.move place).stop + left.length = token.stop := by
    intro token member
    have start := starts token member
    have same : (token.move place).spelling = token.spelling := rfl
    rw [Token.stop, Token.stop, same, Token.move_position, placed token member]
    dsimp only
    omega
  have length : (left ++ right).length = left.length + right.length := List.length_append
  refine ⟨Nat.zero_le _, ?_, ?_, ?_, ?_⟩
  · simp only [List.forall_mem_map]
    intro token member
    have below := (tiling.placed token (List.mem_append_right _ member)).2.2
    have same := moved token member
    exact ⟨congrArg Position.line (placed token member), Nat.zero_le _, by omega⟩
  · simp only [List.forall_mem_map]
    intro token member
    have longest := tiling.longest token (List.mem_append_right _ member)
    rw [← (moved token member).1, Nat.add_comm, List.drop_length_add_append] at longest
    exact longest
  · rw [List.pairwise_map]
    apply (List.pairwise_append.mp tiling.ordered).2.1.imp_of_mem
    intro earlier later member memberToo ordered
    have one := moved earlier member
    have other := moved later memberToo
    omega
  · simp only [List.forall_mem_map]
    intro index character _ below here uncovered
    have further : (left ++ right)[left.length + index]? = right[index]? := by
      rw [List.getElem?_append_right (Nat.le_add_right _ _), Nat.add_sub_cancel_left]
    rw [← further] at here
    apply tiling.blank _ character (Nat.zero_le _) (by omega) here
    intro token member
    rcases List.mem_append.mp member with member | member
    · have stop := ends token member
      exact fun covers => absurd covers.2 (by omega)
    · have same := moved token member
      have notHere := uncovered token member
      rw [Token.Covers] at notHere ⊢
      omega

end

/-! ## Scanning tiles -/

/-- What is read from a place on is a tiling from there and what ends it. -/
theorem Scanner.exists_tiling (line : Nat) (text : List Char) {cursor : Nat}
    {characters : List Char} (here : text.drop cursor = characters)
    (inside : cursor ≤ text.length) :
    ∃ tokens stop ending, rest ⟨line, cursor, some characters⟩ = tokens.map .ok ++ [ending] ∧
      Tiling line text cursor stop tokens ∧ LineEnd line text stop ending := by
  induction cursor, characters using scan_induction with
  | blank cursor characters found =>
      subst here
      have reached : cursor + ((text.drop cursor).takeWhile isSeparator).length =
          text.length := by
        have total := congrArg List.length
          (List.takeWhile_append_dropWhile (p := isSeparator) (l := text.drop cursor))
        rw [found, List.append_nil, List.length_drop] at total
        omega
      refine ⟨[], text.length, _, rest_blank line cursor found, ?_, ?_⟩
      · rw [Tiling.nil_iff]
        exact ⟨inside, reached ▸ blankBetween_takeWhile text cursor⟩
      · rw [reached]
        exact .whole
  | fault cursor characters first later found unmatched =>
      subst here
      have stands := dropWhile_eq_drop text cursor
      rw [found] at stands
      refine ⟨[], cursor + ((text.drop cursor).takeWhile isSeparator).length, _,
        rest_fault line cursor found unmatched, ?_, ?_⟩
      · rw [Tiling.nil_iff]
        exact ⟨Nat.le_add_right _ _, blankBetween_takeWhile text cursor⟩
      · apply LineEnd.fault stands.symm
        · have other := List.head?_dropWhile_not isSeparator (text.drop cursor)
          rw [found] at other
          simpa using other
        · exact Lexeme.longest?_eq_none_iff.mp unmatched
  | lexeme cursor characters first later lexeme found matched induction =>
      subst here
      have stands := dropWhile_eq_drop text cursor
      rw [found] at stands
      have longest := Lexeme.longest?_eq_some_iff.mp matched
      have shorter := longest.here.length_le
      have available := congrArg List.length stands
      rw [List.length_drop, List.length_cons] at available
      rw [List.length_cons] at shorter
      rcases induction (by rw [stands, List.drop_drop]) (by omega) with
        ⟨tokens, stop, ending, items, tiling, ends⟩
      refine ⟨⟨lexeme.kind, lexeme.text,
          ⟨line, cursor + ((text.drop cursor).takeWhile isSeparator).length⟩⟩ :: tokens,
        stop, ending, ?_, ?_, ends⟩
      · rw [rest_lexeme line cursor found matched, items]
        rfl
      · rw [Tiling.cons_iff, Token.lexeme_mk longest.matched, Token.stop_mk longest.matched]
        exact ⟨⟨rfl, Nat.le_add_right _ _, stands ▸ longest, blankBetween_takeWhile text cursor⟩,
          tiling⟩

/-- A tiling from a place on, with what ends it, is what is read from there. -/
theorem Tiling.rest_eq {line : Nat} {text : List Char} {cursor stop : Nat} {tokens : List Token}
    {ending : Except SourceError Token} (tiling : Tiling line text cursor stop tokens)
    (ends : LineEnd line text stop ending) :
    Scanner.rest ⟨line, cursor, some (text.drop cursor)⟩ = tokens.map .ok ++ [ending] := by
  induction tokens generalizing cursor with
  | nil =>
      rcases nil_iff.mp tiling with ⟨forward, blank⟩
      cases ends with
      | whole =>
          rcases blank.skipped forward (Nat.le_refl _) (by simp) with ⟨taken, dropped⟩
          rw [Scanner.rest_blank line cursor (by rw [dropped, List.drop_length]), taken]
          rfl
      | @fault _ first rest here other unmatched =>
          have inside : stop < text.length := by
            by_contra outside
            rw [List.drop_eq_nil_of_le (Nat.le_of_not_lt outside)] at here
            cases here
          rcases blank.skipped forward (Nat.le_of_lt inside) (by simp [here, other]) with
            ⟨taken, dropped⟩
          rw [here] at dropped
          rw [Scanner.rest_fault line cursor dropped (Lexeme.longest?_eq_none_iff.mpr unmatched),
            taken]
          rfl
  | cons token tokens induction =>
      rcases cons_iff.mp tiling with ⟨⟨sameLine, forward, longest, blank⟩, tiling⟩
      have read := Lexeme.longest?_eq_some_iff.mpr longest
      cases here : text.drop token.position.cursor with
      | nil =>
          rw [here] at read
          cases read
      | cons first rest =>
          have inside : token.position.cursor < text.length := by
            by_contra outside
            rw [List.drop_eq_nil_of_le (Nat.le_of_not_lt outside)] at here
            cases here
          rw [here] at longest read
          rcases blank.skipped forward (Nat.le_of_lt inside)
              (by simp [here, longest.not_separator]) with ⟨taken, dropped⟩
          rw [here] at dropped
          have behind : (first :: rest).drop token.lexeme.spelling.length =
              text.drop token.stop := by
            rw [← here, List.drop_drop]
            rfl
          rw [Scanner.rest_lexeme line cursor dropped read, taken, behind, token.text_lexeme,
            ← sameLine]
          exact congrArg (.ok token :: ·) (sameLine ▸ induction tiling)

/-- The items read from a line are its tokens with what ends it, and no other tokens tile the
line. -/
theorem Scanner.rest_beginLine_iff (scanner : Scanner) (text : List Char)
    (items : List (Except SourceError Token)) :
    (scanner.beginLine text).rest = items ↔
      ∃ tokens stop ending, items = tokens.map .ok ++ [ending] ∧
        Tiling (scanner.line + 1) text 0 stop tokens ∧
        LineEnd (scanner.line + 1) text stop ending ∧
        ∀ token ∈ tokens, token.IsWholeWord text := by
  constructor
  · intro read
    rcases @exists_tiling (scanner.line + 1) text 0 text rfl (Nat.zero_le _) with
      ⟨tokens, stop, ending, items, tiling, ends⟩
    exact ⟨tokens, stop, ending, read.symm.trans items, tiling, ends,
      fun token member => (tiling.longest token member).isWholeWord⟩
  · intro ⟨tokens, stop, ending, whole, tiling, ends, _⟩
    exact (tiling.rest_eq ends).trans whole.symm

theorem mapM_id_append (tokens : List Token) (ending : Except SourceError Token) :
    (tokens.map Except.ok ++ [ending]).mapM id = (tokens ++ [·]) <$> ending := by
  induction tokens with
  | nil => cases ending <;> rfl
  | cons token later induction =>
      rw [List.map_cons, List.cons_append, List.mapM_cons, induction]
      cases ending <;> rfl

/-- A line is scanned exactly if it can be tiled as a whole. -/
theorem scanLine_eq_ok_iff {line : Nat} {text : List Char} {tokens : List Token} :
    scanLine line text = .ok tokens ↔
      ∃ words, tokens = words ++ [.terminator ⟨line, text.length⟩] ∧
        Tiling line text 0 text.length words := by
  constructor
  · intro scanned
    rcases @Scanner.exists_tiling line text 0 text rfl (Nat.zero_le _) with
      ⟨words, stop, ending, items, tiling, ends⟩
    rw [scanLine, items, mapM_id_append] at scanned
    cases ends with
    | whole =>
        cases scanned
        exact ⟨words, rfl, tiling⟩
    | fault => cases scanned
  · rintro ⟨words, rfl, tiling⟩
    rw [scanLine]
    exact (congrArg (List.mapM id) (tiling.rest_eq .whole)).trans (mapM_id_append words _)

end Scriptlet
