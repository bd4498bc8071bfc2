import Scriptlet.Token.Scanner
import Mathlib

/-! What a scanner gives: the tokens of a line in the order in which they stand there, then its
terminator. -/

namespace Scriptlet

/-! ## Lexemes -/

/-- The kinds that a lexeme can have. What a minus sign means is decided later. -/
def Kind.isLexical : Kind → Bool
  | .endOfInput | .terminator | .blank | .unary .negate => false
  | _ => true

/-- A text that belongs to a kind: only names, numbers and strings have a text of their own. -/
def Kind.Spells (kind : Kind) (text : String) : Prop :=
  match kind with
  | .identifier | .string | .integer | .decimal => True
  | .boolean => text = "true" ∨ text = "false"
  | _ => text = kind.label

namespace Lexeme

theorem spells_symbol {characters : List Char} {lexeme : Lexeme}
    (matched : symbol? characters = some lexeme) :
    lexeme.kind.isLexical ∧ lexeme.kind.Spells lexeme.text := by
  unfold symbol? at matched
  split at matched <;> cases matched <;> exact ⟨rfl, rfl⟩

theorem spells_word (first : Char) (rest : List Char) :
    (word first rest).kind.isLexical ∧ (word first rest).kind.Spells (word first rest).text := by
  generalize same : word first rest = lexeme
  rw [word] at same
  cases found : reservedWords.lookup (first :: rest.takeWhile (!endsWord ·)) with
  | none =>
      rw [found] at same
      cases same
      exact ⟨rfl, trivial⟩
  | some kind =>
      rw [found] at same
      cases same
      rcases List.lookup_eq_some_iff.mp found with ⟨before, after, whole, _⟩
      have reserved : (first :: rest.takeWhile (!endsWord ·), kind) ∈ reservedWords := by
        rw [whole]
        exact List.mem_append_right _ List.mem_cons_self
      generalize first :: rest.takeWhile (!endsWord ·) = spelling at reserved
      simp only [reservedWords, List.mem_cons, List.not_mem_nil, or_false, Prod.mk.injEq]
        at reserved
      rcases reserved with ⟨rfl, rfl⟩ | ⟨rfl, rfl⟩ | ⟨rfl, rfl⟩ | ⟨rfl, rfl⟩ | ⟨rfl, rfl⟩ |
        ⟨rfl, rfl⟩ | ⟨rfl, rfl⟩
      · exact ⟨rfl, .inl rfl⟩
      · exact ⟨rfl, .inr rfl⟩
      all_goals exact ⟨rfl, rfl⟩

theorem spells_number (first : Char) (rest : List Char) :
    (number first rest).kind.isLexical ∧
      (number first rest).kind.Spells (number first rest).text := by
  unfold number
  split
  · split
    · exact ⟨rfl, trivial⟩
    · exact ⟨rfl, trivial⟩
  · exact ⟨rfl, trivial⟩

/-- A lexeme has a kind that lexemes can have and a text that belongs to it. -/
theorem spells_longest {characters : List Char} {lexeme : Lexeme}
    (matched : longest? characters = some lexeme) :
    lexeme.kind.isLexical ∧ lexeme.kind.Spells lexeme.text := by
  cases characters with
  | nil => cases matched
  | cons first rest =>
      rw [longest?] at matched
      split at matched
      · cases matched
        exact spells_word first rest
      · split at matched
        · cases matched
          exact spells_number first rest
        · split at matched
          · unfold string? at matched
            split at matched <;> cases matched
            exact ⟨rfl, trivial⟩
          · exact spells_symbol matched

end Lexeme

/-! ## Lines -/

/-- The tokens of the rest of a line. -/
def scanFrom (line cursor : Nat) (characters : List Char) : Except SourceError (List Token) :=
  (Scanner.rest ⟨line, cursor, some characters⟩).mapM id

theorem scanLine_eq (line : Nat) (text : List Char) : scanLine line text = scanFrom line 0 text :=
  rfl

theorem Scanner.rest_of_next {scanner later : Scanner} {item : Except SourceError Token}
    (read : scanner.next = some (item, later)) : scanner.rest = item :: later.rest := by
  rw [rest]
  split
  · rename_i nothing
    rw [nothing] at read
    cases read
  · rename_i found
    rw [found] at read
    cases read
    rfl

theorem Scanner.rest_finished (line cursor : Nat) : rest ⟨line, cursor, none⟩ = [] := by
  rw [rest]
  rfl

section

variable {characters later : List Char} {first : Char} (line cursor : Nat)

theorem Scanner.rest_blank (blank : characters.dropWhile isSeparator = []) :
    rest ⟨line, cursor, some characters⟩ =
      [.ok (.terminator ⟨line, cursor + (characters.takeWhile isSeparator).length⟩)] := by
  have read : next ⟨line, cursor, some characters⟩ =
      some (.ok (.terminator ⟨line, cursor + (characters.takeWhile isSeparator).length⟩),
        ⟨line, cursor + (characters.takeWhile isSeparator).length, none⟩) := by
    simp [next, blank]
  rw [rest_of_next read, rest_finished]

theorem Scanner.rest_fault (found : characters.dropWhile isSeparator = first :: later)
    (unmatched : Lexeme.longest? (first :: later) = none) :
    rest ⟨line, cursor, some characters⟩ =
      [.error ⟨faultOf first, ⟨line, cursor + (characters.takeWhile isSeparator).length⟩⟩] := by
  have read : next ⟨line, cursor, some characters⟩ =
      some (.error ⟨faultOf first, ⟨line, cursor + (characters.takeWhile isSeparator).length⟩⟩,
        ⟨line, cursor + (characters.takeWhile isSeparator).length, none⟩) := by
    simp [next, found, unmatched]
  rw [rest_of_next read, rest_finished]

theorem Scanner.rest_lexeme (found : characters.dropWhile isSeparator = first :: later)
    {lexeme : Lexeme} (matched : Lexeme.longest? (first :: later) = some lexeme) :
    rest ⟨line, cursor, some characters⟩ =
      .ok ⟨lexeme.kind, lexeme.text,
          ⟨line, cursor + (characters.takeWhile isSeparator).length⟩⟩ ::
        rest ⟨line, cursor + (characters.takeWhile isSeparator).length + lexeme.spelling.length,
          some ((first :: later).drop lexeme.spelling.length)⟩ := by
  apply rest_of_next
  simp [next, found, matched]

theorem scanFrom_blank (blank : characters.dropWhile isSeparator = []) :
    scanFrom line cursor characters =
      .ok [.terminator ⟨line, cursor + (characters.takeWhile isSeparator).length⟩] := by
  rw [scanFrom, Scanner.rest_blank line cursor blank]
  rfl

theorem scanFrom_fault (found : characters.dropWhile isSeparator = first :: later)
    (unmatched : Lexeme.longest? (first :: later) = none) :
    scanFrom line cursor characters =
      .error ⟨Scanner.faultOf first,
        ⟨line, cursor + (characters.takeWhile isSeparator).length⟩⟩ := by
  rw [scanFrom, Scanner.rest_fault line cursor found unmatched]
  rfl

theorem scanFrom_lexeme (found : characters.dropWhile isSeparator = first :: later)
    {lexeme : Lexeme} (matched : Lexeme.longest? (first :: later) = some lexeme) :
    scanFrom line cursor characters =
      (⟨lexeme.kind, lexeme.text,
          ⟨line, cursor + (characters.takeWhile isSeparator).length⟩⟩ :: ·) <$>
        scanFrom line
          (cursor + (characters.takeWhile isSeparator).length + lexeme.spelling.length)
          ((first :: later).drop lexeme.spelling.length) := by
  rw [scanFrom, scanFrom, Scanner.rest_lexeme line cursor found matched, List.mapM_cons]
  cases (Scanner.rest _).mapM id <;> rfl

end

/-- A property of the rest of a line follows from what its first lexeme adds to it. -/
theorem scan_induction {motive : Nat → List Char → Prop}
    (blank : ∀ cursor characters, characters.dropWhile isSeparator = [] → motive cursor characters)
    (fault : ∀ cursor characters first later, characters.dropWhile isSeparator = first :: later →
      Lexeme.longest? (first :: later) = none → motive cursor characters)
    (lexeme : ∀ cursor characters first later lexeme,
      characters.dropWhile isSeparator = first :: later →
      Lexeme.longest? (first :: later) = some lexeme →
      motive (cursor + (characters.takeWhile isSeparator).length + lexeme.spelling.length)
        ((first :: later).drop lexeme.spelling.length) → motive cursor characters)
    (cursor : Nat) (characters : List Char) : motive cursor characters := by
  cases found : characters.dropWhile isSeparator with
  | nil => exact blank cursor characters found
  | cons first later =>
      cases matched : Lexeme.longest? (first :: later) with
      | none => exact fault cursor characters first later found matched
      | some here =>
          exact lexeme cursor characters first later here found matched
            (scan_induction blank fault lexeme _ _)
termination_by characters.length
decreasing_by
  have consumed := List.length_pos_iff.mpr (Lexeme.longest?_spelling_ne_nil matched)
  have shorter := length_lt_of_dropWhile_eq_cons found
  simp only [List.length_drop, List.length_cons]
  omega

/-- Whether a token starts in front of another. -/
def Token.Before (earlier later : Token) : Prop :=
  earlier.position.line < later.position.line ∨
    earlier.position.line = later.position.line ∧
      earlier.position.cursor < later.position.cursor

theorem Token.Before.asymm {earlier later : Token} (before : earlier.Before later) :
    ¬later.Before earlier := by
  unfold Before at *
  omega

/-- What the tokens of the rest of a line have in common: they end with the terminator, all others
are lexemes, and they stand in order. -/
structure LineTokens (line cursor : Nat) (tokens : List Token) : Prop where
  ending : ∃ words position, tokens = words ++ [.terminator position] ∧
    ∀ token ∈ words, token.kind.isLexical ∧ token.kind.Spells token.text
  placed : ∀ token ∈ tokens, token.position.line = line ∧ cursor ≤ token.position.cursor
  ordered : tokens.Pairwise Token.Before

theorem LineTokens.cons {line cursor start : Nat} {tokens : List Token} {token : Token}
    (rest : LineTokens line start tokens)
    (lexical : token.kind.isLexical ∧ token.kind.Spells token.text)
    (here : token.position.line = line ∧ cursor ≤ token.position.cursor)
    (before : token.position.cursor < start) : LineTokens line cursor (token :: tokens) := by
  rcases rest with ⟨⟨words, position, whole, lexicals⟩, placed, ordered⟩
  refine ⟨⟨token :: words, position, ?_, ?_⟩, ?_, ?_⟩
  · rw [whole]
    rfl
  · intro selected member
    rcases List.mem_cons.mp member with rfl | member
    · exact lexical
    · exact lexicals selected member
  · intro selected member
    rcases List.mem_cons.mp member with rfl | member
    · exact here
    · rcases placed selected member with ⟨same, further⟩
      exact ⟨same, by omega⟩
  · rw [List.pairwise_cons]
    refine ⟨?_, ordered⟩
    intro selected member
    rcases placed selected member with ⟨same, further⟩
    exact .inr ⟨here.1.trans same.symm, by omega⟩

theorem lineTokens_scanFrom {line cursor : Nat} {characters : List Char} {tokens : List Token}
    (scanned : scanFrom line cursor characters = .ok tokens) : LineTokens line cursor tokens := by
  induction cursor, characters using scan_induction generalizing tokens with
  | blank cursor characters blank =>
      rw [scanFrom_blank line cursor blank] at scanned
      cases scanned
      refine ⟨⟨[], _, rfl, fun _ none => nomatch none⟩, ?_, ?_⟩
      · intro token member
        cases List.mem_singleton.mp member
        exact ⟨rfl, Nat.le_add_right _ _⟩
      · exact List.pairwise_singleton _ _
  | fault cursor characters first later found unmatched =>
      rw [scanFrom_fault line cursor found unmatched] at scanned
      cases scanned
  | lexeme cursor characters first later lexeme found matched induction =>
      rw [scanFrom_lexeme line cursor found matched] at scanned
      cases rest : scanFrom line
          (cursor + (characters.takeWhile isSeparator).length + lexeme.spelling.length)
          ((first :: later).drop lexeme.spelling.length) with
      | error error =>
          rw [rest] at scanned
          cases scanned
      | ok following =>
          rw [rest] at scanned
          cases scanned
          have consumed := List.length_pos_iff.mpr (Lexeme.longest?_spelling_ne_nil matched)
          exact (induction rest).cons (Lexeme.spells_longest matched)
            ⟨rfl, Nat.le_add_right _ _⟩ (Nat.lt_add_of_pos_right consumed)

end Scriptlet
