import Scriptlet.Proofs.Printing.Lexeme

/-! Patterns. A kind of token is written in one of the ways its pattern allows, and the lexeme at
the start of some characters is the longest that any pattern matches there. -/

namespace Scriptlet

/-! ## What the patterns match -/

/-- Operators and brackets, each with its only spelling. -/
def Lexeme.symbols : List (List Char × Kind) :=
  [(":=".toList, .assign), ("<=".toList, .binary .lessEqual), (">=".toList, .binary .greaterEqual),
    ("!=".toList, .binary .notEqual), ("<".toList, .binary .less), (">".toList, .binary .greater),
    ("=".toList, .binary .equal), ("!".toList, .unary .not), ("+".toList, .binary .add),
    ("-".toList, .binary .subtract), ("*".toList, .binary .multiply), ("/".toList, .binary .divide),
    ("^".toList, .binary .power), ("&".toList, .binary .and), ("|".toList, .binary .or),
    ("(".toList, .openParen), (")".toList, .closeParen), ("\x7b".toList, .openBlock),
    ("\x7d".toList, .closeBlock)]

/-- The spellings of a kind. Patterns overlap: a reserved word is also spelled as a name is. -/
inductive Kind.Matches : Kind → List Char → Prop where
  | name {first : Char} {rest : List Char} (letter : isLetter first)
      (inside : ∀ character ∈ rest, Lexeme.endsWord character = false) :
      Matches .identifier (first :: rest)
  | string {content : List Char} (plain : ∀ character ∈ content, character ≠ '"') :
      Matches .string (Lexeme.quoted content)
  | integer {digits : List Char} (some : digits ≠ [])
      (each : ∀ character ∈ digits, character.isDigit) : Matches .integer digits
  | decimal {whole fraction : List Char} (someWhole : whole ≠ [])
      (eachWhole : ∀ character ∈ whole, character.isDigit) (someFraction : fraction ≠ [])
      (eachFraction : ∀ character ∈ fraction, character.isDigit) :
      Matches .decimal (whole ++ '.' :: fraction)
  | reserved {kind : Kind} {spelling : List Char}
      (member : (spelling, kind) ∈ Lexeme.reservedWords) : Matches kind spelling
  | symbol {kind : Kind} {spelling : List Char} (member : (spelling, kind) ∈ Lexeme.symbols) :
      Matches kind spelling

/-- The lexeme at the start of the characters. No pattern matches more of them; where two match as
much, the one that is not a name is meant. -/
structure Lexeme.Longest (characters : List Char) (lexeme : Lexeme) : Prop where
  here : lexeme.spelling <+: characters
  matched : lexeme.kind.Matches lexeme.spelling
  longest : ∀ kind spelling, spelling <+: characters → Kind.Matches kind spelling →
    spelling.length ≤ lexeme.spelling.length
  preferred : ∀ kind, Kind.Matches kind lexeme.spelling → kind ≠ .identifier →
    kind = lexeme.kind

/-! ## First characters

The first character of a spelling tells which patterns can match it. -/

inductive Lexeme.Family where
  | word | number | quote | sign
deriving DecidableEq

def Lexeme.familyOf (character : Char) : Family :=
  if isLetter character then .word
  else if character.isDigit then .number
  else if character = '"' then .quote
  else .sign

def Kind.family : Kind → Lexeme.Family
  | .identifier | .boolean | .command _ | .control _ => .word
  | .integer | .decimal => .number
  | .string => .quote
  | _ => .sign

namespace Lexeme

theorem familyOf_letter {character : Char} (letter : isLetter character) :
    familyOf character = .word := by
  rw [familyOf, if_pos letter]

theorem familyOf_digit {character : Char} (digit : character.isDigit) :
    familyOf character = .number := by
  rw [familyOf, not_isLetter_of_isDigit digit, if_neg Bool.false_ne_true, if_pos digit]

theorem family_reserved : ∀ entry ∈ reservedWords,
    entry.1.head?.map familyOf = some .word ∧ entry.2.family = .word := by
  decide

theorem family_symbol : ∀ entry ∈ symbols,
    entry.1.head?.map familyOf = some .sign ∧ entry.2.family = .sign := by
  decide

theorem reserved_unique {spelling : List Char} {kind other : Kind}
    (one : (spelling, kind) ∈ reservedWords) (another : (spelling, other) ∈ reservedWords) :
    kind = other := by
  have distinct : (reservedWords.map Prod.fst).Nodup := by decide
  exact congrArg Prod.snd (List.inj_on_of_nodup_map distinct one another rfl)

theorem symbol_unique {spelling : List Char} {kind other : Kind}
    (one : (spelling, kind) ∈ symbols) (another : (spelling, other) ∈ symbols) : kind = other := by
  have distinct : (symbols.map Prod.fst).Nodup := by decide
  exact congrArg Prod.snd (List.inj_on_of_nodup_map distinct one another rfl)

end Lexeme

namespace Kind.Matches

open Lexeme

variable {kind other : Kind} {spelling characters : List Char}

theorem family (matched : kind.Matches spelling) :
    spelling.head?.map familyOf = some kind.family := by
  cases matched with
  | name letter inside => exact congrArg some (familyOf_letter letter)
  | string plain => rfl
  | integer some each =>
      cases spelling with
      | nil => exact absurd rfl some
      | cons first rest => exact congrArg _ (familyOf_digit (each first List.mem_cons_self))
  | @decimal whole fraction someWhole eachWhole =>
      cases whole with
      | nil => exact absurd rfl someWhole
      | cons first rest => exact congrArg _ (familyOf_digit (eachWhole first List.mem_cons_self))
  | reserved member => rw [(family_reserved _ member).1, (family_reserved _ member).2]
  | symbol member => rw [(family_symbol _ member).1, (family_symbol _ member).2]

theorem ne_nil (matched : kind.Matches spelling) : spelling ≠ [] := by
  intro empty
  have first := matched.family
  rw [empty] at first
  cases first

/-- What is known of a spelling that is not a name, by its family. -/
theorem cases_family (matched : kind.Matches spelling) (notName : kind ≠ .identifier) :
    match kind.family with
    | .word => (spelling, kind) ∈ reservedWords
    | .number => kind = .integer ∧ '.' ∉ spelling ∨ kind = .decimal ∧ '.' ∈ spelling
    | .quote => kind = .string
    | .sign => (spelling, kind) ∈ symbols := by
  cases matched with
  | name => exact absurd rfl notName
  | string => rfl
  | integer some each => exact .inl ⟨rfl, fun point => Bool.noConfusion (each '.' point)⟩
  | decimal => exact .inr ⟨rfl, by simp⟩
  | reserved member =>
      rw [(family_reserved _ member).2]
      exact member
  | symbol member =>
      rw [(family_symbol _ member).2]
      exact member

/-- No two patterns match one spelling, except that names are spelled as reserved words are. -/
theorem unique (one : kind.Matches spelling) (another : other.Matches spelling)
    (notName : kind ≠ .identifier) (notNameToo : other ≠ .identifier) : kind = other := by
  have same : kind.family = other.family := by
    have first := one.family
    rw [another.family] at first
    exact (Option.some.inj first).symm
  have here := one.cases_family notName
  have there := another.cases_family notNameToo
  rw [← same] at there
  generalize kind.family = family at here there
  cases family with
  | word => exact reserved_unique here there
  | sign => exact symbol_unique here there
  | quote => rw [here, there]
  | number =>
      rcases here with ⟨isInteger, noPoint⟩ | ⟨isDecimal, point⟩
      · rcases there with ⟨isIntegerToo, _⟩ | ⟨_, point⟩
        · rw [isInteger, isIntegerToo]
        · exact absurd point noPoint
      · rcases there with ⟨_, noPoint⟩ | ⟨isDecimalToo, _⟩
        · exact absurd point noPoint
        · rw [isDecimal, isDecimalToo]

end Kind.Matches

namespace Lexeme

/-! ## What is read matches -/

theorem mem_of_lookup {words : List (List Char × Kind)} {spelling : List Char} {kind : Kind}
    (found : words.lookup spelling = some kind) : (spelling, kind) ∈ words := by
  rcases List.lookup_eq_some_iff.mp found with ⟨before, after, whole, _⟩
  rw [whole]
  exact List.mem_append_right _ List.mem_cons_self

theorem matches_word {first : Char} (letter : isLetter first) (rest : List Char) :
    (word first rest).kind.Matches (word first rest).spelling := by
  rw [word]
  cases found : reservedWords.lookup (first :: rest.takeWhile (!endsWord ·)) with
  | some kind => exact .reserved (mem_of_lookup found)
  | none =>
      apply Kind.Matches.name letter
      intro character member
      simpa using List.mem_takeWhile_imp member

theorem matches_number {first : Char} (digit : first.isDigit) (rest : List Char) :
    (number first rest).kind.Matches (number first rest).spelling ∧
      (number first rest).spelling <+: first :: rest ∧
      first :: rest.takeWhile Char.isDigit <+: (number first rest).spelling := by
  have digits : ∀ character ∈ first :: rest.takeWhile Char.isDigit, character.isDigit := by
    intro character member
    rcases List.mem_cons.mp member with rfl | member
    · exact digit
    · exact List.mem_takeWhile_imp member
  have whole := List.takeWhile_append_dropWhile (p := Char.isDigit) (l := rest)
  have integral : first :: rest.takeWhile Char.isDigit <+: first :: rest :=
    List.cons_prefix_cons.mpr ⟨rfl, List.takeWhile_prefix _⟩
  rw [number]
  split
  · rename_i fraction behind
    split
    · exact ⟨.integer (by simp) digits, integral, List.prefix_rfl⟩
    · rename_i someDigits
      refine ⟨.decimal (by simp) digits someDigits ?_, ?_, List.prefix_append _ _⟩
      · exact fun character member => List.mem_takeWhile_imp member
      · have fractional := List.takeWhile_prefix (l := fraction) Char.isDigit
        conv_rhs => rw [← whole, behind]
        simpa using fractional
  · exact ⟨.integer (by simp) digits, integral, List.prefix_rfl⟩

theorem string?_eq_some {rest : List Char} {lexeme : Lexeme}
    (matched : string? rest = some lexeme) :
    lexeme.kind.Matches lexeme.spelling ∧ lexeme.spelling <+: '"' :: rest := by
  unfold string? at matched
  split at matched
  · rename_i closed
    cases matched
    rcases List.eq_append_cons_of_mem (List.contains_iff_mem.mp closed) with
      ⟨content, later, whole, plain⟩
    have stops : ∀ next ∈ ('"' :: later).head?, (next != '"') = false := by
      rintro _ ⟨⟩
      rfl
    have pass : ∀ character ∈ content, (character != '"') = true := by
      intro character member
      have different : character ≠ '"' := fun same => plain (same ▸ member)
      simpa using different
    rw [whole, (takeWhile_stops pass stops).1]
    constructor
    · exact .string fun character member same => plain (same ▸ member)
    · exact ⟨later, by simp⟩
  · cases matched

theorem symbol?_eq_some {characters : List Char} {lexeme : Lexeme}
    (matched : symbol? characters = some lexeme) :
    (lexeme.spelling, lexeme.kind) ∈ symbols ∧ lexeme.spelling <+: characters := by
  unfold symbol? at matched
  split at matched <;> cases matched
  all_goals exact ⟨by decide, by simp⟩

theorem matches_longest {characters : List Char} {lexeme : Lexeme}
    (read : longest? characters = some lexeme) :
    lexeme.kind.Matches lexeme.spelling ∧ lexeme.spelling <+: characters := by
  cases characters with
  | nil => cases read
  | cons first rest =>
      rw [longest?] at read
      split at read
      · rename_i letter
        cases read
        exact ⟨matches_word letter rest,
          List.cons_prefix_cons.mpr ⟨rfl, List.takeWhile_prefix _⟩⟩
      · split at read
        · rename_i digit
          cases read
          have number := matches_number digit rest
          exact ⟨number.1, number.2.1⟩
        · split at read
          · rename_i quote
            rw [quote]
            exact string?_eq_some read
          · have found := symbol?_eq_some read
            exact ⟨.symbol found.1, found.2⟩

/-! ## What matches is read

Where a pattern matches, something at least as long is read. -/

theorem longest?_of_name {first : Char} {rest : List Char} (letter : isLetter first)
    (inside : ∀ character ∈ rest, endsWord character = false) (later : List Char) :
    ∃ lexeme, longest? (first :: rest ++ later) = some lexeme ∧
      (first :: rest).length ≤ lexeme.spelling.length := by
  have pass : ∀ character ∈ rest, (!endsWord character) = true := by
    intro character member
    rw [inside character member]
    rfl
  refine ⟨word first (rest ++ later), ?_, ?_⟩
  · rw [List.cons_append, longest?, if_pos letter]
  · rw [word, List.takeWhile_append_of_pos pass]
    simp

theorem longest?_of_integer {digits : List Char} (some : digits ≠ [])
    (each : ∀ character ∈ digits, character.isDigit) (later : List Char) :
    ∃ lexeme, longest? (digits ++ later) = Option.some lexeme ∧
      digits.length ≤ lexeme.spelling.length := by
  cases digits with
  | nil => exact absurd rfl some
  | cons first rest =>
      have digit := each first List.mem_cons_self
      refine ⟨number first (rest ++ later), longest?_number digit _, ?_⟩
      have integral := (matches_number digit (rest ++ later)).2.2.length_le
      rw [List.takeWhile_append_of_pos fun character member =>
        each character (List.mem_cons_of_mem _ member)] at integral
      simp only [List.length_cons, List.length_append] at integral ⊢
      omega

theorem longest?_of_decimal {whole fraction : List Char} (someWhole : whole ≠ [])
    (eachWhole : ∀ character ∈ whole, character.isDigit) (someFraction : fraction ≠ [])
    (eachFraction : ∀ character ∈ fraction, character.isDigit) (later : List Char) :
    ∃ lexeme, longest? (whole ++ '.' :: fraction ++ later) = some lexeme ∧
      (whole ++ '.' :: fraction).length ≤ lexeme.spelling.length := by
  cases whole with
  | nil => exact absurd rfl someWhole
  | cons first rest =>
      have stops : ∀ next ∈ ('.' :: (fraction ++ later)).head?, next.isDigit = false := by
        rintro _ ⟨⟩
        rfl
      rcases takeWhile_stops (fun character member =>
          eachWhole character (List.mem_cons_of_mem _ member)) stops with ⟨integral, behind⟩
      refine ⟨⟨.decimal, first :: rest ++ '.' :: (fraction ++ later).takeWhile Char.isDigit⟩,
        ?_, ?_⟩
      · rw [List.append_assoc, List.cons_append, List.cons_append,
          longest?_number (eachWhole first List.mem_cons_self), number, integral, behind]
        split
        · rename_i same
          cases same
          rw [List.takeWhile_append_of_pos eachFraction]
          cases fraction with
          | nil => exact absurd rfl someFraction
          | cons => rfl
        · rename_i different
          exact absurd rfl (different _)
      · rw [List.takeWhile_append_of_pos eachFraction]
        simp

theorem longest?_of_symbol {spelling : List Char} {kind : Kind}
    (member : (spelling, kind) ∈ symbols) (later : List Char) :
    ∃ lexeme, longest? (spelling ++ later) = some lexeme ∧
      spelling.length ≤ lexeme.spelling.length := by
  have proper : ∀ entry ∈ symbols, entry.1 = entry.2.label.toList ∧ entry.2.isWord = false ∧
      (entry.2.isSymbol ∧ entry.2.isLexical ∨ entry.2.isBracket) := by decide
  rcases proper _ member with ⟨label, notWord, sign⟩
  dsimp only at label notWord sign
  by_cases ends : ∀ next ∈ later.head?, next ≠ '='
  · refine ⟨⟨kind, spelling⟩, ?_, Nat.le_refl _⟩
    rw [label]
    rcases sign with ⟨isSymbol, lexical⟩ | isBracket
    · exact longest?_symbol isSymbol lexical fun next found =>
        Kind.endsBefore_of_ne_equals (ends next found) notWord
    · exact longest?_bracket isBracket later
  -- In front of an equals sign a longer operator may be read; either way it is read at once.
  · cases later with
    | nil => exact absurd (fun _ none => absurd none (Option.not_mem_none _)) ends
    | cons next rest =>
        have equals : next = '=' := by simpa using ends
        rw [equals]
        simp only [symbols, List.mem_cons, List.not_mem_nil, or_false, Prod.mk.injEq] at member
        rcases member with ⟨rfl, _⟩ | ⟨rfl, _⟩ | ⟨rfl, _⟩ | ⟨rfl, _⟩ | ⟨rfl, _⟩ | ⟨rfl, _⟩ |
          ⟨rfl, _⟩ | ⟨rfl, _⟩ | ⟨rfl, _⟩ | ⟨rfl, _⟩ | ⟨rfl, _⟩ | ⟨rfl, _⟩ | ⟨rfl, _⟩ | ⟨rfl, _⟩ |
          ⟨rfl, _⟩ | ⟨rfl, _⟩ | ⟨rfl, _⟩ | ⟨rfl, _⟩ | ⟨rfl, _⟩
        all_goals exact ⟨_, rfl, by decide⟩

theorem longest?_of_matches {kind : Kind} {spelling characters : List Char}
    (matched : kind.Matches spelling) (here : spelling <+: characters) :
    ∃ lexeme, longest? characters = some lexeme ∧ spelling.length ≤ lexeme.spelling.length := by
  rcases here with ⟨later, rfl⟩
  cases matched with
  | name letter inside => exact longest?_of_name letter inside later
  | string plain => exact ⟨_, longest?_quoted plain, Nat.le_refl _⟩
  | integer some each => exact longest?_of_integer some each later
  | decimal someWhole eachWhole someFraction eachFraction =>
      exact longest?_of_decimal someWhole eachWhole someFraction eachFraction later
  | reserved member =>
      rcases exists_of_reserved member with ⟨first, rest, word⟩
      rw [word.whole]
      exact longest?_of_name word.letter word.inside later
  | symbol member => exact longest?_of_symbol member later

/-! ## The longest lexeme -/

theorem longest?_of_family {characters : List Char} {lexeme : Lexeme}
    (read : longest? characters = some lexeme) (isWord : lexeme.kind.family = .word) :
    ∃ first rest, characters = first :: rest ∧ isLetter first ∧ lexeme = word first rest := by
  rcases matches_longest read with ⟨matched, later, rfl⟩
  cases whole : lexeme.spelling with
  | nil => exact absurd whole matched.ne_nil
  | cons first rest =>
      have family := matched.family
      rw [whole, isWord] at family
      have letter : isLetter first := by
        by_contra notLetter
        rw [List.head?_cons, Option.map_some, familyOf, if_neg notLetter] at family
        split at family
        · cases family
        · split at family <;> cases family
      rw [whole, List.cons_append, longest?, if_pos letter] at read
      exact ⟨first, rest ++ later, rfl, letter, (Option.some.inj read).symm⟩

/-- A word has the kind that it is reserved for. -/
theorem word_kind_of_reserved {first : Char} {rest : List Char} {kind : Kind}
    (reserved : ((word first rest).spelling, kind) ∈ reservedWords) :
    (word first rest).kind = kind := by
  rw [word] at reserved ⊢
  have some : (reservedWords.lookup (first :: rest.takeWhile (!endsWord ·))).isSome :=
    List.lookup_isSome_iff.mpr ⟨_, reserved, beq_self_eq_true _⟩
  rcases Option.isSome_iff_exists.mp some with ⟨found, here⟩
  rw [here]
  exact reserved_unique (mem_of_lookup here) reserved

theorem longest_of_longest? {characters : List Char} {lexeme : Lexeme}
    (read : longest? characters = some lexeme) : lexeme.Longest characters where
  here := (matches_longest read).2
  matched := (matches_longest read).1
  longest := by
    intro kind spelling here matched
    rcases longest?_of_matches matched here with ⟨found, readToo, longer⟩
    rw [read] at readToo
    cases readToo
    exact longer
  preferred := by
    intro kind matched notName
    by_cases isName : lexeme.kind = .identifier
    · have family := (matches_longest read).1.family
      rw [matched.family, isName] at family
      have reserved := matched.cases_family notName
      rw [Option.some.inj family] at reserved
      rcases longest?_of_family read (congrArg Kind.family isName) with ⟨first, rest, _, _, rfl⟩
      exact (word_kind_of_reserved reserved).symm
    · exact matched.unique (matches_longest read).1 notName isName

theorem Longest.unique {characters : List Char} {lexeme other : Lexeme}
    (one : lexeme.Longest characters) (another : other.Longest characters) : lexeme = other := by
  have shorter := another.longest _ _ one.here one.matched
  have longer := one.longest _ _ another.here another.matched
  have spelling : lexeme.spelling = other.spelling :=
    (List.prefix_of_prefix_length_le one.here another.here shorter).eq_of_length (by omega)
  have kind : lexeme.kind = other.kind := by
    by_cases isName : lexeme.kind = .identifier
    · by_contra different
      have notName : other.kind ≠ .identifier := fun same => different (isName.trans same.symm)
      exact different (one.preferred _ (spelling ▸ another.matched) notName).symm
    · exact another.preferred _ (spelling ▸ one.matched) isName
  rcases lexeme with ⟨_, _⟩
  rcases other with ⟨_, _⟩
  cases kind
  cases spelling
  rfl

/-- What is read is the longest that any pattern matches. -/
theorem longest?_eq_some_iff {characters : List Char} {lexeme : Lexeme} :
    longest? characters = some lexeme ↔ lexeme.Longest characters := by
  constructor
  · exact longest_of_longest?
  · intro longest
    rcases longest?_of_matches longest.matched longest.here with ⟨found, read, _⟩
    rw [read, (longest_of_longest? read).unique longest]

/-- Nothing is read exactly where no pattern matches. -/
theorem longest?_eq_none_iff {characters : List Char} :
    longest? characters = none ↔
      ∀ kind spelling, spelling <+: characters → ¬Kind.Matches kind spelling := by
  constructor
  · intro unread kind spelling here matched
    rcases longest?_of_matches matched here with ⟨found, read, _⟩
    rw [unread] at read
    cases read
  · intro unmatched
    cases read : longest? characters with
    | none => rfl
    | some lexeme =>
        have found := matches_longest read
        exact absurd found.1 (unmatched _ _ found.2)

end Lexeme

end Scriptlet
