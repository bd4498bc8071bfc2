import Scriptlet.Proofs.Scanning

/-! Lexemes next to their neighbours. A lexeme is read back from the characters it is written with,
as long as nothing that would continue it stands right behind it. -/

namespace Scriptlet

namespace Lexeme

/-! ## Shapes -/

/-- One digit or more. -/
def isInteger (spelling : List Char) : Bool :=
  !spelling.isEmpty && spelling.all Char.isDigit

/-- Digits, a point and digits. -/
def isDecimal (spelling : List Char) : Bool :=
  match spelling.dropWhile Char.isDigit with
  | '.' :: fraction => isInteger (spelling.takeWhile Char.isDigit) && isInteger fraction
  | _ => false

/-- A letter and then nothing that ends a word, unless the whole is reserved. -/
def isName : List Char → Bool
  | [] => false
  | first :: rest =>
      isLetter first && rest.all (!endsWord ·) && (reservedWords.lookup (first :: rest)).isNone

/-- The content of a string between its quotes. -/
def quoted (content : List Char) : List Char :=
  '"' :: content ++ ['"']

end Lexeme

/-! Two words run together unless something stands between them, and so may two operators. A bracket
or a quote keeps apart what is on its sides. -/

def Kind.isWord : Kind → Bool
  | .identifier | .integer | .decimal | .boolean | .command _ | .control _ => true
  | _ => false

def Kind.isSymbol : Kind → Bool
  | .binary _ | .unary _ | .assign => true
  | _ => false

def Kind.isBracket : Kind → Bool
  | .openParen | .closeParen | .openBlock | .closeBlock => true
  | _ => false

def Kind.clashes (earlier later : Kind) : Bool :=
  earlier.isWord && later.isWord || earlier.isSymbol && later.isSymbol

/-- Whether a lexeme of this kind is complete in front of the character, whatever its spelling. -/
def Kind.endsBefore (kind : Kind) (next : Char) : Bool :=
  match kind with
  | .identifier | .boolean | .command _ | .control _ => Lexeme.endsWord next
  | .integer | .decimal => !next.isDigit && next != '.'
  | .binary _ | .unary _ | .assign => next != '='
  | _ => true

namespace Lexeme

/-- A lexeme that is written as its kind is. -/
inductive Proper : Lexeme → Prop where
  | name {spelling : List Char} (shape : isName spelling) : Proper ⟨.identifier, spelling⟩
  | integer {spelling : List Char} (shape : isInteger spelling) : Proper ⟨.integer, spelling⟩
  | decimal {spelling : List Char} (shape : isDecimal spelling) : Proper ⟨.decimal, spelling⟩
  | string {content : List Char} (plain : ∀ character ∈ content, character ≠ '"')
      (unbroken : ∀ character ∈ content, character ≠ '\n') : Proper ⟨.string, quoted content⟩
  | reserved {spelling : List Char} {kind : Kind} (member : (spelling, kind) ∈ reservedWords) :
      Proper ⟨kind, spelling⟩
  | symbol {kind : Kind} (isSymbol : kind.isSymbol) (lexical : kind.isLexical) :
      Proper ⟨kind, kind.label.toList⟩
  | bracket {kind : Kind} (isBracket : kind.isBracket) : Proper ⟨kind, kind.label.toList⟩

/-! ## Characters -/

theorem not_isLetter_of_isDigit {character : Char} (digit : character.isDigit) :
    isLetter character = false := by
  have below : character.toNat < 0x41 := by
    simp only [Char.isDigit, Bool.and_eq_true, decide_eq_true_eq] at digit
    exact Nat.lt_of_le_of_lt (UInt32.le_iff_toNat_le.mp digit.2) (by decide)
  exact if_pos below

theorem ne_of_isLetter {character other : Char} (letter : isLetter character)
    (notLetter : isLetter other = false) : character ≠ other := by
  rintro rfl
  rw [notLetter] at letter
  cases letter

theorem ne_of_isDigit {character other : Char} (digit : character.isDigit)
    (notDigit : other.isDigit = false) : character ≠ other := by
  rintro rfl
  rw [notDigit] at digit
  cases digit

theorem ne_of_not_endsWord {character other : Char} (inside : endsWord character = false)
    (ends : endsWord other) : character ≠ other := by
  rintro rfl
  rw [ends] at inside
  cases inside

theorem isSeparator_eq_false {character : Char} (space : character ≠ ' ') (tab : character ≠ '\t')
    (carriageReturn : character ≠ '\r') (formFeed : character ≠ '\x0c') :
    isSeparator character = false := by
  simp [isSeparator, space, tab, carriageReturn, formFeed]

end Lexeme

/-- A character that ends words and numbers ends every lexeme, except that an equals sign may
continue an operator. -/
theorem Kind.endsBefore_of_endsWord {character : Char} (ends : Lexeme.endsWord character)
    (notDigit : character.isDigit = false) (notPoint : character ≠ '.') {kind : Kind}
    (other : kind.isSymbol = false ∨ character ≠ '=') : kind.endsBefore character := by
  cases kind with
  | identifier | boolean | command | control => exact ends
  | integer | decimal => simp [endsBefore, notDigit, notPoint]
  | binary | unary | assign => simpa [endsBefore, isSymbol] using other
  | _ => rfl

theorem Kind.endsBefore_of_isSeparator {character : Char} (separates : isSeparator character)
    (kind : Kind) : kind.endsBefore character := by
  simp only [isSeparator, Bool.or_eq_true, beq_iff_eq] at separates
  rcases separates with ((rfl | rfl) | rfl) | rfl
  all_goals exact endsBefore_of_endsWord (by decide) (by decide) (by decide) (.inr (by decide))

/-- A word begins with a letter or a digit, which continues nothing but another word. -/
theorem Kind.endsBefore_of_ne_equals {character : Char} (different : character ≠ '=') {kind : Kind}
    (other : kind.isWord = false) : kind.endsBefore character := by
  cases kind with
  | identifier | integer | decimal | boolean | command | control => cases other
  | binary | unary | assign => simp [endsBefore, different]
  | _ => rfl

namespace Lexeme

/-! ## Reading back -/

theorem takeWhile_stops {test : α → Bool} {items later : List α}
    (pass : ∀ item ∈ items, test item) (stops : ∀ next ∈ later.head?, test next = false) :
    (items ++ later).takeWhile test = items ∧ (items ++ later).dropWhile test = later := by
  rw [List.takeWhile_append_of_pos pass, List.dropWhile_append_of_pos pass]
  cases later with
  | nil => exact ⟨List.append_nil _, rfl⟩
  | cons next rest =>
      have stopped := stops next rfl
      rw [List.takeWhile_cons_of_neg (by simp [stopped]),
        List.dropWhile_cons_of_neg (by simp [stopped])]
      exact ⟨List.append_nil _, rfl⟩

theorem longest?_number {first : Char} (digit : first.isDigit) (characters : List Char) :
    longest? (first :: characters) = some (number first characters) := by
  rw [longest?, not_isLetter_of_isDigit digit, if_neg Bool.false_ne_true, if_pos digit]

/-- A word of the kind that its spelling is looked up as. -/
structure IsWord (spelling : List Char) (kind : Kind) (first : Char) (rest : List Char) : Prop where
  whole : spelling = first :: rest
  letter : isLetter first
  inside : ∀ character ∈ rest, endsWord character = false
  found : (reservedWords.lookup spelling).getD .identifier = kind
  ends : kind.endsBefore = endsWord
  isWord : kind.isWord

theorem exists_of_isName {spelling : List Char} (shape : isName spelling) :
    ∃ first rest, IsWord spelling .identifier first rest := by
  cases spelling with
  | nil => cases shape
  | cons first rest =>
      rw [isName, Bool.and_eq_true, Bool.and_eq_true, List.all_eq_true,
        Option.isNone_iff_eq_none] at shape
      rcases shape with ⟨⟨letter, inside⟩, notReserved⟩
      refine ⟨first, rest, rfl, letter, ?_, ?_, rfl, rfl⟩
      · intro character member
        simpa using inside character member
      · rw [notReserved]
        rfl

theorem exists_of_reserved {spelling : List Char} {kind : Kind}
    (member : (spelling, kind) ∈ reservedWords) :
    ∃ first rest, IsWord spelling kind first rest := by
  have inside {rest : List Char} (all : rest.all (!endsWord ·)) :
      ∀ character ∈ rest, endsWord character = false := by
    simpa using all
  simp only [reservedWords, List.mem_cons, List.not_mem_nil, or_false, Prod.mk.injEq] at member
  rcases member with ⟨rfl, rfl⟩ | ⟨rfl, rfl⟩ | ⟨rfl, rfl⟩ | ⟨rfl, rfl⟩ | ⟨rfl, rfl⟩ | ⟨rfl, rfl⟩ |
    ⟨rfl, rfl⟩
  all_goals exact ⟨_, _, rfl, by decide, inside rfl, by decide, rfl, rfl⟩

theorem IsWord.longest {spelling rest later : List Char} {kind : Kind} {first : Char}
    (word : IsWord spelling kind first rest)
    (ends : ∀ next ∈ later.head?, kind.endsBefore next) :
    longest? (spelling ++ later) = some ⟨kind, spelling⟩ := by
  have pass : ∀ character ∈ rest, (!endsWord character) = true := by
    intro character member
    rw [word.inside character member]
    rfl
  have stops : ∀ next ∈ later.head?, (!endsWord next) = false := by
    intro next member
    rw [← word.ends, ends next member]
    rfl
  have found := word.found
  rw [word.whole] at found ⊢
  rw [List.cons_append, longest?, if_pos word.letter, Lexeme.word, (takeWhile_stops pass stops).1,
    found]

theorem endsNumber {kind : Kind} (number : kind = .integer ∨ kind = .decimal) {later : List Char}
    (ends : ∀ next ∈ later.head?, kind.endsBefore next) :
    (∀ next ∈ later.head?, next.isDigit = false) ∧ ∀ rest, later ≠ '.' :: rest := by
  have both : ∀ next ∈ later.head?, next.isDigit = false ∧ next ≠ '.' := by
    intro next member
    have here := ends next member
    rcases number with rfl | rfl
    all_goals simpa [Kind.endsBefore] using here
  refine ⟨fun next member => (both next member).1, ?_⟩
  rintro rest rfl
  exact (both '.' rfl).2 rfl

theorem longest?_integer {spelling later : List Char} (shape : isInteger spelling)
    (ends : ∀ next ∈ later.head?, Kind.integer.endsBefore next) :
    longest? (spelling ++ later) = some ⟨.integer, spelling⟩ := by
  rcases endsNumber (.inl rfl) ends with ⟨notDigit, notPoint⟩
  cases spelling with
  | nil => cases shape
  | cons first rest =>
      simp only [isInteger, List.isEmpty_cons, Bool.not_false, Bool.true_and, List.all_cons,
        Bool.and_eq_true, List.all_eq_true] at shape
      rcases takeWhile_stops shape.2 notDigit with ⟨taken, dropped⟩
      rw [List.cons_append, longest?_number shape.1, number, taken, dropped]
      split
      · exact absurd rfl (notPoint _)
      · rfl

theorem exists_of_isDecimal {spelling : List Char} (shape : isDecimal spelling) :
    ∃ first rest fraction, spelling = first :: rest ++ '.' :: fraction ∧
      (∀ character ∈ first :: rest, character.isDigit) ∧ fraction ≠ [] ∧
      ∀ character ∈ fraction, character.isDigit := by
  have whole := List.takeWhile_append_dropWhile (p := Char.isDigit) (l := spelling)
  have digits : ∀ character ∈ spelling.takeWhile Char.isDigit, character.isDigit :=
    fun character member => List.mem_takeWhile_imp member
  rw [isDecimal] at shape
  split at shape
  · rename_i fraction found
    rw [found] at whole
    rw [Bool.and_eq_true, isInteger, isInteger, Bool.and_eq_true, Bool.and_eq_true] at shape
    rcases shape with ⟨⟨someWhole, _⟩, someFraction, fractionDigits⟩
    cases taken : spelling.takeWhile Char.isDigit with
    | nil =>
        rw [taken] at someWhole
        cases someWhole
    | cons first rest =>
        rw [taken] at whole digits
        refine ⟨first, rest, fraction, whole.symm, digits, ?_, List.all_eq_true.mp fractionDigits⟩
        rintro rfl
        cases someFraction
  · cases shape

theorem longest?_decimal {spelling later : List Char} (shape : isDecimal spelling)
    (ends : ∀ next ∈ later.head?, Kind.decimal.endsBefore next) :
    longest? (spelling ++ later) = some ⟨.decimal, spelling⟩ := by
  rcases endsNumber (.inr rfl) ends with ⟨notDigit, _⟩
  rcases exists_of_isDecimal shape with ⟨first, rest, fraction, rfl, digits, some, fractionDigits⟩
  have point : ∀ next ∈ ('.' :: (fraction ++ later)).head?, next.isDigit = false := by
    rintro _ ⟨⟩
    rfl
  rcases takeWhile_stops (fun character member =>
    digits character (List.mem_cons_of_mem _ member)) point with ⟨integral, behind⟩
  rcases takeWhile_stops fractionDigits notDigit with ⟨fractional, _⟩
  rw [List.append_assoc, List.cons_append, List.cons_append,
    longest?_number (digits first List.mem_cons_self), number, integral, behind]
  split
  · rename_i same
    cases same
    rw [fractional]
    cases fraction with
    | nil => exact absurd rfl some
    | cons => rfl
  · rename_i different
    exact absurd rfl (different _)

theorem longest?_quoted {content later : List Char}
    (plain : ∀ character ∈ content, character ≠ '"') :
    longest? (quoted content ++ later) = some ⟨.string, quoted content⟩ := by
  have pass : ∀ character ∈ content, (character != '"') = true := by
    intro character member
    simpa using plain character member
  have stops : ∀ next ∈ ('"' :: later).head?, (next != '"') = false := by
    rintro _ ⟨⟩
    rfl
  have closed : (content ++ '"' :: later).contains '"' = true := by simp
  rw [quoted, List.cons_append, List.cons_append, List.append_assoc, List.singleton_append,
    longest?, if_neg (by decide), if_neg (by decide), if_pos rfl, string?, if_pos closed,
    (takeWhile_stops pass stops).1]
  rfl

theorem longest?_symbol {kind : Kind} (isSymbol : kind.isSymbol) (lexical : kind.isLexical)
    {later : List Char} (ends : ∀ next ∈ later.head?, kind.endsBefore next) :
    longest? (kind.label.toList ++ later) = some ⟨kind, kind.label.toList⟩ := by
  have notEquals : ∀ rest, later ≠ '=' :: rest := by
    rintro rest rfl
    have here := ends '=' rfl
    cases kind with
    | binary | unary | assign => simp [Kind.endsBefore] at here
    | _ => cases isSymbol
  cases kind with
  | binary operator =>
      cases operator with
      | less =>
          change symbol? ('<' :: later) = _
          rw [symbol?]
          · rfl
          · exact notEquals
      | greater =>
          change symbol? ('>' :: later) = _
          rw [symbol?]
          · rfl
          · exact notEquals
      | _ => rfl
  | unary operator =>
      cases operator with
      | not =>
          change symbol? ('!' :: later) = _
          rw [symbol?]
          · rfl
          · exact notEquals
      | negate => cases lexical
  | assign => rfl
  | _ => cases isSymbol

theorem longest?_bracket {kind : Kind} (isBracket : kind.isBracket) (later : List Char) :
    longest? (kind.label.toList ++ later) = some ⟨kind, kind.label.toList⟩ := by
  cases kind with
  | openParen | closeParen | openBlock | closeBlock => rfl
  | _ => cases isBracket

/-- A lexeme is read back if what follows does not continue it. -/
theorem Proper.longest {lexeme : Lexeme} (proper : lexeme.Proper) {later : List Char}
    (ends : ∀ next ∈ later.head?, lexeme.kind.endsBefore next) :
    longest? (lexeme.spelling ++ later) = some lexeme := by
  cases proper with
  | name shape =>
      rcases exists_of_isName shape with ⟨first, rest, word⟩
      exact word.longest ends
  | integer shape => exact longest?_integer shape ends
  | decimal shape => exact longest?_decimal shape ends
  | string plain _ => exact longest?_quoted plain
  | reserved member =>
      rcases exists_of_reserved member with ⟨first, rest, word⟩
      exact word.longest ends
  | symbol isSymbol lexical => exact longest?_symbol isSymbol lexical ends
  | bracket isBracket => exact longest?_bracket isBracket later

/-! ## Where a lexeme begins and ends -/

/-- What is asked of the first character: it stands behind every kind that does not clash. -/
def Begins (kind : Kind) (first : Char) : Prop :=
  isSeparator first = false ∧
    ∀ earlier : Kind, earlier.clashes kind = false → earlier.endsBefore first

theorem begins_of_word {kind : Kind} (isWord : kind.isWord) {first : Char}
    (alphanumeric : isLetter first ∨ first.isDigit) : Begins kind first := by
  have ne {other : Char} (notLetter : isLetter other = false) (notDigit : other.isDigit = false) :
      first ≠ other := by
    rcases alphanumeric with letter | digit
    · exact ne_of_isLetter letter notLetter
    · exact ne_of_isDigit digit notDigit
  constructor
  · apply isSeparator_eq_false
    all_goals exact ne (by decide) (by decide)
  · intro earlier apart
    apply Kind.endsBefore_of_ne_equals
    · exact ne (by decide) (by decide)
    · simp only [Kind.clashes, isWord, Bool.and_true, Bool.or_eq_false_iff] at apart
      exact apart.1

theorem begins_of_sign {kind : Kind} {first : Char} (visible : isSeparator first = false)
    (ends : endsWord first) (notDigit : first.isDigit = false) (notPoint : first ≠ '.')
    (other : kind.isSymbol ∨ first ≠ '=') : Begins kind first := by
  refine ⟨visible, ?_⟩
  intro earlier apart
  apply Kind.endsBefore_of_endsWord ends notDigit notPoint
  rcases other with isSymbol | different
  · simp only [Kind.clashes, isSymbol, Bool.and_true, Bool.or_eq_false_iff] at apart
    exact .inl apart.2
  · exact .inr different

theorem Proper.begins {lexeme : Lexeme} (proper : lexeme.Proper) :
    ∃ first rest, lexeme.spelling = first :: rest ∧ Begins lexeme.kind first := by
  cases proper with
  | name shape =>
      rcases exists_of_isName shape with ⟨first, rest, word⟩
      exact ⟨first, rest, word.whole, begins_of_word word.isWord (.inl word.letter)⟩
  | @integer spelling shape =>
      cases spelling with
      | nil => cases shape
      | cons first rest =>
          rw [isInteger, Bool.and_eq_true, List.all_cons, Bool.and_eq_true] at shape
          exact ⟨first, rest, rfl, begins_of_word rfl (.inr shape.2.1)⟩
  | @decimal spelling shape =>
      rcases exists_of_isDecimal shape with ⟨first, rest, fraction, rfl, digits, _⟩
      exact ⟨first, _, rfl, begins_of_word rfl (.inr (digits first List.mem_cons_self))⟩
  | string plain _ =>
      exact ⟨'"', _, rfl, begins_of_sign (by decide) (by decide) (by decide) (by decide)
        (.inr (by decide))⟩
  | reserved member =>
      rcases exists_of_reserved member with ⟨first, rest, word⟩
      exact ⟨first, rest, word.whole, begins_of_word word.isWord (.inl word.letter)⟩
  | @symbol kind isSymbol lexical =>
      cases kind with
      | binary operator =>
          cases operator
          all_goals exact ⟨_, _, rfl, begins_of_sign (by decide) (by decide) (by decide) (by decide)
            (.inl rfl)⟩
      | unary operator =>
          cases operator
          all_goals exact ⟨_, _, rfl, begins_of_sign (by decide) (by decide) (by decide) (by decide)
            (.inl rfl)⟩
      | assign =>
          exact ⟨_, _, rfl, begins_of_sign (by decide) (by decide) (by decide) (by decide)
            (.inl rfl)⟩
      | _ => cases isSymbol
  | @bracket kind isBracket =>
      cases kind with
      | openParen | closeParen | openBlock | closeBlock =>
          exact ⟨_, _, rfl, begins_of_sign (by decide) (by decide) (by decide) (by decide)
            (.inr (by decide))⟩
      | _ => cases isBracket

/-- Characters that fill no more than a line, and not the start of its ending. -/
def Inline (spelling : List Char) : Prop :=
  (∀ character ∈ spelling, character ≠ '\n') ∧ ∀ last ∈ spelling.getLast?, last ≠ '\r'

theorem inline_of_forall {spelling : List Char}
    (none : ∀ character ∈ spelling, character ≠ '\n' ∧ character ≠ '\r') : Inline spelling :=
  ⟨fun character member => (none character member).1,
    fun last member => (none last (List.mem_of_getLast? member)).2⟩

theorem inline_of_all {spelling : List Char}
    (none : spelling.all fun character => character != '\n' && character != '\r') :
    Inline spelling := by
  apply inline_of_forall
  simpa using none

theorem inline_of_isDigit {character : Char} (digit : character.isDigit) :
    character ≠ '\n' ∧ character ≠ '\r' :=
  ⟨ne_of_isDigit digit (by decide), ne_of_isDigit digit (by decide)⟩

theorem IsWord.inline {spelling rest : List Char} {kind : Kind} {first : Char}
    (word : IsWord spelling kind first rest) : Inline spelling := by
  apply inline_of_forall
  intro character member
  rw [word.whole] at member
  rcases List.mem_cons.mp member with rfl | member
  · exact ⟨ne_of_isLetter word.letter (by decide), ne_of_isLetter word.letter (by decide)⟩
  · have continues := word.inside character member
    exact ⟨ne_of_not_endsWord continues (by decide), ne_of_not_endsWord continues (by decide)⟩

theorem Proper.inline {lexeme : Lexeme} (proper : lexeme.Proper) : Inline lexeme.spelling := by
  cases proper with
  | name shape =>
      rcases exists_of_isName shape with ⟨first, rest, word⟩
      exact word.inline
  | @integer spelling shape =>
      rw [isInteger, Bool.and_eq_true, List.all_eq_true] at shape
      exact inline_of_forall fun character member => inline_of_isDigit (shape.2 character member)
  | @decimal spelling shape =>
      rcases exists_of_isDecimal shape with ⟨first, rest, fraction, rfl, digits, _, fractionDigits⟩
      apply inline_of_forall
      intro character member
      rcases List.mem_append.mp member with member | member
      · exact inline_of_isDigit (digits character member)
      · rcases List.mem_cons.mp member with rfl | member
        · decide
        · exact inline_of_isDigit (fractionDigits character member)
  | @string content plain unbroken =>
      constructor
      · intro character member
        rw [quoted, List.cons_append, List.mem_cons, List.mem_append, List.mem_singleton] at member
        rcases member with rfl | member | rfl
        · decide
        · exact unbroken character member
        · decide
      · intro last member
        rw [quoted, List.getLast?_append] at member
        cases member
        decide
  | reserved member =>
      rcases exists_of_reserved member with ⟨first, rest, word⟩
      exact word.inline
  | @symbol kind isSymbol lexical =>
      cases kind with
      | binary operator => cases operator <;> exact inline_of_all rfl
      | unary operator => cases operator <;> exact inline_of_all rfl
      | assign => exact inline_of_all rfl
      | _ => cases isSymbol
  | @bracket kind isBracket =>
      cases kind with
      | openParen | closeParen | openBlock | closeBlock => exact inline_of_all rfl
      | _ => cases isBracket

theorem text_quoted (content : List Char) :
    text ⟨.string, quoted content⟩ = String.ofList content := by
  rw [text, quoted]
  simp

end Lexeme

end Scriptlet
