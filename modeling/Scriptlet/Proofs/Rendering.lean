import Scriptlet.Proofs.Tiling

/-! Tokens written out and read again. One space between any two of them is enough: no token runs on
into a space, and nothing but the token itself is as long as its own text. -/

namespace Scriptlet

/-! ## Single tokens -/

namespace Token

/-- What a token says, wherever it stands. -/
def content (token : Token) : Kind × String :=
  (token.kind, token.text)

/-- A token that can be written on its own: a name that is not reserved, digits, digits around a
point, a string without a quote in it, a reserved word, an operator or a bracket. -/
inductive Genuine : Token → Prop where
  | name {text : String} (shape : Lexeme.isName text.toList) (position : Position) :
      Genuine ⟨.identifier, text, position⟩
  | integer {text : String} (shape : Lexeme.isInteger text.toList) (position : Position) :
      Genuine ⟨.integer, text, position⟩
  | decimal {text : String} (shape : Lexeme.isDecimal text.toList) (position : Position) :
      Genuine ⟨.decimal, text, position⟩
  | string {text : String} (plain : ∀ character ∈ text.toList, character ≠ '"')
      (position : Position) : Genuine ⟨.string, text, position⟩
  | reserved {text : String} {kind : Kind} (member : (text.toList, kind) ∈ Lexeme.reservedWords)
      (position : Position) : Genuine ⟨kind, text, position⟩
  | symbol {text : String} {kind : Kind} (member : (text.toList, kind) ∈ Lexeme.symbols)
      (position : Position) : Genuine ⟨kind, text, position⟩

theorem spelling_of_ne_string {token : Token} (other : token.kind ≠ .string) :
    token.spelling = token.text.toList := by
  rcases token with ⟨kind, text, position⟩
  cases kind with
  | string => exact absurd rfl other
  | _ => rfl

theorem ne_string_of_reserved {spelling : List Char} {kind : Kind}
    (member : (spelling, kind) ∈ Lexeme.reservedWords) : kind ≠ .string := by
  rintro rfl
  cases (Lexeme.family_reserved _ member).2

theorem ne_string_of_symbol {spelling : List Char} {kind : Kind}
    (member : (spelling, kind) ∈ Lexeme.symbols) : kind ≠ .string := by
  rintro rfl
  cases (Lexeme.family_symbol _ member).2

/-- A token in front of a space is read as a whole and as what it is. -/
theorem Genuine.longest {token : Token} (genuine : token.Genuine) {later : List Char}
    (blank : ∀ next ∈ later.head?, isSeparator next) :
    Lexeme.longest? (token.spelling ++ later) = some token.lexeme := by
  have ends (kind : Kind) : ∀ next ∈ later.head?, kind.endsBefore next :=
    fun next here => Kind.endsBefore_of_isSeparator (blank next here) kind
  rw [lexeme]
  cases genuine with
  | name shape =>
      rcases Lexeme.exists_of_isName shape with ⟨first, rest, word⟩
      exact word.longest (ends _)
  | integer shape => exact Lexeme.longest?_integer shape (ends _)
  | decimal shape => exact Lexeme.longest?_decimal shape (ends _)
  | string plain => exact Lexeme.longest?_quoted plain
  | reserved member =>
      rw [spelling_of_ne_string (ne_string_of_reserved member)]
      rcases Lexeme.exists_of_reserved member with ⟨first, rest, word⟩
      exact word.longest (ends _)
  | @symbol text kind member =>
      rw [spelling_of_ne_string (ne_string_of_symbol member)]
      have sign : ∀ entry ∈ Lexeme.symbols, entry.1 = entry.2.label.toList ∧
          (entry.2.isSymbol ∧ entry.2.isLexical ∨ entry.2.isBracket) := by decide
      rcases sign _ member with ⟨label, ⟨isSymbol, lexical⟩ | isBracket⟩
      all_goals dsimp only at label ⊢; rw [label]
      · exact Lexeme.longest?_symbol isSymbol lexical (ends kind)
      · exact Lexeme.longest?_bracket isBracket later

/-- Whatever is read is genuine. -/
theorem genuine_of_longest {token : Token} {characters : List Char}
    (longest : token.lexeme.Longest characters) : token.Genuine := by
  rcases token with ⟨kind, text, position⟩
  have matched := longest.matched
  have preferred := longest.preferred
  have plainly (other : kind ≠ .string) : Token.spelling ⟨kind, text, position⟩ = text.toList :=
    spelling_of_ne_string other
  dsimp only [lexeme] at matched preferred
  generalize whole : Token.spelling ⟨kind, text, position⟩ = spelling at matched preferred plainly
  cases matched with
  | @name first rest letter inside =>
      have notReserved : (Lexeme.reservedWords.lookup (first :: rest)).isNone := by
        rw [Option.isNone_iff_eq_none]
        by_contra found
        rcases Option.ne_none_iff_exists'.mp found with ⟨kind, found⟩
        have member := Lexeme.mem_of_lookup found
        have notName : kind ≠ .identifier := by
          have others : ∀ entry ∈ Lexeme.reservedWords, entry.2 ≠ .identifier := by decide
          exact others _ member
        exact notName (preferred kind (.reserved member) notName)
      apply Genuine.name
      rw [← plainly Kind.noConfusion, Lexeme.isName, letter, notReserved]
      simpa using inside
  | @string content plain =>
      apply Genuine.string
      have inside : text.toList = content := by
        simpa [Token.spelling, Lexeme.quoted] using whole
      rwa [inside]
  | integer some each =>
      apply Genuine.integer
      rw [← plainly Kind.noConfusion, Lexeme.isInteger]
      simpa [some] using each
  | @decimal integral fraction someWhole eachWhole someFraction eachFraction =>
      apply Genuine.decimal
      have point : ∀ next ∈ ('.' :: fraction).head?, next.isDigit = false := by
        rintro _ ⟨⟩
        rfl
      rcases Lexeme.takeWhile_stops eachWhole point with ⟨taken, dropped⟩
      rw [← plainly Kind.noConfusion, Lexeme.isDecimal, dropped, taken]
      simpa [Lexeme.isInteger, someWhole, someFraction] using ⟨eachWhole, eachFraction⟩
  | reserved member =>
      rw [plainly (ne_string_of_reserved member)] at member
      exact .reserved member position
  | symbol member =>
      rw [plainly (ne_string_of_symbol member)] at member
      exact .symbol member position

end Token

/-! ## Lines -/

/-- Tokens written on one line, with a space between any two. -/
def rendered (tokens : List Token) : List Char :=
  [' '].intercalate (tokens.map Token.spelling)

/-- Behind the first token of a line stands a space, or nothing. -/
theorem exists_rendered_cons (token : Token) (later : List Token) :
    ∃ white, (∀ character ∈ white, isSeparator character) ∧
      rendered (token :: later) = token.spelling ++ (white ++ rendered later) ∧
      ∀ next ∈ (white ++ rendered later).head?, isSeparator next := by
  cases later with
  | nil =>
      refine ⟨[], by simp, ?_, by simp [rendered]⟩
      rw [rendered, List.map_singleton, List.intercalate_singleton]
      simp [rendered]
  | cons next more =>
      refine ⟨[' '], by simp [isSeparator], ?_, by simp [isSeparator]⟩
      rw [rendered, rendered, List.map_cons, List.map_cons, List.intercalate_cons_cons,
        List.append_assoc]

namespace Scanner

/-- What is read says what the tokens say, in the same order, and then one terminator. -/
def Repeats (scanner : Scanner) (tokens : List Token) : Prop :=
  ∃ (words : List Token) (position : Position),
    scanner.rest = words.map .ok ++ [.ok (.terminator position)] ∧
      words.map Token.content = tokens.map Token.content

theorem Repeats.cons {scanner later : Scanner} {read token : Token} {tokens : List Token}
    (first : scanner.rest = .ok read :: later.rest) (same : read.content = token.content)
    (others : later.Repeats tokens) : scanner.Repeats (token :: tokens) := by
  rcases others with ⟨words, position, readLater, sameLater⟩
  refine ⟨read :: words, position, ?_, ?_⟩
  · rw [first, readLater]
    rfl
  · rw [List.map_cons, List.map_cons, same, sameLater]

/-- The step is one token with the space behind it; the rest of the line is read from wherever that
ends. -/
theorem repeats_rendered {tokens : List Token} (genuine : ∀ token ∈ tokens, token.Genuine)
    {white : List Char} (blank : ∀ character ∈ white, isSeparator character) (line cursor : Nat) :
    Repeats ⟨line, cursor, some (white ++ rendered tokens)⟩ tokens := by
  induction tokens generalizing white cursor with
  | nil =>
      have nothing : (white ++ rendered []).dropWhile isSeparator = [] := by
        rw [List.dropWhile_eq_nil_iff]
        simpa [rendered] using blank
      exact ⟨[], _, rest_blank line cursor nothing, rfl⟩
  | cons token later induction =>
      rcases List.forall_mem_cons.mp genuine with ⟨here, others⟩
      rcases exists_rendered_cons token later with ⟨behind, separates, whole, ends⟩
      have matched := here.longest ends
      have longest := Lexeme.longest?_eq_some_iff.mp matched
      rcases List.exists_cons_of_ne_nil longest.matched.ne_nil with ⟨first, rest, spelling⟩
      have spelling : token.spelling = first :: rest := spelling
      rw [spelling] at matched whole longest
      have starts : (white ++ rendered (token :: later)).dropWhile isSeparator =
          first :: (rest ++ (behind ++ rendered later)) := by
        rw [whole]
        apply (Lexeme.takeWhile_stops blank _).2
        rintro _ ⟨⟩
        exact longest.not_separator
      have dropped : (first :: (rest ++ (behind ++ rendered later))).drop
          token.lexeme.spelling.length = behind ++ rendered later := by
        rw [Token.lexeme, spelling, ← List.cons_append]
        exact List.drop_left
      have read := rest_lexeme line cursor starts matched
      rw [dropped, token.text_lexeme] at read
      exact .cons read rfl (induction others separates _)

/-- Genuine tokens that are written on one line with single spaces between them are read back, and
nothing else is; so are the tokens of any line, whatever stood between them. -/
theorem rest_rendered :
    (∀ (scanner : Scanner) (tokens : List Token), (∀ token ∈ tokens, token.Genuine) →
      (scanner.beginLine (rendered tokens)).Repeats tokens) ∧
    ∀ (scanner later : Scanner) (text : List Char) (words : List Token) (ending : Token),
      (scanner.beginLine text).rest = words.map .ok ++ [.ok ending] →
      (later.beginLine (rendered words)).Repeats words := by
  have readsBack (scanner : Scanner) (tokens : List Token)
      (genuine : ∀ token ∈ tokens, token.Genuine) :
      (scanner.beginLine (rendered tokens)).Repeats tokens :=
    @repeats_rendered tokens genuine [] (by simp) (scanner.line + 1) 0
  refine ⟨readsBack, ?_⟩
  intro scanner later text words ending read
  apply readsBack later words
  rcases @exists_tiling (scanner.line + 1) text 0 text rfl (Nat.zero_le _) with
    ⟨tokens, stop, last, items, tiling, _⟩
  have same := (List.append_inj' (read.symm.trans items) rfl).1
  rw [List.map_injective_iff.mpr (fun _ _ => Except.ok.inj) same]
  exact fun token member => Token.genuine_of_longest (tiling.longest token member)

/-- Without the spaces the digits would run into the name, and the signs into each other. -/
theorem rest_rendered_signs :
    let tokens := [Token.mk .integer "007" ⟨1, 0⟩, ⟨.identifier, "π.2", ⟨1, 0⟩⟩,
      ⟨.binary .less, "<", ⟨1, 0⟩⟩, ⟨.binary .equal, "=", ⟨1, 0⟩⟩, ⟨.string, "a\n ", ⟨1, 0⟩⟩,
      ⟨.control .loop, "while", ⟨1, 0⟩⟩, ⟨.decimal, "1.50", ⟨1, 0⟩⟩]
    let words := [Token.mk .identifier "a" ⟨1, 0⟩, ⟨.binary .lessEqual, "<=", ⟨1, 1⟩⟩,
      ⟨.binary .subtract, "-", ⟨1, 3⟩⟩, ⟨.integer, "1", ⟨1, 4⟩⟩]
    (∀ token ∈ tokens, token.Genuine) ∧
      rendered tokens = "007 π.2 < = \"a\n \" while 1.50".toList ∧
      (beginLine {} (rendered tokens)).Repeats tokens ∧
      (beginLine {} "a<=-1".toList).rest = words.map .ok ++ [.ok (.terminator ⟨1, 5⟩)] ∧
      rendered words = "a <= - 1".toList ∧ (beginLine {} (rendered words)).Repeats words := by
  intro tokens words
  have genuine : ∀ token ∈ tokens, token.Genuine := by
    simp only [tokens, List.forall_mem_cons]
    exact ⟨.integer (by decide) _, .name (by decide) _, .symbol (by decide) _,
      .symbol (by decide) _, .string (by simp) _, .reserved (by decide) _, .decimal (by decide) _,
      List.forall_mem_nil _⟩
  have read : (beginLine {} "a<=-1".toList).rest =
      words.map .ok ++ [.ok (.terminator ⟨1, 5⟩)] := by cbv
  exact ⟨genuine, by decide, rest_rendered.1 {} tokens genuine, read, by decide,
    rest_rendered.2 {} {} _ words _ read⟩

end Scanner

end Scriptlet
