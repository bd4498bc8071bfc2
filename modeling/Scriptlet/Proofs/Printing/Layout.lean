import Scriptlet.Proofs.Lines
import Scriptlet.Proofs.Printing.Lexeme

/-! Lexemes laid out on lines, and the tokens that are read back from them. -/

namespace Scriptlet

/-- How lexemes are set apart: by any white space, and by some wherever two would run together.
Names and literals may stand in parentheses of their own. -/
structure Layout where
  leaves : Bool
  gap : Kind → Kind → List Char
  blank : ∀ earlier later, ∀ character ∈ gap earlier later, isSeparator character
  apart : ∀ earlier later, earlier.clashes later → gap earlier later ≠ []

namespace Layout

def line (layout : Layout) : List Lexeme → List Char
  | [] => []
  | [last] => last.spelling
  | lexeme :: next :: later =>
      lexeme.spelling ++ layout.gap lexeme.kind next.kind ++ layout.line (next :: later)

/-- A text of whole lines. -/
def text (layout : Layout) (lines : List (List Lexeme)) : String :=
  String.ofList (lines.flatMap fun lexemes => layout.line lexemes ++ ['\n'])

/-- One space everywhere but on the inside of a parenthesis. -/
def plain : Layout where
  leaves := false
  gap earlier later := if earlier = .openParen ∨ later = .closeParen then [] else [' ']
  blank := by
    intro earlier later character member
    split at member
    · cases member
    · rw [List.mem_singleton.mp member]
      rfl
  apart := by
    intro earlier later clashes
    rw [if_neg]
    · exact List.cons_ne_nil _ _
    · rintro (rfl | rfl)
      · cases clashes
      · simp [Kind.clashes, Kind.isWord, Kind.isSymbol] at clashes

/-! ## Lines -/

section

variable (layout : Layout) {lexeme : Lexeme}

theorem exists_line_eq_cons (proper : lexeme.Proper) (later : List Lexeme) :
    ∃ first rest, layout.line (lexeme :: later) = first :: rest ∧
      Lexeme.Begins lexeme.kind first := by
  rcases proper.begins with ⟨first, rest, spelling, begins⟩
  cases later with
  | nil => exact ⟨first, rest, by rw [line, spelling], begins⟩
  | cons => exact ⟨first, _, by rw [line, spelling]; rfl, begins⟩

/-- Behind the first lexeme of a line stands white space, then the others, and it is complete. -/
theorem exists_line_cons {later : List Lexeme} (proper : ∀ selected ∈ later, selected.Proper) :
    ∃ white, (∀ character ∈ white, isSeparator character) ∧
      layout.line (lexeme :: later) = lexeme.spelling ++ (white ++ layout.line later) ∧
      ∀ next ∈ (white ++ layout.line later).head?, lexeme.kind.endsBefore next := by
  cases later with
  | nil =>
      refine ⟨[], (fun _ none => nomatch none), ?_, (fun _ none => nomatch none)⟩
      simp [line]
  | cons next more =>
      refine ⟨layout.gap lexeme.kind next.kind, layout.blank _ _, ?_, ?_⟩
      · rw [line, List.append_assoc]
      · intro character member
        cases here : layout.gap lexeme.kind next.kind with
        | cons first rest =>
            rw [here] at member
            cases member
            apply Kind.endsBefore_of_isSeparator
            apply layout.blank lexeme.kind next.kind
            rw [here]
            exact List.mem_cons_self
        | nil =>
            rcases layout.exists_line_eq_cons (proper next List.mem_cons_self) more with
              ⟨first, rest, starts, _, ends⟩
            rw [here, starts] at member
            cases member
            apply ends
            by_contra clashes
            exact layout.apart lexeme.kind next.kind (by simpa using clashes) here

/-- Laid out lexemes stay on their line. -/
theorem inline_line {lexemes : List Lexeme} (proper : ∀ lexeme ∈ lexemes, lexeme.Proper) :
    Lexeme.Inline (layout.line lexemes) := by
  induction lexemes with
  | nil => exact ⟨(fun _ none => nomatch none), (fun _ none => nomatch none)⟩
  | cons lexeme later induction =>
      rcases List.forall_mem_cons.mp proper with ⟨here, others⟩
      cases later with
      | nil => exact here.inline
      | cons next more =>
          have laterInline := induction others
          constructor
          · intro character member
            rw [line, List.mem_append, List.mem_append] at member
            rcases member with (member | member) | member
            · exact here.inline.1 character member
            · rintro rfl
              cases layout.blank _ _ _ member
            · exact laterInline.1 character member
          · intro last member
            apply laterInline.2
            rcases layout.exists_line_eq_cons (others next List.mem_cons_self) more with
              ⟨first, rest, starts, _⟩
            rwa [line, List.getLast?_append_of_ne_nil _ (by simp [starts])] at member

end

end Layout

/-! ## Tokens -/

/-- A token that says what a lexeme says. -/
def Token.Shows (token : Token) (lexeme : Lexeme) : Prop :=
  token.kind = lexeme.kind ∧ token.text = lexeme.text

/-- The tokens of lines of lexemes, each line with its terminator. -/
inductive Laid : List Token → List (List Lexeme) → Prop where
  | nil : Laid [] []
  | cons {words later : List Token} {lexemes : List Lexeme} {lines : List (List Lexeme)}
      (shows : List.Forall₂ Token.Shows words lexemes) (position : Position)
      (rest : Laid later lines) :
      Laid (words ++ .terminator position :: later) (lexemes :: lines)

theorem Laid.exists_append {tokens : List Token} {first second : List (List Lexeme)}
    (laid : Laid tokens (first ++ second)) :
    ∃ before after, tokens = before ++ after ∧ Laid before first ∧ Laid after second := by
  induction first generalizing tokens with
  | nil => exact ⟨[], tokens, rfl, .nil, laid⟩
  | cons lexemes lines induction =>
      cases laid with
      | @cons words _ _ _ shows position rest =>
          rcases induction rest with ⟨before, after, rfl, laidFirst, laidSecond⟩
          refine ⟨words ++ .terminator position :: before, after, ?_,
            .cons shows position laidFirst, laidSecond⟩
          rw [List.append_assoc, List.cons_append]

namespace Layout

variable (layout : Layout)

theorem scanFrom_line {lexemes : List Lexeme} (proper : ∀ lexeme ∈ lexemes, lexeme.Proper)
    {white : List Char} (blank : ∀ character ∈ white, isSeparator character) (row cursor : Nat) :
    ∃ words position, scanFrom row cursor (white ++ layout.line lexemes) =
        .ok (words ++ [.terminator position]) ∧ List.Forall₂ Token.Shows words lexemes := by
  induction lexemes generalizing white cursor with
  | nil =>
      have nothing : (white ++ layout.line []).dropWhile isSeparator = [] := by
        rw [line, List.append_nil, List.dropWhile_eq_nil_iff]
        exact blank
      exact ⟨[], _, scanFrom_blank row cursor nothing, .nil⟩
  | cons lexeme later induction =>
      rcases List.forall_mem_cons.mp proper with ⟨here, others⟩
      rcases layout.exists_line_cons others with ⟨behind, separates, whole, ends⟩
      have matched := here.longest ends
      rcases here.begins with ⟨first, rest, spelling, visible, _⟩
      rw [spelling] at matched whole
      have starts : (white ++ layout.line (lexeme :: later)).dropWhile isSeparator =
          first :: (rest ++ (behind ++ layout.line later)) := by
        rw [whole]
        apply (Lexeme.takeWhile_stops blank _).2
        rintro _ ⟨⟩
        exact visible
      rw [scanFrom_lexeme row cursor starts matched, spelling, ← List.cons_append, List.drop_left]
      rcases induction others separates (cursor + _ + _) with ⟨words, position, scanned, shows⟩
      rw [scanned]
      exact ⟨_ :: words, position, rfl, .cons ⟨rfl, rfl⟩ shows⟩

theorem scanEach_lines {lines : List (List Lexeme)}
    (proper : ∀ lexemes ∈ lines, ∀ lexeme ∈ lexemes, lexeme.Proper) (before : Nat) :
    ∃ tokens, scanEach before (lines.map layout.line) = .ok tokens ∧ Laid tokens lines := by
  induction lines generalizing before with
  | nil => exact ⟨[], rfl, .nil⟩
  | cons lexemes later induction =>
      rcases List.forall_mem_cons.mp proper with ⟨here, others⟩
      rcases @scanFrom_line layout lexemes here [] (fun _ none => nomatch none) (before + 1) 0 with
        ⟨words, position, scanned, shows⟩
      rcases induction others (before + 1) with ⟨tokens, following, laid⟩
      refine ⟨words ++ .terminator position :: tokens, ?_, .cons shows position laid⟩
      rw [List.map_cons, scanEach, scanLine_eq]
      rw [List.nil_append] at scanned
      rw [scanned, following]
      exact congrArg Except.ok (List.append_assoc _ _ _)

theorem dropLineEnding_append {characters : List Char} (inline : Lexeme.Inline characters) :
    dropLineEnding (characters ++ ['\n']) = characters := by
  rcases List.eq_nil_or_concat characters with rfl | ⟨before, last, rfl⟩
  · rfl
  · have notReturn : last ≠ '\r' := inline.2 last (by simp)
    rw [dropLineEnding, List.concat_eq_append, List.reverse_append, List.reverse_append]
    split
    · rename_i same
      cases same
      exact absurd rfl notReturn
    · rename_i same
      cases same
      simp
    · rename_i different
      exact absurd rfl (different _)

theorem linesOf_text {lines : List (List Lexeme)}
    (proper : ∀ lexemes ∈ lines, ∀ lexeme ∈ lexemes, lexeme.Proper) :
    linesOf (layout.text lines) = lines.map layout.line := by
  rw [linesOf, text, String.toList_ofList]
  induction lines with
  | nil => rw [List.flatMap_nil, splitAfter_nil]; rfl
  | cons lexemes later induction =>
      rcases List.forall_mem_cons.mp proper with ⟨here, others⟩
      have inline := layout.inline_line here
      rw [List.flatMap_cons, List.append_assoc, List.singleton_append, splitAfter_append_cons _ rfl,
        List.map_cons, List.map_cons, dropLineEnding_append inline, induction others]
      intro character member
      simpa using inline.1 character member

/-- The tokens of laid out lexemes say what the lexemes say, line by line. -/
theorem scanSource_text {lines : List (List Lexeme)}
    (proper : ∀ lexemes ∈ lines, ∀ lexeme ∈ lexemes, lexeme.Proper) :
    ∃ tokens, scanSource (layout.text lines) = .ok (tokens ++ [.endOfInput lines.length]) ∧
      Laid tokens lines := by
  rcases layout.scanEach_lines proper 0 with ⟨tokens, scanned, laid⟩
  refine ⟨tokens, ?_, laid⟩
  rw [scanSource, scanLines_eq, layout.linesOf_text proper, scanned, List.length_map, Nat.zero_add]
  rfl

/-- A line without an ending is a text of its own. -/
theorem linesOf_inline {characters : List Char} (some : characters ≠ [])
    (inline : Lexeme.Inline characters) : linesOf (String.ofList characters) = [characters] := by
  have unended : dropLineEnding characters = characters := by
    have nowhere : '\n' ∉ characters.reverse :=
      fun member => inline.1 '\n' (List.mem_reverse.mp member) rfl
    unfold dropLineEnding
    split
    · rename_i ends
      simp [ends] at nowhere
    · rename_i ends
      simp [ends] at nowhere
    · rfl
  have inside : ∀ character ∈ characters, (character == '\n') = false := by
    simpa using inline.1
  rw [linesOf, String.toList_ofList, splitAfter_piece some inside, List.map_singleton, unended]

theorem scanSource_line {lexemes : List Lexeme} (some : lexemes ≠ [])
    (proper : ∀ lexeme ∈ lexemes, lexeme.Proper) :
    ∃ words position, scanSource (String.ofList (layout.line lexemes)) =
        .ok (words ++ [.terminator position] ++ [.endOfInput 1]) ∧
      List.Forall₂ Token.Shows words lexemes := by
  have written : layout.line lexemes ≠ [] := by
    rcases List.exists_cons_of_ne_nil some with ⟨first, later, rfl⟩
    rcases layout.exists_line_eq_cons (proper first List.mem_cons_self) later with
      ⟨_, _, starts, _⟩
    simp [starts]
  rcases @scanEach_lines layout [lexemes] (by simpa using proper) 0 with ⟨tokens, scanned, laid⟩
  cases laid with
  | @cons words _ _ _ shows position rest =>
      cases rest
      refine ⟨words, position, ?_, shows⟩
      rw [scanSource, scanLines_eq, linesOf_inline written (layout.inline_line proper)]
      rw [List.map_singleton] at scanned
      rw [scanned]
      rfl

end Layout

end Scriptlet
