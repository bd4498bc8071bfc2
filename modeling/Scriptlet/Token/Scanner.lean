import Scriptlet.SourceError
import Scriptlet.Text.Lines
import Scriptlet.Token.Basic
import Scriptlet.Token.Lexeme

/-! Reading tokens from source text, one line at a time.

A line gives its lexemes from left to right, then one terminator. A character at which no lexeme
starts ends the line with an error instead. -/

namespace Scriptlet

/-- A reader inside a line. `remaining` is `none` once the line's terminator or its error has been
read, and before the first line. -/
structure Scanner where
  line : Nat := 0
  cursor : Nat := 0
  remaining : Option (List Char) := none
deriving Repr, Inhabited

namespace Scanner

/-- Begins the next line; what is left of the current one is dropped. -/
def beginLine (scanner : Scanner) (text : List Char) : Scanner :=
  ⟨scanner.line + 1, 0, some text⟩

/-- The fault of a character at which no lexeme starts. A quote there opens a string that is never
closed. -/
def faultOf (character : Char) : SourceError.Cause :=
  if character = '"' then .unterminatedString else .invalidCharacter character

/-- Reads one token or the error that ends the line; nothing is left to read after either a
terminator or an error. -/
def next (scanner : Scanner) : Option (Except SourceError Token × Scanner) :=
  match scanner.remaining with
  | none => none
  | some characters =>
    let cursor := scanner.cursor + (characters.takeWhile isSeparator).length
    let position := ⟨scanner.line, cursor⟩
    let finished : Scanner := ⟨scanner.line, cursor, none⟩
    match characters.dropWhile isSeparator with
    | [] => some (.ok (.terminator position), finished)
    | first :: rest =>
      match Lexeme.longest? (first :: rest) with
      | none => some (.error ⟨faultOf first, position⟩, finished)
      | some lexeme =>
        some (.ok ⟨lexeme.kind, lexeme.text, position⟩,
          ⟨scanner.line, cursor + lexeme.spelling.length,
            some ((first :: rest).drop lexeme.spelling.length)⟩)

/-- Reading makes progress: a finished line weighs nothing, an unfinished one more than its
characters. -/
def weight (scanner : Scanner) : Nat :=
  match scanner.remaining with
  | none => 0
  | some characters => characters.length + 1

theorem weight_next_lt {scanner later : Scanner} {item : Except SourceError Token}
    (read : scanner.next = some (item, later)) : later.weight < scanner.weight := by
  unfold next at read
  split at read
  · cases read
  · rename_i characters unread
    have shorter : (characters.dropWhile isSeparator).length ≤ characters.length :=
      (List.dropWhile_sublist isSeparator).length_le
    have weighs : scanner.weight = characters.length + 1 := by simp [weight, unread]
    rw [weighs]
    dsimp only at read
    split at read
    · cases read
      simp [weight]
    · rename_i first rest here
      rw [here] at shorter
      split at read
      · cases read
        simp [weight]
      · rename_i lexeme matched
        cases read
        have consumed := List.length_pos_iff.mpr (Lexeme.longest?_spelling_ne_nil matched)
        simp only [List.length_cons] at shorter
        simp only [weight, List.length_drop, List.length_cons]
        omega

/-- Everything still to be read from the current line. -/
def rest (scanner : Scanner) : List (Except SourceError Token) :=
  match _ : scanner.next with
  | none => []
  | some (item, later) => item :: later.rest
termination_by scanner.weight
decreasing_by exact weight_next_lt ‹_›

end Scanner

/-- The tokens of one line with its terminator, or the error in it. -/
def scanLine (line : Nat) (text : List Char) : Except SourceError (List Token) :=
  (Scanner.rest ⟨line, 0, some text⟩).mapM id

/-- The tokens of the lines that follow the first `before` ones. -/
def scanLines (before : Nat) : List (List Char) → Except SourceError (List Token)
  | [] => .ok [.endOfInput before]
  | text :: later => do
    let tokens ← scanLine (before + 1) text
    let following ← scanLines (before + 1) later
    return tokens ++ following

/-- The tokens of a source text: those of each line with its terminator, then the end mark. -/
def scanSource (source : String) : Except SourceError (List Token) :=
  scanLines 0 (linesOf source)

end Scriptlet
