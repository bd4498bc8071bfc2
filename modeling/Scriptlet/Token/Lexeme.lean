import Scriptlet.Text.Letter
import Scriptlet.Text.Space
import Scriptlet.Token.Kind

/-! Lexemes: the longest piece of text at the start of a line's remaining characters that forms one
token. The first character decides which family of patterns can match, so at most one family is
tried: words start with a letter, numbers with a digit, strings with a quote, and everything else is
an operator or a bracket. -/

namespace Scriptlet

/-- A lexeme keeps its spelling in full, quotes included. -/
structure Lexeme where
  kind : Kind
  spelling : List Char
deriving DecidableEq, Repr, Inhabited

/-- The content of the token: a string sheds its two quotes. -/
def Lexeme.text (lexeme : Lexeme) : String :=
  match lexeme.kind with
  | .string => String.ofList (lexeme.spelling.drop 1).dropLast
  | _ => String.ofList lexeme.spelling

namespace Lexeme

/-! ## Words

A word runs on to the next white space, operator, bracket, colon or quote. It is reserved only if
the whole run is. -/

def endsWord (character : Char) : Bool :=
  isSpace character || "+-*/()^<>=!&|:\x7b\x7d\"".toList.contains character

def reservedWords : List (List Char × Kind) :=
  [("true".toList, .boolean), ("false".toList, .boolean),
    ("print".toList, .command .print), ("input".toList, .command .input),
    ("del".toList, .command .delete),
    ("if".toList, .control .conditional), ("while".toList, .control .loop)]

def word (first : Char) (rest : List Char) : Lexeme :=
  let spelling := first :: rest.takeWhile (!endsWord ·)
  ⟨(reservedWords.lookup spelling).getD .identifier, spelling⟩

/-! ## Numbers

A run of digits is an integer unless a point and at least one more digit follow. -/

def number (first : Char) (rest : List Char) : Lexeme :=
  let whole := first :: rest.takeWhile Char.isDigit
  match rest.dropWhile Char.isDigit with
  | '.' :: fraction =>
    match fraction.takeWhile Char.isDigit with
    | [] => ⟨.integer, whole⟩
    | digits => ⟨.decimal, whole ++ '.' :: digits⟩
  | _ => ⟨.integer, whole⟩

/-! ## Strings

A string runs to the next quote; there is no escape. -/

def string? (rest : List Char) : Option Lexeme :=
  if rest.contains '"' then
    some ⟨.string, '"' :: rest.takeWhile (· != '"') ++ ['"']⟩
  else none

/-! ## Operators and brackets -/

def symbol? : List Char → Option Lexeme
  | ':' :: '=' :: _ => some ⟨.assign, [':', '=']⟩
  | '<' :: '=' :: _ => some ⟨.binary .lessEqual, ['<', '=']⟩
  | '>' :: '=' :: _ => some ⟨.binary .greaterEqual, ['>', '=']⟩
  | '!' :: '=' :: _ => some ⟨.binary .notEqual, ['!', '=']⟩
  | '<' :: _ => some ⟨.binary .less, ['<']⟩
  | '>' :: _ => some ⟨.binary .greater, ['>']⟩
  | '=' :: _ => some ⟨.binary .equal, ['=']⟩
  | '!' :: _ => some ⟨.unary .not, ['!']⟩
  | '+' :: _ => some ⟨.binary .add, ['+']⟩
  | '-' :: _ => some ⟨.binary .subtract, ['-']⟩
  | '*' :: _ => some ⟨.binary .multiply, ['*']⟩
  | '/' :: _ => some ⟨.binary .divide, ['/']⟩
  | '^' :: _ => some ⟨.binary .power, ['^']⟩
  | '&' :: _ => some ⟨.binary .and, ['&']⟩
  | '|' :: _ => some ⟨.binary .or, ['|']⟩
  | '(' :: _ => some ⟨.openParen, ['(']⟩
  | ')' :: _ => some ⟨.closeParen, [')']⟩
  | '\x7b' :: _ => some ⟨.openBlock, ['\x7b']⟩
  | '\x7d' :: _ => some ⟨.closeBlock, ['\x7d']⟩
  | _ => none

/-- The longest lexeme at the start of the characters, if any pattern matches there. -/
def longest? : List Char → Option Lexeme
  | [] => none
  | first :: rest =>
    if isLetter first then some (word first rest)
    else if first.isDigit then some (number first rest)
    else if first = '"' then string? rest
    else symbol? (first :: rest)

/-! Every lexeme consumes at least one character, which is why scanning a line comes to an end. -/

theorem symbol?_spelling_ne_nil {characters : List Char} {lexeme : Lexeme}
    (matched : symbol? characters = some lexeme) : lexeme.spelling ≠ [] := by
  unfold symbol? at matched
  split at matched <;> cases matched <;> simp

theorem number_spelling_ne_nil (first : Char) (rest : List Char) :
    (number first rest).spelling ≠ [] := by
  unfold number
  split
  · split <;> simp
  · simp

theorem longest?_spelling_ne_nil {characters : List Char} {lexeme : Lexeme}
    (matched : longest? characters = some lexeme) : lexeme.spelling ≠ [] := by
  cases characters with
  | nil => cases matched
  | cons first rest =>
    rw [longest?] at matched
    split at matched
    · cases matched
      simp [word]
    · split at matched
      · cases matched
        exact number_spelling_ne_nil first rest
      · split at matched
        · unfold string? at matched
          split at matched <;> cases matched
          simp
        · exact symbol?_spelling_ne_nil matched

end Lexeme

end Scriptlet
