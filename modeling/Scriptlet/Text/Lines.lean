import Scriptlet.Sequence

/-! The lines of a text. A line ends with a line feed, which a carriage return may precede; the last
line may lack its ending. -/

namespace Scriptlet

/-- The characters without a final line feed, and without a carriage return just before it. A
carriage return that no line feed follows belongs to the line. -/
def dropLineEnding (line : List Char) : List Char :=
  match line.reverse with
  | '\n' :: '\r' :: reversed => reversed.reverse
  | '\n' :: reversed => reversed.reverse
  | _ => line

def linesOf (text : String) : List (List Char) :=
  (splitAfter (· == '\n') text.toList).map dropLineEnding

end Scriptlet
