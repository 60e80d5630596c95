import Listfile.Source.LineIndex
/-! # What is shown of a text

A report on a text shows the lines that a span covers. The offsets of the span count characters there, and a line
ends at every character that breaks lines, not at line feeds alone. What is past the end of the text is not shown.
-/
namespace Listfile
set_option autoImplicit false

def breaksLine (c : Char) : Bool :=
  ['\n', '\x0b', '\x0c', '\r', '\u0085', '\u2028', '\u2029'].contains c

/-- Whether a line ends between two characters that follow each other. A carriage return and the line feed after
it are one break. -/
def endsLine (c next : Char) : Bool := breaksLine c && !(c == '\r' && next == '\n')

/-- The position of a character of a text whose first one is at `first`; an offset counts the characters before
it. A text ends on the line of its last character, even if that breaks lines. -/
def shownPosition (first : Position) : Nat → List Char → Position
  | 0, _ | _, [] => first
  | offset + 1, c :: cs =>
    if cs.head?.any (endsLine c) then shownPosition ⟨first.line + 1, 1⟩ offset cs
    else shownPosition ⟨first.line, first.column + 1⟩ offset cs

/-- The lines of a text that a span covers. -/
structure Excerpt where
  position : Position
  /-- Whether the span ends within the text. -/
  complete : Bool
deriving DecidableEq, Repr

/-- What is shown of a text for a span, if its first and its last character are in the text or at its end. -/
def Excerpt.ofSpan? (text : String) (span : Span) : Option Excerpt :=
  if span.start ≤ text.length ∧ span.stop ≤ text.length + 1 then
    some ⟨shownPosition ⟨1, 1⟩ span.start text.toList, span.stop ≤ text.length⟩
  else none

end Listfile
