import Listfile.Token
/-! # From text to tokens

At each place where a token starts, `scan` gives the kind of the token and how many characters it takes
after the first, so that every token has at least one. Most tokens are decided by their first character.
Two pairs compete: text that starts with `[[` may be a bracket argument or an unquoted one, and text that
starts with `#[[` may be a bracket comment or a line comment. Each competitor's reach is computed on its own
and the two are compared.
-/
namespace Listfile.Lexer
set_option autoImplicit false

def isBlank (c : Char) : Bool := c = ' ' || c = '\t' || c = '\r' || c = '\n' || c = '\x0c'

/-- Whether an unquoted argument takes the character as it is. -/
def isPlain (c : Char) : Bool :=
  !(isBlank c || c = '(' || c = ')' || c = '#' || c = '"' || c = '\\')

/-- How many characters at the head of a text continue an unquoted argument. A backslash takes the
character after it along, unless that is a line feed. -/
def unquotedLength : List Char → Nat
  | [] => 0
  | '\\' :: c :: cs => if c = '\n' then 0 else unquotedLength cs + 2
  | c :: cs => if isPlain c then unquotedLength cs + 1 else 0

/-- How far a delimited text reaches: through its closing delimiter, or to where it is given up. -/
inductive Extent where
  | closed (length : Nat)
  | unclosed (length : Nat)
deriving DecidableEq, Repr

def Extent.shift (n : Nat) : Extent → Extent
  | closed length => closed (length + n)
  | unclosed length => unclosed (length + n)

/-- The extent of a quoted argument after its opening quote. A backslash that escapes nothing is left out. -/
def quotedExtent : List Char → Extent
  | [] => .unclosed 0
  | '\\' :: c :: cs => if c = '\n' then .unclosed 0 else (quotedExtent cs).shift 2
  | c :: cs =>
    if c = '"' then .closed 1
    else if c = '\\' then .unclosed 0
    else (quotedExtent cs).shift 1

/-- The extent of a bracket body after its `[[`. A bracket at the end of the text that still waits for a
second one is left out. -/
def bracketExtent : List Char → Extent
  | [] => .unclosed 0
  | ']' :: c :: cs => if c = ']' then .closed 2 else (bracketExtent cs).shift 2
  | c :: cs => if c = ']' then .unclosed 0 else (bracketExtent cs).shift 1

def scanQuoted (cs : List Char) : Token.Kind × Nat :=
  match quotedExtent cs with
  | .closed n => (.quoted, n)
  | .unclosed n => (.invalid, n)

def scanUnquoted (c : Char) (cs : List Char) : Token.Kind × Nat :=
  match unquotedLength (c :: cs) with
  | 0 => (.invalid, 0)
  | n + 1 => (.unquoted, n)

/-- A token that starts with `[[`, where `cs` is the text after the first of the two.

An unquoted argument that reaches past the closing brackets wins, and so does one that ends where they do
if a backslash follows. Without closing brackets the text is one unquoted argument if that takes all of it,
a last backslash included, and invalid otherwise. -/
def scanBracket (cs : List Char) : Token.Kind × Nat :=
  let reach := unquotedLength cs
  match (bracketExtent cs.tail).shift 1 with
  | .closed n =>
    if n < reach ∨ (n = reach ∧ cs[n]? = some '\\') then (.unquoted, reach) else (.bracket, n)
  | .unclosed n =>
    if cs.drop reach = [] ∨ cs.drop reach = ['\\'] then (.unquoted, cs.length) else (.invalid, n)

/-- A token that starts with `#`.

A bracket comment that is closed on its first line gives way to a line comment that reaches further. One
that is never closed is a line comment if the text has no further line, and invalid otherwise. -/
def scanComment (cs : List Char) : Token.Kind × Nat :=
  let line := (cs.takeWhile (· ≠ '\n')).length
  match cs with
  | '[' :: '[' :: body =>
    match (bracketExtent body).shift 2 with
    | .closed n => if n < line then (.lineComment, line) else (.bracketComment, n)
    | .unclosed n => if line = cs.length then (.lineComment, line) else (.invalid, n)
  | _ => (.lineComment, line)

/-- The kind of the token at the head of a text that starts with `c`, and its length after `c`. -/
def scan (c : Char) (cs : List Char) : Token.Kind × Nat :=
  if c = '(' then (.leftParen, 0)
  else if c = ')' then (.rightParen, 0)
  else if c = '"' then scanQuoted cs
  else if c = '#' then scanComment cs
  else if c = '[' ∧ cs.head? = some '[' then scanBracket cs
  else scanUnquoted c cs

/-- All tokens of a text whose first character is at `offset`, comments included, without its end. -/
def lexemes (offset : Nat) : List Char → List Token
  | [] => []
  | c :: cs =>
    if isBlank c then lexemes (offset + c.utf8Size) cs
    else
      let (kind, length) := scan c cs
      let text := String.ofList (c :: cs.take length)
      let stop := offset + text.utf8ByteSize
      ⟨kind, ⟨offset, stop⟩, text⟩ :: lexemes stop (cs.drop length)
termination_by cs => cs.length

end Listfile.Lexer

namespace Listfile
set_option autoImplicit false

/-- The tokens of a script: no comments, and the end of the text last. -/
def tokenize (source : String) : List Token :=
  let stop := source.utf8ByteSize
  (Lexer.lexemes 0 source.toList).filter (!·.kind.isComment) ++ [⟨.endOfText, ⟨stop, stop⟩, ""⟩]

end Listfile
