/-! # Control characters

A terminal acts on control characters, and on the sequences that an escape character starts. Text that is not
meant for a terminal is written without them. Blanks are kept, also within a sequence: the text then goes on
up to the next control character, and the sequence is taken up again after it.
-/
namespace Listfile.Text
set_option autoImplicit false

/-- How far a sequence has come. -/
inductive Control where
  | idle
  | escape
  | escapeIntermediate
  /-- After an opening bracket, up to the letter that says what is to be done. -/
  | parameters
  | device
  | deviceParameters
  | deviceIntermediate
  /-- A string that ends with the string terminator. -/
  | string
  /-- A command for the operating system, which ends with a bell. -/
  | command
deriving DecidableEq, Repr

namespace Control

/-- Whether the encoding of a character holds the byte that ends a string. -/
def endsString (c : Char) : Bool := (String.singleton c).toUTF8.toList.contains 0x9c

/-- How far the sequence has come after a further character. -/
def next (control : Control) (c : Char) : Control :=
  let within (first last : Char) : Bool := first ≤ c && c ≤ last
  if c = '\x18' ∨ c = '\x1a' then idle
  else if c = '\x1b' then escape
  else
    match control with
    | idle => idle
    | escape =>
      if within ' ' '/' then escapeIntermediate
      else if c = '[' then parameters
      else if c = ']' then command
      else if c = 'P' then device
      else if c = 'X' ∨ c = '^' ∨ c = '_' then string
      else if within '0' '~' then idle
      else escape
    | escapeIntermediate => if within '0' '~' then idle else escapeIntermediate
    | parameters => if within '@' '~' then idle else parameters
    | device =>
      if within ' ' '/' then deviceIntermediate
      else if within '0' '?' then deviceParameters
      else if within '@' '~' then string
      else device
    | deviceParameters =>
      if within ' ' '/' then deviceIntermediate else if within '<' '~' then string else deviceParameters
    | deviceIntermediate => if within '0' '~' then string else deviceIntermediate
    | string => if endsString c then idle else string
    | command => if c = '\x07' then idle else command

/-- Whether a character is kept where a sequence has come so far. -/
def keeps (control : Control) (c : Char) : Bool :=
  let isBlank := c = '\t' ∨ c = '\n' ∨ c = '\x0c' ∨ c = '\r'
  match control with
  | idle => isBlank ∨ (' ' ≤ c ∧ c ≠ '\x7f')
  | escape | escapeIntermediate | parameters => isBlank
  | _ => false

/-- The characters that are kept. While the text goes on, as `goesOn` says, a sequence is held up. -/
def filter : Bool → Control → List Char → List Char
  | _, _, [] => []
  | goesOn, control, c :: cs =>
    if (if goesOn then idle else control).keeps c then
      c :: filter true (if c.val < 0x80 then control else idle) cs
    else filter false (control.next c) cs

end Control

/-- A text without its control characters and sequences. -/
def withoutControls (text : String) : String := String.ofList (Control.filter false .idle text.toList)

end Listfile.Text
