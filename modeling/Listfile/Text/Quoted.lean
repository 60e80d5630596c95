import Listfile.Text.Invisible
/-! # Text within a message

A message shows a text between quotes, with everything escaped that could be mistaken for something else:
quotes and backslashes, control characters, and characters that cannot be seen.
-/
namespace Listfile.Text
set_option autoImplicit false

/-- The character of a message for one of the text. -/
def escapeShown (c : Char) : List Char :=
  if c = '\\' ∨ c = '"' then ['\\', c]
  else if c = '\n' then ['\\', 'n']
  else if c = '\r' then ['\\', 'r']
  else if c = '\t' then ['\\', 't']
  else if c = '\x00' then ['\\', '0']
  else if c < ' ' || isInvisible c then
    ['\\', 'u', '\x7b'] ++ Nat.toDigits 16 c.toNat ++ ['\x7d']
  else [c]

/-- A text as a message shows it, with its quotes. -/
def shown (text : String) : String := String.ofList ('"' :: text.toList.flatMap escapeShown ++ ['"'])

end Listfile.Text
