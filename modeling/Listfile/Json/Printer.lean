import Listfile.Json.Number
/-! # Writing JSON

A value is written in one of two layouts: compact, with no blanks at all, or indented, with one member or
element on a line and two blanks a level. Strings are escaped only where they must be.
-/
namespace Listfile.Json
set_option autoImplicit false

/-- A digit of a hexadecimal number, in lower case. -/
def hexDigit (n : Nat) : Char := if n < 10 then Char.ofNat ('0'.toNat + n) else Char.ofNat ('a'.toNat + (n - 10))

def escape (c : Char) : List Char :=
  if c = '"' then ['\\', '"']
  else if c = '\\' then ['\\', '\\']
  else if c = '\n' then ['\\', 'n']
  else if c = '\r' then ['\\', 'r']
  else if c = '\t' then ['\\', 't']
  else if c = '\x08' then ['\\', 'b']
  else if c = '\x0c' then ['\\', 'f']
  else if c < ' ' then ['\\', 'u', '0', '0', hexDigit (c.toNat / 16), hexDigit (c.toNat % 16)]
  else [c]

def escapeAll (rest : List Char) : List Char → List Char
  | [] => rest
  | c :: cs => escape c ++ escapeAll rest cs

theorem escapeAll_eq (rest cs : List Char) : escapeAll rest cs = cs.flatMap escape ++ rest := by
  induction cs with
  | nil => rfl
  | cons c cs ih => simp [escapeAll, ih]

/-- Writes a string, with its quotes, in front of a text. -/
def quote (s : String) (rest : List Char) : List Char := '"' :: escapeAll ('"' :: rest) s.toList

theorem quote_append (s : String) (rest more : List Char) : quote s (rest ++ more) = quote s rest ++ more := by
  simp [quote, escapeAll_eq]

/-- Where blanks go. Everything else is common to all layouts. -/
inductive Layout where
  | compact
  | indented
deriving DecidableEq, Repr, Inhabited

namespace Layout

/-- What comes before an element or member, or a closing bracket, at the given depth. -/
def newline (layout : Layout) (depth : Nat) : List Char :=
  match layout with
  | compact => []
  | indented => '\n' :: List.replicate (2 * depth) ' '

/-- What separates the name of a member from its value. -/
def colon : Layout → List Char
  | compact => [':']
  | indented => [':', ' ']

end Layout

mutual

/-- Writes a value that stands at the given depth, in front of the text that follows it. -/
def write (layout : Layout) (depth : Nat) (value : Json) (rest : List Char) : List Char :=
  match value with
  | null => 'n' :: 'u' :: 'l' :: 'l' :: rest
  | bool true => 't' :: 'r' :: 'u' :: 'e' :: rest
  | bool false => 'f' :: 'a' :: 'l' :: 's' :: 'e' :: rest
  | number n => n.text.toList ++ rest
  | string s => quote s rest
  | array [] => '[' :: ']' :: rest
  | array (first :: others) =>
    let others := writeElements layout (depth + 1) others (layout.newline depth ++ ']' :: rest)
    '[' :: (layout.newline (depth + 1) ++ write layout (depth + 1) first others)
  | object [] => '{' :: '}' :: rest
  | object ((name, value) :: others) =>
    let others := writeMembers layout (depth + 1) others (layout.newline depth ++ '}' :: rest)
    '{' :: (layout.newline (depth + 1) ++ quote name (layout.colon ++ write layout (depth + 1) value others))

def writeElements (layout : Layout) (depth : Nat) (elements : List Json) (rest : List Char) : List Char :=
  match elements with
  | [] => rest
  | value :: others =>
    ',' :: (layout.newline depth ++ write layout depth value (writeElements layout depth others rest))

def writeMembers (layout : Layout) (depth : Nat) (members : List (String × Json)) (rest : List Char) :
    List Char :=
  match members with
  | [] => rest
  | (name, value) :: others =>
    let others := writeMembers layout depth others rest
    ',' :: (layout.newline depth ++ quote name (layout.colon ++ write layout depth value others))

end

mutual

/-- What follows a value does not change how it is written. -/
theorem write_append (layout : Layout) (depth : Nat) (value : Json) (rest more : List Char) :
    write layout depth value (rest ++ more) = write layout depth value rest ++ more := by
  match value with
  | null | bool true | bool false | array [] | object [] => rfl
  | number n => simp [write]
  | string s => exact quote_append s rest more
  | array (first :: others) =>
    simp only [write, ← List.cons_append, ← List.append_assoc, writeElements_append, write_append]
  | object ((name, value) :: others) =>
    simp only [write, ← List.cons_append, ← List.append_assoc, writeMembers_append, write_append,
      quote_append]

theorem writeElements_append (layout : Layout) (depth : Nat) (elements : List Json) (rest more : List Char) :
    writeElements layout depth elements (rest ++ more) = writeElements layout depth elements rest ++ more := by
  match elements with
  | [] => rfl
  | value :: others =>
    simp only [writeElements, ← List.cons_append, ← List.append_assoc, writeElements_append, write_append]

theorem writeMembers_append (layout : Layout) (depth : Nat) (members : List (String × Json))
    (rest more : List Char) :
    writeMembers layout depth members (rest ++ more) = writeMembers layout depth members rest ++ more := by
  match members with
  | [] => rfl
  | (name, value) :: others =>
    simp only [writeMembers, ← List.cons_append, ← List.append_assoc, writeMembers_append, write_append,
      quote_append]

end

def render (layout : Layout) (value : Json) : String := String.ofList (value.write layout 0 [])

end Listfile.Json
