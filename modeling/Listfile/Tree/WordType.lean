/-! # Kinds of words

How an argument was written, and for an unquoted one what its text looks like: a number, one reference
`${name}`, text with a reference in it, or plain text.
-/
namespace Listfile
set_option autoImplicit false

inductive WordType where
  | unquoted
  | quoted
  | bracket
  | number
  | reference
  | compound
deriving DecidableEq, Repr, Inhabited

namespace WordType

def all : List WordType := [unquoted, quoted, bracket, number, reference, compound]

def name : WordType → String
  | unquoted => "Unquoted"
  | quoted => "Quoted"
  | bracket => "Bracket"
  | number => "Number"
  | reference => "VariableDereference"
  | compound => "CompoundLiteral"

/-- Whether a word of this type means its text as it stands. -/
def isLiteral : WordType → Bool
  | reference | compound => false
  | _ => true

def opensReference : List Char → Bool
  | '$' :: '{' :: _ => true
  | _ :: cs => opensReference cs
  | [] => false

/-- Whether a text is one reference: it starts with `${`, and its first `}` after that is its last
character. -/
def isReference : List Char → Bool
  | '$' :: '{' :: cs => cs.dropWhile (· ≠ '}') = ['}']
  | _ => false

/-- Whether a text has digits, and nothing else but points. -/
def isNumber (cs : List Char) : Bool := cs.any Char.isDigit && cs.all fun c => c.isDigit || c = '.'

def ofUnquoted (text : String) : WordType :=
  let cs := text.toList
  if isNumber cs then number
  else if isReference cs then reference
  else if opensReference cs then compound
  else unquoted

end WordType

end Listfile
