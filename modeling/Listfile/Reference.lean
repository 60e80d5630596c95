import Listfile.SymbolTable
/-! # References in text

A reference is a name between `${` and the first `}` after it. Only the first reference of a text counts:
expanding a text replaces that one by the value of its name, and neither the value nor the rest of the text
is looked at again.
-/
namespace Listfile
set_option autoImplicit false

/-- The first reference of a text, with the text before and after it. -/
structure Reference where
  before : String
  name : String
  after : String
deriving DecidableEq, Repr, Inhabited

def Reference.start (reference : Reference) : Nat := reference.before.utf8ByteSize

def Reference.stop (reference : Reference) : Nat := reference.start + reference.name.utf8ByteSize + 3

inductive Reference.Scan where
  | absent
  /-- There is a `${`, and no `}` after it. -/
  | unterminated
  | found (reference : Reference)
deriving DecidableEq, Repr, Inhabited

/-- Splits a text at its first `${`, which neither part has. -/
def splitAtOpening? : List Char → Option (List Char × List Char)
  | [] => none
  | '$' :: '{' :: rest => some ([], rest)
  | c :: rest => (splitAtOpening? rest).map fun (before, after) => (c :: before, after)

def Reference.scan (text : String) : Scan :=
  match splitAtOpening? text.toList with
  | none => .absent
  | some (before, rest) =>
    match rest.dropWhile (· ≠ '}') with
    | [] => .unterminated
    | _ :: after =>
      .found ⟨String.ofList before, String.ofList (rest.takeWhile (· ≠ '}')), String.ofList after⟩

inductive Expansion where
  | noReference
  | malformed
  | undefined (name : String)
  | expanded (text : String)
deriving DecidableEq, Repr, Inhabited

/-- Replaces the first reference of a text by the value of its name. -/
def expand (text : String) (symbols : SymbolTable) : Expansion :=
  match Reference.scan text with
  | .absent => .noReference
  | .unterminated => .malformed
  | .found reference =>
    match symbols.lookup? reference.name with
    | some value => .expanded (reference.before ++ value ++ reference.after)
    | none => .undefined reference.name

end Listfile
