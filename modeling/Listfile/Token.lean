import Listfile.Source.Span
/-! # Tokens

A token is a piece of a script with its kind, its bytes and its text. Blanks separate tokens and belong to
none; comments are tokens until they are dropped. The end of the text is a token of its own, with no text.
-/
namespace Listfile
set_option autoImplicit false

inductive Token.Kind where
  | leftParen
  | rightParen
  | quoted
  | bracket
  | unquoted
  | lineComment
  | bracketComment
  /-- Text that no token can start with, or a delimited token that is never closed. -/
  | invalid
  | endOfText
deriving DecidableEq, Repr, Inhabited

structure Token where
  kind : Token.Kind
  span : Span
  text : String
deriving DecidableEq, Repr, Inhabited

namespace Token.Kind

def isComment : Kind → Bool
  | lineComment | bracketComment => true
  | _ => false

def isArgument : Kind → Bool
  | quoted | bracket | unquoted => true
  | _ => false

def description : Kind → String
  | leftParen => "'('"
  | rightParen => "')'"
  | quoted => "quoted argument"
  | bracket => "bracket argument"
  | unquoted => "identifier"
  | lineComment | bracketComment => "comment"
  | invalid => "invalid token"
  | endOfText => "end of file"

end Token.Kind

end Listfile
