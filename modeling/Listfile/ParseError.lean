import Listfile.Token
import Listfile.Keyword
/-! # Why a script is refused

Each error names its cause and the span it is about. The wording is given once, by `message`.
-/
namespace Listfile
set_option autoImplicit false

/-- What was looked for at the place of an unexpected token. -/
inductive Expectation where
  | commandName
  | leftParen
  | argument
deriving DecidableEq, Repr, Inhabited

def Expectation.description : Expectation → String
  | commandName => Token.Kind.unquoted.description
  | leftParen => Token.Kind.leftParen.description
  | argument => "argument or ')'"

inductive ParseError where
  | unexpectedToken (expected : Expectation) (found : Token.Kind) (span : Span)
  /-- The text ends within the arguments of a command. -/
  | unexpectedEnd (span : Span)
  /-- The text ends within a block; `opener` is its opening command, or that of its last arm, as written. -/
  | unclosedBlock (opener : String) (terminator : Terminator) (span : Span)
  /-- A terminator stands where no open block takes it. -/
  | unmatchedTerminator (terminator : Terminator) (span : Span)
  /-- A file is included without being named. -/
  | emptyInclusion (span : Span)
deriving DecidableEq, Repr

namespace ParseError

def span : ParseError → Span
  | unexpectedToken _ _ span => span
  | unexpectedEnd span => span
  | unclosedBlock _ _ span => span
  | unmatchedTerminator _ span => span
  | emptyInclusion span => span

def message : ParseError → String
  | unexpectedToken expected found _ =>
    "unexpected token: expected " ++ expected.description ++ ", found " ++ found.description
  | unexpectedEnd _ => "unexpected end of file"
  | unclosedBlock opener terminator _ =>
    "`" ++ opener ++ "` block is never closed, expected `" ++ terminator.name ++ "()`"
  | unmatchedTerminator terminator _ => "`" ++ terminator.name ++ "()` without a matching opening command"
  | emptyInclusion _ => "`include()` requires a file argument"

end ParseError

end Listfile
