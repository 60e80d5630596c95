import Listfile.ParseError
/-! # Command invocations

A script is a sequence of invocations: a name, an opening parenthesis, arguments among which parentheses are
balanced, and the closing parenthesis. `Invocation.all` splits a token list into its invocations and says how
the list ended. What an invocation means for the structure of the script plays no part here.
-/
namespace Listfile
set_option autoImplicit false

structure Invocation where
  name : Token
  opening : Token
  /-- The tokens between the outer parentheses; inner parentheses are among them. -/
  arguments : List Token
  closing : Token
deriving DecidableEq, Repr

namespace Invocation

def tokens (call : Invocation) : List Token := call.name :: call.opening :: call.arguments ++ [call.closing]

/-- From the start of the name to the closing parenthesis. -/
def span (call : Invocation) : Span := call.name.span.merge call.closing.span

/-- What a token does within arguments where `nesting` inner parentheses are open: `none` if it closes the
arguments, otherwise how many are open after it. -/
def nestingAfter (nesting : Nat) (token : Token) : Except ParseError (Option Nat) :=
  match token.kind, nesting with
  | .quoted, _ | .bracket, _ | .unquoted, _ => .ok (some nesting)
  | .leftParen, _ => .ok (some (nesting + 1))
  | .rightParen, 0 => .ok none
  | .rightParen, nesting + 1 => .ok (some nesting)
  | .endOfText, _ => .error (.unexpectedEnd token.span)
  | found, _ => .error (.unexpectedToken .argument found token.span)

/-- Splits a token list at the parenthesis that closes the arguments: the tokens before it, the parenthesis,
and the tokens after it. -/
def readArguments (nesting : Nat) : List Token → Except ParseError (List Token × Token × List Token)
  | [] => .error (.unexpectedEnd .origin)
  | token :: rest =>
    match nestingAfter nesting token with
    | .error error => .error error
    | .ok none => .ok ([], token, rest)
    | .ok (some nesting) =>
      match readArguments nesting rest with
      | .error error => .error error
      | .ok (arguments, closing, rest) => .ok (token :: arguments, closing, rest)

/-- Nothing is lost or reordered. -/
theorem eq_of_readArguments {nesting : Nat} {tokens arguments rest : List Token} {closing : Token}
    (h : readArguments nesting tokens = .ok (arguments, closing, rest)) :
    tokens = arguments ++ closing :: rest := by
  fun_induction readArguments nesting tokens generalizing arguments with
  | case1 => cases h
  | case2 => cases h
  | case3 nesting token rest hStep => cases h; rfl
  | case4 => cases h
  | case5 nesting token rest inner hStep inside closing' rest' hRead ih => cases h; simp [ih hRead]

def read (name : Token) (rest : List Token) : Except ParseError (Invocation × List Token) :=
  if name.kind = .unquoted then
    match rest with
    | [] => .error (.unexpectedToken .leftParen .endOfText .origin)
    | opening :: rest =>
      if opening.kind = .leftParen then
        match readArguments 0 rest with
        | .error error => .error error
        | .ok (arguments, closing, rest) => .ok (⟨name, opening, arguments, closing⟩, rest)
      else .error (.unexpectedToken .leftParen opening.kind opening.span)
  else .error (.unexpectedToken .commandName name.kind name.span)

theorem eq_of_read {name : Token} {tokens rest : List Token} {call : Invocation}
    (h : read name tokens = .ok (call, rest)) : name :: tokens = call.tokens ++ rest := by
  unfold read at h
  split at h
  · split at h
    · cases h
    · split at h
      · split at h
        · cases h
        · rename_i hRead
          cases h
          simp [Invocation.tokens, eq_of_readArguments hRead]
      · cases h
  · cases h

theorem length_lt_of_read {name : Token} {tokens rest : List Token} {call : Invocation}
    (h : read name tokens = .ok (call, rest)) : rest.length < (name :: tokens).length := by
  rw [eq_of_read h]
  simp [Invocation.tokens]
  omega

/-- How a token list ends after its last invocation. -/
inductive Ending where
  /-- At the end of the text, whose place is given. -/
  | complete (span : Span)
  /-- At a token that no invocation can take. -/
  | refused (error : ParseError)
deriving DecidableEq, Repr

/-- The invocations of a token list, and how it ends. -/
def all : List Token → List Invocation × Ending
  | [] => ([], .complete .origin)
  | token :: rest =>
    if token.kind = .endOfText then ([], .complete token.span)
    else
      match _ : read token rest with
      | .error error => ([], .refused error)
      | .ok (call, rest) =>
        let (calls, ending) := all rest
        (call :: calls, ending)
termination_by tokens => tokens.length
decreasing_by exact length_lt_of_read ‹_›

end Invocation

end Listfile
