import Listfile.Tree.Outline
/-! # Recursive descent with every check written out

A script can be read by a cursor that moves over its tokens, by one function for each construct that calls those for
what is within it. Such a descent can go wrong in other ways than by an error in the script: it may look for a token
where there is none, cut a text within a character, count below zero, or go on for ever. Here each of these is a fault,
and each step that could have one checks for it. Turns of a loop and levels of recursion are limited to as many as there
are tokens, and a loop may go on only after it has consumed tokens, none of which is the end of the text.
-/
namespace Listfile
set_option autoImplicit false

namespace Descent

inductive Fault where
  | noToken
  /-- The cursor moves past the end of the text. -/
  | passedEnd
  /-- A token that has just been seen is not there. -/
  | lostToken
  | underflow
  /-- No such element, or not bytes of a text that start and end with characters of it. -/
  | outOfRange
  /-- A loop goes on, but no token has been consumed, or the end of the text has been. -/
  | stalled
  /-- More turns of a loop, or levels of recursion, than there are tokens. -/
  | endless
deriving DecidableEq, Repr

inductive Halt where
  | refused (error : ParseError)
  | fault (fault : Fault)
deriving DecidableEq, Repr

/-! ## Numbers and texts -/

def minus (a b : Nat) : Except Fault Nat := if b ≤ a then .ok (a - b) else .error .underflow

def element {α : Type} (items : List α) (index : Nat) : Except Fault α :=
  match items[index]? with
  | some item => .ok item
  | none => .error .outOfRange

/-- Splits a text after so many bytes, if a character ends there. -/
def splitAtByte? : Nat → List Char → Option (List Char × List Char)
  | 0, cs => some ([], cs)
  | _ + 1, [] => none
  | bytes + 1, c :: cs =>
    if c.utf8Size ≤ bytes + 1 then
      (splitAtByte? (bytes + 1 - c.utf8Size) cs).map fun (front, back) => (c :: front, back)
    else none

def slice (text : String) (start stop : Nat) : Except Fault String :=
  match splitAtByte? stop text.toList with
  | none => .error .outOfRange
  | some (front, _) =>
    match splitAtByte? start front with
    | none => .error .outOfRange
    | some (_, inner) => .ok (String.ofList inner)

/-- The place of an offset in an ascending list, or else the place where it would have to be put. -/
def search (starts : List Nat) (offset : Nat) : Nat ⊕ Nat :=
  let next := (starts.takeWhile (· < offset)).length
  if starts[next]? = some offset then .inl next else .inr next

/-- The last line that does not start after an offset. -/
def lineOf (starts : List Nat) (offset : Nat) : Except Fault Nat :=
  match search starts offset with
  | .inl line => .ok line
  | .inr next => minus next 1

def position (lines : LineIndex) (offset : Nat) : Except Fault Position := do
  let line ← lineOf lines.starts.toList offset
  let start ← element lines.starts.toList line
  let column ← minus offset start
  return ⟨line + 1, column + 1⟩

def locate (lines : LineIndex) (span : Span) : Except Fault Location := do
  return ⟨span, ← position lines span.start⟩

/-- The first byte of a character in a text. -/
def find? (c : Char) (text : String) : Option Nat :=
  if c ∈ text.toList then some (String.ofList (text.toList.takeWhile (· ≠ c))).utf8ByteSize else none

/-- Whether a text is one reference: the first `}` after a `${` at its start is its last character. -/
def isReference (text : String) : Except Fault Bool :=
  if text.toList.take 2 = ['$', '{'] ∧ text.toList.getLast? = some '}' then do
    let rest ← slice text 2 text.utf8ByteSize
    let last ← minus text.utf8ByteSize 3
    return find? '}' rest = some last
  else return false

def classify (text : String) : Except Fault WordType :=
  if WordType.isNumber text.toList then return .number
  else do
    let single ← isReference text
    return if single then .reference else if WordType.opensReference text.toList then .compound else .unquoted

/-! ## The cursor -/

/-- A computation that moves a cursor. -/
abbrev Step := StateT Nat (Except Halt)

variable {α σ : Type}

def halt (reason : Halt) : Step α := fun _ => .error reason

def attempt (result : Except Fault α) : Step α := fun cursor =>
  match result with
  | .ok value => .ok (value, cursor)
  | .error fault => .error (.fault fault)

structure Input where
  source : String
  tokens : List Token

def Input.ofSource (source : String) : Input := ⟨source, tokenize source⟩

variable (input : Input)

def Input.lines : LineIndex := .ofSource input.source

def textOf (token : Token) : Except Fault String := slice input.source token.span.start token.span.stop

def current : Step Token := do
  match input.tokens[← get]? with
  | some token => return token
  | none =>
    match input.tokens.getLast? with
    | some token => return token
    | none => halt (.fault .noToken)

/-- Consumes the current token. The last token of all stays. -/
def advance : Step Token := do
  let token ← current input
  let last ← attempt (minus input.tokens.length 1)
  let cursor ← get
  if cursor < last then
    if token.kind = .endOfText then halt (.fault .passedEnd) else set (cursor + 1)
  return token

def expectation? : Token.Kind → Option Expectation
  | .unquoted => some .commandName
  | .leftParen => some .leftParen
  | _ => none

def consume (kind : Token.Kind) : Step Token := do
  let token ← current input
  if token.kind = kind then advance input
  else
    match expectation? kind with
    | some expected => halt (.refused (.unexpectedToken expected token.kind token.span))
    | none => halt (.fault .lostToken)

/-! ## Loops -/

/-- What a turn of a loop comes to. -/
inductive Turn (σ α : Type) where
  | again (state : σ)
  | leave (result : α)

/-- Whether a cursor has moved over tokens to another one, and not over the end of the text. -/
def Input.consumes (before after : Nat) : Bool :=
  before < after && after < input.tokens.length &&
    ((input.tokens.drop before).take (after - before)).all (·.kind ≠ .endOfText)

def repeatedly (turn : σ → Step (Turn σ α)) : Nat → σ → Step α
  | 0, _ => halt (.fault .endless)
  | turns + 1, state => do
    let before ← get
    match ← turn state with
    | .leave result => return result
    | .again state =>
      if input.consumes before (← get) then repeatedly turn turns state else halt (.fault .stalled)

def loop (turn : σ → Step (Turn σ α)) (state : σ) : Step α := repeatedly input turn input.tokens.length state

/-! ## Invocations -/

/-- The word for an argument that has delimiters of some bytes on both sides. -/
def delimited (type : WordType) (width : Nat) (token : Token) : Except Fault Node := do
  let text ← textOf input token
  let stop ← minus text.utf8ByteSize width
  let contents ← slice text width stop
  return .word (← locate input.lines token.span) type contents

def argument (token : Token) : Except Fault Node :=
  match token.kind with
  | .quoted => delimited input .quoted 1 token
  | .bracket => delimited input .bracket 2 token
  | _ => do
    let text ← textOf input token
    let type ← classify text
    return .word (← locate input.lines token.span) type text

def parenthesis (token : Token) : Except Fault Node := do
  let text ← textOf input token
  return .word (← locate input.lines token.span) .unquoted text

/-- Takes a token as a word. -/
def take (word : Except Fault Node) (nesting : Nat) (words : List Node) : Step (Turn (Nat × List Node) (List Node)) := do
  let word ← attempt word
  let _ ← advance input
  return .again (nesting, words ++ [word])

/-- One token within the parentheses of an invocation, where there are inner ones that are open. -/
def argumentTurn : Nat × List Node → Step (Turn (Nat × List Node) (List Node))
  | (nesting, words) => do
    let token ← current input
    match token.kind with
    | .rightParen =>
      if nesting = 0 then return .leave words
      else
        let inner ← attempt (minus nesting 1)
        take input (parenthesis input token) inner words
    | .leftParen => take input (parenthesis input token) (nesting + 1) words
    | .quoted | .bracket | .unquoted => take input (argument input token) nesting words
    | .endOfText => halt (.refused (.unexpectedEnd token.span))
    | found => halt (.refused (.unexpectedToken .argument found token.span))

def invocation : Step Node := do
  let start ← current input
  let name ← consume input .unquoted
  let text ← attempt (textOf input name)
  let _ ← consume input .leftParen
  let words ← loop input (argumentTurn input) (0, [])
  let closing ← consume input .rightParen
  let place ← attempt (locate input.lines (start.span.merge closing.span))
  return .call place text words

/-! ## Statements -/

def commandName : Node → String
  | .call _ name _ => name
  | _ => ""

def terminator? (call : Node) : Option Terminator :=
  match Keyword.ofName? (commandName call) with
  | some (.terminator terminator) => some terminator
  | _ => none

/-- One statement of a body, or the invocation that closes it. -/
def bodyTurn (statement : Node → Step Node) (opener : Node) (closers : List Terminator) (body : List Node) :
    Step (Turn (List Node) (List Node × Node)) := do
  let token ← current input
  if token.kind = .endOfText then
    let last ← attempt (minus closers.length 1)
    let closer ← attempt (element closers last)
    halt (.refused (.unclosedBlock (commandName opener) closer opener.span))
  else
    let call ← invocation input
    match terminator? call with
    | some terminator =>
      if terminator ∈ closers then return .leave (body, call)
      else halt (.refused (.unmatchedTerminator terminator call.span))
    | none => return .again (body ++ [← statement call])

def body (statement : Node → Step Node) (opener : Node) (closers : List Terminator) : Step (List Node × Node) :=
  loop input (bodyTurn input statement opener closers) []

def block (statement : Node → Step Node) (form : BlockForm) (header : Node) : Step Node := do
  let (statements, footer) ← body input statement header [.endBlock form]
  let place ← attempt (locate input.lines (header.span.merge footer.span))
  return .block place form header statements footer

def clause (form : ClauseForm) (header : Node) (statements : List Node) : Step Node := do
  let span :=
    match statements.getLast? with
    | none => header.span
    | some last => header.span.merge last.span
  let place ← attempt (locate input.lines span)
  return .clause place form header statements

/-- The terminators that end an arm of a conditional which other arms may follow. -/
def armClosers : List Terminator := [.elseifBranch, .elseBranch, .endConditional]

/-- One arm after the first, if `next` is its header. -/
def armTurn (statement : Node → Step Node) : List Node × Node → Step (Turn (List Node × Node) (List Node × Node))
  | (arms, next) => do
    if terminator? next = some .elseifBranch then
      let (statements, following) ← body input statement next armClosers
      return .again (arms ++ [← clause input .elseifClause next statements], following)
    else return .leave (arms, next)

/-- The arm without a condition, if `next` is its header, and the end of the conditional. -/
def lastArm (statement : Node → Step Node) (next : Node) : Step (Option Node × Node) := do
  if terminator? next = some .elseBranch then
    let (statements, following) ← body input statement next [.endConditional]
    return (some (← clause input .elseClause next statements), following)
  else return (none, next)

def conditional (statement : Node → Step Node) (header : Node) : Step Node := do
  let (statements, next) ← body input statement header armClosers
  let ifClause ← clause input .ifClause header statements
  let (elseifs, next) ← loop input (armTurn input statement) ([], next)
  let (elseClause, footer) ← lastArm input statement next
  let place ← attempt (locate input.lines (ifClause.span.merge footer.span))
  return .conditional place ifClause elseifs elseClause footer

def inclusion (call : Node) : Step Node := do
  let words := match call with
    | .call _ _ words => words
    | _ => []
  match words.filterMap Node.label? with
  | [] => halt (.refused (.emptyInclusion call.span))
  | filename :: options => return .inclusion (← attempt (locate input.lines call.span)) filename options

/-- The statement that an invocation is, or starts. -/
def statement : Nat → Node → Step Node
  | 0, _ => halt (.fault .endless)
  | levels + 1, call =>
    match Keyword.ofName? (commandName call) with
    | some .openConditional => conditional input (statement levels) call
    | some (.openBlock form) => block input (statement levels) form call
    | some .inclusion => inclusion input call
    | _ => return call

/-- One statement that is not within a block. -/
def fileTurn (statements : List Node) : Step (Turn (List Node) (List Node)) := do
  let token ← current input
  if token.kind = .endOfText then return .leave statements
  else
    let call ← invocation input
    match terminator? call with
    | some terminator => halt (.refused (.unmatchedTerminator terminator call.span))
    | none => return .again (statements ++ [← statement input input.tokens.length call])

def file : Step Node := do
  let start ← current input
  let statements ← loop input (fileTurn input) []
  let stop ← current input
  let place ← attempt (locate input.lines (start.span.merge stop.span))
  return .toplevel place statements

/-- The tree of a script, and the cursor at which it ends. -/
def run (source : String) : Except Halt (Node × Nat) := file (.ofSource source) 0

end Descent
end Listfile
