import Listfile.Invocation
import Listfile.Token.Lexer
import Listfile.Tree.Node
/-! # From invocations to a tree

Invocations are taken one after the other into an outline: the statements that are finished, and the blocks
that are open around the place that has been reached. An opening command opens a block, a terminator closes
the innermost one or starts its next arm, and every other invocation is a statement of its own. A script is
accepted if no block is open at its end.
-/
namespace Listfile
set_option autoImplicit false

/-! ## Nodes for invocations -/

/-- A text without its first and last `width` characters. -/
def withoutDelimiters (width : Nat) (text : String) : String :=
  String.ofList ((text.toList.drop width).take (text.length - 2 * width))

/-- The word that an argument token stands for. Parentheses stand for themselves. -/
def Token.word (lines : LineIndex) (token : Token) : Node :=
  let place := lines.locate token.span
  match token.kind with
  | .quoted => .word place .quoted (withoutDelimiters 1 token.text)
  | .bracket => .word place .bracket (withoutDelimiters 2 token.text)
  | _ => .word place (.ofUnquoted token.text) token.text

namespace Invocation

def words (lines : LineIndex) (call : Invocation) : List Node := call.arguments.map (·.word lines)

def call (lines : LineIndex) (call : Invocation) : Node :=
  .call (lines.locate call.span) call.name.text (call.words lines)

/-- The invocation as the inclusion of a file, whose name is the first argument. -/
def inclusion (lines : LineIndex) (call : Invocation) : Except ParseError Node :=
  match (call.words lines).filterMap Node.label? with
  | [] => .error (.emptyInclusion call.span)
  | filename :: options => .ok (.inclusion (lines.locate call.span) filename options)

end Invocation

/-- An arm of a conditional, whose statements are given last first. It extends to its last statement. -/
def Node.ofArm (lines : LineIndex) (form : ClauseForm) (header : Node) (reversed : List Node) : Node :=
  let span :=
    match reversed with
    | [] => header.span
    | last :: _ => header.span.merge last.span
  .clause (lines.locate span) form header reversed.reverse

/-! ## Open blocks -/

/-- What an open block will become, with those of its arms that are finished. -/
inductive OpenForm where
  | block (form : BlockForm)
  | ifArm
  /-- `elseifs` are the finished arms after the first, last first. -/
  | elseifArm (ifClause : Node) (elseifs : List Node)
  | elseArm (ifClause : Node) (elseifs : List Node)

/-- An open block: the command that opened it, or its current arm, and the statements since, last first. -/
structure OpenBlock where
  opener : Invocation
  form : OpenForm
  reversed : List Node

inductive OpenBlock.Closed where
  | nextArm (block : OpenBlock)
  | finished (node : Node)

namespace OpenBlock

def terminator (block : OpenBlock) : Terminator :=
  match block.form with
  | .block form => .endBlock form
  | _ => .endConditional

def arm (lines : LineIndex) (form : ClauseForm) (block : OpenBlock) : Node :=
  .ofArm lines form (block.opener.call lines) block.reversed

def conditional (lines : LineIndex) (ifClause : Node) (elseifs : List Node) (elseClause : Option Node)
    (closing : Invocation) : Node :=
  .conditional (lines.locate (ifClause.span.merge closing.span)) ifClause elseifs.reverse elseClause
    (closing.call lines)

/-- What an invocation of a terminator makes of the block, if the block takes it. -/
def close? (lines : LineIndex) (block : OpenBlock) (terminator : Terminator) (closing : Invocation) :
    Option Closed :=
  match block.form, terminator with
  | .block form, .endBlock form' =>
    if form = form' then
      some (.finished (.block (lines.locate (block.opener.span.merge closing.span)) form
        (block.opener.call lines) block.reversed.reverse (closing.call lines)))
    else none
  | .ifArm, .elseifBranch => some (.nextArm ⟨closing, .elseifArm (block.arm lines .ifClause) [], []⟩)
  | .ifArm, .elseBranch => some (.nextArm ⟨closing, .elseArm (block.arm lines .ifClause) [], []⟩)
  | .ifArm, .endConditional => some (.finished (conditional lines (block.arm lines .ifClause) [] none closing))
  | .elseifArm ifClause elseifs, .elseifBranch =>
    some (.nextArm ⟨closing, .elseifArm ifClause (block.arm lines .elseifClause :: elseifs), []⟩)
  | .elseifArm ifClause elseifs, .elseBranch =>
    some (.nextArm ⟨closing, .elseArm ifClause (block.arm lines .elseifClause :: elseifs), []⟩)
  | .elseifArm ifClause elseifs, .endConditional =>
    some (.finished (conditional lines ifClause (block.arm lines .elseifClause :: elseifs) none closing))
  | .elseArm ifClause elseifs, .endConditional =>
    some (.finished (conditional lines ifClause elseifs (some (block.arm lines .elseClause)) closing))
  | _, _ => none

end OpenBlock

/-! ## Outlines -/

/-- What has been read of a script: finished statements, last first, and open blocks, innermost first. -/
structure Outline where
  reversed : List Node
  blocks : List OpenBlock

namespace Outline

def empty : Outline := ⟨[], []⟩

/-- Adds a statement where the script has been read to. -/
def push (outline : Outline) (statement : Node) : Outline :=
  match outline.blocks with
  | [] => { outline with reversed := statement :: outline.reversed }
  | block :: outer => { outline with blocks := { block with reversed := statement :: block.reversed } :: outer }

def «open» (outline : Outline) (opener : Invocation) (form : OpenForm) : Outline :=
  { outline with blocks := ⟨opener, form, []⟩ :: outline.blocks }

def close (lines : LineIndex) (outline : Outline) (terminator : Terminator) (closing : Invocation) :
    Except ParseError Outline :=
  match outline.blocks with
  | [] => .error (.unmatchedTerminator terminator closing.span)
  | block :: outer =>
    match block.close? lines terminator closing with
    | none => .error (.unmatchedTerminator terminator closing.span)
    | some (.nextArm block) => .ok { outline with blocks := block :: outer }
    | some (.finished node) => .ok (push { outline with blocks := outer } node)

def step (lines : LineIndex) (outline : Outline) (call : Invocation) : Except ParseError Outline :=
  match Keyword.ofName? call.name.text with
  | none => .ok (outline.push (call.call lines))
  | some .inclusion => (call.inclusion lines).map outline.push
  | some .openConditional => .ok (outline.open call .ifArm)
  | some (.openBlock form) => .ok (outline.open call (.block form))
  | some (.terminator terminator) => outline.close lines terminator call

def finish (lines : LineIndex) (outline : Outline) (span : Span) : Except ParseError Node :=
  match outline.blocks with
  | [] => .ok (.toplevel (lines.locate span) outline.reversed.reverse)
  | block :: _ => .error (.unclosedBlock block.opener.name.text block.terminator block.opener.span)

end Outline

/-- The tree of a list of tokens, which extends from the first of them to the end of the text. -/
def Node.ofTokens (lines : LineIndex) (tokens : List Token) : Except ParseError Node := do
  let (calls, ending) := Invocation.all tokens
  let outline ← calls.foldlM (Outline.step lines) .empty
  match ending with
  | .refused error => throw error
  | .complete stop =>
    let start := (tokens.head?.map (·.span)).getD stop
    outline.finish lines (start.merge stop)

def parse (source : String) : Except ParseError Node :=
  Node.ofTokens (LineIndex.ofSource source) (tokenize source)

end Listfile
