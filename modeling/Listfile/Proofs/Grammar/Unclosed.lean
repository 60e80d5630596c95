import Mathlib.Logic.Function.Iterate
import Listfile.Proofs.Grammar.Concatenation
import Listfile.Proofs.Grammar.Spans
/-! # Scripts that end within blocks

The tokens of such a script are invocations, and what the grammar lacks is the ends of the statements that are open.
The error is about the innermost of them. If its terminator is written after the text, it is a statement of the one
around it, so that as many terminators have to be written, one at a time, as there are open statements.
-/
namespace Listfile
set_option autoImplicit false

/-- What there is of a statement whose terminator is missing. `body` are the statements since its last header. -/
inductive OpenStatement where
  | block (form : BlockForm) (opener : Invocation) (hOpener : opener.Names (.openBlock form)) (body : Derivation .body)
  | ifArm (opener : Invocation) (hOpener : opener.Names .openConditional) (body : Derivation .body)
  | elseifArm (opener : Invocation) (hOpener : opener.Names .openConditional) (first : Derivation .body)
    (elseifs : Derivation .elseifs) (header : Invocation) (hHeader : header.Names (.terminator .elseifBranch))
    (body : Derivation .body)
  | elseArm (opener : Invocation) (hOpener : opener.Names .openConditional) (first : Derivation .body)
    (elseifs : Derivation .elseifs) (header : Invocation) (hHeader : header.Names (.terminator .elseBranch))
    (body : Derivation .body)

namespace OpenStatement

def calls : OpenStatement → List Invocation
  | block _ opener _ body => opener :: body.calls
  | ifArm opener _ body => opener :: body.calls
  | elseifArm opener _ first elseifs header _ body => opener :: (first.calls ++ (elseifs.calls ++ header :: body.calls))
  | elseArm opener _ first elseifs header _ body => opener :: (first.calls ++ (elseifs.calls ++ header :: body.calls))

/-- The opening command, or that of the last arm of a conditional. -/
def header : OpenStatement → Invocation
  | block _ opener .. => opener
  | ifArm opener .. => opener
  | elseifArm _ _ _ _ header .. => header
  | elseArm _ _ _ _ header .. => header

def terminator : OpenStatement → Terminator
  | block form .. => .endBlock form
  | _ => .endConditional

def push (statement : Derivation .statement) : OpenStatement → OpenStatement
  | block form opener hOpener body => block form opener hOpener (body.concatStatement statement)
  | ifArm opener hOpener body => ifArm opener hOpener (body.concatStatement statement)
  | elseifArm opener hOpener first elseifs header hHeader body =>
    elseifArm opener hOpener first elseifs header hHeader (body.concatStatement statement)
  | elseArm opener hOpener first elseifs header hHeader body =>
    elseArm opener hOpener first elseifs header hHeader (body.concatStatement statement)

def finish (closing : Invocation) :
    (statement : OpenStatement) → closing.Names (.terminator statement.terminator) → Derivation .statement
  | block form opener hOpener body, hClosing => .block form opener hOpener body closing hClosing
  | ifArm opener hOpener body, hClosing => .conditional opener hOpener body .noElseif .noElse closing hClosing
  | elseifArm opener hOpener first elseifs header hHeader body, hClosing =>
    .conditional opener hOpener first (elseifs.concat (.elseif header hHeader body .noElseif)) .noElse closing hClosing
  | elseArm opener hOpener first elseifs header hHeader body, hClosing =>
    .conditional opener hOpener first elseifs (.elseBranch header hHeader body) closing hClosing

end OpenStatement

/-- What there is of a script: finished statements, and open ones within each other. -/
inductive OpenScript where
  | finished (body : Derivation .body)
  | within (outer : OpenScript) (inner : OpenStatement)

namespace OpenScript

def calls : OpenScript → List Invocation
  | finished body => body.calls
  | within outer inner => outer.calls ++ inner.calls

/-- The open statements, innermost first. -/
def statements : OpenScript → List OpenStatement
  | finished _ => []
  | within outer inner => inner :: outer.statements

def push (statement : Derivation .statement) : OpenScript → OpenScript
  | finished body => finished (body.concatStatement statement)
  | within outer inner => within outer (inner.push statement)

/-- The script has the tokens of the source, up to the end of the text. -/
def IsOf (script : OpenScript) (source : String) : Prop := Invocation.Split (tokenize source).dropLast script.calls

end OpenScript

/-! ## What is added and finished -/

namespace OpenStatement

variable (inner : OpenStatement)

theorem calls_push (statement : Derivation .statement) : (inner.push statement).calls = inner.calls ++ statement.calls := by
  cases inner <;>
    simp only [push, calls, Derivation.calls_concatStatement, List.append_assoc, List.cons_append]

theorem header_push (statement : Derivation .statement) : (inner.push statement).header = inner.header := by
  cases inner <;> rfl

theorem calls_finish {closing : Invocation} (hClosing : closing.Names (.terminator inner.terminator)) :
    (inner.finish closing hClosing).calls = inner.calls ++ [closing] := by
  cases inner with
  | block form opener hOpener body => rfl
  | ifArm opener hOpener body => rfl
  | elseifArm opener hOpener first elseifs header hHeader body =>
    have hElseifs := elseifs.calls_concat (.elseif header hHeader body .noElseif) (.inr rfl)
    simp only [finish, Derivation.calls, calls, hElseifs, List.append_assoc, List.cons_append, List.nil_append]
  | elseArm opener hOpener first elseifs header hHeader body =>
    simp only [finish, Derivation.calls, calls, List.append_assoc, List.cons_append]

theorem header_mem : inner.header ∈ inner.calls := by
  cases inner <;> simp [header, calls]

end OpenStatement

namespace OpenScript

theorem calls_push (script : OpenScript) (statement : Derivation .statement) :
    (script.push statement).calls = script.calls ++ statement.calls := by
  cases script with
  | finished body => exact body.calls_concatStatement statement
  | within outer inner => rw [push, calls, calls, inner.calls_push, List.append_assoc]

theorem headers_push (script : OpenScript) (statement : Derivation .statement) :
    (script.push statement).statements.map OpenStatement.header = script.statements.map OpenStatement.header := by
  cases script with
  | finished body => rfl
  | within outer inner => rw [push, statements, statements, List.map_cons, List.map_cons, inner.header_push]

theorem header_mem (script : OpenScript) : ∀ inner ∈ script.statements, inner.header ∈ script.calls := by
  induction script with
  | finished body => exact List.forall_mem_nil _
  | within outer inner ih =>
    exact List.forall_mem_cons.mpr ⟨List.mem_append_right _ inner.header_mem, fun other hOther =>
      List.mem_append_left _ (ih other hOther)⟩

end OpenScript

/-! ## What is made of their invocations -/

section outlines

variable (lines : LineIndex)

def OpenStatement.toBlock : OpenStatement → OpenBlock
  | block form opener _ body => ⟨opener, .block form, (body.nodes lines).reverse⟩
  | ifArm opener _ body => ⟨opener, .ifArm, (body.nodes lines).reverse⟩
  | elseifArm opener _ first elseifs header _ body =>
    ⟨header, .elseifArm (opener.clause lines .ifClause (first.nodes lines)) (elseifs.nodes lines).reverse,
      (body.nodes lines).reverse⟩
  | elseArm opener _ first elseifs header _ body =>
    ⟨header, .elseArm (opener.clause lines .ifClause (first.nodes lines)) (elseifs.nodes lines).reverse,
      (body.nodes lines).reverse⟩

def OpenScript.outline : OpenScript → Outline
  | finished body => ⟨(body.nodes lines).reverse, []⟩
  | within outer inner => ⟨(outer.outline).reversed, inner.toBlock lines :: outer.outline.blocks⟩

/-- The finished arms of a conditional, before the last header. -/
theorem taken_arms {opener : Invocation} (hOpener : opener.Names .openConditional) (first : Derivation .body)
    (elseifs : Derivation .elseifs) (outline : Outline) :
    ∃ block : OpenBlock, (opener :: (first.calls ++ elseifs.calls)).foldlM (Outline.step lines) outline =
        .ok ⟨outline.reversed, block :: outline.blocks⟩ ∧
      block.arms? lines =
        some (opener.clause lines .ifClause (first.nodes lines), (elseifs.nodes lines).reverse) := by
  have hFirst := first.taken lines (outline.open opener .ifArm)
  rw [Outline.pushAll_new] at hFirst
  obtain ⟨block, hElseifs, hArms⟩ := elseifs.taken lines outline.reversed
    ⟨opener, .ifArm, (first.nodes lines).reverse⟩ outline.blocks _ _ rfl
  rw [List.append_nil, OpenBlock.arm_eq] at hArms
  refine ⟨block, ?_, hArms⟩
  rw [foldlM_cons_ok (outline.step_conditional hOpener), foldlM_append_ok hFirst, hElseifs]

theorem OpenStatement.taken (inner : OpenStatement) (outline : Outline) :
    inner.calls.foldlM (Outline.step lines) outline =
      .ok ⟨outline.reversed, inner.toBlock lines :: outline.blocks⟩ := by
  cases inner with
  | block form opener hOpener body =>
    rw [calls, foldlM_cons_ok (outline.step_block hOpener), body.taken lines, Outline.pushAll_new]
    rfl
  | ifArm opener hOpener body =>
    rw [calls, foldlM_cons_ok (outline.step_conditional hOpener), body.taken lines, Outline.pushAll_new]
    rfl
  | elseifArm opener hOpener first elseifs header hHeader body =>
    obtain ⟨block, hArms, hEq⟩ := taken_arms lines hOpener first elseifs outline
    have hStep := (Outline.step_terminator ⟨outline.reversed, block :: outline.blocks⟩ hHeader).trans
      (Outline.close_nextArm (OpenBlock.close?_elseif hEq header))
    rw [calls, ← List.append_assoc, ← List.cons_append, foldlM_append_ok hArms, foldlM_cons_ok hStep, body.taken lines,
      Outline.pushAll_open, List.append_nil]
    rfl
  | elseArm opener hOpener first elseifs header hHeader body =>
    obtain ⟨block, hArms, hEq⟩ := taken_arms lines hOpener first elseifs outline
    have hStep := (Outline.step_terminator ⟨outline.reversed, block :: outline.blocks⟩ hHeader).trans
      (Outline.close_nextArm (OpenBlock.close?_else hEq header))
    rw [calls, ← List.append_assoc, ← List.cons_append, foldlM_append_ok hArms, foldlM_cons_ok hStep, body.taken lines,
      Outline.pushAll_open, List.append_nil]
    rfl

theorem OpenScript.taken (script : OpenScript) :
    script.calls.foldlM (Outline.step lines) .empty = .ok (script.outline lines) := by
  induction script with
  | finished body =>
    have hBody := body.taken lines .empty
    rw [Outline.empty, Outline.pushAll_closed, List.append_nil] at hBody
    exact hBody
  | within outer inner ih => rw [calls, foldlM_append_ok ih, inner.taken lines, outline]

variable {lines}

theorem OpenBlock.Holds.exists_open {block : OpenBlock} {calls : List Invocation} (h : block.Holds lines calls) :
    ∃ inner : OpenStatement, inner.calls = calls := by
  cases h with
  | block hOpener body => exact ⟨.block _ _ hOpener body, rfl⟩
  | ifArm hOpener body => exact ⟨.ifArm _ hOpener body, rfl⟩
  | elseifArm hOpener first elseifs hHeader body => exact ⟨.elseifArm _ hOpener first elseifs _ hHeader body, rfl⟩
  | elseArm hOpener first elseifs hHeader body => exact ⟨.elseArm _ hOpener first elseifs _ hHeader body, rfl⟩

theorem Outline.Holds.exists_open {outline : Outline} {calls : List Invocation} (h : outline.Holds lines calls) :
    ∃ script : OpenScript, script.calls = calls := by
  induction h with
  | finished body => exact ⟨.finished body, rfl⟩
  | within hOuter hBlock ih =>
    obtain ⟨outer, rfl⟩ := ih
    obtain ⟨inner, rfl⟩ := hBlock.exists_open
    exact ⟨.within outer inner, rfl⟩

end outlines

/-! ## Errors about open blocks -/

def ParseError.IsUnclosed : ParseError → Prop
  | unclosedBlock .. => True
  | _ => False

section refusals

variable {lines : LineIndex} {error : ParseError} {tokens : List Token}

theorem Invocation.not_unclosed_of_readArguments {nesting : Nat} (h : readArguments nesting tokens = .error error) :
    ¬error.IsUnclosed := by
  fun_induction readArguments nesting tokens with
  | case1 =>
    cases h
    exact id
  | case2 nesting token rest error' hStep =>
    cases h
    obtain ⟨kind, span, text⟩ := token
    cases kind <;> cases nesting <;> cases hStep <;> exact id
  | case3 => cases h
  | case4 nesting token rest inner hStep error' hRead ih =>
    cases h
    exact ih hRead
  | case5 => cases h

theorem Invocation.not_unclosed_of_read {name : Token} (h : read name tokens = .error error) : ¬error.IsUnclosed := by
  unfold read at h
  split at h
  · split at h
    · cases h
      exact id
    · split at h
      · split at h
        · rename_i hRead
          cases h
          exact not_unclosed_of_readArguments hRead
        · cases h
      · cases h
        exact id
  · cases h
    exact id

theorem Invocation.not_unclosed_of_all {calls : List Invocation} (h : all tokens = (calls, .refused error)) :
    ¬error.IsUnclosed := by
  fun_induction all tokens generalizing calls with
  | case1 => cases h
  | case2 => cases h
  | case3 token rest hKind error' hRead =>
    cases h
    exact not_unclosed_of_read hRead
  | case4 token rest hKind call rest' hRead calls' ending hAll ih =>
    cases h
    exact ih hAll

theorem Outline.not_unclosed_of_step {outline : Outline} {call : Invocation}
    (h : outline.step lines call = .error error) : ¬error.IsUnclosed := by
  unfold step at h
  split at h
  · cases h
  · unfold Invocation.inclusion at h
    split at h <;> cases h
    exact id
  · cases h
  · cases h
  · unfold close at h
    split at h
    · cases h
      exact id
    · split at h <;> cases h
      exact id

end refusals

namespace OpenScript

variable {script : OpenScript} {source : String}

/-- What is open at the end of a text is an error about the innermost open statement. -/
theorem IsOf.parse_within {outer : OpenScript} {inner : OpenStatement} (h : (within outer inner).IsOf source) :
    parse source = .error (.unclosedBlock inner.header.name.text inner.terminator inner.header.span) := by
  have hStop : (Token.ending source).kind = .endOfText := rfl
  rw [parse, tokenize_eq, Node.ofTokens, Invocation.all_of_split h hStop]
  simp only [taken]
  cases inner <;> rfl

theorem IsOf.exists_root {body : Derivation .body} (h : (finished body).IsOf source) :
    ∃ root, parse source = .ok root := by
  have hIsOf : body.IsOf source := h
  exact ⟨_, hIsOf.parse_eq⟩

theorem exists_of_unclosed {error : ParseError} (h : parse source = .error error) (hUnclosed : error.IsUnclosed) :
    ∃ script : OpenScript, script.IsOf source := by
  rw [parse, tokenize_eq] at h
  unfold Node.ofTokens at h
  cases hAll : Invocation.all ((tokenize source).dropLast ++ [.ending source]) with
  | mk calls ending =>
    rw [hAll] at h
    cases hFold : calls.foldlM (Outline.step (LineIndex.ofSource source)) .empty with
    | error error' =>
      simp only [hFold] at h
      cases h
      obtain ⟨front, call, back, outline, -, -, hStep⟩ := exists_of_foldlM_error hFold
      exact absurd hUnclosed (Outline.not_unclosed_of_step hStep)
    | ok outline =>
      simp only [hFold] at h
      cases ending with
      | refused error' =>
        cases h
        exact absurd hUnclosed (Invocation.not_unclosed_of_all hAll)
      | complete span =>
        obtain ⟨hSplit, -⟩ := Invocation.split_of_all kind_ne_of_mem_dropLast rfl hAll
        have hEmpty : Outline.Holds (LineIndex.ofSource source) .empty [] := .finished .empty
        obtain ⟨script, hCalls⟩ := (hEmpty.foldlM_step hFold).exists_open
        refine ⟨script, ?_⟩
        rwa [IsOf, hCalls]

/-- The headers of open statements come one after the other, that of the innermost last. -/
theorem IsOf.header_lt {outer : OpenScript} {inner : OpenStatement} (h : (within outer inner).IsOf source) :
    ∀ other ∈ outer.statements, other.header.span.start < inner.header.span.start := by
  intro other hOther
  have hChain := chain_tokens source
  rw [h.tokens_eq] at hChain
  have hPairwise := (Invocation.chain_calls hChain).1.pairwise
  rw [calls, List.map_append, List.pairwise_append] at hPairwise
  exact (hPairwise.2.2 _ (List.mem_map_of_mem (outer.header_mem other hOther)) _
    (List.mem_map_of_mem inner.header_mem)).2

end OpenScript

/-! ## Writing terminators after a text -/

/-- An invocation of a terminator at the start of a text. -/
def Terminator.invocation (terminator : Terminator) : Invocation :=
  let stop := terminator.name.utf8ByteSize
  ⟨⟨.unquoted, ⟨0, stop⟩, terminator.name⟩, ⟨.leftParen, ⟨stop, stop + 1⟩, "("⟩, [],
    ⟨.rightParen, ⟨stop + 1, stop + 2⟩, ")"⟩⟩

def closedBy (source : String) (terminator : Terminator) : String := source ++ "\n" ++ terminator.name ++ "()"

/-- The text with the terminator that is reported to be missing, if one is. -/
def repaired (source : String) : String :=
  match parse source with
  | .error (.unclosedBlock _ terminator _) => closedBy source terminator
  | _ => source

namespace Terminator

theorem split_invocation (terminator : Terminator) :
    Invocation.Split (tokenize (terminator.name ++ "()")).dropLast [terminator.invocation] := by
  have hTokens : (tokenize (terminator.name ++ "()")).dropLast = terminator.invocation.tokens := by
    rcases terminator with _ | _ | _ | (_ | _ | _ | _) <;> decide +kernel
  refine ⟨List.forall_mem_singleton.mpr ⟨rfl, rfl, Invocation.balanced_nil.mpr rfl, rfl⟩, ?_⟩
  rw [hTokens, List.flatMap_singleton]

theorem bracketFree_invocation (terminator : Terminator) : BracketFree (terminator.name ++ "()") := by
  unfold BracketFree
  rcases terminator with _ | _ | _ | (_ | _ | _ | _) <;> decide +kernel

end Terminator

theorem BracketFree.append_line {a b : String} (h : ∀ token ∈ Lexer.lexemes 0 a.toList, token.Settled)
    (hb : BracketFree b) : BracketFree (a ++ "\n" ++ b) := by
  unfold BracketFree
  rw [lexemes_append_line h]
  refine List.forall_mem_append.mpr ⟨fun token hToken => (h token hToken).2, fun token hToken => ?_⟩
  obtain ⟨token, hMem, rfl⟩ := List.mem_map.mp hToken
  exact hb token hMem

theorem Invocation.Split.closedBy {source : String} {calls : List Invocation}
    (h : Split (tokenize source).dropLast calls) (hBrackets : BracketFree source) (terminator : Terminator) :
    BracketFree (closedBy source terminator) ∧ ∃ closing : Invocation, closing.Names (.terminator terminator) ∧
      Split (tokenize (Listfile.closedBy source terminator)).dropLast (calls ++ [closing]) := by
  have hSettled := h.settled hBrackets
  rw [Listfile.closedBy, String.append_assoc]
  refine ⟨.append_line hSettled terminator.bracketFree_invocation,
    terminator.invocation.mapSpans (Span.shift (source.utf8ByteSize + 1)), ?_, ?_⟩
  · exact Keyword.ofName?_eq_some.mp (Keyword.ofName?_terminator terminator)
  · rw [dropLast_tokenize_append hSettled]
    exact h.append terminator.split_invocation.mapSpans

namespace OpenScript

variable {source : String}

/-- With its terminator, the innermost open statement is one of the statement around it. -/
theorem IsOf.closed {outer : OpenScript} {inner : OpenStatement} (h : (within outer inner).IsOf source)
    (hBrackets : BracketFree source) :
    BracketFree (closedBy source inner.terminator) ∧ ∃ script : OpenScript,
      script.IsOf (closedBy source inner.terminator) ∧
      script.statements.map OpenStatement.header = outer.statements.map OpenStatement.header := by
  obtain ⟨hFree, closing, hClosing, hSplit⟩ := Invocation.Split.closedBy h hBrackets inner.terminator
  refine ⟨hFree, outer.push (inner.finish closing hClosing), ?_, outer.headers_push _⟩
  rw [calls, List.append_assoc, ← inner.calls_finish hClosing, ← calls_push] at hSplit
  exact hSplit

/-- What is left to report has been opened before. -/
theorem IsOf.parse_closedBy {outer : OpenScript} {inner : OpenStatement} (h : (within outer inner).IsOf source)
    (hBrackets : BracketFree source) :
    (∃ root, parse (closedBy source inner.terminator) = .ok root) ∨ ∃ opener terminator span,
      parse (closedBy source inner.terminator) = .error (.unclosedBlock opener terminator span) ∧
      span.start < inner.header.span.start := by
  obtain ⟨-, script, hScript, hHeaders⟩ := h.closed hBrackets
  cases script with
  | finished body => exact .inl hScript.exists_root
  | within outer' inner' =>
    refine .inr ⟨_, _, _, hScript.parse_within, ?_⟩
    have hMem : inner'.header ∈ outer.statements.map OpenStatement.header := by
      rw [← hHeaders]
      exact List.mem_cons_self
    obtain ⟨other, hOther, hHeader⟩ := List.mem_map.mp hMem
    rw [← hHeader]
    exact h.header_lt other hOther

theorem IsOf.parse_iterate {script : OpenScript} (h : script.IsOf source) (hBrackets : BracketFree source)
    (steps : Nat) : (∃ root, parse (repaired^[steps] source) = .ok root) ↔ script.statements.length ≤ steps := by
  induction steps generalizing source script with
  | zero =>
    cases script with
    | finished body => exact iff_of_true h.exists_root (Nat.le_refl _)
    | within outer inner =>
      refine iff_of_false ?_ (Nat.not_succ_le_zero _)
      rintro ⟨root, hRoot⟩
      rw [Function.iterate_zero_apply, h.parse_within] at hRoot
      cases hRoot
  | succ steps ih =>
    rw [Function.iterate_succ_apply]
    cases script with
    | finished body =>
      obtain ⟨root, hRoot⟩ := h.exists_root
      have hRepaired : repaired source = source := by rw [repaired, hRoot]
      rw [hRepaired, ih h hBrackets]
      exact iff_of_true (Nat.zero_le _) (Nat.zero_le _)
    | within outer inner =>
      obtain ⟨hFree, script, hScript, hHeaders⟩ := h.closed hBrackets
      have hRepaired : repaired source = closedBy source inner.terminator := by rw [repaired, h.parse_within]
      have hLength : script.statements.length = outer.statements.length := by
        simpa only [List.length_map] using congrArg List.length hHeaders
      rw [hRepaired, ih hScript hFree, hLength]
      exact Nat.succ_le_succ_iff.symm

end OpenScript

/-- The error about an open block is about the last header of the innermost one and names its terminator. If that is
written after the text, an error is about an earlier header, and repeating this leads to an accepted script in as many
steps as there are open blocks. -/
theorem parse_unclosed {source opener : String} {terminator : Terminator} {span : Span}
    (hParse : parse source = .error (.unclosedBlock opener terminator span)) (hBrackets : BracketFree source) :
    (∃ script : OpenScript, script.IsOf source) ∧
    ∀ script : OpenScript, script.IsOf source →
      (∃ outer inner, script = .within outer inner ∧ inner.header.WellFormed ∧ inner.header.name.text = opener ∧
        inner.header.span = span ∧ inner.terminator = terminator) ∧
      ((∃ root, parse (closedBy source terminator) = .ok root) ∨ ∃ opener' terminator' span',
        parse (closedBy source terminator) = .error (.unclosedBlock opener' terminator' span') ∧
        span'.start < span.start) ∧
      ∀ steps, (∃ root, parse (repaired^[steps] source) = .ok root) ↔ script.statements.length ≤ steps := by
  refine ⟨OpenScript.exists_of_unclosed hParse trivial, fun script h => ?_⟩
  cases script with
  | finished body =>
    obtain ⟨root, hRoot⟩ := h.exists_root
    rw [hParse] at hRoot
    cases hRoot
  | within outer inner =>
    have hWithin := h.parse_within
    rw [hParse] at hWithin
    cases hWithin
    have hHeader := h.wellFormed _ (List.mem_append_right _ inner.header_mem)
    exact ⟨⟨outer, inner, rfl, hHeader, rfl, rfl, rfl⟩, h.parse_closedBy hBrackets, h.parse_iterate hBrackets⟩

/-- A loop in the second arm of a conditional. -/
theorem parse_unclosed_of_loop :
    let source := "if(a)\nset(ü [[b]])\nELSEIF(c) # d\n While(e)"
    parse source = .error (.unclosedBlock "While" (.endBlock .whileLoop) ⟨35, 43⟩) ∧ BracketFree source ∧
      ∃ script : OpenScript, script.IsOf source ∧
        ∀ steps, (∃ root, parse (repaired^[steps] source) = .ok root) ↔ script.statements.length ≤ steps := by
  intro source
  have hParse : parse source = .error (.unclosedBlock "While" (.endBlock .whileLoop) ⟨35, 43⟩) := by
    apply refusal?_eq_some.mp
    decide +kernel
  have hBrackets : BracketFree source := by
    unfold BracketFree
    decide +kernel
  obtain ⟨⟨script, hScript⟩, hAll⟩ := parse_unclosed hParse hBrackets
  exact ⟨hParse, hBrackets, script, hScript, (hAll script hScript).2.2⟩

end Listfile
