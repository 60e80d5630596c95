import Listfile.Proofs.Grammar.Derivation
/-! # Outlines and derivations

What an outline makes of the invocations of a derivation are its nodes. Conversely, an outline that has taken a
sequence of invocations holds a derivation of all that is finished and, for each open block, of what there is of it.
-/
namespace Listfile
set_option autoImplicit false

variable (lines : LineIndex)

theorem Invocation.filterMap_label? (call : Invocation) : (call.words lines).filterMap Node.label? = call.texts := by
  rw [Invocation.words, Invocation.texts, List.filterMap_map, ← List.filterMap_eq_map]
  refine congrArg (List.filterMap · call.arguments) (funext fun token => ?_)
  obtain ⟨kind, span, text⟩ := token
  cases kind <;> rfl

theorem Invocation.inclusion_eq {call : Invocation} (h : call.arguments ≠ []) :
    call.inclusion lines = .ok (.inclusion (lines.locate call.span) (call.texts.headD "") call.texts.tail) := by
  rw [Invocation.inclusion, filterMap_label?]
  cases hTexts : call.texts with
  | nil => exact absurd (List.map_eq_nil_iff.mp hTexts) h
  | cons => rfl

theorem Invocation.arguments_of_inclusion {call : Invocation} {node : Node} (h : call.inclusion lines = .ok node) :
    call.arguments ≠ [] := by
  rintro hNil
  rw [Invocation.inclusion, filterMap_label?, Invocation.texts, hNil] at h
  cases h

namespace Outline

def pushAll (outline : Outline) (statements : List Node) : Outline := statements.foldl push outline

theorem pushAll_open (reversed statements : List Node) (block : OpenBlock) (outer : List OpenBlock) :
    pushAll ⟨reversed, block :: outer⟩ statements =
      ⟨reversed, { block with reversed := statements.reverse ++ block.reversed } :: outer⟩ := by
  induction statements generalizing block with
  | nil => rfl
  | cons statement rest ih =>
    rw [List.reverse_cons, List.append_assoc]
    exact ih { block with reversed := statement :: block.reversed }

theorem pushAll_closed (reversed statements : List Node) :
    pushAll ⟨reversed, []⟩ statements = ⟨statements.reverse ++ reversed, []⟩ := by
  induction statements generalizing reversed with
  | nil => rfl
  | cons statement rest ih =>
    rw [List.reverse_cons, List.append_assoc]
    exact ih (statement :: reversed)

theorem pushAll_new (outline : Outline) (opener : Invocation) (form : OpenForm) (statements : List Node) :
    (outline.open opener form).pushAll statements =
      ⟨outline.reversed, ⟨opener, form, statements.reverse⟩ :: outline.blocks⟩ := by
  rw [Outline.open, pushAll_open, List.append_nil]

/-! ## One invocation -/

section step

variable {lines} {call : Invocation} (outline : Outline)

theorem step_plain (h : ∀ keyword, ¬call.Names keyword) :
    outline.step lines call = .ok (outline.push (call.call lines)) := by
  rw [step, Keyword.ofName?_eq_none.mpr h]

theorem step_inclusion (h : call.Names .inclusion) :
    outline.step lines call = (call.inclusion lines).map outline.push := by
  rw [step, Keyword.ofName?_eq_some.mpr h]

theorem step_block {form : BlockForm} (h : call.Names (.openBlock form)) :
    outline.step lines call = .ok (outline.open call (.block form)) := by
  rw [step, Keyword.ofName?_eq_some.mpr h]

theorem step_conditional (h : call.Names .openConditional) :
    outline.step lines call = .ok (outline.open call .ifArm) := by
  rw [step, Keyword.ofName?_eq_some.mpr h]

theorem step_terminator {terminator : Terminator} (h : call.Names (.terminator terminator)) :
    outline.step lines call = outline.close lines terminator call := by
  rw [step, Keyword.ofName?_eq_some.mpr h]

theorem close_nextArm {reversed : List Node} {block next : OpenBlock} {outer : List OpenBlock} {terminator : Terminator}
    (h : block.close? lines terminator call = some (.nextArm next)) :
    close lines ⟨reversed, block :: outer⟩ terminator call = .ok ⟨reversed, next :: outer⟩ := by
  simp only [close, h]

theorem close_finished {reversed : List Node} {block : OpenBlock} {node : Node} {outer : List OpenBlock}
    {terminator : Terminator} (h : block.close? lines terminator call = some (.finished node)) :
    close lines ⟨reversed, block :: outer⟩ terminator call = .ok (push ⟨reversed, outer⟩ node) := by
  simp only [close, h]

end step

end Outline

/-- The arm that a block has come to is the one of the grammar, with the statements in their order. -/
theorem OpenBlock.arm_eq (form : ClauseForm) (header : Invocation) (within : OpenForm) (statements : List Node) :
    arm lines form ⟨header, within, statements.reverse⟩ = header.clause lines form statements := by
  unfold arm Node.ofArm Invocation.clause
  rw [List.reverse_reverse, ← List.head?_reverse]
  cases statements.reverse <;> rfl

/-- The arms of an open conditional that will take another arm, with the current one: the first and those after it,
last first. -/
def OpenBlock.arms? (block : OpenBlock) : Option (Node × List Node) :=
  match block.form with
  | .ifArm => some (block.arm lines .ifClause, [])
  | .elseifArm ifClause elseifs => some (ifClause, block.arm lines .elseifClause :: elseifs)
  | _ => none

section arms

variable {lines} {block : OpenBlock} {ifClause : Node} {elseifs : List Node}
  (h : block.arms? lines = some (ifClause, elseifs)) (closing : Invocation)
include h

theorem OpenBlock.close?_elseif :
    block.close? lines .elseifBranch closing = some (.nextArm ⟨closing, .elseifArm ifClause elseifs, []⟩) := by
  obtain ⟨opener, form, reversed⟩ := block
  cases form <;> cases h <;> rfl

theorem OpenBlock.close?_else :
    block.close? lines .elseBranch closing = some (.nextArm ⟨closing, .elseArm ifClause elseifs, []⟩) := by
  obtain ⟨opener, form, reversed⟩ := block
  cases form <;> cases h <;> rfl

theorem OpenBlock.close?_end :
    block.close? lines .endConditional closing =
      some (.finished (conditional lines ifClause elseifs none closing)) := by
  obtain ⟨opener, form, reversed⟩ := block
  cases form <;> cases h <;> rfl

end arms

/-! ## From derivations to outlines -/

/-- What the invocations of a phrase make of an outline: statements are added to it; arms of a conditional are taken
by the innermost block. -/
def Derivation.Taken : {phrase : Phrase} → Derivation phrase → Prop
  | .body, d | .statement, d =>
    ∀ outline : Outline, d.calls.foldlM (Outline.step lines) outline = .ok (outline.pushAll (d.nodes lines))
  | .elseifs, d => ∀ reversed block outer ifClause elseifs, block.arms? lines = some (ifClause, elseifs) →
    ∃ block' : OpenBlock,
      d.calls.foldlM (Outline.step lines) ⟨reversed, block :: outer⟩ = .ok ⟨reversed, block' :: outer⟩ ∧
        block'.arms? lines = some (ifClause, (d.nodes lines).reverse ++ elseifs)
  | .elseArm, d => ∀ reversed block outer ifClause elseifs, block.arms? lines = some (ifClause, elseifs) →
    ∀ closer : Invocation, closer.Names (.terminator .endConditional) →
      (d.calls ++ [closer]).foldlM (Outline.step lines) ⟨reversed, block :: outer⟩ =
        .ok (Outline.push ⟨reversed, outer⟩
          (OpenBlock.conditional lines ifClause elseifs (d.nodes lines).head? closer))

theorem foldlM_cons_ok {α β ε : Type} {step : β → α → Except ε β} {state next : β} {a : α} (h : step state a = .ok next)
    (rest : List α) : (a :: rest).foldlM step state = rest.foldlM step next := by
  rw [List.foldlM_cons, h]
  rfl

theorem foldlM_append_ok {α β ε : Type} {step : β → α → Except ε β} {state next : β} {front : List α}
    (h : front.foldlM step state = .ok next) (rest : List α) :
    (front ++ rest).foldlM step state = rest.foldlM step next := by
  rw [List.foldlM_append, h]
  rfl

theorem exists_of_foldlM_error {α β ε : Type} {step : β → α → Except ε β} {state : β} {items : List α} {error : ε}
    (h : items.foldlM step state = .error error) :
    ∃ front item back next, items = front ++ item :: back ∧ front.foldlM step state = .ok next ∧
      step next item = .error error := by
  induction items generalizing state with
  | nil => cases h
  | cons item rest ih =>
    cases hStep : step state item with
    | error error' =>
      rw [List.foldlM_cons, hStep] at h
      cases h
      exact ⟨[], item, rest, state, rfl, rfl, hStep⟩
    | ok next =>
      rw [foldlM_cons_ok hStep] at h
      obtain ⟨front, other, back, last, rfl, hFront, hOther⟩ := ih h
      exact ⟨item :: front, other, back, last, rfl, (foldlM_cons_ok hStep front).trans hFront, hOther⟩

theorem Derivation.taken {phrase : Phrase} (d : Derivation phrase) : d.Taken lines := by
  induction d with
  | empty => exact fun outline => rfl
  | append first rest ihFirst ihRest =>
    intro outline
    rw [calls, nodes, foldlM_append_ok (ihFirst outline), ihRest, Outline.pushAll, Outline.pushAll, Outline.pushAll,
      List.foldl_append]
  | plain call hCall =>
    intro outline
    rw [calls, foldlM_cons_ok (outline.step_plain hCall)]
    rfl
  | inclusion call hCall hArguments =>
    intro outline
    have hStep : outline.step lines call = (call.inclusion lines).map outline.push := outline.step_inclusion hCall
    rw [Invocation.inclusion_eq lines hArguments] at hStep
    rw [calls, foldlM_cons_ok hStep]
    rfl
  | block form opener hOpener body closer hCloser ih =>
    intro outline
    have hBody := ih (outline.open opener (.block form))
    rw [Outline.pushAll_new] at hBody
    rw [calls, foldlM_cons_ok (outline.step_block hOpener), foldlM_append_ok hBody]
    refine foldlM_cons_ok ((Outline.step_terminator _ hCloser).trans (Outline.close_finished ?_)) []
    simp only [OpenBlock.close?, if_true, List.reverse_reverse]
  | conditional opener hOpener body elseifs elseArm closer hCloser ihBody ihElseifs ihElseArm =>
    intro outline
    have hBody := ihBody (outline.open opener .ifArm)
    rw [Outline.pushAll_new] at hBody
    obtain ⟨block, hElseifs, hArms⟩ :=
      ihElseifs outline.reversed ⟨opener, .ifArm, (body.nodes lines).reverse⟩ outline.blocks _ _ rfl
    rw [List.append_nil] at hArms
    rw [calls, foldlM_cons_ok (outline.step_conditional hOpener), foldlM_append_ok hBody, foldlM_append_ok hElseifs,
      ihElseArm _ _ _ _ _ hArms closer hCloser, OpenBlock.conditional, List.reverse_reverse, OpenBlock.arm_eq]
    rfl
  | noElseif => exact fun reversed block outer ifClause elseifs hArms => ⟨block, rfl, hArms⟩
  | elseif header hHeader body rest ihBody ihRest =>
    intro reversed block outer ifClause elseifs hArms
    have hStep := (Outline.step_terminator ⟨reversed, block :: outer⟩ hHeader).trans
      (Outline.close_nextArm (OpenBlock.close?_elseif hArms header))
    have hBody := ihBody ⟨reversed, ⟨header, .elseifArm ifClause elseifs, []⟩ :: outer⟩
    rw [Outline.pushAll_open, List.append_nil] at hBody
    obtain ⟨block', hRest, hArms'⟩ :=
      ihRest reversed ⟨header, .elseifArm ifClause elseifs, (body.nodes lines).reverse⟩ outer _ _ rfl
    refine ⟨block', ?_, ?_⟩
    · rw [calls, foldlM_cons_ok hStep, foldlM_append_ok hBody, hRest]
    · rw [hArms', nodes, List.reverse_cons, List.append_assoc, OpenBlock.arm_eq]
      rfl
  | noElse =>
    intro reversed block outer ifClause elseifs hArms closer hCloser
    exact foldlM_cons_ok ((Outline.step_terminator _ hCloser).trans
      (Outline.close_finished (OpenBlock.close?_end hArms closer))) []
  | elseBranch header hHeader body ih =>
    intro reversed block outer ifClause elseifs hArms closer hCloser
    have hStep := (Outline.step_terminator ⟨reversed, block :: outer⟩ hHeader).trans
      (Outline.close_nextArm (OpenBlock.close?_else hArms header))
    have hBody := ih ⟨reversed, ⟨header, .elseArm ifClause elseifs, []⟩ :: outer⟩
    rw [Outline.pushAll_open, List.append_nil] at hBody
    rw [calls, List.cons_append, foldlM_cons_ok hStep, foldlM_append_ok hBody]
    refine foldlM_cons_ok ((Outline.step_terminator _ hCloser).trans (Outline.close_finished ?_)) []
    rw [nodes, List.head?_cons, ← OpenBlock.arm_eq lines .elseClause header (.elseArm ifClause elseifs)]
    rfl

/-! ## From outlines to derivations -/

namespace Derivation

/-- One sequence of statements, or of arms, after another. -/
def concat : {phrase : Phrase} → Derivation phrase → Derivation phrase → Derivation phrase
  | _, empty, other => other
  | _, append first rest, other => append first (rest.concat other)
  | _, noElseif, other => other
  | _, elseif header hHeader body rest, other => elseif header hHeader body (rest.concat other)
  | _, d, _ => d

theorem calls_concat {phrase : Phrase} (d other : Derivation phrase) (h : phrase = .body ∨ phrase = .elseifs) :
    (d.concat other).calls = d.calls ++ other.calls := by
  induction d with
  | empty | noElseif => rfl
  | append first rest _ ih => rw [concat, calls, calls, ih other h, List.append_assoc]
  | elseif header hHeader body rest _ ih =>
    rw [concat, calls, calls, ih other h, List.cons_append, List.append_assoc]
  | _ => simp at h

theorem nodes_concat {phrase : Phrase} (d other : Derivation phrase) (h : phrase = .body ∨ phrase = .elseifs) :
    (d.concat other).nodes lines = d.nodes lines ++ other.nodes lines := by
  induction d with
  | empty | noElseif => rfl
  | append first rest _ ih => rw [concat, nodes, nodes, ih other h, List.append_assoc]
  | elseif header hHeader body rest _ ih => rw [concat, nodes, nodes, ih other h, List.cons_append]
  | _ => simp at h

/-- The statements of a body, and another one. -/
def concatStatement (body : Derivation .body) (d : Derivation .statement) : Derivation .body :=
  body.concat (.append d .empty)

theorem calls_concatStatement (body : Derivation .body) (d : Derivation .statement) :
    (body.concatStatement d).calls = body.calls ++ d.calls := by
  rw [concatStatement, calls_concat _ _ (.inl rfl), calls, calls, List.append_nil]

theorem exists_push (body : Derivation .body) (d : Derivation .statement) :
    ∃ body' : Derivation .body, body'.calls = body.calls ++ d.calls ∧
      (body'.nodes lines).reverse = (d.nodes lines).reverse ++ (body.nodes lines).reverse := by
  refine ⟨body.concatStatement d, body.calls_concatStatement d, ?_⟩
  rw [concatStatement, nodes_concat lines _ _ (.inl rfl), nodes, nodes, List.append_nil, List.reverse_append]

theorem exists_arm (elseifs : Derivation .elseifs) {header : Invocation}
    (hHeader : header.Names (.terminator .elseifBranch)) (body : Derivation .body) :
    ∃ elseifs' : Derivation .elseifs, elseifs'.calls = elseifs.calls ++ header :: body.calls ∧
      (elseifs'.nodes lines).reverse =
        header.clause lines .elseifClause (body.nodes lines) :: (elseifs.nodes lines).reverse := by
  refine ⟨elseifs.concat (.elseif header hHeader body .noElseif), ?_, ?_⟩
  · rw [calls_concat _ _ (.inr rfl), calls, calls, List.append_nil]
  · rw [nodes_concat lines _ _ (.inr rfl), nodes, nodes, List.reverse_append]
    rfl

end Derivation

/-- An open block holds what there is of a statement, whose invocations are given. -/
inductive OpenBlock.Holds : OpenBlock → List Invocation → Prop
  | block {form : BlockForm} {opener : Invocation} (hOpener : opener.Names (.openBlock form))
    (body : Derivation .body) : Holds ⟨opener, .block form, (body.nodes lines).reverse⟩ (opener :: body.calls)
  | ifArm {opener : Invocation} (hOpener : opener.Names .openConditional) (body : Derivation .body) :
    Holds ⟨opener, .ifArm, (body.nodes lines).reverse⟩ (opener :: body.calls)
  | elseifArm {opener header : Invocation} (hOpener : opener.Names .openConditional) (first : Derivation .body)
    (elseifs : Derivation .elseifs) (hHeader : header.Names (.terminator .elseifBranch)) (body : Derivation .body) :
    Holds ⟨header, .elseifArm (opener.clause lines .ifClause (first.nodes lines)) (elseifs.nodes lines).reverse,
        (body.nodes lines).reverse⟩
      (opener :: (first.calls ++ (elseifs.calls ++ header :: body.calls)))
  | elseArm {opener header : Invocation} (hOpener : opener.Names .openConditional) (first : Derivation .body)
    (elseifs : Derivation .elseifs) (hHeader : header.Names (.terminator .elseBranch)) (body : Derivation .body) :
    Holds ⟨header, .elseArm (opener.clause lines .ifClause (first.nodes lines)) (elseifs.nodes lines).reverse,
        (body.nodes lines).reverse⟩
      (opener :: (first.calls ++ (elseifs.calls ++ header :: body.calls)))

/-- An outline holds derivations of the invocations that it has taken. -/
inductive Outline.Holds : Outline → List Invocation → Prop
  | finished (body : Derivation .body) : Holds ⟨(body.nodes lines).reverse, []⟩ body.calls
  | within {reversed : List Node} {outer : List OpenBlock} {calls calls' : List Invocation} {block : OpenBlock}
    (hOuter : Holds ⟨reversed, outer⟩ calls) (hBlock : block.Holds lines calls') :
    Holds ⟨reversed, block :: outer⟩ (calls ++ calls')

variable {lines}

theorem OpenBlock.Holds.push {block : OpenBlock} {calls : List Invocation} (h : block.Holds lines calls)
    (d : Derivation .statement) {statement : Node} (hNode : d.nodes lines = [statement]) :
    OpenBlock.Holds lines { block with reversed := statement :: block.reversed } (calls ++ d.calls) := by
  cases h with
  | block hOpener body =>
    obtain ⟨body', hCalls, hNodes⟩ := body.exists_push lines d
    have hBlock : Holds lines _ _ := .block hOpener body'
    rw [hCalls, hNodes, hNode] at hBlock
    exact hBlock
  | ifArm hOpener body =>
    obtain ⟨body', hCalls, hNodes⟩ := body.exists_push lines d
    have hBlock : Holds lines _ _ := .ifArm hOpener body'
    rw [hCalls, hNodes, hNode] at hBlock
    exact hBlock
  | elseifArm hOpener first elseifs hHeader body =>
    obtain ⟨body', hCalls, hNodes⟩ := body.exists_push lines d
    have hBlock : Holds lines _ _ := .elseifArm hOpener first elseifs hHeader body'
    rw [hCalls, hNodes, hNode] at hBlock
    simpa using hBlock
  | elseArm hOpener first elseifs hHeader body =>
    obtain ⟨body', hCalls, hNodes⟩ := body.exists_push lines d
    have hBlock : Holds lines _ _ := .elseArm hOpener first elseifs hHeader body'
    rw [hCalls, hNodes, hNode] at hBlock
    simpa using hBlock

/-- A block that goes on into its next arm holds the terminator as well. -/
theorem OpenBlock.Holds.nextArm {block next : OpenBlock} {calls : List Invocation} (h : block.Holds lines calls)
    {terminator : Terminator} {closing : Invocation} (hClosing : closing.Names (.terminator terminator))
    (hClose : block.close? lines terminator closing = some (.nextArm next)) :
    next.Holds lines (calls ++ [closing]) := by
  cases h with
  | block hOpener body =>
    cases terminator <;> simp [close?] at hClose
  | ifArm hOpener body =>
    cases terminator <;> cases hClose
    · have hArm : Holds lines _ _ := .elseifArm hOpener body .noElseif hClosing .empty
      simpa [Derivation.calls, Derivation.nodes, arm_eq] using hArm
    · have hArm : Holds lines _ _ := .elseArm hOpener body .noElseif hClosing .empty
      simpa [Derivation.calls, Derivation.nodes, arm_eq] using hArm
  | elseifArm hOpener first elseifs hHeader body =>
    obtain ⟨elseifs', hCalls, hNodes⟩ := elseifs.exists_arm lines hHeader body
    cases terminator <;> cases hClose
    · have hArm : Holds lines _ _ := .elseifArm hOpener first elseifs' hClosing .empty
      rw [hCalls, hNodes] at hArm
      simpa [Derivation.calls, Derivation.nodes, arm_eq] using hArm
    · have hArm : Holds lines _ _ := .elseArm hOpener first elseifs' hClosing .empty
      rw [hCalls, hNodes] at hArm
      simpa [Derivation.calls, Derivation.nodes, arm_eq] using hArm
  | elseArm hOpener first elseifs hHeader body => cases terminator <;> cases hClose

/-- A block that is finished held all of a statement but its last invocation. -/
theorem OpenBlock.Holds.finished {block : OpenBlock} {node : Node} {calls : List Invocation}
    (h : block.Holds lines calls) {terminator : Terminator} {closing : Invocation}
    (hClosing : closing.Names (.terminator terminator))
    (hClose : block.close? lines terminator closing = some (.finished node)) :
    ∃ d : Derivation .statement, d.calls = calls ++ [closing] ∧ d.nodes lines = [node] := by
  cases h with
  | block hOpener body =>
    cases terminator <;> simp only [close?, reduceCtorEq] at hClose
    split at hClose
    · rename_i hForm
      cases hForm
      cases hClose
      exact ⟨.block _ _ hOpener body closing hClosing, rfl, by rw [List.reverse_reverse]; rfl⟩
    · cases hClose
  | ifArm hOpener body =>
    cases terminator <;> cases hClose
    refine ⟨.conditional _ hOpener body .noElseif .noElse closing hClosing, by simp [Derivation.calls], ?_⟩
    rw [arm_eq]
    rfl
  | elseifArm hOpener first elseifs hHeader body =>
    obtain ⟨elseifs', hCalls, hNodes⟩ := elseifs.exists_arm lines hHeader body
    cases terminator <;> cases hClose
    refine ⟨.conditional _ hOpener first elseifs' .noElse closing hClosing, ?_, ?_⟩
    · simp [Derivation.calls, hCalls]
    · rw [Derivation.nodes, ← List.reverse_reverse (elseifs'.nodes lines), hNodes, arm_eq]
      rfl
  | elseArm hOpener first elseifs hHeader body =>
    cases terminator <;> cases hClose
    refine ⟨.conditional _ hOpener first elseifs (.elseBranch _ hHeader body) closing hClosing, ?_, ?_⟩
    · simp [Derivation.calls]
    · rw [OpenBlock.conditional, List.reverse_reverse, arm_eq]
      rfl

namespace Outline.Holds

theorem push {outline : Outline} {calls : List Invocation} (h : outline.Holds lines calls)
    (d : Derivation .statement) {statement : Node} (hNode : d.nodes lines = [statement]) :
    (outline.push statement).Holds lines (calls ++ d.calls) := by
  cases h with
  | finished body =>
    obtain ⟨body', hCalls, hNodes⟩ := body.exists_push lines d
    have hBody : Outline.Holds lines _ _ := .finished body'
    rw [hCalls, hNodes, hNode] at hBody
    exact hBody
  | within hOuter hBlock =>
    rw [List.append_assoc]
    exact .within hOuter (hBlock.push d hNode)

theorem «open» {outline : Outline} {calls : List Invocation} (h : outline.Holds lines calls) {opener : Invocation}
    {form : OpenForm} (hBlock : OpenBlock.Holds lines ⟨opener, form, []⟩ [opener]) :
    (outline.open opener form).Holds lines (calls ++ [opener]) := .within h hBlock

theorem close {outline outline' : Outline} {calls : List Invocation} (h : outline.Holds lines calls)
    {terminator : Terminator} {closing : Invocation} (hClosing : closing.Names (.terminator terminator))
    (hClose : outline.close lines terminator closing = .ok outline') : outline'.Holds lines (calls ++ [closing]) := by
  cases h with
  | finished body => cases hClose
  | within hOuter hBlock =>
    rw [List.append_assoc]
    unfold Outline.close at hClose
    simp only at hClose
    split at hClose
    · cases hClose
    · rename_i hNext
      cases hClose
      exact .within hOuter (hBlock.nextArm hClosing hNext)
    · rename_i hFinished
      cases hClose
      obtain ⟨d, hCalls, hNodes⟩ := hBlock.finished hClosing hFinished
      rw [← hCalls]
      exact hOuter.push d hNodes

theorem step {outline outline' : Outline} {calls : List Invocation} (h : outline.Holds lines calls) {call : Invocation}
    (hStep : outline.step lines call = .ok outline') : outline'.Holds lines (calls ++ [call]) := by
  unfold Outline.step at hStep
  split at hStep
  · rename_i hName
    cases hStep
    exact h.push (.plain call (Keyword.ofName?_eq_none.mp hName)) rfl
  · rename_i hName
    cases hInclusion : call.inclusion lines with
    | error error =>
      rw [hInclusion] at hStep
      cases hStep
    | ok node =>
      have hArguments := call.arguments_of_inclusion lines hInclusion
      rw [call.inclusion_eq lines hArguments] at hStep
      cases hStep
      exact h.push (.inclusion call (Keyword.ofName?_eq_some.mp hName) hArguments) rfl
  · rename_i hName
    cases hStep
    exact h.open (.ifArm (Keyword.ofName?_eq_some.mp hName) .empty)
  · rename_i hName
    cases hStep
    exact h.open (.block (Keyword.ofName?_eq_some.mp hName) .empty)
  · rename_i hName
    exact h.close (Keyword.ofName?_eq_some.mp hName) hStep

theorem foldlM_step {outline outline' : Outline} {calls rest : List Invocation} (h : outline.Holds lines calls)
    (hFold : rest.foldlM (Outline.step lines) outline = .ok outline') : outline'.Holds lines (calls ++ rest) := by
  induction rest generalizing outline calls with
  | nil =>
    cases hFold
    rwa [List.append_nil]
  | cons call rest ih =>
    cases hStep : outline.step lines call with
    | error error =>
      rw [List.foldlM_cons, hStep] at hFold
      cases hFold
    | ok next =>
      rw [foldlM_cons_ok hStep] at hFold
      rw [List.append_cons]
      exact ih (h.step hStep) hFold

end Outline.Holds

end Listfile
