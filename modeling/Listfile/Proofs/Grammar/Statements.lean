import Listfile.Proofs.Grammar.Nesting
/-! # The statements of a script

Every statement in the tree of a script, at the top or in the body of a block or of an arm, has a derivation of its
own, whose invocations are consecutive ones of the script. It covers the tokens of these and no other ones.
-/
namespace Listfile
set_option autoImplicit false

open Listfile.Span (Chain)

namespace Node

/-- The statements of a script, or those in the body of a block or of an arm. -/
def statements (node : Node) : List Node := node.children .statements ++ node.children .body

/-- Whether a node is that of a statement whose invocations are consecutive ones of those that are given. -/
def StatementOf (lines : LineIndex) (calls : List Invocation) (node : Node) : Prop :=
  ∃ statement : Derivation .statement, statement.nodes lines = [node] ∧ statement.calls <:+: calls

/-- Whether all that is in the list of statements of a node are statements. -/
def ListsStatements (lines : LineIndex) (calls : List Invocation) (node : Node) : Prop :=
  ∀ statement ∈ node.statements, statement.StatementOf lines calls

variable {lines : LineIndex} {calls calls' : List Invocation}

theorem StatementOf.mono {node : Node} (hInfix : calls <:+: calls') (h : node.StatementOf lines calls) :
    node.StatementOf lines calls' := by
  obtain ⟨statement, hNode, hCalls⟩ := h
  exact ⟨statement, hNode, hCalls.trans hInfix⟩

theorem Everywhere.lists_mono {node : Node} (hInfix : calls <:+: calls')
    (h : node.Everywhere (ListsStatements lines calls)) : node.Everywhere (ListsStatements lines calls') :=
  h.imp fun _ hLists statement hStatement => (hLists statement hStatement).mono hInfix

theorem lists_of_nil {node : Node} (h : node.statements = []) : node.ListsStatements lines calls := by
  intro statement hStatement
  rw [h] at hStatement
  cases hStatement

end Node

theorem Invocation.lists_call (lines : LineIndex) (calls : List Invocation) (call : Invocation) :
    (call.call lines).Everywhere (Node.ListsStatements lines calls) := by
  refine Node.everywhere_call.mpr ⟨Node.lists_of_nil rfl, fun word hWord => ?_⟩
  obtain ⟨token, -, rfl⟩ := List.mem_map.mp hWord
  rw [Token.word_eq]
  exact (Node.everywhere_leaf rfl).mpr (Node.lists_of_nil rfl)

theorem Invocation.exists_tokens_between (opener closer : Invocation) (calls : List Invocation) :
    ∃ inner, (opener :: (calls ++ [closer])).flatMap tokens = opener.name :: inner ++ [closer.closing] :=
  ⟨opener.opening :: opener.arguments ++ opener.closing :: calls.flatMap tokens ++
    closer.name :: closer.opening :: closer.arguments, by simp [tokens]⟩

namespace Derivation

theorem exists_node (lines : LineIndex) (d : Derivation .statement) : ∃ node, d.nodes lines = [node] := by
  cases d <;> exact ⟨_, rfl⟩

theorem statementOf_of_mem (lines : LineIndex) :
    (d : Derivation .body) → ∀ node ∈ d.nodes lines, node.StatementOf lines d.calls
  | empty => List.forall_mem_nil _
  | append first rest => by
    obtain ⟨node, hNode⟩ := first.exists_node lines
    rw [nodes, calls, hNode]
    refine List.forall_mem_cons.mpr ⟨?_, ?_⟩
    · exact ⟨first, hNode, [], rest.calls, rfl⟩
    · intro other hOther
      exact (rest.statementOf_of_mem lines other hOther).mono ⟨first.calls, [], by simp⟩

theorem lists_clause {lines : LineIndex} (form : ClauseForm) {header : Invocation} {body : Derivation .body}
    {calls : List Invocation} (hInfix : body.calls <:+: calls)
    (hBody : ∀ node ∈ body.nodes lines, node.Everywhere (Node.ListsStatements lines body.calls)) :
    (header.clause lines form (body.nodes lines)).Everywhere (Node.ListsStatements lines calls) := by
  refine Node.everywhere_clause.mpr ⟨?_, header.lists_call lines calls, fun node hNode => ?_⟩
  · intro node hNode
    exact (body.statementOf_of_mem lines node hNode).mono hInfix
  · exact (hBody node hNode).lists_mono hInfix

/-- Whatever is listed as a statement in the nodes of a phrase, at any depth, is a statement. -/
theorem lists_nodes (lines : LineIndex) {phrase : Phrase} (d : Derivation phrase) :
    ∀ node ∈ d.nodes lines, node.Everywhere (Node.ListsStatements lines d.calls) := by
  induction d with
  | empty | noElseif | noElse => exact List.forall_mem_nil _
  | append first rest ihFirst ihRest =>
    refine List.forall_mem_append.mpr ⟨?_, ?_⟩
    · intro node hNode
      exact (ihFirst node hNode).lists_mono ⟨[], rest.calls, rfl⟩
    · intro node hNode
      exact (ihRest node hNode).lists_mono ⟨first.calls, [], by simp [calls]⟩
  | plain call =>
    rw [nodes, List.forall_mem_singleton]
    exact call.lists_call lines _
  | inclusion call =>
    rw [nodes, List.forall_mem_singleton]
    exact (Node.everywhere_leaf rfl).mpr (Node.lists_of_nil rfl)
  | block form opener hOpener body closer hCloser ih =>
    have hInfix : body.calls <:+: (block form opener hOpener body closer hCloser).calls := ⟨[opener], [closer], rfl⟩
    rw [nodes, List.forall_mem_singleton]
    refine Node.everywhere_block.mpr ⟨?_, opener.lists_call lines _, ?_, closer.lists_call lines _⟩
    · intro node hNode
      exact (body.statementOf_of_mem lines node hNode).mono hInfix
    · intro node hNode
      exact (ih node hNode).lists_mono hInfix
  | conditional opener hOpener body elseifs elseArm closer hCloser ihBody ihElseifs ihElseArm =>
    rw [nodes, List.forall_mem_singleton]
    refine Node.everywhere_conditional.mpr
      ⟨Node.lists_of_nil rfl, lists_clause .ifClause ?_ ihBody, ?_, ?_, closer.lists_call lines _⟩
    · exact ⟨[opener], elseifs.calls ++ (elseArm.calls ++ [closer]), by simp [calls]⟩
    · intro arm hArm
      exact (ihElseifs arm hArm).lists_mono ⟨opener :: body.calls, elseArm.calls ++ [closer], by simp [calls]⟩
    · intro arm hArm
      exact (ihElseArm arm (List.mem_of_head? hArm)).lists_mono
        ⟨opener :: (body.calls ++ elseifs.calls), [closer], by simp [calls]⟩
  | elseif header hHeader body rest ihBody ihRest =>
    refine List.forall_mem_cons.mpr ⟨?_, ?_⟩
    · exact lists_clause .elseifClause ⟨[header], rest.calls, by simp [calls]⟩ ihBody
    · intro arm hArm
      exact (ihRest arm hArm).lists_mono ⟨header :: body.calls, [], by simp [calls]⟩
  | elseBranch header hHeader body ih =>
    rw [nodes, List.forall_mem_singleton]
    exact lists_clause .elseClause ⟨[header], [], by simp [calls]⟩ ih

/-! ## What a statement covers -/

theorem start_clause_le (lines : LineIndex) (form : ClauseForm) (header : Invocation) (body : List Node) :
    (header.clause lines form body).span.start ≤ header.span.start := by
  unfold Invocation.clause
  cases body.getLast? with
  | none => exact Nat.le_refl _
  | some last => exact Nat.min_le_left _ _

/-- A statement starts with the first of its tokens, or before, and ends with the last one, or later. -/
theorem span_encloses {lines : LineIndex} {node : Node} (d : Derivation .statement) (h : d.nodes lines = [node]) :
    ∃ name inner last, d.calls.flatMap Invocation.tokens = name :: inner ++ [last.closing] ∧ last ∈ d.calls ∧
      node.span.start ≤ name.span.start ∧ last.closing.span.stop ≤ node.span.stop := by
  have hCall (call : Invocation) :
      call.span.start ≤ call.name.span.start ∧ call.closing.span.stop ≤ call.span.stop :=
    ⟨Nat.min_le_left _ _, Nat.le_max_right _ _⟩
  cases d with
  | plain call | inclusion call =>
    cases h
    exact ⟨call.name, call.opening :: call.arguments, call, List.flatMap_singleton _ _, List.mem_cons_self, hCall call⟩
  | block form opener hOpener body closer hCloser =>
    cases h
    obtain ⟨inner, hInner⟩ := Invocation.exists_tokens_between opener closer body.calls
    refine ⟨opener.name, inner, closer, hInner, by simp [calls], ?_, ?_⟩
    · exact Nat.le_trans (Nat.min_le_left _ _) (hCall opener).1
    · exact Nat.le_trans (hCall closer).2 (Nat.le_max_right _ _)
  | conditional opener hOpener body elseifs elseArm closer hCloser =>
    cases h
    obtain ⟨inner, hInner⟩ :=
      Invocation.exists_tokens_between opener closer (body.calls ++ (elseifs.calls ++ elseArm.calls))
    have hArm := start_clause_le lines .ifClause opener (body.nodes lines)
    refine ⟨opener.name, inner, closer, by simpa [calls] using hInner, by simp [calls], ?_, ?_⟩
    · exact Nat.le_trans (Nat.min_le_left _ _) (Nat.le_trans hArm (hCall opener).1)
    · exact Nat.le_trans (hCall closer).2 (Nat.le_max_right _ _)

/-- A statement of a script is from its first token to its last one, and covers all of its tokens and no other ones. -/
theorem IsOf.covers_statement {script : Derivation .body} {source : String} (h : script.IsOf source)
    {lines : LineIndex} {node : Node} {statement : Derivation .statement} (hNode : statement.nodes lines = [node])
    (hInfix : statement.calls <:+: script.calls) :
    ∃ name inner last, statement.calls.flatMap Invocation.tokens = name :: inner ++ [last.closing] ∧
      last ∈ script.calls ∧ node.span = ⟨name.span.start, last.closing.span.stop⟩ ∧
      tokensWithin source node.span = name :: inner ++ [last.closing] := by
  obtain ⟨name, inner, last, hTokens, hLast, hStart, hStop⟩ := statement.span_encloses hNode
  obtain ⟨front, back, hCalls⟩ := hInfix
  have hSource : (tokenize source).dropLast = front.flatMap Invocation.tokens ++
      (name :: inner ++ [last.closing] ++ back.flatMap Invocation.tokens) := by
    rw [h.tokens_eq, ← hCalls, ← hTokens, List.flatMap_append, List.flatMap_append, List.append_assoc]
  have hAscending := ascending_dropLast source
  rw [hSource] at hAscending
  obtain ⟨-, middle, -, -, hRest⟩ := hAscending.of_append
  have hOwn := hRest.of_append.1
  -- Its parts form a chain between its first token and its last one, so the span reaches no further than these.
  have hWithin : Chain name.span.start ((statement.calls.flatMap Invocation.tokens).map Token.span)
      last.closing.span.stop := by
    have hName := hOwn.within List.mem_cons_self
    obtain ⟨-, hFirst, hOthers⟩ := hOwn
    rw [hTokens]
    have hTight : Token.Ascending name.span.start (name :: inner ++ [last.closing]) := ⟨Nat.le_refl _, hFirst, hOthers⟩
    apply hTight.chain
    · omega
    · intro token hToken
      exact (hTight.within hToken).2
  obtain ⟨hChain, hOrdered⟩ := Invocation.chain_calls hWithin
  obtain ⟨hSpan, -⟩ := statement.nested_nodes lines hChain hOrdered
  rw [hNode, List.map_singleton, Span.chain_singleton] at hSpan
  have hEq : node.span = ⟨name.span.start, last.closing.span.stop⟩ := by
    rw [← Nat.le_antisymm hStart hSpan.1, Nat.le_antisymm hStop hSpan.2.2]
  refine ⟨name, inner, last, hTokens, ?_, hEq, ?_⟩
  · rw [← hCalls]
    simp [hLast]
  · rw [tokensWithin, hSource, hEq]
    exact hAscending.filter_covers

end Derivation
end Listfile
