import Listfile.Proofs.Grammar.Leaves
import Listfile.Proofs.Source.Chains
import Listfile.Proofs.Tree.Everywhere
/-! # How the spans of a tree are nested

The tokens of a script form a chain, and so do its invocations, since each of them covers its own tokens. What is made
of them is put together from spans of the chain: a node reaches from the first of its invocations to the last one, so
that the nodes of a phrase form a chain as well, and so do, within the span of a node, the nodes that it stores.
-/
namespace Listfile
set_option autoImplicit false

open Listfile.Span (Chain)

/-- Whether the nodes that a node stores form a chain within its span. -/
def Node.Nested (node : Node) : Prop :=
  Chain node.span.start ((node.stored.map Prod.snd).map Node.span) node.span.stop

namespace Node

variable {place : Location}

theorem nested_block {form : BlockForm} {header footer : Node} {body : List Node} :
    (block place form header body footer).Nested ↔
      Chain place.span.start (header.span :: body.map span ++ [footer.span]) place.span.stop := by
  have hStored : ((block place form header body footer).stored.map Prod.snd).map span =
      header.span :: body.map span ++ [footer.span] := by
    simp [stored, map_snd_enumerateFrom, enumerateFrom]
  rw [Nested, hStored]
  rfl

theorem nested_conditional {ifClause footer : Node} {elseifs : List Node} {elseClause : Option Node} :
    (conditional place ifClause elseifs elseClause footer).Nested ↔
      Chain place.span.start (ifClause.span :: (elseifs ++ elseClause.toList).map span ++ [footer.span])
        place.span.stop := by
  have hStored : ((conditional place ifClause elseifs elseClause footer).stored.map Prod.snd).map span =
      ifClause.span :: (elseifs ++ elseClause.toList).map span ++ [footer.span] := by
    simp [stored, map_snd_enumerateFrom, enumerateFrom]
  rw [Nested, hStored]
  rfl

theorem nested_clause {form : ClauseForm} {header : Node} {body : List Node} :
    (clause place form header body).Nested ↔
      Chain place.span.start (header.span :: body.map span) place.span.stop := by
  have hStored : ((clause place form header body).stored.map Prod.snd).map span = header.span :: body.map span := by
    simp [stored, map_snd_enumerateFrom, enumerateFrom]
  rw [Nested, hStored]
  rfl

end Node

/-! ## Tokens and invocations -/

theorem Token.Ascending.chain {offset hi : Nat} {tokens : List Token} (h : Ascending offset tokens) (hLe : offset ≤ hi)
    (hStop : ∀ token ∈ tokens, token.span.stop ≤ hi) : Chain offset (tokens.map Token.span) hi := by
  induction tokens generalizing offset with
  | nil => exact hLe
  | cons token rest ih =>
    obtain ⟨hStart, hLt, hRest⟩ := h
    obtain ⟨hFirst, hOthers⟩ := List.forall_mem_cons.mp hStop
    exact ⟨hStart, hLt, ih hRest hFirst hOthers⟩

namespace Invocation

/-- Whether the tokens of an invocation form a chain within its span. -/
def Ordered (call : Invocation) : Prop := Chain call.span.start (call.tokens.map Token.span) call.span.stop

theorem ordered_of_chain {call : Invocation} {lo hi : Nat} (h : Chain lo (call.tokens.map Token.span) hi) :
    call.Ordered ∧ Chain lo [call.span] hi := by
  have hTokens : call.tokens.map Token.span =
      call.name.span :: (call.opening.span :: call.arguments.map Token.span) ++ [call.closing.span] := by
    simp [tokens]
  rw [hTokens] at h
  obtain ⟨hChain, hOrdered⟩ := h.enclose
  rw [Ordered, hTokens]
  exact ⟨hOrdered, hChain⟩

theorem chain_calls {calls : List Invocation} {lo hi : Nat}
    (h : Chain lo ((calls.flatMap tokens).map Token.span) hi) :
    Chain lo (calls.map Invocation.span) hi ∧ ∀ call ∈ calls, call.Ordered := by
  induction calls generalizing lo with
  | nil => exact ⟨h, List.forall_mem_nil _⟩
  | cons call rest ih =>
    rw [List.flatMap_cons, List.map_append] at h
    obtain ⟨middle, hCall, hRest⟩ := Span.chain_append.mp h
    obtain ⟨hOrdered, hSpan⟩ := ordered_of_chain hCall
    obtain ⟨hCalls, hOthers⟩ := ih hRest
    exact ⟨Span.chain_append.mpr ⟨middle, hSpan, hCalls⟩, List.forall_mem_cons.mpr ⟨hOrdered, hOthers⟩⟩

variable (lines : LineIndex)

theorem nested_call {call : Invocation} (h : call.Ordered) : (call.call lines).Everywhere Node.Nested := by
  have hWords : (call.words lines).map Node.span = call.arguments.map Token.span := by
    rw [words, List.map_map]
    apply List.map_congr_left
    intro token _
    rw [Function.comp_apply, Token.word_eq]
    rfl
  have hArguments : Chain call.span.start (call.arguments.map Token.span) call.span.stop := by
    have hTokens : call.tokens.map Token.span =
        [call.name.span, call.opening.span] ++ (call.arguments.map Token.span ++ [call.closing.span]) := by
      simp [tokens]
    rw [Ordered, hTokens] at h
    obtain ⟨first, hFirst, hRest⟩ := Span.chain_append.mp h
    obtain ⟨last, hInner, hLast⟩ := Span.chain_append.mp hRest
    exact hInner.mono hFirst.le hLast.le
  refine Node.everywhere_call.mpr ⟨?_, fun word hWord => ?_⟩
  · rw [Node.Nested, Node.stored, Node.map_snd_enumerateFrom, hWords]
    exact hArguments
  · obtain ⟨token, hToken, rfl⟩ := List.mem_map.mp hWord
    obtain ⟨-, hLt, -⟩ := hArguments.mem (List.mem_map_of_mem hToken)
    rw [Token.word_eq]
    exact (Node.everywhere_leaf rfl).mpr (Nat.le_of_lt hLt)

end Invocation

/-! ## Arms -/

/-- Around a chain of a header and statements, an arm is one link, and all that is in it is nested. -/
theorem Invocation.nested_clause (lines : LineIndex) (form : ClauseForm) {header : Invocation} {body : List Node}
    {lo hi : Nat} (hHeader : header.Ordered) (hBody : ∀ node ∈ body, node.Everywhere Node.Nested)
    (h : Chain lo (header.span :: body.map Node.span) hi) :
    let arm := header.clause lines form body
    Chain lo [arm.span] hi ∧ arm.Everywhere Node.Nested := by
  intro arm
  have hEverywhere (hSelf : Chain arm.span.start (header.span :: body.map Node.span) arm.span.stop) :
      arm.Everywhere Node.Nested :=
    Node.everywhere_clause.mpr ⟨Node.nested_clause.mpr hSelf, header.nested_call lines hHeader, hBody⟩
  rcases List.eq_nil_or_concat' body with rfl | ⟨others, last, rfl⟩
  · exact ⟨h, hEverywhere ⟨Nat.le_refl _, h.2.1, Nat.le_refl _⟩⟩
  · have hSpan : arm.span = header.span.merge last.span := by
      unfold arm clause
      rw [List.getLast?_concat]
      rfl
    rw [List.map_append, List.map_singleton, ← List.cons_append] at h hEverywhere
    obtain ⟨hChain, hEnclosed⟩ := h.enclose
    rw [hSpan] at hEverywhere ⊢
    exact ⟨hChain, hEverywhere hEnclosed⟩

/-! ## Phrases -/

namespace Derivation

theorem toList_head?_nodes (lines : LineIndex) (d : Derivation .elseArm) :
    (d.nodes lines).head?.toList = d.nodes lines := by
  cases d <;> rfl

/-- The nodes of a phrase lie one after the other, as its invocations do, and all that is below them is nested. -/
theorem nested_nodes (lines : LineIndex) {phrase : Phrase} (d : Derivation phrase) {lo hi : Nat}
    (h : Chain lo (d.calls.map Invocation.span) hi) (hOrdered : ∀ call ∈ d.calls, call.Ordered) :
    Chain lo ((d.nodes lines).map Node.span) hi ∧ ∀ node ∈ d.nodes lines, node.Everywhere Node.Nested := by
  induction d generalizing lo hi with
  | empty | noElseif | noElse => exact ⟨h, List.forall_mem_nil _⟩
  | append first rest ihFirst ihRest =>
    rw [calls, List.map_append] at h
    obtain ⟨hFirst, hRest⟩ := List.forall_mem_append.mp hOrdered
    obtain ⟨middle, hFront, hBack⟩ := Span.chain_append.mp h
    obtain ⟨hFront, hFirst⟩ := ihFirst hFront hFirst
    obtain ⟨hBack, hRest⟩ := ihRest hBack hRest
    rw [nodes, List.map_append]
    exact ⟨Span.chain_append.mpr ⟨middle, hFront, hBack⟩, List.forall_mem_append.mpr ⟨hFirst, hRest⟩⟩
  | plain call =>
    rw [nodes, List.forall_mem_singleton]
    exact ⟨h, Invocation.nested_call lines (List.forall_mem_singleton.mp hOrdered)⟩
  | inclusion call =>
    rw [nodes, List.forall_mem_singleton]
    exact ⟨h, (Node.everywhere_leaf rfl).mpr (Chain.le (hOrdered call List.mem_cons_self))⟩
  | block form opener hOpener body closer hCloser ih =>
    simp only [calls, List.forall_mem_cons, List.forall_mem_append] at hOrdered
    obtain ⟨hFirst, hInner, hLast, -⟩ := hOrdered
    rw [calls, List.map_cons, List.map_append, List.map_singleton] at h
    obtain ⟨hStart, hOpen, hRest⟩ := h
    obtain ⟨middle, hBody, hClose⟩ := Span.chain_append.mp hRest
    obtain ⟨hBody, hNested⟩ := ih hBody hInner
    have hParts : Chain lo (opener.span :: (body.nodes lines).map Node.span ++ [closer.span]) hi :=
      ⟨hStart, hOpen, Span.chain_append.mpr ⟨middle, hBody, hClose⟩⟩
    obtain ⟨hChain, hEnclosed⟩ := hParts.enclose
    rw [nodes, List.forall_mem_singleton]
    exact ⟨hChain, Node.everywhere_block.mpr ⟨Node.nested_block.mpr hEnclosed, opener.nested_call lines hFirst,
      hNested, closer.nested_call lines hLast⟩⟩
  | conditional opener hOpener body elseifs elseArm closer hCloser ihBody ihElseifs ihElseArm =>
    simp only [calls, List.forall_mem_cons, List.forall_mem_append] at hOrdered
    obtain ⟨hFirst, hBody, hElseifs, hElseArm, hLast, -⟩ := hOrdered
    simp only [calls, List.map_cons, List.map_append, List.map_nil, ← List.cons_append] at h
    obtain ⟨first, hIf, hRest⟩ := Span.chain_append.mp h
    obtain ⟨second, hOthers, hRest⟩ := Span.chain_append.mp hRest
    obtain ⟨third, hElse, hClose⟩ := Span.chain_append.mp hRest
    obtain ⟨hStart, hOpen, hStatements⟩ := hIf
    obtain ⟨hStatements, hBody⟩ := ihBody hStatements hBody
    obtain ⟨hOthers, hElseifs⟩ := ihElseifs hOthers hElseifs
    obtain ⟨hElse, hElseArm⟩ := ihElseArm hElse hElseArm
    obtain ⟨hArm, hIf⟩ := opener.nested_clause lines .ifClause hFirst hBody ⟨hStart, hOpen, hStatements⟩
    have hParts := Span.chain_append.mpr ⟨third,
      Span.chain_append.mpr ⟨first, hArm, Span.chain_append.mpr ⟨second, hOthers, hElse⟩⟩, hClose⟩
    rw [← List.map_append, ← toList_head?_nodes lines elseArm] at hParts
    obtain ⟨hChain, hEnclosed⟩ := hParts.enclose
    rw [nodes, List.forall_mem_singleton]
    refine ⟨hChain, Node.everywhere_conditional.mpr
      ⟨Node.nested_conditional.mpr hEnclosed, hIf, hElseifs, ?_, closer.nested_call lines hLast⟩⟩
    intro arm hArm
    exact hElseArm arm (List.mem_of_head? hArm)
  | elseif header hHeader body rest ihBody ihRest =>
    simp only [calls, List.forall_mem_cons, List.forall_mem_append] at hOrdered
    obtain ⟨hFirst, hBody, hRest⟩ := hOrdered
    rw [calls, List.map_cons, List.map_append, ← List.cons_append] at h
    obtain ⟨middle, ⟨hStart, hOpen, hStatements⟩, hOthers⟩ := Span.chain_append.mp h
    obtain ⟨hStatements, hBody⟩ := ihBody hStatements hBody
    obtain ⟨hOthers, hRest⟩ := ihRest hOthers hRest
    obtain ⟨hArm, hNested⟩ := header.nested_clause lines .elseifClause hFirst hBody ⟨hStart, hOpen, hStatements⟩
    exact ⟨Span.chain_append.mpr ⟨middle, hArm, hOthers⟩, List.forall_mem_cons.mpr ⟨hNested, hRest⟩⟩
  | elseBranch header hHeader body ih =>
    obtain ⟨hFirst, hBody⟩ := List.forall_mem_cons.mp hOrdered
    obtain ⟨hStart, hOpen, hStatements⟩ := h
    obtain ⟨hStatements, hBody⟩ := ih hStatements hBody
    obtain ⟨hArm, hNested⟩ := header.nested_clause lines .elseClause hFirst hBody ⟨hStart, hOpen, hStatements⟩
    exact ⟨hArm, List.forall_mem_singleton.mpr hNested⟩

end Derivation
end Listfile
