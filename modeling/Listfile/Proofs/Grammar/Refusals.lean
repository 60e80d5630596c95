import Listfile.Proofs.Grammar.Places
/-! # What an error is about

A script is refused for a token that no invocation can take, for an invocation that no open block takes or that names
no file, or for a block that is open at the end. So the span of an error is that of a token or of an invocation.
-/
namespace Listfile
set_option autoImplicit false

variable {lines : LineIndex} {error : ParseError}

/-- The error for which a script is refused. -/
def refusal? (source : String) : Option ParseError :=
  match parse source with
  | .error error => some error
  | .ok _ => none

theorem refusal?_eq_some {source : String} : refusal? source = some error ↔ parse source = .error error := by
  unfold refusal?
  cases parse source <;> simp

namespace Invocation

theorem span_of_nestingAfter {nesting : Nat} {token : Token} (h : nestingAfter nesting token = .error error) :
    error.span = token.span := by
  obtain ⟨kind, span, text⟩ := token
  cases kind <;> cases nesting <;> cases h <;> rfl

theorem span_of_readArguments {nesting : Nat} {tokens : List Token} (h : readArguments nesting tokens = .error error) :
    error.span ∈ .origin :: tokens.map Token.span := by
  fun_induction readArguments nesting tokens with
  | case1 =>
    cases h
    exact List.mem_cons_self
  | case2 nesting token rest error' hStep =>
    cases h
    rw [span_of_nestingAfter hStep]
    simp
  | case3 => cases h
  | case4 nesting token rest inner hStep error' hRead ih =>
    cases h
    have hMem := ih hRead
    simp only [List.map_cons, List.mem_cons] at hMem ⊢
    exact hMem.imp_right .inr
  | case5 => cases h

theorem span_of_read {name : Token} {tokens : List Token} (h : read name tokens = .error error) :
    error.span ∈ .origin :: (name :: tokens).map Token.span := by
  unfold read at h
  split at h
  · split at h
    · cases h
      exact List.mem_cons_self
    · split at h
      · split at h
        · rename_i hRead
          cases h
          have hMem := span_of_readArguments hRead
          simp only [List.map_cons, List.mem_cons] at hMem ⊢
          exact hMem.imp_right fun hMem => .inr (.inr hMem)
        · cases h
      · cases h
        simp [ParseError.span]
  · cases h
    simp [ParseError.span]

/-- The invocations of a token list have its tokens, and it ends at one of them if it is refused. -/
theorem mem_of_all {tokens : List Token} {calls : List Invocation} {ending : Ending}
    (h : all tokens = (calls, ending)) :
    (∀ call ∈ calls, ∀ token ∈ call.tokens, token ∈ tokens) ∧
      ∀ error, ending = .refused error → error.span ∈ .origin :: tokens.map Token.span := by
  fun_induction all tokens generalizing calls with
  | case1 =>
    cases h
    exact ⟨List.forall_mem_nil _, fun _ hRefused => by cases hRefused⟩
  | case2 =>
    cases h
    exact ⟨List.forall_mem_nil _, fun _ hRefused => by cases hRefused⟩
  | case3 token rest hKind error hRead =>
    cases h
    refine ⟨List.forall_mem_nil _, fun _ hRefused => ?_⟩
    cases hRefused
    exact span_of_read hRead
  | case4 token rest hKind call rest' hRead calls' ending' hAll ih =>
    cases h
    obtain ⟨hCalls, hEnding⟩ := ih hAll
    have hTokens := eq_of_read hRead
    rw [hTokens]
    refine ⟨List.forall_mem_cons.mpr ⟨fun token hToken => List.mem_append_left _ hToken, ?_⟩, ?_⟩
    · intro other hOther token hToken
      exact List.mem_append_right _ (hCalls other hOther token hToken)
    · intro error hRefused
      have hMem := hEnding error hRefused
      rw [List.map_append]
      simp only [List.mem_cons, List.mem_append] at hMem ⊢
      exact hMem.imp_right .inr

end Invocation

namespace Outline

/-- What an outline refuses is the invocation it is given. -/
theorem span_of_step {outline : Outline} {call : Invocation} (h : outline.step lines call = .error error) :
    error.span = call.span := by
  unfold step at h
  split at h
  · cases h
  · unfold Invocation.inclusion at h
    split at h <;> cases h
    rfl
  · cases h
  · cases h
  · unfold close at h
    split at h
    · cases h
      rfl
    · split at h <;> cases h
      rfl

theorem exists_of_foldlM_step {outline : Outline} {calls : List Invocation}
    (h : calls.foldlM (step lines) outline = .error error) : ∃ call ∈ calls, error.span = call.span := by
  obtain ⟨front, call, back, next, rfl, -, hStep⟩ := exists_of_foldlM_error h
  exact ⟨call, List.mem_append_right _ List.mem_cons_self, span_of_step hStep⟩

theorem Holds.opener_mem {outline : Outline} {calls : List Invocation} (h : outline.Holds lines calls) :
    ∀ block ∈ outline.blocks, block.opener ∈ calls := by
  induction h with
  | finished => exact List.forall_mem_nil _
  | within hOuter hBlock ih =>
    refine List.forall_mem_cons.mpr ⟨List.mem_append_right _ ?_, fun block hMem => List.mem_append_left _ (ih block hMem)⟩
    cases hBlock <;> simp

theorem exists_of_finish {outline : Outline} {calls : List Invocation} (h : outline.Holds lines calls) {span : Span}
    (hFinish : outline.finish lines span = .error error) : ∃ call ∈ calls, error.span = call.span := by
  unfold finish at hFinish
  split at hFinish
  · cases hFinish
  · rename_i block _ hBlocks
    cases hFinish
    exact ⟨block.opener, h.opener_mem block (by rw [hBlocks]; exact List.mem_cons_self), rfl⟩

end Outline

/-- What holds of the spans of all tokens, and of the smallest span that covers two of which it holds, holds of the span
of an error. -/
theorem span_of_ofTokens {allowed : Span → Prop} (hOrigin : allowed .origin)
    (hMerge : ∀ a b, allowed a → allowed b → allowed (a.merge b)) {tokens : List Token}
    (hTokens : ∀ token ∈ tokens, allowed token.span) (h : Node.ofTokens lines tokens = .error error) :
    allowed error.span := by
  unfold Node.ofTokens at h
  cases hAll : Invocation.all tokens with
  | mk calls ending =>
    obtain ⟨hCalls, hEnding⟩ := Invocation.mem_of_all hAll
    have hCall : (∃ call ∈ calls, error.span = call.span) → allowed error.span := by
      rintro ⟨call, hMem, hSpan⟩
      have hUses : call.Uses allowed := fun token hToken => hTokens token (hCalls call hMem token hToken)
      rw [hSpan]
      exact hUses.span hMerge
    rw [hAll] at h
    cases hFold : calls.foldlM (Outline.step lines) .empty with
    | error error' =>
      simp only [hFold] at h
      cases h
      exact hCall (Outline.exists_of_foldlM_step hFold)
    | ok outline =>
      simp only [hFold] at h
      cases ending with
      | refused error' =>
        cases h
        rcases List.mem_cons.mp (hEnding error rfl) with hSpan | hSpan
        · rwa [hSpan]
        · obtain ⟨token, hToken, hSpan⟩ := List.mem_map.mp hSpan
          rw [← hSpan]
          exact hTokens token hToken
      | complete span =>
        have hEmpty : Outline.Holds lines .empty [] := .finished .empty
        exact hCall (Outline.exists_of_finish (hEmpty.foldlM_step hFold) h)

end Listfile
