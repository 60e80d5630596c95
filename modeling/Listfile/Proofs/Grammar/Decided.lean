import Listfile.Proofs.Grammar.Leaves
import Listfile.Proofs.Grammar.Refusals
/-! # What decides an error

An error about a token or an invocation is decided by the tokens up to the place that it reports: whatever comes after
that place, the error is the same. Errors about the end of the text, and about blocks that are open there, are not of
this kind.
-/
namespace Listfile
set_option autoImplicit false

variable {α β : Type} {lines : LineIndex} {error : ParseError} {span : Span} {tokens : List Token}

/-- Whether an error is about something that was read, and not about the end of the text. -/
def ParseError.IsLocal : ParseError → Prop
  | unexpectedToken _ found _ => found ≠ .endOfText
  | unmatchedTerminator .. | emptyInclusion _ => True
  | unexpectedEnd _ | unclosedBlock .. => False

/-- Whether a result depends on no more than the tokens up to one that lies within a span. -/
def DecidedWithin (span : Span) (result : α) (f : List Token → α) (tokens : List Token) : Prop :=
  ∃ front last back, tokens = front ++ last :: back ∧ last.kind ≠ .endOfText ∧
    span.covers last.span ∧ ∀ other, f (front ++ last :: other) = result

namespace DecidedWithin

variable {result : α} {f : List Token → α} {result' : β} {g : List Token → β}

theorem of_head {token : Token} (hKind : token.kind ≠ .endOfText) (hSpan : span = token.span)
    (h : ∀ rest, f (token :: rest) = result) (rest : List Token) : DecidedWithin span result f (token :: rest) := by
  refine ⟨[], token, rest, rfl, hKind, ?_, h⟩
  rw [hSpan]
  simp [Span.covers]

theorem after (h : DecidedWithin span result f tokens) (before : List Token)
    (hNext : ∀ rest, f rest = result → g (before ++ rest) = result') :
    DecidedWithin span result' g (before ++ tokens) := by
  obtain ⟨front, last, back, rfl, hKind, hInside, hOther⟩ := h
  refine ⟨before ++ front, last, back, (List.append_assoc _ _ _).symm, hKind, hInside, fun other => ?_⟩
  rw [List.append_assoc]
  exact hNext _ (hOther other)

end DecidedWithin

namespace Invocation

/-! ## Refused tokens -/

theorem token_of_nestingAfter {nesting : Nat} {token : Token} (hLocal : error.IsLocal)
    (h : nestingAfter nesting token = .error error) : token.kind ≠ .endOfText ∧ error.span = token.span := by
  obtain ⟨kind, span, text⟩ := token
  cases kind <;> cases nesting <;> cases h
  case endOfText.zero | endOfText.succ => exact hLocal.elim
  all_goals exact ⟨by simp, rfl⟩

theorem readArguments_decided {nesting : Nat} (hLocal : error.IsLocal)
    (h : readArguments nesting tokens = .error error) :
    DecidedWithin error.span (.error error) (readArguments nesting) tokens := by
  fun_induction readArguments nesting tokens with
  | case1 =>
    cases h
    exact hLocal.elim
  | case2 nesting token rest error' hStep =>
    cases h
    obtain ⟨hKind, hSpan⟩ := token_of_nestingAfter hLocal hStep
    refine .of_head hKind hSpan (fun rest => ?_) rest
    rw [readArguments, hStep]
  | case3 => cases h
  | case4 nesting token rest inner hStep error' hRead ih =>
    cases h
    refine (ih hRead).after [token] fun rest hRest => ?_
    rw [List.singleton_append, readArguments, hStep]
    simp only [hRest]
  | case5 => cases h

theorem read_decided {name : Token} {rest : List Token} (hKind : name.kind ≠ .endOfText) (hLocal : error.IsLocal)
    (h : read name rest = .error error) :
    DecidedWithin error.span ([], .refused error) all (name :: rest) := by
  unfold read at h
  split at h
  · rename_i hName
    split at h
    · cases h
      exact absurd rfl hLocal
    · rename_i opening rest
      split at h
      · rename_i hOpening
        split at h
        · rename_i hRead
          cases h
          refine (readArguments_decided hLocal hRead).after [name, opening] fun rest hRest => ?_
          have hRefused : read name (opening :: rest) = .error error := by
            simp only [read, hName, hOpening, if_true, hRest]
          exact all_of_error hKind hRefused
        · cases h
      · rename_i hOpening
        cases h
        have hHead : DecidedWithin opening.span _ (read name) (opening :: rest) :=
          .of_head hLocal rfl (fun rest => by simp only [read, hName, hOpening, if_true, if_false]; rfl) rest
        exact hHead.after [name] fun rest hRest => all_of_error hKind hRest
  · rename_i hName
    cases h
    exact .of_head hKind rfl (fun rest => all_of_error hKind (if_neg hName)) rest

/-! ## Whole lists -/

/-- What is left after the invocations of a list is what it ends with. -/
theorem exists_rest_of_all {calls : List Invocation} {ending : Ending} (h : all tokens = (calls, ending)) :
    (∀ call ∈ calls, call.WellFormed) ∧
      ∃ rest, tokens = calls.flatMap Invocation.tokens ++ rest ∧ all rest = ([], ending) := by
  fun_induction all tokens generalizing calls with
  | case1 =>
    cases h
    exact ⟨List.forall_mem_nil _, [], rfl, by rw [all]⟩
  | case2 token rest hKind =>
    cases h
    exact ⟨List.forall_mem_nil _, token :: rest, rfl, by rw [all, if_pos hKind]⟩
  | case3 token rest hKind error hRead =>
    cases h
    exact ⟨List.forall_mem_nil _, token :: rest, rfl, all_of_error hKind hRead⟩
  | case4 token rest hKind call rest' hRead calls' ending' hAll ih =>
    cases h
    obtain ⟨hCalls, back, rfl, hBack⟩ := ih hAll
    refine ⟨List.forall_mem_cons.mpr ⟨wellFormed_of_read hRead, hCalls⟩, back, ?_, hBack⟩
    rw [List.flatMap_cons, List.append_assoc]
    exact eq_of_read hRead

theorem refused_decided (hLocal : error.IsLocal) (h : all tokens = ([], .refused error)) :
    DecidedWithin error.span ([], .refused error) all tokens := by
  cases tokens with
  | nil =>
    rw [all] at h
    cases h
  | cons name rest =>
    rw [all] at h
    split at h
    · cases h
    · rename_i hKind
      split at h
      · rename_i hRead
        cases h
        exact read_decided hKind hLocal hRead
      · cases h

theorem all_decided {calls : List Invocation} (hLocal : error.IsLocal) (h : all tokens = (calls, .refused error)) :
    DecidedWithin error.span (calls, .refused error) all tokens := by
  obtain ⟨hCalls, rest, rfl, hRest⟩ := exists_rest_of_all h
  refine (refused_decided hLocal hRest).after _ fun other hOther => ?_
  rw [all_append hCalls, hOther, List.append_nil]

end Invocation

/-! ## Refused invocations -/

/-- An invocation is refused once its closing parenthesis has been read. -/
theorem ofTokens_of_step {outline : Outline} {front back : List Invocation} {call : Invocation}
    (hFront : front.foldlM (Outline.step lines) .empty = .ok outline) (hStep : outline.step lines call = .error error)
    (hCalls : ∀ other ∈ front ++ call :: back, other.WellFormed) (rest : List Token) :
    DecidedWithin error.span (.error error) (Node.ofTokens lines)
      ((front ++ call :: back).flatMap Invocation.tokens ++ rest) := by
  obtain ⟨hOthers, hCall, hBack⟩ := by simpa only [List.forall_mem_append, List.forall_mem_cons] using hCalls
  refine ⟨front.flatMap Invocation.tokens ++ call.name :: call.opening :: call.arguments, call.closing,
    back.flatMap Invocation.tokens ++ rest, by simp [Invocation.tokens], by simp [hCall.closing], ?_, fun other => ?_⟩
  · rw [Outline.span_of_step hStep]
    simp [Span.covers, Invocation.span]
  · have hTokens : front.flatMap Invocation.tokens ++ (call.name :: call.opening :: call.arguments) ++
        call.closing :: other = (front ++ [call]).flatMap Invocation.tokens ++ other := by
      simp [Invocation.tokens]
    have hRead : ∀ other ∈ front ++ [call], other.WellFormed :=
      List.forall_mem_append.mpr ⟨hOthers, List.forall_mem_singleton.mpr hCall⟩
    have hFold (back : List Invocation) :
        (front ++ [call] ++ back).foldlM (Outline.step lines) .empty = .error error := by
      rw [List.append_assoc, foldlM_append_ok hFront, List.singleton_append, List.foldlM_cons, hStep]
      rfl
    rw [hTokens, Node.ofTokens, Invocation.all_append hRead]
    simp only [hFold]
    rfl

theorem not_isLocal_of_finish {outline : Outline} (h : outline.finish lines span = .error error) : ¬error.IsLocal := by
  unfold Outline.finish at h
  split at h
  · cases h
  · cases h
    exact id

theorem ofTokens_decided (hLocal : error.IsLocal) (h : Node.ofTokens lines tokens = .error error) :
    DecidedWithin error.span (.error error) (Node.ofTokens lines) tokens := by
  unfold Node.ofTokens at h
  cases hAll : Invocation.all tokens with
  | mk calls ending =>
    rw [hAll] at h
    cases hFold : calls.foldlM (Outline.step lines) .empty with
    | error error' =>
      simp only [hFold] at h
      cases h
      obtain ⟨front, call, back, outline, rfl, hFront, hStep⟩ := exists_of_foldlM_error hFold
      obtain ⟨hCalls, rest, rfl, -⟩ := Invocation.exists_rest_of_all hAll
      exact ofTokens_of_step hFront hStep hCalls rest
    | ok outline =>
      simp only [hFold] at h
      cases ending with
      | refused error' =>
        cases h
        refine (Invocation.all_decided hLocal hAll).after [] fun other hOther => ?_
        rw [List.nil_append, Node.ofTokens, hOther]
        simp only [hFold]
        rfl
      | complete stop => exact absurd hLocal (not_isLocal_of_finish h)

/-- What comes after the last token that the span of an error covers can be replaced by anything. -/
theorem parse_error_is_local {source : String} {error : ParseError} (hParse : parse source = .error error)
    (hLocal : error.IsLocal) {front back : List Token} (hTokens : tokenize source = front ++ back)
    (hBack : ∀ token ∈ tokensWithin source error.span, token ∉ back) (other : List Token) :
    Node.ofTokens (LineIndex.ofSource source) (front ++ other) = .error error := by
  obtain ⟨before, last, after, hSplit, hKind, hCovers, hOther⟩ := ofTokens_decided hLocal hParse
  have hLast : last ∈ tokensWithin source error.span := by
    have hMem : last ∈ tokenize source := by
      rw [hSplit]
      exact List.mem_append_right _ List.mem_cons_self
    rw [tokenize_eq, List.mem_append, List.mem_singleton] at hMem
    rcases hMem with hMem | rfl
    · exact List.mem_filter.mpr ⟨hMem, hCovers⟩
    · exact absurd rfl hKind
  rw [hTokens] at hSplit
  rcases List.append_eq_append_iff.mp hSplit with ⟨more, -, rfl⟩ | ⟨more, rfl, hMore⟩
  · exact absurd (List.mem_append_right _ List.mem_cons_self) (hBack last hLast)
  · cases more with
    | nil =>
      rw [List.nil_append] at hMore
      rw [← hMore] at hBack
      exact absurd List.mem_cons_self (hBack last hLast)
    | cons first more =>
      cases hMore
      rw [List.append_assoc]
      exact hOther _

/-- A loop that is closed as another one. That the text ends in an open list of arguments comes too late to matter. -/
theorem parse_error_is_local_of_mismatch :
    let source := "foreach(x a b)\nendwhile()\nset("
    let error := ParseError.unmatchedTerminator (.endBlock .whileLoop) ⟨15, 25⟩
    parse source = .error error ∧ error.IsLocal ∧
      (∀ token ∈ tokensWithin source error.span, token ∉ (tokenize source).drop 9) ∧
      ∀ other, Node.ofTokens (LineIndex.ofSource source) ((tokenize source).take 9 ++ other) = .error error := by
  intro source error
  have hParse : parse source = .error error := by
    apply refusal?_eq_some.mp
    decide +kernel
  have hBack : ∀ token ∈ tokensWithin source error.span, token ∉ (tokenize source).drop 9 := by decide +kernel
  exact ⟨hParse, trivial, hBack, fun other =>
    parse_error_is_local hParse trivial (List.take_append_drop 9 (tokenize source)).symm hBack other⟩

end Listfile
