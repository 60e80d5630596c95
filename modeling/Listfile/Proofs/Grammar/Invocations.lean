import Listfile.Invocation
/-! # Which token lists are invocations

An invocation is a name, an opening parenthesis, arguments in which parentheses are balanced, and a closing
parenthesis. Balance is said here by counting: every front part closes at most as many parentheses as it opens, and
the whole closes as many. A token list is read to its end exactly if it is a sequence of such invocations.
-/
namespace Listfile.Invocation
set_option autoImplicit false

def openings (tokens : List Token) : Nat := tokens.countP (·.kind = .leftParen)

def closings (tokens : List Token) : Nat := tokens.countP (·.kind = .rightParen)

/-- Whether a token of this kind can stand between the outer parentheses. -/
def Inner (kind : Token.Kind) : Prop := kind.isArgument ∨ kind = .leftParen ∨ kind = .rightParen

/-- Tokens that close what they open and `nesting` parentheses besides, and never more than are open. -/
structure Balanced (nesting : Nat) (tokens : List Token) : Prop where
  inner : ∀ token ∈ tokens, Inner token.kind
  never_below : ∀ front, front <+: tokens → closings front ≤ openings front + nesting
  settled : closings tokens = openings tokens + nesting

structure WellFormed (call : Invocation) : Prop where
  name : call.name.kind = .unquoted
  opening : call.opening.kind = .leftParen
  arguments : Balanced 0 call.arguments
  closing : call.closing.kind = .rightParen

/-! ## Arguments -/

theorem openings_cons (token : Token) (rest : List Token) :
    openings (token :: rest) = openings [token] + openings rest := by
  rw [openings, openings, openings, List.countP_cons, List.countP_cons, List.countP_nil]
  omega

theorem closings_cons (token : Token) (rest : List Token) :
    closings (token :: rest) = closings [token] + closings rest := by
  rw [closings, closings, closings, List.countP_cons, List.countP_cons, List.countP_nil]
  omega

theorem nestingAfter_eq_some {nesting inner : Nat} {token : Token} :
    nestingAfter nesting token = .ok (some inner) ↔
      Inner token.kind ∧ inner + closings [token] = openings [token] + nesting := by
  obtain ⟨kind, span, text⟩ := token
  cases kind <;> cases nesting <;>
    simp [nestingAfter, Inner, Token.Kind.isArgument, openings, closings] <;> omega

theorem nestingAfter_eq_none {nesting : Nat} {token : Token} :
    nestingAfter nesting token = .ok none ↔ token.kind = .rightParen ∧ nesting = 0 := by
  obtain ⟨kind, span, text⟩ := token
  cases kind <;> cases nesting <;> simp [nestingAfter]

theorem balanced_nil {nesting : Nat} : Balanced nesting [] ↔ nesting = 0 := by
  constructor
  · intro h
    simpa [closings, openings] using h.settled.symm
  · rintro rfl
    refine ⟨by simp, fun front hFront => ?_, rfl⟩
    rw [List.prefix_nil.mp hFront]
    exact Nat.le_refl _

/-- What a token leaves open must be closed by those after it. -/
theorem balanced_cons {nesting : Nat} {token : Token} {rest : List Token} :
    Balanced nesting (token :: rest) ↔
      ∃ inner, nestingAfter nesting token = .ok (some inner) ∧ Balanced inner rest := by
  constructor
  · intro h
    have hFirst := h.never_below [token] (List.cons_prefix_cons.mpr ⟨rfl, List.nil_prefix⟩)
    refine ⟨openings [token] + nesting - closings [token],
      nestingAfter_eq_some.mpr ⟨h.inner token List.mem_cons_self, by omega⟩,
      fun other hOther => h.inner other (List.mem_cons_of_mem _ hOther), fun front hFront => ?_, ?_⟩
    · have hLe := h.never_below (token :: front) (List.cons_prefix_cons.mpr ⟨rfl, hFront⟩)
      rw [openings_cons, closings_cons] at hLe
      omega
    · have hSettled := h.settled
      rw [openings_cons, closings_cons] at hSettled
      omega
  · rintro ⟨inner, hStep, hInner, hBelow, hSettled⟩
    obtain ⟨hKind, hCount⟩ := nestingAfter_eq_some.mp hStep
    refine ⟨List.forall_mem_cons.mpr ⟨hKind, hInner⟩, fun front hFront => ?_, ?_⟩
    · rcases List.prefix_cons_iff.mp hFront with rfl | ⟨front', rfl, hFront'⟩
      · exact Nat.zero_le _
      · have hLe := hBelow front' hFront'
        rw [openings_cons, closings_cons]
        omega
    · rw [openings_cons, closings_cons]
      omega

theorem readArguments_of_balanced {nesting : Nat} {arguments : List Token} {closing : Token}
    (h : Balanced nesting arguments) (hClosing : closing.kind = .rightParen) (rest : List Token) :
    readArguments nesting (arguments ++ closing :: rest) = .ok (arguments, closing, rest) := by
  induction arguments generalizing nesting with
  | nil => simp [readArguments, nestingAfter_eq_none.mpr ⟨hClosing, balanced_nil.mp h⟩]
  | cons token arguments ih =>
    obtain ⟨inner, hStep, hInner⟩ := balanced_cons.mp h
    simp [readArguments, hStep, ih hInner]

theorem balanced_of_readArguments {nesting : Nat} {tokens arguments rest : List Token} {closing : Token}
    (h : readArguments nesting tokens = .ok (arguments, closing, rest)) :
    Balanced nesting arguments ∧ closing.kind = .rightParen := by
  fun_induction readArguments nesting tokens generalizing arguments with
  | case1 => cases h
  | case2 => cases h
  | case3 nesting token rest hStep =>
    cases h
    obtain ⟨hKind, rfl⟩ := nestingAfter_eq_none.mp hStep
    exact ⟨balanced_nil.mpr rfl, hKind⟩
  | case4 => cases h
  | case5 nesting token rest inner hStep inside closing' rest' hRead ih =>
    cases h
    obtain ⟨hBalanced, hClosing⟩ := ih hRead
    exact ⟨balanced_cons.mpr ⟨inner, hStep, hBalanced⟩, hClosing⟩

/-! ## Whole invocations -/

theorem WellFormed.read {call : Invocation} (h : call.WellFormed) (rest : List Token) :
    Invocation.read call.name (call.opening :: call.arguments ++ call.closing :: rest) = .ok (call, rest) := by
  simp only [Invocation.read, h.name, if_true, List.cons_append, h.opening,
    readArguments_of_balanced h.arguments h.closing rest]

theorem wellFormed_of_read {name : Token} {tokens rest : List Token} {call : Invocation}
    (h : read name tokens = .ok (call, rest)) : call.WellFormed := by
  unfold Invocation.read at h
  split at h
  · split at h
    · cases h
    · split at h
      · split at h
        · cases h
        · rename_i hName _ opening _ hOpening _ _ _ _ hRead
          cases h
          obtain ⟨hBalanced, hClosing⟩ := balanced_of_readArguments hRead
          exact ⟨hName, hOpening, hBalanced, hClosing⟩
      · cases h
  · cases h

theorem all_of_error {name : Token} {rest : List Token} {error : ParseError} (hKind : name.kind ≠ .endOfText)
    (h : Invocation.read name rest = .error error) : all (name :: rest) = ([], .refused error) := by
  rw [all, if_neg hKind]
  split
  · rename_i hRead
    rw [h] at hRead
    cases hRead
    rfl
  · rename_i hRead
    rw [h] at hRead
    cases hRead

/-- Invocations are read one after the other. -/
theorem all_append {calls : List Invocation} (h : ∀ call ∈ calls, call.WellFormed) (rest : List Token) :
    all (calls.flatMap Invocation.tokens ++ rest) = (calls ++ (all rest).1, (all rest).2) := by
  induction calls with
  | nil => rfl
  | cons call others ih =>
    obtain ⟨hCall, hOthers⟩ := List.forall_mem_cons.mp h
    have hName : call.name.kind ≠ .endOfText := by
      rw [hCall.name]
      decide
    have hTokens : (call :: others).flatMap Invocation.tokens ++ rest =
        call.name :: (call.opening :: call.arguments ++
          call.closing :: (others.flatMap Invocation.tokens ++ rest)) := by
      simp [Invocation.tokens]
    rw [hTokens, all, if_neg hName]
    split
    · rename_i hRead
      rw [hCall.read] at hRead
      cases hRead
    · rename_i hRead
      rw [hCall.read] at hRead
      cases hRead
      rw [ih hOthers]
      rfl

/-- Tokens that are a sequence of invocations, with the end of the text after them. -/
structure Split (tokens : List Token) (calls : List Invocation) : Prop where
  wellFormed : ∀ call ∈ calls, call.WellFormed
  tokens_eq : tokens = calls.flatMap Invocation.tokens

theorem all_of_split {tokens : List Token} {calls : List Invocation} (h : Split tokens calls) {stop : Token}
    (hStop : stop.kind = .endOfText) : all (tokens ++ [stop]) = (calls, .complete stop.span) := by
  have hNone : all [stop] = ([], .complete stop.span) := by rw [all, if_pos hStop]
  rw [h.tokens_eq, all_append h.wellFormed, hNone, List.append_nil]

/-- The end of the text is not the end of an invocation. -/
theorem eq_append_of_tokens {call : Invocation} (h : call.WellFormed) {tokens rest : List Token} {stop : Token}
    (hStop : stop.kind = .endOfText) (hEq : tokens ++ [stop] = call.tokens ++ rest) :
    ∃ tokens', tokens = call.tokens ++ tokens' ∧ rest = tokens' ++ [stop] := by
  rcases List.append_eq_append_iff.mp hEq with ⟨more, hMore, hLast⟩ | ⟨more, hMore, hRest⟩
  · rcases more with _ | ⟨first, more⟩
    · exact ⟨[], by simpa using hMore.symm, hLast.symm⟩
    · obtain ⟨rfl, hNil⟩ := List.cons.inj hLast
      have hClosing : call.tokens.getLast? = some stop := by
        rw [hMore, (List.append_eq_nil_iff.mp hNil.symm).1]
        simp
      rw [Invocation.tokens, List.getLast?_append, List.getLast?_singleton, Option.some_or,
        Option.some.injEq] at hClosing
      rw [← hClosing, h.closing] at hStop
      cases hStop
  · exact ⟨more, hMore, hRest⟩

theorem split_of_all {tokens : List Token} (hTokens : ∀ token ∈ tokens, token.kind ≠ .endOfText) {stop : Token}
    (hStop : stop.kind = .endOfText) {calls : List Invocation} {span : Span}
    (h : all (tokens ++ [stop]) = (calls, .complete span)) : Split tokens calls ∧ span = stop.span := by
  generalize hList : tokens ++ [stop] = list at h
  fun_induction all list generalizing tokens calls with
  | case1 => simp at hList
  | case2 token rest hKind =>
    cases h
    rcases tokens with _ | ⟨first, tokens⟩
    · cases hList
      exact ⟨⟨by simp, rfl⟩, rfl⟩
    · cases hList
      exact absurd hKind (hTokens _ List.mem_cons_self)
  | case3 => cases h
  | case4 token rest hKind call rest' hRead calls' ending hAll ih =>
    cases h
    have hCall := wellFormed_of_read hRead
    obtain ⟨tokens', rfl, hRest⟩ := eq_append_of_tokens hCall hStop (hList.trans (eq_of_read hRead))
    obtain ⟨hSplit, hSpan⟩ :=
      ih (fun other hOther => hTokens other (List.mem_append_right _ hOther)) hRest.symm hAll
    refine ⟨⟨List.forall_mem_cons.mpr ⟨hCall, hSplit.wellFormed⟩, ?_⟩, hSpan⟩
    rw [List.flatMap_cons, ← hSplit.tokens_eq]

end Listfile.Invocation
