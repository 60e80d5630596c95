import Listfile.Proofs.Grammar.Descent.Words
import Listfile.Proofs.Grammar.Invocations
/-! # Steps of a descent

What a step of a descent yields is put together from what its parts yield. A cursor stands at a token of the script, and
at the end of the text at the latest; so a loop has no fault if each of its turns moves the cursor. An invocation is what
the tokens at the cursor are read as.
-/
namespace Listfile.Descent
set_option autoImplicit false

variable {α β σ : Type}

/-! ## What a step yields -/

/-- Whether a step has no fault from a cursor on, and what is known of its value and of the new cursor, or of its
error. -/
def Yields (step : Step α) (cursor : Nat) (value : α → Nat → Prop) (refused : ParseError → Prop) : Prop :=
  match step cursor with
  | .ok (a, cursor') => value a cursor'
  | .error (.refused error) => refused error
  | .error (.fault _) => False

section rules

variable {step : Step α} {next : α → Step β} {cursor cursor' : Nat} {a : α} {value : α → Nat → Prop}
  {value' : β → Nat → Prop} {refused : ParseError → Prop} {error : ParseError}

theorem yields_pure (h : value a cursor) : Yields (pure a) cursor value refused := h

theorem yields_refused (h : refused error) : Yields (halt (.refused error)) cursor value refused := h

theorem bind_eq : (step >>= next) cursor = step cursor >>= fun (a, cursor') => next a cursor' := rfl

theorem bind_of_ok (h : step cursor = .ok (a, cursor')) : (step >>= next) cursor = next a cursor' := by
  rw [bind_eq, h]
  rfl

/-- The errors of the first step may be stated in another way for both. -/
theorem Yields.bind {refused' : ParseError → Prop} (h : Yields step cursor value refused)
    (hRefused : ∀ error, refused error → refused' error)
    (hNext : ∀ a cursor', value a cursor' → Yields (next a) cursor' value' refused') :
    Yields (step >>= next) cursor value' refused' := by
  unfold Yields at h ⊢
  rw [bind_eq]
  cases hStep : step cursor with
  | error reason =>
    rw [hStep] at h
    cases reason with
    | refused error => exact hRefused error h
    | fault => exact h
  | ok result =>
    rw [hStep] at h
    exact hNext _ _ h

theorem yields_of_ok (hStep : step cursor = .ok (a, cursor')) (h : Yields (next a) cursor' value' refused) :
    Yields (step >>= next) cursor value' refused := by
  unfold Yields at h ⊢
  rwa [bind_of_ok hStep]

theorem yields_of_refused (hStep : step cursor = .error (.refused error)) (h : refused error) :
    Yields (step >>= next) cursor value' refused := by
  unfold Yields
  rw [bind_eq, hStep]
  exact h

theorem attempt_ok {result : Except Fault α} (h : result = .ok a) : attempt result cursor = .ok (a, cursor) := by
  unfold attempt
  rw [h]

end rules

/-! ## The cursor -/

/-- Whether a cursor stands at the first of these tokens, which are the last ones of a source. -/
def Stands (source : String) (cursor : Nat) (rest : List Token) : Prop :=
  (tokenize source).drop cursor = rest ∧ rest ≠ []

namespace Stands

variable {source : String} {cursor : Nat} {token : Token} {rest : List Token}

theorem lt_length (h : Stands source cursor rest) : cursor < (tokenize source).length := by
  obtain ⟨rfl, hSome⟩ := h
  exact Nat.lt_of_not_le (mt List.drop_eq_nil_iff.mpr hSome)

theorem exists_of_lt (h : cursor < (tokenize source).length) : ∃ token rest, Stands source cursor (token :: rest) := by
  have hSome := mt List.drop_eq_nil_iff.mp (Nat.not_le_of_lt h)
  obtain ⟨token, rest, hRest⟩ := List.exists_cons_of_ne_nil hSome
  exact ⟨token, rest, hRest, List.cons_ne_nil _ _⟩

/-- The end of the text comes last. -/
theorem exists_inner (h : Stands source cursor rest) :
    ∃ inner, rest = inner ++ [.ending source] ∧ ∀ token ∈ inner, token.kind ≠ .endOfText := by
  have hLt := h.lt_length
  rw [tokenize_eq, List.length_append, List.length_singleton] at hLt
  refine ⟨(tokenize source).dropLast.drop cursor, ?_, fun token hToken => ?_⟩
  · rw [← h.1, tokenize_eq, List.drop_append_of_le_length (by omega), List.dropLast_concat]
  · exact kind_ne_of_mem_dropLast token (List.mem_of_mem_drop hToken)

variable (h : Stands source cursor (token :: rest))
include h

theorem getElem?_eq : (tokenize source)[cursor]? = some token := by
  rw [← List.head?_drop, h.1]
  rfl

theorem mem : token ∈ tokenize source := List.mem_of_getElem? h.getElem?_eq

theorem rest_eq_nil (hKind : token.kind = .endOfText) : rest = [] := by
  obtain ⟨inner, hInner, hKinds⟩ := h.exists_inner
  cases inner with
  | nil => exact (List.cons.inj hInner).2
  | cons first inner =>
    obtain ⟨rfl, -⟩ := List.cons.inj hInner
    exact absurd hKind (hKinds _ List.mem_cons_self)

theorem next (hKind : token.kind ≠ .endOfText) : Stands source (cursor + 1) rest := by
  refine ⟨?_, ?_⟩
  · rw [← List.tail_drop, h.1, List.tail_cons]
  · rintro rfl
    obtain ⟨inner, hInner, -⟩ := h.exists_inner
    cases inner with
    | nil =>
      obtain ⟨rfl, -⟩ := List.cons.inj hInner
      exact hKind rfl
    | cons first inner => simp at hInner

theorem current : current (.ofSource source) cursor = .ok (token, cursor) := by
  have hCursor : (get : Step Nat) cursor = .ok (cursor, cursor) := rfl
  have hToken : (Input.ofSource source).tokens[cursor]? = some token := h.getElem?_eq
  rw [Descent.current, bind_of_ok hCursor, hToken]
  rfl

theorem advance (hKind : token.kind ≠ .endOfText) : advance (.ofSource source) cursor = .ok (token, cursor + 1) := by
  have hNext := (h.next hKind).lt_length
  have hSome : 1 ≤ (tokenize source).length := by omega
  have hLast : minus (Input.ofSource source).tokens.length 1 = .ok ((tokenize source).length - 1) := if_pos hSome
  have hCursor : (get : Step Nat) cursor = .ok (cursor, cursor) := rfl
  have hMore : cursor < (tokenize source).length - 1 := by omega
  rw [Descent.advance, bind_of_ok h.current, bind_of_ok (attempt_ok hLast), bind_of_ok hCursor, if_pos hMore,
    if_neg hKind]
  rfl

theorem consume {kind : Token.Kind} (hKind : token.kind = kind) (hEnd : kind ≠ .endOfText) :
    consume (.ofSource source) kind cursor = .ok (token, cursor + 1) := by
  rw [Descent.consume, bind_of_ok h.current, if_pos hKind]
  exact h.advance (hKind ▸ hEnd)

theorem consume_ne {kind : Token.Kind} (hKind : token.kind ≠ kind) {expected : Expectation}
    (hExpected : expectation? kind = some expected) : Descent.consume (.ofSource source) kind cursor =
      .error (.refused (.unexpectedToken expected token.kind token.span)) := by
  rw [Descent.consume, bind_of_ok h.current, if_neg hKind, hExpected]
  rfl

end Stands

/-! ## Loops -/

section loops

variable {source : String} {turn : σ → Step (Turn σ α)} (invariant : σ → Nat → Prop) {value : α → Nat → Prop}
  {refused : ParseError → Prop}

/-- No cursor of a source is past the end of the text, and so what is before one is not the end of the text. -/
theorem consumes_of_lt {source : String} {before after : Nat} (hBefore : before < after)
    (hAfter : after < (tokenize source).length) : (Input.ofSource source).consumes before after = true := by
  have hLength := hAfter
  rw [tokenize_eq, List.length_append, List.length_singleton] at hLength
  have hTokens : ((tokenize source).drop before).take (after - before) =
      ((tokenize source).dropLast.drop before).take (after - before) := by
    conv_lhs => rw [tokenize_eq]
    rw [List.drop_append_of_le_length (by omega), List.take_append_of_le_length (by rw [List.length_drop]; omega)]
  have hAll : (((tokenize source).drop before).take (after - before)).all (·.kind ≠ .endOfText) = true := by
    rw [hTokens, List.all_eq_true]
    intro token hToken
    exact decide_eq_true (kind_ne_of_mem_dropLast token (List.mem_of_mem_drop (List.mem_of_mem_take hToken)))
  simp only [Input.consumes, Bool.and_eq_true, decide_eq_true_eq]
  exact ⟨⟨hBefore, hAfter⟩, hAll⟩

/-- What a turn of a loop must come to, if the loop is to keep an invariant and to end with a value. -/
def Turned (source : String) (invariant : σ → Nat → Prop) (value : α → Nat → Prop) (before : Nat) :
    Turn σ α → Nat → Prop
  | .again state, cursor => before < cursor ∧ cursor < (tokenize source).length ∧ invariant state cursor
  | .leave result, cursor => value result cursor

theorem yields_repeatedly
    (hTurn : ∀ state cursor, cursor < (tokenize source).length → invariant state cursor →
      Yields (turn state) cursor (Turned source invariant value cursor) refused)
    {turns : Nat} {state : σ} {cursor : Nat} (hCursor : cursor < (tokenize source).length)
    (hTurns : (tokenize source).length - cursor ≤ turns) (h : invariant state cursor) :
    Yields (repeatedly (.ofSource source) turn turns state) cursor value refused := by
  induction turns generalizing state cursor with
  | zero => omega
  | succ turns ih =>
    have hBefore : (get : Step Nat) cursor = .ok (cursor, cursor) := rfl
    refine yields_of_ok hBefore ?_
    refine (hTurn state cursor hCursor h).bind (fun _ hError => hError) fun result cursor' hResult => ?_
    cases result with
    | leave result => exact hResult
    | again state =>
      obtain ⟨hLt, hCursor', hInvariant⟩ := hResult
      have hAfter : (get : Step Nat) cursor' = .ok (cursor', cursor') := rfl
      refine yields_of_ok hAfter ?_
      rw [if_pos (consumes_of_lt hLt hCursor')]
      exact ih hCursor' (by omega) hInvariant

theorem yields_loop
    (hTurn : ∀ state cursor, cursor < (tokenize source).length → invariant state cursor →
      Yields (turn state) cursor (Turned source invariant value cursor) refused)
    {state : σ} {cursor : Nat} (hCursor : cursor < (tokenize source).length) (h : invariant state cursor) :
    Yields (loop (.ofSource source) turn state) cursor value refused :=
  yields_repeatedly invariant hTurn hCursor (Nat.sub_le _ _) h

end loops

/-! ## Invocations -/

section invocations

variable {source : String} {cursor : Nat} {token : Token} {rest : List Token}

theorem yields_take {word : Except Fault Node} {node : Node} {nesting : Nat} {words : List Node}
    {value : Turn (Nat × List Node) (List Node) → Nat → Prop} {refused : ParseError → Prop}
    (h : Stands source cursor (token :: rest)) (hKind : token.kind ≠ .endOfText) (hWord : word = .ok node)
    (hValue : value (.again (nesting, words ++ [node])) (cursor + 1)) :
    Yields (take (.ofSource source) word nesting words) cursor value refused := by
  refine yields_of_ok (attempt_ok hWord) (yields_of_ok (h.advance hKind) ?_)
  exact hValue

theorem readArguments_of_step {nesting inner : Nat} (h : Invocation.nestingAfter nesting token = .ok (some inner))
    (rest : List Token) : Invocation.readArguments nesting (token :: rest) =
      (Invocation.readArguments inner rest).map fun (arguments, closing, rest) =>
        (token :: arguments, closing, rest) := by
  rw [Invocation.readArguments, h]
  cases hRest : Invocation.readArguments inner rest <;> simp only [hRest] <;> rfl

/-- The words that have been made of the arguments of an invocation, where some inner parentheses are open, and what is
left to read. -/
def ReadUpTo (source : String) (tokens : List Token) (first : Nat) : Nat × List Node → Nat → Prop
  | (nesting, words), cursor => first ≤ cursor ∧ ∃ front, words = front.map (Token.word (.ofSource source)) ∧
      Invocation.readArguments 0 tokens =
        (Invocation.readArguments nesting ((tokenize source).drop cursor)).map fun (inner, closing, rest) =>
          (front ++ inner, closing, rest)

/-- What has been read of the arguments of an invocation, when they are closed. -/
def Arguments (source : String) (tokens : List Token) (first : Nat) (words : List Node) (cursor : Nat) : Prop :=
  first ≤ cursor ∧ ∃ arguments closing rest, Invocation.readArguments 0 tokens = .ok (arguments, closing, rest) ∧
    words = arguments.map (Token.word (.ofSource source)) ∧ Stands source cursor (closing :: rest) ∧
    closing.kind = .rightParen

section turns

variable {tokens : List Token} {first nesting : Nat} {words : List Node}
  (h : ReadUpTo source tokens first (nesting, words) cursor) (hStands : Stands source cursor (token :: rest))

include h hStands

theorem ReadUpTo.taken {inner : Nat} (hStep : Invocation.nestingAfter nesting token = .ok (some inner))
    (hKind : token.kind ≠ .endOfText) {word : Except Fault Node} (hWord : word = .ok (token.word (.ofSource source))) :
    Yields (take (.ofSource source) word inner words) cursor
      (Turned source (ReadUpTo source tokens first) (Arguments source tokens first) cursor)
      (fun error => Invocation.readArguments 0 tokens = .error error) := by
  have hNext := hStands.next hKind
  refine yields_take hStands hKind hWord ⟨Nat.lt_succ_self _, hNext.lt_length, ?_⟩
  obtain ⟨hFirst, front, rfl, hRead⟩ := h
  refine ⟨Nat.le_succ_of_le hFirst, front ++ [token], by rw [List.map_append]; rfl, ?_⟩
  rw [hRead, hStands.1, hNext.1, readArguments_of_step hStep]
  cases Invocation.readArguments inner rest with
  | error error => rfl
  | ok result =>
    obtain ⟨arguments, closing, rest'⟩ := result
    simp [Except.map]

theorem ReadUpTo.refused {error : ParseError} (hStep : Invocation.nestingAfter nesting token = .error error) :
    Invocation.readArguments 0 tokens = .error error := by
  obtain ⟨-, front, -, hRead⟩ := h
  rw [hRead, hStands.1, Invocation.readArguments, hStep]
  rfl

theorem ReadUpTo.closed (hKind : token.kind = .rightParen) (hNesting : nesting = 0) :
    Arguments source tokens first words cursor := by
  obtain ⟨hFirst, front, rfl, hRead⟩ := h
  refine ⟨hFirst, front, token, rest, ?_, rfl, hStands, hKind⟩
  rw [hRead, hStands.1, Invocation.readArguments, Invocation.nestingAfter_eq_none.mpr ⟨hKind, hNesting⟩]
  simp [Except.map]

theorem ReadUpTo.turned : Yields (argumentTurn (.ofSource source) (nesting, words)) cursor
    (Turned source (ReadUpTo source tokens first) (Arguments source tokens first) cursor)
    (fun error => Invocation.readArguments 0 tokens = .error error) := by
  refine yields_of_ok hStands.current ?_
  have hWord (hKind : token.kind.isArgument) := argument_eq hStands.mem hKind
  have hParenthesis (hKind : token.kind = .leftParen ∨ token.kind = .rightParen) := parenthesis_eq hStands.mem hKind
  split
  case h_1 hKind =>
    split
    · rename_i hNesting
      exact h.closed hStands hKind hNesting
    · rename_i hNesting
      have hMinus : minus nesting 1 = .ok (nesting - 1) := if_pos (Nat.one_le_iff_ne_zero.mpr hNesting)
      have hStep : Invocation.nestingAfter nesting token = .ok (some (nesting - 1)) := by
        obtain ⟨inner, rfl⟩ := Nat.exists_eq_succ_of_ne_zero hNesting
        simp [Invocation.nestingAfter, hKind]
      refine yields_of_ok (attempt_ok hMinus) ?_
      exact h.taken hStands hStep (by simp [hKind]) (hParenthesis (.inr hKind))
  case h_2 hKind =>
    have hStep : Invocation.nestingAfter nesting token = .ok (some (nesting + 1)) := by
      simp [Invocation.nestingAfter, hKind]
    exact h.taken hStands hStep (by simp [hKind]) (hParenthesis (.inl hKind))
  case h_3 hKind | h_4 hKind | h_5 hKind =>
    have hStep : Invocation.nestingAfter nesting token = .ok (some nesting) := by
      simp [Invocation.nestingAfter, hKind]
    exact h.taken hStands hStep (by simp [hKind]) (hWord (by rw [hKind]; rfl))
  case h_6 hKind =>
    apply yields_refused
    apply h.refused hStands
    simp [Invocation.nestingAfter, hKind]
  case h_7 =>
    apply yields_refused
    apply h.refused hStands
    unfold Invocation.nestingAfter
    split <;> simp_all

end turns

theorem yields_arguments (h : Stands source cursor rest) :
    Yields (loop (.ofSource source) (argumentTurn (.ofSource source)) (0, [])) cursor (Arguments source rest cursor)
      (fun error => Invocation.readArguments 0 rest = .error error) := by
  refine yields_loop (ReadUpTo source rest cursor) (fun state cursor' hCursor hRead => ?_) h.lt_length ?_
  · obtain ⟨token, rest', hStands⟩ := Stands.exists_of_lt hCursor
    exact hRead.turned hStands
  · refine ⟨Nat.le_refl _, [], rfl, ?_⟩
    rw [h.1]
    cases Invocation.readArguments 0 rest <;> rfl

theorem yields_invocation (h : Stands source cursor (token :: rest)) (hToken : token.kind ≠ .endOfText) :
    Yields (invocation (.ofSource source)) cursor
      (fun node cursor' => ∃ call rest', Invocation.read token rest = .ok (call, rest') ∧
        node = call.call (.ofSource source) ∧ cursor < cursor' ∧ Stands source cursor' rest')
      (fun error => Invocation.read token rest = .error error) := by
  refine yields_of_ok h.current ?_
  by_cases hName : token.kind = .unquoted
  · have hRest := h.next hToken
    obtain ⟨opening, rest, rfl⟩ := List.exists_cons_of_ne_nil hRest.2
    refine yields_of_ok (h.consume hName (by decide)) (yields_of_ok (attempt_ok (textOf_token h.mem)) ?_)
    by_cases hOpening : opening.kind = .leftParen
    · refine yields_of_ok (hRest.consume hOpening (by decide)) ?_
      have hArguments := yields_arguments (hRest.next (by simp [hOpening]))
      refine hArguments.bind (fun error hError => ?_) ?_
      · simp only [Invocation.read, hName, hOpening, if_true, hError]
      · rintro words cursor' ⟨hLe, arguments, closing, rest', hRead, rfl, hStands, hClosing⟩
        refine yields_of_ok (hStands.consume hClosing (by decide))
          (yields_of_ok (attempt_ok (locate_eq _ _)) (yields_pure ?_))
        refine ⟨⟨token, opening, arguments, closing⟩, rest', ?_, rfl, by omega, hStands.next (by simp [hClosing])⟩
        simp only [Invocation.read, hName, hOpening, if_true, hRead]
    · apply yields_of_refused (hRest.consume_ne hOpening rfl)
      simp only [Invocation.read, hName, hOpening, if_true, if_false]
  · apply yields_of_refused (h.consume_ne hName rfl)
    simp only [Invocation.read, hName, if_false]

end invocations

end Listfile.Descent
