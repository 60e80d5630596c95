import Listfile.Proofs.Grammar.Descent
import Listfile.Proofs.Grammar.Leaves
import Listfile.Proofs.Source.Lines
/-! # The words that a descent makes

No subtraction and no slice that a descent needs for a word or a place can fail: tokens lie between characters of the
text, quoted and bracket arguments have their delimiters, and no offset lies before the first line. What comes out is
the word of the token.
-/
namespace Listfile.Descent
set_option autoImplicit false

theorem minus_add (a b : Nat) : minus (a + b) b = .ok a := by
  rw [minus, if_pos (Nat.le_add_left _ _), Nat.add_sub_cancel]

/-! ## Slices -/

theorem splitAtByte?_append (front back : List Char) :
    splitAtByte? (String.ofList front).utf8ByteSize (front ++ back) = some (front, back) := by
  induction front with
  | nil => cases back <;> rfl
  | cons c front ih =>
    have hPos := c.utf8Size_pos
    obtain ⟨n, hn⟩ : ∃ n, c.utf8Size + (String.ofList front).utf8ByteSize = n + 1 :=
      ⟨_, (Nat.succ_pred_eq_of_pos (by omega)).symm⟩
    rw [byteSize_cons, hn, List.cons_append, splitAtByte?, if_pos (by omega)]
    have hRest : n + 1 - c.utf8Size = (String.ofList front).utf8ByteSize := by omega
    rw [hRest, ih]
    rfl

theorem slice_append (before text after : String) :
    slice (before ++ text ++ after) before.utf8ByteSize (before.utf8ByteSize + text.utf8ByteSize) = .ok text := by
  have hFront := splitAtByte?_append (before ++ text).toList after.toList
  have hInner := splitAtByte?_append before.toList text.toList
  rw [String.ofList_toList, String.utf8ByteSize_append, String.toList_append] at hFront
  rw [String.ofList_toList] at hInner
  rw [slice, String.toList_append, String.toList_append]
  simp only [hFront, hInner, String.ofList_toList]

theorem textOf_eq {source : String} {token : Token} (h : token.span.Spells source token.text) :
    textOf (.ofSource source) token = .ok token.text := by
  obtain ⟨before, after, hSource, hSpan⟩ := h
  show slice source token.span.start token.span.stop = .ok token.text
  rw [hSource, hSpan]
  exact slice_append before token.text after

/-! ## Places -/

theorem search_append {front back : List Nat} {offset : Nat} (hFront : ∀ start ∈ front, start < offset)
    (hBack : ∀ start ∈ back, offset ≤ start) :
    search (front ++ back) offset = if back.head? = some offset then .inl front.length else .inr front.length := by
  have hNone : back.takeWhile (· < offset) = [] := by
    cases back with
    | nil => rfl
    | cons first rest =>
      have hLe := hBack first List.mem_cons_self
      rw [List.takeWhile_cons_of_neg (by simpa using hLe)]
  have hTake : (front ++ back).takeWhile (· < offset) = front := by
    rw [List.takeWhile_append_of_pos (by simpa using hFront), hNone, List.append_nil]
  rw [search, hTake, List.getElem?_append_right (Nat.le_refl _), Nat.sub_self, List.head?_eq_getElem?]

theorem lineOf_eq {before after : List Nat} {start offset : Nat} (hBefore : ∀ other ∈ before, other < start)
    (hStart : start ≤ offset) (hAfter : ∀ other ∈ after, offset < other) :
    lineOf (before ++ start :: after) offset = .ok before.length := by
  rcases Nat.eq_or_lt_of_le hStart with rfl | hLt
  · have hBack : ∀ other ∈ start :: after, start ≤ other :=
      List.forall_mem_cons.mpr ⟨Nat.le_refl _, fun other hOther => Nat.le_of_lt (hAfter other hOther)⟩
    rw [lineOf, search_append hBefore hBack, List.head?_cons, if_pos rfl]
  · have hFront : ∀ other ∈ before ++ [start], other < offset :=
      List.forall_mem_append.mpr ⟨fun other hOther => Nat.lt_trans (hBefore other hOther) hLt,
        List.forall_mem_singleton.mpr hLt⟩
    have hNone : after.head? ≠ some offset := fun hHead => Nat.lt_irrefl _ (hAfter _ (List.mem_of_head? hHead))
    rw [lineOf, List.append_cons, search_append hFront fun other hOther => Nat.le_of_lt (hAfter other hOther),
      if_neg hNone]
    exact (congrArg (minus · 1) List.length_append).trans (minus_add before.length 1)

theorem position_eq (lines : LineIndex) (offset : Nat) : position lines offset = .ok (lines.position offset) := by
  obtain ⟨before, start, after, hStarts, hBefore, hStart, hAfter, hPosition⟩ := lines.exists_line offset
  have hLine : lineOf lines.starts.toList offset = .ok before.length := by
    rw [hStarts]
    exact lineOf_eq hBefore hStart hAfter
  have hGet : lines.starts.toList[before.length]? = some start := by
    rw [hStarts, List.getElem?_append_right (Nat.le_refl _), Nat.sub_self]
    rfl
  have hColumn : minus offset start = .ok (offset - start) := if_pos hStart
  rw [position, hPosition, hLine]
  show (element lines.starts.toList before.length >>= _) = _
  rw [element, hGet]
  show (minus offset start >>= _) = _
  rw [hColumn]
  rfl

theorem locate_eq (lines : LineIndex) (span : Span) : locate lines span = .ok (lines.locate span) := by
  rw [locate, position_eq]
  rfl

/-! ## Words -/

theorem forall_ne {c : Char} {front : List Char} (h : c ∉ front) : ∀ d ∈ front, decide (d ≠ c) = true := by
  intro d hd
  rw [decide_eq_true_eq]
  rintro rfl
  exact h hd

theorem find?_append {c : Char} {front : List Char} (h : c ∉ front) (back : List Char) :
    find? c (String.ofList (front ++ c :: back)) = some (String.ofList front).utf8ByteSize := by
  rw [find?, String.toList_ofList, if_pos (List.mem_append_right _ List.mem_cons_self),
    List.takeWhile_append_of_pos (forall_ne h), List.takeWhile_cons_of_neg (by simp), List.append_nil]

theorem isReference_of_opening {text : String} {cs : List Char} (h : text.toList = '$' :: '{' :: cs) :
    WordType.isReference text.toList = decide (cs.dropWhile (· ≠ '}') = ['}']) := by
  rw [h]
  rfl

/-- A text that is one reference has the two characters that open it and one that closes it. -/
theorem shape_of_isReference {text : String} (h : WordType.isReference text.toList = true) :
    text.toList.take 2 = ['$', '{'] ∧ text.toList.getLast? = some '}' := by
  unfold WordType.isReference at h
  split at h
  · rename_i cs hText
    rw [hText]
    refine ⟨rfl, ?_⟩
    have hClosing : cs = cs.takeWhile (· ≠ '}') ++ ['}'] := by
      rw [← of_decide_eq_true h, List.takeWhile_append_dropWhile]
    rw [hClosing, ← List.cons_append, ← List.cons_append, List.getLast?_concat]
  · cases h

theorem isReference_eq (text : String) : isReference text = .ok (WordType.isReference text.toList) := by
  rw [isReference]
  split
  · rename_i hShape
    obtain ⟨hOpening, hLast⟩ := hShape
    obtain ⟨cs, hChars⟩ : ∃ cs, text.toList = '$' :: '{' :: cs := by
      have hSplit := List.take_append_drop 2 text.toList
      rw [hOpening] at hSplit
      exact ⟨_, hSplit.symm⟩
    have hMem : '}' ∈ cs := by
      rw [hChars] at hLast
      cases cs with
      | nil => cases hLast
      | cons c cs => exact List.mem_of_getLast? hLast
    obtain ⟨front, back, rfl, hFront⟩ := List.eq_append_cons_of_mem hMem
    obtain ⟨body, hBody⟩ : ∃ body, body = String.ofList (front ++ '}' :: back) := ⟨_, rfl⟩
    have hText : text = "$\x7b" ++ body ++ "" := by
      rw [← String.toList_inj, hChars, hBody]
      simp
    have hSize : body.utf8ByteSize = (String.ofList front).utf8ByteSize + (String.ofList back).utf8ByteSize + 1 := by
      have hClosing : '}'.utf8Size = 1 := rfl
      rw [hBody, String.ofList_append, String.utf8ByteSize_append, byteSize_cons]
      omega
    have hTotal : text.utf8ByteSize = 2 + body.utf8ByteSize := by
      rw [hText, String.append_empty, String.utf8ByteSize_append]
      rfl
    have hSlice : slice text 2 text.utf8ByteSize = .ok body := by
      rw [hTotal, hText]
      exact slice_append "$\x7b" body ""
    have hMinus : minus text.utf8ByteSize 3 =
        .ok ((String.ofList front).utf8ByteSize + (String.ofList back).utf8ByteSize) := by
      rw [hTotal, hSize, Nat.add_comm 2, Nat.add_assoc _ 1 2, minus_add]
    have hFind : find? '}' body = some (String.ofList front).utf8ByteSize := by
      rw [hBody]
      exact find?_append hFront back
    have hRest : (front ++ '}' :: back).dropWhile (· ≠ '}') = '}' :: back := by
      rw [List.dropWhile_append_of_pos (forall_ne hFront), List.dropWhile_cons_of_neg (by simp)]
    have hEmpty : (String.ofList back).utf8ByteSize = 0 ↔ back = [] := by
      rw [String.utf8ByteSize_eq_zero_iff, ← String.toList_inj, String.toList_ofList]
      rfl
    rw [isReference_of_opening hChars, hRest, hSlice, hMinus]
    show Except.ok (decide (find? '}' body = _)) = _
    rw [hFind, Except.ok.injEq, decide_eq_decide, Option.some.injEq, List.cons.injEq, ← hEmpty, Nat.left_eq_add]
    exact (and_iff_right rfl).symm
  · rename_i hShape
    cases hReference : WordType.isReference text.toList with
    | false => rfl
    | true => exact absurd (shape_of_isReference hReference) hShape

theorem classify_eq (text : String) : classify text = .ok (.ofUnquoted text) := by
  rw [classify, WordType.ofUnquoted, isReference_eq]
  split <;> rfl

section words

variable {source : String} {token : Token} (hToken : token ∈ tokenize source)

include hToken

theorem textOf_token : textOf (.ofSource source) token = .ok token.text := textOf_eq (spells_of_mem_tokenize hToken)

theorem delimited_eq (type : WordType) (width : Nat) {left body right : String}
    (hText : token.text = left ++ body ++ right) (hLeft : left.utf8ByteSize = width)
    (hRight : right.utf8ByteSize = width) :
    delimited (.ofSource source) type width token =
      .ok (.word ((LineIndex.ofSource source).locate token.span) type body) := by
  have hStop : minus token.text.utf8ByteSize width = .ok (left.utf8ByteSize + body.utf8ByteSize) := by
    rw [hText, String.utf8ByteSize_append, String.utf8ByteSize_append, hRight, minus_add]
  have hSlice : slice token.text width (left.utf8ByteSize + body.utf8ByteSize) = .ok body := by
    rw [hText, ← hLeft]
    exact slice_append left body right
  rw [delimited, textOf_token hToken]
  show (minus token.text.utf8ByteSize width >>= _) = _
  rw [hStop]
  show (slice token.text width _ >>= _) = _
  rw [hSlice]
  show (locate _ _ >>= _) = _
  rw [locate_eq]
  rfl

theorem argument_eq (hKind : token.kind.isArgument) :
    argument (.ofSource source) token = .ok (token.word (.ofSource source)) := by
  have hMem : token ∈ Lexer.lexemes 0 source.toList := by
    apply mem_lexemes_of_mem_tokenize hToken
    intro hEnd
    rw [hEnd] at hKind
    cases hKind
  have hKinds : token.kind = .quoted ∨ token.kind = .bracket ∨ token.kind = .unquoted := by
    cases hToken : token.kind <;> simp [hToken, Token.Kind.isArgument] at hKind ⊢
  rcases hKinds with hQuoted | hBracket | hUnquoted
  · obtain ⟨body, hText⟩ := Lexer.text_of_quoted hMem hQuoted
    simp only [argument, Token.word, hQuoted]
    rw [delimited_eq hToken .quoted 1 hText rfl rfl, hText, Token.withoutDelimiters_append (by rfl) (by rfl)]
  · obtain ⟨body, hText⟩ := Lexer.text_of_bracket hMem hBracket
    simp only [argument, Token.word, hBracket]
    rw [delimited_eq hToken .bracket 2 hText rfl rfl, hText, Token.withoutDelimiters_append (by rfl) (by rfl)]
  · simp only [argument, Token.word, hUnquoted]
    rw [textOf_token hToken]
    show (classify token.text >>= _) = _
    rw [classify_eq]
    show (locate _ _ >>= _) = _
    rw [locate_eq]
    rfl

theorem parenthesis_eq (hKind : token.kind = .leftParen ∨ token.kind = .rightParen) :
    parenthesis (.ofSource source) token = .ok (token.word (.ofSource source)) := by
  have hMem : token ∈ Lexer.lexemes 0 source.toList := by
    apply mem_lexemes_of_mem_tokenize hToken
    rcases hKind with hKind | hKind <;> rw [hKind] <;> decide
  have hWord : token.word (.ofSource source) =
      .word ((LineIndex.ofSource source).locate token.span) .unquoted token.text := by
    rcases hKind with hKind | hKind
    · simp only [Token.word, hKind, Lexer.text_of_leftParen hMem hKind]
      rfl
    · simp only [Token.word, hKind, Lexer.text_of_rightParen hMem hKind]
      rfl
  rw [parenthesis, textOf_token hToken, hWord]
  show (locate _ _ >>= _) = _
  rw [locate_eq]
  rfl

end words

end Listfile.Descent
