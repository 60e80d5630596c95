import Listfile.Proofs.Token.Concatenation
/-! # Tokens of a piece of a text

A piece of a text that starts with a token and ends with a closing parenthesis has the tokens that the text has there.
What is before the piece makes no difference, since tokens are read from where one starts. What is after it makes none
because a closing parenthesis ends what is before it, but for escapes and for text after `[[`.
-/
namespace Listfile
set_option autoImplicit false

namespace Lexer

/-! ## Lengths -/

theorem unquotedLength_cut {cs ds : List Char} (h : unquotedLength (cs ++ ')' :: ds) ≤ cs.length) (es : List Char) :
    unquotedLength (cs ++ ')' :: es) = unquotedLength (cs ++ ')' :: ds) := by
  have hParen (ds : List Char) : unquotedLength (')' :: ds) = 0 := by
    rw [unquotedLength_cons (by decide), if_neg (by decide)]
  fun_induction unquotedLength cs with
  | case1 => rw [List.nil_append, List.nil_append, hParen, hParen]
  | case2 => rfl
  | case3 c cs hLine ih =>
    simp only [List.cons_append, unquotedLength_escape hLine, List.length_cons] at h ⊢
    rw [ih (by omega)]
  | case4 c cs _ hPlain ih =>
    have hNe : c ≠ '\\' := by
      rintro rfl
      cases hPlain
    simp only [List.cons_append, unquotedLength_cons hNe, if_pos hPlain, List.length_cons] at h ⊢
    rw [ih (by omega)]
  | case5 c cs hEscape hPlain =>
    by_cases hNe : c = '\\'
    · cases cs with
      | nil =>
        -- The backslash would take the parenthesis along.
        rw [hNe, List.singleton_append, unquotedLength_escape (by decide), List.length_singleton] at h
        omega
      | cons d ds => exact absurd rfl (hEscape d ds hNe)
    · rw [List.cons_append, List.cons_append, unquotedLength_cons hNe, unquotedLength_cons hNe, if_neg hPlain,
        if_neg hPlain]

theorem quotedExtent_cut {cs ds : List Char} {length : Nat} (h : quotedExtent (cs ++ ds) = .closed length)
    (hLe : length ≤ cs.length) : quotedExtent cs = .closed length := by
  fun_induction quotedExtent cs generalizing length with
  | case1 =>
    obtain ⟨body, rest, -, rfl⟩ := eq_of_quotedExtent h
    cases hLe
  | case2 => cases h
  | case3 c cs hLine ih =>
    rw [List.cons_append, List.cons_append, quotedExtent, if_neg hLine] at h
    obtain ⟨inner, hInner, rfl⟩ := Extent.shift_eq_closed.mp h
    rw [ih hInner (by simpa using hLe), Extent.shift]
  | case4 cs =>
    rw [List.cons_append, quotedExtent_cons (by decide), if_pos rfl] at h
    exact h
  | case5 cs hEscape =>
    -- A closing quote after a last backslash is two characters away at least.
    obtain ⟨body, rest, hText, rfl⟩ := eq_of_quotedExtent h
    rcases cs with _ | ⟨d, cs⟩
    · rcases body with _ | ⟨b, body⟩
      · cases hText
      · simp at hLe
    · exact absurd rfl (hEscape d cs rfl)
  | case6 c cs _ hQuote hNe ih =>
    rw [List.cons_append, quotedExtent_cons hNe, if_neg hQuote] at h
    obtain ⟨inner, hInner, rfl⟩ := Extent.shift_eq_closed.mp h
    rw [ih hInner (by simpa using hLe), Extent.shift]

theorem bracketExtent_cut {cs ds : List Char} {length : Nat} (h : bracketExtent (cs ++ ds) = .closed length)
    (hLe : length ≤ cs.length) : bracketExtent cs = .closed length := by
  fun_induction bracketExtent cs generalizing length with
  | case1 =>
    obtain ⟨body, rest, -, rfl⟩ := eq_of_bracketExtent h
    cases hLe
  | case2 cs => exact h
  | case3 c cs hOther ih =>
    rw [List.cons_append, List.cons_append, bracketExtent, if_neg hOther] at h
    obtain ⟨inner, hInner, rfl⟩ := Extent.shift_eq_closed.mp h
    rw [ih hInner (by simpa using hLe), Extent.shift]
  | case4 cs hPair =>
    obtain ⟨body, rest, hText, rfl⟩ := eq_of_bracketExtent h
    rcases cs with _ | ⟨d, cs⟩
    · simp at hLe
    · exact absurd rfl (hPair d cs rfl)
  | case5 c cs _ hNe ih =>
    rw [List.cons_append, bracketExtent_cons hNe] at h
    obtain ⟨inner, hInner, rfl⟩ := Extent.shift_eq_closed.mp h
    rw [ih hInner (by simpa using hLe), Extent.shift]

theorem takeWhile_cut {cs ds : List Char} (h : ((cs ++ ')' :: ds).takeWhile (· ≠ '\n')).length ≤ cs.length)
    (es : List Char) : (cs ++ ')' :: es).takeWhile (· ≠ '\n') = (cs ++ ')' :: ds).takeWhile (· ≠ '\n') := by
  rw [List.takeWhile_append] at h
  rw [List.takeWhile_append, List.takeWhile_append]
  split
  · rename_i hAll
    rw [if_pos hAll, List.takeWhile_cons_of_pos (by simp), List.length_append, List.length_cons] at h
    omega
  · rfl

/-! ## One token -/

section scan

variable {cs ds : List Char}

theorem scanQuoted_cut (h : (scanQuoted (cs ++ ds)).1 ≠ .invalid) (hLe : (scanQuoted (cs ++ ds)).2 ≤ cs.length)
    (es : List Char) : scanQuoted (cs ++ es) = scanQuoted (cs ++ ds) := by
  rcases scanQuoted_cases (cs ++ ds) with ⟨n, hExtent, hScan⟩ | hInvalid
  · rw [hScan] at hLe
    rw [hScan, scanQuoted, quotedExtent_append (quotedExtent_cut hExtent hLe)]
  · exact absurd hInvalid h

theorem scanUnquoted_cut {c : Char} (hLe : (scanUnquoted c (cs ++ ')' :: ds)).2 ≤ cs.length) (es : List Char) :
    scanUnquoted c (cs ++ ')' :: es) = scanUnquoted c (cs ++ ')' :: ds) := by
  have hSame : unquotedLength (c :: cs ++ ')' :: es) = unquotedLength (c :: cs ++ ')' :: ds) := by
    apply unquotedLength_cut
    unfold scanUnquoted at hLe
    rw [List.cons_append, List.length_cons]
    split at hLe
    · rename_i hNone
      rw [hNone]
      exact Nat.zero_le _
    · rename_i n hLength
      rw [hLength]
      exact Nat.succ_le_succ hLe
  unfold scanUnquoted
  rw [← List.cons_append, ← List.cons_append, hSame]

theorem scanBracket_cut (h : (scanBracket ('[' :: cs ++ ')' :: ds)).1 = .bracket)
    (hLe : (scanBracket ('[' :: cs ++ ')' :: ds)).2 ≤ ('[' :: cs).length) (es : List Char) :
    scanBracket ('[' :: cs ++ ')' :: es) = scanBracket ('[' :: cs ++ ')' :: ds) := by
  rcases scanBracket_cases ('[' :: cs ++ ')' :: ds) with ⟨n, hExtent, hScan⟩ | hUnquoted | hInvalid
  · rw [hScan] at hLe
    rw [List.cons_append, List.tail_cons] at hExtent
    have hExtent' : bracketExtent (cs ++ ')' :: es) = .closed n :=
      bracketExtent_append (bracketExtent_cut hExtent (by simpa using hLe)) _
    rw [List.cons_append, scanBracket_closed hExtent, ← List.cons_append] at h
    split at h
    · cases h
    rename_i hCondition
    have hReach : unquotedLength ('[' :: cs ++ ')' :: es) = unquotedLength ('[' :: cs ++ ')' :: ds) := by
      apply unquotedLength_cut
      simp only at hLe
      omega
    have hNext : ('[' :: cs ++ ')' :: es)[n + 1]? = ('[' :: cs ++ ')' :: ds)[n + 1]? := by
      rcases Nat.lt_or_eq_of_le hLe with hLt | hEq
      · rw [List.getElem?_append_left hLt, List.getElem?_append_left hLt]
      · rw [List.getElem?_append_right (Nat.le_of_eq hEq.symm), List.getElem?_append_right (Nat.le_of_eq hEq.symm),
          hEq, Nat.sub_self]
        rfl
    rw [List.cons_append, List.cons_append, scanBracket_closed hExtent, scanBracket_closed hExtent', ← List.cons_append,
      ← List.cons_append, hReach, hNext]
  · rw [h] at hUnquoted
    cases hUnquoted
  · rw [h] at hInvalid
    cases hInvalid

theorem scanComment_cut (h : (scanComment (cs ++ ')' :: ds)).1 ≠ .invalid)
    (hOpen : (scanComment (cs ++ ')' :: ds)).1 = .lineComment →
      ¬['[', '['] <:+: (cs ++ ')' :: ds).take (scanComment (cs ++ ')' :: ds)).2)
    (hLe : (scanComment (cs ++ ')' :: ds)).2 ≤ cs.length) (es : List Char) :
    scanComment (cs ++ ')' :: es) = scanComment (cs ++ ')' :: ds) := by
  by_cases hBody : ∃ body, cs = '[' :: '[' :: body
  · obtain ⟨body, rfl⟩ := hBody
    simp only [List.cons_append] at h hOpen hLe ⊢
    have hNotLine : (scanComment ('[' :: '[' :: (body ++ ')' :: ds))).1 ≠ .lineComment := by
      intro hLine
      obtain ⟨m, hLength⟩ := length_scanComment hLine
      apply hOpen hLine
      rw [hLength]
      exact ⟨[], (body ++ ')' :: ds).take m, rfl⟩
    cases hExtent : bracketExtent (body ++ ')' :: ds) with
    | closed n =>
      rw [scanComment_closed hExtent] at hNotLine hLe ⊢
      split at hNotLine
      · exact absurd rfl hNotLine
      rename_i hLonger
      rw [if_neg hLonger] at hLe ⊢
      have hExtent' : bracketExtent (body ++ ')' :: es) = .closed n :=
        bracketExtent_append (bracketExtent_cut hExtent (by simpa using hLe)) _
      have hLine : (body ++ ')' :: es).takeWhile (· ≠ '\n') = (body ++ ')' :: ds).takeWhile (· ≠ '\n') := by
        apply takeWhile_cut
        simp only [List.length_cons] at hLe
        omega
      rw [scanComment_closed hExtent', hLine, if_neg hLonger]
    | unclosed n =>
      rcases kind_scanComment ('[' :: '[' :: (body ++ ')' :: ds)) with hLine | hBracket | hInvalid
      · exact absurd hLine hNotLine
      · simp only [scanComment, hExtent, Extent.shift] at hBracket
        split at hBracket <;> cases hBracket
      · exact absurd hInvalid h
  · have hNe (rest : List Char) : ∀ body, cs ++ ')' :: rest ≠ '[' :: '[' :: body := by
      intro body hCs
      rcases cs with _ | ⟨c, _ | ⟨d, more⟩⟩
      · cases hCs
      · cases hCs
      · cases hCs
        exact hBody ⟨more, rfl⟩
    rw [scanComment_of_ne (hNe ds)] at hLe ⊢
    rw [scanComment_of_ne (hNe es), takeWhile_cut hLe]

/-- What is scanned before a closing parenthesis does not depend on what comes after that. -/
theorem scan_cut {c : Char} (h : (scan c (cs ++ ')' :: ds)).1 ≠ .invalid)
    (hOpen : (scan c (cs ++ ')' :: ds)).1 = .unquoted ∨ (scan c (cs ++ ')' :: ds)).1 = .lineComment →
      ¬['[', '['] <:+: c :: (cs ++ ')' :: ds).take (scan c (cs ++ ')' :: ds)).2)
    (hLe : (scan c (cs ++ ')' :: ds)).2 ≤ cs.length) (es : List Char) :
    scan c (cs ++ ')' :: es) = scan c (cs ++ ')' :: ds) := by
  have hHead : (cs ++ ')' :: es).head? = (cs ++ ')' :: ds).head? := by
    cases cs <;> rfl
  unfold scan at h hOpen hLe ⊢
  simp only [hHead]
  split_ifs at h hOpen hLe ⊢ with hLeft hRight hQuote hHash hBracket
  · rfl
  · rfl
  · exact scanQuoted_cut h hLe _
  · apply scanComment_cut h _ hLe
    intro hLine hInfix
    exact hOpen (.inr hLine) (hInfix.trans (List.infix_cons (List.infix_refl _)))
  · obtain ⟨rfl, hBody⟩ := hBracket
    rcases cs with _ | ⟨d, body⟩
    · cases hBody
    obtain rfl : d = '[' := Option.some.inj hBody
    refine scanBracket_cut ?_ hLe es
    rcases scanBracket_cases ('[' :: body ++ ')' :: ds) with ⟨n, -, hScan⟩ | hUnquoted | hInvalid
    · rw [hScan]
    · apply absurd _ (hOpen (.inl hUnquoted))
      rw [List.cons_append] at hUnquoted ⊢
      obtain ⟨m, hLength⟩ := length_scanBracket hUnquoted
      rw [hLength]
      exact ⟨[], (body ++ ')' :: ds).take m, rfl⟩
    · exact absurd hInvalid h
  · exact scanUnquoted_cut hLe es

end scan

/-! ## All tokens -/

theorem byteSize_append (cs ds : List Char) : (String.ofList (cs ++ ds)).utf8ByteSize =
    (String.ofList cs).utf8ByteSize + (String.ofList ds).utf8ByteSize := by
  rw [String.ofList_append, String.utf8ByteSize_append]

theorem length_le_of_take {cs ds : List Char} {d : Char} {length : Nat}
    (h : (String.ofList ((cs ++ d :: ds).take length)).utf8ByteSize ≤ (String.ofList cs).utf8ByteSize) :
    length ≤ cs.length := by
  rcases Nat.le_total length cs.length with hLe | hLe
  · exact hLe
  · obtain ⟨more, rfl⟩ := Nat.exists_eq_add_of_le hLe
    cases more with
    | zero => exact Nat.le_refl _
    | succ more =>
      have hPos := d.utf8Size_pos
      rw [List.take_length_add_append, List.take_succ_cons, byteSize_append, byteSize_cons] at h
      omega

/-- The token at the head of a text. -/
def lexeme (offset : Nat) (c : Char) (cs : List Char) : Token :=
  let text := String.ofList (c :: cs.take (scan c cs).2)
  ⟨(scan c cs).1, ⟨offset, offset + text.utf8ByteSize⟩, text⟩

section lexeme

variable {offset : Nat} {c : Char} {cs rest : List Char}

theorem lexemes_cons (hBlank : ¬isBlank c) : lexemes offset (c :: cs) =
    lexeme offset c cs :: lexemes (lexeme offset c cs).span.stop (cs.drop (scan c cs).2) := by
  rw [lexemes, if_neg hBlank]
  rfl

theorem lexemes_cons_append (hBlank : ¬isBlank c) (hLe : (scan c (cs ++ rest)).2 ≤ cs.length) :
    lexemes offset (c :: cs ++ rest) = lexeme offset c (cs ++ rest) ::
      lexemes (lexeme offset c (cs ++ rest)).span.stop (cs.drop (scan c (cs ++ rest)).2 ++ rest) := by
  rw [List.cons_append, lexemes_cons hBlank, List.drop_append_of_le_length hLe]

theorem stop_lexeme (hLe : (scan c (cs ++ rest)).2 ≤ cs.length) : (lexeme offset c (cs ++ rest)).span.stop +
    (String.ofList (cs.drop (scan c (cs ++ rest)).2)).utf8ByteSize = offset + (String.ofList (c :: cs)).utf8ByteSize := by
  simp only [lexeme]
  rw [List.take_append_of_le_length hLe, Nat.add_assoc, ← byteSize_append, List.cons_append, List.take_append_drop]

theorem length_drop_lt (c : Char) (cs : List Char) (length : Nat) : (cs.drop length).length < (c :: cs).length := by
  rw [List.length_cons, List.length_drop]
  omega

/-- Where a token starts further on, the token before it ends there, or before. -/
theorem length_le_of_mem (hBlank : ¬isBlank c) (hRest : rest ≠ []) {token : Token}
    (hToken : token ∈ lexemes offset (c :: cs ++ rest))
    (hStart : token.span.start = offset + (String.ofList (c :: cs)).utf8ByteSize) :
    (scan c (cs ++ rest)).2 ≤ cs.length ∧
      token ∈ lexemes (lexeme offset c (cs ++ rest)).span.stop (cs.drop (scan c (cs ++ rest)).2 ++ rest) := by
  have hAscending := ascending_lexemes offset (c :: cs ++ rest)
  have hPos := c.utf8Size_pos
  rw [List.cons_append, lexemes_cons hBlank] at hToken hAscending
  obtain ⟨-, -, hOthers⟩ := hAscending
  rcases List.mem_cons.mp hToken with rfl | hToken
  · change offset = _ at hStart
    rw [byteSize_cons] at hStart
    omega
  have hSize : (String.ofList ((cs ++ rest).take (scan c (cs ++ rest)).2)).utf8ByteSize ≤
      (String.ofList cs).utf8ByteSize := by
    have hLe : offset + _ ≤ token.span.start := (hOthers.of_mem hToken).1
    rw [hStart, byteSize_cons, byteSize_cons] at hLe
    omega
  obtain ⟨d, ds, rfl⟩ := List.exists_cons_of_ne_nil hRest
  have hLength := length_le_of_take hSize
  rw [List.drop_append_of_le_length hLength] at hToken
  exact ⟨hLength, hToken⟩

end lexeme

/-- From where a token starts, the tokens of a text are those of the rest. -/
theorem lexemes_from {offset : Nat} {bs rest : List Char} (hRest : rest ≠ []) {token : Token}
    (hToken : token ∈ lexemes offset (bs ++ rest))
    (hStart : token.span.start = offset + (String.ofList bs).utf8ByteSize) :
    ∃ front, lexemes offset (bs ++ rest) = front ++ lexemes (offset + (String.ofList bs).utf8ByteSize) rest ∧
      ∀ token ∈ front, token.span.stop ≤ offset + (String.ofList bs).utf8ByteSize := by
  -- Each step takes a blank or a whole token off the text before the start.
  induction hLength : bs.length using Nat.strongRecOn generalizing bs offset with
  | _ length ih =>
    rcases bs with _ | ⟨c, bs⟩
    · exact ⟨[], rfl, List.forall_mem_nil _⟩
    by_cases hBlank : isBlank c
    · rw [byteSize_cons, ← Nat.add_assoc] at hStart ⊢
      rw [List.cons_append, lexemes, if_pos hBlank] at hToken ⊢
      exact ih bs.length (by simp [← hLength]) hToken hStart rfl
    · obtain ⟨hLe, hToken⟩ := length_le_of_mem hBlank hRest hToken hStart
      rw [← stop_lexeme hLe] at hStart ⊢
      obtain ⟨front, hFront, hStop⟩ := ih _ (hLength ▸ length_drop_lt c bs _) hToken hStart rfl
      rw [lexemes_cons_append hBlank hLe, hFront]
      exact ⟨_ :: front, rfl, List.forall_mem_cons.mpr ⟨Nat.le_add_right _ _, hStop⟩⟩

/-- Up to a closing parenthesis that is a token, the tokens of a text are those of the text that ends there. -/
theorem lexemes_cut {offset : Nat} {cs ds : List Char}
    (h : ∀ token ∈ lexemes offset (cs ++ ')' :: ds), token.Settled) {token : Token}
    (hToken : token ∈ lexemes offset (cs ++ ')' :: ds))
    (hStart : token.span.start = offset + (String.ofList cs).utf8ByteSize) :
    lexemes offset (cs ++ ')' :: ds) =
      lexemes offset (cs ++ [')']) ++ lexemes (offset + (String.ofList cs).utf8ByteSize + 1) ds := by
  induction hLength : cs.length using Nat.strongRecOn generalizing cs offset with
  | _ length ih =>
    rcases cs with _ | ⟨c, cs⟩
    · have hParen (rest : List Char) : scan ')' rest = (.rightParen, 0) := by
        rw [scan, if_neg (by decide), if_pos rfl]
      rw [List.nil_append, List.nil_append, lexemes_cons (by decide), lexemes_cons (by decide)]
      simp only [lexeme, hParen, List.take_zero, List.drop_zero]
      rw [lexemes.eq_1]
      rfl
    by_cases hBlank : isBlank c
    · rw [byteSize_cons, ← Nat.add_assoc] at hStart ⊢
      rw [List.cons_append, lexemes, if_pos hBlank] at h hToken
      rw [List.cons_append, List.cons_append, lexemes, if_pos hBlank, lexemes, if_pos hBlank]
      exact ih cs.length (by simp [← hLength]) h hToken hStart rfl
    -- No token reaches past the start of the parenthesis, so each is scanned alike without what follows that.
    · obtain ⟨hLe, hToken⟩ := length_le_of_mem hBlank (List.cons_ne_nil _ _) hToken hStart
      rw [lexemes_cons_append hBlank hLe, List.forall_mem_cons] at h
      obtain ⟨hFirst, hOthers⟩ := h
      have hSame := scan_cut hFirst.1 (by simpa [lexeme] using hFirst.2) hLe []
      have hHead : lexeme offset c (cs ++ [')']) = lexeme offset c (cs ++ ')' :: ds) := by
        simp only [lexeme, hSame, List.take_append_of_le_length hLe]
      rw [← stop_lexeme hLe] at hStart ⊢
      have hRest := ih _ (hLength ▸ length_drop_lt c cs _) hOthers hToken hStart rfl
      rw [lexemes_cons_append hBlank hLe, lexemes_cons_append hBlank (hSame ▸ hLe), hSame, hHead, hRest,
        List.cons_append]

theorem lexemes_slice {bs cs ds : List Char} (h : ∀ token ∈ lexemes 0 (bs ++ (cs ++ ')' :: ds)), token.Settled)
    {first last : Token} (hFirst : first ∈ lexemes 0 (bs ++ (cs ++ ')' :: ds)))
    (hStart : first.span.start = (String.ofList bs).utf8ByteSize)
    (hLast : last ∈ lexemes 0 (bs ++ (cs ++ ')' :: ds)))
    (hStop : last.span.start = (String.ofList bs).utf8ByteSize + (String.ofList cs).utf8ByteSize) :
    ∃ front back, lexemes 0 (bs ++ (cs ++ ')' :: ds)) =
        front ++ (lexemes (String.ofList bs).utf8ByteSize (cs ++ [')']) ++ back) ∧
      (∀ token ∈ front, token.span.stop ≤ (String.ofList bs).utf8ByteSize) ∧
      ∀ token ∈ back, (String.ofList bs).utf8ByteSize + (String.ofList cs).utf8ByteSize + 1 ≤ token.span.start := by
  have hAscending := ascending_lexemes 0 (bs ++ (cs ++ ')' :: ds))
  have hFrom := lexemes_from (by simp) hFirst (by rw [hStart, Nat.zero_add])
  rw [Nat.zero_add] at hFrom
  obtain ⟨front, hLexemes, hFront⟩ := hFrom
  rw [hLexemes] at h hLast hAscending ⊢
  have hRest : last ∈ lexemes (String.ofList bs).utf8ByteSize (cs ++ ')' :: ds) := by
    rcases List.mem_append.mp hLast with hBefore | hRest
    · have hLe := hFront last hBefore
      have hLt := hAscending.of_mem hLast
      omega
    · exact hRest
  have hCut := lexemes_cut (List.forall_mem_append.mp h).2 hRest hStop
  exact ⟨front, _, by rw [hCut], hFront, fun token hToken => ((ascending_lexemes _ ds).of_mem hToken).1⟩

end Lexer
end Listfile
