import Mathlib.Tactic.SplitIfs
import Listfile.Proofs.Token.Lexemes
/-! # Tokens of a text that goes on

Where a text is followed by a line feed, its tokens stay as they are and the rest is read on its own. Two kinds of text
are left out: a text that no token can start with, and text after `[[` outside of brackets that are closed, since that
may be closed further on.
-/
namespace Listfile
set_option autoImplicit false

def Span.shift (bytes : Nat) (span : Span) : Span := ⟨span.start + bytes, span.stop + bytes⟩

def Token.mapSpan (move : Span → Span) (token : Token) : Token := { token with span := move token.span }

/-- Whether a token stays what it is if the text goes on after a line feed. -/
def Token.Settled (token : Token) : Prop :=
  token.kind ≠ .invalid ∧
    (token.kind = .unquoted ∨ token.kind = .lineComment → ¬['[', '['] <:+: token.text.toList)

namespace Lexer

/-! ## Lengths -/

theorem unquotedLength_escape {c : Char} (h : c ≠ '\n') (cs : List Char) :
    unquotedLength ('\\' :: c :: cs) = unquotedLength cs + 2 :=
  if_neg h

theorem unquotedLength_cons {c : Char} (h : c ≠ '\\') (cs : List Char) :
    unquotedLength (c :: cs) = if isPlain c then unquotedLength cs + 1 else 0 := by
  generalize hText : c :: cs = text
  fun_cases unquotedLength text with
  | case1 => cases hText
  | case2 =>
    cases hText
    exact absurd rfl h
  | case3 =>
    cases hText
    exact absurd rfl h
  | case4 _ _ _ hPlain =>
    cases hText
    exact (if_pos hPlain).symm
  | case5 _ _ _ hPlain =>
    cases hText
    exact (if_neg hPlain).symm

theorem quotedExtent_cons {c : Char} (h : c ≠ '\\') (cs : List Char) :
    quotedExtent (c :: cs) = if c = '"' then .closed 1 else (quotedExtent cs).shift 1 := by
  rw [quotedExtent.eq_3 c cs fun _ _ hEscape => absurd hEscape h, if_neg h]

theorem bracketExtent_cons {c : Char} (h : c ≠ ']') (cs : List Char) :
    bracketExtent (c :: cs) = (bracketExtent cs).shift 1 := by
  rw [bracketExtent.eq_3 c cs fun _ _ hClosing => absurd hClosing h, if_neg h]

theorem unquotedLength_le (cs : List Char) : unquotedLength cs ≤ cs.length := by
  fun_induction unquotedLength cs <;> simp only [List.length_cons, List.length_nil] <;> omega

theorem unquotedLength_append (cs rest : List Char) : unquotedLength (cs ++ '\n' :: rest) = unquotedLength cs := by
  fun_induction unquotedLength cs with
  | case1 => rfl
  | case2 => rfl
  | case3 c cs hLine ih => rw [List.cons_append, List.cons_append, unquotedLength_escape hLine, ih]
  | case4 c cs _ hPlain ih =>
    have hNe : c ≠ '\\' := by
      rintro rfl
      cases hPlain
    rw [List.cons_append, unquotedLength_cons hNe, if_pos hPlain, ih]
  | case5 c cs hEscape hPlain =>
    by_cases hNe : c = '\\'
    · -- A backslash at the end of the text escapes nothing, and a line feed cannot be escaped either.
      cases cs with
      | nil =>
        rw [hNe]
        rfl
      | cons d ds => exact absurd rfl (hEscape d ds hNe)
    · rw [List.cons_append, unquotedLength_cons hNe, if_neg hPlain]

theorem quotedExtent_append {cs : List Char} {length : Nat} (h : quotedExtent cs = .closed length) (rest : List Char) :
    quotedExtent (cs ++ rest) = .closed length := by
  fun_induction quotedExtent cs generalizing length with
  | case1 => cases h
  | case2 => cases h
  | case3 c cs hLine ih =>
    obtain ⟨inner, hInner, rfl⟩ := Extent.shift_eq_closed.mp h
    rw [List.cons_append, List.cons_append, quotedExtent, if_neg hLine, ih hInner, Extent.shift]
  | case4 cs =>
    cases h
    rw [List.cons_append, quotedExtent_cons (by decide), if_pos rfl]
  | case5 => cases h
  | case6 c cs _ hQuote hNe ih =>
    obtain ⟨inner, hInner, rfl⟩ := Extent.shift_eq_closed.mp h
    rw [List.cons_append, quotedExtent_cons hNe, if_neg hQuote, ih hInner, Extent.shift]

theorem bracketExtent_append {cs : List Char} {length : Nat} (h : bracketExtent cs = .closed length)
    (rest : List Char) : bracketExtent (cs ++ rest) = .closed length := by
  fun_induction bracketExtent cs generalizing length with
  | case1 => cases h
  | case2 cs =>
    cases h
    rfl
  | case3 c cs hOther ih =>
    obtain ⟨inner, hInner, rfl⟩ := Extent.shift_eq_closed.mp h
    rw [List.cons_append, List.cons_append, bracketExtent, if_neg hOther, ih hInner, Extent.shift]
  | case4 => cases h
  | case5 c cs _ hNe ih =>
    obtain ⟨inner, hInner, rfl⟩ := Extent.shift_eq_closed.mp h
    rw [List.cons_append, bracketExtent_cons hNe, ih hInner, Extent.shift]

/-! ## One token -/

theorem takeWhile_append (cs rest : List Char) :
    (cs ++ '\n' :: rest).takeWhile (· ≠ '\n') = cs.takeWhile (· ≠ '\n') := by
  rw [List.takeWhile_append]
  split
  · rename_i hAll
    rw [List.takeWhile_cons_of_neg (by simp), List.append_nil]
    exact ((List.takeWhile_prefix _).eq_of_length hAll).symm
  · rfl

theorem scanQuoted_append {cs : List Char} (h : (scanQuoted cs).1 ≠ .invalid) (rest : List Char) :
    scanQuoted (cs ++ rest) = scanQuoted cs ∧ (scanQuoted cs).2 ≤ cs.length := by
  rcases scanQuoted_cases cs with ⟨n, hExtent, hScan⟩ | hInvalid
  · obtain ⟨body, after, hCs, hLength⟩ := eq_of_quotedExtent hExtent
    rw [hScan, scanQuoted, quotedExtent_append hExtent, hCs, hLength]
    refine ⟨rfl, ?_⟩
    rw [List.length_append, List.length_cons]
    omega
  · exact absurd hInvalid h

theorem scanUnquoted_append (c : Char) (cs rest : List Char) :
    scanUnquoted c (cs ++ '\n' :: rest) = scanUnquoted c cs ∧ (scanUnquoted c cs).2 ≤ cs.length := by
  have hLe := unquotedLength_le (c :: cs)
  unfold scanUnquoted
  rw [← List.cons_append, unquotedLength_append]
  refine ⟨rfl, ?_⟩
  split
  · exact Nat.zero_le _
  · rename_i n hLength
    rw [hLength, List.length_cons] at hLe
    exact Nat.le_of_succ_le_succ hLe

theorem scanBracket_closed {body : List Char} {n : Nat} (h : bracketExtent body = .closed n) :
    scanBracket ('[' :: body) =
      if n + 1 < unquotedLength ('[' :: body) ∨
          (n + 1 = unquotedLength ('[' :: body) ∧ ('[' :: body)[n + 1]? = some '\\') then
        (.unquoted, unquotedLength ('[' :: body))
      else (.bracket, n + 1) := by
  simp only [scanBracket, List.tail_cons, h, Extent.shift]

theorem scanBracket_append {body : List Char} (h : (scanBracket ('[' :: body)).1 = .bracket) (rest : List Char) :
    scanBracket ('[' :: body ++ '\n' :: rest) = scanBracket ('[' :: body) ∧
      (scanBracket ('[' :: body)).2 ≤ ('[' :: body).length := by
  rcases scanBracket_cases ('[' :: body) with ⟨n, hExtent, hScan⟩ | hUnquoted | hInvalid
  · rw [List.tail_cons] at hExtent
    obtain ⟨inner, after, hBody, hLength⟩ := eq_of_bracketExtent hExtent
    have hLe : n + 1 ≤ ('[' :: body).length := by
      rw [hBody, hLength]
      simp only [List.length_cons, List.length_append]
      omega
    -- The character after the brackets is the same as before, or the line feed.
    have hNext : ('[' :: body ++ '\n' :: rest)[n + 1]? = some '\\' → ('[' :: body)[n + 1]? = some '\\' := by
      rcases Nat.lt_or_eq_of_le hLe with hLt | hEq
      · rw [List.getElem?_append_left hLt]
        exact id
      · rw [List.getElem?_append_right (Nat.le_of_eq hEq.symm), hEq, Nat.sub_self]
        simp
    rw [hScan, List.cons_append, scanBracket_closed (bracketExtent_append hExtent _), ← List.cons_append,
      unquotedLength_append, if_neg]
    · exact ⟨rfl, hLe⟩
    · intro hCondition
      rw [scanBracket_closed hExtent, if_pos] at h
      · cases h
      · exact hCondition.imp_right fun hEnd => ⟨hEnd.1, hNext hEnd.2⟩
  · rw [h] at hUnquoted
    cases hUnquoted
  · rw [h] at hInvalid
    cases hInvalid

/-- An unquoted argument that starts with two brackets takes both. -/
theorem length_scanBracket {body : List Char} (h : (scanBracket ('[' :: body)).1 = .unquoted) :
    ∃ m, (scanBracket ('[' :: body)).2 = m + 1 := by
  have hReach : unquotedLength ('[' :: body) = unquotedLength body + 1 := by
    rw [unquotedLength_cons (by decide), if_pos (by decide)]
  unfold scanBracket at h ⊢
  simp only at h ⊢
  split
  · split
    · exact ⟨_, hReach⟩
    · rename_i hExtent hCondition
      rw [hExtent] at h
      simp only [if_neg hCondition] at h
      cases h
  · split
    · exact ⟨_, rfl⟩
    · rename_i hExtent hCondition
      rw [hExtent] at h
      simp only [if_neg hCondition] at h
      cases h

theorem scanComment_of_ne {cs : List Char} (h : ∀ body, cs ≠ '[' :: '[' :: body) :
    scanComment cs = (.lineComment, (cs.takeWhile (· ≠ '\n')).length) := scanComment.eq_2 cs h

theorem scanComment_closed {body : List Char} {n : Nat} (h : bracketExtent body = .closed n) :
    scanComment ('[' :: '[' :: body) =
      if n < (body.takeWhile (· ≠ '\n')).length then (.lineComment, (body.takeWhile (· ≠ '\n')).length + 2)
      else (.bracketComment, n + 2) := by
  simp [scanComment, h, Extent.shift]

/-- A line comment that starts with two brackets takes both. -/
theorem length_scanComment {body : List Char} (h : (scanComment ('[' :: '[' :: body)).1 = .lineComment) :
    ∃ m, (scanComment ('[' :: '[' :: body)).2 = m + 2 := by
  have hLine : (('[' :: '[' :: body).takeWhile (· ≠ '\n')).length = (body.takeWhile (· ≠ '\n')).length + 2 := by
    simp
  simp only [scanComment, hLine] at h ⊢
  split
  · split
    · exact ⟨_, rfl⟩
    · rename_i hExtent hCondition
      simp only [hExtent, if_neg hCondition] at h
      cases h
  · split
    · exact ⟨_, rfl⟩
    · rename_i hExtent hCondition
      simp only [hExtent, if_neg hCondition] at h
      cases h

theorem scanComment_append {cs : List Char} (h : (scanComment cs).1 ≠ .invalid)
    (hOpen : (scanComment cs).1 = .lineComment → ¬['[', '['] <:+: cs.take (scanComment cs).2) (rest : List Char) :
    scanComment (cs ++ '\n' :: rest) = scanComment cs ∧ (scanComment cs).2 ≤ cs.length := by
  by_cases hBody : ∃ body, cs = '[' :: '[' :: body
  · obtain ⟨body, rfl⟩ := hBody
    have hNotLine : (scanComment ('[' :: '[' :: body)).1 ≠ .lineComment := by
      intro hLine
      obtain ⟨m, hLength⟩ := length_scanComment hLine
      apply hOpen hLine
      rw [hLength]
      exact ⟨[], body.take m, rfl⟩
    cases hExtent : bracketExtent body with
    | closed n =>
      obtain ⟨inner, after, hInner, hLength⟩ := eq_of_bracketExtent hExtent
      have hLe : n ≤ body.length := by
        rw [hInner, hLength]
        simp only [List.length_append, List.length_cons]
        omega
      rw [scanComment_closed hExtent] at hNotLine ⊢
      rw [List.cons_append, List.cons_append, scanComment_closed (bracketExtent_append hExtent _), takeWhile_append]
      refine ⟨rfl, ?_⟩
      split
      · rename_i hLonger
        rw [if_pos hLonger] at hNotLine
        exact absurd rfl hNotLine
      · simp only [List.length_cons]
        omega
    | unclosed n =>
      rcases kind_scanComment ('[' :: '[' :: body) with hLine | hBracket | hInvalid
      · exact absurd hLine hNotLine
      · simp only [scanComment, hExtent, Extent.shift] at hBracket
        split at hBracket <;> cases hBracket
      · exact absurd hInvalid h
  · have hNe : ∀ body, cs ≠ '[' :: '[' :: body := fun body hCs => hBody ⟨body, hCs⟩
    have hNe' : ∀ body, cs ++ '\n' :: rest ≠ '[' :: '[' :: body := by
      intro body hCs
      rcases cs with _ | ⟨c, _ | ⟨d, ds⟩⟩
      · cases hCs
      · cases hCs
      · cases hCs
        exact hNe ds rfl
    rw [scanComment_of_ne hNe, scanComment_of_ne hNe', takeWhile_append]
    exact ⟨rfl, (List.takeWhile_prefix _).length_le⟩

/-- What is scanned at the head of a text stays the same if the text goes on after a line feed. -/
theorem scan_append {c : Char} {cs : List Char} (h : (scan c cs).1 ≠ .invalid)
    (hOpen : (scan c cs).1 = .unquoted ∨ (scan c cs).1 = .lineComment →
      ¬['[', '['] <:+: c :: cs.take (scan c cs).2) (rest : List Char) :
    scan c (cs ++ '\n' :: rest) = scan c cs ∧ (scan c cs).2 ≤ cs.length := by
  have hHead : (cs ++ '\n' :: rest).head? = some '[' ↔ cs.head? = some '[' := by
    cases cs <;> simp
  unfold scan at h hOpen ⊢
  simp only [hHead]
  split_ifs at h hOpen ⊢ with hLeft hRight hQuote hHash hBracket
  · exact ⟨rfl, Nat.zero_le _⟩
  · exact ⟨rfl, Nat.zero_le _⟩
  · exact scanQuoted_append h _
  · apply scanComment_append h
    intro hLine hInfix
    exact hOpen (.inr hLine) (hInfix.trans (List.infix_cons (List.infix_refl _)))
  · obtain ⟨rfl, hBody⟩ := hBracket
    obtain ⟨body, rfl⟩ := List.head?_eq_some_iff.mp hBody
    apply scanBracket_append
    rcases scanBracket_cases ('[' :: body) with ⟨n, -, hScan⟩ | hUnquoted | hInvalid
    · rw [hScan]
    · obtain ⟨m, hLength⟩ := length_scanBracket hUnquoted
      apply absurd _ (hOpen (.inl hUnquoted))
      rw [hLength]
      exact ⟨[], body.take m, rfl⟩
    · exact absurd hInvalid h
  · exact scanUnquoted_append c cs rest

/-! ## All tokens -/

theorem lexemes_append {offset : Nat} {cs : List Char} (h : ∀ token ∈ lexemes offset cs, token.Settled)
    (rest : List Char) :
    lexemes offset (cs ++ '\n' :: rest) =
      lexemes offset cs ++ lexemes (offset + (String.ofList cs).utf8ByteSize + 1) rest := by
  fun_induction lexemes offset cs with
  | case1 offset =>
    rw [List.nil_append, lexemes, if_pos (by decide)]
    rfl
  | case2 offset c cs hBlank ih =>
    rw [List.cons_append, lexemes, if_pos hBlank, ih h, byteSize_cons, Nat.add_assoc offset]
  | case3 offset c cs hBlank kind length hScan text stop ih =>
    obtain ⟨hFirst, hRest⟩ := List.forall_mem_cons.mp h
    have hKind : (scan c cs).1 ≠ .invalid := by
      rw [hScan]
      exact hFirst.1
    have hOpen : (scan c cs).1 = .unquoted ∨ (scan c cs).1 = .lineComment →
        ¬['[', '['] <:+: c :: cs.take (scan c cs).2 := by
      rw [hScan]
      simpa [text] using hFirst.2
    obtain ⟨hSame, hLe⟩ := scan_append hKind hOpen rest
    rw [hScan] at hSame hLe
    have hText : text.utf8ByteSize + (String.ofList (cs.drop length)).utf8ByteSize =
        (String.ofList (c :: cs)).utf8ByteSize := by
      rw [← String.utf8ByteSize_append, ← String.ofList_append, List.cons_append, List.take_append_drop]
    rw [List.cons_append, lexemes, if_neg hBlank]
    simp only [hSame]
    rw [List.take_append_of_le_length hLe, List.drop_append_of_le_length hLe, ih hRest, ← hText, ← Nat.add_assoc offset]
    rfl

/-- Where a text starts makes no difference to its tokens, but for their spans. -/
theorem lexemes_add (offset bytes : Nat) (cs : List Char) :
    lexemes (offset + bytes) cs = (lexemes offset cs).map (Token.mapSpan (Span.shift bytes)) := by
  fun_induction lexemes offset cs with
  | case1 => rw [lexemes, List.map_nil]
  | case2 offset c cs hBlank ih => rw [lexemes, if_pos hBlank, Nat.add_right_comm, ih]
  | case3 offset c cs hBlank kind length hScan text stop ih =>
    rw [lexemes, if_neg hBlank]
    simp only [hScan]
    rw [Nat.add_right_comm, List.map_cons, ← ih]
    rfl

end Lexer
end Listfile
