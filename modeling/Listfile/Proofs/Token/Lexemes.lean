import Listfile.Token.Lexer
/-! # Tokens and the text that they come from

A token is a piece of its text: the text has it at the span of the token. Tokens come in the order of the text, none is
empty, and no two overlap. A quoted or bracket argument has its delimiters at both ends.
-/
namespace Listfile
set_option autoImplicit false

theorem byteSize_cons (c : Char) (cs : List Char) :
    (String.ofList (c :: cs)).utf8ByteSize = c.utf8Size + (String.ofList cs).utf8ByteSize := by
  rw [← List.singleton_append, String.ofList_append, String.utf8ByteSize_append, ← String.singleton_eq_ofList,
    String.utf8ByteSize_singleton]

/-- Whether a source has a text at a span. -/
def Span.Spells (span : Span) (source text : String) : Prop :=
  ∃ before after, source = before ++ text ++ after ∧
    span = ⟨before.utf8ByteSize, before.utf8ByteSize + text.utf8ByteSize⟩

/-- Of two front parts of a text, the shorter one is the front part of the other. -/
theorem exists_append_of_le {a b c d : String} (h : a ++ b = c ++ d) (hLe : a.utf8ByteSize ≤ c.utf8ByteSize) :
    ∃ more, c = a ++ more := by
  have hChars := congrArg String.toList h
  rw [String.toList_append, String.toList_append] at hChars
  rcases List.append_eq_append_iff.mp hChars with ⟨more, hMore, -⟩ | ⟨more, hMore, -⟩
  · refine ⟨String.ofList more, String.toList_inj.mp ?_⟩
    rw [String.toList_append, String.toList_ofList, hMore]
  · have hFront : a = c ++ String.ofList more := String.toList_inj.mp (by simpa using hMore)
    rw [hFront, String.utf8ByteSize_append] at hLe
    have hEmpty : String.ofList more = "" := String.utf8ByteSize_eq_zero_iff.mp (by omega)
    exact ⟨"", by rw [hFront, hEmpty, String.append_empty, String.append_empty]⟩

/-- From the start of one text to the end of a later one, the source has both and what is between them. -/
theorem Span.Spells.join {source first last : String} {a b : Span} (ha : a.Spells source first)
    (hb : b.Spells source last) (hLe : a.stop ≤ b.start) :
    ∃ middle, Span.Spells ⟨a.start, b.stop⟩ source (first ++ middle ++ last) := by
  obtain ⟨before, after, hSource, rfl⟩ := ha
  obtain ⟨before', after', hSource', rfl⟩ := hb
  obtain ⟨middle, rfl⟩ : ∃ middle, before' = before ++ first ++ middle := by
    have hSame : before ++ first ++ after = before' ++ (last ++ after') := by
      rw [← hSource, hSource', String.append_assoc]
    apply exists_append_of_le hSame
    rwa [String.utf8ByteSize_append]
  refine ⟨middle, before, after', ?_, ?_⟩
  · rw [hSource']
    simp only [String.append_assoc]
  · simp only [String.utf8ByteSize_append, Nat.add_assoc]

/-- Whether tokens lie one after the other from an offset on, each of them with at least one byte. -/
def Token.Ascending : Nat → List Token → Prop
  | _, [] => True
  | offset, token :: rest =>
    offset ≤ token.span.start ∧ token.span.start < token.span.stop ∧ Ascending token.span.stop rest

namespace Token.Ascending

theorem mono {offset offset' : Nat} {tokens : List Token} (hLe : offset' ≤ offset) (h : Ascending offset tokens) :
    Ascending offset' tokens := by
  cases tokens with
  | nil => trivial
  | cons token rest =>
    obtain ⟨hStart, hRest⟩ := h
    exact ⟨Nat.le_trans hLe hStart, hRest⟩

theorem filter {offset : Nat} {tokens : List Token} (h : Ascending offset tokens) (keep : Token → Bool) :
    Ascending offset (tokens.filter keep) := by
  induction tokens generalizing offset with
  | nil => trivial
  | cons token rest ih =>
    obtain ⟨hStart, hStop, hRest⟩ := h
    rw [List.filter_cons]
    split
    · exact ⟨hStart, hStop, ih hRest⟩
    · apply (ih hRest).mono
      omega

/-- Of two parts of a token list, the first one ends where the other starts, or before. -/
theorem of_append {offset : Nat} {front back : List Token} (h : Ascending offset (front ++ back)) :
    Ascending offset front ∧ ∃ middle, offset ≤ middle ∧ (∀ token ∈ front, token.span.stop ≤ middle) ∧
      Ascending middle back := by
  induction front generalizing offset with
  | nil => exact ⟨trivial, offset, Nat.le_refl _, List.forall_mem_nil _, h⟩
  | cons token rest ih =>
    obtain ⟨hStart, hStop, hRest⟩ := h
    obtain ⟨hFront, middle, hLe, hBefore, hBack⟩ := ih hRest
    refine ⟨⟨hStart, hStop, hFront⟩, middle, by omega, ?_, hBack⟩
    exact List.forall_mem_cons.mpr ⟨hLe, hBefore⟩

theorem of_mem {offset : Nat} {tokens : List Token} (h : Ascending offset tokens) {token : Token}
    (hToken : token ∈ tokens) : offset ≤ token.span.start ∧ token.span.start < token.span.stop := by
  induction tokens generalizing offset with
  | nil => cases hToken
  | cons first rest ih =>
    obtain ⟨hStart, hStop, hRest⟩ := h
    rcases List.mem_cons.mp hToken with rfl | hToken
    · exact ⟨hStart, hStop⟩
    · obtain ⟨hLe, hLt⟩ := ih hRest hToken
      exact ⟨by omega, hLt⟩

end Token.Ascending

namespace Lexer

/-- Every token was scanned at the head of a rest of the text. -/
theorem exists_scan_of_mem_lexemes {offset : Nat} {cs : List Char} {token : Token} (h : token ∈ lexemes offset cs) :
    ∃ c rest, token.kind = (scan c rest).1 ∧ token.text = String.ofList (c :: rest.take (scan c rest).2) := by
  fun_induction lexemes offset cs with
  | case1 => cases h
  | case2 offset c cs hBlank ih => exact ih h
  | case3 offset c cs hBlank kind length hScan text stop ih =>
    rcases List.mem_cons.mp h with rfl | h
    · exact ⟨c, cs, by rw [hScan], by rw [hScan]⟩
    · exact ih h

theorem ascending_lexemes (offset : Nat) (cs : List Char) : Token.Ascending offset (lexemes offset cs) := by
  fun_induction lexemes offset cs with
  | case1 => trivial
  | case2 offset c cs hBlank ih =>
    apply ih.mono
    omega
  | case3 offset c cs hBlank kind length hScan text stop ih =>
    have hText : 0 < text.utf8ByteSize := by
      have hPos := c.utf8Size_pos
      rw [byteSize_cons]
      omega
    refine ⟨Nat.le_refl _, ?_, ih⟩
    show offset < offset + text.utf8ByteSize
    omega

theorem spells_of_mem_lexemes (offset : Nat) (cs : List Char) :
    ∀ token ∈ lexemes offset cs, ∀ before : String, before.utf8ByteSize = offset →
      token.span.Spells (before ++ String.ofList cs) token.text := by
  fun_induction lexemes offset cs with
  | case1 => exact List.forall_mem_nil _
  | case2 offset c cs hBlank ih =>
    intro token hToken before hBefore
    have hRest := ih token hToken (before ++ String.ofList [c]) (by simp [hBefore])
    rwa [String.append_assoc, ← String.ofList_append] at hRest
  | case3 offset c cs hBlank kind length hScan text stop ih =>
    intro token hToken before hBefore
    have hText : text ++ String.ofList (cs.drop length) = String.ofList (c :: cs) := by
      rw [← String.ofList_append, List.cons_append, List.take_append_drop]
    rw [← hText, ← String.append_assoc]
    rcases List.mem_cons.mp hToken with rfl | hToken
    · exact ⟨before, String.ofList (cs.drop length), rfl, by rw [hBefore]⟩
    · apply ih token hToken
      rw [String.utf8ByteSize_append, hBefore]

/-! ## Delimiters -/

theorem Extent.shift_eq_closed {extent : Extent} {n length : Nat} :
    extent.shift n = .closed length ↔ ∃ inner, extent = .closed inner ∧ length = inner + n := by
  cases extent <;> simp [shift, eq_comm]

theorem eq_of_quotedExtent {cs : List Char} {length : Nat} (h : quotedExtent cs = .closed length) :
    ∃ body rest, cs = body ++ '"' :: rest ∧ length = body.length + 1 := by
  fun_induction quotedExtent cs generalizing length with
  | case1 => cases h
  | case2 => cases h
  | case3 c cs hLine ih =>
    obtain ⟨inner, hInner, rfl⟩ := Extent.shift_eq_closed.mp h
    obtain ⟨body, rest, rfl, rfl⟩ := ih hInner
    exact ⟨'\\' :: c :: body, rest, rfl, rfl⟩
  | case4 cs =>
    cases h
    exact ⟨[], cs, rfl, rfl⟩
  | case5 => cases h
  | case6 c cs _ _ _ ih =>
    obtain ⟨inner, hInner, rfl⟩ := Extent.shift_eq_closed.mp h
    obtain ⟨body, rest, rfl, rfl⟩ := ih hInner
    exact ⟨c :: body, rest, rfl, rfl⟩

theorem eq_of_bracketExtent {cs : List Char} {length : Nat} (h : bracketExtent cs = .closed length) :
    ∃ body rest, cs = body ++ ']' :: ']' :: rest ∧ length = body.length + 2 := by
  fun_induction bracketExtent cs generalizing length with
  | case1 => cases h
  | case2 cs =>
    cases h
    exact ⟨[], cs, rfl, rfl⟩
  | case3 c cs hOther ih =>
    obtain ⟨inner, hInner, rfl⟩ := Extent.shift_eq_closed.mp h
    obtain ⟨body, rest, rfl, rfl⟩ := ih hInner
    exact ⟨']' :: c :: body, rest, rfl, rfl⟩
  | case4 => cases h
  | case5 c cs _ _ ih =>
    obtain ⟨inner, hInner, rfl⟩ := Extent.shift_eq_closed.mp h
    obtain ⟨body, rest, rfl, rfl⟩ := ih hInner
    exact ⟨c :: body, rest, rfl, rfl⟩

theorem scanQuoted_cases (cs : List Char) :
    (∃ n, quotedExtent cs = .closed n ∧ scanQuoted cs = (.quoted, n)) ∨ (scanQuoted cs).1 = .invalid := by
  unfold scanQuoted
  cases quotedExtent cs with
  | closed n => exact .inl ⟨n, rfl, rfl⟩
  | unclosed n => exact .inr rfl

theorem scanBracket_cases (cs : List Char) :
    (∃ n, bracketExtent cs.tail = .closed n ∧ scanBracket cs = (.bracket, n + 1)) ∨
      (scanBracket cs).1 = .unquoted ∨ (scanBracket cs).1 = .invalid := by
  unfold scanBracket
  cases bracketExtent cs.tail with
  | closed n =>
    simp only [Extent.shift]
    split
    · exact .inr (.inl rfl)
    · exact .inl ⟨n, rfl, rfl⟩
  | unclosed n =>
    simp only [Extent.shift]
    split
    · exact .inr (.inl rfl)
    · exact .inr (.inr rfl)

theorem kind_scanUnquoted (c : Char) (cs : List Char) :
    (scanUnquoted c cs).1 = .unquoted ∨ (scanUnquoted c cs).1 = .invalid := by
  unfold scanUnquoted
  split
  · exact .inr rfl
  · exact .inl rfl

theorem kind_scanComment (cs : List Char) :
    (scanComment cs).1 = .lineComment ∨ (scanComment cs).1 = .bracketComment ∨ (scanComment cs).1 = .invalid := by
  simp only [scanComment]
  repeat' split
  all_goals simp

/-- The first character, or the first two, decide which scanner is used. -/
theorem scan_cases (c : Char) (cs : List Char) :
    (c = '(' ∧ scan c cs = (.leftParen, 0)) ∨ (c = ')' ∧ scan c cs = (.rightParen, 0)) ∨
      (c = '"' ∧ scan c cs = scanQuoted cs) ∨ (c = '#' ∧ scan c cs = scanComment cs) ∨
      (∃ body, c = '[' ∧ cs = '[' :: body ∧ scan c cs = scanBracket cs) ∨ scan c cs = scanUnquoted c cs := by
  unfold scan
  split
  · exact .inl ⟨‹_›, rfl⟩
  split
  · exact .inr (.inl ⟨‹_›, rfl⟩)
  split
  · exact .inr (.inr (.inl ⟨‹_›, rfl⟩))
  split
  · exact .inr (.inr (.inr (.inl ⟨‹_›, rfl⟩)))
  split
  · rename_i hOpening
    obtain ⟨body, hBody⟩ := List.head?_eq_some_iff.mp hOpening.2
    exact .inr (.inr (.inr (.inr (.inl ⟨body, hOpening.1, hBody, rfl⟩))))
  · exact .inr (.inr (.inr (.inr (.inr rfl))))

section kinds

variable {c : Char} {cs : List Char}

theorem scan_quoted (h : (scan c cs).1 = .quoted) : c = '"' ∧ quotedExtent cs = .closed (scan c cs).2 := by
  have hUnquoted := kind_scanUnquoted c cs
  have hComment := kind_scanComment cs
  have hBracket := scanBracket_cases cs
  have hQuoted := scanQuoted_cases cs
  rcases scan_cases c cs with hScan | hScan | hScan | hScan | ⟨body, hScan⟩ | hScan <;> grind

theorem scan_bracket (h : (scan c cs).1 = .bracket) :
    ∃ body n, c = '[' ∧ cs = '[' :: body ∧ bracketExtent body = .closed n ∧ (scan c cs).2 = n + 1 := by
  have hUnquoted := kind_scanUnquoted c cs
  have hComment := kind_scanComment cs
  have hBracket := scanBracket_cases cs
  have hQuoted := scanQuoted_cases cs
  rcases scan_cases c cs with hScan | hScan | hScan | hScan | ⟨body, rfl, rfl, hScan⟩ | hScan <;> grind

theorem scan_leftParen (h : (scan c cs).1 = .leftParen) : c = '(' ∧ (scan c cs).2 = 0 := by
  have hUnquoted := kind_scanUnquoted c cs
  have hComment := kind_scanComment cs
  have hBracket := scanBracket_cases cs
  have hQuoted := scanQuoted_cases cs
  rcases scan_cases c cs with hScan | hScan | hScan | hScan | ⟨body, hScan⟩ | hScan <;> grind

theorem scan_rightParen (h : (scan c cs).1 = .rightParen) : c = ')' ∧ (scan c cs).2 = 0 := by
  have hUnquoted := kind_scanUnquoted c cs
  have hComment := kind_scanComment cs
  have hBracket := scanBracket_cases cs
  have hQuoted := scanQuoted_cases cs
  rcases scan_cases c cs with hScan | hScan | hScan | hScan | ⟨body, hScan⟩ | hScan <;> grind

theorem kind_scan_ne (c : Char) (cs : List Char) : (scan c cs).1 ≠ .endOfText := by
  have hUnquoted := kind_scanUnquoted c cs
  have hComment := kind_scanComment cs
  have hBracket := scanBracket_cases cs
  have hQuoted := scanQuoted_cases cs
  rcases scan_cases c cs with hScan | hScan | hScan | hScan | ⟨body, hScan⟩ | hScan <;> grind

end kinds

theorem kind_ne_of_mem_lexemes {offset : Nat} {cs : List Char} {token : Token} (h : token ∈ lexemes offset cs) :
    token.kind ≠ .endOfText := by
  obtain ⟨c, rest, hScan, -⟩ := exists_scan_of_mem_lexemes h
  rw [hScan]
  exact kind_scan_ne c rest

theorem text_of_quoted {offset : Nat} {cs : List Char} {token : Token} (h : token ∈ lexemes offset cs)
    (hKind : token.kind = .quoted) : ∃ body, token.text = "\"" ++ body ++ "\"" := by
  obtain ⟨c, rest, hScan, hText⟩ := exists_scan_of_mem_lexemes h
  obtain ⟨rfl, hExtent⟩ := scan_quoted (hScan.symm.trans hKind)
  obtain ⟨body, after, hRest, hLength⟩ := eq_of_quotedExtent hExtent
  refine ⟨String.ofList body, ?_⟩
  have hChars : '"' :: rest.take (scan '"' rest).2 = ['"'] ++ body ++ ['"'] := by
    rw [hLength, hRest, List.take_length_add_append]
    rfl
  rw [hText, hChars, String.ofList_append, String.ofList_append]

theorem text_of_bracket {offset : Nat} {cs : List Char} {token : Token} (h : token ∈ lexemes offset cs)
    (hKind : token.kind = .bracket) : ∃ body, token.text = "[[" ++ body ++ "]]" := by
  obtain ⟨c, rest, hScan, hText⟩ := exists_scan_of_mem_lexemes h
  obtain ⟨body, n, rfl, rfl, hExtent, hLength⟩ := scan_bracket (hScan.symm.trans hKind)
  obtain ⟨inner, after, rfl, rfl⟩ := eq_of_bracketExtent hExtent
  refine ⟨String.ofList inner, ?_⟩
  have hChars : '[' :: ('[' :: (inner ++ ']' :: ']' :: after)).take (inner.length + 2 + 1) =
      ['[', '['] ++ inner ++ [']', ']'] := by
    rw [List.take_succ_cons, List.take_length_add_append]
    rfl
  rw [hText, hLength, hChars, String.ofList_append, String.ofList_append]

theorem text_of_leftParen {offset : Nat} {cs : List Char} {token : Token} (h : token ∈ lexemes offset cs)
    (hKind : token.kind = .leftParen) : token.text = "(" := by
  obtain ⟨c, rest, hScan, hText⟩ := exists_scan_of_mem_lexemes h
  obtain ⟨rfl, hLength⟩ := scan_leftParen (hScan.symm.trans hKind)
  rw [hText, hLength]
  rfl

theorem text_of_rightParen {offset : Nat} {cs : List Char} {token : Token} (h : token ∈ lexemes offset cs)
    (hKind : token.kind = .rightParen) : token.text = ")" := by
  obtain ⟨c, rest, hScan, hText⟩ := exists_scan_of_mem_lexemes h
  obtain ⟨rfl, hLength⟩ := scan_rightParen (hScan.symm.trans hKind)
  rw [hText, hLength]
  rfl

end Lexer

/-! ## Tokens of a script -/

theorem spells_of_mem_tokenize {source : String} {token : Token} (h : token ∈ tokenize source) :
    token.span.Spells source token.text := by
  rw [tokenize] at h
  rcases List.mem_append.mp h with h | h
  · have hSpells := Lexer.spells_of_mem_lexemes 0 source.toList token (List.mem_filter.mp h).1 "" rfl
    rwa [String.empty_append, String.ofList_toList] at hSpells
  · rw [List.mem_singleton.mp h]
    exact ⟨source, "", by rw [String.append_empty, String.append_empty], rfl⟩

theorem ascending_dropLast (source : String) : Token.Ascending 0 (tokenize source).dropLast := by
  rw [tokenize, List.dropLast_concat]
  exact (Lexer.ascending_lexemes 0 source.toList).filter _

theorem mem_lexemes_of_mem_tokenize {source : String} {token : Token} (h : token ∈ tokenize source)
    (hKind : token.kind ≠ .endOfText) : token ∈ Lexer.lexemes 0 source.toList := by
  rw [tokenize] at h
  rcases List.mem_append.mp h with h | h
  · exact (List.mem_filter.mp h).1
  · rw [List.mem_singleton.mp h] at hKind
    exact absurd rfl hKind

end Listfile
