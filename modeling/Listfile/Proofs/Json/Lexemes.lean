import Mathlib.Data.List.TakeWhile
import Listfile.Proofs.Json.Doubles
/-! # The text of strings and numbers

The grammar of strings and numbers. It is wider than what can be read: surrogates need not be paired, and a number may
be too large for a double. What is skipped is just what the grammar allows, and what is read is what would be skipped.
-/
namespace Listfile.Json
set_option autoImplicit false

/-! ## Strings -/

/-- The rest of a string after its opening quote. Surrogates need not be paired. -/
inductive StringBody : List Char → Prop
  | closing : StringBody ['"']
  | plain {c : Char} {text : List Char} (hQuote : c ≠ '"') (hBackslash : c ≠ '\\') (hControl : ¬c < ' ')
    (h : StringBody text) : StringBody (c :: text)
  | escaped {c : Char} {text : List Char} (hEscape : (simpleEscape? c).isSome) (h : StringBody text) :
    StringBody ('\\' :: c :: text)
  | code {a b c d : Char} {text : List Char} (hDigits : ∀ digit ∈ [a, b, c, d], (hexValue? digit).isSome)
    (h : StringBody text) : StringBody ('\\' :: 'u' :: a :: b :: c :: d :: text)

section strings

variable {text rest : List Char}

theorem skipString_backslash {escaped : List Char} (h : skipEscape escaped = .ok text) :
    skipString ('\\' :: escaped) = skipString text := by
  rw [skipString, if_neg (by decide), if_pos rfl]
  split
  · rename_i hError
    rw [h] at hError
    cases hError
  · rename_i hOk
    rw [h] at hOk
    cases hOk
    rfl

theorem skipEscape_simple {c : Char} (h : (simpleEscape? c).isSome) : skipEscape (c :: text) = .ok text := by
  unfold skipEscape
  split
  · rename_i hCons
    cases hCons
  · rename_i hCons
    cases hCons
    cases h
  · rename_i hCons
    cases hCons
    obtain ⟨escaped, hEscaped⟩ := Option.isSome_iff_exists.mp h
    rw [hEscaped]

theorem readHex_digits {a b c d : Char} (h : ∀ digit ∈ [a, b, c, d], (hexValue? digit).isSome) :
    ∃ code, readHex (a :: b :: c :: d :: text) = .ok (code, text) := by
  have hDigit : ∀ digit ∈ [a, b, c, d], ∃ value, hexValue? digit = some value :=
    fun digit hMem => Option.isSome_iff_exists.mp (h digit hMem)
  obtain ⟨va, ha⟩ := hDigit a (by simp)
  obtain ⟨vb, hb⟩ := hDigit b (by simp)
  obtain ⟨vc, hc⟩ := hDigit c (by simp)
  obtain ⟨vd, hd⟩ := hDigit d (by simp)
  simp only [readHex, ha, hb, hc, hd]
  exact ⟨_, rfl⟩

theorem skipString_ok (h : StringBody text) (rest : List Char) : skipString (text ++ rest) = .ok rest := by
  induction h with
  | closing => rw [List.singleton_append, skipString, if_pos rfl]
  | plain hQuote hBackslash hControl _ ih =>
    rw [List.cons_append, skipString, if_neg hQuote, if_neg hBackslash, if_neg hControl, ih]
  | escaped hEscape _ ih =>
    rw [List.cons_append, List.cons_append, skipString_backslash (skipEscape_simple hEscape), ih]
  | @code a b c d text hDigits _ ih =>
    obtain ⟨code, hHex⟩ := @readHex_digits (text ++ rest) a b c d hDigits
    have hEscape : skipEscape ('u' :: a :: b :: c :: d :: (text ++ rest)) = .ok (text ++ rest) := by
      simp only [skipEscape, hHex]
    simp only [List.cons_append]
    rw [skipString_backslash hEscape, ih]

theorem of_readHex {code : Nat} (h : readHex text = .ok (code, rest)) :
    ∃ a b c d, text = a :: b :: c :: d :: rest ∧ ∀ digit ∈ [a, b, c, d], (hexValue? digit).isSome := by
  unfold readHex at h
  split at h
  · split at h
    · rename_i ha hb hc hd
      cases h
      refine ⟨_, _, _, _, rfl, ?_⟩
      simp [ha, hb, hc, hd]
    · cases h
  · split at h <;> cases h

/-- What is read as an escape may stand in a string. -/
theorem stringBody_of_readEscape {c : Char} {body : List Char} (h : readEscape text = .ok (c, rest))
    (hBody : StringBody body) : ∃ front, text = front ++ rest ∧ StringBody ('\\' :: (front ++ body)) := by
  unfold readEscape at h
  split at h
  · cases h
  · split at h
    · cases h
    · rename_i hHex
      obtain ⟨a, b, c, d, rfl, hDigits⟩ := of_readHex hHex
      split at h
      · cases h
      · split at h
        · unfold readLowSurrogate at h
          split at h
          · cases h
          · cases h
          · split at h
            · cases h
            · rename_i hLow
              obtain ⟨a', b', c', d', rfl, hLowDigits⟩ := of_readHex hLow
              split at h
              · obtain ⟨-, rfl⟩ := Prod.mk.inj (Except.ok.inj h)
                exact ⟨['u', a, b, c, d, '\\', 'u', a', b', c', d'], rfl, .code hDigits (.code hLowDigits hBody)⟩
              · cases h
          · cases h
        · cases h
          exact ⟨['u', a, b, c, d], rfl, .code hDigits hBody⟩
  · split at h <;> cases h
    rename_i hEscape
    exact ⟨[_], rfl, .escaped (by rw [hEscape]; rfl) hBody⟩

/-- What is read as a string is one. -/
theorem stringBody_of_readString {cs : List Char} (h : readString text = .ok (cs, rest)) :
    ∃ front, text = front ++ rest ∧ StringBody front := by
  induction hLength : text.length using Nat.strongRecOn generalizing text cs with
  | ind length ih =>
    cases text with
    | nil =>
      rw [readString] at h
      cases h
    | cons c text =>
      rw [readString] at h
      by_cases hQuote : c = '"'
      · rw [if_pos hQuote] at h
        cases h
        exact ⟨['"'], congrArg (· :: rest) hQuote, .closing⟩
      rw [if_neg hQuote] at h
      by_cases hBackslash : c = '\\'
      · rw [if_pos hBackslash] at h
        split at h
        · cases h
        · rename_i hEscape
          have hShorter := length_lt_of_readEscape hEscape
          split at h <;> cases h
          rename_i hRead
          obtain ⟨body, rfl, hBody⟩ := ih _ (by rw [← hLength, List.length_cons]; omega) hRead rfl
          obtain ⟨front, rfl, hFront⟩ := stringBody_of_readEscape hEscape hBody
          exact ⟨'\\' :: (front ++ body), by simp [hBackslash], hFront⟩
      · rw [if_neg hBackslash] at h
        by_cases hControl : c < ' '
        · rw [if_pos hControl] at h
          cases h
        · rw [if_neg hControl] at h
          split at h <;> cases h
          rename_i hRead
          obtain ⟨body, rfl, hBody⟩ := ih _ (by rw [← hLength, List.length_cons]; omega) hRead rfl
          exact ⟨c :: body, rfl, .plain hQuote hBackslash hControl hBody⟩

/-- Where a string ends does not depend on what follows it. -/
theorem rest_of_readString {cs more : List Char} (hBody : StringBody text)
    (h : readString (text ++ rest) = .ok (cs, more)) : more = rest := by
  obtain ⟨front, hFront, hRead⟩ := stringBody_of_readString h
  have hSkip := skipString_ok hBody rest
  rw [hFront, skipString_ok hRead more] at hSkip
  exact Except.ok.inj hSkip

end strings

/-! ## Numbers -/

/-- Digits, of which there is one at least. -/
structure Digits (digits : List Char) : Prop where
  ne_nil : digits ≠ []
  all : ∀ c ∈ digits, isDigit c = true

/-- What may follow the whole digits of a number: a point and digits. -/
inductive Fraction : List Char → Prop
  | absent : Fraction []
  | present {digits : List Char} (hDigits : Digits digits) : Fraction ('.' :: digits)

inductive Exponent : List Char → Prop
  | absent : Exponent []
  | present {letter : Char} {sign digits : List Char} (hLetter : letter = 'e' ∨ letter = 'E')
    (hSign : sign = [] ∨ sign = ['+'] ∨ sign = ['-']) (hDigits : Digits digits) :
    Exponent (letter :: (sign ++ digits))

/-- A number after its sign, however large it is. -/
inductive Magnitude : List Char → Prop
  | intro {whole fraction exponent : List Char} (hWhole : Leads whole) (hFraction : Fraction fraction)
    (hExponent : Exponent exponent) : Magnitude (whole ++ (fraction ++ exponent))

section numbers

variable {text rest digits : List Char}

theorem Digits.head_append (h : Digits digits) (rest : List Char) : (digits ++ rest).head?.any isDigit = true := by
  cases digits with
  | nil => exact absurd rfl h.ne_nil
  | cons c digits => exact h.all c List.mem_cons_self

theorem digitsEnd_iff : DigitsEnd rest ↔ rest.head?.any isDigit = false := by
  cases rest <;> simp [DigitsEnd]

theorem digits_takeWhile (h : text.head?.any isDigit = true) : Digits (text.takeWhile isDigit) := by
  refine ⟨?_, fun c hc => List.mem_takeWhile_imp hc⟩
  cases text with
  | nil => cases h
  | cons c text =>
    rw [List.head?_cons, Option.any_some] at h
    rw [List.takeWhile_cons_of_pos h]
    exact List.cons_ne_nil _ _

/-- What is skipped of a number after its fraction. -/
def skipTail : List Char → Except ReadError (List Char)
  | 'e' :: rest | 'E' :: rest => skipExponent rest
  | rest => .ok rest

/-- What is skipped of a number after its whole digits. -/
def skipAfterDigits : List Char → Except ReadError (List Char)
  | '.' :: rest => if rest.head?.any isDigit then skipTail (rest.dropWhile isDigit) else .error .invalidNumber
  | rest => skipTail rest

theorem skipTail_of_ne {text : List Char} (hSmall : ∀ more, text ≠ 'e' :: more)
    (hCapital : ∀ more, text ≠ 'E' :: more) : skipTail text = .ok text := by
  unfold skipTail
  split
  · exact absurd rfl (hSmall _)
  · exact absurd rfl (hCapital _)
  · rfl

theorem skipAfterDigits_of_ne {text : List Char} (hPoint : ∀ more, text ≠ '.' :: more) :
    skipAfterDigits text = skipTail text := by
  unfold skipAfterDigits
  split
  · exact absurd rfl (hPoint _)
  · rfl

theorem skipNumber_eq (text : List Char) : skipNumber text =
    if ¬text.head?.any isDigit ∨ (text.head? = some '0' ∧ text.tail.head?.any isDigit) then .error .invalidNumber
    else skipAfterDigits (text.dropWhile isDigit) := by
  unfold skipNumber
  congr 1
  generalize text.dropWhile isDigit = tail
  split
  · rfl
  · rfl
  · rfl
  · rename_i hPoint hSmall hCapital
    rw [skipAfterDigits_of_ne hPoint, skipTail_of_ne hSmall hCapital]

theorem dropWhile_extend (significand : Nat) (text : List Char) :
    (extend significand text).2.2.dropWhile isDigit = text.dropWhile isDigit := by
  induction text generalizing significand with
  | nil => rfl
  | cons c text ih =>
    rw [extend]
    split
    · rename_i h
      rw [List.dropWhile_cons_of_pos h.1]
      exact ih _
    · rfl

/-- Nothing is taken where no digit stands in front. -/
theorem extend_or_head (significand : Nat) (text : List Char) :
    extend significand text = (significand, 0, text) ∨ text.head?.any isDigit = true := by
  cases text with
  | nil => exact .inl rfl
  | cons c text =>
    rw [extend]
    split
    · rename_i hDigit
      exact .inr hDigit.1
    · exact .inl rfl

theorem skipExponent_ok {sign : List Char} (hSign : sign = [] ∨ sign = ['+'] ∨ sign = ['-']) (hDigits : Digits digits)
    (hRest : DigitsEnd rest) : skipExponent (sign ++ (digits ++ rest)) = .ok rest := by
  have hHead := hDigits.head_append rest
  have hDrop := (takeWhile_digits hDigits.all hRest).2
  unfold skipExponent
  rcases hSign with rfl | rfl | rfl
  · -- What starts with a digit has no sign.
    cases digits with
    | nil => exact absurd rfl hDigits.ne_nil
    | cons c digits =>
      have hDigit := hDigits.all c List.mem_cons_self
      simp only [List.nil_append, List.cons_append] at hHead hDrop ⊢
      split
      · rename_i hSign
        obtain ⟨rfl, -⟩ := List.cons.inj hSign
        exact absurd hDigit (by decide)
      · rename_i hSign
        obtain ⟨rfl, -⟩ := List.cons.inj hSign
        exact absurd hDigit (by decide)
      · rw [if_pos hHead, hDrop]
  · simp only [List.cons_append, List.nil_append, hHead, hDrop, if_true]
  · simp only [List.cons_append, List.nil_append, hHead, hDrop, if_true]

theorem skipTail_ok {exponent : List Char} (h : Exponent exponent) (hRest : Delimited rest) :
    skipTail (exponent ++ rest) = .ok rest := by
  cases h with
  | absent =>
    rw [List.nil_append]
    unfold skipTail
    split
    · exact absurd rfl (hRest 'e' rfl).2.2.1
    · exact absurd rfl (hRest 'E' rfl).2.2.2
    · rfl
  | present hLetter hSign hDigits =>
    rw [List.cons_append, List.append_assoc]
    rcases hLetter with rfl | rfl
    · exact skipExponent_ok hSign hDigits hRest.digitsEnd
    · exact skipExponent_ok hSign hDigits hRest.digitsEnd

theorem Exponent.digitsEnd {exponent : List Char} (h : Exponent exponent) (hRest : Delimited rest) :
    DigitsEnd (exponent ++ rest) := by
  cases h with
  | absent => exact hRest.digitsEnd
  | present hLetter => rcases hLetter with rfl | rfl <;> exact digitsEnd_cons rfl _

theorem skipAfterDigits_ok {fraction exponent : List Char} (hFraction : Fraction fraction)
    (hExponent : Exponent exponent) (hRest : Delimited rest) :
    skipAfterDigits (fraction ++ (exponent ++ rest)) = .ok rest := by
  cases hFraction with
  | absent =>
    have hTail := skipTail_ok hExponent hRest
    rw [List.nil_append]
    unfold skipAfterDigits
    split
    · rename_i hPoint
      cases hExponent with
      | absent => exact absurd rfl (hRest '.' (by rw [← List.nil_append rest, hPoint]; rfl)).2.1
      | present hLetter =>
        rcases hLetter with rfl | rfl <;> cases hPoint
    · exact hTail
  | present hDigits =>
    have hDrop := (takeWhile_digits hDigits.all (hExponent.digitsEnd hRest)).2
    rw [List.cons_append, skipAfterDigits, if_pos (hDigits.head_append _), hDrop]
    exact skipTail_ok hExponent hRest

theorem skipNumber_ok (h : Magnitude text) (hRest : Delimited rest) : skipNumber (text ++ rest) = .ok rest := by
  obtain @⟨whole, fraction, exponent, hWhole, hFraction, hExponent⟩ := h
  have hDigits : Digits whole := ⟨hWhole.ne_nil, hWhole.isDigit⟩
  have hEnd : DigitsEnd (fraction ++ (exponent ++ rest)) := by
    cases hFraction with
    | absent => exact hExponent.digitsEnd hRest
    | present => exact digitsEnd_cons rfl _
  have hHead := hDigits.head_append (fraction ++ (exponent ++ rest))
  rw [List.append_assoc, List.append_assoc, skipNumber_eq, (takeWhile_digits hWhole.isDigit hEnd).2]
  rw [if_neg, skipAfterDigits_ok hFraction hExponent hRest]
  rintro (hNone | ⟨hZero, hMore⟩)
  · exact hNone hHead
  · -- A zero is the only digit, so that no other follows it.
    rw [List.head?_append, Option.or_of_isSome (by simpa using hWhole.ne_nil)] at hZero
    rw [hWhole.zero hZero, List.singleton_append, List.tail_cons, digitsEnd_iff.mp hEnd] at hMore
    cases hMore

/-! ### What is skipped or read -/

theorem of_skipExponent (h : skipExponent text = .ok rest) : ∃ sign digits, text = sign ++ (digits ++ rest) ∧
    (sign = [] ∨ sign = ['+'] ∨ sign = ['-']) ∧ Digits digits := by
  have hUnsigned {unsigned : List Char} (h : (if unsigned.head?.any isDigit then .ok (unsigned.dropWhile isDigit)
      else .error ReadError.invalidNumber) = Except.ok rest) : ∃ digits, unsigned = digits ++ rest ∧ Digits digits := by
    split at h
    · rename_i hHead
      cases h
      exact ⟨unsigned.takeWhile isDigit, List.takeWhile_append_dropWhile.symm, digits_takeWhile hHead⟩
    · cases h
  unfold skipExponent at h
  split at h
  · obtain ⟨digits, rfl, hDigits⟩ := hUnsigned h
    exact ⟨['+'], digits, rfl, .inr (.inl rfl), hDigits⟩
  · obtain ⟨digits, rfl, hDigits⟩ := hUnsigned h
    exact ⟨['-'], digits, rfl, .inr (.inr rfl), hDigits⟩
  · obtain ⟨digits, rfl, hDigits⟩ := hUnsigned h
    exact ⟨[], digits, rfl, .inl rfl, hDigits⟩

theorem of_skipTail (h : skipTail text = .ok rest) : ∃ exponent, text = exponent ++ rest ∧ Exponent exponent := by
  unfold skipTail at h
  split at h
  · obtain ⟨sign, digits, rfl, hSign, hDigits⟩ := of_skipExponent h
    exact ⟨'e' :: (sign ++ digits), by simp, .present (.inl rfl) hSign hDigits⟩
  · obtain ⟨sign, digits, rfl, hSign, hDigits⟩ := of_skipExponent h
    exact ⟨'E' :: (sign ++ digits), by simp, .present (.inr rfl) hSign hDigits⟩
  · cases h
    exact ⟨[], rfl, .absent⟩

theorem of_skipAfterDigits (h : skipAfterDigits text = .ok rest) :
    ∃ fraction exponent, text = fraction ++ (exponent ++ rest) ∧ Fraction fraction ∧ Exponent exponent := by
  unfold skipAfterDigits at h
  split at h
  · rename_i more
    split at h
    · rename_i hHead
      obtain ⟨exponent, hMore, hExponent⟩ := of_skipTail h
      refine ⟨'.' :: more.takeWhile isDigit, exponent, ?_, .present (digits_takeWhile hHead), hExponent⟩
      rw [List.cons_append, ← hMore, List.takeWhile_append_dropWhile]
    · cases h
  · obtain ⟨exponent, rfl, hExponent⟩ := of_skipTail h
    exact ⟨[], exponent, rfl, .absent, hExponent⟩

theorem of_skipNumber (h : skipNumber text = .ok rest) : ∃ front, text = front ++ rest ∧ Magnitude front := by
  rw [skipNumber_eq] at h
  split at h
  · cases h
  · rename_i hHead
    obtain ⟨hSome, hZero⟩ := not_or.mp hHead
    have hDigits := digits_takeWhile (not_not.mp hSome)
    have hWhole : Leads (text.takeWhile isDigit) := by
      refine ⟨hDigits.ne_nil, hDigits.all, fun hFirst => ?_⟩
      cases text with
      | nil => cases hFirst
      | cons c more =>
        have hDigit : isDigit c = true := not_not.mp hSome
        rw [List.takeWhile_cons_of_pos hDigit] at hFirst ⊢
        cases hFirst
        have hMore : more.head?.any isDigit = false := by
          rw [← Bool.not_eq_true]
          exact fun hAny => hZero ⟨rfl, hAny⟩
        rw [takeWhile_of_digitsEnd (digitsEnd_iff.mpr hMore)]
    obtain ⟨fraction, exponent, hTail, hFraction, hExponent⟩ := of_skipAfterDigits h
    refine ⟨_, ?_, .intro hWhole hFraction hExponent⟩
    rw [List.append_assoc, List.append_assoc, ← hTail, List.takeWhile_append_dropWhile]

section read

variable {negative : Bool} {significand : Nat} {exponent : Int} {x : Float} {number : Number}

theorem skipExponent_of_read (h : readExponent negative significand exponent text = .ok (x, rest)) :
    skipExponent text = .ok rest := by
  unfold readExponent at h
  split at h
  rename_i down unsigned hSign
  have hUnsigned : unsigned.head?.any isDigit = true ∧ unsigned.dropWhile isDigit = rest := by
    split at h
    · cases h
    · rename_i c more
      split at h
      · rename_i hDigit
        refine ⟨hDigit, ?_⟩
        simp only at h
        split at h
        · split at h <;> cases h
          rfl
        · split at h <;> cases h
          rfl
      · cases h
  obtain ⟨hHead, rfl⟩ := hUnsigned
  unfold skipExponent
  split at hSign <;> cases hSign <;> exact if_pos hHead

theorem skipTail_of_finish (h : finishNumber negative significand exponent text = .ok (x, rest)) :
    skipTail text = .ok rest := by
  unfold finishNumber at h
  split at h
  · exact skipExponent_of_read h
  · exact skipExponent_of_read h
  · rename_i hSmall hCapital
    split at h <;> cases h
    exact skipTail_of_ne hSmall hCapital

theorem skipAfterDigits_of_fraction (h : readFraction negative significand exponent text = .ok (x, rest)) :
    skipAfterDigits ('.' :: text) = .ok rest := by
  have hDrop := dropWhile_extend significand text
  have hTaken := extend_or_head significand text
  unfold readFraction at h
  split at h
  rename_i significand' taken more hExtend
  rw [hExtend] at hDrop hTaken
  rw [skipAfterDigits, ← hDrop]
  split at h
  · rename_i hHead
    rw [if_pos, skipTail_of_finish h]
    rcases hTaken with hTaken | hTaken
    · cases hTaken
      exact hHead
    · exact hTaken
  · rename_i hHead
    rw [dropWhile_of_digitsEnd (digitsEnd_iff.mpr (eq_false_of_ne_true hHead))]
    split at h
    · split at h <;> cases h
    · rename_i hSome
      rw [if_pos (hTaken.resolve_left fun hNone => ?_), skipTail_of_finish h]
      cases hNone
      exact hSome rfl

theorem rest_of_map {result : Except ReadError (Float × List Char)}
    (h : (result.map fun read => (Number.double read.1, read.2)) = .ok (number, rest)) :
    ∃ x, result = .ok (x, rest) := by
  cases result with
  | error => cases h
  | ok read =>
    cases h
    exact ⟨_, rfl⟩

theorem skipNumber_of_read (h : readNumber negative text = .ok (number, rest)) : skipNumber text = .ok rest := by
  have hDrop := dropWhile_extend 0 text
  unfold readNumber at h
  rw [skipNumber_eq]
  split at h
  · cases h
  · split at h
    · cases h
    · split at h
      · cases h
      · rename_i first afterFirst hFirst hZero
        have hValid : ¬(¬(first :: afterFirst).head?.any isDigit = true ∨ (first :: afterFirst).head? = some '0' ∧
            (first :: afterFirst).tail.head?.any isDigit = true) :=
          not_or.mpr ⟨hFirst, fun hBoth => hZero ⟨Option.some.inj hBoth.1, hBoth.2⟩⟩
        generalize extend 0 (first :: afterFirst) = extended at h hDrop
        obtain ⟨significand, taken, more⟩ := extended
        simp only at h hDrop
        rw [if_neg hValid, ← hDrop]
        split at h
        · rename_i hTail
          obtain ⟨x, h⟩ := rest_of_map h
          rw [hTail]
          exact skipAfterDigits_of_fraction h
        · rename_i hTail
          obtain ⟨x, h⟩ := rest_of_map h
          rw [hTail]
          exact skipExponent_of_read h
        · rename_i hTail
          obtain ⟨x, h⟩ := rest_of_map h
          rw [hTail]
          exact skipExponent_of_read h
        · rename_i hPoint hSmall hCapital
          rw [skipAfterDigits_of_ne hPoint]
          split at h
          · cases h
            exact skipTail_of_ne hSmall hCapital
          · obtain ⟨x, h⟩ := rest_of_map h
            exact skipTail_of_finish h

theorem rest_of_readNumber {more : List Char} (hText : Magnitude text) (hRest : Delimited rest)
    (h : readNumber negative (text ++ rest) = .ok (number, more)) : more = rest := by
  have hSkip := skipNumber_of_read h
  rw [skipNumber_ok hText hRest] at hSkip
  exact (Except.ok.inj hSkip).symm

end read
end numbers
end Listfile.Json
