import Listfile.Json.Printer
import Listfile.Json.Text
/-! # Reading back strings and integers

What is written for a string is read as that string, whatever follows it. What is written for an integer is read as
that integer if it fits and nothing follows that would go on with a number.
-/
namespace Listfile.Json
set_option autoImplicit false

/-! ## Strings -/

theorem hexValue?_hexDigit {n : Nat} (h : n < 16) : hexValue? (hexDigit n) = some n := by
  have hAll : ∀ n < 16, hexValue? (hexDigit n) = some n := by decide
  exact hAll n h

theorem readHex_control {n : Nat} (h : n < 256) (rest : List Char) :
    readHex ('0' :: '0' :: hexDigit (n / 16) :: hexDigit (n % 16) :: rest) = .ok (n, rest) := by
  have hZero : hexValue? '0' = some 0 := by decide
  have hHigh : hexValue? (hexDigit (n / 16)) = some (n / 16) := hexValue?_hexDigit (by omega)
  have hLow : hexValue? (hexDigit (n % 16)) = some (n % 16) := hexValue?_hexDigit (by omega)
  rw [readHex]
  simp only [hZero, hHigh, hLow]
  congr 2
  omega

theorem lt_of_lt_blank {c : Char} (h : c < ' ') : c.toNat < 32 := h

theorem readEscape_control {c : Char} (h : c < ' ') (rest : List Char) :
    readEscape ('u' :: '0' :: '0' :: hexDigit (c.toNat / 16) :: hexDigit (c.toNat % 16) :: rest) = .ok (c, rest) := by
  have hLt := lt_of_lt_blank h
  rw [readEscape, readHex_control (by omega)]
  simp only
  rw [if_neg (by omega), if_neg (by omega), Char.ofNat_toNat]

theorem readString_backslash {c : Char} {escaped text cs rest : List Char}
    (hEscape : readEscape escaped = .ok (c, text)) (h : readString text = .ok (cs, rest)) :
    readString ('\\' :: escaped) = .ok (c :: cs, rest) := by
  rw [readString, if_neg (by decide), if_pos rfl]
  split
  · rename_i hError
    rw [hEscape] at hError
    cases hError
  · rename_i hOk
    rw [hEscape] at hOk
    cases hOk
    rw [h]

theorem readString_escape (c : Char) {text cs rest : List Char} (h : readString text = .ok (cs, rest)) :
    readString (escape c ++ text) = .ok (c :: cs, rest) := by
  unfold escape
  iterate 7
    split
    · rename_i hEq
      rw [hEq]
      exact readString_backslash rfl h
  rename_i hQuote hBackslash _ _ _ _ _
  split
  · rename_i hControl
    exact readString_backslash (readEscape_control hControl text) h
  · rename_i hPlain
    rw [List.singleton_append, readString, if_neg hQuote, if_neg hBackslash, if_neg hPlain, h]

theorem readString_escapeAll (cs rest : List Char) : readString (escapeAll ('"' :: rest) cs) = .ok (cs, rest) := by
  induction cs with
  | nil => rw [escapeAll, readString, if_pos rfl]
  | cons c cs ih => exact readString_escape c ih

/-! ## Integers -/

/-- Whether a count is below `2 ^ 64`. -/
def Fits (n : Nat) : Prop := n < 0x10000000000000000

/-- What may follow digits without going on with them. -/
def DigitsEnd (rest : List Char) : Prop := ∀ c ∈ rest.head?, isDigit c = false

/-- What may follow a number: nothing that could belong to it. -/
def Delimited (rest : List Char) : Prop := ∀ c ∈ rest.head?, isDigit c = false ∧ c ≠ '.' ∧ c ≠ 'e' ∧ c ≠ 'E'

theorem Delimited.digitsEnd {rest : List Char} (h : Delimited rest) : DigitsEnd rest := fun c hc => (h c hc).1

theorem le_ofDigitChars (digits : List Char) (start : Nat) : start ≤ Nat.ofDigitChars 10 digits start := by
  induction digits generalizing start with
  | nil => exact Nat.le_refl _
  | cons c digits ih =>
    rw [Nat.ofDigitChars_cons]
    have := ih (10 * start + (c.toNat - '0'.toNat))
    omega

theorem extend_digits (digits : List Char) {rest : List Char} (hRest : DigitsEnd rest) (start : Nat)
    (hDigits : ∀ c ∈ digits, isDigit c = true) (hFits : Fits (Nat.ofDigitChars 10 digits start)) :
    extend start (digits ++ rest) = (Nat.ofDigitChars 10 digits start, digits.length, rest) := by
  induction digits generalizing start with
  | nil =>
    cases rest with
    | nil => rfl
    | cons c rest =>
      have hDigit := hRest c rfl
      simp [extend, hDigit]
  | cons c digits ih =>
    obtain ⟨hFirst, hOthers⟩ := List.forall_mem_cons.mp hDigits
    rw [Nat.ofDigitChars_cons] at hFits ⊢
    have hValue : start * 10 + digitValue c = 10 * start + (c.toNat - '0'.toNat) := by
      rw [digitValue, Nat.mul_comm]
    have hLe := le_ofDigitChars digits (10 * start + (c.toNat - '0'.toNat))
    have hNext : 10 * start + (c.toNat - '0'.toNat) < 0x10000000000000000 := Nat.lt_of_le_of_lt hLe hFits
    rw [List.cons_append, extend, hValue, if_pos ⟨hFirst, hNext⟩, ih _ hOthers hFits]
    rfl

/-- A digit is none of the other characters that announce a value. -/
theorem ne_of_isDigit {c : Char} (h : isDigit c = true) {other : Char} (hOther : isDigit other = false) : c ≠ other :=
  fun hEq => by rw [hEq, hOther] at h; cases h

theorem isBlank_of_isDigit {c : Char} (h : isDigit c = true) : isBlank c = false := by
  simp only [isBlank, Bool.or_eq_false_iff, decide_eq_false_iff_not]
  exact ⟨⟨⟨ne_of_isDigit h (by decide), ne_of_isDigit h (by decide)⟩, ne_of_isDigit h (by decide)⟩,
    ne_of_isDigit h (by decide)⟩

theorem isDigit_of_mem_toDigits {n : Nat} {c : Char} (h : c ∈ Nat.toDigits 10 n) : isDigit c = true := by
  have hDigit := Nat.isDigit_of_mem_toDigits (by decide) (by decide) h
  rw [Char.isDigit, Bool.and_eq_true, decide_eq_true_eq, decide_eq_true_eq] at hDigit
  rw [isDigit, Bool.and_eq_true, decide_eq_true_eq, decide_eq_true_eq]
  exact hDigit

theorem toDigits_eq_cons (n : Nat) : ∃ c rest, Nat.toDigits 10 n = c :: rest ∧ isDigit c = true := by
  cases h : Nat.toDigits 10 n with
  | nil => exact absurd h Nat.toDigits_ne_nil
  | cons c rest => exact ⟨c, rest, rfl, isDigit_of_mem_toDigits (by rw [h]; exact List.mem_cons_self)⟩

/-- The digits of a number start with a zero only if it is zero. -/
theorem head_toDigits {n : Nat} (h : (Nat.toDigits 10 n).head? = some '0') : n = 0 := by
  induction n using Nat.strongRecOn with
  | ind n ih =>
    by_cases hLt : n < 10
    · rw [Nat.toDigits_of_lt_base hLt] at h
      have hAll : ∀ n < 10, [Nat.digitChar n].head? = some '0' → n = 0 := by decide
      exact hAll n hLt h
    · rw [Nat.toDigits_of_base_le (by decide) (by omega), List.head?_append, Option.or_of_isSome (by simp)] at h
      have := ih (n / 10) (by omega) h
      omega

theorem takeWhile_of_digitsEnd {rest : List Char} (h : DigitsEnd rest) : rest.takeWhile isDigit = [] := by
  cases rest with
  | nil => rfl
  | cons c rest => rw [List.takeWhile_cons, h c rfl, if_neg (by decide)]

theorem dropWhile_of_digitsEnd {rest : List Char} (h : DigitsEnd rest) : rest.dropWhile isDigit = rest := by
  cases rest with
  | nil => rfl
  | cons c rest => rw [List.dropWhile_cons, h c rfl, if_neg (by decide)]

/-- Whether digits may stand at the head of a number: there is one at least, and a zero comes alone. -/
structure Leads (whole : List Char) : Prop where
  ne_nil : whole ≠ []
  isDigit : ∀ c ∈ whole, isDigit c = true
  zero : whole.head? = some '0' → whole = ['0']

theorem leads_toDigits (n : Nat) : Leads (Nat.toDigits 10 n) where
  ne_nil := Nat.toDigits_ne_nil
  isDigit := fun _ => isDigit_of_mem_toDigits
  zero := fun h => by rw [head_toDigits h, Nat.toDigits_zero]

/-- Reads on after the digits at the head of a number. -/
def afterDigits (negative : Bool) (significand : Nat) (text : List Char) : Except ReadError (Number × List Char) :=
  let double (result : Except ReadError (Float × List Char)) : Except ReadError (Number × List Char) :=
    result.map fun (x, rest) => (.double x, rest)
  match text with
  | '.' :: rest => double (readFraction negative significand 0 rest)
  | 'e' :: rest | 'E' :: rest => double (readExponent negative significand 0 rest)
  | rest => .ok (ofInteger negative significand, rest)

/-- Digits that fit are all taken, so that none is dropped. -/
theorem readNumber_digits (negative : Bool) {whole rest : List Char} (hWhole : Leads whole)
    (hFits : Fits (Nat.ofDigitChars 10 whole 0)) (hRest : DigitsEnd rest) :
    readNumber negative (whole ++ rest) = afterDigits negative (Nat.ofDigitChars 10 whole 0) rest := by
  have hExtend := extend_digits whole hRest 0 hWhole.isDigit hFits
  generalize Nat.ofDigitChars 10 whole 0 = n at hExtend
  cases whole with
  | nil => exact absurd rfl hWhole.ne_nil
  | cons first others =>
    have hFirst : isDigit first = true := hWhole.isDigit first List.mem_cons_self
    have hLeading : ¬(first = '0' ∧ (others ++ rest).head?.any isDigit) := by
      rintro ⟨rfl, hAny⟩
      obtain ⟨-, rfl⟩ := List.cons.inj (hWhole.zero rfl)
      cases rest with
      | nil => cases hAny
      | cons c rest =>
        rw [List.nil_append, List.head?_cons, Option.any_some, hRest c rfl] at hAny
        cases hAny
    rw [List.cons_append] at hExtend ⊢
    unfold readNumber
    simp only [hFirst, not_true_eq_false, if_false, if_neg hLeading, hExtend, takeWhile_of_digitsEnd hRest,
      dropWhile_of_digitsEnd hRest, List.length_nil, if_true, Int.natCast_zero]
    rfl

theorem readNumber_toDigits (negative : Bool) {n : Nat} (hFits : Fits n) {rest : List Char}
    (hRest : Delimited rest) : readNumber negative (Nat.toDigits 10 n ++ rest) = .ok (ofInteger negative n, rest) := by
  have hValue : Nat.ofDigitChars 10 (Nat.toDigits 10 n) 0 = n := Nat.ofDigitChars_ten_toDigits
  rw [readNumber_digits negative (leads_toDigits n) (by rwa [hValue]) hRest.digitsEnd, hValue]
  unfold afterDigits
  simp only
  split
  · exact absurd rfl (hRest '.' rfl).2.1
  · exact absurd rfl (hRest 'e' rfl).2.2.1
  · exact absurd rfl (hRest 'E' rfl).2.2.2
  · rfl

end Listfile.Json
