import Listfile.Json.Number
import Listfile.Proofs.Double.Range
import Listfile.Proofs.Json.Lexical
/-! # Reading decimals

The text of a decimal that has few enough digits, and rounds to a double, is read as a double. Its digits form one
significand wherever the point is put between them, so all texts of a decimal are scaled by the same power of ten, except
that zeros at its end count as digits.
-/
namespace Listfile.Json
set_option autoImplicit false

open Double (InRange)

variable (negative : Bool) {significand : Nat} {rest : List Char}

/-! ## Digits -/

theorem digitsValue_eq (digits : List Char) : digitsValue digits = Nat.ofDigitChars 10 digits 0 := by
  unfold digitsValue Nat.ofDigitChars digitValue
  simp only [Nat.mul_comm]

theorem ofDigitChars_zeros (n start : Nat) :
    Nat.ofDigitChars 10 (List.replicate n '0') start = start * 10 ^ n := by
  induction n generalizing start with
  | zero => rw [Nat.pow_zero, Nat.mul_one]; rfl
  | succ n ih =>
    rw [List.replicate_succ, Nat.ofDigitChars_cons, ih, Nat.sub_self, Nat.add_zero, Nat.mul_comm 10, Nat.mul_assoc,
      Nat.pow_succ']

theorem isDigit_of_mem_zeros {n : Nat} {c : Char} (h : c ∈ List.replicate n '0') : isDigit c = true := by
  rw [List.eq_of_mem_replicate h]
  decide

theorem isDigit_of_mem_zero : ∀ c ∈ ['0'], isDigit c = true := List.forall_mem_singleton.mpr (by decide)

theorem leads_zero : Leads ['0'] where
  ne_nil := List.cons_ne_nil _ _
  isDigit := isDigit_of_mem_zero
  zero := fun _ => rfl

/-! ## Parts of a number -/

theorem finishNumber_of_delimited {exponent : Int} {x : Float} (hRest : Delimited rest)
    (h : ofParts negative significand exponent = .ok x) :
    finishNumber negative significand exponent rest = .ok (x, rest) := by
  unfold finishNumber
  split
  · exact absurd rfl (hRest 'e' rfl).2.2.1
  · exact absurd rfl (hRest 'E' rfl).2.2.2
  · rw [h]

theorem readFraction_digits {start : Nat} (exponent : Int) {fraction : List Char} (hNe : fraction ≠ [])
    (hDigits : ∀ c ∈ fraction, isDigit c = true) (hFits : Fits (Nat.ofDigitChars 10 fraction start))
    (hRest : DigitsEnd rest) : readFraction negative start exponent (fraction ++ rest) =
      finishNumber negative (Nat.ofDigitChars 10 fraction start) (exponent - fraction.length) rest := by
  have hNone : ¬rest.head?.any isDigit = true := by
    cases rest with
    | nil => exact Bool.false_ne_true
    | cons c rest =>
      rw [List.head?_cons, Option.any_some, hRest c rfl]
      exact Bool.false_ne_true
  unfold readFraction
  rw [extend_digits fraction hRest start hDigits hFits]
  simp only
  rw [if_neg hNone, if_neg (fun hLength => hNe (List.length_eq_zero_iff.mp hLength))]

theorem takeWhile_digits {digits : List Char} (hDigits : ∀ c ∈ digits, isDigit c = true) (hRest : DigitsEnd rest) :
    (digits ++ rest).takeWhile isDigit = digits ∧ (digits ++ rest).dropWhile isDigit = rest := by
  rw [List.takeWhile_append_of_pos hDigits, List.dropWhile_append_of_pos hDigits, takeWhile_of_digitsEnd hRest,
    dropWhile_of_digitsEnd hRest, List.append_nil]
  exact ⟨rfl, rfl⟩

/-- The sign of an exponent only tells whether it is added or subtracted. -/
theorem readExponent_sign (down : Bool) (start : Int) (n : Nat) (hRest : DigitsEnd rest) :
    readExponent negative significand start ((if down then '-' else '+') :: (Nat.toDigits 10 n ++ rest)) =
      if exponentLimit < n then
        if significand ≠ 0 ∧ ¬down then .error .numberOutOfRange else .ok (if negative then -0.0 else 0.0, rest)
      else
        (ofParts negative significand (if down then start - n else start + n)).map fun x => (x, rest) := by
  obtain ⟨hTake, hDrop⟩ := takeWhile_digits (leads_toDigits n).isDigit hRest
  have hValue : digitsValue (Nat.toDigits 10 n) = n := by rw [digitsValue_eq, Nat.ofDigitChars_ten_toDigits]
  cases hDigits : Nat.toDigits 10 n with
  | nil => exact absurd hDigits Nat.toDigits_ne_nil
  | cons c others =>
    have hDigit : isDigit c = true := isDigit_of_mem_toDigits (by rw [hDigits]; exact List.mem_cons_self)
    rw [hDigits] at hTake hDrop hValue
    rw [List.cons_append] at hTake hDrop ⊢
    unfold readExponent
    cases down <;>
    · simp only [Bool.false_eq_true, if_false, if_true, hDigit, hTake, hDrop, hValue]
      congr 1
      cases ofParts negative significand _ <;> rfl

/-- The exponent of a number as it is written, after its `e`. -/
def exponentText (exponent : Int) : List Char :=
  (if exponent < 0 then '-' else '+') :: Nat.toDigits 10 exponent.natAbs

/-- An exponent is read if the number is not too large with it; one that is far too small gives a zero. -/
theorem readExponent_exponentText {start exponent : Int} {x : Float} (hLimit : exponent ≤ exponentLimit)
    (h : ofParts negative significand (start + exponent) = .ok x) :
    ∃ x, ∀ rest, DigitsEnd rest →
      readExponent negative significand start (exponentText exponent ++ rest) = .ok (x, rest) := by
  unfold exponentText
  rcases Int.lt_or_le exponent 0 with hDown | hUp
  · have hDifference : start - exponent.natAbs = start + exponent := by omega
    rw [if_pos hDown]
    by_cases hSmall : exponentLimit < exponent.natAbs
    · refine ⟨if negative then -0.0 else 0.0, fun rest hRest => ?_⟩
      refine (readExponent_sign negative true start exponent.natAbs hRest).trans ?_
      rw [if_pos hSmall]
      exact if_neg fun hRange => hRange.2 rfl
    · refine ⟨x, fun rest hRest => ?_⟩
      refine (readExponent_sign negative true start exponent.natAbs hRest).trans ?_
      rw [if_neg hSmall, if_pos rfl, hDifference, h]
      rfl
  · have hSum : start + exponent.natAbs = start + exponent := by omega
    rw [if_neg (Int.not_lt.mpr hUp)]
    refine ⟨x, fun rest hRest => ?_⟩
    refine (readExponent_sign negative false start exponent.natAbs hRest).trans ?_
    rw [if_neg (by omega), if_neg Bool.false_ne_true, hSum, h]
    rfl

/-! ## Whole numbers -/

/-- Whether a text is read as a double, which does not depend on what follows. -/
def ReadsDouble (negative : Bool) (text : List Char) : Prop :=
  ∃ x, ∀ rest, Delimited rest → readNumber negative (text ++ rest) = .ok (.double x, rest)

theorem ofParts_of_scale {exponent : Int} (h : ∃ x, scale (Float.ofNat significand) exponent = some x) :
    ∃ x, ofParts negative significand exponent = .ok x := by
  obtain ⟨x, hx⟩ := h
  refine ⟨if negative then -x else x, ?_⟩
  rw [ofParts, hx]

theorem digitsEnd_cons {c : Char} (h : isDigit c = false) (rest : List Char) : DigitsEnd (c :: rest) := by
  intro first hFirst
  cases hFirst
  exact h

section point

variable {whole fraction : List Char} (hWhole : Leads whole) (hNe : fraction ≠ [])
  (hFraction : ∀ c ∈ fraction, isDigit c = true) (hFits : Fits (Nat.ofDigitChars 10 (whole ++ fraction) 0))

include hWhole hNe hFraction hFits

/-- The digits before and after a point form one significand. -/
theorem readNumber_point (hRest : DigitsEnd rest) : readNumber negative (whole ++ '.' :: (fraction ++ rest)) =
    (finishNumber negative (Nat.ofDigitChars 10 (whole ++ fraction) 0) (-fraction.length) rest).map
      fun (x, rest) => (.double x, rest) := by
  rw [Nat.ofDigitChars_append] at hFits ⊢
  have hLe := le_ofDigitChars fraction (Nat.ofDigitChars 10 whole 0)
  have hFitsWhole : Fits (Nat.ofDigitChars 10 whole 0) := Nat.lt_of_le_of_lt hLe hFits
  have hRead := readFraction_digits negative 0 hNe hFraction hFits hRest
  rw [Int.zero_sub] at hRead
  rw [readNumber_digits negative hWhole hFitsWhole (digitsEnd_cons (by decide) _), afterDigits]
  simp only [hRead]

/-- Without an exponent the number only has to be scaled down. -/
theorem readsDouble_point : ReadsDouble negative (whole ++ '.' :: fraction) := by
  have hDown : -(fraction.length : Int) < 0 := by
    have := List.length_pos_iff.mpr hNe
    omega
  obtain ⟨x, hx⟩ := ofParts_of_scale negative (Double.scale_of_neg hDown)
  refine ⟨x, fun rest hRest => ?_⟩
  rw [List.append_assoc, List.cons_append, readNumber_point negative hWhole hNe hFraction hFits hRest.digitsEnd,
    finishNumber_of_delimited negative hRest hx]
  rfl

theorem readsDouble_pointExponent {exponent : Int} (hLimit : exponent ≤ exponentLimit)
    (h : ∃ x, scale (Float.ofNat (Nat.ofDigitChars 10 (whole ++ fraction) 0)) (-fraction.length + exponent) = some x) :
    ReadsDouble negative (whole ++ '.' :: (fraction ++ 'e' :: exponentText exponent)) := by
  obtain ⟨x, hx⟩ := ofParts_of_scale negative h
  obtain ⟨y, hy⟩ := readExponent_exponentText negative hLimit hx
  refine ⟨y, fun rest hRest => ?_⟩
  rw [List.append_assoc, List.cons_append, List.append_assoc, List.cons_append,
    readNumber_point negative hWhole hNe hFraction hFits (digitsEnd_cons (by decide) _), finishNumber]
  simp only [hy rest hRest.digitsEnd]
  rfl

end point

theorem readsDouble_exponent {whole : List Char} (hWhole : Leads whole) (hFits : Fits (Nat.ofDigitChars 10 whole 0))
    {exponent : Int} (hLimit : exponent ≤ exponentLimit)
    (h : ∃ x, scale (Float.ofNat (Nat.ofDigitChars 10 whole 0)) exponent = some x) :
    ReadsDouble negative (whole ++ 'e' :: exponentText exponent) := by
  rw [← Int.zero_add exponent] at h
  obtain ⟨x, hx⟩ := ofParts_of_scale negative h
  obtain ⟨y, hy⟩ := readExponent_exponentText negative hLimit hx
  refine ⟨y, fun rest hRest => ?_⟩
  rw [List.append_assoc, List.cons_append, readNumber_digits negative hWhole hFits (digitsEnd_cons (by decide) _),
    afterDigits]
  simp only [hy rest hRest.digitsEnd]
  rfl

/-! ## Decimals -/

theorem leads_of_head {whole : List Char} (hNe : whole ≠ []) (hDigits : ∀ c ∈ whole, isDigit c = true)
    (hHead : whole.head? ≠ some '0') : Leads whole := ⟨hNe, hDigits, fun h => absurd h hHead⟩

theorem fits_zeros {m n : Nat} (hLength : (Nat.toDigits 10 m).length + n ≤ 16) : Fits (m * 10 ^ n * 10) := by
  have hLt : m < 10 ^ (Nat.toDigits 10 m).length := Decimal.lt_pow_digitCount m
  calc m * 10 ^ n * 10 < 10 ^ (Nat.toDigits 10 m).length * 10 ^ n * 10 :=
        Nat.mul_lt_mul_of_pos_right (Nat.mul_lt_mul_of_pos_right hLt (Nat.pow_pos (by decide))) (by decide)
    _ = 10 ^ ((Nat.toDigits 10 m).length + n) * 10 := by rw [Nat.pow_add]
    _ ≤ 10 ^ 16 * 10 := Nat.mul_le_mul_right _ (Nat.pow_le_pow_right (by decide) hLength)
    _ ≤ 0x10000000000000000 := by decide

theorem ofDigitChars_parts (n k : Nat) :
    Nat.ofDigitChars 10 ((Nat.toDigits 10 n).take k ++ (Nat.toDigits 10 n).drop k) 0 = n := by
  rw [List.take_append_drop, Nat.ofDigitChars_ten_toDigits]

section decimal

variable {d : Decimal} (h : InRange d)

include h

theorem fits_digits : Fits d.digits := Nat.lt_of_le_of_lt h.le (by decide)

theorem head_digits : (Nat.toDigits 10 d.digits).head? ≠ some '0' := by
  intro hHead
  have hPos := h.pos
  rw [head_toDigits hHead] at hPos
  exact Nat.lt_irrefl 0 hPos

/-- The digits of a decimal, cut into those before and those after the point. -/
theorem parts_of_digits {k : Nat} (hk : 0 < k) (hLength : k < (Nat.toDigits 10 d.digits).length) :
    Leads ((Nat.toDigits 10 d.digits).take k) ∧ (Nat.toDigits 10 d.digits).drop k ≠ [] ∧
    ∀ c ∈ (Nat.toDigits 10 d.digits).drop k, isDigit c = true := by
  refine ⟨leads_of_head ?_ ?_ ?_, ?_, ?_⟩
  · rw [ne_eq, List.take_eq_nil_iff, not_or]
    exact ⟨by omega, Nat.toDigits_ne_nil⟩
  · exact fun c hc => isDigit_of_mem_toDigits (List.mem_of_mem_take hc)
  · rw [List.head?_take, if_neg (by omega)]
    exact head_digits h
  · rw [ne_eq, List.drop_eq_nil_iff]
    omega
  · exact fun c hc => isDigit_of_mem_toDigits (List.mem_of_mem_drop hc)

/-- A decimal that ends before the point. -/
theorem readsDouble_zeros {n : Nat} (hLength : (Nat.toDigits 10 d.digits).length + n ≤ 16) :
    ReadsDouble negative (Nat.toDigits 10 d.digits ++ List.replicate n '0' ++ ['.', '0']) := by
  have hValue : Nat.ofDigitChars 10 (Nat.toDigits 10 d.digits ++ List.replicate n '0' ++ ['0']) 0 =
      d.digits * 10 ^ n * 10 := by
    rw [Nat.ofDigitChars_append, Nat.ofDigitChars_append, Nat.ofDigitChars_ten_toDigits, ofDigitChars_zeros]
    exact ofDigitChars_zeros 1 _
  have hLeads : Leads (Nat.toDigits 10 d.digits ++ List.replicate n '0') := by
    refine leads_of_head (by simp) ?_ ?_
    · intro c hc
      rcases List.mem_append.mp hc with hc | hc
      · exact isDigit_of_mem_toDigits hc
      · exact isDigit_of_mem_zeros hc
    · rw [List.head?_append, Option.or_of_isSome (by simp)]
      exact head_digits h
  refine readsDouble_point negative hLeads (List.cons_ne_nil _ _) isDigit_of_mem_zero ?_
  rw [hValue]
  exact fits_zeros hLength

/-- A decimal with the point between its digits. -/
theorem readsDouble_between {k : Nat} (hk : 0 < k) (hLength : k < (Nat.toDigits 10 d.digits).length) :
    ReadsDouble negative ((Nat.toDigits 10 d.digits).take k ++ '.' :: (Nat.toDigits 10 d.digits).drop k) := by
  obtain ⟨hWhole, hNe, hFraction⟩ := parts_of_digits h hk hLength
  refine readsDouble_point negative hWhole hNe hFraction ?_
  rw [ofDigitChars_parts]
  exact fits_digits h

/-- A decimal that starts after the point. -/
theorem readsDouble_below (n : Nat) :
    ReadsDouble negative (['0'] ++ '.' :: (List.replicate n '0' ++ Nat.toDigits 10 d.digits)) := by
  have hZero : Nat.ofDigitChars 10 ['0'] 0 = 0 := rfl
  refine readsDouble_point negative leads_zero ?_ ?_ ?_
  · simp
  · intro c hc
    rcases List.mem_append.mp hc with hc | hc
    · exact isDigit_of_mem_zeros hc
    · exact isDigit_of_mem_toDigits hc
  · rw [Nat.ofDigitChars_append, Nat.ofDigitChars_append, hZero, ofDigitChars_zeros, Nat.zero_mul,
      Nat.ofDigitChars_ten_toDigits]
    exact fits_digits h

/-- A decimal with an exponent, whose point comes after its first digit. -/
theorem readsDouble_scientific :
    let digits := Nat.toDigits 10 d.digits
    ReadsDouble negative (digits.take 1 ++ (if digits.length = 1 then [] else '.' :: digits.drop 1) ++
      'e' :: exponentText (d.exponent + digits.length - 1)) := by
  intro digits
  have hPos : 0 < digits.length := Nat.length_toDigits_pos
  have hLength : digits.length ≤ 18 :=
    (Nat.length_toDigits_le_iff (by decide) (by decide)).mpr (Nat.lt_of_le_of_lt h.le (by decide))
  have hLimit : d.exponent + digits.length - 1 ≤ exponentLimit := by
    have := h.exponent_le
    unfold exponentLimit
    omega
  split
  · rename_i hOne
    have hScale :
        ∃ x, scale (Float.ofNat (Nat.ofDigitChars 10 digits 0)) (d.exponent + digits.length - 1) = some x := by
      rw [Nat.ofDigitChars_ten_toDigits, show d.exponent + digits.length - 1 = d.exponent by omega]
      exact h.scale
    have hFits : Fits (Nat.ofDigitChars 10 digits 0) := by
      rw [Nat.ofDigitChars_ten_toDigits]
      exact fits_digits h
    rw [List.take_of_length_le (by omega), List.append_nil]
    exact readsDouble_exponent negative (leads_toDigits _) hFits hLimit hScale
  · have hMore : 1 < digits.length := by omega
    obtain ⟨hWhole, hNe, hFraction⟩ := parts_of_digits h Nat.one_pos hMore
    rw [List.append_assoc, List.cons_append]
    refine readsDouble_pointExponent negative hWhole hNe hFraction ?_ hLimit ?_
    · rw [ofDigitChars_parts]
      exact fits_digits h
    · rw [ofDigitChars_parts, List.length_drop,
        show -((digits.length - 1 : Nat) : Int) + (d.exponent + digits.length - 1) = d.exponent by omega]
      exact h.scale

theorem readsDouble_decimalText : ReadsDouble negative (Number.decimalText d).toList := by
  have hPos : 0 < (Nat.toDigits 10 d.digits).length := Nat.length_toDigits_pos
  unfold Number.decimalText Number.isPositional
  simp only [String.toList_ofList]
  split
  · rename_i hPositional
    obtain ⟨hLow, hHigh⟩ := of_decide_eq_true hPositional
    split
    · exact readsDouble_zeros negative h (by omega)
    · split
      · exact readsDouble_between negative h (by omega) (by omega)
      · exact readsDouble_below negative h _
  · exact readsDouble_scientific negative h

end decimal

end Listfile.Json
