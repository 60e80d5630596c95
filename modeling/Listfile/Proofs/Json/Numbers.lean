import Listfile.Proofs.Json.Doubles
import Listfile.Proofs.Json.Within
/-! # Reading back numbers

What is written for an integer that fits is read as that integer. What is written for a double, unless it is infinite or
a NaN, is read as a double, though it need not be the same one. All numbers that are read are of these.
-/
namespace Listfile.Json
set_option autoImplicit false

open Double (Within largest)

variable (negative : Bool) {significand : Nat} {rest : List Char}

/-! ## Doubles -/

/-- A number starts with a digit, so that it is not taken for anything else. -/
theorem head_of_readNumber {text : List Char} {result : Number × List Char}
    (h : readNumber negative text = .ok result) : ∃ c others, text = c :: others ∧ isDigit c = true := by
  cases text with
  | nil => cases h
  | cons c others =>
    refine ⟨c, others, rfl, ?_⟩
    by_contra hDigit
    rw [readNumber] at h
    simp only [hDigit, Bool.false_eq_true, not_false_iff, if_true] at h
    cases h

theorem readsDouble_zero : ReadsDouble negative ['0', '.', '0'] := by
  refine readsDouble_point negative leads_zero (List.cons_ne_nil _ _) isDigit_of_mem_zero ?_
  unfold Fits
  decide

/-- Reads a number with its sign. -/
def readSigned : List Char → Except ReadError (Number × List Char)
  | '-' :: rest => readNumber true rest
  | text => readNumber false text

/-- The double that is read for what is written for a double. -/
def rereadDouble (x : Float) : Float :=
  match readSigned (Number.doubleText x).toList with
  | .ok (.double y, _) => y
  | _ => x

theorem doubleText_eq {x : Float} (h : Within largest x) : ∃ negative text,
    (Number.doubleText x).toList = (if negative then '-' :: text else text) ∧ ReadsDouble negative text := by
  have hSign : ∃ negative : Bool, (if x.toBits.toNat < 0x8000000000000000 then "" else "-").toList =
      if negative then ['-'] else [] := by
    split
    · exact ⟨false, String.toList_empty⟩
    · exact ⟨true, by decide +kernel⟩
  obtain ⟨negative, hSign⟩ := hSign
  have hText (text : List Char) :
      (if negative then ['-'] else []) ++ text = if negative then '-' :: text else text := by
    cases negative <;> rfl
  unfold Number.doubleText
  simp only
  split
  · refine ⟨negative, "0.0".toList, ?_, ?_⟩
    · rw [String.toList_append, hSign, hText]
    · have hZero : "0.0".toList = ['0', '.', '0'] := by decide +kernel
      rw [hZero]
      exact readsDouble_zero negative
  · rename_i hNe
    refine ⟨negative, (Number.decimalText (Decimal.shortest (.ofFloat x.abs))).toList, ?_, ?_⟩
    · rw [String.toList_append, hSign, hText]
    · exact readsDouble_decimalText negative (Double.inRange_shortest h (le_refl _) hNe)

/-- What is written for a double is a sign, if there is one, and a text that is read as one double. -/
theorem readNumber_doubleText {x : Float} (h : Within largest x) : ∃ negative text,
    (Number.doubleText x).toList = (if negative then '-' :: text else text) ∧
    ∀ rest, Delimited rest → readNumber negative (text ++ rest) = .ok (.double (rereadDouble x), rest) := by
  obtain ⟨negative, text, hText, y, hRead⟩ := doubleText_eq h
  have hAlone : readNumber negative text = .ok (.double y, []) := by
    have hNothing : Delimited [] := fun _ hMem => by cases hMem
    simpa using hRead [] hNothing
  have hReread : rereadDouble x = y := by
    have hSigned : readSigned (Number.doubleText x).toList = .ok (.double y, []) := by
      rw [hText]
      cases negative with
      | true => exact hAlone
      | false =>
        obtain ⟨c, others, rfl, hDigit⟩ := head_of_readNumber false hAlone
        rw [if_neg Bool.false_ne_true]
        unfold readSigned
        split
        · rename_i hSign
          exact absurd (List.cons.inj hSign).1 (ne_of_isDigit hDigit (by decide))
        · exact hAlone
    rw [rereadDouble, hSigned]
  rw [hReread]
  exact ⟨negative, text, hText, hRead⟩

/-! ## Numbers that are read -/

/-- Whether a number is one that is read when it is written: an integer from `-2 ^ 63` to `2 ^ 64 - 1`, or a double that
is neither infinite nor a NaN. -/
def Number.Writable : Number → Prop
  | .integer value => -0x8000000000000000 ≤ value ∧ value < 0x10000000000000000
  | .double x => Within largest x

theorem within_zero : Within largest (if negative then -0.0 else 0.0) := by
  have hUnpack : (0.0 : Float).toModel.unpack = .zero .positive := rfl
  have hZero : Within largest 0.0 := by
    rw [Within, hUnpack]
    exact .zero _
  split
  · exact Double.within_neg hZero (le_refl _)
  · exact hZero

theorem fits_of_extend {text : List Char} {start taken : Nat} (hStart : Fits start)
    (h : extend start text = (significand, taken, rest)) : Fits significand := by
  induction text generalizing start taken with
  | nil =>
    cases h
    exact hStart
  | cons c text ih =>
    rw [extend] at h
    split at h
    · rename_i hDigit
      cases h
      exact ih hDigit.2 rfl
    · cases h
      exact hStart

section read

variable {exponent : Int} {text : List Char} {x : Float} (hFits : Fits significand)

include hFits

theorem within_natural : Within largest (Float.ofNat significand) := by
  refine Double.within_ofNat Double.representable_largest (Int.le_refl _) (Double.natCast_le_largest ?_)
  exact Nat.le_trans (Nat.le_of_lt hFits) (by decide +kernel)

theorem within_of_ofParts (h : ofParts negative significand exponent = .ok x) : Within largest x := by
  unfold ofParts at h
  split at h
  · rename_i y hScale
    have hScaled := Double.within_scale (within_natural hFits) hScale
    cases h
    split
    · exact Double.within_neg hScaled (le_refl _)
    · exact hScaled
  · cases h

theorem within_of_readExponent (h : readExponent negative significand exponent text = .ok (x, rest)) :
    Within largest x := by
  unfold readExponent at h
  split at h
  split at h
  · cases h
  · split at h
    · simp only at h
      split at h
      · split at h
        · cases h
        · cases h
          exact within_zero negative
      · split at h
        · rename_i hParts
          cases h
          exact within_of_ofParts negative hFits hParts
        · cases h
    · cases h

theorem within_of_finishNumber (h : finishNumber negative significand exponent text = .ok (x, rest)) :
    Within largest x := by
  unfold finishNumber at h
  split at h
  · exact within_of_readExponent negative hFits h
  · exact within_of_readExponent negative hFits h
  · split at h
    · rename_i y hParts
      cases h
      exact within_of_ofParts negative hFits hParts
    · cases h

theorem within_of_readFraction (h : readFraction negative significand exponent text = .ok (x, rest)) :
    Within largest x := by
  unfold readFraction at h
  split at h
  rename_i significand' taken rest' hExtend
  have hFits' := fits_of_extend hFits hExtend
  split at h
  · exact within_of_finishNumber negative hFits' h
  · split at h
    · split at h <;> cases h
    · exact within_of_finishNumber negative hFits' h

theorem writable_ofInteger : (ofInteger negative significand).Writable := by
  unfold Fits at hFits
  unfold ofInteger
  split
  · split
    · exact Double.within_neg (within_natural hFits) (le_refl _)
    · exact ⟨by omega, by omega⟩
  · exact ⟨by omega, by omega⟩

end read

theorem writable_of_map {result : Except ReadError (Float × List Char)} {number : Number}
    (hResult : ∀ x rest, result = .ok (x, rest) → Within largest x)
    (h : (result.map fun read => (Number.double read.1, read.2)) = .ok (number, rest)) : number.Writable := by
  cases result with
  | error => cases h
  | ok read =>
    cases h
    exact hResult read.1 read.2 rfl

/-- Every number that is read can be written so that it is read again. -/
theorem writable_of_readNumber {text : List Char} {number : Number}
    (h : readNumber negative text = .ok (number, rest)) : number.Writable := by
  unfold readNumber at h
  split at h
  · cases h
  · split at h
    · cases h
    · split at h
      · cases h
      · rename_i first afterFirst _ _
        have hFits : Fits (extend 0 (first :: afterFirst)).1 := fits_of_extend (by unfold Fits; decide) rfl
        simp only at h
        split at h
        · exact writable_of_map (fun _ _ h => within_of_readFraction negative hFits h) h
        · exact writable_of_map (fun _ _ h => within_of_readExponent negative hFits h) h
        · exact writable_of_map (fun _ _ h => within_of_readExponent negative hFits h) h
        · split at h
          · obtain ⟨rfl, -⟩ := Prod.mk.inj (Except.ok.inj h)
            exact writable_ofInteger negative hFits
          · exact writable_of_map (fun _ _ h => within_of_finishNumber negative hFits h) h

/-! ## Numbers that are written -/

theorem integerText_nonneg {value : Int} (h : 0 ≤ value) :
    (Number.integerText value).toList = Nat.toDigits 10 value.natAbs := by
  simp only [Number.integerText, if_neg (Int.not_lt.mpr h), String.toList_ofList]

theorem integerText_neg {value : Int} (h : value < 0) :
    (Number.integerText value).toList = '-' :: Nat.toDigits 10 value.natAbs := by
  simp only [Number.integerText, if_pos h, String.toList_ofList]

theorem fits_natAbs {value : Int} (hLow : -0x8000000000000000 ≤ value) (hHigh : value < 0x10000000000000000) :
    Fits value.natAbs := by
  unfold Fits
  omega

theorem ofInteger_of_nonneg {value : Int} (h : 0 ≤ value) : ofInteger false value.natAbs = .integer value := by
  rw [ofInteger, if_neg (by decide), Int.natAbs_of_nonneg h]

theorem ofInteger_of_neg {value : Int} (h : value < 0) (hLow : -0x8000000000000000 ≤ value) :
    ofInteger true value.natAbs = .integer value := by
  have hAbs : -(value.natAbs : Int) = value := by omega
  rw [ofInteger, if_pos rfl, if_neg (by omega), hAbs]

/-- The number that is read for what is written for a number. -/
def Number.reread : Number → Number
  | .integer value => .integer value
  | .double x => .double (rereadDouble x)

/-- What is written for a number is a sign, if there is one, and a text that is read as one number. -/
theorem readNumber_text {number : Number} (h : number.Writable) : ∃ negative text,
    number.text.toList = (if negative then '-' :: text else text) ∧
    ∀ rest, Delimited rest → readNumber negative (text ++ rest) = .ok (number.reread, rest) := by
  cases number with
  | double x => exact readNumber_doubleText h
  | integer value =>
    obtain ⟨hLow, hHigh⟩ := h
    refine ⟨decide (value < 0), Nat.toDigits 10 value.natAbs, ?_, fun rest hRest => ?_⟩
    · rcases Int.lt_or_le value 0 with hNeg | hNonneg
      · rw [Number.text, integerText_neg hNeg, if_pos (decide_eq_true hNeg)]
      · rw [Number.text, integerText_nonneg hNonneg, if_neg (by simpa using hNonneg)]
    · rw [readNumber_toDigits _ (fits_natAbs hLow hHigh) hRest]
      rcases Int.lt_or_le value 0 with hNeg | hNonneg
      · rw [decide_eq_true hNeg, ofInteger_of_neg hNeg hLow]
        rfl
      · rw [decide_eq_false (Int.not_lt.mpr hNonneg), ofInteger_of_nonneg hNonneg]
        rfl

/-! ## Values -/

/-- Whether a value is not a number that cannot be written. -/
def Writable : Json → Prop
  | number value => value.Writable
  | _ => True

mutual

/-- The value that is read for what is written for a value. -/
def reread : Json → Json
  | number value => number value.reread
  | array elements => array (rereadElements elements)
  | object members => object (rereadMembers members)
  | value => value

def rereadElements : List Json → List Json
  | [] => []
  | element :: rest => element.reread :: rereadElements rest

def rereadMembers : List (String × Json) → List (String × Json)
  | [] => []
  | (name, value) :: rest => (name, value.reread) :: rereadMembers rest

end

mutual

theorem reread_of_plain (value : Json) (h : value.Everywhere Plain) : value.reread = value := by
  match value with
  | null | bool _ | string _ => rfl
  | number (.integer _) => rfl
  | number (.double _) => exact absurd h.self id
  | array elements => rw [reread, rereadElements_of_plain elements fun _ hElement => h.element hElement]
  | object members => rw [reread, rereadMembers_of_plain members fun _ hMember => h.member hMember]

theorem rereadElements_of_plain (elements : List Json) (h : ∀ element ∈ elements, element.Everywhere Plain) :
    rereadElements elements = elements := by
  match elements with
  | [] => rfl
  | element :: rest =>
    obtain ⟨hFirst, hRest⟩ := List.forall_mem_cons.mp h
    rw [rereadElements, reread_of_plain element hFirst, rereadElements_of_plain rest hRest]

theorem rereadMembers_of_plain (members : List (String × Json)) (h : ∀ member ∈ members, member.2.Everywhere Plain) :
    rereadMembers members = members := by
  match members with
  | [] => rfl
  | (name, value) :: rest =>
    obtain ⟨hFirst, hRest⟩ := List.forall_mem_cons.mp h
    have hValue : value.reread = value := reread_of_plain value hFirst
    rw [rereadMembers, hValue, rereadMembers_of_plain rest hRest]

end

end Listfile.Json
