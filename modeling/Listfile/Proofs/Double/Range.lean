import Listfile.Proofs.Decimal.Shortest
import Listfile.Proofs.Double.Scale
/-! # Decimals of doubles -/
namespace Listfile.Double
set_option autoImplicit false

open Float.Model (Format UnpackedFloat)
open Float.Model.UnpackedFloat
open Decimal (BinaryFraction)

variable {x : Float}

theorem toNat_unpackExponent (b : BitVec (Format.numBits .binary64)) :
    (unpackExponent b).toNat = b.toNat / 2 ^ 52 % 2 ^ 11 := by
  rw [unpackExponent, BitVec.toNat_cast, BitVec.extractLsb_toNat, Nat.shiftRight_eq_div_pow]
  rfl

/-- The exponent of a number is not the one that is kept for infinities. -/
theorem field_lt_of_within {bound : ℚ} (h : Within bound x) : x.toBits.toNat / 2 ^ 52 % 2 ^ 11 < 2047 := by
  have hField := toNat_unpackExponent x.toModel.toBits.toBitVec
  have hNe : @unpackExponent .binary64 x.toModel.toBits.toBitVec ≠ -1#11 := by
    intro hOnes
    change Bounded bound (unpack .binary64 x.toModel.toBits.toBitVec) at h
    rw [unpack_ones hOnes] at h
    split at h <;> cases h
  have hNeOnes : (@unpackExponent .binary64 x.toModel.toBits.toBitVec).toNat ≠ 2047 :=
    fun hEq => hNe (BitVec.eq_of_toNat_eq hEq)
  rw [hField] at hNeOnes
  have hLt : x.toBits.toNat / 2 ^ 52 % 2 ^ 11 < 2 ^ 11 := Nat.mod_lt _ (by decide)
  have hNeOnes : x.toBits.toNat / 2 ^ 52 % 2 ^ 11 ≠ 2047 := hNeOnes
  omega

theorem ofFloat_of_within {bound : ℚ} (h : Within bound x) :
    (BinaryFraction.ofFloat x).mantissa < 2 ^ 53 ∧ (BinaryFraction.ofFloat x).exponent ≤ 971 := by
  have hField := field_lt_of_within h
  unfold BinaryFraction.ofFloat Decimal.hiddenBit
  simp only
  split
  · constructor
    · simp only
      omega
    · simp only
      omega
  · constructor
    · simp only
      omega
    · simp only
      omega

theorem toNat_unpackMantissa (b : BitVec (Format.numBits .binary64)) :
    (unpackMantissa b).toNat = b.toNat % 2 ^ 52 := by
  rw [unpackMantissa, BitVec.toNat_cast, BitVec.extractLsb_toNat, Nat.shiftRight_zero]
  rfl

/-- Only zeros are stored with no bits other than the sign. -/
theorem unpack_of_mantissa_eq_zero (h : (BinaryFraction.ofFloat x).mantissa = 0) :
    ∃ sign, x.toModel.unpack = .zero sign := by
  have hFields : x.toBits.toNat / 2 ^ 52 % 2 ^ 11 = 0 ∧ x.toBits.toNat % 2 ^ 52 = 0 := by
    unfold BinaryFraction.ofFloat Decimal.hiddenBit at h
    simp only at h
    split at h
    · rename_i hField
      exact ⟨hField, h⟩
    · exact absurd h (by simp)
  have hExponent : @unpackExponent .binary64 x.toModel.toBits.toBitVec = 0#11 :=
    BitVec.eq_of_toNat_eq ((toNat_unpackExponent _).trans hFields.1)
  have hMantissa : @unpackMantissa .binary64 x.toModel.toBits.toBitVec = 0#52 :=
    BitVec.eq_of_toNat_eq ((toNat_unpackMantissa _).trans hFields.2)
  exact ⟨_, unpack_zero hExponent hMantissa⟩

theorem beq_zero_of_unpack {sign : Sign} (h : x.toModel.unpack = .zero sign) : (x == 0.0) = true := by
  change x.toModel.unpack.beq (0.0 : Float).toModel.unpack = true
  rw [h]
  cases sign <;> decide +kernel

theorem mantissa_abs_pos {bound : ℚ} (h : Within bound x) (hBound : bound ≤ largest) (hNe : ¬(x == 0.0) = true) :
    0 < (BinaryFraction.ofFloat x.abs).mantissa := by
  rcases Nat.eq_zero_or_pos (BinaryFraction.ofFloat x.abs).mantissa with hZero | hPos
  · exfalso
    obtain ⟨sign, hUnpack⟩ := unpack_of_mantissa_eq_zero hZero
    rw [unpack_abs] at hUnpack
    rw [Within] at h
    generalize hx : x.toModel.unpack = u at h hUnpack
    cases h with
    | zero => exact hNe (beq_zero_of_unpack hx)
    | finite _ hPos hForm hLe =>
      obtain ⟨sign', hFinite⟩ := unpack_pack .positive hForm (hForm.exponent_le (hLe.trans hBound)) hPos
      change (Float.Model.pack (.finite .positive _ _ hPos)).unpack = _ at hUnpack
      rw [hFinite] at hUnpack
      cases hUnpack
  · exact hPos

/-! ## Shortest decimals of numbers -/

/-- The shortest decimal of the largest double. -/
def largestDecimal : Decimal := ⟨17976931348623157, 292⟩

theorem shortest_largest (narrow : Bool) : Decimal.shortest ⟨2 ^ 53 - 1, 971, narrow⟩ = largestDecimal := by
  cases narrow <;> decide +kernel

/-- The upper end of what rounds to a double other than the largest. -/
theorem high_le_upperLimit {f : BinaryFraction} (hMantissa : f.mantissa < 2 ^ 53) (hExponent : f.exponent ≤ 971)
    (hNe : f.mantissa < 2 ^ 53 - 1 ∨ f.exponent < 971) :
    f.interval.high * f.interval.unit ≤ upperLimit * f.interval.divisor := by
  change (4 * f.mantissa + 2) * 2 ^ (f.exponent - 2).toNat ≤ upperLimit * 2 ^ (2 - f.exponent).toNat
  rcases Int.lt_or_le 2 f.exponent with hLarge | hSmall
  · have hNone : (2 - f.exponent).toNat = 0 := by omega
    rw [hNone, Nat.pow_zero, Nat.mul_one]
    rcases Int.lt_or_le f.exponent 971 with hLt | hGe
    · calc (4 * f.mantissa + 2) * 2 ^ (f.exponent - 2).toNat ≤ 2 ^ 55 * 2 ^ 968 :=
            Nat.mul_le_mul (by omega) (Nat.pow_le_pow_right (by decide) (by omega))
        _ ≤ upperLimit := by decide +kernel
    · have hPlace : (f.exponent - 2).toNat = 969 := by omega
      rw [hPlace]
      calc (4 * f.mantissa + 2) * 2 ^ 969 ≤ (2 ^ 55 - 6) * 2 ^ 969 := Nat.mul_le_mul_right _ (by omega)
        _ ≤ upperLimit := by decide +kernel
  · have hNone : (f.exponent - 2).toNat = 0 := by omega
    rw [hNone, Nat.pow_zero, Nat.mul_one]
    calc 4 * f.mantissa + 2 ≤ 2 ^ 55 := by omega
      _ ≤ upperLimit := by decide +kernel
      _ ≤ upperLimit * 2 ^ (2 - f.exponent).toNat := Nat.le_mul_of_pos_right _ (Nat.two_pow_pos _)

/-- Whether a positive decimal has few enough digits to be read exactly, and rounds to a double. -/
structure InRange (d : Decimal) : Prop where
  pos : 0 < d.digits
  le : d.digits ≤ 10 ^ 17
  atMost : d.AtMost upperLimit ∨ d = largestDecimal

theorem inRange_shortest {bound : ℚ} (h : Within bound x) (hBound : bound ≤ largest) (hNe : ¬(x == 0.0) = true) :
    InRange (Decimal.shortest (.ofFloat x.abs)) := by
  obtain ⟨hMantissa, hExponent⟩ := ofFloat_of_within (within_abs h hBound)
  have hPos := mantissa_abs_pos h hBound hNe
  generalize BinaryFraction.ofFloat x.abs = f at hMantissa hExponent hPos
  refine ⟨Decimal.digits_shortest_pos f hPos, Decimal.digits_shortest_le f (by omega), ?_⟩
  by_cases hNe : f.mantissa < 2 ^ 53 - 1 ∨ f.exponent < 971
  · have hLimit : f.mantissa ≤ upperLimit := by
      calc f.mantissa ≤ 2 ^ 55 := by omega
        _ ≤ upperLimit := by decide +kernel
    exact .inl (Decimal.atMost_shortest f hLimit (high_le_upperLimit hMantissa hExponent hNe))
  · obtain ⟨hLast, hPlace⟩ : f.mantissa = 2 ^ 53 - 1 ∧ f.exponent = 971 := by omega
    obtain ⟨mantissa, exponent, narrow⟩ := f
    cases hLast
    cases hPlace
    exact .inr (shortest_largest narrow)

theorem InRange.exponent_le {d : Decimal} (h : InRange d) : d.exponent ≤ 308 := by
  rcases Int.lt_or_le 308 d.exponent with hLarge | hSmall
  · exfalso
    have hLimit : upperLimit < 10 ^ d.exponent.toNat := upperLimit_lt_pow (by omega)
    have hDigits : 10 ^ d.exponent.toNat ≤ d.digits * 10 ^ d.exponent.toNat := Nat.le_mul_of_pos_left _ h.pos
    rcases h.atMost with hAtMost | rfl
    · exact Nat.not_le.mpr hLimit (hDigits.trans (hAtMost.le (by omega)))
    · exact absurd hLarge (by decide)
  · exact hSmall

theorem InRange.scale {d : Decimal} (h : InRange d) : ∃ y, Json.scale (Float.ofNat d.digits) d.exponent = some y := by
  obtain ⟨-, hDigits, hAtMost | rfl⟩ := h
  · rcases Int.lt_or_le d.exponent 0 with hNeg | hNonneg
    · exact scale_of_neg hNeg
    · have hScale := scale_ofNat hDigits (hAtMost.le hNonneg)
      rwa [Int.toNat_of_nonneg hNonneg] at hScale
  · have hInf : (Float.ofNat 17976931348623157 * Json.powerOfTen 292).isInf = false := by decide +kernel
    refine ⟨Float.ofNat 17976931348623157 * Json.powerOfTen 292, ?_⟩
    rw [Json.scale, if_pos (by decide), if_pos (by decide)]
    exact if_neg (Bool.eq_false_iff.mp hInf)

end Listfile.Double
