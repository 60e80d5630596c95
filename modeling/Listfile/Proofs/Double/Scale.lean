import Listfile.Json.Text
import Listfile.Proofs.Double.Bounds
/-! # Scaling by powers of ten

A significand is scaled to a double in steps, each of which is rounded. What comes out is a number, and for all decimals
that round to a double other than the largest there is a result.
-/
namespace Listfile.Double
set_option autoImplicit false

open Float.Model (UnpackedFloat)
open Float.Model.UnpackedFloat
open Json (powerOfTen scale)

variable {n : Nat} {x y : Float}

/-! ## Powers of ten -/

/-- Whether what is stored is a natural number without error. -/
def Holds (n : Nat) : UnpackedFloat → Bool
  | .finite _ m e _ => 2 ^ 52 ≤ m ∧ m < 2 ^ 53 ∧ -52 ≤ e ∧ m * 2 ^ (e + 52).toNat = n * 2 ^ 52
  | _ => false

theorem holds_powerOfTen : ∀ n ≤ 22, Holds (10 ^ n) (powerOfTen n).toModel.unpack = true := by decide +kernel

theorem rounds_of_holds {u : UnpackedFloat} (h : Holds n u = true) : Rounds n u := by
  cases u with
  | finite sign m e hPos =>
    obtain ⟨hLeading, hLt, hLeast, hEq⟩ := of_decide_eq_true h
    have hValue : value m e = n := by
      have hExponent : e = -52 + ((e + 52).toNat : Int) := by omega
      rw [hExponent, value_add, hEq, ← value_add, value]
      simp
    refine .finite sign hPos ⟨⟨hLt, by omega⟩, .inl hLeading⟩ ?_ ?_ <;>
    · rw [hValue]
      exact fun _ _ _ h => h
  | _ => cases h

theorem value_natCast (m k : Nat) : value m k = (m * 2 ^ k : Nat) := by
  rw [value, zpow_natCast]
  push_cast
  rfl

theorem natCast_le_largest (h : n ≤ (2 ^ 53 - 1) * 2 ^ 971) : n ≤ largest := by
  have hLargest : largest = ((2 ^ 53 - 1) * 2 ^ 971 : Nat) := value_natCast (2 ^ 53 - 1) 971
  rw [hLargest]
  exact Nat.cast_le.mpr h

theorem rounds_powerOfTen (h : n ≤ 308) : Rounds (10 ^ n : Nat) (powerOfTen n).toModel.unpack := by
  rcases Nat.lt_or_ge 22 n with hLarge | hSmall
  · have hEq : powerOfTen n = .ofModel (.ofScientific 1 n) := by
      rw [powerOfTen, Float.ofScientific, dif_neg (by omega)]
      rfl
    have hRounds := rounds_ofScientific (m := 1) (n := n) (by decide) (by omega)
    rw [Nat.one_mul] at hRounds
    rw [hEq]
    refine hRounds.unpack_pack (natCast_le_largest ((Nat.pow_le_pow_right (by decide) h).trans ?_))
    decide +kernel
  · exact rounds_of_holds (holds_powerOfTen n hSmall)

theorem within_powerOfTen (h : n ≤ 308) {limit : Nat} {place : Int} (hLimit : Representable limit place)
    (hn : (10 ^ n : Nat) ≤ value limit place) : Within (value limit place) (powerOfTen n) :=
  (rounds_powerOfTen h).bounded hLimit hn

theorem one_le_powerOfTen (h : n ≤ 308) :
    ∃ sign m e hPos, (powerOfTen n).toModel.unpack = .finite sign m e hPos ∧ 1 ≤ value m e := by
  have hRounds := rounds_powerOfTen h
  have hOne : Representable 1 0 := ⟨by decide, by decide⟩
  have hLe : value 1 0 ≤ (10 ^ n : Nat) := by
    rw [value, zpow_zero, mul_one]
    exact Nat.cast_le.mpr (Nat.pow_pos (by decide))
  generalize (powerOfTen n).toModel.unpack = power at hRounds
  cases hRounds with
  | zero sign hGe => cases hGe 1 0 hOne hLe
  | @finite sign m e hPos hForm hLe' hGe =>
    refine ⟨sign, m, e, hPos, rfl, le_trans ?_ (hGe 1 0 hOne hLe)⟩
    rw [value, zpow_zero, mul_one, Nat.cast_one]

/-! ## Scaling -/

theorem representable_largest : Representable (2 ^ 53 - 1) 971 := ⟨by decide, by decide⟩

theorem within_div_powerOfTen (h : n ≤ 308) (hx : Within largest x) : Within largest (x / powerOfTen n) := by
  obtain ⟨sign, m, e, hPos, hUnpack, hOne⟩ := one_le_powerOfTen h
  exact within_div hx representable_largest (Int.le_refl _) hUnpack hOne

/-- What a number is scaled to is a number. -/
theorem within_scale {exponent : Int} (hx : Within largest x) (h : scale x exponent = some y) : Within largest y := by
  fun_induction scale x exponent with
  | case1 => cases h
  | case2 x exponent hSmall hUp scaled hInf =>
    rw [← Option.some.inj h]
    have hPower := within_powerOfTen hSmall representable_largest
      (natCast_le_largest ((Nat.pow_le_pow_right (by decide) hSmall).trans (by decide +kernel)))
    exact within_mul_of_isInf_eq_false hx hPower (Bool.eq_false_iff.mpr hInf)
  | case3 x exponent hSmall hDown =>
    cases h
    exact within_div_powerOfTen hSmall hx
  | case4 =>
    cases h
    exact hx
  | case5 => cases h
  | case6 x exponent hLarge hNe hDown ih => exact ih (within_div_powerOfTen (by decide) hx) h

/-- What is scaled down does not get too large. -/
theorem scale_of_neg {exponent : Int} (h : exponent < 0) : ∃ y, scale x exponent = some y := by
  fun_induction scale x exponent with
  | case1 | case2 | case5 => omega
  | case3 | case4 => exact ⟨_, rfl⟩
  | case6 x exponent hLarge hNe hDown ih => exact ih (by omega)

/-! ## Decimals in range -/

/-- The decimal exponent of the last bit that a double of the size of `n` has, and the least such mantissa that is not
below `n`. -/
def ceilPlace (n : Nat) : Nat := n.log2 - 52

def ceilMantissa (n : Nat) : Nat := (n + (2 ^ ceilPlace n - 1)) / 2 ^ ceilPlace n

theorem natCast_le_value_ceil (n : Nat) : n ≤ value (ceilMantissa n) (ceilPlace n) := by
  have hPos : 0 < 2 ^ ceilPlace n := Nat.two_pow_pos _
  have hLt := Nat.lt_div_mul_add hPos (a := n + (2 ^ ceilPlace n - 1))
  rw [value_natCast, Nat.cast_le, ceilMantissa]
  omega

/-- A number above all that round to a double other than the largest, `(2 ^ 54 - 3) · 2 ^ 970`. -/
def upperLimit : Nat := (2 ^ 54 - 3) * 2 ^ 970

/-- The largest significand of seventeen digits that is written with an exponent. -/
def significandLimit (exponent : Nat) : Nat := min (upperLimit / 10 ^ exponent) (10 ^ 17)

/-- A product of these doubles is not above the largest one, even where both had to be rounded up. -/
theorem product_le_largest : ∀ exponent ≤ 308, 290 < exponent →
    ceilMantissa (significandLimit exponent) < 2 ^ 53 ∧ ceilPlace (significandLimit exponent) ≤ 971 ∧
    ceilMantissa (10 ^ exponent) < 2 ^ 53 ∧
    ceilMantissa (significandLimit exponent) * 2 ^ ceilPlace (significandLimit exponent) *
      (ceilMantissa (10 ^ exponent) * 2 ^ ceilPlace (10 ^ exponent)) ≤ (2 ^ 53 - 1) * 2 ^ 971 := by
  decide +kernel

theorem not_isInf_of_within {bound : ℚ} (h : Within bound x) : ¬x.isInf = true := by
  rw [Within] at h
  change ¬x.toModel.unpack.isInf = true
  generalize x.toModel.unpack = u at h
  cases h <;> exact Bool.false_ne_true

theorem within_mul_powerOfTen {digits exponent : Nat} (hExponent : exponent ≤ 308) (hDigits : digits ≤ 10 ^ 17)
    (h : digits * 10 ^ exponent ≤ upperLimit) : Within largest (Float.ofNat digits * powerOfTen exponent) := by
  rcases Nat.lt_or_ge 290 exponent with hLarge | hSmall
  · obtain ⟨hMantissa, hPlace, hPower, hProduct⟩ := product_le_largest exponent hExponent hLarge
    have hLe : digits ≤ significandLimit exponent :=
      Nat.le_min.mpr ⟨(Nat.le_div_iff_mul_le (Nat.pow_pos (by decide))).mpr h, hDigits⟩
    have hSignificand := within_ofNat (n := digits) ⟨hMantissa, by omega⟩ (Int.ofNat_le.mpr hPlace)
      ((Nat.cast_le.mpr hLe).trans (natCast_le_value_ceil _))
    refine within_mul hSignificand (within_powerOfTen hExponent ⟨hPower, by omega⟩ (natCast_le_value_ceil _))
      representable_largest (Int.le_refl _) ?_
    rw [value_natCast, value_natCast, ← Nat.cast_mul]
    exact natCast_le_largest hProduct
  · -- Far below the largest double the powers of two above both will do.
    have hSignificand : Within (value 1 (57 : Nat)) (Float.ofNat digits) := by
      refine within_ofNat ⟨by decide, by decide⟩ (by decide) ?_
      rw [value_natCast, Nat.cast_le]
      exact hDigits.trans (by decide)
    have hPower : Within (value 1 (964 : Nat)) (powerOfTen exponent) := by
      refine within_powerOfTen hExponent ⟨by decide, by decide⟩ ?_
      rw [value_natCast, Nat.cast_le]
      exact (Nat.pow_le_pow_right (by decide) hSmall).trans (by decide +kernel)
    refine within_mul hSignificand hPower representable_largest (Int.le_refl _) ?_
    rw [value_natCast, value_natCast, ← Nat.cast_mul]
    exact natCast_le_largest (by decide +kernel)

theorem upperLimit_lt_pow {exponent : Nat} (h : 308 < exponent) : upperLimit < 10 ^ exponent := by
  obtain ⟨more, rfl⟩ := Nat.exists_eq_add_of_lt h
  calc upperLimit < 10 ^ 308 * 10 := by decide +kernel
    _ ≤ 10 ^ 308 * 10 ^ (more + 1) := Nat.mul_le_mul_left _ (Nat.le_self_pow (by omega) 10)
    _ = 10 ^ (308 + more + 1) := by rw [← Nat.pow_add, Nat.add_assoc]

/-- A decimal that rounds to a double is read, however it is scaled. -/
theorem scale_ofNat {digits exponent : Nat} (hDigits : digits ≤ 10 ^ 17) (h : digits * 10 ^ exponent ≤ upperLimit) :
    ∃ y, scale (Float.ofNat digits) exponent = some y := by
  rw [scale, Int.natAbs_natCast]
  rcases Nat.lt_or_ge 308 exponent with hLarge | hSmall
  · have hLimit := upperLimit_lt_pow hLarge
    obtain rfl : digits = 0 := by
      rcases Nat.eq_zero_or_pos digits with hZero | hPos
      · exact hZero
      · exact absurd h (Nat.not_le.mpr (hLimit.trans_le (Nat.le_mul_of_pos_left _ hPos)))
    have hZero : (Float.ofNat 0 == 0.0) = true := by decide +kernel
    rw [if_neg (by omega), if_pos hZero]
    exact ⟨_, rfl⟩
  · rw [if_pos hSmall, if_pos (Int.natCast_nonneg exponent)]
    simp only [if_neg (not_isInf_of_within (within_mul_powerOfTen hSmall hDigits h))]
    exact ⟨_, rfl⟩

end Listfile.Double
