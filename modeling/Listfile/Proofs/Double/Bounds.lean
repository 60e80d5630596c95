import Mathlib.Algebra.Order.Field.Basic
import Listfile.Proofs.Double.Rounding
/-! # Bounds of doubles

The doubles that are numbers, with a bound of their size. A sum of the rules for rounding: the product of two doubles is
not above a double that the product of their bounds does not pass, and so for quotients and natural numbers.
-/
namespace Listfile.Double
set_option autoImplicit false

open Float.Model (Format UnpackedFloat)
open Float.Model.UnpackedFloat

/-- The size of the largest double, `(2 ^ 53 - 1) · 2 ^ 971`. -/
def largest : ℚ := value (2 ^ 53 - 1) 971

inductive Bounded (bound : ℚ) : UnpackedFloat → Prop
  | zero (sign : Sign) : Bounded bound (.zero sign)
  | finite (sign : Sign) {mantissa : Nat} {exponent : Int} (hPos : 0 < mantissa) (form : Normalized mantissa exponent)
    (le : value mantissa exponent ≤ bound) : Bounded bound (.finite sign mantissa exponent hPos)

/-- Whether a double is a number of at most the given size. -/
def Within (bound : ℚ) (x : Float) : Prop := Bounded bound x.toModel.unpack

variable {m n : Nat} {e : Int} {bound : ℚ}

/-! ## The largest double -/

theorem value_le_largest {m : Nat} {e : Int} (hm : m < 2 ^ 53) (he : e ≤ 971) : value m e ≤ largest := by
  have hEq : (971 : Int) = e + (971 - e).toNat := by omega
  have hPos : 0 < 2 ^ (971 - e).toNat := Nat.two_pow_pos _
  rw [largest, hEq, value_add, value_le_value]
  exact (by omega : m ≤ 2 ^ 53 - 1).trans (Nat.le_mul_of_pos_right _ hPos)

theorem Normalized.exponent_le (h : Normalized m e) (hValue : value m e ≤ largest) : e ≤ 971 := by
  rcases h.leading with hLeading | hLeast
  · have hLow : value 1 (e + (52 : Nat)) ≤ value m e := by
      rw [value_add, Nat.one_mul, value_le_value]
      exact hLeading
    have hHigh : largest < value 1 ((971 : Int) + (53 : Nat)) := by
      rw [value_add, largest, value_lt_value]
      decide
    have := (value_one_lt_value_one.mp ((hLow.trans hValue).trans_lt hHigh))
    omega
  · omega

/-! ## Stored forms -/

/-- The hidden bit of a mantissa of 53 bits is put back. -/
theorem toNat_append (hLow : 2 ^ 52 ≤ m) (hHigh : m < 2 ^ 53) : (1#1 ++ BitVec.ofNat 52 m).toNat = m := by
  have hAdd := Nat.two_pow_add_eq_or_of_lt (BitVec.ofNat 52 m).isLt 1
  rw [BitVec.toNat_append, Nat.shiftLeft_eq, BitVec.toNat_ofNat 1 1, Nat.mul_comm, ← hAdd, BitVec.toNat_ofNat]
  omega

section fields

variable {b : BitVec (Format.numBits .binary64)}

theorem unpack_normal (hOnes : (unpackExponent b).toNat ≠ 2047) (hZero : (unpackExponent b).toNat ≠ 0)
    (hMantissa : (1#1 ++ unpackMantissa b).toNat = m) (hExponent : ((unpackExponent b).toNat : Int) - 1075 = e)
    (hPos : 0 < m) : unpack .binary64 b = .finite (Sign.ofBitVec (unpackSign b)) m e hPos := by
  have hNeOnes : unpackExponent b ≠ -1#11 := fun hEq => hOnes (congrArg BitVec.toNat hEq)
  have hNeZero : unpackExponent b ≠ 0#11 := fun hEq => hZero (congrArg BitVec.toNat hEq)
  subst hMantissa hExponent
  exact (if_neg hNeOnes).trans (if_neg hNeZero)

theorem unpack_ones (hOnes : unpackExponent b = -1#11) : unpack .binary64 b =
    if unpackMantissa b = 0#52 then .infinity (Sign.ofBitVec (unpackSign b)) else .notANumber := if_pos hOnes

theorem unpack_zero (hExponent : unpackExponent b = 0#11) (hMantissa : unpackMantissa b = 0#52) :
    unpack .binary64 b = .zero (Sign.ofBitVec (unpackSign b)) := by
  have hNeOnes : unpackExponent b ≠ -1#11 := by
    rw [hExponent]
    decide
  exact (if_neg hNeOnes).trans ((if_pos hExponent).trans (dif_pos hMantissa))

theorem unpack_subnormal (hExponent : unpackExponent b = 0#11) (hMantissa : (unpackMantissa b).toNat = m)
    (hPos : 0 < m) : unpack .binary64 b = .finite (Sign.ofBitVec (unpackSign b)) m (-1074) hPos := by
  have hNeOnes : unpackExponent b ≠ -1#11 := by
    rw [hExponent]
    decide
  have hNeZero : unpackMantissa b ≠ 0#52 := by
    intro hEq
    rw [hEq] at hMantissa
    exact Nat.ne_of_lt hPos hMantissa
  subst hMantissa
  refine (if_neg hNeOnes).trans ((if_pos hExponent).trans ((dif_neg hNeZero).trans ?_))
  rw [hExponent]
  rfl

end fields

theorem pack_finite (sign : Sign) (hPos : 0 < m) : pack .binary64 (.finite sign m e hPos) =
    if 2 ^ 11 ≤ (e + 1075).toNat + 1 then packedInfinity .binary64 sign
    else if m.log2 + 1 = 53 then
      packComponents .binary64 sign (BitVec.ofNat 11 (e + 1075).toNat) (BitVec.ofNat 52 m)
    else packComponents .binary64 sign 0#11 (BitVec.ofNat 52 m) := by
  have hBiased : e + 1075 = e + 1023 + 52 := by omega
  rw [hBiased]
  rfl

theorem unpack_pack (sign : Sign) (h : Normalized m e) (he : e ≤ 971) (hPos : 0 < m) :
    ∃ sign', (Float.Model.pack (.finite sign m e hPos)).unpack = .finite sign' m e hPos := by
  obtain ⟨⟨hLt, hLeast⟩, hLeading⟩ := h
  change ∃ sign', unpack .binary64 (pack .binary64 (.finite sign m e hPos)) = _
  rw [pack_finite, if_neg (by omega)]
  by_cases hLog : m.log2 + 1 = 53
  · rw [if_pos hLog]
    have hLow : 2 ^ 52 ≤ m := (Nat.le_log2 (by omega)).mp (by omega)
    have hField : (BitVec.ofNat 11 (e + 1075).toNat).toNat = (e + 1075).toNat := by
      rw [BitVec.toNat_ofNat]
      omega
    refine ⟨_, unpack_normal ?_ ?_ ?_ ?_ hPos⟩
    · rw [unpackExponent_packComponents, hField]
      omega
    · rw [unpackExponent_packComponents, hField]
      omega
    · rw [unpackMantissa_packComponents]
      exact toNat_append hLow hLt
    · rw [unpackExponent_packComponents, hField]
      omega
  · rw [if_neg hLog]
    have hHigh : m < 2 ^ 52 := by
      have := (Nat.log2_lt (by omega)).mpr hLt
      exact (Nat.log2_lt (by omega)).mp (by omega)
    obtain rfl : e = -1074 := by omega
    refine ⟨_, unpack_subnormal ?_ ?_ hPos⟩
    · exact unpackExponent_packComponents
    · rw [unpackMantissa_packComponents, BitVec.toNat_ofNat]
      exact Nat.mod_eq_of_lt hHigh

theorem isInf_pack (sign : Sign) (he : 971 < e) (hPos : 0 < m) :
    (Float.Model.pack (.finite sign m e hPos)).isInf = true := by
  change (unpack .binary64 (pack .binary64 (.finite sign m e hPos))).isInf = true
  rw [pack_finite, if_pos (by omega)]
  cases sign <;> rfl

theorem bounded_unpack_pack {x : UnpackedFloat} (h : Bounded bound x) (hBound : bound ≤ largest) :
    Bounded bound (Float.Model.pack x).unpack := by
  cases h with
  | zero sign => cases sign <;> exact .zero _
  | finite sign hPos hForm hLe =>
    obtain ⟨sign', hUnpack⟩ := unpack_pack sign hForm (hForm.exponent_le (hLe.trans hBound)) hPos
    rw [hUnpack]
    exact .finite sign' hPos hForm hLe

theorem Rounds.unpack_pack {v : ℚ} {x : UnpackedFloat} (h : Rounds v x) (hv : v ≤ largest) :
    Rounds v (Float.Model.pack x).unpack := by
  cases h with
  | zero sign hGe => cases sign <;> exact .zero _ hGe
  | finite sign hPos hForm hLe hGe =>
    have hLargest := hLe (2 ^ 53 - 1) 971 ⟨by decide, by decide⟩ hv
    obtain ⟨sign', hUnpack⟩ := Double.unpack_pack sign hForm (hForm.exponent_le hLargest) hPos
    rw [hUnpack]
    exact .finite sign' hPos hForm hLe hGe

/-! ## Operations -/

theorem unpack_mul (x y : Float) :
    (x * y).toModel.unpack = (Float.Model.pack (mul .binary64 x.toModel.unpack y.toModel.unpack)).unpack := rfl

theorem unpack_div (x y : Float) :
    (x / y).toModel.unpack = (Float.Model.pack (div .binary64 x.toModel.unpack y.toModel.unpack)).unpack := rfl

theorem unpack_neg (x : Float) : (-x).toModel.unpack = (Float.Model.pack x.toModel.unpack.neg).unpack := rfl

theorem unpack_abs (x : Float) : x.abs.toModel.unpack = (Float.Model.pack x.toModel.unpack.abs).unpack := rfl

theorem Bounded.neg {x : UnpackedFloat} (h : Bounded bound x) : Bounded bound x.neg := by
  cases h with
  | zero sign => exact .zero (-sign)
  | finite sign hPos hForm hLe => exact .finite (-sign) hPos hForm hLe

theorem Bounded.abs {x : UnpackedFloat} (h : Bounded bound x) : Bounded bound x.abs := by
  cases h with
  | zero => exact .zero .positive
  | finite _ hPos hForm hLe => exact .finite .positive hPos hForm hLe

theorem within_neg {x : Float} (h : Within bound x) (hBound : bound ≤ largest) : Within bound (-x) := by
  rw [Within, unpack_neg]
  exact bounded_unpack_pack h.neg hBound

theorem within_abs {x : Float} (h : Within bound x) (hBound : bound ≤ largest) : Within bound x.abs := by
  rw [Within, unpack_abs]
  exact bounded_unpack_pack h.abs hBound

theorem Rounds.bounded {v : ℚ} {x : UnpackedFloat} (h : Rounds v x) {limit : Nat} {place : Int}
    (hLimit : Representable limit place) (hv : v ≤ value limit place) :
    Bounded (value limit place) x := by
  cases h with
  | zero sign => exact .zero sign
  | finite sign hPos hForm hLe => exact .finite sign hPos hForm (hLe limit place hLimit hv)

theorem value_nonneg (m : Nat) (e : Int) : 0 ≤ value m e :=
  mul_nonneg (Nat.cast_nonneg m) (zpow_nonneg (by decide) e)

theorem value_mul (m n : Nat) (e e' : Int) : value (m * n) (e + e') = value m e * value n e' := by
  rw [value, value, value, zpow_add₀ (by decide)]
  push_cast
  ring

/-- The product of two mantissas has all the bits that are needed. -/
theorem wide_mul {n : Nat} {e' : Int} (hm : Normalized m e) (hn : Normalized n e') (hmPos : 0 < m) (hnPos : 0 < n) :
    e + e' ≤ lastPlace (m * n) (e + e') := by
  unfold lastPlace
  by_cases hBoth : 2 ^ 52 ≤ m * n
  · have := (Nat.le_log2 (by omega)).mpr hBoth
    omega
  · have hmSmall : ¬2 ^ 52 ≤ m := fun h => hBoth (h.trans (Nat.le_mul_of_pos_right m hnPos))
    have hnSmall : ¬2 ^ 52 ≤ n := fun h => hBoth (h.trans (Nat.le_mul_of_pos_left n hmPos))
    have := hm.leading
    have := hn.leading
    omega

/-- The product of two numbers is a rounded number, which is not above the product of their bounds. -/
theorem rounds_mul {x y : UnpackedFloat} {a b : ℚ} (hx : Bounded a x) (hy : Bounded b y) :
    ∃ v, Rounds v (mul .binary64 x y) ∧ ∀ limit place, a * b ≤ value limit place → v ≤ value limit place := by
  have hZero (sign : Sign) : Rounds 0 (.zero sign) := by
    refine .zero sign fun m e _ h => ?_
    rw [← value_zero e, value_le_value] at h
    exact Nat.le_zero.mp h
  cases hx with
  | zero sign => cases hy <;> exact ⟨0, hZero _, fun limit place _ => value_nonneg limit place⟩
  | @finite sign m e hm hmForm hmLe =>
    cases hy with
    | zero => exact ⟨0, hZero _, fun limit place _ => value_nonneg limit place⟩
    | @finite sign' n e' hn hnForm hnLe =>
      refine ⟨value m e * value n e', ?_, fun limit place h => le_trans ?_ h⟩
      · exact rounds_roundWithAccuracy _ (wide_mul hmForm hnForm hm hn) (value_mul m n e e')
      · exact mul_le_mul hmLe hnLe (value_nonneg n e') ((value_nonneg m e).trans hmLe)

theorem within_mul {x y : Float} {a b : ℚ} (hx : Within a x) (hy : Within b y) {limit : Nat} {place : Int}
    (hLimit : Representable limit place) (hPlace : place ≤ 971) (h : a * b ≤ value limit place) :
    Within (value limit place) (x * y) := by
  obtain ⟨v, hRounds, hv⟩ := rounds_mul hx hy
  rw [Within, unpack_mul]
  exact bounded_unpack_pack (hRounds.bounded hLimit (hv limit place h)) (value_le_largest hLimit.lt hPlace)

/-- A product that is not infinite is a number. -/
theorem within_mul_of_isInf_eq_false {x y : Float} {a b : ℚ} (hx : Within a x) (hy : Within b y)
    (h : (x * y).isInf = false) : Within largest (x * y) := by
  obtain ⟨v, hRounds, -⟩ := rounds_mul hx hy
  rw [Within, unpack_mul]
  change (Float.Model.pack (mul .binary64 x.toModel.unpack y.toModel.unpack)).isInf = false at h
  generalize mul .binary64 x.toModel.unpack y.toModel.unpack = product at hRounds h ⊢
  cases hRounds with
  | zero sign => exact bounded_unpack_pack (.zero sign) le_rfl
  | @finite sign m e hPos hForm hLe =>
    rcases Int.lt_or_le 971 e with hHigh | hLow
    · rw [isInf_pack sign hHigh hPos] at h
      cases h
    · exact bounded_unpack_pack (.finite sign hPos hForm (value_le_largest hForm.lt hLow)) le_rfl

/-! ### Natural numbers -/

theorem log2_shiftLeft (h : n ≠ 0) (k : Nat) : (n <<< k).log2 = n.log2 + k := by
  have hLow := Nat.log2_self_le h
  have hHigh : n < 2 ^ (n.log2 + 1) := Nat.lt_log2_self
  rw [Nat.shiftLeft_eq, Nat.log2_eq_iff (Nat.mul_ne_zero h (Nat.two_pow_pos k).ne'), Nat.pow_add,
    show n.log2 + k + 1 = n.log2 + 1 + k by omega, Nat.pow_add _ _ k]
  exact ⟨Nat.mul_le_mul_right _ hLow, Nat.mul_lt_mul_of_pos_right hHigh (Nat.two_pow_pos k)⟩

theorem value_shiftLeft (n k : Nat) : value (n <<< k) (-k) = n := by
  rw [Nat.shiftLeft_eq, ← value_add, Int.add_left_neg, value, zpow_zero, mul_one]

theorem rounds_round (sign : Sign) (h : n ≠ 0) : Rounds n (round .binary64 sign n 0) := by
  change Rounds n (roundWithAccuracy .binary64 sign (n <<< (0 - lastPlace n 0).toNat) (0 - (0 - lastPlace n 0).toNat)
    .exact)
  have hLog := log2_shiftLeft h (0 - lastPlace n 0).toNat
  refine rounds_roundWithAccuracy sign ?_ ?_
  · unfold lastPlace at hLog ⊢
    omega
  · rw [Int.zero_sub ((0 - lastPlace n 0).toNat : Int)]
    exact value_shiftLeft n _

theorem ofNat_of_lt (h : n < 2 ^ 53) :
    Float.ofNat n = n.toUInt64.toFloat * Float.ofBits 0x3FF0000000000000 := by
  unfold Float.ofNat
  change Float.ofScientific n false 0 = _
  rw [Float.ofScientific, dif_pos ⟨h, by decide⟩]
  rfl

theorem ofNat_of_le (h : 2 ^ 53 ≤ n) : Float.ofNat n = .ofModel (.ofScientific n 0) := by
  unfold Float.ofNat
  change Float.ofScientific n false 0 = _
  rw [Float.ofScientific, dif_neg (by omega)]
  rfl

/-- Decimals without a fraction are rounded once. -/
theorem rounds_ofScientific {m n : Nat} (hm : m ≠ 0) (hn : n ≤ 2048) :
    Rounds (m * 10 ^ n : Nat) (Float.Model.UnpackedFloat.ofScientific .binary64 m n) := by
  have hBits : (2 : Int) ^ Format.exponentBits .binary64 = 2048 := rfl
  rw [Float.Model.UnpackedFloat.ofScientific, dif_neg hm, if_neg (by omega), if_neg (by omega),
    if_pos (Int.natCast_nonneg n)]
  change Rounds _ (roundWithAccuracy .binary64 _ (m <<< Format.mantissaBits .binary64 * 10 ^ (n : Int).toNat)
    (-(Format.mantissaBits .binary64 : Int) + 0) .exact)
  have hShift : m <<< Format.mantissaBits .binary64 * 10 ^ (n : Int).toNat = (m * 10 ^ n) <<< 53 := by
    rw [Int.toNat_natCast, Nat.shiftLeft_eq, Nat.shiftLeft_eq]
    exact Nat.mul_right_comm m _ _
  have hPlace : -(Format.mantissaBits .binary64 : Int) + 0 = -53 := rfl
  rw [hShift, hPlace]
  have hNe : m * 10 ^ n ≠ 0 := Nat.mul_ne_zero hm (Nat.pow_pos (by decide)).ne'
  have hValue : value ((m * 10 ^ n) <<< 53) (-53) = (m * 10 ^ n : Nat) := by
    exact_mod_cast value_shiftLeft (m * 10 ^ n) 53
  refine rounds_roundWithAccuracy _ ?_ hValue
  have hLog := log2_shiftLeft hNe 53
  unfold lastPlace
  omega

/-- The double of a natural number is not above a double that the number does not pass. -/
theorem within_ofNat {limit : Nat} {place : Int} (hLimit : Representable limit place)
    (hPlace : place ≤ 971) (h : n ≤ value limit place) : Within (value limit place) (Float.ofNat n) := by
  have hLargest := value_le_largest hLimit.lt hPlace
  rcases Nat.lt_or_ge n (2 ^ 53) with hLt | hGe
  · rw [ofNat_of_lt hLt]
    have hToNat : n.toUInt64.toNat = n := Nat.mod_eq_of_lt (by omega)
    have hInt : n.toUInt64.toFloat.toModel.unpack = (Float.Model.pack (normalize .binary64 n 0 .positive)).unpack := by
      change (Float.Model.pack (normalize .binary64 n.toUInt64.toNat 0 .positive)).unpack = _
      rw [hToNat]
    have hFloat : Within (value limit place) n.toUInt64.toFloat := by
      rw [Within, hInt]
      refine bounded_unpack_pack ?_ hLargest
      rcases Nat.eq_zero_or_pos n with rfl | hPos
      · exact .zero .positive
      · have hCompare : compare (n : Int) 0 = .gt := compare_gt_iff_gt.mpr (by omega)
        rw [UnpackedFloat.normalize, hCompare]
        exact (rounds_round .positive (by omega)).bounded hLimit h
    have hOne : Within 1 (Float.ofBits 0x3FF0000000000000) := by
      have hUnpack : (Float.ofBits 0x3FF0000000000000).toModel.unpack =
          .finite .positive (2 ^ 52) (-52) (by decide) := rfl
      rw [Within, hUnpack]
      refine .finite _ _ ⟨⟨by decide, by decide⟩, .inl (by decide)⟩ ?_
      rw [value]
      norm_num
    exact within_mul hFloat hOne hLimit hPlace (mul_one _).le
  · rw [ofNat_of_le hGe]
    change Bounded _ (Float.Model.pack (Float.Model.UnpackedFloat.ofScientific .binary64 n 0)).unpack
    have hRounds := rounds_ofScientific (m := n) (n := 0) (by omega) (by decide)
    rw [Nat.pow_zero, Nat.mul_one] at hRounds
    exact bounded_unpack_pack (hRounds.bounded hLimit h) hLargest

/-! ### Quotients -/

section quotient

variable {n : Nat} {e' : Int}

/-- The exponent of a quotient before it is rounded. -/
def quotientExponent (m : Nat) (e : Int) (n : Nat) (e' : Int) : Int :=
  min (e - e') (max ((m.log2 + 1 + e) - (n.log2 + 1 + e') - 53) (-1074))

theorem divCore_eq (m : Nat) (e : Int) (n : Nat) (e' : Int) :
    divCore .binary64 m e n e' =
      let shifted := m <<< (e - e' - quotientExponent m e n e').toNat
      (shifted / n, quotientExponent m e n e', accuracyOfFraction (shifted % n) n) := rfl

/-- What is cut off of a quotient is its fraction. -/
theorem standsFor_divCore (m : Nat) (e e' : Int) (hn : 0 < n) :
    let quotient := divCore .binary64 m e n e'
    StandsFor quotient.1 quotient.2.1 (value m e / value n e') quotient.2.2 := by
  rw [divCore_eq]
  simp only
  have hPos : 0 < value n e' := mul_pos (Nat.cast_pos.mpr hn) (zpow_pos (by decide) e')
  generalize hShift : (e - e' - quotientExponent m e n e').toNat = s
  generalize hPlace : quotientExponent m e n e' = place
  have hExponent : e = place + e' + s := by
    have : place ≤ e - e' := hPlace ▸ Int.min_le_left _ _
    omega
  have hValue : value m e = value (m <<< s) (place + e') := by rw [hExponent, value_add, Nat.shiftLeft_eq]
  have hDivMod := Nat.div_add_mod (m <<< s) n
  unfold accuracyOfFraction
  split
  · rename_i hExact
    rw [StandsFor, eq_div_iff hPos.ne', ← value_mul, hValue, Nat.mul_comm, ← Nat.add_zero (n * _), ← hExact, hDivMod]
  · rename_i hInexact
    rw [StandsFor, lt_div_iff₀ hPos, div_lt_iff₀ hPos, ← value_mul, ← value_mul, hValue, value_lt_value,
      value_lt_value, Nat.mul_comm, Nat.mul_comm _ n, Nat.mul_succ]
    have := Nat.mod_lt (m <<< s) hn
    omega

theorem log2_le_log2_div (hm : m ≠ 0) (hn : 0 < n) : m.log2 ≤ (m / n).log2 + 1 + n.log2 := by
  have hDivisor : n < 2 ^ (n.log2 + 1) := Nat.lt_log2_self
  have hQuotient : m / n < 2 ^ ((m / n).log2 + 1) := Nat.lt_log2_self
  have hLt : m < 2 ^ ((m / n).log2 + 1 + (n.log2 + 1)) := by
    rw [Nat.pow_add]
    calc m < (m / n + 1) * n := (Nat.div_lt_iff_lt_mul hn).mp (Nat.lt_succ_self _)
      _ ≤ 2 ^ ((m / n).log2 + 1) * 2 ^ (n.log2 + 1) := Nat.mul_le_mul hQuotient hDivisor.le
  have := (Nat.log2_lt hm).mpr hLt
  omega

theorem wide_divCore (hm : 0 < m) (hn : 0 < n) :
    let quotient := divCore .binary64 m e n e'
    quotient.2.1 ≤ lastPlace quotient.1 quotient.2.1 := by
  rw [divCore_eq]
  simp only
  have hLog := log2_shiftLeft hm.ne' (e - e' - quotientExponent m e n e').toNat
  have hPlace : quotientExponent m e n e' ≤ e - e' := Int.min_le_left _ _
  have hPlace' : quotientExponent m e n e' ≤ max ((m.log2 + 1 + e) - (n.log2 + 1 + e') - 53) (-1074) :=
    Int.min_le_right _ _
  generalize quotientExponent m e n e' = place at hLog hPlace hPlace' ⊢
  generalize hShifted : m <<< (e - e' - place).toNat = shifted at hLog ⊢
  unfold lastPlace
  have hNe : shifted ≠ 0 := by
    rw [← hShifted, Nat.shiftLeft_eq]
    exact Nat.mul_ne_zero hm.ne' (Nat.two_pow_pos _).ne'
  rcases Nat.lt_or_ge shifted n with hLt | hGe
  · -- Nothing is left, and the place is that of the least doubles.
    have : shifted.log2 ≤ n.log2 := (Nat.le_log2 hn.ne').mpr ((Nat.log2_self_le hNe).trans hLt.le)
    omega
  · have := log2_le_log2_div hNe hn
    omega

end quotient

/-- A number divided by one that is at least one does not grow. -/
theorem within_div {x y : Float} {limit : Nat} {place : Int} (hx : Within (value limit place) x)
    (hLimit : Representable limit place) (hPlace : place ≤ 971) {sign : Sign} {n : Nat} {e' : Int}
    {hn : 0 < n} (hy : y.toModel.unpack = .finite sign n e' hn) (hOne : 1 ≤ value n e') :
    Within (value limit place) (x / y) := by
  have hLargest := value_le_largest hLimit.lt hPlace
  rw [Within, unpack_div, hy]
  refine bounded_unpack_pack ?_ hLargest
  rw [Within] at hx
  generalize x.toModel.unpack = dividend at hx
  cases hx with
  | zero => exact .zero _
  | @finite sign' m e hm hForm hLe =>
    have hRounds := rounds_roundWithAccuracy (sign' / sign) (wide_divCore hm hn) (standsFor_divCore m e e' hn)
    exact hRounds.bounded hLimit ((div_le_self (value_nonneg m e) hOne).trans hLe)

end Listfile.Double
