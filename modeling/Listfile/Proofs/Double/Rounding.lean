import Mathlib.Algebra.Order.Field.Power
import Mathlib.Algebra.Order.Ring.Rat
import Mathlib.Tactic.Ring
/-! # Rounding to doubles

A rational number is rounded to the nearest double. So it does not pass a double: what is rounded stays at or below
every double that the number itself is not above. The sizes of numbers are bounded in this way, with the sign left
aside.
-/
namespace Listfile.Double
set_option autoImplicit false

open Float.Model (Format UnpackedFloat)
open Float.Model.UnpackedFloat

/-- The number `mantissa · 2 ^ exponent`. -/
def value (mantissa : Nat) (exponent : Int) : ℚ := mantissa * 2 ^ exponent

/-! ## Mantissas -/

theorem mantissa_shiftRight (em : ExtendedMantissa) (n : Nat) : (em >>> n).mantissa = em.mantissa / 2 ^ n := by
  change (n.repeat ExtendedMantissa.shiftRightOne em).mantissa = _
  induction n with
  | zero => simp [Nat.repeat]
  | succ n ih => rw [Nat.repeat, ExtendedMantissa.shiftRightOne, ih, Nat.div_div_eq_div_mul, Nat.pow_succ]

/-- Zeros that are shifted out leave nothing behind. -/
theorem shiftRight_mul_pow (m n : Nat) :
    (⟨m * 2 ^ n, false, false⟩ : ExtendedMantissa) >>> n = ⟨m, false, false⟩ := by
  change n.repeat ExtendedMantissa.shiftRightOne ⟨m * 2 ^ n, false, false⟩ = _
  induction n generalizing m with
  | zero => simp [Nat.repeat]
  | succ n ih =>
    have hShift : m * 2 ^ (n + 1) = m * 2 * 2 ^ n := by rw [Nat.pow_succ, Nat.mul_comm (2 ^ n), Nat.mul_assoc]
    rw [hShift, Nat.repeat, ih, ExtendedMantissa.shiftRightOne]
    simp

theorem mantissa_le_roundedMantissa (em : ExtendedMantissa) : em.mantissa ≤ em.roundedMantissa := by
  obtain ⟨m, _ | _, _ | _⟩ := em <;> simp [ExtendedMantissa.roundedMantissa, ExtendedMantissa.accuracy,
    Accuracy.roundToNearestEven]

theorem roundedMantissa_le (em : ExtendedMantissa) : em.roundedMantissa ≤ em.mantissa + 1 := by
  obtain ⟨m, _ | _, _ | _⟩ := em <;> simp [ExtendedMantissa.roundedMantissa, ExtendedMantissa.accuracy,
    Accuracy.roundToNearestEven]
  omega

/-- What a mantissa may lack of the number that it stands for. -/
def excess : Accuracy → Nat
  | .exact => 0
  | .inexact _ => 1

theorem mantissa_ofMantissaAndAccuracy (m : Nat) (accuracy : Accuracy) :
    (ExtendedMantissa.ofMantissaAndAccuracy m accuracy).mantissa = m := by
  rcases accuracy with _ | _ | _ | _ <;> rfl

theorem roundedMantissa_le_of_le {m n bound : Nat} {accuracy : Accuracy} (h : m + excess accuracy ≤ bound * 2 ^ n) :
    (ExtendedMantissa.ofMantissaAndAccuracy m accuracy >>> n).roundedMantissa ≤ bound := by
  have hMantissa := mantissa_shiftRight (ExtendedMantissa.ofMantissaAndAccuracy m accuracy) n
  rw [mantissa_ofMantissaAndAccuracy] at hMantissa
  rcases Nat.lt_or_ge (m / 2 ^ n) bound with hLt | hGe
  · have := roundedMantissa_le (ExtendedMantissa.ofMantissaAndAccuracy m accuracy >>> n)
    omega
  · have hLe : bound * 2 ^ n ≤ m := (Nat.le_div_iff_mul_le (Nat.two_pow_pos n)).mp hGe
    -- The mantissa is the bound itself, with zeros after it.
    cases accuracy with
    | exact =>
      have hEq : m = bound * 2 ^ n := Nat.le_antisymm h hLe
      rw [hEq]
      exact (congrArg _ (shiftRight_mul_pow bound n)).le
    | inexact =>
      simp only [excess] at h
      omega

/-! ## Values -/

section value

variable {m n : Nat} {e : Int}

theorem value_le_value : value m e ≤ value n e ↔ m ≤ n := by
  rw [value, value, mul_le_mul_iff_left₀ (zpow_pos (by decide) e), Nat.cast_le]

theorem value_lt_value : value m e < value n e ↔ m < n := by
  rw [← not_le, value_le_value, Nat.not_le]

theorem value_zero (e : Int) : value 0 e = 0 := by rw [value, Nat.cast_zero, zero_mul]

/-- The exponent grows by as much as the mantissa is shifted. -/
theorem value_add (m : Nat) (e : Int) (n : Nat) : value m (e + n) = value (m * 2 ^ n) e := by
  rw [value, value, zpow_add₀ (by decide), zpow_natCast]
  push_cast
  ring

theorem value_of_le (m : Nat) {e e' : Int} (h : e ≤ e') : value m e' = value (m * 2 ^ (e' - e).toNat) e := by
  rw [← value_add]
  congr 1
  omega

theorem value_one_le_value_one {e e' : Int} : value 1 e ≤ value 1 e' ↔ e ≤ e' := by
  rw [value, value, Nat.cast_one, one_mul, one_mul, zpow_le_zpow_iff_right₀ (by decide)]

theorem value_one_lt_value_one {e e' : Int} : value 1 e < value 1 e' ↔ e < e' := by
  rw [← not_le, value_one_le_value_one, not_le]

theorem value_one_le (h : m ≠ 0) (e : Int) : value 1 (e + m.log2) ≤ value m e := by
  rw [value_add, Nat.one_mul, value_le_value]
  exact Nat.log2_self_le h

end value

/-! ## Rounding -/

/-- Whether a number is a double, but for the largest exponents. -/
structure Representable (mantissa : Nat) (exponent : Int) : Prop where
  lt : mantissa < 2 ^ 53
  least : -1074 ≤ exponent

/-- Whether a double is in the form in which it is stored: its mantissa has 53 bits, or fewer and the least exponent. -/
structure Normalized (mantissa : Nat) (exponent : Int) : Prop extends Representable mantissa exponent where
  leading : 2 ^ 52 ≤ mantissa ∨ exponent = -1074

/-- Whether a mantissa with the given accuracy stands for a number. -/
def StandsFor (mantissa : Nat) (exponent : Int) (v : ℚ) : Accuracy → Prop
  | .exact => value mantissa exponent = v
  | .inexact _ => value mantissa exponent < v ∧ v < value (mantissa + 1) exponent

/-- Whether a number that may be stored passes no double on the way from `v`: it is below those that are not below `v`,
and above those that are not above `v`. The exponent may be too large. -/
inductive Rounds (v : ℚ) : UnpackedFloat → Prop
  | zero (sign : Sign) (ge : ∀ m e, Representable m e → value m e ≤ v → m = 0) : Rounds v (.zero sign)
  | finite (sign : Sign) {mantissa : Nat} {exponent : Int} (hPos : 0 < mantissa) (form : Normalized mantissa exponent)
    (le : ∀ m e, Representable m e → v ≤ value m e → value mantissa exponent ≤ value m e)
    (ge : ∀ m e, Representable m e → value m e ≤ v → value m e ≤ value mantissa exponent) :
    Rounds v (.finite sign mantissa exponent hPos)

namespace StandsFor

variable {m n : Nat} {e : Int} {v : ℚ} {accuracy : Accuracy}

theorem value_le (h : StandsFor m e v accuracy) : value m e ≤ v := by
  cases accuracy with
  | exact => exact le_of_eq h
  | inexact => exact h.1.le

theorem le (h : StandsFor m e v accuracy) (hLe : value n e ≤ v) : n ≤ m := by
  cases accuracy with
  | exact =>
    rw [StandsFor] at h
    rw [← h] at hLe
    exact value_le_value.mp hLe
  | inexact => exact Nat.le_of_lt_succ (value_lt_value.mp (hLe.trans_lt h.2))

theorem add_excess_le (h : StandsFor m e v accuracy) (hLe : v ≤ value n e) : m + excess accuracy ≤ n := by
  cases accuracy with
  | exact =>
    rw [StandsFor] at h
    rw [← h] at hLe
    exact value_le_value.mp hLe
  | inexact => exact value_lt_value.mp (h.1.trans_le hLe)

end StandsFor

/-- The exponent of the last place that a double of the given size has. -/
def lastPlace (m : Nat) (e : Int) : Int := max (m.log2 + 1 + e - 53) (-1074)

theorem shiftToTargetExponent_eq (m : Nat) (e : Int) (accuracy : Accuracy) :
    shiftToTargetExponent .binary64 m e accuracy =
      (ExtendedMantissa.ofMantissaAndAccuracy m accuracy >>> (lastPlace m e - e).toNat,
        e + (lastPlace m e - e).toNat) := rfl

theorem least_le_lastPlace (m : Nat) (e : Int) : -1074 ≤ lastPlace m e := Int.le_max_right _ _

section round

variable {m : Nat} {e : Int} {v : ℚ} {accuracy : Accuracy}

/-- The mantissa that remains when what is below the last place is rounded. -/
def rounded (m : Nat) (e : Int) (accuracy : Accuracy) : Nat :=
  (ExtendedMantissa.ofMantissaAndAccuracy m accuracy >>> (lastPlace m e - e).toNat).roundedMantissa

theorem div_le_rounded (m : Nat) (e : Int) (accuracy : Accuracy) :
    m / 2 ^ (lastPlace m e - e).toNat ≤ rounded m e accuracy := by
  have hMantissa := mantissa_shiftRight (ExtendedMantissa.ofMantissaAndAccuracy m accuracy) (lastPlace m e - e).toNat
  rw [mantissa_ofMantissaAndAccuracy] at hMantissa
  rw [← hMantissa]
  exact mantissa_le_roundedMantissa _

theorem rounded_le_two_pow : rounded m e accuracy ≤ 2 ^ 53 := by
  refine roundedMantissa_le_of_le ?_
  have hLt : m < 2 ^ (m.log2 + 1) := Nat.lt_log2_self
  have hPow : 2 ^ (m.log2 + 1) ≤ 2 ^ 53 * 2 ^ (lastPlace m e - e).toNat := by
    rw [← Nat.pow_add]
    apply Nat.pow_le_pow_right (by decide)
    unfold lastPlace
    omega
  have hExcess : excess accuracy ≤ 1 := by cases accuracy <;> simp [excess]
  omega

variable (hWide : e ≤ lastPlace m e)

include hWide

theorem lastPlace_of_ne (h : lastPlace m e ≠ -1074) : m ≠ 0 ∧ lastPlace m e = m.log2 + 1 + e - 53 := by
  have hLog : lastPlace m e = m.log2 + 1 + e - 53 := by
    unfold lastPlace at h ⊢
    omega
  refine ⟨?_, hLog⟩
  rintro rfl
  rw [Nat.log2_zero] at hLog
  omega

theorem two_pow_le_rounded (h : lastPlace m e ≠ -1074) : 2 ^ 52 ≤ rounded m e accuracy := by
  obtain ⟨hNe, hPlace⟩ := lastPlace_of_ne hWide h
  have hLog : m.log2 = 52 + (lastPlace m e - e).toNat := by omega
  have hSelf : 2 ^ m.log2 ≤ m := Nat.log2_self_le hNe
  rw [hLog, Nat.pow_add] at hSelf
  exact ((Nat.le_div_iff_mul_le (Nat.two_pow_pos _)).mpr hSelf).trans (div_le_rounded m e accuracy)

variable {n : Nat} {place : Int} (hv : StandsFor m e v accuracy) (hn : Representable n place)

include hv hn

theorem value_rounded_le (h : v ≤ value n place) : value (rounded m e accuracy) (lastPlace m e) ≤ value n place := by
  have hShift : lastPlace m e = e + (lastPlace m e - e).toNat := by omega
  have hLt := hn.lt
  have hLeast := hn.least
  rcases Int.lt_or_le place (lastPlace m e) with hBelow | hAbove
  · -- A double with a finer last place is smaller.
    exfalso
    obtain ⟨hNe, hLog⟩ := lastPlace_of_ne hWide (by omega)
    have hLow := (value_one_le hNe e).trans (hv.value_le.trans h)
    have hHigh : value n place < value 1 (place + (53 : Nat)) := by
      rw [value_add, value_lt_value]
      omega
    have := value_one_lt_value_one.mp (hLow.trans_lt hHigh)
    omega
  · -- Any other double is a multiple of the last place.
    have hEq := value_of_le n hAbove
    rw [hEq, value_le_value]
    rw [hEq, hShift, value_add, ← hShift] at h
    exact roundedMantissa_le_of_le (hv.add_excess_le h)

theorem value_le_value_rounded (h : value n place ≤ v) :
    value n place ≤ value (rounded m e accuracy) (lastPlace m e) := by
  have hShift : lastPlace m e = e + (lastPlace m e - e).toNat := by omega
  have hLt := hn.lt
  have hLeast := hn.least
  rcases Int.lt_or_le place (lastPlace m e) with hBelow | hAbove
  · have hLeading := @two_pow_le_rounded m e accuracy hWide (by omega)
    calc value n place ≤ value (1 * 2 ^ 53) place := value_le_value.mpr (by omega)
      _ = value 1 (place + (53 : Nat)) := (value_add 1 place 53).symm
      _ ≤ value 1 (lastPlace m e + (52 : Nat)) := value_one_le_value_one.mpr (by omega)
      _ = value (1 * 2 ^ 52) (lastPlace m e) := value_add 1 _ 52
      _ ≤ value (rounded m e accuracy) (lastPlace m e) := value_le_value.mpr (by omega)
  · have hEq := value_of_le n hAbove
    rw [hEq, value_le_value]
    rw [hEq, hShift, value_add, ← hShift] at h
    exact ((Nat.le_div_iff_mul_le (Nat.two_pow_pos _)).mpr (hv.le h)).trans (div_le_rounded m e accuracy)

end round

/-- Rounding up may give one bit more, which is shifted out again. -/
theorem shift_rounded {r : Nat} {place : Int} (hr : r ≤ 2 ^ 53) (hPlace : -1074 ≤ place)
    (hLeading : 2 ^ 52 ≤ r ∨ place = -1074) :
    let shifted := shiftToTargetExponent .binary64 r place .exact
    Normalized shifted.1.mantissa shifted.2 ∧ value shifted.1.mantissa shifted.2 = value r place := by
  simp only [shiftToTargetExponent_eq, mantissa_shiftRight]
  rcases Nat.lt_or_ge r (2 ^ 53) with hLt | hGe
  · have hLog : r.log2 ≤ 52 := by
      rcases Nat.eq_zero_or_pos r with rfl | hPos
      · decide
      · exact Nat.le_of_lt_succ ((Nat.log2_lt (by omega)).mpr hLt)
    have hNone : (lastPlace r place - place).toNat = 0 := by
      unfold lastPlace
      omega
    rw [hNone, Nat.pow_zero, Int.natCast_zero, Int.add_zero]
    have hSame : (ExtendedMantissa.ofMantissaAndAccuracy r .exact).mantissa / 1 = r := Nat.div_one r
    rw [hSame]
    exact ⟨⟨⟨hLt, hPlace⟩, hLeading⟩, rfl⟩
  · obtain rfl : r = 2 ^ 53 := Nat.le_antisymm hr hGe
    have hOne : (lastPlace (2 ^ 53) place - place).toNat = 1 := by
      unfold lastPlace
      rw [Nat.log2_two_pow]
      omega
    rw [hOne]
    have hHalf : (ExtendedMantissa.ofMantissaAndAccuracy (2 ^ 53) .exact).mantissa / 2 ^ 1 = 2 ^ 52 := by decide
    rw [hHalf]
    refine ⟨⟨⟨by decide, by omega⟩, .inl (Nat.le_refl _)⟩, ?_⟩
    rw [value_add]
    rfl

/-- A normalized number nearest on both sides is the rounding, spelled as the format spells it. -/
theorem rounds_of_nearest (sign : Sign) {v : ℚ} {m : Nat} {e : Int} (form : Normalized m e)
    (le : ∀ n place, Representable n place → v ≤ value n place → value m e ≤ value n place)
    (ge : ∀ n place, Representable n place → value n place ≤ v → value n place ≤ value m e) :
    Rounds v (if h : m = 0 then .zero sign else .finite sign m e (Nat.pos_of_ne_zero h)) := by
  by_cases hZero : m = 0
  · rw [dif_pos hZero]
    refine .zero sign fun n place hn h => ?_
    have hNone := ge n place hn h
    rw [hZero, value_zero, ← value_zero place, value_le_value] at hNone
    exact Nat.le_zero.mp hNone
  · rw [dif_neg hZero]
    exact .finite sign _ form le ge

theorem rounds_roundWithAccuracy (sign : Sign) {m : Nat} {e : Int} {v : ℚ} {accuracy : Accuracy}
    (hWide : e ≤ lastPlace m e) (hv : StandsFor m e v accuracy) :
    Rounds v (roundWithAccuracy .binary64 sign m e accuracy) := by
  have hPlace : e + (lastPlace m e - e).toNat = lastPlace m e := by omega
  have hLeading : 2 ^ 52 ≤ rounded m e accuracy ∨ lastPlace m e = -1074 := by
    by_cases h : lastPlace m e = -1074
    · exact .inr h
    · exact .inl (two_pow_le_rounded hWide h)
  obtain ⟨hForm, hValue⟩ := shift_rounded rounded_le_two_pow (least_le_lastPlace m e) hLeading
  have hLe (n : Nat) (place : Int) (hn : Representable n place) (h : v ≤ value n place) :=
    value_rounded_le hWide hv hn h
  have hGe (n : Nat) (place : Int) (hn : Representable n place) (h : value n place ≤ v) :=
    value_le_value_rounded hWide hv hn h
  rw [← hValue] at hLe hGe
  unfold roundWithAccuracy
  rw [shiftToTargetExponent_eq, hPlace]
  dsimp only [rounded] at hForm hLe hGe ⊢
  exact rounds_of_nearest sign hForm hLe hGe

end Listfile.Double
