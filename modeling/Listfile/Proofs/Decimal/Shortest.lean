import Mathlib.Algebra.Group.Nat.Defs
import Listfile.Decimal.Shortest
/-! # The size of shortest decimals

The shortest decimal of a binary fraction has at most seventeen digits, and is not above the upper end of the interval
of numbers that round to the fraction.
-/
namespace Listfile.Decimal
set_option autoImplicit false

/-! ## Digits -/

theorem lt_pow_digitCount (n : Nat) : n < 10 ^ digitCount n :=
  (Nat.length_toDigits_le_iff (by decide) Nat.length_toDigits_pos).mp (Nat.le_refl _)

theorem pow_le_of_lt_digitCount {n k : Nat} (hk : 0 < k) (h : k < digitCount n) : 10 ^ k ≤ n := by
  rw [← Nat.not_lt, ← Nat.length_toDigits_le_iff (by decide) hk]
  exact Nat.not_le.mpr h

/-! ## Decimals below a bound -/

/-- Whether a decimal is at most a natural number. -/
def AtMost (bound : Nat) (d : Decimal) : Prop :=
  d.digits * 10 ^ d.exponent.toNat ≤ bound * 10 ^ (-d.exponent).toNat

variable {bound : Nat} {d : Decimal}

theorem AtMost.le (h : AtMost bound d) (hNonneg : 0 ≤ d.exponent) : d.digits * 10 ^ d.exponent.toNat ≤ bound := by
  have hNone : (-d.exponent).toNat = 0 := by omega
  rwa [AtMost, hNone, Nat.pow_zero, Nat.mul_one] at h

theorem digits_trim_le (d : Decimal) : (trim d).digits ≤ d.digits := by
  fun_induction trim d with
  | case1 d h ih => exact Nat.le_trans ih (Nat.div_le_self _ _)
  | case2 => exact Nat.le_refl _

theorem digits_trim_pos (h : 0 < d.digits) : 0 < (trim d).digits := by
  fun_induction trim d with
  | case1 d hTrim ih => exact ih (by simp only; omega)
  | case2 => exact h

theorem AtMost.trim (h : AtMost bound d) : AtMost bound (trim d) := by
  fun_induction Decimal.trim d with
  | case1 d hTrim ih =>
    apply ih
    have hDigits : d.digits = d.digits / 10 * 10 := by omega
    rw [AtMost] at h ⊢
    rcases Int.lt_or_le d.exponent 0 with hNeg | hNonneg
    · have hDown : (-d.exponent).toNat = (-(d.exponent + 1)).toNat + 1 := by omega
      have hNone : d.exponent.toNat = 0 := by omega
      have hNone' : (d.exponent + 1).toNat = 0 := by omega
      rw [hNone, hDown, Nat.pow_succ, Nat.pow_zero, Nat.mul_one] at h
      rw [hNone', Nat.pow_zero, Nat.mul_one]
      refine Nat.div_le_of_le_mul ?_
      rwa [Nat.mul_comm 10, Nat.mul_assoc]
    · have hUp : (d.exponent + 1).toNat = d.exponent.toNat + 1 := by omega
      have hNone : (-d.exponent).toNat = 0 := by omega
      have hNone' : (-(d.exponent + 1)).toNat = 0 := by omega
      rw [hNone] at h
      rw [hNone', hUp, Nat.pow_succ, Nat.mul_comm _ 10, ← Nat.mul_assoc, ← hDigits]
      exact h
  | case2 => exact h

namespace RoundingInterval

variable {i : RoundingInterval}

theorem atMost_of_contains (h : i.contains d = true) (hDivisor : 0 < i.divisor)
    (hHigh : i.high * i.unit ≤ bound * i.divisor) : AtMost bound d := by
  have hPoint : d.digits * 10 ^ d.exponent.toNat * i.divisor ≤ i.high * (i.unit * 10 ^ (-d.exponent).toNat) := by
    unfold contains at h
    simp only at h
    split at h
    · exact (of_decide_eq_true h).2
    · exact Nat.le_of_lt (of_decide_eq_true h).2
  refine Nat.le_of_mul_le_mul_right (Nat.le_trans hPoint ?_) hDivisor
  rw [← Nat.mul_assoc, Nat.mul_right_comm bound]
  exact Nat.mul_le_mul_right _ hHigh

theorem digits_pos_of_contains (h : i.contains d = true) (hLow : 0 < i.low) (hUnit : 0 < i.unit) : 0 < d.digits := by
  have hScale : 0 < i.low * (i.unit * 10 ^ (-d.exponent).toNat) :=
    Nat.mul_pos hLow (Nat.mul_pos hUnit (Nat.pow_pos (by decide)))
  have hPoint : 0 < d.digits * 10 ^ d.exponent.toNat * i.divisor := by
    unfold contains at h
    simp only at h
    split at h
    · exact Nat.lt_of_lt_of_le hScale (of_decide_eq_true h).1
    · exact Nat.lt_trans hScale (of_decide_eq_true h).1
  exact Nat.pos_of_mul_pos_right (Nat.pos_of_mul_pos_right hPoint)

/-- The value in units of a decimal place, cut off. -/
def quotient (i : RoundingInterval) (place : Int) : Nat :=
  i.value * i.unit * 10 ^ (-place).toNat / (i.divisor * 10 ^ place.toNat)

theorem nearestOn?_cases {place : Int} (h : i.nearestOn? place = some d) :
    d.digits ≤ i.quotient place + 1 ∧ i.contains d = true := by
  unfold nearestOn? at h
  simp only at h
  split at h
  · rename_i hLower hUpper
    split at h <;> cases h
    · exact ⟨Nat.le_succ _, hLower⟩
    · exact ⟨Nat.le_refl _, hUpper⟩
  · rename_i hLower _
    cases h
    exact ⟨Nat.le_succ _, hLower⟩
  · rename_i hUpper
    cases h
    exact ⟨Nat.le_refl _, hUpper⟩
  · cases h

/-- On a grid that starts `n` places after the first digit of the value, the value has `n + 1` digits. -/
theorem quotient_lt (hDivisor : 0 < i.divisor) (n : Nat) : i.quotient (i.leading - n) < 10 ^ (n + 1) := by
  have hStep : 0 < i.divisor * 10 ^ (i.leading - n).toNat := Nat.mul_pos hDivisor (Nat.pow_pos (by decide))
  rw [quotient, Nat.div_lt_iff_lt_mul hStep]
  unfold leading
  simp only
  generalize i.value * i.unit = above
  split
  · have hLt := lt_pow_digitCount (above / i.divisor)
    rw [Nat.div_lt_iff_lt_mul hDivisor] at hLt
    generalize digitCount (above / i.divisor) = count at hLt ⊢
    have hPlaces : count + (-((count : Int) - 1 - n)).toNat = n + 1 + ((count : Int) - 1 - n).toNat := by omega
    calc above * 10 ^ (-((count : Int) - 1 - n)).toNat
        < 10 ^ count * i.divisor * 10 ^ (-((count : Int) - 1 - n)).toNat :=
          Nat.mul_lt_mul_of_pos_right hLt (Nat.pow_pos (by decide))
      _ = 10 ^ (n + 1) * (i.divisor * 10 ^ ((count : Int) - 1 - n).toNat) := by
          rw [Nat.mul_right_comm, ← Nat.pow_add, hPlaces, Nat.pow_add, Nat.mul_assoc, Nat.mul_comm i.divisor]
  · rename_i hBelow
    have hCount : 0 < digitCount ((i.divisor - 1) / above) := Nat.length_toDigits_pos
    -- The first digit comes after as many zeros as the divisor has digits more than the value.
    have hLt : above * 10 ^ (digitCount ((i.divisor - 1) / above) - 1) < i.divisor := by
      rcases Nat.eq_zero_or_pos (digitCount ((i.divisor - 1) / above) - 1) with hOne | hMore
      · rw [hOne, Nat.pow_zero, Nat.mul_one]
        exact Nat.not_le.mp hBelow
      · have hPow := pow_le_of_lt_digitCount (n := (i.divisor - 1) / above) hMore (by omega)
        have hLe := Nat.le_trans (Nat.mul_le_mul_left above hPow) (Nat.mul_div_le (i.divisor - 1) above)
        omega
    generalize digitCount ((i.divisor - 1) / above) = count at hCount hLt ⊢
    have hDown : (-(-(count : Int) - n)).toNat = count - 1 + (n + 1) := by omega
    have hNone : (-(count : Int) - n).toNat = 0 := by omega
    rw [hDown, hNone, Nat.pow_zero, Nat.mul_one, Nat.pow_add, ← Nat.mul_assoc, Nat.mul_comm (10 ^ (n + 1))]
    exact Nat.mul_lt_mul_of_pos_right hLt (Nat.pow_pos (by decide))

end RoundingInterval

/-! ## Shortest decimals -/

theorem divisor_pos (x : BinaryFraction) : 0 < x.interval.divisor := Nat.pow_pos (by decide)

theorem shortest_cases (x : BinaryFraction) :
    ∃ d, shortest x = trim d ∧ (d = ⟨x.mantissa, 0⟩ ∨
      ∃ n : Nat, n < 17 ∧ x.interval.nearestOn? (x.interval.leading - n) = some d) := by
  refine ⟨_, rfl, ?_⟩
  cases h : ((List.range 17).map fun n : Nat => x.interval.leading - n).findSome? x.interval.nearestOn? with
  | none => exact .inl rfl
  | some d =>
    obtain ⟨place, hPlace, hNearest⟩ := List.exists_of_findSome?_eq_some h
    obtain ⟨n, hn, rfl⟩ := List.mem_map.mp hPlace
    exact .inr ⟨n, List.mem_range.mp hn, hNearest⟩

theorem digits_shortest_pos (x : BinaryFraction) (h : 0 < x.mantissa) : 0 < (shortest x).digits := by
  obtain ⟨d, hd, hCases⟩ := shortest_cases x
  rw [hd]
  apply digits_trim_pos
  rcases hCases with rfl | ⟨n, -, hNearest⟩
  · exact h
  · have hLow : 0 < x.interval.low := by
      unfold BinaryFraction.interval
      simp only
      split <;> omega
    exact RoundingInterval.digits_pos_of_contains (RoundingInterval.nearestOn?_cases hNearest).2 hLow
      (Nat.pow_pos (by decide))

theorem digits_shortest_le (x : BinaryFraction) (h : x.mantissa ≤ 10 ^ 17) : (shortest x).digits ≤ 10 ^ 17 := by
  obtain ⟨d, hd, hCases⟩ := shortest_cases x
  rw [hd]
  refine Nat.le_trans (digits_trim_le d) ?_
  rcases hCases with rfl | ⟨n, hn, hNearest⟩
  · exact h
  · have hDigits := (RoundingInterval.nearestOn?_cases hNearest).1
    have hQuotient := RoundingInterval.quotient_lt (divisor_pos x) n
    have hPow : 10 ^ (n + 1) ≤ 10 ^ 17 := Nat.pow_le_pow_right (by decide) hn
    omega

theorem atMost_shortest (x : BinaryFraction) {bound : Nat} (hMantissa : x.mantissa ≤ bound)
    (hHigh : x.interval.high * x.interval.unit ≤ bound * x.interval.divisor) : AtMost bound (shortest x) := by
  obtain ⟨d, hd, hCases⟩ := shortest_cases x
  rw [hd]
  apply AtMost.trim
  rcases hCases with rfl | ⟨n, -, hNearest⟩
  · simpa [AtMost] using hMantissa
  · exact RoundingInterval.atMost_of_contains (RoundingInterval.nearestOn?_cases hNearest).2 (divisor_pos x) hHigh

end Listfile.Decimal
