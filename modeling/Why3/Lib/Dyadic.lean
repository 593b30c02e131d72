import Mathlib.Data.Rat.Cast.Order
import Mathlib.Algebra.Order.Field.Power
import Mathlib.Tactic.Linarith
import Mathlib.Tactic.Ring

/-!
# Dyadic numbers

The numbers `s * 2 ^ e` with integers `s` and `e`. A number has many such forms: the
exponent moves as long as the significand is even.
-/

namespace Lib

variable {e k s t : ℤ}

def dyadic (s e : ℤ) : ℚ := s * 2 ^ e

theorem dyadic_double (s e : ℤ) : dyadic (2 * s) (e - 1) = dyadic s e := by
  rw [dyadic, dyadic, zpow_sub_one₀ two_ne_zero]
  push_cast
  ring

theorem dyadic_half (h : s % 2 = 0) (e : ℤ) : dyadic (s / 2) (e + 1) = dyadic s e := by
  have hs : s = 2 * (s / 2) := by omega
  rw [← dyadic_double, add_sub_cancel_right, ← hs]

theorem dyadic_mul_pow (s e : ℤ) (n : ℕ) : dyadic (s * 2 ^ n) e = dyadic s (e + n) := by
  rw [dyadic, dyadic, zpow_add₀ two_ne_zero, zpow_natCast]
  push_cast
  ring

theorem dyadic_left_inj : dyadic s e = dyadic t e ↔ s = t := by
  rw [dyadic, dyadic, mul_left_inj' (zpow_ne_zero _ two_ne_zero), Int.cast_inj]

theorem dyadic_lt_left : dyadic s e < dyadic t e ↔ s < t := by
  rw [dyadic, dyadic, mul_lt_mul_iff_left₀ (zpow_pos two_pos _), Int.cast_lt]

theorem dyadic_neg (s e : ℤ) : dyadic (-s) e = -dyadic s e := by
  rw [dyadic, dyadic, Int.cast_neg, neg_mul]

theorem dyadic_nonneg : 0 ≤ dyadic s e ↔ 0 ≤ s := by
  rw [dyadic, mul_nonneg_iff_of_pos_right (zpow_pos two_pos _), Int.cast_nonneg_iff]

theorem dyadic_pos : 0 < dyadic s e ↔ 0 < s := by
  rw [dyadic, mul_pos_iff_of_pos_right (zpow_pos two_pos _), Int.cast_pos]

theorem dyadic_lt_zero : dyadic s e < 0 ↔ s < 0 := by
  rw [← not_le, dyadic_nonneg, not_le]

theorem pos_iff_of_dyadic_eq (h : dyadic s e = dyadic t k) : 0 < s ↔ 0 < t := by
  rw [← dyadic_pos, h, dyadic_pos]

theorem neg_iff_of_dyadic_eq (h : dyadic s e = dyadic t k) : s < 0 ↔ t < 0 := by
  rw [← dyadic_lt_zero, h, dyadic_lt_zero]

theorem dyadic_one (e : ℤ) : dyadic 1 e = 2 ^ e := by
  rw [dyadic, Int.cast_one, one_mul]

theorem dyadic_eq_of_le (s : ℤ) (h : k ≤ e) : dyadic s e = dyadic (s * 2 ^ (e - k).toNat) k := by
  rw [dyadic_mul_pow]
  congr 1
  omega

/-- The form with an odd significand is the one with the greatest exponent. -/
theorem dyadic_odd {m : ℤ} (hs : s % 2 ≠ 0) (h : dyadic s e = dyadic m k) :
    ∃ n : ℕ, e = k + n ∧ m = s * 2 ^ n := by
  rcases le_or_gt k e with hle | hlt
  · refine ⟨(e - k).toNat, by omega, ?_⟩
    rw [dyadic_eq_of_le s hle, dyadic_left_inj] at h
    exact h.symm
  · rw [dyadic_eq_of_le m hlt.le, dyadic_left_inj] at h
    obtain ⟨n, hn⟩ : ∃ n, (k - e).toNat = n + 1 := ⟨(k - e).toNat - 1, by omega⟩
    rw [hn, pow_succ, ← mul_assoc] at h
    omega

theorem abs_le_abs_mul_two_pow (s : ℤ) (n : ℕ) : |s| ≤ |s * 2 ^ n| := by
  rw [abs_mul]
  exact le_mul_of_one_le_right (abs_nonneg s) (by rw [abs_pow, abs_two]; exact one_le_pow₀ one_le_two)

end Lib
