import Mathlib.NumberTheory.Padics.PadicVal.Basic
import Why3.Core.NumberText
import Why3.Lib.ExceptFold

/-!
# Normal forms of real literals

The values of real literals are compared part by part, after `compare_real` of
`src/util/number.ml`. This is right because a number has one normal form: the powers of two and
five are the valuations of the number.
-/

namespace Why3

open Lib

/-- The comparison of the source gives an integer; zero is `eq`. -/
def compareReal (x y : RealValue) : Ordering :=
  (compare x.rvSig y.rvSig).then
    ((compare x.rvPow2 y.rvPow2).then (compare x.rvPow5 y.rvPow5))

inductive RealValue.Built : RealValue → Prop where
  | realValue (pow2 pow5 i : ℤ) : Built (realValue pow2 pow5 i)
  | realLiteral {radix : ℕ} {neg : Bool} {int frac : Text} {exp : Option Text} {c : RealConstant}
      (h : realLiteral radix neg int frac exp = .ok c) : Built c.rlReal
  | negReal {c : RealConstant} (h : Built c.rlReal) : Built (negReal c).rlReal
  | absReal {c : RealConstant} (h : Built c.rlReal) : Built (absReal c).rlReal

/-- The recursion of `normalize` as the source has it, without a guard against zero, ends with a
result. -/
inductive Normalizes : ℤ → ℤ → ℤ → ℤ × ℤ → Prop where
  | stop {v p e : ℤ} (h : v.tmod p ≠ 0) : Normalizes v p e (v, 0)
  | step {v p e : ℤ} {r : ℤ × ℤ} (h : v.tmod p = 0)
      (hr : Normalizes (v.tdiv p) (p * p) (e + e) r) : Normalizes v p e
        (if r.1.tmod p = 0 then (r.1.tdiv p, r.2 + (e + e)) else (r.1, r.2 + e))

variable {x y : RealValue}

theorem normalizes_normalizeAux {v p : ℤ} (hv : v ≠ 0) (hp : 1 < p) (e : ℤ) :
    Normalizes v p e (normalizeAux v p e) := by
  induction hn : v.natAbs using Nat.strong_induction_on generalizing v p e with
  | _ n ih =>
    rw [normalizeAux]
    split_ifs with h
    · obtain ⟨d, rfl⟩ := Int.dvd_of_tmod_eq_zero h.1
      have hd : d ≠ 0 := right_ne_zero_of_mul hv
      have hdiv : (p * d).tdiv p = d := Int.mul_tdiv_cancel_left d (by omega)
      have hlt : d.natAbs < n := by
        rw [← hn, Int.natAbs_mul]
        exact lt_mul_of_one_lt_left (Int.natAbs_pos.mpr hd) (by omega)
      have hpp : 1 < p * p := one_lt_mul_of_lt_of_le hp hp.le
      have := ih d.natAbs hlt hd hpp (e + e) rfl
      exact .step h.1 (by rwa [hdiv])
    · exact .stop fun hmod => h ⟨hmod, hv, hp⟩

/-! ## Normal forms -/

theorem realValue_spec (pow2 pow5 i : ℤ) : (realValue pow2 pow5 i).Normal ∧
    (realValue pow2 pow5 i).toRat = i * 2 ^ pow2 * 5 ^ pow5 := by
  rw [realValue]
  split_ifs with hi
  · exact ⟨⟨fun _ => ⟨hi, hi⟩, fun h => absurd hi h, fun h => absurd hi h⟩,
      by simp [RealValue.toRat, hi]⟩
  · obtain ⟨m, hm, hval₂, hdvd₂⟩ := normalize_spec (b := 2) (by norm_num) hi
    generalize normalize i 2 = r at hm hval₂ hdvd₂ ⊢
    have hr : r.1 ≠ 0 := fun hr => hi (by rw [hval₂, hr, zero_mul])
    obtain ⟨k, hk, hval₅, hdvd₅⟩ := normalize_spec (b := 5) (by norm_num) hr
    simp only
    generalize normalize r.1 5 = r' at hk hval₅ hdvd₅ ⊢
    have hr' : r'.1 ≠ 0 := fun hr' => hr (by rw [hval₅, hr', zero_mul])
    refine ⟨⟨fun h => absurd h hr', fun _ h => hdvd₂ ?_, fun _ => hdvd₅⟩, ?_⟩
    · rw [hval₅]
      exact dvd_mul_of_dvd_left h _
    · rw [RealValue.toRat, hval₂, hval₅, hm, hk, zpow_add₀ two_ne_zero, zpow_add₀ (by norm_num)]
      push_cast
      simp only [zpow_natCast]
      ring

theorem RealValue.Built.normal (h : x.Built) : x.Normal := by
  induction h with
  | realValue pow2 pow5 i => exact (realValue_spec pow2 pow5 i).1
  | realLiteral h =>
    obtain ⟨e, -, k, -, _, -, h⟩ := bind₃_eq_ok.mp h
    obtain ⟨_, -, s, -, h⟩ := bind₂_eq_ok.mp h
    cases h
    simp only
    split_ifs <;> exact (realValue_spec _ _ _).1
  | negReal _ ih =>
    refine ⟨fun h => ih.zero (by simpa [Why3.negReal] using h), fun h => ?_, fun h => ?_⟩
    · simpa [Why3.negReal] using ih.two (by simpa [Why3.negReal] using h)
    · simpa [Why3.negReal] using ih.five (by simpa [Why3.negReal] using h)
  | absReal _ ih =>
    refine ⟨fun h => ih.zero (by simpa [Why3.absReal] using h), fun h => ?_, fun h => ?_⟩
    · simpa [Why3.absReal] using ih.two (by simpa [Why3.absReal] using h)
    · simpa [Why3.absReal] using ih.five (by simpa [Why3.absReal] using h)

theorem padicValRat_toRat {p : ℕ} [Fact p.Prime] (hx : x.rvSig ≠ 0) : padicValRat p x.toRat =
    padicValInt p x.rvSig + x.rvPow2 * padicValNat p 2 + x.rvPow5 * padicValNat p 5 := by
  have hsig : (x.rvSig : ℚ) ≠ 0 := Int.cast_ne_zero.mpr hx
  have h2 : (2 : ℚ) ^ x.rvPow2 ≠ 0 := zpow_ne_zero _ two_ne_zero
  have h5 : (5 : ℚ) ^ x.rvPow5 ≠ 0 := zpow_ne_zero _ (by norm_num)
  have hnat : ∀ n : ℕ, padicValRat p n = padicValNat p n := fun n => padicValRat.of_nat
  rw [RealValue.toRat, padicValRat.mul (mul_ne_zero hsig h2) h5, padicValRat.mul hsig h2,
    padicValRat.zpow, padicValRat.zpow, padicValRat.of_int, ← hnat, ← hnat]
  simp

theorem RealValue.Normal.pow_eq (h : x.Normal) (hx : x.rvSig ≠ 0) :
    x.rvPow2 = padicValRat 2 x.toRat ∧ x.rvPow5 = padicValRat 5 x.toRat := by
  have : Fact (Nat.Prime 5) := ⟨Nat.prime_five⟩
  rw [padicValRat_toRat hx, padicValRat_toRat hx, padicValInt.eq_zero_of_not_dvd (h.two hx),
    padicValInt.eq_zero_of_not_dvd (h.five hx), padicValNat.self one_lt_two,
    padicValNat.self (by norm_num), padicValNat.eq_zero_of_not_dvd (by norm_num : ¬ 2 ∣ 5),
    padicValNat.eq_zero_of_not_dvd (by norm_num : ¬ 5 ∣ 2)]
  simp

theorem toRat_eq_zero : x.toRat = 0 ↔ x.rvSig = 0 := by
  simp [RealValue.toRat, zpow_ne_zero]

theorem RealValue.Normal.eq_of_toRat (hx : x.Normal) (hy : y.Normal) (h : x.toRat = y.toRat) :
    x = y := by
  obtain ⟨s, a, b⟩ := x
  obtain ⟨t, c, d⟩ := y
  by_cases hs : s = 0
  · have ht : t = 0 := toRat_eq_zero.mp (h.symm.trans (toRat_eq_zero.mpr hs))
    obtain ⟨rfl, rfl⟩ := hx.zero hs
    obtain ⟨rfl, rfl⟩ := hy.zero ht
    rw [hs, ht]
  · have ht : t ≠ 0 := fun ht => hs (toRat_eq_zero.mp (h.trans (toRat_eq_zero.mpr ht)))
    obtain ⟨ha, hb⟩ := hx.pow_eq hs
    obtain ⟨hc, hd⟩ := hy.pow_eq ht
    obtain rfl : a = c := ha.trans (h ▸ hc.symm)
    obtain rfl : b = d := hb.trans (h ▸ hd.symm)
    have h2 : (2 : ℚ) ^ a ≠ 0 := zpow_ne_zero _ two_ne_zero
    have h5 : (5 : ℚ) ^ b ≠ 0 := zpow_ne_zero _ (by norm_num)
    obtain rfl : s = t := Int.cast_injective (mul_right_cancel₀ h2 (mul_right_cancel₀ h5 h))
    rfl

theorem compareReal_eq : compareReal x y = .eq ↔ x = y := by
  cases x
  cases y
  simp [compareReal, Ordering.then_eq_eq]

/-- Normalisation ends, and keeps the number; built values are equal for the comparison exactly
when they are the same number. -/
theorem compareReal_eq_iff_toRat :
    (∀ v p : ℤ, v ≠ 0 → 1 < p → Normalizes v p 1 (normalize v p)) ∧
    (∀ pow2 pow5 i : ℤ, (realValue pow2 pow5 i).Normal ∧
      (realValue pow2 pow5 i).toRat = i * 2 ^ pow2 * 5 ^ pow5) ∧
    ∀ x y : RealValue, x.Built → y.Built → (compareReal x y = .eq ↔ x.toRat = y.toRat) := by
  refine ⟨fun v p hv hp => normalizes_normalizeAux hv hp 1, realValue_spec, fun x y hx hy => ?_⟩
  rw [compareReal_eq]
  exact ⟨congrArg RealValue.toRat, hx.normal.eq_of_toRat hy.normal⟩

end Why3
