import Why3.Core.Term
import Why3.Lib.Dyadic
import Mathlib.Data.Nat.Prime.Int

/-!
# Numeric constants

Constants are kept with the notation they were written in. A real constant is a
significand with powers of two and five, and `realValue` takes the factors two and five
out of the significand, so that a value has one representation.
-/

namespace Why3

open Lib

variable {b v : ℤ}

inductive IntLiteralKind where
  | iLitUnk
  | iLitDec
  | iLitHex
  | iLitOct
  | iLitBin
  deriving DecidableEq, Repr

structure IntConstant where
  ilKind : IntLiteralKind
  ilInt : ℤ
  deriving DecidableEq, Repr

inductive RealLiteralKind where
  | rLitUnk
  | rLitDec (e : ℤ)
  | rLitHex (e : ℤ)
  deriving DecidableEq, Repr

structure RealConstant where
  rlKind : RealLiteralKind
  rlReal : RealValue
  deriving DecidableEq, Repr

/-- The exceptions of the module, those of the conversions to machine integers, and failing
assertions. -/
inductive NumberError where
  | invalidConstantLiteral (radix : ℕ) (s : List Char)
  | nonRepresentableFloat (c : RealConstant)
  | failure
  | invalidArgument
  | assertFailure
  deriving DecidableEq, Repr

/-! ## Normal values -/

def RealValue.toRat (r : RealValue) : ℚ := r.rvSig * 2 ^ r.rvPow2 * 5 ^ r.rvPow5

/-- The value of zero has no powers, and no other significand has a factor two or five. -/
structure RealValue.Normal (r : RealValue) : Prop where
  zero : r.rvSig = 0 → r.rvPow2 = 0 ∧ r.rvPow5 = 0
  two : r.rvSig ≠ 0 → ¬ 2 ∣ r.rvSig
  five : r.rvSig ≠ 0 → ¬ 5 ∣ r.rvSig

/-- The greatest power of `p ^ e` that divides `v`, by squaring. The source loops on zero,
which it never gets. -/
def normalizeAux (v p e : ℤ) : ℤ × ℤ :=
  if v.tmod p = 0 ∧ v ≠ 0 ∧ 1 < p then
    let (w, f) := normalizeAux (v.tdiv p) (p * p) (e + e)
    if w.tmod p = 0 then (w.tdiv p, f + (e + e)) else (w, f + e)
  else (v, 0)
termination_by v.natAbs
decreasing_by
  rename_i h
  obtain ⟨-, hv, hp⟩ := h
  rw [Int.natAbs_tdiv]
  exact Nat.div_lt_self (by omega) (by omega)

def normalize (v p : ℤ) : ℤ × ℤ := normalizeAux v p 1

def realValue (pow2 pow5 i : ℤ) : RealValue :=
  if i = 0 then ⟨i, i, i⟩
  else
    let (i, p2) := normalize i 2
    let (i, p5) := normalize i 5
    ⟨i, pow2 + p2, pow5 + p5⟩

def negReal (c : RealConstant) : RealConstant :=
  { c with rlReal := { c.rlReal with rvSig := -c.rlReal.rvSig } }

def absReal (c : RealConstant) : RealConstant :=
  { c with rlReal := { c.rlReal with rvSig := |c.rlReal.rvSig| } }

/-- `normalizeAux` at the power `b ^ n` splits off a power of `b`, and what is left is not
divisible by `b ^ n`. -/
theorem normalizeAux_spec (hb : 1 < b) {n : ℕ} (hn : n ≠ 0) (hv : v ≠ 0) :
    ∃ m : ℕ, (normalizeAux v (b ^ n) n).2 = m ∧ v = (normalizeAux v (b ^ n) n).1 * b ^ m ∧
      ¬ b ^ n ∣ (normalizeAux v (b ^ n) n).1 := by
  induction hk : v.natAbs using Nat.strong_induction_on generalizing v n with
  | _ k ih =>
    have hp : 1 < b ^ n := one_lt_pow₀ hb hn
    rw [normalizeAux]
    by_cases hdvd : b ^ n ∣ v
    · obtain ⟨d, rfl⟩ := hdvd
      have hd : d ≠ 0 := right_ne_zero_of_mul hv
      have hlt : d.natAbs < k := by
        rw [← hk, Int.natAbs_mul]
        exact lt_mul_of_one_lt_left (Int.natAbs_pos.mpr hd) (by omega)
      obtain ⟨m, hm, hval, hnd⟩ := ih _ hlt (n := n + n) (by omega) hd rfl
      rw [if_pos ⟨Int.tmod_eq_zero_of_dvd (Dvd.intro _ rfl), hv, hp⟩,
        Int.mul_tdiv_cancel_left _ (by omega), ← pow_add, ← Nat.cast_add]
      generalize normalizeAux d (b ^ (n + n)) (n + n : ℕ) = r at hm hval hnd
      obtain ⟨w, f⟩ := r
      simp only at hm hval hnd ⊢
      subst hm
      by_cases hw : b ^ n ∣ w
      · obtain ⟨w', rfl⟩ := hw
        rw [if_pos (Int.tmod_eq_zero_of_dvd (Dvd.intro _ rfl)),
          Int.mul_tdiv_cancel_left _ (by omega)]
        refine ⟨m + (n + n), by push_cast; rfl, ?_, fun h => hnd ?_⟩
        · rw [hval]; ring
        · rw [pow_add]
          exact mul_dvd_mul_left _ h
      · rw [if_neg fun h => hw (Int.dvd_of_tmod_eq_zero h)]
        refine ⟨m + n, by push_cast; rfl, ?_, hw⟩
        rw [hval]; ring
    · rw [if_neg fun h => hdvd (Int.dvd_of_tmod_eq_zero h.1)]
      exact ⟨0, rfl, by simp, hdvd⟩

theorem normalize_spec (hb : 1 < b) (hv : v ≠ 0) :
    ∃ m : ℕ, (normalize v b).2 = m ∧ v = (normalize v b).1 * b ^ m ∧ ¬ b ∣ (normalize v b).1 := by
  have := normalizeAux_spec hb one_ne_zero hv
  rwa [pow_one, Nat.cast_one] at this

theorem toRat_negReal (c : RealConstant) : (negReal c).rlReal.toRat = -c.rlReal.toRat := by
  simp [negReal, RealValue.toRat]

theorem RealValue.Normal.pow5_nonneg {r : RealValue} (h : r.Normal) {m k : ℤ}
    (hval : r.toRat = dyadic m k) : 0 ≤ r.rvPow5 := by
  by_contra hneg
  have hz : r.rvSig ≠ 0 := fun hz => hneg (h.zero hz).2.ge
  obtain ⟨n, hn⟩ : ∃ n : ℕ, r.rvPow5 = -(n + 1 : ℕ) := ⟨(-r.rvPow5).toNat - 1, by omega⟩
  have hmul : dyadic r.rvSig r.rvPow2 = dyadic (m * 5 ^ (n + 1)) k := by
    rw [RealValue.toRat, hn, zpow_neg, zpow_natCast, mul_inv_eq_iff_eq_mul₀ (by positivity)] at hval
    rw [dyadic, hval, dyadic, dyadic]
    push_cast
    ring
  -- the significand is odd, so five divides it through a power of two
  have hodd : r.rvSig % 2 ≠ 0 := fun h2 => h.two hz (Int.dvd_of_emod_eq_zero h2)
  obtain ⟨i, -, hi⟩ := dyadic_odd hodd hmul
  have hdvd : (5 : ℤ) ∣ r.rvSig * 2 ^ i := by
    rw [← hi, pow_succ, ← mul_assoc]
    exact dvd_mul_left _ _
  have hprime : Prime (5 : ℤ) := Nat.prime_iff_prime_int.mp Nat.prime_five
  rcases hprime.dvd_or_dvd hdvd with h5 | h5
  · exact h.five hz h5
  · exact absurd (hprime.dvd_of_dvd_pow h5) (by norm_num)

end Why3
