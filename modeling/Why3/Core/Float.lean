import Why3.Core.Number

/-!
# Floating-point literals

`computeFloat` finds the exponent and fraction fields of a literal in a format, or finds
that the literal is not a number of the format. It moves the exponent in two loops: the
first removes trailing zeros of the significand, the second adds them. The loops compare
the significand itself with the bounds of the format, not its absolute value.
-/

namespace Why3

open Lib

variable {e s : ℤ}

namespace FloatFormat

variable (fp : FloatFormat)

def smin : ℤ := 2 ^ (fp.fpSignificandDigits - 1)

def smax : ℤ := 2 ^ fp.fpSignificandDigits - 1

def emax : ℤ := 2 ^ (fp.fpExponentDigits - 1)

/-- The exponent of the denormalized numbers. -/
def eden : ℤ := 1 - fp.emax

/-- The smallest exponent of an integer significand. -/
def emin : ℤ := 2 + fp.eden - fp.fpSignificandDigits

theorem smax_nonneg : 0 ≤ fp.smax := by
  have : (0 : ℤ) < 2 ^ fp.fpSignificandDigits := by positivity
  rw [smax]
  omega

theorem smin_pos : 0 < fp.smin := by
  rw [smin]
  positivity

end FloatFormat

/-! ## The encoder -/

/-- Integers `s` and `e` such that the literal is `s * 2 ^ e`. -/
def floatParser (c : RealConstant) : Except NumberError (ℤ × ℤ) :=
  if c.rlReal.rvPow5 < 0 then .error (.nonRepresentableFloat c)
  else .ok (c.rlReal.rvSig * 5 ^ c.rlReal.rvPow5.toNat, c.rlReal.rvPow2)

/-- The first loop of `computeFloat`: if the significand is too big or the exponent is too
small, trailing zeros of the significand are removed. -/
def trimZeros (c : RealConstant) (fp : FloatFormat) (s e : ℤ) : Except NumberError (ℤ × ℤ) :=
  if s > fp.smax ∨ e < fp.emin then
    if s % 2 ≠ 0 then .error (.nonRepresentableFloat c)
    else trimZeros c fp (s / 2) (e + 1)
  else .ok (s, e)
termination_by (s.natAbs, (fp.emin - e).toNat)
decreasing_by
  rename_i h heven
  have hsmax := fp.smax_nonneg
  by_cases hs : s = 0
  · -- zero is not too big, so the exponent is too small
    subst hs
    exact .right _ (by omega)
  · exact .left _ _ (by omega)

/-- The second loop: if the significand is too small and the exponent is too big, trailing
zeros are added. -/
def padZeros (fp : FloatFormat) (s e : ℤ) : ℤ × ℤ :=
  if s < fp.smin ∧ e > fp.emin then padZeros fp (2 * s) (e - 1) else (s, e)
termination_by (e - fp.emin).toNat
decreasing_by omega

def computeFloat (c : RealConstant) (fp : FloatFormat) : Except NumberError (ℤ × ℤ) := do
  let (s, e) ← floatParser c
  if s = 0 then
    return (0, 0)
  else
    let (s, e) ← trimZeros c fp s e
    let (s, e) := padZeros fp s e
    if s < fp.smin then
      -- denormal case
      return (0, s)
    else
      let fe := e + (fp.fpSignificandDigits - 1)
      if fe ≥ fp.emax then
        .error (.nonRepresentableFloat c)
      else
        let fe := fe + (fp.emax - 1)
        let fs := s - fp.smin
        if 0 ≤ fs ∧ fs < 2 ^ (fp.fpSignificandDigits - 1) ∧ 0 ≤ fe ∧
            fe < 2 ^ fp.fpExponentDigits - 1 then
          return (fe, fs)
        else
          .error .assertFailure

/-! ## The numbers of a format -/

namespace FloatFormat

variable (fp : FloatFormat)

def bias : ℤ := 2 ^ (fp.fpExponentDigits - 1) - 1

/-- The number with the given sign, exponent field and fraction field. -/
def decode (neg : Bool) (e m : ℤ) : ℚ :=
  let abs :=
    if e = 0 then dyadic m (1 - fp.bias - (fp.fpSignificandDigits - 1))
    else dyadic (2 ^ (fp.fpSignificandDigits - 1) + m) (e - fp.bias - (fp.fpSignificandDigits - 1))
  if neg then -abs else abs

structure Fields (e m : ℤ) : Prop where
  exponent : 0 ≤ e ∧ e < 2 ^ fp.fpExponentDigits - 1
  fraction : 0 ≤ m ∧ m < 2 ^ (fp.fpSignificandDigits - 1)

def Finite (q : ℚ) : Prop := ∃ neg e m, fp.Fields e m ∧ fp.decode neg e m = q

/-- The outcome of the encoder on a constant is exact: it raises the exception on the
numbers that are not of the format, and returns the fields of the others. The sign of the
fraction is that of the number. -/
structure Encodes (c : RealConstant) (out : Except NumberError (ℤ × ℤ)) : Prop where
  raises : out = .error (.nonRepresentableFloat c) ↔ ¬ fp.Finite c.rlReal.toRat
  fields : ∀ e m, out = .ok (e, m) →
    fp.Fields e |m| ∧ fp.decode (decide (m < 0)) e |m| = c.rlReal.toRat
  errors : ∀ x, out = .error x → x = .nonRepresentableFloat c

variable {fp} {c : RealConstant}

theorem Encodes.error (h : ¬ fp.Finite c.rlReal.toRat) :
    fp.Encodes c (.error (.nonRepresentableFloat c)) where
  raises := ⟨fun _ => h, fun _ => rfl⟩
  fields := by simp
  errors := by simp

theorem Encodes.ok {m : ℤ} (hfields : fp.Fields e |m|)
    (h : fp.decode (decide (m < 0)) e |m| = c.rlReal.toRat) : fp.Encodes c (.ok (e, m)) where
  raises := ⟨by simp, fun hn => absurd ⟨_, _, _, hfields, h⟩ hn⟩
  fields := by
    rintro _ _ ⟨⟩
    exact ⟨hfields, h⟩
  errors := by simp

theorem emax_two_le (heb : 2 ≤ fp.fpExponentDigits) : 2 ≤ fp.emax := by
  obtain ⟨n, hn⟩ : ∃ n, fp.fpExponentDigits - 1 = n + 1 := ⟨fp.fpExponentDigits - 2, by omega⟩
  have : (0 : ℤ) < 2 ^ n := by positivity
  rw [emax, hn, pow_succ]
  omega

theorem two_pow_exponentDigits (heb : 2 ≤ fp.fpExponentDigits) :
    2 ^ fp.fpExponentDigits = 2 * fp.emax := by
  rw [emax, ← pow_succ', Nat.sub_add_cancel (by omega)]

theorem smax_eq (hsb : 2 ≤ fp.fpSignificandDigits) : fp.smax = 2 * fp.smin - 1 := by
  rw [smax, smin, ← pow_succ', Nat.sub_add_cancel (by omega)]

theorem Finite.dyadic (heb : 2 ≤ fp.fpExponentDigits) (hsb : 2 ≤ fp.fpSignificandDigits) {q : ℚ}
    (h : fp.Finite q) : ∃ s k, q = dyadic s k ∧ |s| ≤ fp.smax ∧ fp.emin ≤ k ∧
      k + (fp.fpSignificandDigits - 1) < fp.emax := by
  obtain ⟨neg, e, m, ⟨⟨he, he'⟩, hm, hm'⟩, rfl⟩ := h
  have hemax := emax_two_le heb
  have hsmin := fp.smin_pos
  rw [two_pow_exponentDigits heb] at he'
  have hbias : fp.bias = fp.emax - 1 := rfl
  rw [show (2 : ℤ) ^ (fp.fpSignificandDigits - 1) = fp.smin from rfl] at hm'
  -- the magnitude first, then its sign
  obtain ⟨s, k, habs, hs, hs', hk, hk'⟩ : ∃ s k, fp.decode false e m = Lib.dyadic s k ∧
      0 ≤ s ∧ s ≤ fp.smax ∧ fp.emin ≤ k ∧ k + (fp.fpSignificandDigits - 1) < fp.emax := by
    rw [decode, smax_eq hsb, emin, eden, hbias]
    by_cases hz : e = 0
    · rw [if_pos hz]
      exact ⟨m, _, rfl, hm, by omega, by omega, by omega⟩
    · rw [if_neg hz]
      refine ⟨_, _, rfl, by positivity, ?_, by omega, by omega⟩
      rw [show (2 : ℤ) ^ (fp.fpSignificandDigits - 1) = fp.smin from rfl]
      omega
  cases neg with
  | false => exact ⟨s, k, habs, by rwa [abs_of_nonneg hs], hk, hk'⟩
  | true =>
    refine ⟨-s, k, ?_, by rwa [abs_neg, abs_of_nonneg hs], hk, hk'⟩
    rw [dyadic_neg, ← habs]
    rfl

end FloatFormat

/-! ## The loops -/

section Loops

variable {c : RealConstant} {fp : FloatFormat}

/-- The first loop ends in a form within the bounds, or stops at an odd significand outside
of them. -/
theorem trimZeros_spec (c : RealConstant) (fp : FloatFormat) (s e : ℤ) (hs : s ≠ 0) :
    (∃ s' e', trimZeros c fp s e = .ok (s', e') ∧ dyadic s' e' = dyadic s e ∧ s' ≤ fp.smax ∧
      fp.emin ≤ e') ∨
    (trimZeros c fp s e = .error (.nonRepresentableFloat c) ∧ ∃ s' e', dyadic s' e' = dyadic s e ∧
      s' % 2 ≠ 0 ∧ (s' > fp.smax ∨ e' < fp.emin)) := by
  fun_induction trimZeros c fp s e with
  | case1 s e hout hodd => exact .inr ⟨rfl, s, e, rfl, hodd, hout⟩
  | case2 s e hout heven ih =>
    rw [not_not] at heven
    rw [← dyadic_half heven e]
    exact ih (by omega)
  | case3 s e hin =>
    rw [not_or, not_lt, not_lt] at hin
    exact .inl ⟨s, e, rfl, rfl, hin.1, hin.2⟩

/-- The second loop ends with a normalized significand or with the smallest exponent. -/
theorem padZeros_spec (he : fp.emin ≤ e) {s' e' : ℤ} (h : padZeros fp s e = (s', e')) :
    dyadic s' e' = dyadic s e ∧ fp.emin ≤ e' ∧ (s' < fp.smin → e' = fp.emin) ∧
      (s' ≤ s ∨ s' < 2 * fp.smin) := by
  fun_induction padZeros fp s e with
  | case1 s e hcont ih =>
    obtain ⟨hval, hemin, hsmall, hbound⟩ := ih (by omega) h
    exact ⟨hval.trans (dyadic_double s e), hemin, hsmall, by omega⟩
  | case2 s e hstop =>
    obtain ⟨rfl, rfl⟩ := Prod.mk.inj h
    exact ⟨rfl, he, fun hlt => by omega, .inl le_rfl⟩

/-- A significand that stays below the normalized ones goes down to the smallest exponent. -/
theorem padZeros_neg (hs : s < 0) (he : fp.emin ≤ e) :
    padZeros fp s e = (s * 2 ^ (e - fp.emin).toNat, fp.emin) := by
  obtain ⟨s', e', h⟩ : ∃ s' e', padZeros fp s e = (s', e') := ⟨_, _, rfl⟩
  obtain ⟨hval, -, hsmall, -⟩ := padZeros_spec he h
  have hneg : s' < 0 := (neg_iff_of_dyadic_eq hval).mpr hs
  have he' := hsmall (hneg.trans fp.smin_pos)
  rw [he', dyadic_eq_of_le s he, dyadic_left_inj] at hval
  rw [h, hval, he']

end Loops

/-! ## Correctness -/

section Correct

variable {c : RealConstant} {fp : FloatFormat}

theorem floatParser_spec (hc : c.rlReal.Normal) :
    (∃ s e, floatParser c = .ok (s, e) ∧ c.rlReal.toRat = dyadic s e) ∨
    (floatParser c = .error (.nonRepresentableFloat c) ∧
      ∀ m k, c.rlReal.toRat ≠ dyadic m k) := by
  rw [floatParser]
  split
  · next h => exact .inr ⟨rfl, fun m k hval => absurd (hc.pow5_nonneg hval) (by omega)⟩
  · next h =>
      refine .inl ⟨_, _, rfl, ?_⟩
      have h5 : (5 : ℚ) ^ c.rlReal.rvPow5 = 5 ^ c.rlReal.rvPow5.toNat := by
        rw [← zpow_natCast, Int.toNat_of_nonneg (by omega)]
      rw [RealValue.toRat, dyadic, h5]
      push_cast
      ring

section

variable (heb : 2 ≤ fp.fpExponentDigits)
include heb

/-- A form with an odd significand that is too big, or an exponent that is too small, is not
a number of the format. -/
theorem not_finite_of_odd (hsb : 2 ≤ fp.fpSignificandDigits) (hodd : s % 2 ≠ 0)
    (hout : s > fp.smax ∨ e < fp.emin) : ¬ fp.Finite (dyadic s e) := by
  intro h
  obtain ⟨m, k, hval, hm, hk, -⟩ := h.dyadic heb hsb
  obtain ⟨n, rfl, rfl⟩ := dyadic_odd hodd hval
  have := abs_le_abs_mul_two_pow s n
  have := le_abs_self s
  omega

/-- A form with a normalized significand and the exponent of the infinities is not a number
of the format. -/
theorem not_finite_of_exponent (hsb : 2 ≤ fp.fpSignificandDigits) (hs : fp.smin ≤ s)
    (he : fp.emax ≤ e + (fp.fpSignificandDigits - 1)) : ¬ fp.Finite (dyadic s e) := by
  intro h
  obtain ⟨m, k, hval, hm, -, hk⟩ := h.dyadic heb hsb
  have hke : k < e := by omega
  rw [dyadic_eq_of_le s hke.le, dyadic_left_inj] at hval
  obtain ⟨n, hn⟩ : ∃ n, (e - k).toNat = n + 1 := ⟨(e - k).toNat - 1, by omega⟩
  have hsmin := fp.smin_pos
  have hle : s ≤ s * 2 ^ n := le_mul_of_one_le_right (by omega) (one_le_pow₀ one_le_two)
  have := le_abs_self m
  rw [hn, pow_succ, ← mul_assoc] at hval
  rw [FloatFormat.smax_eq hsb] at hm
  omega

theorem encodes_subnormal (hs : |s| < fp.smin) (hval : c.rlReal.toRat = dyadic s fp.emin) :
    fp.Encodes c (.ok (0, s)) := by
  have hemax := FloatFormat.emax_two_le heb
  refine .ok ⟨⟨le_rfl, ?_⟩, abs_nonneg s, hs⟩ ?_
  · rw [FloatFormat.two_pow_exponentDigits heb]
    omega
  · have hexp : 1 - fp.bias - (fp.fpSignificandDigits - 1) = fp.emin := by
      rw [FloatFormat.emin, FloatFormat.eden, FloatFormat.emax, FloatFormat.bias]
      omega
    rw [hval, FloatFormat.decode, if_pos rfl, hexp]
    by_cases hneg : s < 0
    · simp [hneg, abs_of_neg hneg, dyadic_neg]
    · simp [hneg, abs_of_nonneg (not_lt.mp hneg)]

theorem encodes_normal (hs : fp.smin ≤ s) (hs' : s < 2 * fp.smin) (he : fp.emin ≤ e)
    (he' : e + (fp.fpSignificandDigits - 1) < fp.emax) (hval : c.rlReal.toRat = dyadic s e) :
    fp.Encodes c (.ok (e + (fp.fpSignificandDigits - 1) + (fp.emax - 1), s - fp.smin)) ∧
      s - fp.smin < fp.smin ∧
      0 ≤ e + (fp.fpSignificandDigits - 1) + (fp.emax - 1) ∧
      e + (fp.fpSignificandDigits - 1) + (fp.emax - 1) < 2 ^ fp.fpExponentDigits - 1 := by
  rw [FloatFormat.emin, FloatFormat.eden] at he
  have hexp : e + (fp.fpSignificandDigits - 1) + (fp.emax - 1) < 2 ^ fp.fpExponentDigits - 1 := by
    rw [FloatFormat.two_pow_exponentDigits heb]
    omega
  have hfrac : 0 ≤ s - fp.smin := by omega
  refine ⟨.ok ⟨⟨by omega, hexp⟩, abs_nonneg _, ?_⟩ ?_, by omega, by omega, hexp⟩
  · rw [abs_of_nonneg hfrac]
    exact show s - fp.smin < fp.smin by omega
  · have hexp' : e + (fp.fpSignificandDigits - 1) + (fp.emax - 1) - fp.bias -
        (fp.fpSignificandDigits - 1) = e := by
      rw [FloatFormat.emax, FloatFormat.bias]
      omega
    have hsig : 2 ^ (fp.fpSignificandDigits - 1) + (s - fp.smin) = s :=
      add_sub_cancel fp.smin s
    rw [hval, FloatFormat.decode, abs_of_nonneg hfrac, hexp', hsig,
      decide_eq_false (not_lt.mpr hfrac), if_neg Bool.false_ne_true]
    exact if_neg (by omega)

theorem encodes_positive (hsb : 2 ≤ fp.fpSignificandDigits) (hs : 0 < s)
    (hfp : floatParser c = .ok (s, e)) (hval : c.rlReal.toRat = dyadic s e) :
    fp.Encodes c (computeFloat c fp) := by
  rw [computeFloat, hfp]
  simp only [bind, Except.bind, pure, Except.pure, if_neg hs.ne']
  rcases trimZeros_spec c fp s e hs.ne' with ⟨s₁, e₁, h₁, hval₁, hmax, hmin⟩ |
    ⟨h₁, s₁, e₁, hval₁, hodd, hout⟩
  · obtain ⟨s₂, e₂, h₂⟩ : ∃ s₂ e₂, padZeros fp s₁ e₁ = (s₂, e₂) := ⟨_, _, rfl⟩
    obtain ⟨hval₂, hmin₂, hsmall, hbound⟩ := padZeros_spec hmin h₂
    have hs₂ : 0 < s₂ := (pos_iff_of_dyadic_eq (hval₂.trans hval₁)).mpr hs
    rw [FloatFormat.smax_eq hsb] at hmax
    rw [← hval₁, ← hval₂] at hval
    simp only [h₁, h₂]
    by_cases hlt : s₂ < fp.smin
    · rw [if_pos hlt]
      rw [hsmall hlt] at hval
      exact encodes_subnormal heb (by rwa [abs_of_pos hs₂]) hval
    · rw [if_neg hlt]
      by_cases hbig : e₂ + (fp.fpSignificandDigits - 1) ≥ fp.emax
      · rw [if_pos hbig]
        refine .error ?_
        rw [hval]
        exact not_finite_of_exponent heb hsb (not_lt.mp hlt) hbig
      · obtain ⟨henc, hfs, hfe, hfe'⟩ :=
          encodes_normal heb (not_lt.mp hlt) (by omega) hmin₂ (not_le.mp hbig) hval
        rw [if_neg hbig, if_pos ⟨by omega, hfs, hfe, hfe'⟩]
        exact henc
  · rw [h₁]
    refine .error ?_
    rw [hval, ← hval₁]
    exact not_finite_of_odd heb hsb hodd hout

end

/-- A negative literal is scaled down to the smallest exponent, or has no form with it. -/
theorem computeFloat_negative (fp : FloatFormat) (hs : s < 0) (hfp : floatParser c = .ok (s, e)) :
    (∃ m, computeFloat c fp = .ok (0, m) ∧ dyadic m fp.emin = dyadic s e) ∨
    (computeFloat c fp = .error (.nonRepresentableFloat c) ∧ ∃ s' e', dyadic s' e' = dyadic s e ∧
      s' % 2 ≠ 0 ∧ e' < fp.emin) := by
  rw [computeFloat, hfp]
  simp only [bind, Except.bind, pure, Except.pure, if_neg hs.ne]
  rcases trimZeros_spec c fp s e hs.ne with ⟨s₁, e₁, h₁, hval₁, hmax, hmin⟩ |
    ⟨h₁, s₁, e₁, hval₁, hodd, hout⟩
  · have hs₁ : s₁ < 0 := (neg_iff_of_dyadic_eq hval₁).mpr hs
    simp only [h₁, padZeros_neg hs₁ hmin]
    refine .inl ⟨s₁ * 2 ^ (e₁ - fp.emin).toNat, if_pos ?_, ?_⟩
    · exact (mul_neg_of_neg_of_pos hs₁ (by positivity)).trans fp.smin_pos
    · rw [← dyadic_eq_of_le s₁ hmin, hval₁]
  · rw [h₁]
    have hs₁ : s₁ < 0 := (neg_iff_of_dyadic_eq hval₁).mpr hs
    have := fp.smax_nonneg
    exact .inr ⟨rfl, s₁, e₁, hval₁, hodd, by omega⟩

/-- Negative literals are encoded exactly if they are subnormal or not multiples of the
smallest subnormal number. -/
theorem encodes_negative_iff (heb : 2 ≤ fp.fpExponentDigits) (hsb : 2 ≤ fp.fpSignificandDigits)
    (hs : s < 0) (hfp : floatParser c = .ok (s, e)) (hval : c.rlReal.toRat = dyadic s e) :
    fp.Encodes c (computeFloat c fp) ↔
      (∀ k, c.rlReal.toRat ≠ dyadic k fp.emin) ∨ -2 ^ (2 - fp.emax) < c.rlReal.toRat := by
  rcases computeFloat_negative fp hs hfp with ⟨m, h, hm⟩ | ⟨h, s₁, e₁, hval₁, hodd, hlt⟩
  · have hm0 : m < 0 := (neg_iff_of_dyadic_eq hm).mpr hs
    rw [← hm] at hval
    have hmult : ¬ ∀ k, c.rlReal.toRat ≠ dyadic k fp.emin := fun hk => hk m hval
    have hbound : -2 ^ (2 - fp.emax) < c.rlReal.toRat ↔ |m| < fp.smin := by
      have hpow : -2 ^ (2 - fp.emax) = dyadic (-fp.smin) fp.emin := by
        rw [dyadic_neg, ← one_mul fp.smin, FloatFormat.smin, dyadic_mul_pow, dyadic_one,
          FloatFormat.emin, FloatFormat.eden]
        congr 2
        omega
      rw [hpow, hval, dyadic_lt_left, abs_of_neg hm0, neg_lt]
    rw [or_iff_right hmult, hbound, h]
    refine ⟨fun henc => (henc.fields _ _ rfl).1.fraction.2, fun hlt => ?_⟩
    exact encodes_subnormal heb hlt hval
  · have hodd' : ∀ k, c.rlReal.toRat ≠ dyadic k fp.emin := by
      intro k hk
      rw [hval, ← hval₁] at hk
      obtain ⟨n, hn, -⟩ := dyadic_odd hodd hk
      omega
    rw [h]
    refine ⟨fun _ => .inl hodd', fun _ => .error ?_⟩
    rw [hval, ← hval₁]
    exact not_finite_of_odd heb hsb hodd (.inr hlt)

def float32 : FloatFormat := ⟨8, 24⟩

/-- The constant `1.0`. -/
def oneReal : RealConstant := ⟨.rLitDec 0, ⟨1, 0, 0⟩⟩

theorem oneReal_normal : oneReal.rlReal.Normal :=
  ⟨by decide, by decide, by decide⟩

theorem computeFloat_negReal_one : computeFloat (negReal oneReal) float32 = .ok (0, -2 ^ 149) := by
  have htrim : trimZeros (negReal oneReal) float32 (-1) 0 = .ok (-1, 0) := by
    rw [trimZeros, if_neg (by decide)]
  have hparse : floatParser (negReal oneReal) = .ok (-1, 0) := rfl
  rw [computeFloat, hparse]
  simp only [bind, Except.bind, pure, Except.pure, if_neg (show (-1 : ℤ) ≠ 0 by decide), htrim,
    padZeros_neg (show (-1 : ℤ) < 0 by decide) (show float32.emin ≤ 0 by decide)]
  rfl

/-- The literal `-1.0` is a number of `float32`, and gets the exponent field of the subnormal
numbers with a fraction of 150 bits. -/
theorem computeFloat_misencodes_negative :
    float32.Finite (negReal oneReal).rlReal.toRat ∧
      computeFloat (negReal oneReal) float32 = .ok (0, -2 ^ 149) ∧
      ¬ float32.Encodes (negReal oneReal) (computeFloat (negReal oneReal) float32) := by
  refine ⟨⟨true, 127, 0, ⟨⟨by decide, by decide⟩, le_rfl, by decide⟩, ?_⟩, computeFloat_negReal_one,
    fun h => ?_⟩
  · simp only [FloatFormat.decode, FloatFormat.bias, float32, dyadic, RealValue.toRat, negReal,
      oneReal]
    norm_num
  · have := (h.fields _ _ computeFloat_negReal_one).1.fraction.2
    rw [abs_neg, abs_of_nonneg (by positivity)] at this
    revert this
    decide

/-- A literal is encoded exactly in a format if and only if it is not negative, or is not a
multiple of the smallest subnormal number, or is subnormal. -/
theorem computeFloat_encodes_iff (heb : 2 ≤ fp.fpExponentDigits)
    (hsb : 2 ≤ fp.fpSignificandDigits) (hc : c.rlReal.Normal) :
    fp.Encodes c (computeFloat c fp) ↔
      0 ≤ c.rlReal.toRat ∨ (∀ k, c.rlReal.toRat ≠ dyadic k fp.emin) ∨
        -2 ^ (2 - fp.emax) < c.rlReal.toRat := by
  rcases floatParser_spec hc with ⟨s, e, h, hval⟩ | ⟨h, hval⟩
  · rcases lt_trichotomy s 0 with hs | rfl | hs
    · have hneg : ¬ 0 ≤ c.rlReal.toRat := by
        rw [hval, dyadic_nonneg]
        omega
      rw [or_iff_right hneg]
      exact encodes_negative_iff heb hsb hs h hval
    · have hzero : c.rlReal.toRat = dyadic 0 fp.emin := by rw [hval]; simp [dyadic]
      have hout : computeFloat c fp = .ok (0, 0) := by rw [computeFloat, h]; rfl
      rw [hout]
      refine ⟨fun _ => .inl (by rw [hzero, dyadic_nonneg]), fun _ => ?_⟩
      exact encodes_subnormal heb (by simpa using fp.smin_pos) hzero
    · refine ⟨fun _ => .inl ?_, fun _ => encodes_positive heb hsb hs h hval⟩
      rw [hval, dyadic_nonneg]
      exact hs.le
  · have hout : computeFloat c fp = .error (.nonRepresentableFloat c) := by rw [computeFloat, h]; rfl
    rw [hout]
    refine ⟨fun _ => .inr (.inl fun k => hval k _), fun _ => .error fun hfin => ?_⟩
    obtain ⟨m, k, hmk, -⟩ := hfin.dyadic heb hsb
    exact hval m k hmk

/-- The literal `1.0` is encoded exactly. -/
theorem computeFloat_encodes_iff_one :
    oneReal.rlReal.Normal ∧ float32.Encodes oneReal (computeFloat oneReal float32) :=
  ⟨oneReal_normal, (computeFloat_encodes_iff (by decide) (by decide) oneReal_normal).mpr
    (.inl (by norm_num [oneReal, RealValue.toRat]))⟩

end Correct

end Why3
