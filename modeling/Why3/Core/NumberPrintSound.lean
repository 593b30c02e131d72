import Why3.Core.NumberReads
import Why3.Lib.ExceptFold
import Mathlib.Tactic.FieldSimp
import Mathlib.Tactic.Positivity

/-!
# Printing keeps the value of constants

What is printed for a constant denotes the constant. An integer is printed in a notation
that is declared unsupported in one case only: binary literals look at the declaration of
octal notation.
-/

namespace Why3

open Lib List

variable {support : NumberSupport} {p : Prop} {c : RealConstant} {r : RealValue} {s : Text} {n : ℕ}
variable {q : ℚ} {e k : ℤ}
variable {α : Type} {form : LiteralForm} {radix : ℕ} {i j : ℤ}

def LiteralForm.Allowed (support : NumberSupport) : LiteralForm → Prop
  | .hex => support.hexIntSupport ≠ .unsupported
  | .oct => support.octIntSupport ≠ .unsupported
  | .bin => support.binIntSupport ≠ .unsupported
  | _ => True

/-! ## Integers -/

/-- Long integers are printed by default if some other notation than the decimal one is. -/
def NumberSupport.LongDefault (support : NumberSupport) : Prop :=
  support.hexIntSupport = .default ∨ support.octIntSupport = .default ∨
    support.binIntSupport = .default → support.longIntSupport = .default

def PrintsInt (support : NumberSupport) (out : Except NumberError Output) (i : ℤ) : Prop :=
  ∃ form o, out = .ok o ∧ Reads form o i ∧ form.Allowed support

theorem printDecInt_prints (support : NumberSupport) (n : ℕ) :
    PrintsInt support (printDecInt support n) n := by
  have hd := digits_bigIntToString n
  rw [printDecInt]
  split
  · exact ⟨.dec, _, rfl, .longInt hd, trivial⟩
  · cases support.decIntSupport with
    | default => exact ⟨.dec, _, rfl, .dec hd, trivial⟩
    | custom => exact ⟨.dec, _, rfl, .decInt n, trivial⟩
    | unsupported => exact ⟨.name, _, rfl, .noDecInt hd, trivial⟩

theorem printInBase_natCast (radix n : ℕ) :
    printInBase radix none n = .ok (printDigits radix 1 n) := by
  rw [printInBase, if_neg (by omega)]
  rfl

theorem printHexInt_prints (hlong : support.LongDefault) (n : ℕ) :
    PrintsInt support (printHexInt support n) n := by
  rw [printHexInt]
  cases h : support.hexIntSupport with
  | default =>
    simp only [checkSupport, hlong (.inl h), printInBase_natCast]
    exact ⟨.hex, _, rfl, .hex (digits_printDigits (by norm_num) (by norm_num) n),
      by simp [LiteralForm.Allowed, h]⟩
  | custom => exact ⟨.hex, _, rfl, .hexInt n, by simp [LiteralForm.Allowed, h]⟩
  | unsupported => exact printDecInt_prints support n

theorem printOctInt_prints (hlong : support.LongDefault) (n : ℕ) :
    PrintsInt support (printOctInt support n) n := by
  rw [printOctInt]
  cases h : support.octIntSupport with
  | default =>
    simp only [checkSupport, hlong (.inr (.inl h)), printInBase_natCast]
    exact ⟨.oct, _, rfl, .oct (digits_printDigits (by norm_num) (by norm_num) n),
      by simp [LiteralForm.Allowed, h]⟩
  | custom => exact ⟨.oct, _, rfl, .octInt n, by simp [LiteralForm.Allowed, h]⟩
  | unsupported => exact printHexInt_prints hlong n

theorem digitIn_ten_b : digitIn 10 'b' = none := by decide

theorem Reads.form_eq_bin (h : Reads form (.text ('0' :: 'b' :: s)) q) : form = .bin := by
  generalize ho : Output.text ('0' :: 'b' :: s) = o at h
  cases h with
  | bin h => rfl
  | dec h =>
    obtain ⟨v, hv⟩ := isSome_of_digitsValue h.2 'b' (by simp [← Output.text.inj ho])
    rw [digitIn_ten_b] at hv
    cases hv
  | decReal h => exact absurd (Output.text.inj ho) (h.ne_letter digitIn_ten_b (by decide) _ _)
  | decRealExp h he =>
    exact absurd (Output.text.inj ho) (h.ne_letter digitIn_ten_b (by decide) _ _)
  | _ => simp at ho

/-- Binary literals are printed in an allowed notation unless octal notation is printed by
default and binary notation is not supported. -/
theorem printBinInt_prints_iff (hlong : support.LongDefault) (n : ℕ) :
    PrintsInt support (printBinInt support n) n ↔
      ¬ (support.octIntSupport = .default ∧ support.binIntSupport = .unsupported) := by
  rw [printBinInt]
  cases h : support.octIntSupport with
  | default =>
    simp only [checkSupport, hlong (.inr (.inl h)), printInBase_natCast]
    constructor
    · rintro ⟨form, o, ho, hreads, hallowed⟩ ⟨-, hbin⟩
      cases ho
      rw [hreads.form_eq_bin] at hallowed
      exact hallowed hbin
    · intro hbin
      exact ⟨.bin, _, rfl, .bin (digits_printDigits (by norm_num) (by norm_num) n),
        fun hb => hbin ⟨trivial, hb⟩⟩
  | custom => exact iff_of_true ⟨.oct, _, rfl, .octInt n, by simp [LiteralForm.Allowed, h]⟩ (by simp)
  | unsupported => exact iff_of_true (printHexInt_prints hlong n) (by simp)

theorem printIntLiteral_natCast (support : NumberSupport) (k : IntLiteralKind) (n : ℕ) :
    printIntLiteral support k n = intPrinter k support n := by
  rw [printIntLiteral, if_neg (by omega)]

theorem printIntLiteral_prints_iff (hlong : support.LongDefault) (k : IntLiteralKind) (n : ℕ) :
    PrintsInt support (printIntLiteral support k n) n ↔
      ¬ (k = .iLitBin ∧ support.octIntSupport = .default ∧ support.binIntSupport = .unsupported) := by
  rw [printIntLiteral_natCast]
  cases k with
  | iLitUnk | iLitDec => exact iff_of_true (printDecInt_prints support n) (by simp)
  | iLitHex => exact iff_of_true (printHexInt_prints hlong n) (by simp)
  | iLitOct => exact iff_of_true (printOctInt_prints hlong n) (by simp)
  | iLitBin => exact (printBinInt_prints_iff hlong n).trans (by simp)

/-- A sign changes neither the notation nor what is read after it. -/
theorem reads_negativeInt_iff {o : Output} :
    Reads form (forceSupport support.negativeIntSupport (.minus o) (.negativeInt o)) (-q) ↔
      Reads form o q := by
  cases support.negativeIntSupport with
  | default =>
    refine ⟨fun h => ?_, .minus⟩
    generalize hq : -q = q' at h
    cases h with
    | minus h => rwa [neg_inj.mp hq]
  | custom =>
    refine ⟨fun h => ?_, .negativeInt⟩
    generalize hq : -q = q' at h
    cases h with
    | negativeInt h => rwa [neg_inj.mp hq]

theorem printIntLiteral_neg {k : IntLiteralKind} (hn : n ≠ 0) :
    PrintsInt support (printIntLiteral support k (-n)) (-n) ↔
      PrintsInt support (printIntLiteral support k n) n := by
  have habs : |(-(n : ℤ))| = n := by rw [abs_neg, Nat.abs_cast]
  rw [printIntLiteral_natCast, printIntLiteral, if_pos (by omega), habs]
  generalize intPrinter k support n = out
  cases out with
  | error x => simp [PrintsInt, bind, Except.bind]
  | ok o =>
    constructor
    · rintro ⟨form, o', ho, hreads, hallowed⟩
      cases ho
      push_cast at hreads
      exact ⟨form, o, rfl, reads_negativeInt_iff.mp hreads, hallowed⟩
    · rintro ⟨form, o', ho, hreads, hallowed⟩
      cases ho
      refine ⟨form, _, rfl, ?_, hallowed⟩
      push_cast
      exact reads_negativeInt_iff.mpr hreads

theorem printIntConstant_prints_iff (hlong : support.LongDefault) (c : IntConstant) :
    PrintsInt support (printIntConstant support c) c.ilInt ↔
      ¬ (c.ilKind = .iLitBin ∧ support.octIntSupport = .default ∧
        support.binIntSupport = .unsupported) := by
  obtain ⟨k, i⟩ := c
  rw [printIntConstant, ← printIntLiteral_prints_iff hlong k i.natAbs]
  simp only
  rcases Int.natAbs_eq i with h | h
  · rw [← h]
  · by_cases hz : i.natAbs = 0
    · rw [h, hz]
      rfl
    · rw [← printIntLiteral_neg hz, ← h]

/-! ## Reals -/

def PrintsReal (out : Except NumberError Output) (q : ℚ) : Prop :=
  ∀ o, out = .ok o → ∃ form, Reads form o q

/-- The only failures are those of conversions to machine integers, and there are none under
the condition. -/
def FailsOnly {α : Type} (out : Except NumberError α) (p : Prop) : Prop :=
  ∀ x, out = .error x → x = .failure ∧ ¬ p

theorem prints_ok {o : Output} (h : Reads form o q) :
    PrintsReal (.ok o) q ∧ FailsOnly (.ok o : Except NumberError Output) p := by
  refine ⟨?_, fun x hx => nomatch hx⟩
  rintro _ ⟨⟩
  exact ⟨form, h⟩

theorem prints_bind {x : Except NumberError α} {f : α → Except NumberError Output}
    (hx : FailsOnly x p) (hf : ∀ a, x = .ok a → PrintsReal (f a) q ∧ FailsOnly (f a) p) :
    PrintsReal (x.bind f) q ∧ FailsOnly (x.bind f) p := by
  cases x with
  | error e =>
    constructor
    · rintro _ ⟨⟩
    · rintro _ ⟨⟩
      exact hx e rfl
  | ok a => exact hf a rfl

theorem digits_one_zeros (k : ℕ) : Digits 10 ('1' :: replicate k '0') (10 ^ k) := by
  refine ⟨by simp, ?_⟩
  have hzeros := digitsValue_zeros (b := 10) (show digitIn 10 '0' = some 0 by decide) k []
  rw [append_nil] at hzeros
  rw [← singleton_append, digitsValue_append_eq_some]
  exact ⟨1, 0, by decide, hzeros, by simp⟩

theorem digits_power2 (k : ℕ) : Digits 10 (power2 k) (2 ^ k) := by
  have := digits_bigIntToString (2 ^ k)
  rwa [Nat.cast_pow, Nat.cast_ofNat] at this

theorem reads_fraction {b : ℕ} (hs : Digits 10 s n) {pow : ℕ → Text}
    (hpow : ∀ k, Digits 10 (pow k) (b ^ k)) (e : ℤ) :
    Reads .frac (fraction s pow e) (n * (b : ℚ) ^ e) := by
  rw [fraction]
  split
  · next h =>
      subst h
      rw [zpow_zero, mul_one]
      exact .expZero hs
  · split
    · next h =>
        have := Reads.expPos hs (hpow e.toNat)
        push_cast at this
        rwa [← zpow_natCast, Int.toNat_of_nonneg (by omega)] at this
    · next h h' =>
        have := Reads.expNeg hs (hpow (-e).toNat)
        push_cast at this
        rwa [← zpow_natCast, Int.toNat_of_nonneg (by omega), zpow_neg, div_inv_eq_mul] at this

theorem Mantissa.dropZero (hr : 2 ≤ radix) (hr' : radix ≤ 36) {i f : Text}
    (h : Mantissa radix i f q) :
    ∃ n : ℕ, Digits radix (i ++ if f = ['0'] then [] else f) n ∧
      q = n / radix ^ (if f = ['0'] then [] else f).length := by
  obtain ⟨hi, -, n, hn, rfl⟩ := h
  split
  · next hf =>
      subst hf
      obtain ⟨m, k, hm, hk, rfl⟩ := digitsValue_append_eq_some.mp hn
      rw [digitsValue_singleton (digitIn_zero hr hr'), Option.some.injEq] at hk
      refine ⟨m, ⟨by simpa using hi, by simpa using hm⟩, ?_⟩
      have : (radix : ℚ) ≠ 0 := by positivity
      rw [← hk]
      simp [this]
  · exact ⟨n, ⟨by simp [hi], hn⟩, rfl⟩

theorem div_pow_mul_zpow {b : ℕ} (hb : b ≠ 0) (n : ℚ) (l : ℕ) (k : ℤ) :
    n / (b : ℚ) ^ l * (b : ℚ) ^ k = n * (b : ℚ) ^ (k - l) := by
  rw [zpow_sub₀ (by positivity), zpow_natCast]
  ring

theorem bigIntToInt_eq_ok (h : bigIntToInt i = .ok j) : i = j := by
  rw [bigIntToInt] at h
  split at h
  · exact Except.ok.inj h
  · cases h

theorem bigIntToInt_failsOnly (h : p → -2 ^ 62 ≤ i ∧ i < 2 ^ 62) : FailsOnly (bigIntToInt i) p := by
  intro x hx
  rw [bigIntToInt] at hx
  split at hx
  · cases hx
  · next hi =>
      cases hx
      exact ⟨rfl, fun hp => hi (h hp)⟩

theorem fracExponent_spec {e : Option Text} (he : ExponentValue e k) (hk : p → |k| < 2 ^ 60) :
    (∀ j, fracExponent e = .ok j → k = j) ∧ FailsOnly (fracExponent e) p := by
  cases he with
  | none => exact ⟨fun j h => Except.ok.inj h, fun x hx => nomatch hx⟩
  | some he =>
    rw [fracExponent, intOfString_signedDigits he]
    refine ⟨fun j h => bigIntToInt_eq_ok h, bigIntToInt_failsOnly fun hp => ?_⟩
    have := abs_lt.mp (hk hp)
    omega

theorem ExponentValue.name {e : Option Text} (he : ExponentValue e k) :
    ∃ e', nameExponent e = removeMinus e' ∧ SignedDigits e' k := by
  cases he with
  | none => exact ⟨['0'], rfl, .pos (n := 0) ⟨by simp, by decide⟩⟩
  | some he => exact ⟨_, rfl, he⟩

section PrintReal

variable {i f : Text} {e : Option Text} {q : ℚ} {k : ℤ}

theorem reads_decRealDefault (h : Mantissa 10 i f q) (he : ExponentValue e k) :
    Reads .decReal (decRealDefault i f e) (q * 10 ^ k) := by
  cases he with
  | none =>
    rw [decRealDefault, if_neg h.frac, zpow_zero, mul_one]
    exact .decReal h
  | some he =>
    rw [decRealDefault, if_neg h.frac]
    exact .decRealExp h he

variable (support : NumberSupport) (h : Mantissa 10 i f q) (he : ExponentValue e k)
  (hk : p → |k| < 2 ^ 60)
include h he hk

theorem decRealFrac_prints :
    PrintsReal (decRealFrac i f e) (q * 10 ^ k) ∧ FailsOnly (decRealFrac i f e) p := by
  obtain ⟨n, hn, rfl⟩ := h.dropZero (by norm_num) (by norm_num)
  rw [decRealFrac]
  generalize (if f = ['0'] then [] else f) = f' at hn
  refine prints_bind (fracExponent_spec he hk).2 fun j hj => ?_
  obtain rfl := (fracExponent_spec he hk).1 j hj
  have hn' : Digits 10 (if i = ['0'] ∧ f' ≠ [] then f' else i ++ f') n := by
    split
    · next hz =>
        refine ⟨hz.2, ?_⟩
        rw [hz.1] at hn
        exact (digitsValue_zeros (show digitIn 10 '0' = some 0 by decide) 1 f').symm.trans hn.2
    · exact hn
  have hreads := reads_fraction hn' digits_one_zeros (k - f'.length)
  rw [← div_pow_mul_zpow (by norm_num)] at hreads
  exact prints_ok hreads

theorem printDecReal_prints :
    PrintsReal (printDecReal support i f e) (q * 10 ^ k) ∧
      FailsOnly (printDecReal support i f e) p := by
  rw [printDecReal]
  cases support.decRealSupport with
  | default => exact prints_ok (reads_decRealDefault h he)
  | custom => exact prints_ok (.customDecReal h he)
  | unsupported =>
    cases support.fracRealSupport with
    | custom => exact decRealFrac_prints h he hk
    | unsupported =>
      obtain ⟨e', hname, he'⟩ := he.name
      rw [forceSupportNodef, decRealFallback, hname]
      exact prints_ok (.decName h he')

end PrintReal

section PrintReal

variable {i f : Text} {e : Option Text} {q : ℚ} {k : ℤ}

theorem reads_hexRealDefault (h : Mantissa 16 i f q) (he : ExponentValue e k) :
    Reads .hexReal (hexRealDefault i f e) (q * 2 ^ k) := by
  cases he with
  | none =>
    rw [hexRealDefault, if_neg h.frac]
    exact .hexReal h (.pos (n := 0) ⟨by simp, by decide⟩)
  | some he =>
    rw [hexRealDefault, if_neg h.frac]
    exact .hexReal h he

variable (support : NumberSupport) (h : Mantissa 16 i f q) (he : ExponentValue e k)
  (hk : p → |k| < 2 ^ 60)
include h he hk

theorem hexRealFrac_prints :
    PrintsReal (hexRealFrac i f e) (q * 2 ^ k) ∧ FailsOnly (hexRealFrac i f e) p := by
  obtain ⟨n, hn, rfl⟩ := h.dropZero (by norm_num) (by norm_num)
  rw [hexRealFrac]
  generalize (if f = ['0'] then [] else f) = f' at hn
  have hdec : anyToDec 16 (i ++ f') = .ok (bigIntToString n) := by
    rw [anyToDec, parseInBase_eq_ok.mpr hn.2]
    rfl
  rw [hdec]
  refine prints_bind (fun x hx => nomatch hx) fun s hs => ?_
  cases hs
  refine prints_bind (fracExponent_spec he hk).2 fun j hj => ?_
  obtain rfl := (fracExponent_spec he hk).1 j hj
  have hreads := reads_fraction (digits_bigIntToString n) digits_power2 (k - 4 * f'.length)
  have hpow : (16 : ℚ) ^ f'.length = (2 : ℕ) ^ (4 * f'.length) := by
    rw [pow_mul]
    norm_num
  rw [← Nat.cast_ofNat, ← Nat.cast_mul, ← div_pow_mul_zpow (by norm_num)] at hreads
  rw [Nat.cast_ofNat, hpow]
  exact prints_ok hreads

theorem printHexReal_prints :
    PrintsReal (printHexReal support i f e) (q * 2 ^ k) ∧
      FailsOnly (printHexReal support i f e) p := by
  rw [printHexReal]
  cases support.hexRealSupport with
  | default => exact prints_ok (reads_hexRealDefault h he)
  | custom => exact prints_ok (.customHexReal h he)
  | unsupported =>
    cases support.fracRealSupport with
    | custom => exact hexRealFrac_prints h he hk
    | unsupported =>
      obtain ⟨e', hname, he'⟩ := he.name
      rw [forceSupportNodef, hexRealFallback, hname]
      exact prints_ok (.hexName h he')

end PrintReal

/-! ## Real constants -/

theorem splitDigits_mantissa (hr : 2 ≤ radix) (hr' : radix ≤ 36) (h : Digits radix s n) (p : ℕ) :
    Mantissa radix (splitDigits s p).1 (splitDigits s p).2 (n / radix ^ p) := by
  have hzero := digitIn_zero hr hr'
  -- zeros are added, so that there are more than `p` digits
  obtain ⟨t, ht, hlen, hsplit⟩ : ∃ t, digitsValue (digitIn radix) radix t = some n ∧ p < t.length ∧
      splitDigits s p = (t.take (t.length - p),
        if t.drop (t.length - p) = [] then ['0'] else t.drop (t.length - p)) := by
    by_cases hp : s.length ≤ p
    · refine ⟨replicate (p + 1 - s.length) '0' ++ s, ?_, ?_, ?_⟩
      · rw [digitsValue_zeros hzero, h.2]
      · simp
        omega
      · have hl : (replicate (p + 1 - s.length) '0' ++ s).length = p + 1 := by
          simp
          omega
        rw [splitDigits, hl]
        simp only [if_pos hp]
    · refine ⟨s, h.2, by omega, ?_⟩
      rw [splitDigits]
      simp only [if_neg hp]
  rw [hsplit]
  refine ⟨?_, ?_, ?_⟩
  · simp only [ne_eq, take_eq_nil_iff, not_or]
    exact ⟨by omega, by rintro rfl; simp at hlen⟩
  · simp only
    split
    · simp
    · assumption
  · simp only
    split
    · next hnil =>
        have hp : p = 0 := by
          have := congrArg List.length hnil
          rw [length_drop, length_nil] at this
          omega
        subst hp
        refine ⟨n * radix, digitsValue_append_eq_some.mpr ⟨n, 0, ?_, ?_, ?_⟩, ?_⟩
        · simpa using ht
        · exact digitsValue_singleton hzero
        · simp
        · have : (radix : ℚ) ≠ 0 := by positivity
          simp [this]
    · next hne =>
        refine ⟨n, by rwa [take_append_drop], ?_⟩
        rw [length_drop, show t.length - (t.length - p) = p by omega]

theorem exponentValue_exponentText (k : ℤ) : ExponentValue (exponentText k) k := by
  rw [exponentText]
  split
  · next h => exact h ▸ .none
  · exact .some (signedDigits_bigIntToString k)

theorem zpow_eq_pow_mul {b : ℚ} (hb : b ≠ 0) (h : e ≤ k) : b ^ k = b ^ (k - e).toNat * b ^ e := by
  rw [← zpow_natCast, Int.toNat_of_nonneg (by omega), ← zpow_add₀ hb, sub_add_cancel]

theorem RealValue.toRat_eq_ten (h2 : e ≤ r.rvPow2) (h5 : e ≤ r.rvPow5) :
    r.toRat = (r.rvSig * 2 ^ (r.rvPow2 - e).toNat * 5 ^ (r.rvPow5 - e).toNat : ℤ) * 10 ^ e := by
  rw [RealValue.toRat, zpow_eq_pow_mul two_ne_zero h2, zpow_eq_pow_mul (by norm_num) h5,
    show (10 : ℚ) = 2 * 5 by norm_num, mul_zpow]
  push_cast
  ring

theorem RealValue.toRat_eq_two (h2 : e ≤ r.rvPow2) (h5 : 0 ≤ r.rvPow5) :
    r.toRat = (r.rvSig * 2 ^ (r.rvPow2 - e).toNat * 5 ^ r.rvPow5.toNat : ℤ) * 2 ^ e := by
  rw [RealValue.toRat, zpow_eq_pow_mul two_ne_zero h2, zpow_eq_pow_mul (by norm_num) h5, sub_zero,
    zpow_zero]
  push_cast
  ring

variable (support)

theorem printDecConstant_prints (hr : 0 ≤ r.rvSig) (hk : p → |k| < 2 ^ 60)
    (h2 : p → |r.rvPow2| < 2 ^ 60) (h5 : p → |r.rvPow5| < 2 ^ 60) :
    PrintsReal (printDecConstant support k r) r.toRat ∧
      FailsOnly (printDecConstant support k r) p := by
  rw [printDecConstant]
  refine prints_bind (bigIntToInt_failsOnly fun hp => ?_) fun p hp => ?_
  · have := abs_lt.mp (hk hp)
    have := abs_lt.mp (h2 hp)
    have := abs_lt.mp (h5 hp)
    omega
  · have hp := bigIntToInt_eq_ok hp
    generalize he : min (min r.rvPow2 r.rvPow5) k = e at hp
    rw [RealValue.toRat_eq_ten (r := r) (e := e) (by omega) (by omega)]
    obtain ⟨n, hn⟩ := Int.eq_ofNat_of_zero_le
      (show 0 ≤ r.rvSig * 2 ^ (r.rvPow2 - e).toNat * 5 ^ (r.rvPow5 - e).toNat by positivity)
    rw [hn]
    have hm := splitDigits_mantissa (by norm_num) (by norm_num) (digits_bigIntToString n) p.toNat
    have hval : (n : ℚ) / (10 : ℕ) ^ p.toNat * (10 : ℕ) ^ k = n * (10 : ℕ) ^ e := by
      rw [div_pow_mul_zpow (by norm_num), Int.toNat_of_nonneg (by omega), ← hp, sub_sub_cancel]
    have hprint := printDecReal_prints support hm (exponentValue_exponentText k) hk
    rwa [← Nat.cast_ofNat (R := ℚ) (n := 10), hval] at hprint

/-- The assertions of `printHexConstant` hold for constants without a negative power of five. -/
theorem printHexConstant_eq (k : ℤ) (hr : 0 ≤ r.rvSig) (h5 : 0 ≤ r.rvPow5) :
    ∃ (n l : ℕ), r.toRat = n / (2 : ℕ) ^ (4 * l) * (2 : ℕ) ^ k ∧
      4 * (l : ℤ) ≤ max 0 (k - r.rvPow2) + 3 ∧
      printHexConstant support k r = (bigIntToInt (4 * l)).bind fun _ =>
        printHexReal support (splitDigits (printDigits 16 1 n) l).1
          (splitDigits (printDigits 16 1 n) l).2 (exponentText k) := by
  obtain ⟨e, he⟩ : ∃ e, (if r.rvPow2 < k then r.rvPow2 - (r.rvPow2 - k) % 4 else k) = e := ⟨_, rfl⟩
  obtain ⟨l, hl⟩ : ∃ l : ℕ, k - e = 4 * l := by
    rw [← he]
    split
    · exact ⟨((k - (r.rvPow2 - (r.rvPow2 - k) % 4)) / 4).toNat, by omega⟩
    · exact ⟨0, by omega⟩
  have he2 : e ≤ r.rvPow2 := by
    rw [← he]
    split <;> omega
  have hle : 4 * (l : ℤ) ≤ max 0 (k - r.rvPow2) + 3 := by
    rw [← hl, ← he]
    split <;> omega
  obtain ⟨n, hn⟩ := Int.eq_ofNat_of_zero_le
    (show 0 ≤ r.rvSig * 2 ^ (r.rvPow2 - e).toNat * 5 ^ r.rvPow5.toNat by positivity)
  refine ⟨n, l, ?_, hle, ?_⟩
  · rw [RealValue.toRat_eq_two he2 h5, hn, div_pow_mul_zpow (by norm_num)]
    push_cast
    rw [← hl, sub_sub_cancel]
  · rw [printHexConstant]
    simp only [he, if_neg (not_lt.mpr h5), hn, printInBase_natCast, hl]
    rw [bigIntToInt]
    split
    · have hmod : ¬ (4 * (l : ℤ)).tmod 4 ≠ 0 := by
        rw [not_not]
        exact Int.mul_tmod_right 4 l
      have hdiv : (4 * (l : ℤ)).tdiv 4 = l := Int.mul_tdiv_cancel_left _ (by norm_num)
      simp only [bind, Except.bind, if_neg hmod, hdiv, Int.toNat_natCast]
    · rfl

theorem printHexConstant_prints (hr : 0 ≤ r.rvSig) (hr5 : 0 ≤ r.rvPow5)
    (hk : p → |k| < 2 ^ 60) (h2 : p → |r.rvPow2| < 2 ^ 60) :
    PrintsReal (printHexConstant support k r) r.toRat ∧
      FailsOnly (printHexConstant support k r) p := by
  obtain ⟨n, l, hval, hle, heq⟩ := printHexConstant_eq support k hr hr5
  rw [heq]
  have hd : Digits 16 (printDigits 16 1 n) n := digits_printDigits (by norm_num) (by norm_num) n
  have hm := splitDigits_mantissa (by norm_num) (by norm_num) hd l
  have hpow : (2 : ℚ) ^ (4 * l) = (16 : ℕ) ^ l := by
    rw [pow_mul]
    norm_num
  refine prints_bind (bigIntToInt_failsOnly fun hp => ?_) fun _ _ => ?_
  · have := abs_lt.mp (hk hp)
    have := abs_lt.mp (h2 hp)
    omega
  · rw [hval, Nat.cast_ofNat, hpow]
    exact printHexReal_prints support hm (exponentValue_exponentText k) hk

theorem printRealConstantNonneg_unk (r : RealValue) :
    ∃ k, (k = 0 ∨ k = min r.rvPow2 r.rvPow5) ∧
      printRealConstantNonneg support ⟨.rLitUnk, r⟩ = printDecConstant support k r := by
  rw [printRealConstantNonneg]
  simp only
  cases bigIntToInt (min r.rvPow2 r.rvPow5) with
  | error x => exact ⟨_, .inr rfl, rfl⟩
  | ok ei =>
    simp only
    split
    · exact ⟨0, .inl rfl, rfl⟩
    · exact ⟨_, .inr rfl, rfl⟩

/-- The constants that literals stand for, and those that are made of a value. -/
def RealConstant.Built (c : RealConstant) : Prop :=
  (∃ radix neg int frac exp, realLiteral radix neg int frac exp = .ok c) ∨
    ∃ pow2 pow5 i, c = ⟨.rLitUnk, realValue pow2 pow5 i⟩

theorem realValue_pow5_nonneg (pow2 i : ℤ) : 0 ≤ (realValue pow2 0 i).rvPow5 := by
  rw [realValue]
  split
  · next h => exact h.ge
  · next h =>
      obtain ⟨m, -, hval, -⟩ := normalize_spec (b := 2) (by norm_num) h
      have hj : (normalize i 2).1 ≠ 0 := fun hj => h (by rw [hval, hj, zero_mul])
      obtain ⟨k, hk, -, -⟩ := normalize_spec (b := 5) (by norm_num) hj
      simp only [zero_add, hk]
      omega

theorem RealConstant.Built.pow5_nonneg (h : c.Built) (hc : c.rlKind = .rLitHex e) :
    0 ≤ c.rlReal.rvPow5 := by
  rcases h with ⟨radix, neg, int, frac, exp, h⟩ | ⟨pow2, pow5, i, rfl⟩
  · rw [realLiteral] at h
    obtain ⟨e', -, ⟨k, check⟩, hk, h⟩ := bind₂_eq_ok.mp h
    obtain ⟨_, -, _, -, n, -, h⟩ := bind₃_eq_ok.mp h
    cases h
    simp only at hc ⊢
    rw [literalKind] at hk
    split at hk
    · cases hk
      cases hc
    · next hr =>
        rw [if_neg hr]
        exact realValue_pow5_nonneg _ _
  · cases hc

/-- The exponents of a constant are well within the machine integers. -/
structure RealConstant.SmallExponents (c : RealConstant) : Prop where
  pow2 : |c.rlReal.rvPow2| < 2 ^ 60
  pow5 : |c.rlReal.rvPow5| < 2 ^ 60
  kind : ∀ e, c.rlKind = .rLitDec e ∨ c.rlKind = .rLitHex e → |e| < 2 ^ 60

theorem printRealConstantNonneg_prints (hr : 0 ≤ c.rlReal.rvSig)
    (h5 : ∀ e, c.rlKind = .rLitHex e → 0 ≤ c.rlReal.rvPow5) :
    PrintsReal (printRealConstantNonneg support c) c.rlReal.toRat ∧
      FailsOnly (printRealConstantNonneg support c) c.SmallExponents := by
  obtain ⟨kind, r⟩ := c
  cases kind with
  | rLitDec e =>
    exact printDecConstant_prints support hr (fun h => h.kind e (.inl rfl)) (·.pow2) (·.pow5)
  | rLitHex e =>
    exact printHexConstant_prints support hr (h5 e rfl) (fun h => h.kind e (.inr rfl)) (·.pow2)
  | rLitUnk =>
    obtain ⟨k, hk, heq⟩ := printRealConstantNonneg_unk support r
    rw [heq]
    refine printDecConstant_prints support hr (fun h => ?_) (·.pow2) (·.pow5)
    rcases hk with rfl | rfl
    · norm_num
    · have h2 := h.pow2
      have h5 := h.pow5
      rcases min_choice r.rvPow2 r.rvPow5 with hmin | hmin
      · rwa [hmin]
      · rwa [hmin]

/-- Real constants keep their value, and are printed unless an exponent is not a machine
integer. -/
theorem printRealConstant_prints (hc : c.Built) :
    PrintsReal (printRealConstant support c) c.rlReal.toRat ∧
      FailsOnly (printRealConstant support c) c.SmallExponents := by
  rw [printRealConstant]
  split
  · next hneg =>
      have hr : 0 ≤ (negReal c).rlReal.rvSig := by
        simp only [negReal]
        omega
      have h5 : ∀ e, (negReal c).rlKind = .rLitHex e → 0 ≤ (negReal c).rlReal.rvPow5 :=
        fun e he => hc.pow5_nonneg he
      obtain ⟨hprints, hfails⟩ := printRealConstantNonneg_prints support hr h5
      refine prints_bind (fun x hx => ?_) fun o ho => ?_
      · obtain ⟨hfail, hsmall⟩ := hfails x hx
        exact ⟨hfail, fun h => hsmall ⟨h.pow2, h.pow5, h.kind⟩⟩
      · obtain ⟨form, hform⟩ := hprints o ho
        rw [toRat_negReal] at hform
        rw [← neg_neg c.rlReal.toRat]
        cases support.negativeRealSupport with
        | default => exact prints_ok (.minus hform)
        | custom => exact prints_ok (.negativeReal hform)
  · next hpos =>
      exact printRealConstantNonneg_prints support (not_lt.mp hpos) fun e he => hc.pow5_nonneg he

/-! ## The record that goes wrong -/

def fullSupport : NumberSupport :=
  ⟨.default, .default, .default, .default, .default, .default, .default, .default, .default,
    .unsupported⟩

/-- Integers keep their value and are printed in a notation that is not declared unsupported,
except for binary literals if octal notation is printed by default and binary notation is
declared unsupported. Real constants keep their value. -/
theorem printConstants_iff {support : NumberSupport} (hlong : support.LongDefault) :
    (∀ c : IntConstant, PrintsInt support (printIntConstant support c) c.ilInt ↔
      ¬ (c.ilKind = .iLitBin ∧ support.octIntSupport = .default ∧
        support.binIntSupport = .unsupported)) ∧
    ∀ c : RealConstant, c.Built →
      PrintsReal (printRealConstant support c) c.rlReal.toRat ∧
        FailsOnly (printRealConstant support c) c.SmallExponents :=
  ⟨printIntConstant_prints_iff hlong, fun _ hc => printRealConstant_prints support hc⟩

theorem printConstants_iff_fullSupport :
    fullSupport.LongDefault ∧
      ∀ c : IntConstant, PrintsInt fullSupport (printIntConstant fullSupport c) c.ilInt :=
  ⟨fun _ => rfl, fun c => ((printConstants_iff fun _ => rfl).1 c).mpr (by simp [fullSupport])⟩

def octalSupport : NumberSupport := { fullSupport with binIntSupport := .unsupported }

/-- The literal `0b101` is printed in binary notation. -/
theorem printIntConstant_unsupported :
    octalSupport.LongDefault ∧
      printIntConstant octalSupport ⟨.iLitBin, 5⟩ = .ok (.text ['0', 'b', '1', '0', '1']) ∧
      Reads .bin (.text ['0', 'b', '1', '0', '1']) (5 : ℕ) ∧
      ¬ PrintsInt octalSupport (printIntConstant octalSupport ⟨.iLitBin, 5⟩) 5 := by
  have hdigits : printDigits 2 1 5 = ['1', '0', '1'] := by
    rw [printDigits, if_neg (by decide), printDigits, if_neg (by decide), printDigits,
      if_neg (by decide), printDigits, if_pos (by decide)]
    rfl
  have hprint : printIntConstant octalSupport ⟨.iLitBin, 5⟩ =
      .ok (.text ('0' :: 'b' :: printDigits 2 1 5)) := rfl
  rw [hdigits] at hprint
  have hread : Digits 2 (printDigits 2 1 5) 5 := digits_printDigits (by norm_num) (by norm_num) 5
  refine ⟨fun _ => rfl, hprint, .bin (hdigits ▸ hread), fun h => ?_⟩
  exact (printIntConstant_prints_iff (fun _ => rfl) ⟨.iLitBin, 5⟩).mp h ⟨rfl, rfl, rfl⟩

end Why3
