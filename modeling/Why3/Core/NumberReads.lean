import Why3.Core.NumberPrint

/-!
# What printed constants denote

A printed literal is read in a notation. The formats of the caller are taken to print
faithfully what they are called with, so that a call of the format of a notation is read in
that notation.
-/

namespace Why3

open Lib List

/-! ## Readings -/

/-- The notations of literals. `name` is the notation of the formats for missing notations,
which are given the digits as part of a name. -/
inductive LiteralForm where
  | dec
  | hex
  | oct
  | bin
  | decReal
  | hexReal
  | frac
  | name
  deriving DecidableEq, Repr

inductive ExponentValue : Option Text → ℤ → Prop where
  | none : ExponentValue none 0
  | some {e : Text} {k : ℤ} (h : SignedDigits e k) : ExponentValue (some e) k

structure Mantissa (radix : ℕ) (i f : Text) (q : ℚ) : Prop where
  int : i ≠ []
  frac : f ≠ []
  value : ∃ n : ℕ, digitsValue (digitIn radix) radix (i ++ f) = some n ∧
    q = n / radix ^ f.length

/-- What is printed denotes a number when it is read in a notation. -/
inductive Reads : LiteralForm → Output → ℚ → Prop where
  | dec {s : Text} {n : ℕ} (h : Digits 10 s n) : Reads .dec (.text s) n
  | hex {s : Text} {n : ℕ} (h : Digits 16 s n) : Reads .hex (.text ('0' :: 'x' :: s)) n
  | oct {s : Text} {n : ℕ} (h : Digits 8 s n) : Reads .oct (.text ('0' :: 'o' :: s)) n
  | bin {s : Text} {n : ℕ} (h : Digits 2 s n) : Reads .bin (.text ('0' :: 'b' :: s)) n
  | decReal {i f : Text} {q : ℚ} (h : Mantissa 10 i f q) :
      Reads .decReal (.text (i ++ '.' :: f)) q
  | decRealExp {i f e : Text} {q : ℚ} {k : ℤ} (h : Mantissa 10 i f q) (he : SignedDigits e k) :
      Reads .decReal (.text (i ++ '.' :: (f ++ 'e' :: e))) (q * 10 ^ k)
  | hexReal {i f e : Text} {q : ℚ} {k : ℤ} (h : Mantissa 16 i f q) (he : SignedDigits e k) :
      Reads .hexReal (.text ('0' :: 'x' :: (i ++ '.' :: (f ++ 'p' :: e)))) (q * 2 ^ k)
  | minus {form : LiteralForm} {o : Output} {q : ℚ} (h : Reads form o q) :
      Reads form (.minus o) (-q)
  | longInt {s : Text} {n : ℕ} (h : Digits 10 s n) : Reads .dec (.longInt s) n
  | decInt (i : ℤ) : Reads .dec (.decInt i) i
  | noDecInt {s : Text} {n : ℕ} (h : Digits 10 s n) : Reads .name (.noDecInt s) n
  | hexInt (i : ℤ) : Reads .hex (.hexInt i) i
  | octInt (i : ℤ) : Reads .oct (.octInt i) i
  | negativeInt {form : LiteralForm} {o : Output} {q : ℚ} (h : Reads form o q) :
      Reads form (.negativeInt o) (-q)
  | customDecReal {i f : Text} {e : Option Text} {q : ℚ} {k : ℤ} (h : Mantissa 10 i f q)
      (he : ExponentValue e k) : Reads .decReal (.decReal i f e) (q * 10 ^ k)
  | customHexReal {i f : Text} {e : Option Text} {q : ℚ} {k : ℤ} (h : Mantissa 16 i f q)
      (he : ExponentValue e k) : Reads .hexReal (.hexReal i f e) (q * 2 ^ k)
  | expZero {s : Text} {n : ℕ} (h : Digits 10 s n) : Reads .frac (.expZero s) n
  | expPos {s t : Text} {n m : ℕ} (h : Digits 10 s n) (ht : Digits 10 t m) :
      Reads .frac (.expPos s t) (n * m)
  | expNeg {s t : Text} {n m : ℕ} (h : Digits 10 s n) (ht : Digits 10 t m) :
      Reads .frac (.expNeg s t) (n / m)
  | decName {i f e : Text} {q : ℚ} {k : ℤ} (h : Mantissa 10 i f q) (he : SignedDigits e k) :
      Reads .name (.noFracReal (i ++ '_' :: (f ++ '_' :: 'e' :: removeMinus e))) (q * 10 ^ k)
  | hexName {i f e : Text} {q : ℚ} {k : ℤ} (h : Mantissa 16 i f q) (he : SignedDigits e k) :
      Reads .name (.noFracReal ('0' :: 'x' :: (i ++ '_' :: (f ++ '_' :: 'p' :: removeMinus e))))
        (q * 2 ^ k)
  | negativeReal {form : LiteralForm} {o : Output} {q : ℚ} (h : Reads form o q) :
      Reads form (.negativeReal o) (-q)

variable {i f : Text} {q : ℚ}

/-- A character that is not a digit is neither before nor after the point. -/
theorem Mantissa.not_mem {radix : ℕ} (h : Mantissa radix i f q) {c : Char} (hc : digitIn radix c = none) :
    c ∉ i ∧ c ∉ f := by
  obtain ⟨n, hn, -⟩ := h.value
  have : c ∉ i ++ f := by
    intro hmem
    obtain ⟨v, hv⟩ := isSome_of_digitsValue hn c hmem
    rw [hc] at hv
    cases hv
  rwa [mem_append, not_or] at this

theorem Mantissa.ne_letter (h : Mantissa 10 i f q) {c d : Char} (hc : digitIn 10 c = none)
    (hcd : c ≠ d) (t t' : Text) : '0' :: c :: t ≠ i ++ d :: t' := by
  intro heq
  cases i with
  | nil => exact h.int rfl
  | cons a i =>
    rw [cons_append, cons.injEq] at heq
    cases i with
    | nil => exact hcd (List.cons.inj heq.2).1
    | cons b i =>
      rw [cons_append, cons.injEq] at heq
      exact (h.not_mem hc).1 (by simp [heq.2.1])

end Why3
