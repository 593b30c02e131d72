import Why3.Core.Number
import Why3.Lib.Digits

/-!
# Texts of numbers

Reading and printing of digits in a base, and the constants that literals stand for. Strings
are lists of characters, of any length. The machine integers of the source are integers, with
the bounds of the conversions to them.
-/

namespace Why3

open Lib List

abbrev Text := List Char

variable {s : Text} {n radix : ℕ}

/-! ## Reading -/

def isDec (c : Char) : Bool := '0' ≤ c ∧ c ≤ '9'

def isHex (c : Char) : Bool := isDec c || ('A' ≤ c ∧ c ≤ 'F') || ('a' ≤ c ∧ c ≤ 'f')

def checkIntegerLiteral (n : ℕ) (f : Char → Bool) (s : Text) : Except NumberError Unit :=
  if s = [] ∨ ¬ s.all f then .error (.invalidConstantLiteral n s) else .ok ()

def digitOf (c : Char) : Option ℕ :=
  if '0' ≤ c ∧ c ≤ '9' then some (c.toNat - '0'.toNat)
  else if 'A' ≤ c ∧ c ≤ 'Z' then some (10 + c.toNat - 'A'.toNat)
  else if 'a' ≤ c ∧ c ≤ 'z' then some (10 + c.toNat - 'a'.toNat)
  else none

def parseInBaseAux (radix : ℕ) (s : Text) (acc : ℕ) : Text → Except NumberError ℕ
  | [] => .ok acc
  | c :: rest =>
    match digitOf c with
    | none => .error (.invalidConstantLiteral radix s)
    | some v =>
      if v ≥ radix then .error (.invalidConstantLiteral radix s)
      else parseInBaseAux radix s (v + radix * acc) rest

def parseInBase (radix : ℕ) (s : Text) : Except NumberError ℕ := parseInBaseAux radix s 0 s

/-- `int_of_big_int`, with integers of 63 bits. -/
def bigIntToInt (i : ℤ) : Except NumberError ℤ :=
  if -2 ^ 62 ≤ i ∧ i < 2 ^ 62 then .ok i else .error .failure

/-- `int_of_string`, on decimal digits with an optional sign. -/
def intOfString : Text → Except NumberError ℤ
  | '-' :: s =>
    match parseInBase 10 s with
    | .ok n => bigIntToInt (-n)
    | .error _ => .error .failure
  | s =>
    match parseInBase 10 s with
    | .ok n => bigIntToInt n
    | .error _ => .error .failure

def checkExp : Text → Except NumberError Unit
  | [] => .error .invalidArgument
  | '-' :: e => checkIntegerLiteral 10 isDec e
  | e => checkIntegerLiteral 10 isDec e

def literalExponent : Option Text → Except NumberError ℤ
  | some e => do
    checkExp e
    intOfString e
  | none => .ok 0

def literalKind (radix : ℕ) (e : ℤ) : Except NumberError (RealLiteralKind × (Char → Bool)) :=
  if radix = 10 then .ok (.rLitDec e, isDec)
  else if radix = 16 then .ok (.rLitHex e, isHex)
  else .error .assertFailure

def checkDigits (radix : ℕ) (check : Char → Bool) (s : Text) : Except NumberError Unit :=
  if s ≠ [] then checkIntegerLiteral radix check s else .ok ()

def realLiteral (radix : ℕ) (neg : Bool) (int frac : Text) (exp : Option Text) :
    Except NumberError RealConstant := do
  let e ← literalExponent exp
  let (k, check) ← literalKind radix e
  checkDigits radix check int
  checkDigits radix check frac
  let s ← parseInBase radix (int ++ frac)
  let s : ℤ := if neg then -(s : ℤ) else s
  let f : ℤ := -(frac.length : ℤ)
  let f := if radix = 16 then 4 * f else f
  let e := e + f
  return ⟨k, if radix = 10 then realValue e e s else realValue e 0 s⟩

/-! ## Printing -/

def charOfInt (i : ℕ) : Char :=
  if i < 10 then Char.ofNat (i + '0'.toNat) else Char.ofNat (i + 'A'.toNat - 10)

/-- The loop of `printInBase`. The source only takes bases of at least two. -/
def printDigits (radix : ℕ) (digits : ℤ) (i : ℕ) : Text :=
  if i = 0 ∨ radix < 2 then replicate digits.toNat '0'
  else printDigits radix (digits - 1) (i / radix) ++ [charOfInt (i % radix)]
termination_by i
decreasing_by
  rename_i h
  rw [not_or] at h
  exact Nat.div_lt_self (by omega) (by omega)

def printInBase (radix : ℕ) (digits : Option ℤ) (i : ℤ) : Except NumberError Text :=
  if i < 0 then .error .assertFailure else .ok (printDigits radix (digits.getD 1) i.toNat)

def bigIntToString (i : ℤ) : Text :=
  if i < 0 then '-' :: printDigits 10 1 i.natAbs else printDigits 10 1 i.natAbs

def anyToDec (radix : ℕ) (s : Text) : Except NumberError Text := do
  return bigIntToString (← parseInBase radix s)

def power2 (n : ℕ) : Text := bigIntToString (2 ^ n)

/-! ## Values of texts -/

def digitIn (radix : ℕ) (c : Char) : Option ℕ := (digitOf c).filter (· < radix)

def Digits (radix : ℕ) (s : Text) (n : ℕ) : Prop :=
  s ≠ [] ∧ digitsValue (digitIn radix) radix s = some n

theorem parseInBaseAux_eq_ok {acc : ℕ} {rest : Text} :
    parseInBaseAux radix s acc rest = .ok n ↔
      digitsValueFrom (digitIn radix) radix acc rest = some n := by
  induction rest generalizing acc with
  | nil => simp [parseInBaseAux, digitsValueFrom]
  | cons c rest ih =>
    rw [parseInBaseAux, digitsValueFrom, digitIn]
    cases digitOf c with
    | none => simp
    | some v =>
      by_cases hv : v < radix
      · simp [Option.filter, hv, not_le.mpr hv, ih]
      · simp [Option.filter, hv, not_lt.mp hv]

theorem parseInBase_eq_ok :
    parseInBase radix s = .ok n ↔ digitsValue (digitIn radix) radix s = some n :=
  parseInBaseAux_eq_ok

theorem digitOf_charOfInt : ∀ i < 36, digitOf (charOfInt i) = some i := by decide

theorem digitIn_charOfInt {i : ℕ} (hr : radix ≤ 36) (hi : i < radix) :
    digitIn radix (charOfInt i) = some i := by
  rw [digitIn, digitOf_charOfInt i (by omega)]
  simp [hi]

theorem digitIn_zero (hr : 2 ≤ radix) (hr' : radix ≤ 36) : digitIn radix '0' = some 0 :=
  digitIn_charOfInt (i := 0) hr' (by omega)

theorem digitsValue_printDigits (hr : 2 ≤ radix) (hr' : radix ≤ 36) (digits : ℤ) (i : ℕ) :
    digitsValue (digitIn radix) radix (printDigits radix digits i) = some i := by
  fun_induction printDigits radix digits i with
  | case1 digits i h =>
    obtain rfl : i = 0 := h.resolve_right (by omega)
    have := digitsValue_zeros (b := radix) (digitIn_zero hr hr') digits.toNat []
    rwa [append_nil] at this
  | case2 digits i h ih =>
    rw [digitsValue_append_eq_some]
    refine ⟨i / radix, i % radix, ih,
      digitsValue_singleton (digitIn_charOfInt hr' (Nat.mod_lt _ (by omega))), ?_⟩
    rw [length_singleton, pow_one]
    exact Nat.div_add_mod' i radix

theorem printDigits_ne_nil (radix i : ℕ) : printDigits radix 1 i ≠ [] := by
  rw [printDigits]
  split
  · simp
  · simp

theorem digits_printDigits (hr : 2 ≤ radix) (hr' : radix ≤ 36) (i : ℕ) :
    Digits radix (printDigits radix 1 i) i :=
  ⟨printDigits_ne_nil radix i, digitsValue_printDigits hr hr' 1 i⟩

theorem digits_bigIntToString (n : ℕ) : Digits 10 (bigIntToString n) n := by
  rw [bigIntToString, if_neg (by omega), Int.natAbs_natCast]
  exact digits_printDigits (by norm_num) (by norm_num) n

inductive SignedDigits : Text → ℤ → Prop where
  | pos {s : Text} {n : ℕ} (h : Digits 10 s n) : SignedDigits s n
  | neg {s : Text} {n : ℕ} (h : Digits 10 s n) : SignedDigits ('-' :: s) (-n)

theorem signedDigits_bigIntToString (i : ℤ) : SignedDigits (bigIntToString i) i := by
  rw [bigIntToString]
  have h : Digits 10 (printDigits 10 1 i.natAbs) i.natAbs :=
    digits_printDigits (by norm_num) (by norm_num) i.natAbs
  split
  · have := SignedDigits.neg h
    rwa [show -(i.natAbs : ℤ) = i by omega] at this
  · have := SignedDigits.pos h
    rwa [show (i.natAbs : ℤ) = i by omega] at this

theorem Digits.head_ne_minus (h : Digits 10 s n) (t : Text) : s ≠ '-' :: t := by
  rintro rfl
  obtain ⟨v, hv⟩ := isSome_of_digitsValue h.2 '-' mem_cons_self
  exact absurd hv (by decide +revert)

theorem intOfString_signedDigits {i : ℤ} (h : SignedDigits s i) :
    intOfString s = bigIntToInt i := by
  cases h with
  | pos h =>
    have hparse := parseInBase_eq_ok.mpr h.2
    rw [intOfString.eq_2 _ h.head_ne_minus, hparse]
  | neg h => rw [intOfString, parseInBase_eq_ok.mpr h.2]

end Why3
