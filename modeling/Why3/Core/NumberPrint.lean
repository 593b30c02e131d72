import Why3.Core.NumberText

/-!
# Printing of numeric constants

The printers are given a record that says, for each notation, whether it is printed as it
stands, by a format of the caller, or not at all, in which case the next notation is tried.
The formats of the caller are not known here: what they print is represented by the call.
-/

namespace Why3

/-! ## Supported notations -/

/-- A notation that is printed by default, by a format of the caller, or not at all. -/
inductive Support where
  | default
  | custom
  | unsupported
  deriving DecidableEq, Repr

inductive ForcedSupport where
  | default
  | custom
  deriving DecidableEq, Repr

inductive CustomSupport where
  | custom
  | unsupported
  deriving DecidableEq, Repr

structure NumberSupport where
  longIntSupport : ForcedSupport
  negativeIntSupport : ForcedSupport
  decIntSupport : Support
  hexIntSupport : Support
  octIntSupport : Support
  binIntSupport : Support
  negativeRealSupport : ForcedSupport
  decRealSupport : Support
  hexRealSupport : Support
  fracRealSupport : CustomSupport
  deriving DecidableEq, Repr

/-- What is printed: a text of this module, a call of a format of the caller with its
arguments, or something with a sign. The formats of `decIntSupport` and `fracRealSupport` that
stand for missing notations are called as well. -/
inductive Output where
  | text (s : Text)
  | longInt (s : Text)
  | decInt (i : ℤ)
  | noDecInt (s : Text)
  | hexInt (i : ℤ)
  | octInt (i : ℤ)
  | decReal (i f : Text) (e : Option Text)
  | hexReal (i f : Text) (e : Option Text)
  | expZero (n : Text)
  | expPos (n m : Text)
  | expNeg (n m : Text)
  | noFracReal (s : Text)
  /-- `(- %t)` -/
  | minus (o : Output)
  | negativeInt (o : Output)
  | negativeReal (o : Output)
  deriving DecidableEq, Repr

def checkSupport {α : Type} (support : Support) (default custom tryNext : α) : α :=
  match support with
  | .unsupported => tryNext
  | .default => default
  | .custom => custom

def forceSupport {α : Type} (support : ForcedSupport) (default custom : α) : α :=
  match support with
  | .default => default
  | .custom => custom

def forceSupportNodef {α : Type} (support : CustomSupport) (doIt fallback : α) : α :=
  match support with
  | .unsupported => fallback
  | .custom => doIt

/-! ## Integers -/

def simplifyMaxInt : ℤ := 2147483646

variable (support : NumberSupport)

def printDecInt (i : ℤ) : Except NumberError Output :=
  if support.longIntSupport = .custom ∧ i > simplifyMaxInt then .ok (.longInt (bigIntToString i))
  else
    match support.decIntSupport with
    | .default => .ok (.text (bigIntToString i))
    | .custom => .ok (.decInt i)
    | .unsupported => .ok (.noDecInt (bigIntToString i))

def printHexInt : ℤ → Except NumberError Output :=
  let default i := do
    if support.longIntSupport ≠ .default then .error .assertFailure
    return .text ('0' :: 'x' :: (← printInBase 16 none i))
  checkSupport support.hexIntSupport default (fun i => .ok (.hexInt i)) (printDecInt support)

def printOctInt : ℤ → Except NumberError Output :=
  let default i := do
    if support.longIntSupport ≠ .default then .error .assertFailure
    return .text ('0' :: 'o' :: (← printInBase 8 none i))
  checkSupport support.octIntSupport default (fun i => .ok (.octInt i)) (printHexInt support)

/-- Binary notation. The field that is looked at is that of octal notation. -/
def printBinInt : ℤ → Except NumberError Output :=
  let default i := do
    if support.longIntSupport ≠ .default then .error .assertFailure
    return .text ('0' :: 'b' :: (← printInBase 2 none i))
  checkSupport support.octIntSupport default (fun i => .ok (.octInt i)) (printHexInt support)

def intPrinter : IntLiteralKind → NumberSupport → ℤ → Except NumberError Output
  | .iLitUnk => printDecInt
  | .iLitBin => printBinInt
  | .iLitOct => printOctInt
  | .iLitDec => printDecInt
  | .iLitHex => printHexInt

def printIntLiteral (k : IntLiteralKind) (i : ℤ) : Except NumberError Output := do
  let p := intPrinter k
  if i < 0 then
    let o ← p support |i|
    return forceSupport support.negativeIntSupport (.minus o) (.negativeInt o)
  else p support i

def printIntConstant (c : IntConstant) : Except NumberError Output :=
  printIntLiteral support c.ilKind c.ilInt

/-! ## Reals -/

def removeMinus : Text → Text
  | '-' :: e => 'm' :: e
  | e => e

/-- The exponent of a fraction. The subtractions from it are exact: an overflow would need
digits that do not fit in memory. -/
def fracExponent : Option Text → Except NumberError ℤ
  | none => .ok 0
  | some e => intOfString e

def nameExponent : Option Text → Text
  | none => ['0']
  | some e => removeMinus e

/-- The fraction `n * b ^ e`, with the text of powers of `b`. -/
def fraction (n : Text) (pow : ℕ → Text) (e : ℤ) : Output :=
  if e = 0 then .expZero n
  else if e > 0 then .expPos n (pow e.toNat)
  else .expNeg n (pow (-e).toNat)

def decRealDefault (i f : Text) (e : Option Text) : Output :=
  let f := if f = [] then ['0'] else f
  match e with
  | none => .text (i ++ '.' :: f)
  | some e => .text (i ++ '.' :: (f ++ 'e' :: e))

def decRealFrac (i f : Text) (e : Option Text) : Except NumberError Output := do
  let f := if f = ['0'] then [] else f
  let e ← fracExponent e
  let e := e - f.length
  let n := if i = ['0'] ∧ f ≠ [] then f else i ++ f
  return fraction n (fun e => '1' :: List.replicate e '0') e

def decRealFallback (i f : Text) (e : Option Text) : Output :=
  .noFracReal (i ++ '_' :: (f ++ '_' :: 'e' :: nameExponent e))

def printDecReal (i f : Text) (e : Option Text) : Except NumberError Output :=
  checkSupport support.decRealSupport (.ok (decRealDefault i f e)) (.ok (.decReal i f e))
    (forceSupportNodef support.fracRealSupport (decRealFrac i f e) (.ok (decRealFallback i f e)))

def hexRealDefault (i f : Text) (e : Option Text) : Output :=
  let f := if f = [] then ['0'] else f
  let e := e.getD ['0']
  .text ('0' :: 'x' :: (i ++ '.' :: (f ++ 'p' :: e)))

def hexRealFrac (i f : Text) (e : Option Text) : Except NumberError Output := do
  let f := if f = ['0'] then [] else f
  let n ← anyToDec 16 (i ++ f)
  let e ← fracExponent e
  let e := e - 4 * f.length
  return fraction n power2 e

def hexRealFallback (i f : Text) (e : Option Text) : Output :=
  .noFracReal ('0' :: 'x' :: (i ++ '_' :: (f ++ '_' :: 'p' :: nameExponent e)))

def printHexReal (i f : Text) (e : Option Text) : Except NumberError Output :=
  checkSupport support.hexRealSupport (.ok (hexRealDefault i f e)) (.ok (.hexReal i f e))
    (forceSupportNodef support.fracRealSupport (hexRealFrac i f e) (.ok (hexRealFallback i f e)))

/-- The digits before the last `p` ones, and these. Zeros are added so that there are digits
before, and an empty fraction becomes a zero. -/
def splitDigits (i : Text) (p : ℕ) : Text × Text :=
  let n := i.length
  let (i, n) := if n ≤ p then (List.replicate (p + 1 - n) '0' ++ i, p + 1) else (i, n)
  let (i, f) := (i.take (n - p), i.drop (n - p))
  (i, if f = [] then ['0'] else f)

def exponentText (k : ℤ) : Option Text := if k = 0 then none else some (bigIntToString k)

def printDecConstant (k : ℤ) (r : RealValue) : Except NumberError Output := do
  let e := min (min r.rvPow2 r.rvPow5) k
  let i := r.rvSig * 2 ^ (r.rvPow2 - e).toNat
  let i := i * 5 ^ (r.rvPow5 - e).toNat
  let i := bigIntToString i
  let p ← bigIntToInt (k - e)
  let (i, f) := splitDigits i p.toNat
  printDecReal support i f (exponentText k)

def printHexConstant (k : ℤ) (r : RealValue) : Except NumberError Output := do
  let e := if r.rvPow2 < k then r.rvPow2 - (r.rvPow2 - k) % 4 else k
  if r.rvPow5 < 0 then .error .assertFailure
  let i := r.rvSig * 2 ^ (r.rvPow2 - e).toNat
  let i := i * 5 ^ r.rvPow5.toNat
  let i ← printInBase 16 none i
  let p ← bigIntToInt (k - e)
  if p.tmod 4 ≠ 0 then .error .assertFailure
  let p := p.tdiv 4
  let (i, f) := splitDigits i p.toNat
  printHexReal support i f (exponentText k)

def printRealConstantNonneg (c : RealConstant) : Except NumberError Output :=
  match c.rlKind with
  | .rLitDec e => printDecConstant support e c.rlReal
  | .rLitHex e => printHexConstant support e c.rlReal
  | .rLitUnk =>
    let e := min c.rlReal.rvPow2 c.rlReal.rvPow5
    -- a small decimal exponent is not used
    let e := match bigIntToInt e with
      | .ok ei => if 0 ≤ ei ∧ ei ≤ 2 then 0 else e
      | .error _ => e
    printDecConstant support e c.rlReal

def printRealConstant (c : RealConstant) : Except NumberError Output := do
  if c.rlReal.rvSig < 0 then
    let c := { c with rlReal := { c.rlReal with rvSig := -c.rlReal.rvSig } }
    let o ← printRealConstantNonneg support c
    return forceSupport support.negativeRealSupport (.minus o) (.negativeReal o)
  else printRealConstantNonneg support c

end Why3
