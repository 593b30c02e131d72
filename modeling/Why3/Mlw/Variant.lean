import Why3.Core.Lambda

/-!
# Variants

The formula that asks the variant of a recursive call to decrease, after `decrease` of
`src/mlw/vc.ml`. A variant is a list of terms, each with a relation or without one; a
term without a relation is compared in the default order of its type: the order of the
integers, that of the values of a range type, or the relation between a value of an
algebraic type and the arguments of its constructor. Printed types are left out of the
messages, and new variables are numbered from `n`.
-/

namespace Why3

open Lib Term

structure VcEnv where
  /-- The constructors in the definition of a type, as far as they are symbols of the
  logic; `none` for an unknown type. -/
  itdConstructors : TySymbol → Option (List (Option LSymbol))
  /-- The projections of range types to integers. -/
  tsRanges : TagMap TySymbol LSymbol
  /-- Whether the theory of accessibility is known. -/
  accKnown : Bool
  psIntLe : LSymbol
  psIntGe : LSymbol
  psIntLt : LSymbol
  psIntGt : LSymbol
  fsIntPl : LSymbol
  fsIntMn : LSymbol
  psWfAcc : LSymbol

abbrev Variant := List (Term × Option LSymbol)

namespace Vc

def tNatConst (n : ℕ) : Term := tconst [] (.constInt n) tyInt

variable (env : VcEnv)

def acc (n : ℕ) (r : LSymbol) (t : Term) : Except Exn Term := do
  if env.accKnown then
    let ty ← t.tType
    let c ← tClosure n r [ty, ty] none
    tApp env.psWfAcc [c, t] none
  else .error (.errorm "please import relations.WellFounded")

def intOfRange (ts : TySymbol) : Except Exn LSymbol :=
  match env.tsRanges.find? ts with
  | some ls => .ok ls
  | none => .error .notFound

variable {env} in
theorem intOfRange_eq_ok {ts : TySymbol} {ls : LSymbol} (h : intOfRange env ts = .ok ls) :
    env.tsRanges.find? ts = some ls := by
  unfold intOfRange at h
  split at h
  · next hfind =>
      cases h
      exact hfind
  · cases h

def annotAttrs : List Attr := [.stopSplit, .annot]

def attrsHasExpl (attrs : List Attr) : Bool :=
  attrs.any fun
    | .expl _ => true
    | _ => false

def vcExpl (attrs : List Attr) (expl : String) (f : Term) : Term :=
  let attrs := annotAttrs ∪ (attrs ∪ f.tAttrs)
  f.withAttrs (if attrsHasExpl attrs then attrs else attrs.insert (.expl expl))

/-! ## The default order -/

def noDefaultOrder {α : Type} : Except Exn α := .error (.errorm "no default order")

/-- The patterns for the arguments of a constructor, and the formula that says that one
of the arguments of type `nty` is `t`. -/
def addArgs (sbs : TagMap TvSymbol Ty) (nty : Ty) (t : Term) :
    ℕ → List Ty → Except Exn (List Pattern × Term)
  | _, [] => .ok ([], tfalse [])
  | n, fty :: tyl => do
    let (pl, f) ← addArgs sbs nty t (n + 1) tyl
    if tyInst sbs fty = nty then
      let vs : VSymbol := ⟨⟨n⟩, nty⟩
      let f ← tOrSimp (← tEqu (tvar [] vs) t) f
      .ok (.pvar vs :: pl, f)
    else .ok (.pwild (tyInst sbs fty) :: pl, f)

def addCs (n : ℕ) (sbs : TagMap TvSymbol Ty) (oty nty : Ty) (t : Term) (cs : LSymbol) :
    Except Exn (Pattern × Term) := do
  let (pl, f) ← addArgs sbs nty t n cs.lsArgs
  let p ← patApp cs pl oty
  .ok (tCloseBranch p f)

def getCs : Option LSymbol → Except Exn LSymbol
  | some cs => .ok cs
  | none => noDefaultOrder

/-- `t` is an argument of the constructor of `oldT`. -/
def decreaseAlg (n : ℕ) (oldT t : Term) : Except Exn Term := do
  let oty ← oldT.tType
  let nty ← t.tType
  match oty with
  | .tyvar _ => noDefaultOrder
  | .tyapp ts _ =>
    match env.itdConstructors ts with
    | none => .error .notFound
    | some rsl => do
      let csl ← rsl.mapM getCs
      if csl.isEmpty then noDefaultOrder
      else do
        let sbs ← tyMatchExn .empty (.tyapp ts (ts.tsArgs.map .tyvar)) oty
        let bl ← csl.mapM (addCs n sbs oty nty t)
        tCase oldT bl

/-- `0 <= oldT /\ t < oldT` on integers. -/
def decreaseInt (oldT t : Term) : Except Exn Term := do
  let le ← tApp env.psIntLe [tNatConst 0, oldT] none
  let lt ← tApp env.psIntLt [t, oldT] none
  tAnd le lt

def decreaseRange (ts : TySymbol) (oldT t : Term) : Except Exn Term := do
  let ls ← intOfRange env ts
  let new ← tApp ls [t] (some tyInt)
  let old ← tApp ls [oldT] (some tyInt)
  tApp env.psIntLt [new, old] none

def isRangeTypeDef {α : Type} : TypeDef α → Bool
  | .range _ => true
  | _ => false

def decreaseDef (n : ℕ) (oldT t : Term) : Except Exn Term := do
  let ty ← t.tType
  let oty ← oldT.tType
  if oty = ty then
    match ty with
    | .tyapp ts _ =>
      if ts = tsInt then decreaseInt env oldT t
      else if isRangeTypeDef ts.tsDef then decreaseRange env ts oldT t
      else decreaseAlg env n oldT t
    | .tyvar _ => decreaseAlg env n oldT t
  else decreaseAlg env n oldT t

/-! ## Lists of terms -/

/-- Either the first components decrease, or they are equal and the rest decreases. -/
def orEqualThen (dt : Except Exn Term) (oldT t : Term) (rest : Except Exn Term) :
    Except Exn Term := do
  let dt ← dt
  let eq ← tEqu oldT t
  tOrSimp dt (← tAndSimp eq (← rest))

def decreaseRel (n : ℕ) (r : LSymbol) (oldT t : Term) : Except Exn Term := do
  let rel ← tApp r [t, oldT] none
  tAnd rel (← acc env n r oldT)

def decr (n : ℕ) : Variant → Variant → Except Exn Term
  | (oldT, some oldR) :: olds, (t, some r) :: news =>
    if oldR = r then
      if tEqual oldT t then decr n olds news
      else orEqualThen (decreaseRel env n r oldT t) oldT t (decr n olds news)
    else .ok (tfalse [])
  | (oldT, none) :: olds, (t, none) :: news =>
    if oldT.tTy = t.tTy then
      if tEqual oldT t then decr n olds news
      else orEqualThen (decreaseDef env n oldT t) oldT t (decr n olds news)
    else decreaseDef env n oldT t
  | _ :: _, [] => .ok (ttrue [])
  | _, _ => .ok (tfalse [])

def decrease (n : ℕ) (attrs : List Attr) (expl : String) (olds news : Variant) :
    Except Exn Term :=
  if olds.isEmpty && news.isEmpty then .ok (ttrue [])
  else do .ok (vcExpl attrs expl (← decr env n olds news))

end Vc

end Why3
