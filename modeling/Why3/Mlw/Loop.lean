import Why3.Mlw.Kode
import Why3.Mlw.Variant

/-!
# The code of loops

What `k_expr` of `src/mlw/vc.ml` makes of `while` and `for`. The condition and the body
are given by their code. The type invariants that have to hold at the head of a loop,
which the source collects from its specification, and the invariant found by inference
are part of the loop. Locations are left out, and new variables are numbered from `n`.
-/

namespace Why3

open Lib Term Vc

/-! ## Specifications as formulas -/

namespace Term

def tAndL : List Term → Except Exn Term
  | [] => .ok (ttrue [])
  | [f] => .ok f
  | f :: fl => do tAnd f (← tAndL fl)

def tAndAsymL : List Term → Except Exn Term
  | [] => .ok (ttrue [])
  | [f] => .ok f
  | f :: fl => do tAndAsym f (← tAndAsymL fl)

end Term

namespace Vc

/-- A formula that may be dropped from a conjunction: true, and not written by the user. -/
def canSimp : Term → Bool
  | ttrue a => decide (Attr.annot ∉ a)
  | _ => false

def wpAnd (wp1 wp2 : Term) : Except Exn Term :=
  if (wp1.isTrue || wp2.isFalse) && canSimp wp1 then .ok wp2
  else if (wp2.isTrue || wp1.isFalse) && canSimp wp2 then .ok wp1
  else tAnd wp1 wp2

def spAnd (sp1 sp2 : Term) : Except Exn Term :=
  if sp1.isTrue || sp2.isFalse then .ok sp2
  else if sp2.isTrue || sp1.isFalse then .ok sp1
  else tAnd sp1 sp2

def wpOfInv (attrs : List Attr) (expl : String) (pl : List Term) : Except Exn Term :=
  tAndAsymL (pl.map (vcExpl attrs expl))

def pushStop (attrs : List Attr) (expl : String) : Term → Except Exn Term
  | tbinop a .tand g h =>
    if Attr.annot ∉ a then do
      .ok (attrCopy a (← tAnd (← pushStop attrs expl g) (← pushStop attrs expl h)))
    else .ok (vcExpl attrs expl (tbinop a .tand g h))
  | f => .ok (vcExpl attrs expl f)

def spOfInv (attrs : List Attr) (expl : String) (pl : List Term) : Except Exn Term := do
  tAndL (← pl.mapM (pushStop attrs expl))

def explLoopInit : String := "expl:loop invariant init"

def explLoopKeep : String := "expl:loop invariant preservation"

def explLoopVari : String := "expl:loop variant decrease"

def explForBound : String := "expl:loop bounds"

def explOffBound : String := "expl:out of loop bounds"

def explDivergent : String := "expl:termination"

def spAttr : Attr := .other 0

def wpAttr : Attr := .other 1

def wbAttr : Attr := .other 2

def kpAttr : Attr := .other 3

def ntAttr : Attr := .other 4

/-- The attributes that direct the generator, which do not reach formulas. -/
def vcAttrs : List Attr := [ntAttr, kpAttr, wbAttr, spAttr, wpAttr]

end Vc

/-! ## Pieces of code -/

structure KEnv extends VcEnv where
  /-- Termination need not be proved. -/
  divergent : Bool
  /-- The program variable of a variable. -/
  restorePv : VSymbol → PVSymbol

/-- The effect of an expression, as far as it concerns loops. The covers are the writes
to regions that survive the expression. -/
structure Effect where
  effWrites : TagMap Region (TagMap PVSymbol Unit)
  effCovers : TagMap Region Unit
  effDiverges : Bool

def Effect.writes (eff : Effect) : Writes := eff.effWrites.map fun wr => wr.map fun _ => none

namespace Vc

def kUnit (res : PVSymbol) : Kode := .kval [res] (ttrue [])

def bindOldies (o2v : TagMap PVSymbol PVSymbol) (k : Kode) : Kode :=
  o2v.fold (fun o v k => .kseq (.klet o (tvar [] v.pvVs) (ttrue [])) 0 k) k

def kHavoc (eff : Effect) (k : Kode) : Kode :=
  if eff.effCovers.isEmpty then k else .kseq (.khavoc eff.writes) 0 k

def assumeInv (inv : Term) (k : Kode) : Kode := .kseq (.kval [] inv) 0 k

def assertInv (inv : Term) (k : Kode) : Kode := .kpar (.kstop inv) (assumeInv inv k)

def checkDivergence (env : KEnv) (eff : Effect) (attrs : List Attr) (k : Kode) : Kode :=
  if eff.effDiverges && !env.divergent then
    .kpar (.kstop (vcExpl attrs explDivergent (tfalse []))) k
  else k

/-! ## Old values of a variant -/

def tFreepvs (env : KEnv) (s : TagMap PVSymbol Unit) (t : Term) : TagMap PVSymbol Unit :=
  t.freeVars.foldl (fun s v => s.add (env.restorePv v) ()) s

def impureVars (env : KEnv) (varl : Variant) : List PVSymbol :=
  ((varl.foldl (fun s t => tFreepvs env s t.1) .empty).bindings.map Prod.fst).filter
    fun v => !v.pvIty.ityPure

def oldOfPv (n : ℕ) (v : PVSymbol) : PVSymbol := ⟨⟨⟨n⟩, v.pvVs.vsTy⟩, v.pvIty.ityPurify, false⟩

def oldVars : ℕ → List PVSymbol → List (PVSymbol × PVSymbol)
  | _, [] => []
  | n, v :: vl => (v, oldOfPv n v) :: oldVars (n + 1) vl

def oldifyVariant (env : KEnv) (n : ℕ) (varl : Variant) :
    TagMap PVSymbol PVSymbol × Variant :=
  let fpv := oldVars n (impureVars env varl)
  if fpv.isEmpty then (.empty, varl)
  else
    (fpv.foldl (fun o2v b => o2v.add b.2 b.1) .empty,
      varl.map fun t =>
        (tSubst (fun u => (fpv.find? fun b => b.1.pvVs = u).map fun b => tvar [] b.2.pvVs) t.1, t.2))

end Vc

/-! ## The two loops -/

inductive Cond where
  | evar (v : PVSymbol)
  | proxy (v : PVSymbol) (k : Kode)

inductive ForDirection where
  | forTo
  | forDownTo
  deriving DecidableEq

inductive LoopNode where
  | ewhile (e0 : Cond) (invl : List Term) (varl : Variant) (e1 : Kode)
  | efor (vx a : PVSymbol) (d : ForDirection) (b vi : PVSymbol) (invl : List Term) (e1 : Kode)

structure Loop where
  node : LoopNode
  eff : Effect
  attrs : List Attr
  /-- The type invariants of its specification. -/
  iinv : List Term
  /-- The invariant that was inferred for a `while` loop. -/
  inferred : Option Term
  /-- The variable for the result. -/
  res : PVSymbol

namespace Vc

def varOrProxy : Cond → (PVSymbol → Kode) → Kode
  | .evar v, k => k v
  | .proxy v k0, k => .kseq k0 0 (k v)

/-- `[ STOP inv | HAVOC ; ASSUME inv ; IF e0 THEN e1 ; STOP inv ELSE SKIP ]` -/
def kWhile (env : KEnv) (n : ℕ) (l : Loop) (attrs : List Attr) (e0 : Cond) (invl : List Term)
    (varl : Variant) (e1 : Kode) : Except Exn Kode := do
  let invl := l.inferred.toList ++ invl
  let init ← wpOfInv attrs explLoopInit invl
  let prev ← spOfInv attrs explLoopInit invl
  let keep ← wpOfInv attrs explLoopKeep invl
  let oldies := (oldifyVariant env n varl).1
  let decr ← decrease env.toVcEnv (n + oldies.bindings.length) attrs explLoopVari
    (oldifyVariant env n varl).2 varl
  let keep ← wpAnd decr keep
  let j := l.iinv.foldr assertInv (.kstop init)
  let k := l.iinv.foldr assertInv (.kstop keep)
  let k := .kseq e1 0 k
  let k := varOrProxy e0 fun v => .kif v k (kUnit l.res)
  let k := .kseq (.kval [] prev) 0 (bindOldies oldies k)
  let k := l.iinv.foldr assumeInv k
  let k := checkDivergence env l.eff attrs k
  .ok (.kpar j (kHavoc l.eff k))

/-- The integer value of a variable that has the type of the index `vx`. -/
def intOfPv (env : KEnv) (vx v : PVSymbol) : Except Exn Term :=
  match vx.pvVs.vsTy with
  | .tyapp s _ =>
    if s = tsInt then .ok (tvar [] v.pvVs)
    else do tApp (← intOfRange env.toVcEnv s) [tvar [] v.pvVs] (some tyInt)
  | .tyvar _ => .error .assertFailure

def ForDirection.gt (env : KEnv) : ForDirection → LSymbol
  | .forTo => env.psIntGt
  | .forDownTo => env.psIntLt

def ForDirection.le (env : KEnv) : ForDirection → LSymbol
  | .forTo => env.psIntLe
  | .forDownTo => env.psIntGe

def ForDirection.pl (env : KEnv) : ForDirection → LSymbol
  | .forTo => env.fsIntPl
  | .forDownTo => env.fsIntMn

/-- `[ ASSUME a <= b+1 ;
      [ STOP inv[a]
      | HAVOC ; [ ASSUME a <= v <= b /\ inv[v] ; e1 ; STOP inv[v+1]
                | ASSUME inv[b+1] ] ]
    | ASSUME a > b+1 ]` -/
def kFor (env : KEnv) (l : Loop) (attrs : List Attr) (vx a : PVSymbol) (d : ForDirection)
    (b vi : PVSymbol) (invl : List Term) (e1 : Kode) : Except Exn Kode := do
  let ta ← intOfPv env vx a
  let i := tvar [] vi.pvVs
  let tb ← intOfPv env vx b
  let one := tNatConst 1
  let init ← wpOfInv attrs explLoopInit invl
  let prev ← spOfInv attrs explLoopInit invl
  let keep ← wpOfInv attrs explLoopKeep invl
  let lower ← tApp (ForDirection.le env d) [ta, i] none
  let upper ← tApp (ForDirection.le env d) [i, tb] none
  let bounds ← tAnd lower upper
  let iPl1 ← tApp (ForDirection.pl env d) [i, one] (some tyInt)
  let bPl1 ← tApp (ForDirection.pl env d) [tb, one] (some tyInt)
  let init ← tSubstSingle vi.pvVs ta init
  let keep ← tSubstSingle vi.pvVs iPl1 keep
  let last ← tSubstSingle vi.pvVs bPl1 prev
  let j := l.iinv.foldr assertInv (.kstop init)
  let k := l.iinv.foldr assertInv (.kstop keep)
  let k := .kseq e1 0 k
  let prem ← spAnd bounds prev
  let ix ← intOfPv env vx vx
  let k :=
    if vx = vi then .kseq (.kval [vx] prem) 0 k
    else .kseq (.kval [vx] (ttrue [])) 0 (.kseq (.klet vi ix prem) 0 k)
  let k := .kpar k (.kval [l.res] last)
  let k := l.iinv.foldr assumeInv k
  let k := .kpar j (kHavoc l.eff k)
  let k := checkDivergence env l.eff attrs k
  let inside ← tApp (ForDirection.le env d) [ta, bPl1] none
  let outside ← tApp (ForDirection.gt env d) [ta, bPl1] none
  .ok (.kpar (.kseq (.kval [] (vcExpl attrs explForBound inside)) 0 k)
    (.kseq (.kval [l.res] (vcExpl attrs explForBound outside)) 0
      (.ktag (.off (.expl explOffBound)) (.kcont 0))))

def kLoop (env : KEnv) (n : ℕ) (l : Loop) : Except Exn Kode := do
  let attrs := l.attrs.filter (· ∉ vcAttrs)
  let k ← match l.node with
    | .ewhile e0 invl varl e1 => kWhile env n l attrs e0 invl varl e1
    | .efor vx a d b vi invl e1 => kFor env l attrs vx a d b vi invl e1
  if spAttr ∈ l.attrs then .ok (.ktag .sp k)
  else if wpAttr ∈ l.attrs then .ok (.ktag .wp k)
  else .ok k

end Vc

end Why3
