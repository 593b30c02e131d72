import Why3.Core.Build

/-!
# Constructors with propositional simplification

The constructors of `src/core/term.ml` that drop trivial operands, unused variables
and equal operands. Attributes that only make sense at a split are removed with the
connective.
-/

namespace Why3

open Lib

namespace Term

def isTrue : Term → Bool
  | ttrue _ => true
  | _ => false

def isFalse : Term → Bool
  | tfalse _ => true
  | _ => false

def attrAdd (x : Attr) (t : Term) : Term := t.withAttrs (t.tAttrs.insert x)

def attrRemove (x : Attr) (t : Term) : Term := t.withAttrs (t.tAttrs.filter (· ≠ x))

/-! ## Checked connectives -/

def tNot (f : Term) : Except Exn Term := do .ok (tnot [] (← tProp f))

def tAnd (f g : Term) : Except Exn Term := tBinary .tand f g

def tOr (f g : Term) : Except Exn Term := tBinary .tor f g

def tImplies (f g : Term) : Except Exn Term := tBinary .timplies f g

def tIff (f g : Term) : Except Exn Term := tBinary .tiff f g

def tAndAsym (f g : Term) : Except Exn Term := tAnd (f.attrAdd .asymSplit) g

def tIf (f t e : Term) : Except Exn Term := do
  tTyCheck e t.tTy
  .ok (tif [] (← tProp f) t e)

/-! ## Simplifying connectives -/

def tNotSimp : Term → Except Exn Term
  | ttrue a => .ok (attrCopy a (tfalse []))
  | tfalse a => .ok (attrCopy a (ttrue []))
  | tnot a g => .ok (attrCopy a g)
  | f => tNot f

/-- The simplifications that a conjunction has with and without the attribute. -/
def conjSimp (conj : Term → Term → Except Exn Term) (f g : Term) : Except Exn Term :=
  if f.isTrue then .ok g
  else if g.isTrue then .ok (f.attrRemove .asymSplit)
  else if f.isFalse then .ok (f.attrRemove .asymSplit)
  else if g.isFalse then .ok g
  else if tEqual f g then .ok f
  else conj f g

def disjSimp (disj : Term → Term → Except Exn Term) (f g : Term) : Except Exn Term :=
  if f.isTrue then .ok (f.attrRemove .asymSplit)
  else if g.isTrue then .ok g
  else if f.isFalse then .ok g
  else if g.isFalse then .ok (f.attrRemove .asymSplit)
  else if tEqual f g then .ok f
  else disj f g

def tAndSimp (f g : Term) : Except Exn Term := conjSimp tAnd f g

def tAndAsymSimp (f g : Term) : Except Exn Term := conjSimp tAndAsym f g

def tOrSimp (f g : Term) : Except Exn Term := disjSimp tOr f g

def tImpliesSimp (f g : Term) : Except Exn Term :=
  if f.isTrue then .ok g
  else if g.isTrue then .ok g
  else if f.isFalse then .ok (attrCopy f.tAttrs (ttrue []))
  else if g.isFalse then tNotSimp f
  else if tEqual f g then .ok (attrCopy f.tAttrs (ttrue []))
  else tImplies f g

def tIffSimp (f g : Term) : Except Exn Term :=
  if f.isTrue then .ok g
  else if g.isTrue then .ok f
  else if f.isFalse then tNotSimp g
  else if g.isFalse then tNotSimp f
  else if tEqual f g then .ok (attrCopy f.tAttrs (ttrue []))
  else tIff f g

def tEquSimp (t1 t2 : Term) : Except Exn Term :=
  if tEqual t1 t2 then .ok (ttrue []) else tEqu t1 t2

def tBinarySimp : Binop → Term → Term → Except Exn Term
  | .tand => tAndSimp
  | .tor => tOrSimp
  | .timplies => tImpliesSimp
  | .tiff => tIffSimp

def tIfSimp (f t e : Term) : Except Exn Term :=
  if f.isTrue then .ok t
  else if f.isFalse then .ok e
  else if t.isTrue then do tImpliesSimp (← tNotSimp f) e
  else if t.isFalse then do tAndAsymSimp (← tNotSimp f) e
  else if e.isTrue then tImpliesSimp f t
  else if e.isFalse then tAndAsymSimp f t
  else if tEqual t e then .ok t
  else tIf f t e

/-! ## Simplifying binders -/

/-- The number of free occurrences of a variable, those in triggers included. -/
def tVOccurs (v : VSymbol) (t : Term) : ℕ := t.freeVars.count v

def vsCheck (v : VSymbol) (t : Term) : Except Exn Unit := do
  let ty ← t.tType
  if v.vsTy = ty then .ok () else .error (.typeMismatch v.vsTy ty)

def tSubstSingle (v : VSymbol) (t1 t : Term) : Except Exn Term := do
  vsCheck v t1
  .ok (tSubst (fun u => if u = v then some t1 else none) t)

def small : Term → Bool
  | tvar _ _ => true
  | tconst _ _ _ => true
  | _ => false

def tLetCloseSimp (v : VSymbol) (e t : Term) : Except Exn Term := do
  let n := tVOccurs v t
  if n = 0 then .ok t
  else if n = 1 ∨ small e then tSubstSingle v e t
  else do
    vsCheck v e
    .ok (tLetClose v e t)

/-- Quantifiers are only put on the variables that occur. A trigger that contains
another variable is dropped. -/
def tQuantCloseSimp (q : Quant) (vl : List VSymbol) (trl : List (List Term)) (f : Term) :
    Except Exn Term :=
  if vl.isEmpty then .ok f
  else if vl.all (· ∈ f.freeVars) then do .ok (tQuantClose q vl trl (← tProp f))
  else
    let ul := vl.filter (· ∈ f.freeVars)
    if ul.isEmpty then .ok f
    else do
      .ok (tQuantClose q ul
        (trl.filter fun tl => tl.all fun t => t.freeVars.all (· ∈ f.freeVars)) (← tProp f))

end Term

end Why3
