import Why3.Core.Simp

/-!
# Mappings written as terms

Abstractions and the closures of symbols, after `src/core/term.ml`. An abstraction is
the choice of a mapping with the right values. Variables that are created on the way
are numbered from the first argument on.
-/

namespace Why3

open List

namespace Term

def tBoolTrue : Term := tapp [] fsBoolTrue [] (some tyBool)

def tBoolFalse : Term := tapp [] fsBoolFalse [] (some tyBool)

def tFuncApp (fn t : Term) : Except Exn Term := tAppInfer fsFuncApp [fn, t]

def freshOf (n : ℕ) : List Ty → List VSymbol
  | [] => []
  | ty :: tyl => ⟨⟨n⟩, ty⟩ :: freshOf (n + 1) tyl

theorem freshOf_cons (n : ℕ) (ty : Ty) (tyl : List Ty) :
    freshOf n (ty :: tyl) = ⟨⟨n⟩, ty⟩ :: freshOf (n + 1) tyl := rfl

theorem length_freshOf (n : ℕ) (tyl : List Ty) : (freshOf n tyl).length = tyl.length := by
  induction tyl generalizing n with
  | nil => rfl
  | cons ty tyl ih => rw [freshOf_cons, length_cons, length_cons, ih]

theorem map_vsTy_freshOf (n : ℕ) (tyl : List Ty) : (freshOf n tyl).map VSymbol.vsTy = tyl := by
  induction tyl generalizing n with
  | nil => rfl
  | cons ty tyl ih => rw [freshOf_cons, map_cons, ih]

theorem mem_freshOf {n : ℕ} {tyl : List Ty} {v : VSymbol} (hv : v ∈ freshOf n tyl) :
    n ≤ v.vsName.idTag ∧ v.vsName.idTag < n + tyl.length := by
  induction tyl generalizing n with
  | nil => exact absurd hv not_mem_nil
  | cons ty tyl ih =>
    rw [length_cons]
    rcases mem_cons.mp hv with rfl | hv
    · exact ⟨le_rfl, by simp⟩
    · have := ih hv
      omega

theorem nodup_freshOf (n : ℕ) (tyl : List Ty) : (freshOf n tyl).Nodup := by
  induction tyl generalizing n with
  | nil => exact nodup_nil
  | cons ty tyl ih =>
    rw [freshOf_cons, nodup_cons]
    refine ⟨fun hmem => ?_, ih (n + 1)⟩
    have := (mem_freshOf hmem).1
    simp only at this
    omega

/-- An equation with `True` stands for its left-hand side. -/
def lambdaBody : Term → Term
  | tapp a ps [l, tapp a' fs [] oty] oty' =>
    if ps = psEqu ∧ fs = fsBoolTrue then attrCopy a l
    else tapp a ps [l, tapp a' fs [] oty] oty'
  | t => t

def tLambda (n : ℕ) (vl : List VSymbol) (trl : List (List Term)) (t0 : Term) :
    Except Exn Term := do
  let t := lambdaBody t0
  if vl.isEmpty then
    match t.tTy with
    | some _ => .ok t
    | none => tIf t tBoolTrue tBoolFalse
  else do
    let ty := vl.foldr (fun v ty => tyFunc v.vsTy ty) (t.tTy.getD tyBool)
    let fc : VSymbol := ⟨⟨n⟩, ty⟩
    let h ← vl.foldlM (fun h v => tFuncApp h (tvar [] v)) (tvar [] fc)
    let f ← if t.tTy.isSome then tEqu h t else do tIff (← tEqu h tBoolTrue) t
    .ok (tEpsClose fc (← tForallClose vl trl f))

def tClosure (n : ℕ) (ls : LSymbol) (tyl : List Ty) (ty : Option Ty) : Except Exn Term := do
  let vl := freshOf n tyl
  let t ← tApp ls (vl.map (tvar [])) ty
  tLambda (n + tyl.length) vl [] t

end Term

end Why3
