import Why3.Core.Term
import Mathlib.Data.List.GetD

/-!
# Opening, closing and substitution

The operations of `src/core/term.ml` on binders, as instances of one traversal of
the variables of a term. Indices that point outside of the term are kept in place:
`closeVars` makes room for the new binder and `instantiate` removes it.
-/

namespace Why3

open Lib List

namespace Term

/-- The attributes of an occurrence are added to those of what replaces it. -/
def attrCopy (a : List Attr) (t : Term) : Term := t.withAttrs (a ∪ t.tAttrs)

def shift (n : ℕ) (t : Term) : Term :=
  mapVars (fun _ a v => tvar a v) (fun k a i ty => tbnd a (if i < k then i else i + n) ty) 0 t

theorem getD_append_shift {α : Type} (e ds b : List α) (i : ℕ) (d : α) :
    (e ++ (ds ++ b)).getD (if i < e.length then i else i + ds.length) d = (e ++ b).getD i d := by
  split
  · next h => rw [getD_append _ _ _ _ h, getD_append _ _ _ _ h]
  · next h =>
      rw [getD_append_right _ _ _ _ (by omega), getD_append_right _ _ _ _ (by omega),
        getD_append_right _ _ _ _ (by omega)]
      congr 1
      omega

def instantiate (ul : List Term) (t : Term) : Term :=
  mapVars (fun _ a v => tvar a v)
    (fun k a i ty =>
      if i < k then tbnd a i ty
      else match ul[i - k]? with
        | some u => attrCopy a (shift k u)
        | none => tbnd a (i - ul.length) ty) 0 t

def openVars (vl : List VSymbol) (t : Term) : Term := instantiate (vl.map (tvar [])) t

def closeVars (vl : List VSymbol) (t : Term) : Term :=
  mapVars
    (fun k a v => if v ∈ vl then tbnd a (k + vl.idxOf v) v.vsTy else tvar a v)
    (fun k a i ty => tbnd a (if i < k then i else i + vl.length) ty) 0 t

def tSubst (s : VSymbol → Option Term) (t : Term) : Term :=
  mapVars
    (fun k a v => match s v with
      | some u => attrCopy a (shift k u)
      | none => tvar a v)
    (fun _ a i ty => tbnd a i ty) 0 t

mutual

def freeVars : Term → List VSymbol
  | tvar _ v => [v]
  | tbnd _ _ _ => []
  | tconst _ _ _ => []
  | tapp _ _ tl _ => freeVarsList tl
  | tif _ f t e => freeVars f ++ freeVars t ++ freeVars e
  | tlet _ t _ e => freeVars t ++ freeVars e
  | tcase _ t bl => freeVars t ++ freeVarsBranches bl
  | teps _ _ f => freeVars f
  | tquant _ _ _ trl f => freeVarsTriggers trl ++ freeVars f
  | tbinop _ _ f g => freeVars f ++ freeVars g
  | tnot _ f => freeVars f
  | ttrue _ => []
  | tfalse _ => []

def freeVarsList : List Term → List VSymbol
  | [] => []
  | t :: tl => freeVars t ++ freeVarsList tl

def freeVarsBranches : List (Pattern × Term) → List VSymbol
  | [] => []
  | (_, t) :: bl => freeVars t ++ freeVarsBranches bl

def freeVarsTriggers : List (List Term) → List VSymbol
  | [] => []
  | tl :: trl => freeVarsList tl ++ freeVarsTriggers trl

end

/-! ## Closing constructors -/

def tLetClose (v : VSymbol) (t e : Term) : Term := tlet [] t v (closeVars [v] e)

def tCloseBranch (p : Pattern) (t : Term) : Pattern × Term := (p, closeVars p.vars t)

def tCaseClose (t : Term) (bl : List (Pattern × Term)) : Term :=
  tcase [] t (bl.map fun b => tCloseBranch b.1 b.2)

def tEpsClose (v : VSymbol) (f : Term) : Term := teps [] v (closeVars [v] f)

def tQuantClose (q : Quant) (vl : List VSymbol) (trl : List (List Term)) (f : Term) : Term :=
  if vl.isEmpty then f
  else tquant [] q vl (trl.map fun tl => tl.map (closeVars vl)) (closeVars vl f)

/-! ## Traversals of lists -/

section MapVars

variable {free : ℕ → List Attr → VSymbol → Term} {bound : ℕ → List Attr → ℕ → Ty → Term}

theorem mapVarsList_eq_map (k : ℕ) (tl : List Term) :
    mapVarsList free bound k tl = tl.map (mapVars free bound k) := by
  induction tl with
  | nil => rfl
  | cons t tl ih => rw [mapVarsList, ih, map_cons]

theorem mapVarsBranches_eq_map (k : ℕ) (bl : List (Pattern × Term)) :
    mapVarsBranches free bound k bl =
      bl.map fun (p, t) => (p, mapVars free bound (k + p.vars.length) t) := by
  induction bl with
  | nil => rfl
  | cons b bl ih => rw [mapVarsBranches, ih, map_cons]

theorem mapVarsTriggers_eq_map (k : ℕ) (trl : List (List Term)) :
    mapVarsTriggers free bound k trl = trl.map (·.map (mapVars free bound k)) := by
  induction trl with
  | nil => rfl
  | cons tl trl ih => rw [mapVarsTriggers, ih, mapVarsList_eq_map, map_cons]

theorem map_eq_self {α : Type} {f : α → α} {l : List α} (h : ∀ a ∈ l, f a = a) : l.map f = l :=
  (map_congr_left h).trans (map_id l)

theorem mapVars_self (hfree : ∀ k a v, free k a v = tvar a v)
    (hbound : ∀ k a i ty, bound k a i ty = tbnd a i ty) (t : Term) (k : ℕ) :
    mapVars free bound k t = t := by
  induction t using inductionOn generalizing k with
  | tapp _ _ tl _ ih => rw [mapVars, mapVarsList_eq_map, map_eq_self fun t ht => ih t ht k]
  | tcase _ t bl iht ihb =>
    rw [mapVars, iht, mapVarsBranches_eq_map,
      map_eq_self fun (p, u) h => congrArg (p, ·) (ihb p u h _)]
  | tquant _ _ vl trl f iht ihf =>
    rw [mapVars, ihf, mapVarsTriggers_eq_map,
      map_eq_self fun tl htl => map_eq_self fun t ht => iht tl htl t ht _]
  | _ => simp_all [mapVars]

end MapVars

end Term

end Why3
