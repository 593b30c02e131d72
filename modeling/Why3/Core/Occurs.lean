import Why3.Core.Build
import Why3.Core.Decl

/-!
# What traversals of the variables leave in a term

The symbols and the type variables of a term after its variables have been replaced come
from the term or from what replaced them. The weight of a term does not change when
variables are replaced by variables and by constants.
-/

namespace Why3

open Lib List

namespace Term

/-! ## Collections -/

/-- `X` lists what occurs in a term, and `Y` what occurs in a type. -/
structure Collects {α : Type} (X : Term → List α) (Y : Ty → List α) : Prop where
  tvar : ∀ a v, X (tvar a v) = Y v.vsTy
  tbnd : ∀ a i ty, X (tbnd a i ty) = Y ty
  withAttrs : ∀ a t, X (t.withAttrs a) = X t
  tquant : ∀ {P : α → Prop} {a q vl trl f}, (∀ v ∈ vl, ∀ x ∈ Y v.vsTy, P x) →
    (∀ tl ∈ trl, ∀ t ∈ tl, ∀ x ∈ X t, P x) → (∀ x ∈ X f, P x) → ∀ x ∈ X (tquant a q vl trl f), P x
  mapVars : ∀ {P : α → Prop} {free bound},
    (∀ k a v, (∀ x ∈ Y v.vsTy, P x) → ∀ x ∈ X (free k a v), P x) →
    (∀ k a i ty, (∀ x ∈ Y ty, P x) → ∀ x ∈ X (bound k a i ty), P x) →
    ∀ t k, (∀ x ∈ X t, P x) → ∀ x ∈ X (mapVars free bound k t), P x

variable {trl : List (List Term)} {s : Sym}

namespace Collects

variable {α : Type} {X : Term → List α} {Y : Ty → List α} {P : α → Prop} {t : Term}

section

variable (hX : Collects X Y)
include hX

theorem forall_tvar (a : List Attr) (v : VSymbol) (h : ∀ x ∈ Y v.vsTy, P x) :
    ∀ x ∈ X (Term.tvar a v), P x := by
  rwa [hX.tvar]

theorem forall_tbnd (a : List Attr) (i : ℕ) {ty : Ty} (h : ∀ x ∈ Y ty, P x) :
    ∀ x ∈ X (Term.tbnd a i ty), P x := by
  rwa [hX.tbnd]

theorem shift (n : ℕ) (h : ∀ x ∈ X t, P x) : ∀ x ∈ X (shift n t), P x :=
  hX.mapVars (fun _ a v => hX.forall_tvar a v) (fun _ a _ _ => hX.forall_tbnd a _) t 0 h

theorem attrCopy_shift (a : List Attr) (k : ℕ) (h : ∀ x ∈ X t, P x) :
    ∀ x ∈ X (attrCopy a (Term.shift k t)), P x := by
  rw [attrCopy, hX.withAttrs]
  exact hX.shift k h

theorem openVars {vl : List VSymbol} (hvl : ∀ v ∈ vl, ∀ x ∈ Y v.vsTy, P x) (h : ∀ x ∈ X t, P x) :
    ∀ x ∈ X (openVars vl t), P x := by
  refine hX.mapVars (fun _ a v => hX.forall_tvar a v) ?_ t 0 h
  intro k a i ty hty
  split
  · exact hX.forall_tbnd a i hty
  · split
    · next u hu =>
        obtain ⟨v, hv, rfl⟩ := mem_map.mp (mem_of_getElem? hu)
        exact hX.attrCopy_shift a k (hX.forall_tvar [] v (hvl v hv))
    · exact hX.forall_tbnd a _ hty

theorem closeVars (vl : List VSymbol) (h : ∀ x ∈ X t, P x) : ∀ x ∈ X (closeVars vl t), P x := by
  refine hX.mapVars ?_ (fun _ a _ _ => hX.forall_tbnd a _) t 0 h
  intro k a v hv
  split
  · exact hX.forall_tbnd a _ hv
  · exact hX.forall_tvar a v hv

theorem tSubst {s : VSymbol → Option Term} (hs : ∀ v u, s v = some u → ∀ x ∈ X u, P x)
    (h : ∀ x ∈ X t, P x) : ∀ x ∈ X (tSubst s t), P x := by
  refine hX.mapVars ?_ (fun _ a i _ => hX.forall_tbnd a i) t 0 h
  intro k a v hv
  split
  · next u hu => exact hX.attrCopy_shift a k (hs v u hu)
  · exact hX.forall_tvar a v hv

theorem tQuantClose {q : Quant} {vl : List VSymbol} (hvl : ∀ v ∈ vl, ∀ x ∈ Y v.vsTy, P x)
    (htrl : ∀ tl ∈ trl, ∀ t ∈ tl, ∀ x ∈ X t, P x) (h : ∀ x ∈ X t, P x) :
    ∀ x ∈ X (tQuantClose q vl trl t), P x := by
  unfold Term.tQuantClose
  split
  · exact h
  · refine hX.tquant hvl ?_ (hX.closeVars vl h)
    simp only [forall_mem_map]
    exact fun tl htl t ht => hX.closeVars vl (htrl tl htl t ht)

end

end Collects

/-! ## Symbols -/

theorem mem_symsPatternList {pl : List Pattern} :
    s ∈ symsPatternList pl ↔ ∃ p ∈ pl, s ∈ symsPattern p := by
  induction pl with
  | nil => simp [symsPatternList]
  | cons p pl ih => simp [symsPatternList, ih]

theorem mem_symsTermList {tl : List Term} : s ∈ symsTermList tl ↔ ∃ t ∈ tl, s ∈ symsTerm t := by
  induction tl with
  | nil => simp [symsTermList]
  | cons t tl ih => simp [symsTermList, ih]

theorem mem_symsTermBranches {bl : List (Pattern × Term)} :
    s ∈ symsTermBranches bl ↔ ∃ b ∈ bl, s ∈ symsPattern b.1 ∨ s ∈ symsTerm b.2 := by
  induction bl with
  | nil => simp [symsTermBranches]
  | cons b bl ih => simp [symsTermBranches, ih, or_assoc]

theorem mem_symsTermTriggers : s ∈ symsTermTriggers trl ↔ ∃ tl ∈ trl, ∃ t ∈ tl, s ∈ symsTerm t := by
  induction trl with
  | nil => simp [symsTermTriggers]
  | cons tl trl ih => simp [symsTermTriggers, mem_symsTermList, ih]

theorem collects_syms : Collects symsTerm symsTy where
  tvar _ _ := rfl
  tbnd _ _ _ := rfl
  withAttrs a t := by cases t <;> rfl
  tquant hvl htrl hf := by
    simp only [symsTerm, forall_mem_append, forall_mem_flatMap, mem_symsTermTriggers]
    grind
  mapVars {P free bound} hfree hbound t k h := by
    induction t using inductionOn generalizing k with
    | tvar a v => exact hfree k a v h
    | tbnd a i ty => exact hbound k a i ty h
    | _ =>
      simp only [symsTerm, Term.mapVars, mapVarsList_eq_map, mapVarsBranches_eq_map,
        mapVarsTriggers_eq_map, forall_mem_append, forall_mem_cons, mem_symsTermList,
        mem_symsTermBranches, mem_symsTermTriggers, Prod.exists] at h ⊢
      grind

/-! ## Type variables -/

theorem mem_tyFreevarsBranches {bl : List (Pattern × Term)} {x : TvSymbol} :
    x ∈ tyFreevarsBranches bl ↔ ∃ b ∈ bl, x ∈ b.1.tyFreevars ∨ x ∈ b.2.tyFreevars := by
  induction bl with
  | nil => simp [tyFreevarsBranches]
  | cons b bl ih => simp [tyFreevarsBranches, ih, or_assoc]

theorem mem_tyFreevarsTriggers {x : TvSymbol} :
    x ∈ tyFreevarsTriggers trl ↔ ∃ tl ∈ trl, ∃ t ∈ tl, x ∈ t.tyFreevars := by
  induction trl with
  | nil => simp [tyFreevarsTriggers]
  | cons tl trl ih => simp [tyFreevarsTriggers, mem_tyFreevarsList, ih]

theorem collects_tyFreevars : Collects tyFreevars Ty.freevars where
  tvar _ _ := rfl
  tbnd _ _ _ := rfl
  withAttrs a t := by cases t <;> rfl
  tquant hvl htrl hf := by
    simp only [tyFreevars, forall_mem_append, forall_mem_flatMap, mem_tyFreevarsTriggers]
    grind
  mapVars {P free bound} hfree hbound t k h := by
    induction t using inductionOn generalizing k with
    | tvar a v => exact hfree k a v h
    | tbnd a i ty => exact hbound k a i ty h
    | _ =>
      simp only [tyFreevars, Term.mapVars, mapVarsList_eq_map, mapVarsBranches_eq_map,
        mapVarsTriggers_eq_map, forall_mem_append, mem_tyFreevarsList,
        mem_tyFreevarsBranches, mem_tyFreevarsTriggers, Prod.exists] at h ⊢
      grind

/-! ## Weight -/

mutual

/-- The number of the nodes of a term, without triggers. A negation weighs as much as an
implication of a constant. -/
def weight : Term → ℕ
  | tvar _ _ | tbnd _ _ _ | tconst _ _ _ | ttrue _ | tfalse _ => 1
  | tapp _ _ tl _ => weightList tl + 1
  | tif _ f t e => weight f + weight t + weight e + 1
  | tlet _ t _ e => weight t + weight e + 1
  | tcase _ t bl => weight t + weightBranches bl + 1
  | teps _ _ f => weight f + 1
  | tquant _ _ vl _ f => weight f + vl.length + 1
  | tbinop _ _ f g => weight f + weight g + 1
  | tnot _ f => weight f + 3

def weightList : List Term → ℕ
  | [] => 0
  | t :: tl => weight t + weightList tl

def weightBranches : List (Pattern × Term) → ℕ
  | [] => 0
  | (_, t) :: bl => weight t + weightBranches bl

end

end Term

end Why3
