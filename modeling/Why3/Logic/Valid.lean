import Why3.Logic.Lambda

/-!
# Truth of formulas

A formula is valid in an interpretation if it is true for all types of its type
variables and all values of its free variables. The lemmas say what makes the formulas
true that transformations build.
-/

namespace Why3

open Lib Term List

namespace Interp

variable {D : Type} {I : Interp D} {τ : TyVal} {ρ : VSymbol → D}
variable {vl : List VSymbol} {f g t t' u : Term} {v : VSymbol}
variable {trl : List (List Term)}

def Valid (I : Interp D) (f : Term) : Prop :=
  ∀ τ ρ, I.TypedVal τ ρ → I.Holds τ ρ f

/-- A formula that does not mention the variables that changed is as true as before. -/
theorem holds_congr {ρ' : VSymbol → D} (h : ∀ v ∈ f.freeVars, ρ v = ρ' v) :
    I.Holds τ ρ f ↔ I.Holds τ ρ' f := by
  rw [Holds, eval_congr f [] h]
  exact Iff.rfl

theorem holds_timplies {h : Term} (hh : tBinary .timplies f g = .ok h) :
    I.Holds τ ρ h ↔ (I.Holds τ ρ f → I.Holds τ ρ g) := by
  rw [tBinary_eq hh]
  exact Iff.rfl

section

variable (h : tSubstSingle v u t = .ok t') (hu : (I.eval τ ρ [] u).2 = False)
include h hu

theorem eval_tSubstSingle : I.eval τ ρ [] t' = I.eval τ (assign ρ [(v, I.val τ ρ u)]) [] t := by
  obtain ⟨_, _, h⟩ := bind_eq_ok.mp h
  cases h
  rw [eval_tSubst]
  · refine eval_congr t [] fun w _ => ?_
    rw [assign_cons, substVal]
    by_cases hw : w = v
    · simp [hw, val]
    · simp [hw]
  · intro w u' hw
    split at hw
    · cases hw
      exact hu
    · cases hw

theorem holds_tSubstSingle : I.Holds τ ρ t' ↔ I.Holds τ (assign ρ [(v, I.val τ ρ u)]) t := by
  rw [Holds, eval_tSubstSingle h hu]
  exact Iff.rfl

end

/-- A variable that occurs once, or that stands for a variable or a constant, is replaced. -/
theorem eval_tLetCloseSimp (h : tLetCloseSimp v u t = .ok t') (hu : (I.eval τ ρ [] u).2 = False) :
    I.eval τ ρ [] t' = I.eval τ (assign ρ [(v, I.val τ ρ u)]) [] t := by
  unfold tLetCloseSimp at h
  simp only at h
  split at h
  · next hocc =>
      cases h
      refine eval_congr t [] fun w hw => ?_
      have hne : w ≠ v := by
        rintro rfl
        exact count_eq_zero.mp hocc hw
      rw [assign_cons, if_neg hne, assign_nil]
  · split at h
    · exact eval_tSubstSingle h hu
    · obtain ⟨_, _, h⟩ := bind_eq_ok.mp h
      cases h
      exact eval_tLetClose v u t

theorem holds_tForallClose (h : tForallClose vl trl f = .ok g) :
    I.Holds τ ρ g ↔ ∀ ds, I.Typed τ (vl.map VSymbol.vsTy) ds → I.Holds τ (assign ρ (vl.zip ds)) f :=
  eval_tForallClose h

theorem assign_zip_self (ρ : VSymbol → D) (vl : List VSymbol) : assign ρ (vl.zip (vl.map ρ)) = ρ := by
  induction vl with
  | nil => rfl
  | cons v vl ih =>
    funext u
    rw [map_cons, zip_cons_cons, assign_cons, ih]
    split
    · next h => rw [h]
    · rfl

theorem TypedVal.typed_map (hρ : I.TypedVal τ ρ) (vl : List VSymbol) :
    I.Typed τ (vl.map VSymbol.vsTy) (vl.map ρ) := by
  rw [Typed, forall₂_map_left_iff, forall₂_map_right_iff, forall₂_same]
  exact fun v _ => hρ v

/-- A universal formula holds of the values that the variables have. -/
theorem holds_of_tForallClose (h : tForallClose vl trl f = .ok g) (hρ : I.TypedVal τ ρ)
    (hg : I.Holds τ ρ g) : I.Holds τ ρ f := by
  have := (holds_tForallClose h).mp hg _ (hρ.typed_map vl)
  rwa [assign_zip_self] at this

theorem TypedVal.assign_zip (hρ : I.TypedVal τ ρ) {ds : List D}
    (hds : I.Typed τ (vl.map VSymbol.vsTy) ds) : I.TypedVal τ (Why3.assign ρ (vl.zip ds)) := by
  refine hρ.assign ?_
  rw [Typed, forall₂_map_left_iff] at hds
  intro x hx
  exact forall₂_iff_zip.mp hds |>.2 hx

end Interp

section Typed

variable {S : DataSig} {Γ : List Ty} {v : VSymbol} {u t t' : Term} {o : Option Ty}

theorem WellTyped.tSubstSingle (h : tSubstSingle v u t = .ok t')
    (hu : WellTyped S [] u (some v.vsTy)) (ht : WellTyped S Γ t o) : WellTyped S Γ t' o := by
  obtain ⟨_, _, h⟩ := bind_eq_ok.mp h
  cases h
  refine ht.tSubst fun w u' hw => ?_
  split at hw
  · next hwv =>
      cases hw
      rw [hwv]
      exact hu
  · cases hw

theorem WellTyped.tLetCloseSimp (h : tLetCloseSimp v u t = .ok t')
    (hu : WellTyped S [] u (some v.vsTy)) (ht : WellTyped S [] t o) : WellTyped S [] t' o := by
  unfold Term.tLetCloseSimp at h
  simp only at h
  split at h
  · cases h
    exact ht
  · split at h
    · exact .tSubstSingle h hu ht
    · obtain ⟨_, _, h⟩ := bind_eq_ok.mp h
      cases h
      exact .tlet [] hu (ht.closeVars [v])

end Typed

end Why3
