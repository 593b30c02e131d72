import Why3.Mlw.Loop
import Why3.Logic.Valid

/-!
# The meaning of specifications

The formulas that `src/mlw/vc.ml` builds from the clauses of a specification are
conjunctions of the clauses, whatever is simplified on the way.
-/

namespace Why3

open Lib Term Interp Vc List

variable {D : Type} {I : Interp D} {τ : TyVal} {ρ : VSymbol → D}
variable {attrs : List Attr} {expl : String} {f g h : Term}
variable {pl : List Term}

section Formulas

theorem holds_tAnd (hh : tAnd f g = .ok h) : I.Holds τ ρ h ↔ I.Holds τ ρ f ∧ I.Holds τ ρ g := by
  rw [tBinary_eq hh]
  exact Iff.rfl

theorem holds_tAndAsym (hh : tAndAsym f g = .ok h) :
    I.Holds τ ρ h ↔ I.Holds τ ρ f ∧ I.Holds τ ρ g := by
  rw [holds_tAnd hh, Holds, attrAdd, eval_withAttrs]
  exact Iff.rfl

theorem holds_tAndL : ∀ {fl : List Term} {f : Term}, tAndL fl = .ok f →
    (I.Holds τ ρ f ↔ ∀ g ∈ fl, I.Holds τ ρ g)
  | [], f, h => by
    cases h
    simp [Holds]
  | [g], f, h => by
    cases h
    simp
  | g :: g' :: fl, f, h => by
    obtain ⟨r, hr, h⟩ := bind_eq_ok.mp h
    rw [holds_tAnd h, holds_tAndL hr, forall_mem_cons (a := g)]

theorem holds_tAndAsymL : ∀ {fl : List Term} {f : Term}, tAndAsymL fl = .ok f →
    (I.Holds τ ρ f ↔ ∀ g ∈ fl, I.Holds τ ρ g)
  | [], f, h => by
    cases h
    simp [Holds]
  | [g], f, h => by
    cases h
    simp
  | g :: g' :: fl, f, h => by
    obtain ⟨r, hr, h⟩ := bind_eq_ok.mp h
    rw [holds_tAndAsym h, holds_tAndAsymL hr, forall_mem_cons (a := g)]

@[simp] theorem holds_vcExpl (attrs : List Attr) (expl : String) (f : Term) :
    I.Holds τ ρ (vcExpl attrs expl f) ↔ I.Holds τ ρ f := by
  rw [Holds, vcExpl, eval_withAttrs]
  exact Iff.rfl

theorem holds_wpOfInv (h : wpOfInv attrs expl pl = .ok f) :
    I.Holds τ ρ f ↔ ∀ g ∈ pl, I.Holds τ ρ g := by
  rw [holds_tAndAsymL h, forall_mem_map]
  simp only [holds_vcExpl]

theorem holds_pushStop : ∀ {f g : Term},
    pushStop attrs expl f = .ok g → (I.Holds τ ρ g ↔ I.Holds τ ρ f)
  | tbinop a .tand f₁ f₂, g, h => by
    rw [pushStop] at h
    split at h
    · obtain ⟨g₁, h₁, g₂, h₂, r, hr, h⟩ := bind₃_eq_ok.mp h
      cases h
      rw [Holds, eval_attrCopy]
      exact (holds_tAnd hr).trans (and_congr (holds_pushStop h₁) (holds_pushStop h₂))
    · cases h
      exact holds_vcExpl _ _ _
  | tbinop a .tor _ _, g, h | tbinop a .timplies _ _, g, h | tbinop a .tiff _ _, g, h
  | tvar _ _, g, h | tbnd _ _ _, g, h | tconst _ _ _, g, h | tapp _ _ _ _, g, h
  | tif _ _ _ _, g, h | tlet _ _ _ _, g, h | tcase _ _ _, g, h | teps _ _ _, g, h
  | tquant _ _ _ _ _, g, h | tnot _ _, g, h | ttrue _, g, h | tfalse _, g, h => by
    cases h
    exact holds_vcExpl _ _ _

theorem holds_spOfInv (h : spOfInv attrs expl pl = .ok f) :
    I.Holds τ ρ f ↔ ∀ g ∈ pl, I.Holds τ ρ g := by
  obtain ⟨fl, hfl, hf⟩ := bind_eq_ok.mp h
  rw [holds_tAndL hf]
  have hpush := mapM_eq_ok.mp hfl
  clear hfl hf h
  induction hpush with
  | nil => simp
  | cons hg _ ih =>
    rw [forall_mem_cons, forall_mem_cons, holds_pushStop hg]
    exact and_congr_right fun _ => ih

theorem holds_of_canSimp (h : canSimp f = true) : I.Holds τ ρ f := by
  cases f with
  | ttrue a => exact trivial
  | _ => cases h

theorem holds_of_isTrue (h : f.isTrue = true) : I.Holds τ ρ f := by
  cases f with
  | ttrue a => exact trivial
  | _ => cases h

theorem not_holds_of_isFalse (h : f.isFalse = true) : ¬ I.Holds τ ρ f := by
  cases f with
  | tfalse a => exact id
  | _ => cases h

theorem holds_wpAnd (hh : wpAnd f g = .ok h) : I.Holds τ ρ h ↔ I.Holds τ ρ f ∧ I.Holds τ ρ g := by
  unfold wpAnd at hh
  split at hh
  · next hc =>
      cases hh
      rw [Bool.and_eq_true] at hc
      simp [holds_of_canSimp hc.2]
  · split at hh
    · next hc =>
        cases hh
        rw [Bool.and_eq_true] at hc
        simp [holds_of_canSimp hc.2]
    · exact holds_tAnd hh

theorem holds_spAnd (hh : spAnd f g = .ok h) : I.Holds τ ρ h ↔ I.Holds τ ρ f ∧ I.Holds τ ρ g := by
  unfold spAnd at hh
  split at hh
  · next hc =>
      cases hh
      rcases Bool.or_eq_true_iff.mp hc with hc | hc
      · simp [holds_of_isTrue hc]
      · simp [not_holds_of_isFalse hc]
  · split at hh
    · next hc =>
        cases hh
        rcases Bool.or_eq_true_iff.mp hc with hc | hc
        · simp [holds_of_isTrue hc]
        · simp [not_holds_of_isFalse hc]
    · exact holds_tAnd hh

end Formulas

end Why3
