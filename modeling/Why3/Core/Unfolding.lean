import Why3.Core.Known
import Mathlib.Algebra.Group.Defs

/-!
# Unfoldings of algebraic types

A type is unfolded by replacing an applied algebraic type symbol by the argument
types of its constructors, with the parameters instantiated, and by descending
into the arguments of function types and of abstract types. `Unfolds kn ty q ty'`
says that `ty'` occurs in a finite unfolding of `ty`, with polarity `q`: `neg` to
the left of an odd number of arrows, `abs` inside an argument of an abstract
type symbol, and `pos` otherwise.
-/

namespace Why3

open Lib List

inductive Polarity where
  | pos
  | neg
  | abs
  deriving DecidableEq, Repr

variable {kn : KnownMap} {q : Polarity} {ty ty' : Ty} {n : ℕ}
variable {v : TvSymbol} {f : TvSymbol → Ty}

namespace Polarity

def comp : Polarity → Polarity → Polarity
  | pos, q => q
  | neg, pos => neg
  | neg, neg => pos
  | neg, abs => abs
  | abs, _ => abs

instance : Monoid Polarity where
  one := pos
  mul := comp
  mul_assoc a b c := by cases a <;> cases b <;> cases c <;> rfl
  one_mul _ := rfl
  mul_one a := by cases a <;> rfl

end Polarity

/-! ## Unfolding -/

/-- One step of unfolding, with the polarity of the place it leads to. -/
inductive UnfoldStep (kn : KnownMap) : Ty → Polarity → Ty → Prop where
  | funcArg (ty ty' : Ty) : UnfoldStep kn (tyFunc ty ty') .neg ty
  | funcRes (ty ty' : Ty) : UnfoldStep kn (tyFunc ty ty') .pos ty'
  | abstract {ts : TySymbol} {tl : List Ty} {ty : Ty} (hts : ts ≠ tsFunc)
      (hcs : findConstructors kn ts = .ok []) (hty : ty ∈ tl) :
      UnfoldStep kn (.tyapp ts tl) .abs ty
  | data {ts : TySymbol} {tl : List Ty} {ty : Ty} (hts : ts ≠ tsFunc) (harg : ArgOf kn ts ty) :
      UnfoldStep kn (.tyapp ts tl) .pos (ty.vMap (paramMap ts tl))

inductive Unfolds (kn : KnownMap) : Ty → Polarity → Ty → ℕ → Prop where
  | refl (ty : Ty) : Unfolds kn ty 1 ty 0
  | step {ty ty₁ ty' : Ty} {q r : Polarity} {n : ℕ} (h : UnfoldStep kn ty q ty₁)
      (hrest : Unfolds kn ty₁ r ty' n) : Unfolds kn ty (q * r) ty' (n + 1)

theorem not_unfoldStep_tyvar : ¬ UnfoldStep kn (.tyvar v) q ty := by
  intro h
  cases h

theorem unfolds_tyvar (h : Unfolds kn (.tyvar v) q ty n) : q = 1 ∧ ty = .tyvar v ∧ n = 0 := by
  cases h with
  | refl => exact ⟨rfl, rfl, rfl⟩
  | step h _ => exact absurd h not_unfoldStep_tyvar

/-- A property of types that every step keeps is kept by unfolding. -/
theorem Unfolds.induct {P : Ty → Prop} (hstep : ∀ ty q ty', UnfoldStep kn ty q ty' → P ty → P ty')
    (h : Unfolds kn ty q ty' n) (hty : P ty) : P ty' := by
  induction h with
  | refl => exact hty
  | step h _ ih => exact ih (hstep _ _ _ h hty)

section Known

variable {kn : KnownMap} (hkn : Known kn)
include hkn

theorem UnfoldStep.saturated (h : UnfoldStep kn ty q ty') (hty : ty.saturated = true) :
    ty'.saturated = true := by
  cases h with
  | funcArg | funcRes => exact ((Ty.saturated_tyapp _ _).mp hty).2 _ (by simp)
  | abstract hts hcs hmem => exact ((Ty.saturated_tyapp _ _).mp hty).2 _ hmem
  | @data ts tl arg hts harg =>
    obtain ⟨hl, htl⟩ := (Ty.saturated_tyapp _ _).mp hty
    have hwf := hkn.argOf harg
    refine Ty.saturated_vMap hwf.saturated ?_
    intro v hv
    obtain ⟨j, _, hj⟩ := exists_paramMap_eq hl (hwf.freevars v hv)
    exact htl _ (mem_of_getElem? hj)

theorem UnfoldStep.freevars (h : UnfoldStep kn ty q ty') (hty : ty.saturated = true) :
    ∀ v ∈ ty'.freevars, v ∈ ty.freevars := by
  intro v hv
  cases h with
  | funcArg | funcRes => exact (Ty.mem_freevars_tyapp _ _ _).mpr ⟨_, by simp, hv⟩
  | abstract hts hcs hmem => exact (Ty.mem_freevars_tyapp _ _ _).mpr ⟨_, hmem, hv⟩
  | @data ts tl arg hts harg =>
    obtain ⟨hl, htl⟩ := (Ty.saturated_tyapp _ _).mp hty
    obtain ⟨w, hw, hvw⟩ := (Ty.mem_freevars_vMap _ _ _).mp hv
    obtain ⟨j, _, hj⟩ := exists_paramMap_eq hl ((hkn.argOf harg).freevars w hw)
    exact (Ty.mem_freevars_tyapp _ _ _).mpr ⟨_, mem_of_getElem? hj, hvw⟩

/-- A step from an instance of an application is an instance of a step. -/
theorem unfoldStep_vMap {ts : TySymbol} {tl : List Ty} (hty : (Ty.tyapp ts tl).saturated = true)
    (h : UnfoldStep kn ((Ty.tyapp ts tl).vMap f) q ty') :
    ∃ ty₁, UnfoldStep kn (.tyapp ts tl) q ty₁ ∧ ty' = ty₁.vMap f := by
  obtain ⟨hl, _⟩ := (Ty.saturated_tyapp _ _).mp hty
  rw [Ty.vMap_tyapp] at h
  generalize htl' : tl.map (Ty.vMap f) = tl' at h
  cases h with
  | funcArg a b =>
    obtain ⟨x, tl₁, rfl, rfl, htl₁⟩ := map_eq_cons_iff.mp htl'
    obtain ⟨y, tl₂, rfl, rfl, htl₂⟩ := map_eq_cons_iff.mp htl₁
    rw [map_eq_nil_iff] at htl₂
    subst htl₂
    exact ⟨x, .funcArg x y, rfl⟩
  | funcRes a b =>
    obtain ⟨x, tl₁, rfl, rfl, htl₁⟩ := map_eq_cons_iff.mp htl'
    obtain ⟨y, tl₂, rfl, rfl, htl₂⟩ := map_eq_cons_iff.mp htl₁
    rw [map_eq_nil_iff] at htl₂
    subst htl₂
    exact ⟨y, .funcRes x y, rfl⟩
  | abstract hts hcs hmem =>
    rw [← htl'] at hmem
    obtain ⟨x, hx, rfl⟩ := mem_map.mp hmem
    exact ⟨x, .abstract hts hcs hx, rfl⟩
  | @data _ _ arg hts harg =>
    refine ⟨_, .data hts harg, ?_⟩
    rw [Ty.vMap_vMap, ← htl']
    apply Ty.vMap_congr
    intro v hv
    exact paramMap_map hl ((hkn.argOf harg).freevars v hv) _

/-- An unfolding of an instance either instantiates an unfolding or passes through
a variable and goes on from what the variable stands for. -/
theorem unfolds_vMap (hty : ty.saturated = true) (h : Unfolds kn (ty.vMap f) q ty' n) :
    (∃ ty₁, Unfolds kn ty q ty₁ n ∧ ty' = ty₁.vMap f) ∨
      ∃ v q₁ q₂ n₁ n₂, Unfolds kn ty q₁ (.tyvar v) n₁ ∧ Unfolds kn (f v) q₂ ty' n₂ ∧
        q = q₁ * q₂ ∧ n = n₁ + n₂ := by
  induction n generalizing ty q with
  | zero =>
    cases h
    exact .inl ⟨ty, .refl ty, rfl⟩
  | succ n ih =>
    cases ty with
    | tyvar v => exact .inr ⟨v, 1, q, 0, n + 1, .refl _, h, (one_mul q).symm, by omega⟩
    | tyapp ts tl =>
      cases h with
      | @step _ _ _ q r _ hstep hrest =>
        obtain ⟨ty₁, hstep₁, rfl⟩ := unfoldStep_vMap hkn hty hstep
        rcases ih (hstep₁.saturated hkn hty) hrest with
          ⟨ty₂, h₂, rfl⟩ | ⟨v, q₁, q₂, n₁, n₂, h₁, h₂, rfl, rfl⟩
        · exact .inl ⟨ty₂, .step hstep₁ h₂, rfl⟩
        · exact .inr ⟨v, q * q₁, q₂, n₁ + 1, n₂, .step hstep₁ h₁, h₂,
            (mul_assoc _ _ _).symm, by omega⟩

end Known

end Why3
