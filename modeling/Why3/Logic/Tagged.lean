import Why3.Logic.Typing

/-!
# Interpretations by values that carry their type

A set of values is put into every type by pairing the values with the type. The
meaning of the symbols other than equality is given on the values alone.
-/

namespace Why3

open Interp

variable {α : Type} [Inhabited α]

open Classical in
noncomputable def taggedInterp (fn : LSymbol → List α → α) (pr : LSymbol → List α → Prop)
    (lit : Constant → α) : Interp (Ty × α) where
  carrier ty := {d | d.1 = ty}
  fn ls ty ds := (ty, fn ls (ds.map Prod.snd))
  pr ls ds := if ls = psEqu then ds[0]? = ds[1]? else pr ls (ds.map Prod.snd)
  lit c ty := (ty, lit c)
  eps ty s := if h : ∃ d, d.1 = ty ∧ d ∈ s then h.choose else (ty, default)
  dflt := (default, default)

open Classical in
theorem choose_congr {β : Type*} {P Q : β → Prop} (x : β) (h : P = Q) :
    (if h : ∃ d, P d then h.choose else x) = if h : ∃ d, Q d then h.choose else x := by
  subst h
  rfl

open Classical in
theorem taggedInterp_sound (fn : LSymbol → List α → α) (pr : LSymbol → List α → Prop)
    (lit : Constant → α) : (taggedInterp fn pr lit).Sound where
  nonempty ty := ⟨(ty, default), rfl⟩
  fn _ _ _ _ _ _ := rfl
  lit _ _ := rfl
  eps_mem ty s := by
    change (if h : ∃ d : Ty × α, d.1 = ty ∧ d ∈ s then h.choose else (ty, default)).1 = ty
    split
    · next h => exact h.choose_spec.1
    · rfl
  eps_spec ty s := by
    rintro ⟨d, hd, hs⟩
    have h : ∃ d : Ty × α, d.1 = ty ∧ d ∈ s := ⟨d, hd, hs⟩
    change (if h : ∃ d : Ty × α, d.1 = ty ∧ d ∈ s then h.choose else (ty, default)) ∈ s
    rw [dif_pos h]
    exact h.choose_spec.2
  eps_local ty s := choose_congr _ (funext fun d => propext
    ⟨fun h => ⟨h.1, h.2.2⟩, fun h => ⟨h.1, h.1, h.2⟩⟩)
  equ d d' := by simp [taggedInterp]

end Why3
