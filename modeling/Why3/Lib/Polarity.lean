import Mathlib.Logic.Basic

/-!
# Polarities

How the truth of a formula changes with that of its parts: it grows with a positive
part, shrinks with a negative one, and is kept if the part has no polarity and does not
change.
-/

namespace Lib

def Polar : Option Bool → Prop → Prop → Prop
  | some true, p, q => p → q
  | some false, p, q => q → p
  | none, p, q => p ↔ q

namespace Polar

variable {pol : Option Bool} {p q p' q' : Prop}

theorem of_iff (h : p ↔ q) : Polar pol p q :=
  match pol with
  | some true => h.mp
  | some false => h.mpr
  | none => h

theorem and (h : Polar pol p q) (h' : Polar pol p' q') : Polar pol (p ∧ p') (q ∧ q') :=
  match pol with
  | some true => And.imp h h'
  | some false => And.imp h h'
  | none => and_congr h h'

theorem or (h : Polar pol p q) (h' : Polar pol p' q') : Polar pol (p ∨ p') (q ∨ q') :=
  match pol with
  | some true => Or.imp h h'
  | some false => Or.imp h h'
  | none => or_congr h h'

theorem imp (h : Polar (pol.map not) p q) (h' : Polar pol p' q') : Polar pol (p → p') (q → q') :=
  match pol with
  | some true => fun hp hq => h' (hp (h hq))
  | some false => fun hq hp => h' (hq (h hp))
  | none => imp_congr h h'

theorem not (h : Polar (pol.map Bool.not) p q) : Polar pol (¬ p) (¬ q) :=
  match pol with
  | some true => fun hp hq => hp (h hq)
  | some false => fun hq hp => hq (h hp)
  | none => not_congr h

theorem iff (h : Polar none p q) (h' : Polar none p' q') : Polar pol (p ↔ p') (q ↔ q') :=
  of_iff (iff_congr h h')

variable {α : Sort*} {P Q R : α → Prop}

theorem forall_imp (h : ∀ a, Polar pol (P a) (Q a)) : Polar pol (∀ a, R a → P a) (∀ a, R a → Q a) :=
  match pol with
  | some true => fun hp a hR => h a (hp a hR)
  | some false => fun hq a hR => h a (hq a hR)
  | none => forall_congr' fun a => imp_congr_right fun _ => h a

theorem exists_and (h : ∀ a, Polar pol (P a) (Q a)) : Polar pol (∃ a, R a ∧ P a) (∃ a, R a ∧ Q a) :=
  match pol with
  | some true => fun ⟨a, hR, hp⟩ => ⟨a, hR, h a hp⟩
  | some false => fun ⟨a, hR, hq⟩ => ⟨a, hR, h a hq⟩
  | none => exists_congr fun a => and_congr_right fun _ => h a

end Polar

end Lib
