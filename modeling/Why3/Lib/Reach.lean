import Mathlib.Logic.Relation

/-!
# Reachability after one more edge

Adding the edge from `s` to `t` to a relation adds, to its transitive closure,
exactly the pairs that lead to `s` and on from `t`.
-/

namespace Lib

open Relation

variable {α : Type*} {R : α → α → Prop} {s t : α}

def AddEdge (R : α → α → Prop) (s t : α) (a b : α) : Prop :=
  R a b ∨ (a = s ∧ b = t)

theorem transGen_addEdge_iff (a b : α) :
    TransGen (AddEdge R s t) a b ↔
      TransGen R a b ∨ (ReflTransGen R a s ∧ ReflTransGen R t b) := by
  constructor
  · intro h
    induction h with
    | single hab =>
      rcases hab with hR | ⟨rfl, rfl⟩
      · exact .inl (TransGen.single hR)
      · exact .inr ⟨ReflTransGen.refl, ReflTransGen.refl⟩
    | tail _ hbc ih =>
      rcases hbc with hR | ⟨rfl, rfl⟩
      · rcases ih with hab | ⟨has, htb⟩
        · exact .inl (hab.tail hR)
        · exact .inr ⟨has, htb.tail hR⟩
      · rcases ih with hab | ⟨has, _⟩
        · exact .inr ⟨hab.to_reflTransGen, ReflTransGen.refl⟩
        · exact .inr ⟨has, ReflTransGen.refl⟩
  · have hmono : ∀ a b, ReflTransGen R a b → ReflTransGen (AddEdge R s t) a b :=
      fun a b h => ReflTransGen.mono (fun _ _ => .inl) a b h
    rintro (hab | ⟨has, htb⟩)
    · exact TransGen.mono (fun _ _ => .inl) a b hab
    · have hedge : AddEdge R s t s t := .inr ⟨rfl, rfl⟩
      exact (TransGen.tail' (hmono a s has) hedge).trans_left (hmono t b htb)

/-- No cycle is closed as long as the source cannot be reached from the target. -/
theorem transGen_addEdge_irrefl (hirr : ∀ a, ¬ TransGen R a a) (hne : s ≠ t)
    (hts : ¬ TransGen R t s) (a : α) : ¬ TransGen (AddEdge R s t) a a := by
  rw [transGen_addEdge_iff]
  rintro (haa | ⟨has, hta⟩)
  · exact hirr a haa
  · rcases reflTransGen_iff_eq_or_transGen.mp (hta.trans has) with heq | htrans
    · exact hne heq
    · exact hts htrans

end Lib
