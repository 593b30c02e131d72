import Mathlib.Logic.Relation
import Mathlib.Order.WellFounded
import Mathlib.Order.OrderIsoNat
import Mathlib.Data.Fintype.Pigeonhole
import Mathlib.Data.Prod.Lex

/-!
# Descent along cycles

A relation that always stays in finitely many classes is well-founded as soon as it
is so on the cycles through each class. A cycle through a class is made of ways that
return to the class for the first time. The order in which cycles decrease is a
lexicographic order on some positions of a list.
-/

namespace Lib

open Relation List

variable {α β ι : Type*}
variable {xs ys : List β} {pl : List ℕ}

section Classes

variable {R : α → α → Prop}

/-- Only the returns to each of the classes have to be well-founded. -/
theorem wellFounded_of_classes (cls : α → ι) {s : Set ι} (hs : s.Finite)
    (hR : ∀ x y, R x y → cls y ∈ s)
    (h : ∀ i ∈ s, WellFounded fun y x => cls x = i ∧ cls y = i ∧ TransGen R x y) :
    WellFounded fun y x => R x y := by
  rw [wellFounded_iff_isEmpty_descending_chain]
  refine ⟨fun ⟨f, hf⟩ => ?_⟩
  have : Finite s := hs
  obtain ⟨⟨i, hi⟩, hinf⟩ := Finite.exists_infinite_fiber
    fun n : ℕ => (⟨cls (f (n + 1)), hR _ _ (hf n)⟩ : s)
  -- the chain returns to the class `i` infinitely often
  let A : Set ℕ := {n | cls (f (n + 1)) = i}
  have hA : A.Infinite := by
    refine (Set.infinite_coe_iff.mp hinf).mono ?_
    intro n hn
    exact congrArg Subtype.val hn
  have : Infinite A := Set.infinite_coe_iff.mpr hA
  obtain ⟨e, he⟩ : ∃ e : ℕ → ℕ, (∀ n, e n < e (n + 1)) ∧ ∀ n, e n ∈ A := by
    classical
    refine ⟨Nat.orderEmbeddingOfSet A, fun n => ?_, fun n => ?_⟩
    · exact (Nat.orderEmbeddingOfSet A).strictMono (Nat.lt_succ_self n)
    · exact (Nat.Subtype.ofNat A n).2
  have hempty := wellFounded_iff_isEmpty_descending_chain.mp (h i hi)
  refine hempty.false ⟨fun n => f (e n + 1), fun n => ⟨he.2 n, he.2 (n + 1), ?_⟩⟩
  exact Nat.rel_of_forall_rel_succ_of_lt (TransGen R) (fun k => TransGen.single (hf k))
    (Nat.succ_lt_succ (he.1 n))

inductive Way (R : α → α → Prop) (P : α → Prop) (z : α) : α → Prop where
  | single {x : α} (h : R x z) : Way R P z x
  | cons {x y : α} (h : R x y) (hy : ¬ P y) (hway : Way R P z y) : Way R P z x

/-- If all first returns to a class decrease then all its cycles do. -/
theorem transGen_of_ways {P : α → Prop} (lt : α → α → Prop)
    (htrans : ∀ x y z, lt x y → lt y z → lt x z)
    (h : ∀ x z, P x → P z → Way R P z x → lt z x) {x z : α} (hx : P x) (hz : P z)
    (hxz : TransGen R x z) : lt z x := by
  suffices hway : ∃ y, P y ∧ Way R P y x ∧ (y = z ∨ lt z y) by
    obtain ⟨y, hy, hway, rfl | hlt⟩ := hway
    · exact h x y hx hy hway
    · exact htrans z y x hlt (h x y hx hy hway)
  clear hx
  induction hxz using TransGen.head_induction_on with
  | single hR => exact ⟨z, hz, .single hR, .inl rfl⟩
  | @head x w hR _ ih =>
    obtain ⟨y, hy, hway, hyz⟩ := ih
    by_cases hw : P w
    · refine ⟨w, hw, .single hR, .inr ?_⟩
      rcases hyz with rfl | hlt
      · exact h w y hw hy hway
      · exact htrans z y w hlt (h w y hw hy hway)
    · exact ⟨y, hy, .cons hR hw hway, hyz⟩

end Classes

/-! ## Lexicographic orders on positions -/

section Lex

variable {r : β → β → Prop}

def OptLess (r : β → β → Prop) (a b : Option β) : Prop := ∃ x ∈ a, ∃ y ∈ b, r x y

theorem optLess_wellFounded (hr : WellFounded r) : WellFounded (OptLess r) := by
  have hnone : Acc (OptLess r) none := ⟨_, fun _ ⟨_, _, _, hy, _⟩ => absurd hy (by simp)⟩
  refine ⟨fun a => ?_⟩
  cases a with
  | none => exact hnone
  | some y =>
    induction y using hr.induction with
    | h y ih =>
      refine ⟨_, ?_⟩
      rintro a ⟨x, hx, y', hy', hxy⟩
      cases hx
      cases hy'
      exact ih x hxy

/-- Compare the values at the first of the positions, then those at the next one. -/
def LexLess (r : β → β → Prop) : List ℕ → List β → List β → Prop
  | [], _, _ => False
  | i :: pl, ys, xs => OptLess r ys[i]? xs[i]? ∨ ys[i]? = xs[i]? ∧ LexLess r pl ys xs

theorem lexLess_wellFounded (hr : WellFounded r) (pl : List ℕ) : WellFounded (LexLess r pl) := by
  induction pl with
  | nil => exact ⟨fun _ => ⟨_, fun _ h => h.elim⟩⟩
  | cons i pl ih =>
    have hlex := (optLess_wellFounded hr).prod_lex ih
    refine Subrelation.wf ?_ (InvImage.wf (fun xs : List β => (xs[i]?, xs)) hlex)
    rintro ys xs (h | ⟨heq, h⟩)
    · exact Prod.Lex.left _ _ h
    · change Prod.Lex _ _ (ys[i]?, ys) (xs[i]?, xs)
      rw [heq]
      exact Prod.Lex.right _ h

theorem OptLess.trans (hr : ∀ x y z, r x y → r y z → r x z) {a b c : Option β}
    (h : OptLess r a b) (h' : OptLess r b c) : OptLess r a c := by
  obtain ⟨x, hx, y, hy, hxy⟩ := h
  obtain ⟨y', hy', z, hz, hyz⟩ := h'
  cases Option.mem_unique hy hy'
  exact ⟨x, hx, z, hz, hr x y z hxy hyz⟩

theorem LexLess.trans (hr : ∀ x y z, r x y → r y z → r x z) {zs : List β} (h : LexLess r pl xs ys)
    (h' : LexLess r pl ys zs) : LexLess r pl xs zs := by
  induction pl with
  | nil => exact h.elim
  | cons i pl ih =>
    rcases h with h | ⟨heq, h⟩
    · rcases h' with h' | ⟨heq', _⟩
      · exact .inl (h.trans hr h')
      · exact .inl (heq' ▸ h)
    · rcases h' with h' | ⟨heq', h'⟩
      · exact .inl (heq ▸ h')
      · exact .inr ⟨heq.trans heq', ih h h'⟩

/-- If no position of a list increases, then it is enough to decrease at one of them,
or later. -/
theorem lexLess_append {l : List ℕ} (hle : ∀ i ∈ l, OptLess r ys[i]? xs[i]? ∨ ys[i]? = xs[i]?)
    (h : (∃ i ∈ l, OptLess r ys[i]? xs[i]?) ∨ LexLess r pl ys xs) : LexLess r (l ++ pl) ys xs := by
  induction l with
  | nil =>
    rcases h with ⟨i, hi, _⟩ | h
    · exact absurd hi not_mem_nil
    · exact h
  | cons i l ih =>
    rw [forall_mem_cons] at hle
    rcases hle.1 with hlt | heq
    · exact .inl hlt
    · by_cases hi : OptLess r ys[i]? xs[i]?
      · exact .inl hi
      · refine .inr ⟨heq, ih hle.2 ?_⟩
        rcases h with ⟨j, hj, hlt⟩ | h
        · rcases mem_cons.mp hj with rfl | hj
          · exact absurd hlt hi
          · exact .inl ⟨j, hj, hlt⟩
        · exact .inr h

end Lex

/-! ## Lists of different lengths -/

section Words

variable {r : β → β → Prop}

/-- The first difference decreases; a list is greater than its initial parts. -/
inductive WordLess (r : β → β → Prop) : List β → List β → Prop where
  | nil {x : β} {xs : List β} : WordLess r [] (x :: xs)
  | head {y x : β} {ys xs : List β} (h : r y x) : WordLess r (y :: ys) (x :: xs)
  | tail {x : β} {ys xs : List β} (h : WordLess r ys xs) : WordLess r (x :: ys) (x :: xs)

/-- The order of lists is well-founded as long as their lengths are bounded. -/
theorem wordLess_wellFounded (hr : WellFounded r) (n : ℕ) :
    WellFounded fun ys xs : List β => ys.length ≤ n ∧ WordLess r ys xs := by
  induction n with
  | zero =>
    have hnil : Acc (fun ys xs : List β => ys.length ≤ 0 ∧ WordLess r ys xs) [] :=
      ⟨_, fun _ h => nomatch h.2⟩
    refine ⟨fun xs => ⟨_, fun ys hys => ?_⟩⟩
    rw [length_eq_zero_iff.mp (Nat.le_zero.mp hys.1)]
    exact hnil
  | succ n ih =>
    have hcons : ∀ x xs, Acc (fun ys xs : List β => ys.length ≤ n + 1 ∧ WordLess r ys xs)
        (x :: xs) := by
      intro x
      induction x using hr.induction with
      | h x ihx =>
        intro xs
        induction xs using ih.induction with
        | h xs ihxs =>
          refine ⟨_, fun ys hys => ?_⟩
          obtain ⟨hlen, hless⟩ := hys
          cases hless with
          | nil => exact ⟨_, fun _ h => nomatch h.2⟩
          | head h => exact ihx _ h _
          | tail h => exact ihxs _ ⟨Nat.le_of_succ_le_succ hlen, h⟩
    refine ⟨fun xs => ?_⟩
    cases xs with
    | nil => exact ⟨_, fun _ h => nomatch h.2⟩
    | cons x xs => exact hcons x xs

end Words

end Lib
