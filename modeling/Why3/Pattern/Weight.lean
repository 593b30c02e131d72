import Why3.Pattern.Dispatch
import Mathlib.Algebra.Order.BigOperators.Group.List

/-!
# The bound on the recursion of the compiler

A row weighs as much as the rows it is split into when its disjunctions are, and a
constructor weighs one more than its arguments. So specialising a matrix to a
constructor makes it lighter, and the default rows are not heavier.
-/

namespace Why3

open Lib List

namespace Pattern

variable {α : Type} {mkLet : VSymbol → Term → α → α} {t : Term}
variable {cs : LSymbol} {rl : List (Row α)} {pl ql : List Pattern} {p : Pattern} {n : ℕ}
variable {f : Pattern → List Pattern → α → List (Row α)}

mutual

theorem weight_pos : ∀ p : Pattern, 0 < weight p
  | pwild _ => Nat.one_pos
  | pvar _ => Nat.one_pos
  | papp _ _ _ => Nat.succ_pos _
  | por p _ => Nat.add_pos_left (weight_pos p) _
  | pas p _ => weight_pos p

theorem weightList_pos : ∀ pl : List Pattern, 0 < weightList pl
  | [] => Nat.one_pos
  | p :: pl => Nat.mul_pos (weight_pos p) (weightList_pos pl)

end

theorem weightList_eq_prod (pl : List Pattern) : weightList pl = (pl.map weight).prod := by
  induction pl with
  | nil => rfl
  | cons p pl ih => rw [weightList, ih, map_cons, prod_cons]

theorem weightList_reverse_append (pl pl' : List Pattern) :
    weightList (pl.reverse ++ pl') = weightList pl * weightList pl' := by
  simp only [weightList_eq_prod, map_append, map_reverse, prod_append, prod_reverse]

theorem weightList_wildsFor_append (ql pl : List Pattern) :
    weightList (wildsFor ql ++ pl) = weightList pl := by
  rw [wildsFor, weightList_reverse_append]
  have hone : weightList (ql.map fun q => pwild q.patTy) = 1 := by
    rw [weightList_eq_prod, map_map, prod_eq_one]
    intro n hn
    obtain ⟨q, _, rfl⟩ := mem_map.mp hn
    rfl
  rw [hone, one_mul]

theorem matrixWeight_append (rl rl' : List (Row α)) :
    matrixWeight (rl ++ rl') = matrixWeight rl + matrixWeight rl' := by
  rw [matrixWeight, map_append, sum_append]
  rfl

theorem matrixWeight_singleton (row : Row α) : matrixWeight [row] = weightList row.1 :=
  sum_singleton

/-- The rows of a row for one constructor are not heavier, and lighter if there is a
constructor at its head. -/
theorem matrixWeight_specialise (cs : LSymbol) (ql pl : List Pattern) (p : Pattern) (a : α) :
    matrixWeight (specialise mkLet t cs ql p pl a) + (heads p).length ≤
      weight p * weightList pl := by
  have hpl := weightList_pos pl
  induction p using headInduction generalizing a with
  | pwild _ | pvar _ =>
    rw [specialise, matrixWeight_singleton, weightList_wildsFor_append, weight, one_mul]
    simp [heads]
  | papp fs pl' _ =>
    rw [specialise, weight, Nat.add_mul, one_mul, heads, length_singleton]
    split
    · rw [matrixWeight_singleton, weightList_reverse_append]
      omega
    · exact (Nat.zero_add 1).le.trans (Nat.le_add_left_of_le hpl)
  | por p q ihp ihq =>
    have hp := ihp a
    have hq := ihq a
    rw [specialise, matrixWeight_append, weight, Nat.add_mul, heads, length_append]
    omega
  | pas p x ih => exact ih _

theorem matrixWeight_defaults (pl : List Pattern) (p : Pattern) (a : α) :
    matrixWeight (defaults mkLet t p pl a) ≤ weight p * weightList pl := by
  induction p using headInduction generalizing a with
  | pwild _ | pvar _ => rw [defaults, matrixWeight_singleton, weight, one_mul]
  | papp fs pl' _ => exact Nat.zero_le _
  | por p q ihp ihq =>
    rw [defaults, matrixWeight_append, weight, Nat.add_mul]
    exact Nat.add_le_add (ihp a) (ihq a)
  | pas p x ih => exact ih _

theorem matrixWeight_cons (row : Row α) (rl : List (Row α)) :
    matrixWeight (row :: rl) = weightList row.1 + matrixWeight rl := by
  rw [matrixWeight, map_cons, sum_cons]
  rfl

theorem matrixWeight_flatMap_le (hf : ∀ p pl a, matrixWeight (f p pl a) ≤ weight p * weightList pl)
    (rl : List (Row α)) : matrixWeight (rl.flatMap (onRow f)) ≤ matrixWeight rl := by
  induction rl with
  | nil => exact le_rfl
  | cons row rl ih =>
    rw [flatMap_cons, matrixWeight_append, matrixWeight_cons]
    refine Nat.add_le_add ?_ ih
    obtain ⟨pl, a⟩ := row
    cases pl with
    | nil => exact Nat.zero_le _
    | cons p pl => exact hf p pl a

/-- A matrix with a constructor at the head of a row is lighter for each
constructor. -/
theorem matrixWeight_specialise_lt (hp : HeadOf p rl) (hne : heads p ≠ []) :
    matrixWeight (rl.flatMap (onRow (specialise mkLet t cs ql))) < matrixWeight rl := by
  have hle : ∀ rl : List (Row α),
      matrixWeight (rl.flatMap (onRow (specialise mkLet t cs ql))) ≤ matrixWeight rl :=
    matrixWeight_flatMap_le fun p pl a =>
      (Nat.le_add_right _ _).trans (matrixWeight_specialise cs ql pl p a)
  obtain ⟨⟨_, a⟩, hrow, pl, rfl⟩ := hp
  obtain ⟨rl₁, rl₂, rfl⟩ := append_of_mem hrow
  have hrow' : matrixWeight (specialise mkLet t cs ql p pl a) + _ ≤ _ :=
    matrixWeight_specialise cs ql pl p a
  have hpos := length_pos_iff.mpr hne
  have h₁ := hle rl₁
  have h₂ := hle rl₂
  rw [flatMap_append, flatMap_cons, matrixWeight_append, matrixWeight_append,
    matrixWeight_append, matrixWeight_cons]
  change _ + (matrixWeight (specialise mkLet t cs ql p pl a) + _) <
    _ + (weight p * weightList pl + _)
  omega

/-! ## The largest arity -/

theorem arityList_le_iff : arityList pl ≤ n ↔ ∀ p ∈ pl, arity p ≤ n := by
  induction pl with
  | nil => simp [arityList]
  | cons p pl ih => rw [arityList, max_le_iff, ih, forall_mem_cons]

theorem matrixArity_le_iff : matrixArity rl ≤ n ↔ ∀ row ∈ rl, ∀ p ∈ row.1, arity p ≤ n := by
  unfold matrixArity
  induction rl with
  | nil => simp
  | cons row rl ih =>
    rw [map_cons, foldr_cons, max_le_iff, ih, arityList_le_iff, forall_mem_cons]

theorem arity_of_mem_heads {c : LSymbol × List Pattern} (hp : arity p ≤ n) (hc : c ∈ heads p) :
    c.2.length ≤ n ∧ ∀ q ∈ c.2, arity q ≤ n := by
  induction p using headInduction with
  | papp fs pl _ =>
    rw [heads, mem_singleton] at hc
    rw [arity, max_le_iff, arityList_le_iff] at hp
    exact hc ▸ hp
  | por p q ihp ihq =>
    rw [arity, max_le_iff] at hp
    exact (mem_append.mp hc).elim (ihp hp.1) (ihq hp.2)
  | pas p x ih => exact ih hp hc
  | _ => cases hc

theorem arity_specialise (hpl : ∀ q ∈ pl, arity q ≤ n) (p : Pattern) (a : α) (hp : arity p ≤ n) :
    ∀ row ∈ specialise mkLet t cs ql p pl a, ∀ q ∈ row.1, arity q ≤ n := by
  rw [specialise_eq_alts]
  intro row hrow
  obtain ⟨⟨_ | c, a'⟩, hb, hrow⟩ := mem_flatMap.mp hrow
  · obtain rfl := mem_singleton.mp hrow
    refine forall_mem_append.mpr ⟨fun q hq => ?_, hpl⟩
    rw [wildsFor, mem_reverse] at hq
    obtain ⟨q', _, rfl⟩ := mem_map.mp hq
    exact Nat.zero_le n
  · rw [specialiseAlt] at hrow
    split at hrow
    · obtain rfl := mem_singleton.mp hrow
      refine forall_mem_append.mpr ⟨fun q hq => ?_, hpl⟩
      exact (arity_of_mem_heads hp (mem_heads_of_mem_alts hb)).2 q (mem_reverse.mp hq)
    · cases hrow

theorem arity_defaults (hpl : ∀ q ∈ pl, arity q ≤ n) (p : Pattern) (a : α) :
    ∀ row ∈ defaults mkLet t p pl a, ∀ q ∈ row.1, arity q ≤ n := by
  rw [defaults_eq_alts]
  intro row hrow
  obtain ⟨⟨_ | c, a'⟩, hb, hrow⟩ := mem_flatMap.mp hrow
  · obtain rfl := mem_singleton.mp hrow
    exact hpl
  · cases hrow

theorem matrixArity_flatMap_le (hf : ∀ p pl a n, arity p ≤ n → (∀ q ∈ pl, arity q ≤ n) →
      ∀ row ∈ f p pl a, ∀ q ∈ row.1, arity q ≤ n) (rl : List (Row α)) :
    matrixArity (rl.flatMap (onRow f)) ≤ matrixArity rl := by
  rw [matrixArity_le_iff]
  intro row' hrow'
  obtain ⟨⟨pl, a⟩, hrow, hmem⟩ := mem_flatMap.mp hrow'
  have hrow₁ := matrixArity_le_iff.mp (le_refl (matrixArity rl)) _ hrow
  cases pl with
  | nil => simp [onRow] at hmem
  | cons p pl =>
    rw [forall_mem_cons] at hrow₁
    exact hf p pl a _ hrow₁.1 hrow₁.2 row' hmem

/-! ## Enough fuel -/

def fuelFor (k : ℕ) (rl : List (Row α)) : ℕ := matrixWeight rl * (matrixArity rl + 1) + k + 1

variable (mkLet t) in
theorem fuelFor_defaults (k : ℕ) (rl : List (Row α)) :
    fuelFor k (rl.flatMap (onRow (defaults mkLet t))) + 1 ≤ fuelFor (k + 1) rl := by
  have hw : matrixWeight (rl.flatMap (onRow (defaults mkLet t))) ≤ matrixWeight rl :=
    matrixWeight_flatMap_le (fun p pl a => matrixWeight_defaults pl p a) rl
  have ha : matrixArity (rl.flatMap (onRow (defaults mkLet t))) ≤ matrixArity rl :=
    matrixArity_flatMap_le (fun p pl a n _ hpl => arity_defaults hpl p a) rl
  have hmul := Nat.mul_le_mul hw (Nat.add_le_add_right ha 1)
  unfold fuelFor
  omega

variable (mkLet t) in
theorem fuelFor_specialise (hp : HeadOf p rl) (hmem : (cs, ql) ∈ heads p) (k : ℕ) :
    fuelFor (ql.length + k) (rl.flatMap (onRow (specialise mkLet t cs ql))) + 1 ≤
      fuelFor (k + 1) rl := by
  have hw : matrixWeight (rl.flatMap (onRow (specialise mkLet t cs ql))) < matrixWeight rl :=
    matrixWeight_specialise_lt hp (ne_nil_of_mem hmem)
  have ha : matrixArity (rl.flatMap (onRow (specialise mkLet t cs ql))) ≤ matrixArity rl :=
    matrixArity_flatMap_le (fun p pl a n hp hpl => arity_specialise hpl p a hp) rl
  have hlen : ql.length ≤ matrixArity rl := by
    obtain ⟨row, hrow, pl, hpl⟩ := hp
    refine (arity_of_mem_heads ?_ hmem).1
    exact matrixArity_le_iff.mp (le_refl (matrixArity rl)) row hrow p (by simp [hpl])
  generalize rl.flatMap (onRow (specialise mkLet t cs ql)) = rl' at hw ha ⊢
  have hmul := Nat.mul_le_mul (Nat.le_sub_one_of_lt hw) (Nat.add_le_add_right ha 1)
  have hsub : (matrixWeight rl - 1) * (matrixArity rl + 1) + (matrixArity rl + 1) =
      matrixWeight rl * (matrixArity rl + 1) := by
    rw [← Nat.succ_mul]
    congr 1
    omega
  unfold fuelFor
  omega

end Pattern

end Why3
