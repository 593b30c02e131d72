import Mathlib.Data.List.Nodup
import Mathlib.Data.List.Perm.Basic

/-!
# Finite maps ordered by a tag

`TagMap κ α` is a finite map whose bindings are visited in the increasing order
of an integer tag of the keys. It is kept as an association list together with
the proof that no key is bound twice, so a lookup never depends on which of two
bindings comes first. The tag only decides the place of a new key; two keys are
the same key when they are equal.
-/

namespace Lib

open List

class Tagged (κ : Type*) where
  tag : κ → ℕ

structure TagMap (κ α : Type*) where
  bindings : List (κ × α)
  nodup : (bindings.map Prod.fst).Nodup

namespace TagMap

universe u v

variable {κ α β : Type*}
variable {k : κ}

def empty : TagMap κ α := ⟨[], by simp⟩

instance : Inhabited (TagMap κ α) := ⟨empty⟩

instance [DecidableEq κ] [DecidableEq α] : DecidableEq (TagMap κ α) := fun m₁ m₂ =>
  decidable_of_iff (m₁.bindings = m₂.bindings) (by cases m₁; cases m₂; simp)

instance : Tagged ℕ := ⟨id⟩

def isEmpty (m : TagMap κ α) : Bool := m.bindings.isEmpty

def find? [DecidableEq κ] (m : TagMap κ α) (k : κ) : Option α :=
  m.bindings.lookup k

def mem [DecidableEq κ] (m : TagMap κ α) (k : κ) : Bool :=
  (m.find? k).isSome

def findDef [DecidableEq κ] (d : α) (m : TagMap κ α) (k : κ) : α :=
  (m.find? k).getD d

/-- A new key is placed before the first binding with a larger tag. -/
def insertBinding [Tagged κ] (k : κ) (a : α) : List (κ × α) → List (κ × α)
  | [] => [(k, a)]
  | b :: l =>
    if Tagged.tag k < Tagged.tag b.1 then (k, a) :: b :: l
    else b :: insertBinding k a l

/-- A key that is already bound keeps its place. -/
def replaceBinding [DecidableEq κ] (k : κ) (a : α) (l : List (κ × α)) : List (κ × α) :=
  l.map fun b => if b.1 = k then (k, a) else b

theorem insertBinding_perm [Tagged κ] (k : κ) (a : α) (l : List (κ × α)) :
    (insertBinding k a l).Perm ((k, a) :: l) := by
  induction l with
  | nil => exact Perm.refl _
  | cons b l ih =>
    unfold insertBinding
    split
    · exact Perm.refl _
    · exact (ih.cons b).trans (Perm.swap _ _ _)

theorem map_fst_replaceBinding [DecidableEq κ] (k : κ) (a : α) (l : List (κ × α)) :
    (replaceBinding k a l).map Prod.fst = l.map Prod.fst := by
  unfold replaceBinding
  rw [map_map]
  apply map_congr_left
  intro b _
  by_cases hb : b.1 = k
  · simp [hb]
  · simp [hb]

theorem mem_keys_iff [DecidableEq κ] (k : κ) (l : List (κ × α)) :
    k ∈ l.map Prod.fst ↔ (l.lookup k).isSome := by
  induction l with
  | nil => simp
  | cons b l ih =>
    obtain ⟨k', a⟩ := b
    by_cases hk : k = k'
    · simp [hk]
    · have hne : (k == k') = false := by simp [hk]
      simp only [map_cons, mem_cons, hk, false_or, lookup_cons, hne]
      exact ih

def add [DecidableEq κ] [Tagged κ] (k : κ) (a : α) (m : TagMap κ α) : TagMap κ α :=
  if h : m.mem k then
    ⟨replaceBinding k a m.bindings, by
      rw [map_fst_replaceBinding]
      exact m.nodup⟩
  else
    ⟨insertBinding k a m.bindings, by
      have hk : k ∉ m.bindings.map Prod.fst := by
        rw [mem_keys_iff]
        exact h
      have hp := (insertBinding_perm k a m.bindings).map Prod.fst
      exact (hp.nodup_iff).mpr (nodup_cons.mpr ⟨hk, m.nodup⟩)⟩

def setDiff [DecidableEq κ] (m : TagMap κ α) (l : List κ) : TagMap κ α :=
  ⟨m.bindings.filter fun b => decide (b.1 ∉ l),
    m.nodup.sublist ((filter_sublist).map Prod.fst)⟩

def remove [DecidableEq κ] (k : κ) (m : TagMap κ α) : TagMap κ α := m.setDiff [k]

def map (f : α → β) (m : TagMap κ α) : TagMap κ β :=
  ⟨m.bindings.map fun b => (b.1, f b.2), by
    rw [map_map]
    exact m.nodup⟩

/-- The bindings of both maps; `f` decides on a key that both bind. -/
def unionWith [DecidableEq κ] [Tagged κ] (f : α → α → α) (m₁ m₂ : TagMap κ α) : TagMap κ α :=
  m₁.bindings.foldl
    (fun m b => m.add b.1 (match m.find? b.1 with | none => b.2 | some a => f b.2 a)) m₂

/-- The keys of a list, each bound to the unit value: a finite set. -/
def ofList [DecidableEq κ] [Tagged κ] (l : List κ) : TagMap κ Unit :=
  l.foldl (fun m k => m.add k ()) empty

def submap [DecidableEq κ] (m₁ : TagMap κ α) (m₂ : TagMap κ β) : Bool :=
  m₁.bindings.all fun b => m₂.mem b.1

def fold (f : κ → α → β → β) (m : TagMap κ α) (b : β) : β :=
  m.bindings.foldl (fun acc kv => f kv.1 kv.2 acc) b

def foldM {M : Type u → Type v} {γ : Type u} [Monad M] (f : κ → α → γ → M γ)
    (m : TagMap κ α) (b : γ) : M γ :=
  m.bindings.foldlM (fun acc kv => f kv.1 kv.2 acc) b

/-! A binding is in the list exactly when it is the one that a lookup finds. -/

theorem lookup_eq_some_iff_mem [DecidableEq κ] {l : List (κ × α)}
    (hl : (l.map Prod.fst).Nodup) (k : κ) (a : α) : l.lookup k = some a ↔ (k, a) ∈ l := by
  induction l with
  | nil => simp
  | cons b l ih =>
    obtain ⟨k', a'⟩ := b
    simp only [map_cons, nodup_cons] at hl
    by_cases hk : k = k'
    · subst hk
      have hnot : (k, a) ∉ l := fun h => hl.1 (mem_map_of_mem h)
      simp [hnot, eq_comm]
    · have hne : (k == k') = false := by simp [hk]
      simp only [lookup_cons, hne, mem_cons, Prod.mk.injEq, hk, false_and, false_or]
      exact ih hl.2

theorem find?_eq_some_iff [DecidableEq κ] (m : TagMap κ α) (k : κ) (a : α) :
    m.find? k = some a ↔ (k, a) ∈ m.bindings :=
  lookup_eq_some_iff_mem m.nodup k a

theorem mem_eq_true_iff [DecidableEq κ] (m : TagMap κ α) (k : κ) :
    m.mem k = true ↔ ∃ a, m.find? k = some a :=
  Option.isSome_iff_exists

@[simp] theorem find?_empty [DecidableEq κ] (k : κ) : (empty : TagMap κ α).find? k = none := rfl

section

variable (m : TagMap κ α)
include m

theorem mem_bindings_add [DecidableEq κ] [Tagged κ] (k k' : κ) (a a' : α) :
    (k', a') ∈ (m.add k a).bindings ↔ (k' = k ∧ a' = a) ∨ (k' ≠ k ∧ (k', a') ∈ m.bindings) := by
  unfold add
  split
  · next h =>
      -- the key is bound already: its binding is rewritten in place
      obtain ⟨b, hb⟩ := (mem_eq_true_iff m k).mp h
      have hmem := (find?_eq_some_iff m k b).mp hb
      simp only [replaceBinding, mem_map]
      constructor
      · rintro ⟨⟨k₁, a₁⟩, hin, heq⟩
        by_cases hk : k₁ = k
        · rw [if_pos hk] at heq
          simp only [Prod.mk.injEq] at heq
          exact .inl ⟨heq.1.symm, heq.2.symm⟩
        · rw [if_neg hk] at heq
          simp only [Prod.mk.injEq] at heq
          obtain ⟨rfl, rfl⟩ := heq
          exact .inr ⟨hk, hin⟩
      · rintro (⟨rfl, rfl⟩ | ⟨hk, hin⟩)
        · exact ⟨(k', b), hmem, by simp⟩
        · exact ⟨(k', a'), hin, by simp [hk]⟩
  · next h =>
      have hk : ∀ a₁, (k, a₁) ∉ m.bindings := by
        intro a₁ hin
        exact h ((mem_eq_true_iff m k).mpr ⟨a₁, (find?_eq_some_iff m k a₁).mpr hin⟩)
      have hp := (insertBinding_perm k a m.bindings).mem_iff (a := (k', a'))
      rw [hp, mem_cons, Prod.mk.injEq]
      constructor
      · rintro (heq | hin)
        · exact .inl heq
        · refine .inr ⟨?_, hin⟩
          rintro rfl
          exact hk a' hin
      · rintro (heq | ⟨_, hin⟩)
        · exact .inl heq
        · exact .inr hin

theorem find?_add [DecidableEq κ] [Tagged κ] (k k' : κ) (a : α) :
    (m.add k a).find? k' = if k' = k then some a else m.find? k' := by
  apply Option.ext
  intro a'
  rw [find?_eq_some_iff, mem_bindings_add]
  by_cases hk : k' = k
  · simp [hk, eq_comm]
  · simp [hk, find?_eq_some_iff]

@[simp] theorem find?_add_self [DecidableEq κ] [Tagged κ] (k : κ) (a : α) :
    (m.add k a).find? k = some a := by
  rw [find?_add, if_pos rfl]

theorem find?_add_of_ne [DecidableEq κ] [Tagged κ] {k' : κ} (a : α) (h : k' ≠ k) :
    (m.add k a).find? k' = m.find? k' := by
  rw [find?_add, if_neg h]

theorem mem_add [DecidableEq κ] [Tagged κ] (k k' : κ) (a : α) :
    (m.add k a).mem k' = true ↔ k' = k ∨ m.mem k' = true := by
  unfold mem
  rw [find?_add]
  by_cases hk : k' = k
  · simp [hk]
  · simp [hk]

theorem find?_setDiff [DecidableEq κ] (l : List κ) (k : κ) :
    (m.setDiff l).find? k = if k ∈ l then none else m.find? k := by
  apply Option.ext
  intro a
  rw [find?_eq_some_iff, setDiff, mem_filter]
  by_cases hk : k ∈ l
  · simp [hk]
  · simp [hk, find?_eq_some_iff]

theorem find?_remove [DecidableEq κ] (k k' : κ) :
    (m.remove k).find? k' = if k' = k then none else m.find? k' := by
  rw [remove, find?_setDiff]
  simp only [mem_singleton]

theorem bindings_perm_of_find? [DecidableEq κ] {a : α} (h : m.find? k = some a) :
    m.bindings.Perm ((k, a) :: (m.remove k).bindings) := by
  have hnot : (k, a) ∉ (m.remove k).bindings := by
    simp [remove, setDiff]
  refine (perm_ext_iff_of_nodup (Nodup.of_map Prod.fst m.nodup)
    (nodup_cons.mpr ⟨hnot, Nodup.of_map Prod.fst (m.remove k).nodup⟩)).mpr ?_
  rintro ⟨k', a'⟩
  simp only [remove, setDiff, mem_cons, mem_filter, Prod.mk.injEq]
  by_cases hk : k' = k
  · subst hk
    simp [← find?_eq_some_iff, h, eq_comm]
  · simp [hk]

theorem bindings_add_perm [DecidableEq κ] [Tagged κ] (k : κ) (a : α) :
    (m.add k a).bindings.Perm ((k, a) :: (m.remove k).bindings) := by
  refine ((m.add k a).bindings_perm_of_find? (find?_add_self m k a)).trans
    (Perm.cons _ ?_)
  refine (perm_ext_iff_of_nodup (Nodup.of_map Prod.fst (TagMap.nodup _))
    (Nodup.of_map Prod.fst (TagMap.nodup _))).mpr ?_
  rintro ⟨k', a'⟩
  rw [← find?_eq_some_iff, ← find?_eq_some_iff, find?_remove, find?_remove]
  by_cases hk : k' = k
  · simp [hk]
  · simp [hk, find?_add_of_ne]

theorem remove_bindings_of_find?_eq_none [DecidableEq κ] (h : m.find? k = none) :
    (m.remove k).bindings = m.bindings := by
  rw [remove, setDiff, filter_eq_self]
  rintro ⟨k', a⟩ hmem
  have hne : k' ≠ k := by
    rintro rfl
    rw [(find?_eq_some_iff m k' a).mpr hmem] at h
    cases h
  simpa using hne

end

theorem find?_map [DecidableEq κ] (f : α → β) (m : TagMap κ α) (k : κ) :
    (m.map f).find? k = (m.find? k).map f := by
  apply Option.ext
  intro b
  rw [find?_eq_some_iff, Option.map_eq_some_iff]
  simp only [map, mem_map, Prod.mk.injEq]
  constructor
  · rintro ⟨⟨k', a⟩, hin, rfl, rfl⟩
    exact ⟨a, (find?_eq_some_iff m k' a).mpr hin, rfl⟩
  · rintro ⟨a, ha, rfl⟩
    exact ⟨(k, a), (find?_eq_some_iff m k a).mp ha, rfl, rfl⟩

theorem find?_unionWith [DecidableEq κ] [Tagged κ] (f : α → α → α) (m₁ m₂ : TagMap κ α) (k : κ) :
    (unionWith f m₁ m₂).find? k =
      match m₁.find? k, m₂.find? k with
      | some a, some b => some (f a b)
      | some a, none => some a
      | none, r => r := by
  obtain ⟨l, hl⟩ := m₁
  change (l.foldl _ m₂).find? k = match l.lookup k, m₂.find? k with
    | some a, some b => some (f a b)
    | some a, none => some a
    | none, r => r
  induction l generalizing m₂ with
  | nil => rfl
  | cons b l ih =>
    obtain ⟨k', a⟩ := b
    simp only [map_cons, nodup_cons] at hl
    rw [foldl_cons, ih _ hl.2, lookup_cons]
    by_cases hk : k = k'
    · subst hk
      have hnone : l.lookup k = none := by
        have hsome := (mem_keys_iff k l).not.mp hl.1
        rw [Bool.not_eq_true, Option.isSome_eq_false_iff, Option.isNone_iff_eq_none] at hsome
        exact hsome
      rw [hnone, find?_add_self]
      cases m₂.find? k with
      | none => simp
      | some b => simp
    · have hne : (k == k') = false := by simp [hk]
      rw [hne, find?_add_of_ne _ _ hk]

theorem mem_ofList [DecidableEq κ] [Tagged κ] (l : List κ) (k : κ) :
    (ofList l).mem k = true ↔ k ∈ l := by
  have hfold : ∀ m : TagMap κ Unit,
      (l.foldl (fun m k => m.add k ()) m).mem k = true ↔ k ∈ l ∨ m.mem k = true := by
    induction l with
    | nil => simp
    | cons a l ih =>
      intro m
      rw [foldl_cons, ih, mem_add, mem_cons, or_left_comm, or_assoc]
  rw [ofList, hfold]
  simp [mem]

theorem submap_iff [DecidableEq κ] (m₁ : TagMap κ α) (m₂ : TagMap κ β) :
    m₁.submap m₂ = true ↔ ∀ k, m₁.mem k = true → m₂.mem k = true := by
  simp only [submap, all_eq_true]
  constructor
  · intro h k hk
    obtain ⟨a, ha⟩ := (mem_eq_true_iff m₁ k).mp hk
    exact h (k, a) ((find?_eq_some_iff m₁ k a).mp ha)
  · rintro h ⟨k, a⟩ hin
    exact h k ((mem_eq_true_iff m₁ k).mpr ⟨a, (find?_eq_some_iff m₁ k a).mpr hin⟩)

end TagMap

end Lib
