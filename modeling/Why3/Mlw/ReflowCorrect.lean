import Why3.Mlw.Reflow
import Why3.Logic.Boolean

/-!
# Reshaping preserves executions

Moved code runs in the scope of handlers it was written outside of. It is not caught
by them: a handler for an exception has a number of its own, and the outcomes of the
moved code are caught further out. Normal ends are not caught either, because moved
code that ends normally raises its exception again.
-/

namespace Why3

open Lib List

variable {cl : Bool} {out1 out2 : Exits} {t : KTag} {k k1 k2 k1' k2' k2'' : Kode}
variable {bl : List (Pattern × Kode)} {hs : List ℕ} {q : Moved} {i j : ℕ}
variable {out : Exits} {bl' : List (Pattern × Kode)}

namespace Kode

mutual

def noMarks : Kode → Bool
  | .kseq k1 _ k2 => noMarks k1 && noMarks k2
  | .kpar k1 k2 => noMarks k1 && noMarks k2
  | .kif _ k1 k2 => noMarks k1 && noMarks k2
  | .kcase _ bl => noMarksBranches bl
  | .kaxiomVc k => noMarks k
  | .ktag (.out _) _ => false
  | .ktag (.push _) _ => false
  | .ktag _ k => noMarks k
  | _ => true

def noMarksBranches : List (Pattern × Kode) → Bool
  | [] => true
  | (_, k) :: bl => noMarks k && noMarksBranches bl

end

def handlerOf (i : ℕ) : List ℕ := if i = 0 then [] else [i]

mutual

def handlers : Kode → List ℕ
  | .kseq k1 i k2 => handlerOf i ++ handlers k1 ++ handlers k2
  | .kpar k1 k2 => handlers k1 ++ handlers k2
  | .kif _ k1 k2 => handlers k1 ++ handlers k2
  | .kcase _ bl => handlersBranches bl
  | .kaxiomVc k => handlers k
  | .ktag _ k => handlers k
  | _ => []

def handlersBranches : List (Pattern × Kode) → List ℕ
  | [] => []
  | (_, k) :: bl => handlers k ++ handlersBranches bl

end

mutual

/-- The outcomes that a code leaves to what is around it. Code after an outcome that
is never raised has none. -/
def outcomes : Kode → List ℕ
  | .kseq k1 i k2 =>
    if i ∈ outcomes k1 then (outcomes k1).filter (fun j => decide (j ≠ i)) ++ outcomes k2
    else outcomes k1
  | .kpar k1 k2 => outcomes k1 ++ outcomes k2
  | .kif _ k1 k2 => outcomes k1 ++ outcomes k2
  | .kcase _ bl => outcomesBranches bl
  | .kstop _ => []
  | .kcont i => [i]
  | .ktag _ k => outcomes k
  | _ => [0]

def outcomesBranches : List (Pattern × Kode) → List ℕ
  | [] => []
  | (_, k) :: bl => outcomes k ++ outcomesBranches bl

end

mutual

/-- The code whose verification condition is assumed catches all its outcomes. -/
def axiomsCaught : Kode → Prop
  | .kseq k1 _ k2 => axiomsCaught k1 ∧ axiomsCaught k2
  | .kpar k1 k2 => axiomsCaught k1 ∧ axiomsCaught k2
  | .kif _ k1 k2 => axiomsCaught k1 ∧ axiomsCaught k2
  | .kcase _ bl => axiomsCaughtBranches bl
  | .kaxiomVc k => outcomes k = [] ∧ axiomsCaught k
  | .ktag _ k => axiomsCaught k
  | _ => True

def axiomsCaughtBranches : List (Pattern × Kode) → Prop
  | [] => True
  | (_, k) :: bl => axiomsCaught k ∧ axiomsCaughtBranches bl

end

attribute [local simp] noMarks handlers outcomes axiomsCaught

theorem mem_handlerOf : j ∈ handlerOf i ↔ j = i ∧ i ≠ 0 := by
  unfold handlerOf
  split
  · next h => simp [h]
  · next h => simp [h]

theorem handlersBranches_eq (bl : List (Pattern × Kode)) :
    handlersBranches bl = bl.flatMap fun b => b.2.handlers := by
  induction bl with
  | nil => rfl
  | cons b bl ih => rw [handlersBranches, ih, flatMap_cons]

theorem outcomesBranches_eq (bl : List (Pattern × Kode)) :
    outcomesBranches bl = bl.flatMap fun b => b.2.outcomes := by
  induction bl with
  | nil => rfl
  | cons b bl ih => rw [outcomesBranches, ih, flatMap_cons]

theorem axiomsCaughtBranches_iff (bl : List (Pattern × Kode)) :
    axiomsCaughtBranches bl ↔ ∀ b ∈ bl, b.2.axiomsCaught := by
  induction bl with
  | nil => simp [axiomsCaughtBranches]
  | cons b bl ih => rw [axiomsCaughtBranches, ih, forall_mem_cons]

theorem noMarksBranches_iff (bl : List (Pattern × Kode)) :
    noMarksBranches bl = true ↔ ∀ b ∈ bl, b.2.noMarks = true := by
  induction bl with
  | nil => simp [noMarksBranches]
  | cons b bl ih => rw [noMarksBranches, Bool.and_eq_true, ih, forall_mem_cons]

theorem zero_notMem_handlers (k : Kode) : 0 ∉ handlers k := by
  induction k using Kode.inductionOn with
  | hseq k1 i k2 ih1 ih2 =>
    simp only [handlers, mem_append, mem_handlerOf, not_or]
    exact ⟨⟨fun h => h.2 h.1.symm, ih1⟩, ih2⟩
  | hpar k1 k2 ih1 ih2 | hif v k1 k2 ih1 ih2 => simp [ih1, ih2]
  | hcase v bl ih =>
    rw [handlers, handlersBranches_eq, mem_flatMap]
    rintro ⟨b, hb, h⟩
    exact ih b hb h
  | haxiomVc k ih | htag tag k ih => simp [ih]
  | _ => simp

/-! ## Fresh handlers -/

/-- Every exception has one handler, and what is raised to the outside is not caught
inside. -/
structure Fresh (k : Kode) : Prop where
  nodup : k.handlers.Nodup
  free : ∀ j ∈ k.outcomes, j ∉ k.handlers
  axioms : k.axiomsCaught

theorem Fresh.seq_left (h : Fresh (.kseq k1 i k2)) : Fresh k1 := by
  obtain ⟨hnodup, hfree, haxioms⟩ := h
  rw [handlers, append_assoc, nodup_append] at hnodup
  refine ⟨(nodup_append.mp hnodup.2.1).1, ?_, haxioms.1⟩
  intro j hj hmem
  have hj' : j = i ∨ j ∈ outcomes (.kseq k1 i k2) := by
    rw [outcomes]
    split
    · by_cases hji : j = i
      · exact .inl hji
      · exact .inr (mem_append_left _ (by simp [hj, hji]))
    · exact .inr hj
  rcases hj' with rfl | hj'
  · by_cases hj0 : j = 0
    · exact zero_notMem_handlers k1 (hj0 ▸ hmem)
    · exact hnodup.2.2 j (mem_handlerOf.mpr ⟨rfl, hj0⟩) j (mem_append_left _ hmem) rfl
  · exact hfree j hj' (by simp [hmem])

theorem Fresh.seq_right (h : Fresh (.kseq k1 i k2)) (hi : i ∈ k1.outcomes) : Fresh k2 := by
  obtain ⟨hnodup, hfree, haxioms⟩ := h
  rw [handlers, nodup_append] at hnodup
  refine ⟨hnodup.2.1, ?_, haxioms.2⟩
  intro j hj hmem
  refine hfree j ?_ (by simp [hmem])
  rw [outcomes, if_pos hi]
  exact mem_append_right _ hj

theorem Fresh.part {k' : Kode} {l r : List ℕ} (h : Fresh k)
    (hhandlers : k.handlers = l ++ k'.handlers ++ r) (houtcomes : ∀ j ∈ k'.outcomes, j ∈ k.outcomes)
    (haxioms : k'.axiomsCaught) : Fresh k' := by
  have hnodup := h.nodup
  rw [hhandlers, nodup_append, nodup_append] at hnodup
  refine ⟨hnodup.1.2.1, ?_, haxioms⟩
  intro j hj hmem
  exact h.free j (houtcomes j hj) (by simp [hhandlers, hmem])

theorem Fresh.both (h : Fresh k) (hhandlers : k.handlers = handlers k1 ++ handlers k2)
    (houtcomes : k.outcomes = outcomes k1 ++ outcomes k2)
    (haxioms : axiomsCaught k1 ∧ axiomsCaught k2) : Fresh k1 ∧ Fresh k2 :=
  ⟨h.part (l := []) (by rw [hhandlers, nil_append]) (fun j hj => by simp [houtcomes, hj])
      haxioms.1,
    h.part (r := []) (by rw [hhandlers, append_nil]) (fun j hj => by simp [houtcomes, hj])
      haxioms.2⟩

theorem Fresh.branch {v : PVSymbol} (h : Fresh (.kcase v bl)) {b : Pattern × Kode} (hb : b ∈ bl) :
    Fresh b.2 := by
  obtain ⟨l, l', rfl⟩ := append_of_mem hb
  refine h.part (l := handlersBranches l) (r := handlersBranches l') ?_ ?_ ?_
  · simp [handlersBranches_eq]
  · intro j hj
    simp only [outcomes, outcomesBranches_eq, mem_flatMap]
    exact ⟨b, hb, hj⟩
  · exact (axiomsCaughtBranches_iff _).mp h.axioms b hb

end Kode

open Kode

attribute [local simp] handlers outcomes mark push

section Exec

variable {D : Type} {I : Interp D} {τ : TyVal}
  {H : Writes → (VSymbol → D) → (VSymbol → D) → Prop}

theorem mem_outcomes (k : Kode) {ρ ρ' : VSymbol → D} (h : .done j ρ' ∈ exec I τ H k ρ) :
    j ∈ k.outcomes := by
  induction k using Kode.inductionOn generalizing ρ ρ' j with
  | hseq k1 i k2 ih1 ih2 =>
    rw [exec_kseq, Comp.done_mem_bind] at h
    obtain ⟨m, ρ₁, hm, h⟩ := h
    have hmem := ih1 hm
    rw [outcomes]
    by_cases hmi : m = i
    · subst hmi
      rw [Comp.handle_self] at h
      rw [if_pos hmem]
      exact mem_append_right _ (ih2 h)
    · rw [Comp.handle_of_ne hmi] at h
      cases h
      split
      · exact mem_append_left _ (by simp [hmem, hmi])
      · exact hmem
  | hpar k1 k2 ih1 ih2 =>
    rcases h with h | h
    · exact mem_append_left _ (ih1 h)
    · exact mem_append_right _ (ih2 h)
  | hif v k1 k2 ih1 ih2 =>
    rw [exec_kif] at h
    split at h
    · exact mem_append_left _ (ih1 h)
    · exact mem_append_right _ (ih2 h)
  | hcase v bl ih =>
    obtain ⟨b, hb, ρ₁, h⟩ := mem_execBranches I τ H ρ h
    simp only [outcomes, outcomesBranches_eq, mem_flatMap]
    exact ⟨b, hb, ih b hb h⟩
  | hhavoc _ =>
    obtain ⟨_, _, h⟩ := h
    cases h
    exact mem_singleton_self 0
  | hlet _ _ _ | haxiomVc _ _ =>
    obtain ⟨_, h⟩ := h
    cases h
    exact mem_singleton_self 0
  | hval _ _ =>
    obtain ⟨_, _, _, h⟩ := h
    cases h
    exact mem_singleton_self 0
  | hcut f =>
    rw [exec] at h
    split at h
    · cases h
      simp
    · cases h
  | hstop f =>
    rw [exec] at h
    split at h <;> cases h
  | hcont i =>
    cases h
    simp
  | htag tag k ih => exact ih h

/-! ## Moved code -/

noncomputable def execMoved (I : Interp D) (τ : TyVal)
    (H : Writes → (VSymbol → D) → (VSymbol → D) → Prop) (q : Moved) (k : Kode)
    (ρ : VSymbol → D) : Comp (VSymbol → D) :=
  (exec I τ H k ρ).bind fun i => exec I τ H (atExit q i)

variable (I τ H) in
/-- The code to be moved is not caught by the handlers `hs`, and closed code does not
end normally. -/
structure CleanKode (hs : List ℕ) (q : Moved) : Prop where
  key : ∀ j ∈ hs, q.find? j = none
  closed : ∀ {j c}, q.find? j = some (c, true) → ∀ ρ, (exec I τ H c ρ).Avoids 0
  code : ∀ {j c cl}, q.find? j = some (c, cl) → ∀ h ∈ hs, ∀ ρ, (exec I τ H c ρ).Avoids h

theorem CleanKode.mono {hs' : List ℕ} (h : CleanKode I τ H hs q) (hsub : ∀ j ∈ hs', j ∈ hs) :
    CleanKode I τ H hs' q :=
  ⟨fun j hj => h.key j (hsub j hj), h.closed, fun hq j hj => h.code hq j (hsub j hj)⟩

theorem CleanKode.remove (h : CleanKode I τ H hs q) (i : ℕ) : CleanKode I τ H hs (q.remove i) := by
  have hfind : ∀ {j a}, (q.remove i).find? j = some a → q.find? j = some a := by
    intro j a hj
    rw [TagMap.find?_remove] at hj
    split at hj
    · cases hj
    · exact hj
  refine ⟨?_, fun hj => h.closed (hfind hj), fun hj => h.code (hfind hj)⟩
  intro j hj
  rw [TagMap.find?_remove, h.key j hj, ite_self]

theorem clean_empty (hs : List ℕ) : CleanKode I τ H hs .empty :=
  ⟨fun _ _ => TagMap.find?_empty _, fun h => by simp at h, fun h => by simp at h⟩

theorem atExit_congr {q' : Moved} (h : q.find? i = q'.find? i) : atExit q i = atExit q' i := by
  rw [atExit, atExit, h]

theorem atExit_none (h : q.find? i = none) : atExit q i = .kcont i := by
  rw [atExit, h]

theorem atExit_some {q : Moved} {i : ℕ} {c : Kode} {cl : Bool} (h : q.find? i = some (c, cl)) :
    atExit q i = if i = 0 ∨ cl then c else .kseq c 0 (.kcont i) := by
  rw [atExit, h]

/-- What is done at an exit does not end with another outcome, if the moved code does not. -/
theorem avoids_atExit (hj : j ≠ i) (ρ : VSymbol → D)
    (hclosed : ∀ {c cl}, q.find? j = some (c, cl) → j = 0 ∨ cl = true → (exec I τ H c ρ).Avoids i)
    (hopen : ∀ {c cl}, q.find? j = some (c, cl) → i = 0 ∨ (exec I τ H c ρ).Avoids i) :
    (exec I τ H (atExit q j) ρ).Avoids i := by
  cases hq : q.find? j with
  | none =>
    rw [atExit_none hq]
    exact Comp.Avoids.pure hj ρ
  | some a =>
    rw [atExit_some hq]
    split
    · next hcl => exact hclosed hq hcl
    · apply Comp.Avoids.bind
      intro m ρ' hm
      by_cases hm0 : m = 0
      · subst hm0
        rw [Comp.handle_self]
        exact Comp.Avoids.pure hj ρ'
      · rw [Comp.handle_of_ne hm0]
        refine Comp.Avoids.pure ?_ ρ'
        rintro rfl
        exact (hopen hq).elim hm0 fun h => h ρ' hm

theorem CleanKode.avoids (h : CleanKode I τ H hs q) (hi : i ∈ hs) (hj : j ≠ i) (ρ : VSymbol → D) :
    (exec I τ H (atExit q j) ρ).Avoids i :=
  avoids_atExit hj ρ (fun hq _ => h.code hq i hi ρ) fun hq => .inr (h.code hq i hi ρ)

theorem CleanKode.avoids_zero (h : CleanKode I τ H hs q) (hj : j ≠ 0) (ρ : VSymbol → D) :
    (exec I τ H (atExit q j) ρ).Avoids 0 := by
  refine avoids_atExit hj ρ (fun hq hcl => ?_) fun _ => .inl rfl
  obtain rfl := hcl.resolve_left hj
  exact h.closed hq ρ

/-- A handler in `k1` does not catch what is done at the other exits. -/
theorem CleanKode.avoids_handler (h : CleanKode I τ H (handlers (.kseq k1 i k2)) q) (hj : j ≠ i)
    (ρ : VSymbol → D) : (exec I τ H (atExit q j) ρ).Avoids i := by
  by_cases hi : i = 0
  · subst hi
    exact h.avoids_zero hj ρ
  · exact h.avoids (by simp [mem_handlerOf, hi]) hj ρ

/-! ## One step of the moving -/

theorem execMoved_seq (hclean : CleanKode I τ H (handlers (.kseq k1 i k2)) q)
    (h1 : ∀ ρ, exec I τ H k1' ρ = execMoved I τ H (q.remove i) k1 ρ)
    (h2 : ∀ ρ, exec I τ H k2' ρ = execMoved I τ H q k2 ρ) (ρ : VSymbol → D) :
    exec I τ H (.kseq k1' i k2') ρ = execMoved I τ H q (.kseq k1 i k2) ρ := by
  rw [execMoved, exec_kseq, exec_kseq, h1, execMoved, Comp.bind_assoc, Comp.bind_assoc]
  apply Comp.bind_congr
  intro j ρ' _
  by_cases hj : j = i
  · subst hj
    have hnone : (q.remove j).find? j = none := by
      rw [TagMap.find?_remove, if_pos rfl]
    rw [atExit_none hnone, exec_kcont, Comp.pure_bind, Comp.handle_self, Comp.handle_self, h2]
    rfl
  · have hsame : (q.remove i).find? j = q.find? j := by
      rw [TagMap.find?_remove, if_neg hj]
    rw [atExit_congr hsame, Comp.bind_handle_of_avoids (hclean.avoids_handler hj ρ'),
      Comp.handle_of_ne hj, Comp.pure_bind]

theorem execMoved_closed (hcl : i = 0 ∨ cl = true)
    (h2 : ∀ ρ, exec I τ H k2' ρ = execMoved I τ H q k2 ρ)
    (h1 : ∀ ρ, exec I τ H k1' ρ = execMoved I τ H (q.add i (k2', cl)) k1 ρ) (ρ : VSymbol → D) :
    exec I τ H k1' ρ = execMoved I τ H q (.kseq k1 i k2) ρ := by
  rw [h1, execMoved, execMoved, exec_kseq, Comp.bind_assoc]
  apply Comp.bind_congr
  intro j ρ' _
  by_cases hj : j = i
  · subst hj
    rw [atExit_some (TagMap.find?_add_self q j (k2', cl)), if_pos hcl, Comp.handle_self, h2]
    rfl
  · rw [atExit_congr (TagMap.find?_add_of_ne q (k2', cl) hj), Comp.handle_of_ne hj, Comp.pure_bind]

/-- A handler that is moved and can end normally: the exception is raised again. -/
theorem execMoved_open (hi : i ≠ 0) (hclean : CleanKode I τ H (handlers (.kseq k1 i k2)) q)
    (havoids : ∀ ρ, (exec I τ H k2' ρ).Avoids i)
    (h2 : ∀ ρ, exec I τ H k2' ρ = execMoved I τ H q k2 ρ)
    (h1 : ∀ ρ, exec I τ H k1' ρ = execMoved I τ H (q.add i (k2', false)) k1 ρ) (ρ : VSymbol → D) :
    exec I τ H (.kseq k1' i (.kcont 0)) ρ = execMoved I τ H q (.kseq k1 i k2) ρ := by
  rw [execMoved, exec_kseq, exec_kseq, h1, execMoved, Comp.bind_assoc, Comp.bind_assoc]
  apply Comp.bind_congr
  intro j ρ' _
  by_cases hj : j = i
  · subst hj
    rw [atExit_some (TagMap.find?_add_self q j (k2', false)), if_neg (by simpa using hi),
      Comp.handle_self, exec_kseq, Comp.bind_assoc]
    change _ = execMoved I τ H q k2 ρ'
    rw [← h2]
    apply Comp.bind_eq_self
    intro m ρ'' hm
    by_cases hm0 : m = 0
    · subst hm0
      rw [Comp.handle_self, exec_kcont, Comp.pure_bind, Comp.handle_self, exec_kcont]
    · rw [Comp.handle_of_ne hm0, Comp.pure_bind, Comp.handle_of_ne]
      rintro rfl
      exact havoids ρ' ρ'' hm
  · rw [atExit_congr (TagMap.find?_add_of_ne q (k2', false) hj),
      Comp.bind_handle_of_avoids (hclean.avoids_handler hj ρ'), Comp.handle_of_ne hj,
      Comp.pure_bind]

/-! ## The whole transformation -/

def Single (out : Exits) (q : Moved) : Prop := ∀ i, out.find? i = some false → q.find? i = none

variable (I τ H) in
/-- The marked code `k'` can be moved as the exits say, and then does what `k` does. -/
structure Reshaped (k k' : Kode) (out : Exits) : Prop where
  notPush : ∀ cl k0, k' ≠ .ktag (.push cl) k0
  exits : ∀ i, i ∈ k.outcomes ↔ ∃ b, out.find? i = some b
  run : ∀ q, Single out q → ∃ k'', push k' q = .ok k'' ∧
    (CleanKode I τ H k.handlers q → ∀ ρ, exec I τ H k'' ρ = execMoved I τ H q k ρ)

theorem joinExits_eq_some :
    (∃ b, (joinExits out1 out2).find? i = some b) ↔
      (∃ b, out1.find? i = some b) ∨ ∃ b, out2.find? i = some b := by
  rw [joinExits, TagMap.find?_unionWith]
  cases out1.find? i <;> cases out2.find? i <;> simp

theorem Single.left (h : Single (joinExits out1 out2) q) : Single out1 q := by
  intro i hi
  apply h
  rw [joinExits, TagMap.find?_unionWith, hi]
  cases out2.find? i <;> rfl

theorem Single.right (h : Single (joinExits out1 out2) q) : Single out2 q := by
  intro i hi
  apply h
  rw [joinExits, TagMap.find?_unionWith, hi]
  cases out1.find? i <;> rfl

theorem find?_singleton (i j : ℕ) :
    (Exits.singleton i).find? j = if j = i then some true else none := by
  rw [Exits.singleton, TagMap.find?_add, TagMap.find?_empty]

theorem single_empty (out : Exits) : Single out .empty := fun _ _ => TagMap.find?_empty _

theorem execMoved_basic (h : ∀ ρ ρ' i, .done i ρ' ∈ exec I τ H k ρ → i = 0) (ρ : VSymbol → D) :
    exec I τ H (afterExit q k) ρ = execMoved I τ H q k ρ := by
  unfold afterExit
  cases hq : q.find? 0 with
  | none =>
    refine (Comp.bind_eq_self fun i ρ' hi => ?_).symm
    obtain rfl := h ρ ρ' i hi
    rw [atExit_none hq, exec_kcont]
  | some a =>
    obtain ⟨c, cl⟩ := a
    simp only
    rw [execMoved, exec_kseq]
    apply Comp.bind_congr
    intro i ρ' hi
    obtain rfl := h ρ ρ' i hi
    rw [Comp.handle_self, atExit_some hq, if_pos (.inl rfl)]

theorem reshaped_basic (hk : k.isBasic = true) : Reshaped I τ H k k (.singleton 0) := by
  have hout : k.outcomes = [0] := by
    cases k <;> first | rfl | cases hk
  refine ⟨?_, ?_, ?_⟩
  · rintro cl k0 rfl
    cases hk
  · intro i
    rw [hout, find?_singleton, mem_singleton]
    by_cases hi : i = 0 <;> simp [hi]
  · intro q _
    refine ⟨afterExit q k, ?_, fun _ ρ => execMoved_basic ?_ ρ⟩
    · cases k <;> first | rfl | cases hk
    · intro ρ ρ' i hi
      have := mem_outcomes k hi
      rwa [hout, mem_singleton] at this

theorem execMoved_id (ρ : VSymbol → D) : execMoved I τ H .empty k ρ = exec I τ H k ρ := by
  apply Comp.bind_eq_self
  intro i ρ' _
  rw [atExit_none (TagMap.find?_empty _), exec_kcont]

/-- Moving into the first part of a sequence is as good as moving into the whole. -/
theorem Single.seq_left (h : Single (joinExits (out1.remove i) out2) q) (hj : j ≠ i)
    (hout : out1.find? j = some false) : q.find? j = none := by
  apply h.left
  rw [TagMap.find?_remove, if_neg hj, hout]

theorem CleanKode.seq_left (h : CleanKode I τ H (handlers (.kseq k1 i k2)) q) :
    CleanKode I τ H k1.handlers q :=
  h.mono fun j hj => by simp [hj]

theorem CleanKode.seq_right (h : CleanKode I τ H (handlers (.kseq k1 i k2)) q) :
    CleanKode I τ H k2.handlers q :=
  h.mono fun j hj => by simp [hj]

/-- Code that ends normally nowhere, or is followed by such code, is closed. -/
theorem avoids_zero_moved (hclean : CleanKode I τ H hs q)
    (hrun : ∀ ρ, exec I τ H k2'' ρ = execMoved I τ H q k2 ρ)
    (hcl : 0 ∉ k2.outcomes ∨ ∃ c, q.find? 0 = some (c, true)) (ρ : VSymbol → D) :
    (exec I τ H k2'' ρ).Avoids 0 := by
  rw [hrun]
  apply Comp.Avoids.bind
  intro m ρ' hm
  by_cases hm0 : m = 0
  · subst hm0
    rcases hcl with hcl | ⟨c, hc⟩
    · exact absurd (mem_outcomes k2 hm) hcl
    · rw [atExit_some hc, if_pos (.inl rfl)]
      exact hclean.closed hc ρ'
  · exact hclean.avoids_zero hm0 ρ'

section

variable (hfresh : Fresh (.kseq k1 i k2)) (hi : i ∈ k1.outcomes)
  (hclean : CleanKode I τ H (handlers (.kseq k1 i k2)) q)
  (hrun : ∀ ρ, exec I τ H k2'' ρ = execMoved I τ H q k2 ρ)
include hfresh hi hclean hrun

/-- What is done after `k1` keeps out of the handlers of the sequence. -/
theorem avoids_moved {h : ℕ} (hh : h ∈ handlers (.kseq k1 i k2)) (ρ : VSymbol → D) :
    (exec I τ H k2'' ρ).Avoids h := by
  rw [hrun]
  apply Comp.Avoids.bind
  intro m ρ' hm
  refine hclean.avoids hh ?_ ρ'
  rintro rfl
  refine hfresh.free m ?_ hh
  rw [outcomes, if_pos hi]
  exact mem_append_right _ (mem_outcomes k2 hm)

theorem CleanKode.add (hcl : cl = true → 0 ∉ k2.outcomes ∨ ∃ c, q.find? 0 = some (c, true)) :
    CleanKode I τ H k1.handlers (q.add i (k2'', cl)) := by
  refine ⟨?_, ?_, ?_⟩
  · intro j hj
    have hji : j ≠ i := by
      rintro rfl
      exact hfresh.seq_left.free j hi hj
    rw [TagMap.find?_add_of_ne _ _ hji]
    exact hclean.seq_left.key j hj
  · intro j c hj ρ
    rw [TagMap.find?_add] at hj
    split at hj
    · cases hj
      exact avoids_zero_moved hclean hrun (hcl rfl) ρ
    · exact hclean.closed hj ρ
  · intro j c cl' hj h hh ρ
    rw [TagMap.find?_add] at hj
    split at hj
    · cases hj
      exact avoids_moved hfresh hi hclean hrun (by simp [hh]) ρ
    · exact hclean.seq_left.code hj h hh ρ

end

section

variable (h1 : Reshaped I τ H k1 k1' out1) (h2 : Reshaped I τ H k2 k2' out2)
include h1 h2

theorem exits_seq (hi : i ∈ k1.outcomes) (j : ℕ) :
    j ∈ outcomes (.kseq k1 i k2) ↔ ∃ b, (joinExits (out1.remove i) out2).find? j = some b := by
  rw [outcomes, if_pos hi, joinExits_eq_some, mem_append, ← h2.exits,
    TagMap.find?_remove, mem_filter, h1.exits]
  by_cases hj : j = i <;> simp [hj]

/-- The code after an outcome with several exits stays where it is. -/
theorem reshaped_seq (hi : i ∈ k1.outcomes) :
    Reshaped I τ H (.kseq k1 i k2) (.kseq k1' i k2') (joinExits (out1.remove i) out2) := by
  refine ⟨fun _ _ h => (nomatch h), exits_seq h1 h2 hi, ?_⟩
  intro q hq
  have hq1 : Single out1 (q.remove i) := by
    intro j hj
    rw [TagMap.find?_remove]
    split
    · rfl
    · next hji => exact hq.seq_left hji hj
  obtain ⟨k1'', hk1, hrun1⟩ := h1.run (q.remove i) hq1
  obtain ⟨k2'', hk2, hrun2⟩ := h2.run q hq.right
  refine ⟨.kseq k1'' i k2'', ?_, ?_⟩
  · rw [push, hk1, hk2]
    · rfl
    · exact h2.notPush
  · intro hclean ρ
    exact execMoved_seq hclean (hrun1 (hclean.seq_left.remove i)) (hrun2 hclean.seq_right) ρ

theorem reshaped_push (hfresh : Fresh (.kseq k1 i k2)) (hi : out1.find? i = some true) :
    Reshaped I τ H (.kseq k1 i k2) (.kseq k1' i (.ktag (.push (!out2.mem 0)) k2'))
      (joinExits (out1.remove i) out2) := by
  have hmem : i ∈ k1.outcomes := (h1.exits i).mpr ⟨true, hi⟩
  refine ⟨fun _ _ h => (nomatch h), exits_seq h1 h2 hmem, ?_⟩
  intro q hq
  obtain ⟨k2'', hk2, hrun2⟩ := h2.run q hq.right
  have hq1 : ∀ cl, Single out1 (q.add i (k2'', cl)) := by
    intro cl j hj
    have hji : j ≠ i := by
      rintro rfl
      rw [hi] at hj
      cases hj
    rw [TagMap.find?_add_of_ne _ _ hji]
    exact hq.seq_left hji hj
  obtain ⟨cl, hcldef⟩ : ∃ cl, cl = pushClosed (!out2.mem 0) q := ⟨_, rfl⟩
  have hcl : cl = true → 0 ∉ k2.outcomes ∨ ∃ c, q.find? 0 = some (c, true) := by
    intro h
    rw [hcldef, pushClosed, Bool.or_eq_true] at h
    rcases h with h | h
    · refine .inl fun h0 => ?_
      obtain ⟨b, hb⟩ := (h2.exits 0).mp h0
      simp [TagMap.mem, hb] at h
    · right
      cases hq0 : q.find? 0 with
      | none => simp [hq0] at h
      | some a =>
        obtain ⟨c, b⟩ := a
        simp only [hq0] at h
        exact ⟨c, by rw [h]⟩
  obtain ⟨k1'', hk1, hrun1⟩ := h1.run _ (hq1 cl)
  by_cases hcase : i = 0 ∨ cl = true
  · refine ⟨k1'', ?_, ?_⟩
    · rw [push, hk2, ← hcldef]
      exact (if_pos hcase).trans hk1
    · intro hclean ρ
      have hrun2 := hrun2 hclean.seq_right
      exact execMoved_closed hcase hrun2 (hrun1 (hclean.add hfresh hmem hrun2 hcl)) ρ
  · obtain ⟨hi0, hclf⟩ := not_or.mp hcase
    obtain rfl : cl = false := by simpa using hclf
    refine ⟨.kseq k1'' i (.kcont 0), ?_, ?_⟩
    · rw [push, hk2, ← hcldef]
      refine (if_neg hcase).trans ?_
      rw [hk1]
      rfl
    · intro hclean ρ
      have hrun2 := hrun2 hclean.seq_right
      refine execMoved_open hi0 hclean ?_ hrun2 (hrun1 (hclean.add hfresh hmem hrun2 hcl)) ρ
      exact avoids_moved hfresh hmem hclean hrun2 (by simp [mem_handlerOf, hi0])

theorem reshaped_par : Reshaped I τ H (.kpar k1 k2) (.kpar k1' k2') (joinExits out1 out2) := by
  refine ⟨fun _ _ h => (nomatch h), ?_, ?_⟩
  · intro j
    rw [outcomes, mem_append, joinExits_eq_some, h1.exits, h2.exits]
  · intro q hq
    obtain ⟨k1'', hk1, hrun1⟩ := h1.run q hq.left
    obtain ⟨k2'', hk2, hrun2⟩ := h2.run q hq.right
    refine ⟨.kpar k1'' k2'', ?_, ?_⟩
    · rw [push, hk1, hk2]
      rfl
    · intro hclean ρ
      rw [execMoved, exec_kpar, exec_kpar, Comp.bind_union,
        hrun1 (hclean.mono fun j hj => by simp [hj]), hrun2 (hclean.mono fun j hj => by simp [hj])]
      rfl

theorem reshaped_if (v : PVSymbol) :
    Reshaped I τ H (.kif v k1 k2) (.kif v k1' k2') (joinExits out1 out2) := by
  refine ⟨fun _ _ h => (nomatch h), ?_, ?_⟩
  · intro j
    rw [outcomes, mem_append, joinExits_eq_some, h1.exits, h2.exits]
  · intro q hq
    obtain ⟨k1'', hk1, hrun1⟩ := h1.run q hq.left
    obtain ⟨k2'', hk2, hrun2⟩ := h2.run q hq.right
    refine ⟨.kif v k1'' k2'', ?_, ?_⟩
    · rw [push, hk1, hk2]
      rfl
    · intro hclean ρ
      rw [execMoved, exec_kif, exec_kif]
      split
      · exact hrun1 (hclean.mono fun j hj => by simp [hj]) ρ
      · exact hrun2 (hclean.mono fun j hj => by simp [hj]) ρ

end

theorem reshaped_branches
    (hmark : ∀ b ∈ bl, ∀ k' out, mark t b.2 = .ok (k', out) → Reshaped I τ H b.2 k' out)
    (h : markBranches t bl = .ok (bl', out)) :
    (∀ j, j ∈ outcomesBranches bl ↔ ∃ b, out.find? j = some b) ∧
      ∀ q, Single out q → ∃ bl'', pushBranches bl' q = .ok bl'' ∧
        (CleanKode I τ H (handlersBranches bl) q → Forall₂ (fun b b'' => b.1 = b''.1 ∧
          ∀ ρ, exec I τ H b''.2 ρ = execMoved I τ H q b.2 ρ) bl bl'') := by
  induction bl generalizing bl' out with
  | nil =>
    cases h
    refine ⟨fun j => by simp [outcomesBranches], fun q _ => ⟨[], rfl, fun _ => .nil⟩⟩
  | cons b bl ih =>
    obtain ⟨p, k⟩ := b
    obtain ⟨⟨bl₁, out2⟩, hbl, ⟨k', out1⟩, hk, h⟩ := bind₂_eq_ok.mp h
    cases h
    obtain ⟨hhead, htail⟩ := forall_mem_cons.mp hmark
    have hk := hhead k' out1 hk
    obtain ⟨hexits, hrun⟩ := ih htail hbl
    refine ⟨?_, ?_⟩
    · intro j
      rw [outcomesBranches, mem_append, joinExits_eq_some, hk.exits, hexits]
    · intro q hq
      obtain ⟨k'', hk', hrunk⟩ := hk.run q hq.left
      obtain ⟨bl'', hbl', hrunbl⟩ := hrun q hq.right
      refine ⟨(p, k'') :: bl'', ?_, ?_⟩
      · rw [pushBranches, hk', hbl']
        rfl
      · intro hclean
        exact .cons ⟨rfl, hrunk (hclean.mono fun j hj => by simp [handlersBranches, hj])⟩
          (hrunbl (hclean.mono fun j hj => by simp [handlersBranches, hj]))

theorem reshaped_case (v : PVSymbol)
    (hmark : ∀ b ∈ bl, ∀ k' out, mark t b.2 = .ok (k', out) → Reshaped I τ H b.2 k' out)
    (h : markBranches t bl = .ok (bl', out)) : Reshaped I τ H (.kcase v bl) (.kcase v bl') out := by
  obtain ⟨hexits, hrun⟩ := reshaped_branches hmark h
  refine ⟨fun _ _ h => (nomatch h), hexits, ?_⟩
  intro q hq
  obtain ⟨bl'', hbl, hrun⟩ := hrun q hq
  refine ⟨.kcase v bl'', ?_, ?_⟩
  · rw [push, hbl]
    rfl
  · intro hclean ρ
    rw [execMoved, exec_kcase, exec_kcase]
    refine execBranches_rel I τ H ρ (F := fun c c' => c' = c.bind fun i => exec I τ H (atExit q i))
      ?_ (hrun hclean) _
    apply Comp.ext <;> simp

theorem reshaped_switch {tag : KTag} (htag : ∀ cl, tag ≠ .push cl) (htag' : ∀ a, tag ≠ .off a)
    (h1 : Reshaped I τ H k1 k1' out1) :
    Reshaped I τ H (.ktag tag k1) (.ktag (.out out1) (.ktag tag k1')) (out1.map fun _ => false) := by
  refine ⟨fun _ _ h => (nomatch h), ?_, ?_⟩
  · intro j
    rw [outcomes, h1.exits, TagMap.find?_map]
    cases out1.find? j <;> simp
  · intro q hq
    obtain ⟨k1'', hk1, hrun1⟩ := h1.run .empty (single_empty _)
    have hpush : push (.ktag tag k1') .empty = .ok (.ktag tag k1'') := by
      cases tag with
      | off a => exact absurd rfl (htag' a)
      | push cl => exact absurd rfl (htag cl)
      | _ =>
        rw [push, hk1]
        · rfl
        all_goals exact fun _ h => (nomatch h)
    refine ⟨.ktag (.out out1) (.ktag tag k1''), ?_, ?_⟩
    · rw [push, hpush]
      · rfl
      all_goals exact fun _ h => (nomatch h)
    · intro _ ρ
      rw [exec_ktag, exec_ktag, hrun1 (clean_empty _), execMoved_id, execMoved, exec_ktag]
      refine (Comp.bind_eq_self fun j ρ' hj => ?_).symm
      obtain ⟨b, hb⟩ := (h1.exits j).mp (mem_outcomes k1 hj)
      rw [atExit_none (hq j (by rw [TagMap.find?_map, hb]; rfl)), exec_kcont]

theorem mark_reshaped (k : Kode) (t : KTag) (k' : Kode) (out : Exits) (hmarks : k.noMarks = true)
    (hfresh : Fresh k) (h : mark t k = .ok (k', out)) : Reshaped I τ H k k' out := by
  induction k using Kode.inductionOn generalizing t k' out with
  | hseq k1 i k2 ih1 ih2 =>
    simp only [noMarks, Bool.and_eq_true] at hmarks
    have hfresh1 := hfresh.seq_left
    rw [mark] at h
    split at h
    · next hbasic =>
        obtain ⟨hbasic, rfl⟩ := hbasic
        obtain ⟨⟨k2', out2⟩, hk2, h⟩ := bind_eq_ok.mp h
        cases h
        have h1 := reshaped_basic (I := I) (τ := τ) (H := H) hbasic
        have hmem : 0 ∈ k1.outcomes := (h1.exits 0).mpr ⟨true, rfl⟩
        have h2 := ih2 t k2' out hmarks.2 (hfresh.seq_right hmem) hk2
        have hseq := reshaped_seq h1 h2 hmem
        have hout : joinExits (TagMap.remove 0 (Exits.singleton 0)) out = out := rfl
        rwa [hout] at hseq
    · obtain ⟨⟨k1', out1⟩, hk1, h⟩ := bind_eq_ok.mp h
      have h1 := ih1 t k1' out1 hmarks.1 hfresh1 hk1
      simp only at h
      cases hi : out1.find? i with
      | none =>
        -- the code after an outcome that is never raised is dead
        simp only [hi, Except.ok.injEq, Prod.mk.injEq] at h
        obtain ⟨rfl, rfl⟩ := h
        have hdead : i ∉ k1.outcomes := fun hmem => by
          obtain ⟨b, hb⟩ := (h1.exits i).mp hmem
          rw [hi] at hb
          cases hb
        refine ⟨h1.notPush, ?_, ?_⟩
        · intro j
          rw [outcomes, if_neg hdead, h1.exits]
        · intro q hq
          obtain ⟨k'', hk'', hrun⟩ := h1.run q hq
          refine ⟨k'', hk'', fun hclean ρ => ?_⟩
          have havoids : (exec I τ H k1 ρ).Avoids i := fun ρ' h => hdead (mem_outcomes k1 h)
          rw [hrun hclean.seq_left, execMoved, execMoved, exec_kseq,
            Comp.bind_handle_of_avoids havoids]
      | some b =>
        simp only [hi] at h
        obtain ⟨⟨k2', out2⟩, hk2, h⟩ := bind_eq_ok.mp h
        have hmem : i ∈ k1.outcomes := (h1.exits i).mpr ⟨b, hi⟩
        have h2 := ih2 t k2' out2 hmarks.2 (hfresh.seq_right hmem) hk2
        cases h
        cases b with
        | true => exact reshaped_push h1 h2 hfresh hi
        | false => exact reshaped_seq h1 h2 hmem
  | hpar k1 k2 ih1 ih2 =>
    simp only [noMarks, Bool.and_eq_true] at hmarks
    obtain ⟨⟨k1', out1⟩, hk1, ⟨k2', out2⟩, hk2, h⟩ := bind₂_eq_ok.mp h
    cases h
    obtain ⟨hfresh1, hfresh2⟩ := hfresh.both rfl rfl hfresh.axioms
    exact reshaped_par (ih1 t _ _ hmarks.1 hfresh1 hk1) (ih2 t _ _ hmarks.2 hfresh2 hk2)
  | hif v k1 k2 ih1 ih2 =>
    simp only [noMarks, Bool.and_eq_true] at hmarks
    obtain ⟨⟨k1', out1⟩, hk1, ⟨k2', out2⟩, hk2, h⟩ := bind₂_eq_ok.mp h
    cases h
    obtain ⟨hfresh1, hfresh2⟩ := hfresh.both rfl rfl hfresh.axioms
    exact reshaped_if (ih1 t _ _ hmarks.1 hfresh1 hk1) (ih2 t _ _ hmarks.2 hfresh2 hk2) v
  | hcase v bl ih =>
    obtain ⟨⟨bl', out'⟩, hbl, h⟩ := bind_eq_ok.mp h
    cases h
    refine reshaped_case v ?_ hbl
    intro b hb k' out' hk
    exact ih b hb t k' out' ((noMarksBranches_iff bl).mp hmarks b hb) (hfresh.branch hb) hk
  | hhavoc _ | hlet _ _ _ | hval _ _ | hcut _ =>
    cases h
    exact reshaped_basic rfl
  | hstop f =>
    cases h
    refine ⟨fun _ _ h => (nomatch h), fun j => by simp, ?_⟩
    intro q _
    refine ⟨.kstop f, rfl, fun _ ρ => ?_⟩
    refine (Comp.bind_eq_self fun j ρ' hj => ?_).symm
    exact absurd (mem_outcomes _ hj) (by simp)
  | hcont i =>
    cases h
    refine ⟨fun _ _ h => (nomatch h), ?_, ?_⟩
    · intro j
      rw [outcomes, find?_singleton, mem_singleton]
      by_cases hj : j = i <;> simp [hj]
    · intro q _
      refine ⟨atExit q i, rfl, fun _ ρ => ?_⟩
      rw [execMoved, exec_kcont, Comp.pure_bind]
  | haxiomVc k ih =>
    obtain ⟨⟨k₁, out₁⟩, hk, h⟩ := bind_eq_ok.mp h
    cases h
    have hfreshk : Fresh k := by
      refine ⟨hfresh.nodup, ?_, hfresh.axioms.2⟩
      rw [hfresh.axioms.1]
      exact fun j hj => absurd hj (not_mem_nil)
    obtain ⟨k'', hk'', hrun⟩ := (ih .wp k₁ out₁ hmarks hfreshk hk).run .empty (single_empty _)
    refine ⟨fun _ _ h => (nomatch h), ?_, ?_⟩
    · intro j
      change j ∈ [0] ↔ _
      rw [find?_singleton, mem_singleton]
      by_cases hj : j = 0 <;> simp [hj]
    · intro q _
      refine ⟨afterExit q (.kaxiomVc k''), ?_, fun _ ρ => ?_⟩
      · rw [push, hk'']
        rfl
      · have hsame : ∀ ρ, exec I τ H (.kaxiomVc k'') ρ = exec I τ H (.kaxiomVc k) ρ := by
          intro ρ
          rw [exec_kaxiomVc, exec_kaxiomVc, hrun (clean_empty _), execMoved_id]
        have hzero : ∀ ρ ρ' i, .done i ρ' ∈ exec I τ H (.kaxiomVc k'') ρ → i = 0 := by
          rintro ρ ρ' i ⟨_, h⟩
          cases h
          rfl
        rw [execMoved_basic hzero, execMoved, execMoved, hsame]
  | htag tag k ih =>
    have hfreshk : Fresh k := ⟨hfresh.nodup, hfresh.free, hfresh.axioms⟩
    cases tag with
    | out o => cases hmarks
    | push cl => cases hmarks
    | off a =>
      obtain ⟨⟨k₁, out₁⟩, hk, h⟩ := bind_eq_ok.mp h
      cases h
      have h1 := ih t k₁ out hmarks hfreshk hk
      refine ⟨fun _ _ h => (nomatch h), h1.exits, ?_⟩
      intro q hq
      obtain ⟨k'', hk'', hrun⟩ := h1.run q hq
      refine ⟨.ktag (.off a) k'', ?_, fun hclean ρ => hrun hclean ρ⟩
      rw [push, hk'']
      rfl
    | wp =>
      rw [mark] at h
      split at h
      · have h1 := ih t k' out hmarks hfreshk h
        exact ⟨h1.notPush, h1.exits, h1.run⟩
      · obtain ⟨⟨k₁, out₁⟩, hk, h⟩ := bind_eq_ok.mp h
        simp only at h
        split at h
        · cases h
          exact reshaped_switch (by simp) (by simp)
            (ih .wp k₁ out₁ hmarks hfreshk hk)
        · cases h
    | sp =>
      rw [mark] at h
      split at h
      · have h1 := ih t k' out hmarks hfreshk h
        exact ⟨h1.notPush, h1.exits, h1.run⟩
      · obtain ⟨⟨k₁, out₁⟩, hk, h⟩ := bind_eq_ok.mp h
        cases h
        exact reshaped_switch (by simp) (by simp)
          (ih .sp k₁ out₁ hmarks hfreshk hk)

end Exec

theorem markBranches_error {e : Exn} (h : markBranches t bl = .error e) :
    ∃ b ∈ bl, mark t b.2 = .error e := by
  induction bl with
  | nil => cases h
  | cons b bl ih =>
    rcases bind_eq_error.mp h with h | ⟨_, _, h⟩
    · obtain ⟨b', hb', h⟩ := ih h
      exact ⟨b', mem_cons_of_mem _ hb', h⟩
    · exact ⟨b, mem_cons_self, error_of_bind h nofun⟩

theorem mark_error (k : Kode) (t : KTag) (e : Exn) (hmarks : k.noMarks = true)
    (h : mark t k = .error e) : e = cannotSwitch := by
  induction k using Kode.inductionOn generalizing t e with
  | hseq k1 i k2 ih1 ih2 =>
    simp only [noMarks, Bool.and_eq_true] at hmarks
    rw [mark] at h
    split at h
    · exact ih2 t e hmarks.2 (error_of_bind h nofun)
    · rcases bind_eq_error.mp h with h | ⟨⟨k1', out1⟩, _, h⟩
      · exact ih1 t e hmarks.1 h
      · simp only at h
        split at h
        · exact ih2 t e hmarks.2 (error_of_bind h nofun)
        · cases h
  | hpar k1 k2 ih1 ih2 | hif v k1 k2 ih1 ih2 =>
    simp only [noMarks, Bool.and_eq_true] at hmarks
    rcases bind_eq_error.mp h with h | ⟨_, _, h⟩
    · exact ih1 t e hmarks.1 h
    · exact ih2 t e hmarks.2 (error_of_bind h nofun)
  | hcase v bl ih =>
    obtain ⟨b, hb, h⟩ := markBranches_error (error_of_bind h nofun)
    exact ih b hb t e ((noMarksBranches_iff bl).mp hmarks b hb) h
  | haxiomVc k ih => exact ih .wp e hmarks (error_of_bind h nofun)
  | htag tag k ih =>
    cases tag with
    | out o => cases hmarks
    | push cl => cases hmarks
    | off a => exact ih t e hmarks (error_of_bind h nofun)
    | wp =>
      rw [mark] at h
      split at h
      · exact ih t e hmarks h
      · rcases bind_eq_error.mp h with h | ⟨_, _, h⟩
        · exact ih .wp e hmarks h
        · simp only at h
          split at h
          · cases h
          · exact (Except.error.inj h).symm
    | sp =>
      rw [mark] at h
      split at h
      · exact ih t e hmarks h
      · exact ih .sp e hmarks (error_of_bind h nofun)
  | _ =>
    cases h

/-- Reshaping fails in the documented way only, and the reshaped code fails from the
same states. -/
theorem reflow_fails_iff (vcWp : Bool) (k : Kode) (hmarks : k.noMarks = true)
    (hfresh : k.handlers.Nodup) (hcaught : k.outcomes = []) (haxioms : k.axiomsCaught) :
    reflow vcWp k = .error cannotSwitch ∨ ∃ k', reflow vcWp k = .ok k' ∧
      ∀ (D : Type) (I : Interp D) (τ : TyVal)
        (H : Writes → (VSymbol → D) → (VSymbol → D) → Prop) (ρ : VSymbol → D),
        .fail ∈ exec I τ H k' ρ ↔ .fail ∈ exec I τ H k ρ := by
  have hk : Fresh k := ⟨hfresh, by simp [hcaught], haxioms⟩
  -- the code that is marked is `k` itself or `k` under a tag
  obtain ⟨k₀, hk₀, hmarks₀, hfresh₀, hexec₀⟩ : ∃ k₀, k₀ = (if vcWp then k else .ktag .sp k) ∧
      k₀.noMarks = true ∧ Fresh k₀ ∧ ∀ (D : Type) (I : Interp D) (τ : TyVal)
        (H : Writes → (VSymbol → D) → (VSymbol → D) → Prop) (ρ : VSymbol → D),
        exec I τ H k₀ ρ = exec I τ H k ρ := by
    cases vcWp with
    | true => exact ⟨k, rfl, hmarks, hk, fun _ _ _ _ _ => rfl⟩
    | false =>
      exact ⟨.ktag .sp k, rfl, hmarks, ⟨hk.nodup, hk.free, hk.axioms⟩, fun _ _ _ _ _ => rfl⟩
  have hreflow : reflow vcWp k = mark .wp k₀ >>= fun a => push a.1 .empty := by
    rw [hk₀]
    rfl
  rw [hreflow]
  cases hmark : mark .wp k₀ with
  | error e =>
    left
    rw [mark_error k₀ .wp e hmarks₀ hmark]
    rfl
  | ok a =>
    obtain ⟨k', out⟩ := a
    right
    have hrun : ∀ (D : Type) (I : Interp D) (τ : TyVal)
        (H : Writes → (VSymbol → D) → (VSymbol → D) → Prop), ∃ k'', push k' .empty = .ok k'' ∧
          ∀ ρ, exec I τ H k'' ρ = exec I τ H k ρ := by
      intro D I τ H
      obtain ⟨k'', hpush, hrun⟩ := (mark_reshaped (I := I) (τ := τ) (H := H) k₀ .wp k' out hmarks₀
        hfresh₀ hmark).run .empty (single_empty _)
      refine ⟨k'', hpush, fun ρ => ?_⟩
      rw [hrun (clean_empty _), execMoved_id, hexec₀]
    cases hpush : push k' .empty with
    | error e =>
      obtain ⟨_, h, _⟩ := hrun _ twoValued (fun tv => .tyvar tv) (fun _ _ _ => True)
      rw [hpush] at h
      cases h
    | ok k'' =>
      refine ⟨k'', hpush, ?_⟩
      intro D I τ H ρ
      obtain ⟨k₃, h, hexec⟩ := hrun D I τ H
      rw [hpush] at h
      cases h
      rw [hexec]

def handlerKode : Kode :=
  .kseq (.kseq (.kif ⟨⟨⟨40⟩, tyBool⟩, .ityvar ⟨⟨0⟩⟩, false⟩ (.kcont 1) (.kcont 0)) 1
    (.kcut (.tfalse []))) 0 (.kstop (.ttrue []))

theorem reflow_fails_iff_handlerKode :
    handlerKode.noMarks = true ∧ handlerKode.handlers.Nodup ∧ handlerKode.outcomes = [] ∧
      handlerKode.axiomsCaught ∧
      (reflow true handlerKode = .error cannotSwitch ∨ ∃ k', reflow true handlerKode = .ok k' ∧
        ∀ (D : Type) (I : Interp D) (τ : TyVal)
          (H : Writes → (VSymbol → D) → (VSymbol → D) → Prop) (ρ : VSymbol → D),
          .fail ∈ exec I τ H k' ρ ↔ .fail ∈ exec I τ H handlerKode ρ) := by
  have haxioms : handlerKode.axiomsCaught := by simp [handlerKode, axiomsCaught]
  exact ⟨rfl, by decide, rfl, haxioms, reflow_fails_iff true handlerKode rfl (by decide) rfl haxioms⟩

/-- The handler is moved to the raise site, and the exception is raised again. -/
example : reflow true handlerKode = .ok
    (.kseq (.kseq (.kif ⟨⟨⟨40⟩, tyBool⟩, .ityvar ⟨⟨0⟩⟩, false⟩
      (.kseq (.kcut (.tfalse [])) 0 (.kcont 1)) (.kcont 0)) 1 (.kcont 0)) 0
      (.kstop (.ttrue []))) := rfl

end Why3
