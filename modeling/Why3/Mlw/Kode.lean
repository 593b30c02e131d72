import Why3.Mlw.Ity
import Why3.Logic.Eval
import Why3.Lib.Outcome

/-!
# Simplified code

The language in which `src/mlw/vc.ml` expresses a program before it computes a
verification condition, and its meaning. An execution starts from values for the
variables. It fails when a formula that is to be checked is false, it halts where the
code says so, and otherwise ends with a numbered outcome: `0` is the normal one, the
others are exceptions. Variables that are bound on the way keep their values.
-/

namespace Why3

open Lib List

/-- Marks on code. The last three of the source are `Out`, `Push` and `Off`. -/
inductive KTag where
  | wp
  | sp
  | out (o : TagMap ℕ Bool)
  | push (cl : Bool)
  | off (a : Attr)
  deriving DecidableEq

inductive Kode where
  /-- With the outcome `0` a sequence, and a handler otherwise. -/
  | kseq (k1 : Kode) (i : ℕ) (k2 : Kode)
  | kpar (k1 k2 : Kode)
  | kif (v : PVSymbol) (k1 k2 : Kode)
  | kcase (v : PVSymbol) (bl : List (Pattern × Kode))
  | khavoc (wr : Writes)
  | klet (v : PVSymbol) (t f : Term)
  | kval (vl : List PVSymbol) (f : Term)
  | kcut (f : Term)
  | kstop (f : Term)
  | kcont (i : ℕ)
  | kaxiomVc (k : Kode)
  | ktag (tag : KTag) (k : Kode)

/-- Induction over code, the branches of a match being taken together. -/
theorem Kode.inductionOn {P : Kode → Prop} (hseq : ∀ k1 i k2, P k1 → P k2 → P (.kseq k1 i k2))
    (hpar : ∀ k1 k2, P k1 → P k2 → P (.kpar k1 k2))
    (hif : ∀ v k1 k2, P k1 → P k2 → P (.kif v k1 k2))
    (hcase : ∀ v bl, (∀ b ∈ bl, P b.2) → P (.kcase v bl)) (hhavoc : ∀ wr, P (.khavoc wr))
    (hlet : ∀ v t f, P (.klet v t f)) (hval : ∀ vl f, P (.kval vl f)) (hcut : ∀ f, P (.kcut f))
    (hstop : ∀ f, P (.kstop f)) (hcont : ∀ i, P (.kcont i))
    (haxiomVc : ∀ k, P k → P (.kaxiomVc k)) (htag : ∀ tag k, P k → P (.ktag tag k)) : ∀ k, P k :=
  @Kode.rec P (fun bl => ∀ b ∈ bl, P b.2) (fun b => P b.2) hseq hpar hif hcase hhavoc hlet hval
    hcut hstop hcont haxiomVc htag nofun (fun _ _ hb hbl => forall_mem_cons.mpr ⟨hb, hbl⟩)
    fun _ _ hk => hk

/-! ## Executions -/

section Exec

variable {D : Type} (I : Interp D) (τ : TyVal)

noncomputable def bindPat (ρ : VSymbol → D) (p : Pattern) (β : List (VSymbol × D)) : VSymbol → D :=
  assign ρ (p.vars.zip (I.values τ β p.vars))

def IsTrue (ρ : VSymbol → D) (v : PVSymbol) : Prop := ρ v.pvVs = I.fn fsBoolTrue tyBool []

def setVars (ρ : VSymbol → D) (vl : List PVSymbol) (ds : List D) : VSymbol → D :=
  assign ρ ((vl.map PVSymbol.pvVs).zip ds)

variable (H : Writes → (VSymbol → D) → (VSymbol → D) → Prop)

open Classical in
mutual

/-- The executions of a code. The effect of writes is given by `H`. -/
noncomputable def exec : Kode → (VSymbol → D) → Comp (VSymbol → D)
  | .kseq k1 i k2, ρ => (exec k1 ρ).bind (Comp.handle i fun ρ => exec k2 ρ)
  | .kpar k1 k2, ρ => exec k1 ρ ∪ exec k2 ρ
  | .kif v k1 k2, ρ => if IsTrue I ρ v then exec k1 ρ else exec k2 ρ
  | .kcase v bl, ρ => execBranches bl (ρ v.pvVs) ρ
  | .khavoc wr, ρ => {o | ∃ ρ', H wr ρ ρ' ∧ o = .done 0 ρ'}
  | .klet v t f, ρ =>
    {o | I.Holds τ (setVars ρ [v] [I.val τ ρ t]) f ∧ o = .done 0 (setVars ρ [v] [I.val τ ρ t])}
  | .kval vl f, ρ =>
    {o | ∃ ds, I.Typed τ (vl.map fun v => v.pvVs.vsTy) ds ∧ I.Holds τ (setVars ρ vl ds) f ∧
      o = .done 0 (setVars ρ vl ds)}
  | .kcut f, ρ => if I.Holds τ ρ f then Comp.pure 0 ρ else {.fail}
  | .kstop f, ρ => if I.Holds τ ρ f then {.halt} else {.fail}
  | .kcont i, ρ => Comp.pure i ρ
  | .kaxiomVc k, ρ => {o | .fail ∉ exec k ρ ∧ o = .done 0 ρ}
  | .ktag _ k, ρ => exec k ρ

noncomputable def execBranches :
    List (Pattern × Kode) → D → (VSymbol → D) → Comp (VSymbol → D)
  | [], _, _ => ∅
  | [(p, k)], d, ρ => exec k (bindPat I τ ρ p ((I.matchPat τ p d).getD []))
  | (p, k) :: b :: bl, d, ρ =>
    match I.matchPat τ p d with
    | some β => exec k (bindPat I τ ρ p β)
    | none => execBranches (b :: bl) d ρ

end

variable (ρ : VSymbol → D)

@[simp] theorem exec_kseq (k1 : Kode) (i : ℕ) (k2 : Kode) :
    exec I τ H (.kseq k1 i k2) ρ = (exec I τ H k1 ρ).bind (Comp.handle i (exec I τ H k2)) := rfl

@[simp] theorem exec_kpar (k1 k2 : Kode) :
    exec I τ H (.kpar k1 k2) ρ = exec I τ H k1 ρ ∪ exec I τ H k2 ρ := rfl

open Classical in
@[simp] theorem exec_kif (v : PVSymbol) (k1 k2 : Kode) :
    exec I τ H (.kif v k1 k2) ρ = if IsTrue I ρ v then exec I τ H k1 ρ else exec I τ H k2 ρ := rfl

@[simp] theorem exec_kcase (v : PVSymbol) (bl : List (Pattern × Kode)) :
    exec I τ H (.kcase v bl) ρ = execBranches I τ H bl (ρ v.pvVs) ρ := rfl

@[simp] theorem exec_kcont (i : ℕ) : exec I τ H (.kcont i) ρ = Comp.pure i ρ := rfl

@[simp] theorem exec_kaxiomVc (k : Kode) :
    exec I τ H (.kaxiomVc k) ρ = {o | .fail ∉ exec I τ H k ρ ∧ o = .done 0 ρ} := rfl

@[simp] theorem exec_ktag (tag : KTag) (k : Kode) :
    exec I τ H (.ktag tag k) ρ = exec I τ H k ρ := rfl

theorem execBranches_cons_cons (p : Pattern) (k : Kode) (b : Pattern × Kode)
    (bl : List (Pattern × Kode)) (d : D) :
    execBranches I τ H ((p, k) :: b :: bl) d ρ =
      match I.matchPat τ p d with
      | some β => exec I τ H k (bindPat I τ ρ p β)
      | none => execBranches I τ H (b :: bl) d ρ := rfl

/-- A relation between executions that holds for all branches holds for the match. -/
theorem execBranches_rel {F : Comp (VSymbol → D) → Comp (VSymbol → D) → Prop} (hempty : F ∅ ∅)
    {bl bl' : List (Pattern × Kode)}
    (h : Forall₂ (fun b b' => b.1 = b'.1 ∧ ∀ ρ, F (exec I τ H b.2 ρ) (exec I τ H b'.2 ρ))
      bl bl') (d : D) : F (execBranches I τ H bl d ρ) (execBranches I τ H bl' d ρ) := by
  induction h with
  | nil => exact hempty
  | @cons b b' bl bl' hb hbl ih =>
    obtain ⟨p, k⟩ := b
    obtain ⟨p', k'⟩ := b'
    obtain ⟨rfl, hk⟩ := hb
    cases hbl with
    | nil => exact hk _
    | cons hb hbl =>
      rw [execBranches_cons_cons, execBranches_cons_cons]
      cases I.matchPat τ p d with
      | some β => exact hk _
      | none => exact ih

/-- An execution of a match is one of a branch, from values for its variables. -/
theorem mem_execBranches_bind {bl : List (Pattern × Kode)} {d : D} {o : Outcome (VSymbol → D)}
    (h : o ∈ execBranches I τ H bl d ρ) :
    ∃ b ∈ bl, ∃ β, o ∈ exec I τ H b.2 (bindPat I τ ρ b.1 β) := by
  induction bl with
  | nil => exact absurd h (Set.notMem_empty o)
  | cons b bl ih =>
    obtain ⟨p, k⟩ := b
    cases bl with
    | nil => exact ⟨(p, k), mem_cons_self, _, h⟩
    | cons b' bl =>
      rw [execBranches_cons_cons] at h
      cases hm : I.matchPat τ p d with
      | some β =>
        rw [hm] at h
        exact ⟨(p, k), mem_cons_self, _, h⟩
      | none =>
        rw [hm] at h
        obtain ⟨b, hb, β, hβ⟩ := ih h
        exact ⟨b, mem_cons_of_mem _ hb, β, hβ⟩

theorem mem_execBranches {bl : List (Pattern × Kode)} {d : D} {o : Outcome (VSymbol → D)}
    (h : o ∈ execBranches I τ H bl d ρ) : ∃ b ∈ bl, ∃ ρ', o ∈ exec I τ H b.2 ρ' := by
  obtain ⟨b, hb, β, hβ⟩ := mem_execBranches_bind I τ H ρ h
  exact ⟨b, hb, _, hβ⟩

end Exec

end Why3
