import Why3.Mlw.Loop

/-!
# What an execution can change

An execution changes the variables that its code binds, and those that share a region
that it writes to. The meaning of writes is a parameter, of which only a few laws are
used.
-/

namespace Why3

open Lib Term Interp Vc List

variable {D : Type} {I : Interp D} {τ : TyVal} {ρ : VSymbol → D}
variable {k : Kode} {v : VSymbol} {i : ℕ}
variable {bl : List (Pattern × Kode)} {b : Pattern × Kode}

/-! ## What an execution can change -/

mutual

def Kode.binders : Kode → List VSymbol
  | .kseq k1 _ k2 => k1.binders ++ k2.binders
  | .kpar k1 k2 => k1.binders ++ k2.binders
  | .kif _ k1 k2 => k1.binders ++ k2.binders
  | .kcase _ bl => Kode.bindersBranches bl
  | .klet v _ _ => [v.pvVs]
  | .kval vl _ => vl.map PVSymbol.pvVs
  | .ktag _ k => k.binders
  | .khavoc _ | .kcut _ | .kstop _ | .kcont _ | .kaxiomVc _ => []

def Kode.bindersBranches : List (Pattern × Kode) → List VSymbol
  | [] => []
  | (p, k) :: bl => p.vars ++ k.binders ++ Kode.bindersBranches bl

end

mutual

def Kode.havocs : Kode → List Writes
  | .kseq k1 _ k2 => k1.havocs ++ k2.havocs
  | .kpar k1 k2 => k1.havocs ++ k2.havocs
  | .kif _ k1 k2 => k1.havocs ++ k2.havocs
  | .kcase _ bl => Kode.havocsBranches bl
  | .khavoc wr => [wr]
  | .ktag _ k => k.havocs
  | .klet _ _ _ | .kval _ _ | .kcut _ | .kstop _ | .kcont _ | .kaxiomVc _ => []

def Kode.havocsBranches : List (Pattern × Kode) → List Writes
  | [] => []
  | (_, k) :: bl => k.havocs ++ Kode.havocsBranches bl

end

theorem Kode.mem_bindersBranches (hb : b ∈ bl) (hv : v ∈ b.1.vars ∨ v ∈ b.2.binders) :
    v ∈ Kode.bindersBranches bl := by
  induction bl with
  | nil => cases hb
  | cons c bl ih =>
    rw [Kode.bindersBranches, mem_append, mem_append]
    rcases mem_cons.mp hb with rfl | hb
    · exact .inl hv
    · exact .inr (ih hb)

theorem Kode.mem_havocsBranches (hb : b ∈ bl) {wr : Writes} (hw : wr ∈ b.2.havocs) :
    wr ∈ Kode.havocsBranches bl := by
  induction bl with
  | nil => cases hb
  | cons c bl ih =>
    rw [Kode.havocsBranches, mem_append]
    rcases mem_cons.mp hb with rfl | hb
    · exact .inl hw
    · exact .inr (ih hb)

section Preserve

variable {H : Writes → (VSymbol → D) → (VSymbol → D) → Prop}
  {R : (VSymbol → D) → (VSymbol → D) → Prop}

/-- The first and the last state of an execution are related as soon as bindings and
writes relate states. -/
theorem exec_related (hrefl : ∀ ρ, R ρ ρ) (htrans : ∀ {a b c}, R a b → R b c → R a c)
    (hbind : ∀ ρ β, (∀ b ∈ β, Prod.fst b ∈ k.binders) → R ρ (assign ρ β))
    (hwrite : ∀ wr ∈ k.havocs, ∀ ρ ρ', H wr ρ ρ' → R ρ ρ') {ρ ρ' : VSymbol → D}
    (h : .done i ρ' ∈ exec I τ H k ρ) : R ρ ρ' := by
  induction k using Kode.inductionOn generalizing ρ ρ' i with
  | hseq k1 j k2 ih1 ih2 =>
    simp only [Kode.binders, Kode.havocs, mem_append] at hbind hwrite
    obtain ⟨l, s, hs, h⟩ := Comp.done_mem_bind.mp h
    have h1 := ih1 (fun ρ β hβ => hbind ρ β fun b hb => .inl (hβ b hb))
      (fun wr hw => hwrite wr (.inl hw)) hs
    by_cases hl : l = j
    · subst hl
      rw [Comp.handle_self] at h
      exact htrans h1 (ih2 (fun ρ β hβ => hbind ρ β fun b hb => .inr (hβ b hb))
        (fun wr hw => hwrite wr (.inr hw)) h)
    · rw [Comp.handle_of_ne hl] at h
      cases h
      exact h1
  | hpar k1 k2 ih1 ih2 =>
    simp only [Kode.binders, Kode.havocs, mem_append] at hbind hwrite
    rcases h with h | h
    · exact ih1 (fun ρ β hβ => hbind ρ β fun b hb => .inl (hβ b hb))
        (fun wr hw => hwrite wr (.inl hw)) h
    · exact ih2 (fun ρ β hβ => hbind ρ β fun b hb => .inr (hβ b hb))
        (fun wr hw => hwrite wr (.inr hw)) h
  | hif v k1 k2 ih1 ih2 =>
    simp only [Kode.binders, Kode.havocs, mem_append] at hbind hwrite
    rw [exec_kif] at h
    split at h
    · exact ih1 (fun ρ β hβ => hbind ρ β fun b hb => .inl (hβ b hb))
        (fun wr hw => hwrite wr (.inl hw)) h
    · exact ih2 (fun ρ β hβ => hbind ρ β fun b hb => .inr (hβ b hb))
        (fun wr hw => hwrite wr (.inr hw)) h
  | hcase v bl ih =>
    obtain ⟨b, hb, β, hmem⟩ := mem_execBranches_bind I τ H ρ h
    have hstep : R ρ (bindPat I τ ρ b.1 β) := by
      refine hbind ρ _ fun c hc => ?_
      exact Kode.mem_bindersBranches hb (.inl (of_mem_zip hc).1)
    exact htrans hstep (ih b hb
      (fun ρ β hβ => hbind ρ β fun c hc => Kode.mem_bindersBranches hb (.inr (hβ c hc)))
      (fun wr hw => hwrite wr (Kode.mem_havocsBranches hb hw)) hmem)
  | hhavoc wr =>
    obtain ⟨ρ'', hw, heq⟩ := h
    cases heq
    exact hwrite wr (by simp [Kode.havocs]) ρ ρ' hw
  | hlet v t f =>
    obtain ⟨_, heq⟩ := h
    cases heq
    refine hbind ρ _ fun b hb => ?_
    exact (of_mem_zip hb).1
  | hval vl f =>
    obtain ⟨ds, _, _, heq⟩ := h
    cases heq
    refine hbind ρ _ fun b hb => ?_
    exact (of_mem_zip hb).1
  | hcut f =>
    rw [exec] at h
    split at h
    · cases h
      exact hrefl ρ
    · cases h
  | hstop f =>
    rw [exec] at h
    split at h <;> cases h
  | hcont j =>
    cases h
    exact hrefl ρ
  | haxiomVc k ih =>
    obtain ⟨_, heq⟩ := h
    cases heq
    exact hrefl ρ
  | htag tag k ih => exact ih hbind hwrite h

end Preserve

/-! ## Writes -/

/-- A meaning of writes. A write leaves the variables of pure types as they are. Writes to
arbitrary values may write nothing, in states where variables that share a region
agree, and may be repeated. -/
structure WriteSem (env : KEnv) (D : Type) where
  rel : Writes → (VSymbol → D) → (VSymbol → D) → Prop
  /-- The variables that share a region agree. -/
  good : (VSymbol → D) → Prop
  pure : ∀ {wr ρ ρ'}, rel wr ρ ρ' → ∀ v, (env.restorePv v).pvIty.ityPure = true → ρ' v = ρ v
  refl : ∀ (eff : Effect) {ρ}, good ρ → rel eff.writes ρ ρ
  trans : ∀ (eff : Effect) {ρ ρ' ρ''}, rel eff.writes ρ ρ' → rel eff.writes ρ' ρ'' →
    rel eff.writes ρ ρ''

variable {env : KEnv} (H : WriteSem env D)

/-- The change that code with an effect may make. -/
def Effect.Changes (eff : Effect) (ρ ρ' : VSymbol → D) : Prop :=
  if eff.effCovers.isEmpty then ρ' = ρ else H.rel eff.writes ρ ρ'

open Classical in
/-- The state in which the variables of `L` have the values that they have in `ρ0`. -/
noncomputable def leave (L : Set VSymbol) (ρ0 ρ : VSymbol → D) (v : VSymbol) : D :=
  if v ∈ L then ρ0 v else ρ v

/-- Code that binds variables of `L` only, and whose writes to other variables are those of
an effect. -/
structure Covers (eff : Effect) (L : Set VSymbol) (ρ0 : VSymbol → D) (k : Kode) : Prop where
  binders : ∀ v ∈ k.binders, v ∈ L
  writes : ∀ wr ∈ k.havocs, ∀ ρ ρ', H.good (leave L ρ0 ρ) → H.rel wr ρ ρ' →
    H.good (leave L ρ0 ρ') ∧ eff.Changes H (leave L ρ0 ρ) (leave L ρ0 ρ')

section Changes

variable {H} {eff : Effect} {L : Set VSymbol} {ρ0 ρ' ρ'' : VSymbol → D}

theorem Effect.Changes.refl (hρ : H.good ρ) : eff.Changes H ρ ρ := by
  unfold Effect.Changes
  split
  · rfl
  · exact H.refl eff hρ

theorem Effect.Changes.trans (h : eff.Changes H ρ ρ') (h' : eff.Changes H ρ' ρ'') :
    eff.Changes H ρ ρ'' := by
  unfold Effect.Changes at h h' ⊢
  split
  · next hc =>
      rw [if_pos hc] at h h'
      rw [h', h]
  · next hc =>
      rw [if_neg hc] at h h'
      exact H.trans eff h h'

theorem Effect.Changes.pure (h : eff.Changes H ρ ρ') (hv : (env.restorePv v).pvIty.ityPure = true) :
    ρ' v = ρ v := by
  unfold Effect.Changes at h
  split at h
  · rw [h]
  · exact H.pure h v hv

theorem leave_of_mem (hv : v ∈ L) : leave L ρ0 ρ v = ρ0 v := if_pos hv

theorem leave_of_notMem (hv : v ∉ L) : leave L ρ0 ρ v = ρ v := if_neg hv

theorem leave_self : leave L ρ ρ = ρ := by
  funext v
  unfold leave
  split <;> rfl

theorem leave_leave : leave L ρ0 (leave L ρ0 ρ) = leave L ρ0 ρ := by
  funext v
  unfold leave
  split <;> rfl

theorem leave_assign {β : List (VSymbol × D)} (hβ : ∀ b ∈ β, b.1 ∈ L) :
    leave L ρ0 (assign ρ β) = leave L ρ0 ρ := by
  funext v
  by_cases hv : v ∈ L
  · rw [leave_of_mem hv, leave_of_mem hv]
  · rw [leave_of_notMem hv, leave_of_notMem hv]
    induction β with
    | nil => rfl
    | cons b β ih =>
      obtain ⟨u, d⟩ := b
      rw [assign_cons, if_neg, ih (forall_mem_cons.mp hβ).2]
      rintro rfl
      exact hv ((forall_mem_cons.mp hβ).1)

theorem leave_setVars {vl : List PVSymbol} (hvl : ∀ v ∈ vl, v.pvVs ∈ L) (ds : List D) :
    leave L ρ0 (setVars ρ vl ds) = leave L ρ0 ρ := by
  apply leave_assign
  intro b hb
  obtain ⟨v, hv, heq⟩ := mem_map.mp (of_mem_zip hb).1
  rw [← heq]
  exact hvl v hv

theorem Covers.changes (hk : Covers H eff L ρ0 k) (hρ : H.good (leave L ρ0 ρ))
    (h : .done i ρ' ∈ exec I τ H.rel k ρ) :
    H.good (leave L ρ0 ρ') ∧ eff.Changes H (leave L ρ0 ρ) (leave L ρ0 ρ') := by
  refine exec_related (R := fun ρ ρ' => H.good (leave L ρ0 ρ) →
    H.good (leave L ρ0 ρ') ∧ eff.Changes H (leave L ρ0 ρ) (leave L ρ0 ρ')) ?_ ?_ ?_ ?_ h hρ
  · exact fun ρ hρ => ⟨hρ, .refl hρ⟩
  · intro a b c hab hbc ha
    obtain ⟨hb, hab⟩ := hab ha
    obtain ⟨hc, hbc⟩ := hbc hb
    exact ⟨hc, hab.trans hbc⟩
  · intro ρ β hβ hρ
    rw [leave_assign fun b hb => hk.binders _ (hβ b hb)]
    exact ⟨hρ, .refl hρ⟩
  · exact fun wr hwr ρ ρ' hw hρ => hk.writes wr hwr ρ ρ' hρ hw

/-- A variable of a pure type keeps its value where it is not bound. -/
theorem exec_pure (hv : v ∉ k.binders) (hpure : (env.restorePv v).pvIty.ityPure = true)
    (h : .done i ρ' ∈ exec I τ H.rel k ρ) : ρ' v = ρ v := by
  refine exec_related (R := fun ρ ρ' => ρ' v = ρ v) (fun _ => rfl) (fun h h' => h'.trans h) ?_
    (fun wr _ ρ ρ' hw => H.pure hw v hpure) h
  intro ρ β hβ
  induction β with
  | nil => rfl
  | cons b β ih =>
    obtain ⟨u, d⟩ := b
    rw [assign_cons, if_neg, ih (forall_mem_cons.mp hβ).2]
    rintro rfl
    exact hv (forall_mem_cons.mp hβ).1

end Changes

end Why3
