import Why3.Mlw.Frame
import Why3.Mlw.Spec

/-!
# The code of a `while` loop

A loop is executed by running its condition and its body again and again, the variables
of an iteration being forgotten at its end. The code of the loop covers every
iteration, because it starts from any state that the effect of the loop allows.
-/

namespace Why3

open Lib Term Interp Vc List

variable {D : Type} {I : Interp D} {τ : TyVal} {ρ ρ' : VSymbol → D} {env : KEnv}
  {H : WriteSem env D} {W : Writes → (VSymbol → D) → (VSymbol → D) → Prop} {eff : Effect}
  {iinv : List Term} {L : Set VSymbol} {k : Kode} {f : Term}

/-! ## Pieces of code -/

theorem exec_kval_nil (hf : I.Holds τ ρ f) : exec I τ W (.kval [] f) ρ = Comp.pure 0 ρ := by
  apply Set.ext
  intro o
  constructor
  · rintro ⟨ds, hds, _, rfl⟩
    cases hds
    rfl
  · rintro rfl
    exact ⟨[], .nil, hf, rfl⟩

theorem exec_assumeInv (hf : I.Holds τ ρ f) :
    exec I τ H.rel (assumeInv f k) ρ = exec I τ H.rel k ρ := by
  rw [assumeInv, exec_kseq, exec_kval_nil hf, Comp.pure_bind, Comp.handle_self]

theorem exec_assumeInvs (h : ∀ f ∈ iinv, I.Holds τ ρ f) :
    exec I τ H.rel (iinv.foldr assumeInv k) ρ = exec I τ H.rel k ρ := by
  induction iinv with
  | nil => rfl
  | cons f iinv ih =>
    rw [forall_mem_cons] at h
    rw [foldr_cons, exec_assumeInv h.1, ih h.2]

theorem holds_of_kstop (h : .fail ∉ exec I τ H.rel (.kstop f) ρ) : I.Holds τ ρ f := by
  by_contra hf
  rw [exec, if_neg hf] at h
  exact h rfl

theorem holds_of_assertInvs (h : .fail ∉ exec I τ H.rel (iinv.foldr assertInv (.kstop f)) ρ) :
    (∀ g ∈ iinv, I.Holds τ ρ g) ∧ I.Holds τ ρ f := by
  induction iinv with
  | nil => exact ⟨by simp, holds_of_kstop h⟩
  | cons g iinv ih =>
    rw [foldr_cons, assertInv, exec_kpar, Set.mem_union, not_or] at h
    have hg := holds_of_kstop h.1
    rw [exec_assumeInv hg] at h
    exact ⟨forall_mem_cons.mpr ⟨hg, (ih h.2).1⟩, (ih h.2).2⟩

theorem subset_kHavoc (h : eff.Changes H ρ ρ') :
    exec I τ H.rel k ρ' ⊆ exec I τ H.rel (kHavoc eff k) ρ := by
  intro o ho
  unfold Effect.Changes at h
  unfold kHavoc
  split
  · next hc =>
      rw [if_pos hc] at h
      rwa [← h]
  · next hc =>
      rw [if_neg hc] at h
      refine .inr ⟨0, ρ', ⟨ρ', h, rfl⟩, ?_⟩
      rwa [Comp.handle_self]

theorem subset_checkDivergence (attrs : List Attr) :
    exec I τ H.rel k ρ ⊆ exec I τ H.rel (checkDivergence env eff attrs k) ρ := by
  unfold checkDivergence
  split
  · exact Set.subset_union_right
  · exact subset_rfl

def snapshot (o2v : List (PVSymbol × PVSymbol)) (ρ : VSymbol → D) : VSymbol → D :=
  o2v.foldr (fun b ρ => setVars ρ [b.1] [ρ b.2.pvVs]) ρ

theorem exec_bindOldies (o2v : TagMap PVSymbol PVSymbol) (k : Kode) :
    exec I τ W (bindOldies o2v k) ρ = exec I τ W k (snapshot o2v.bindings ρ) := by
  unfold bindOldies TagMap.fold
  induction o2v.bindings generalizing k with
  | nil => rfl
  | cons b l ih =>
    rw [foldl_cons, ih]
    have hlet : ∀ ρ, exec I τ W (.klet b.1 (tvar [] b.2.pvVs) (ttrue [])) ρ =
        Comp.pure 0 (setVars ρ [b.1] [ρ b.2.pvVs]) := by
      intro ρ
      apply Set.ext
      exact fun o => ⟨fun h => h.2, fun h => ⟨trivial, h⟩⟩
    rw [exec_kseq, hlet, Comp.pure_bind, Comp.handle_self]
    rfl

theorem leave_snapshot {ρ0 : VSymbol → D} {l : List (PVSymbol × PVSymbol)}
    (h : ∀ b ∈ l, b.1.pvVs ∈ L) : leave L ρ0 (snapshot l ρ) = leave L ρ0 ρ := by
  induction l with
  | nil => rfl
  | cons b l ih =>
    rw [forall_mem_cons] at h
    rw [snapshot, foldr_cons, leave_setVars (by simpa using h.1)]
    exact ih h.2

/-! ## Executions of loops -/

def Cond.var : Cond → PVSymbol
  | .evar v => v
  | .proxy v _ => v

def Cond.kode : Cond → Kode
  | .evar _ => .kcont 0
  | .proxy _ k => k

section Runs

variable (I τ) (H : WriteSem env D)

open Classical in
/-- One iteration of a `while` loop. The old values of the variant are set on the way. -/
noncomputable def whileIter (oldies : List (PVSymbol × PVSymbol)) (e0 : Cond) (e1 : Kode)
    (ρ : VSymbol → D) : Comp (VSymbol → D) :=
  (exec I τ H.rel e0.kode (snapshot oldies ρ)).bind
    (Comp.handle 0 fun ρ => if IsTrue I ρ e0.var then exec I τ H.rel e1 ρ else ∅)

open Classical in
noncomputable def whileExit (oldies : List (PVSymbol × PVSymbol)) (e0 : Cond) (res : PVSymbol)
    (ρ : VSymbol → D) : Comp (VSymbol → D) :=
  (exec I τ H.rel e0.kode (snapshot oldies ρ)).bind
    (Comp.handle 0 fun ρ =>
      if IsTrue I ρ e0.var then ∅ else exec I τ H.rel (kUnit res) ρ)

end Runs

theorem exec_varOrProxy (e0 : Cond) (k : PVSymbol → Kode) :
    exec I τ H.rel (varOrProxy e0 k) ρ =
      (exec I τ H.rel e0.kode ρ).bind (Comp.handle 0 (exec I τ H.rel (k e0.var))) := by
  cases e0 with
  | evar v => rw [Cond.kode, exec_kcont, Comp.pure_bind, Comp.handle_self, varOrProxy, Cond.var]
  | proxy v k0 => rw [varOrProxy, exec_kseq, Cond.kode, Cond.var]

/-- The invariants hold whenever an iteration starts, and the code of a loop that cannot fail has
all the executions of the loop. -/
theorem while_covers {n : ℕ} {l : Loop} {attrs : List Attr} {e0 : Cond} {invl : List Term}
    {varl : Variant} {e1 : Kode} (hk : kWhile env n l attrs e0 invl varl e1 = .ok k)
    (hold : ∀ b ∈ (oldifyVariant env n varl).1.bindings, b.1.pvVs ∈ L)
    (he0 : Covers H l.eff L ρ e0.kode) (he1 : Covers H l.eff L ρ e1)
    (hfv : ∀ f ∈ l.inferred.toList ++ invl ++ l.iinv, ∀ v ∈ f.freeVars, v ∉ L) (hρ : H.good ρ)
    (hsafe : .fail ∉ exec I τ H.rel k ρ) :
    (∀ ρ', Comp.Heads (whileIter I τ H (oldifyVariant env n varl).1.bindings e0 e1)
        (fun _ => leave L ρ) ρ ρ' → ∀ f ∈ l.inferred.toList ++ invl, I.Holds τ ρ' f) ∧
      Comp.loop (whileIter I τ H (oldifyVariant env n varl).1.bindings e0 e1)
        (whileExit I τ H (oldifyVariant env n varl).1.bindings e0 l.res) (fun _ => leave L ρ) ρ ⊆
        exec I τ H.rel k ρ := by
  obtain ⟨init, hinit, prev, hprev, keep, hkeep, hk⟩ := bind₃_eq_ok.mp hk
  obtain ⟨decr, _, keep', hkeep', hk⟩ := bind₂_eq_ok.mp hk
  cases hk
  generalize (oldifyVariant env n varl).1 = oldies at hold hsafe ⊢
  rw [exec_kpar, Set.mem_union, not_or] at hsafe
  obtain ⟨hiinv, hinv⟩ := holds_of_assertInvs hsafe.1
  -- what holds at the heads
  let J : (VSymbol → D) → Prop := fun ρ' => H.good ρ' ∧ l.eff.Changes H ρ ρ' ∧
    leave L ρ ρ' = ρ' ∧ (∀ f ∈ l.iinv, I.Holds τ ρ' f) ∧
      ∀ f ∈ l.inferred.toList ++ invl, I.Holds τ ρ' f
  have hstart : J ρ :=
    ⟨hρ, .refl hρ, leave_self, hiinv, (holds_wpOfInv hinit).mp hinv⟩
  have hforget : ∀ f ∈ l.inferred.toList ++ invl ++ l.iinv, ∀ ρ', I.Holds τ ρ' f →
      I.Holds τ (leave L ρ ρ') f := by
    intro f hf ρ' h
    exact (holds_congr fun v hv => (leave_of_notMem (hfv f hf v hv)).symm).mp h
  have hbody : ∀ ρ', J ρ' → exec I τ H.rel (varOrProxy e0 fun v =>
      .kif v (.kseq e1 0 (l.iinv.foldr assertInv (.kstop keep'))) (kUnit l.res))
        (snapshot oldies.bindings ρ') ⊆ exec I τ H.rel (kHavoc l.eff (checkDivergence env l.eff attrs
          (l.iinv.foldr assumeInv (.kseq (.kval [] prev) 0 (bindOldies oldies
            (varOrProxy e0 fun v => .kif v (.kseq e1 0 (l.iinv.foldr assertInv (.kstop keep')))
              (kUnit l.res))))))) ρ := by
    rintro ρ' ⟨_, hch, _, hiinv, hinv⟩
    refine subset_trans ?_ (subset_kHavoc hch)
    refine subset_trans ?_ (subset_checkDivergence attrs)
    rw [exec_assumeInvs hiinv, exec_kseq, exec_kval_nil ((holds_spOfInv hprev).mpr hinv),
      Comp.pure_bind, Comp.handle_self, exec_bindOldies]
  have hstep : ∀ ρ' ρ₂, J ρ' → .done 0 ρ₂ ∈ whileIter I τ H oldies.bindings e0 e1 ρ' →
      J (leave L ρ ρ₂) := by
    intro ρ' ρ₂ hJ h
    obtain ⟨ρ₁, h₁, h⟩ := Comp.done_mem_bind_handle h
    split at h
    · next htrue =>
        have hleave : leave L ρ (snapshot oldies.bindings ρ') = ρ' := by
          rw [leave_snapshot hold, hJ.2.2.1]
        obtain ⟨hgood₁, hch₁⟩ := he0.changes (hleave.symm ▸ hJ.1) h₁
        obtain ⟨hgood₂, hch₂⟩ := he1.changes hgood₁ h
        rw [hleave] at hch₁
        have hend : .fail ∉ exec I τ H.rel (l.iinv.foldr assertInv (.kstop keep')) ρ₂ := by
          intro hfail
          refine hsafe.2 (hbody ρ' hJ ?_)
          rw [exec_varOrProxy]
          refine Comp.fail_mem_bind.mpr (.inr ⟨0, ρ₁, h₁, ?_⟩)
          rw [Comp.handle_self, exec_kif, if_pos htrue, exec_kseq]
          refine Comp.fail_mem_bind.mpr (.inr ⟨0, ρ₂, h, ?_⟩)
          rwa [Comp.handle_self]
        obtain ⟨hiinv₂, hkeep₂⟩ := holds_of_assertInvs hend
        have hinv₂ := (holds_wpOfInv hkeep).mp ((holds_wpAnd hkeep').mp hkeep₂).2
        refine ⟨hgood₂, (hJ.2.1.trans hch₁).trans hch₂, leave_leave, ?_, ?_⟩
        · exact fun f hf => hforget f (mem_append_right _ hf) ρ₂ (hiinv₂ f hf)
        · exact fun f hf => hforget f (mem_append_left _ hf) ρ₂ (hinv₂ f hf)
    · cases h
  refine ⟨fun ρ' h => (h.invariant hstart hstep).2.2.2.2, ?_⟩
  rw [exec_kpar]
  refine subset_trans (Comp.loop_subset hstart hstep ?_ ?_) Set.subset_union_right
  · intro ρ' hJ o ho
    refine hbody ρ' hJ ?_
    rw [exec_varOrProxy]
    refine Comp.mem_bind_handle_imp ho fun ρ₁ _ h => ?_
    rw [exec_kif]
    split at h
    · cases h
    · next hfalse => rwa [if_neg hfalse]
  · intro ρ' hJ o ho hne
    refine hbody ρ' hJ ?_
    rw [exec_varOrProxy]
    refine Comp.mem_bind_handle_imp ho fun ρ₁ _ h => ?_
    rw [exec_kif]
    split at h
    · next htrue =>
        rw [if_pos htrue, exec_kseq]
        exact Comp.mem_bind_handle_of_ne h hne
    · cases h

end Why3
