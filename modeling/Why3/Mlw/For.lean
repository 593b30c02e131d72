import Why3.Mlw.While
import Why3.Mlw.Decrease

/-!
# The code of a `for` loop

The index of a loop runs through the integers between the bounds, upwards or downwards.
The program may see it as a value of a range type. Between the bounds the code of the
loop covers every iteration, and a loop that is not entered changes nothing.
-/

namespace Why3

open Lib Term Interp Vc List

variable {D : Type} (I : Interp D) (τ : TyVal) {env : KEnv} (H : WriteSem env D) (int : ℤ → D)

/-! ## Loops over integers -/

def indexVal (env : KEnv) (ty : Ty) (x : D) : D :=
  match ty with
  | .tyapp s _ =>
    if s = tsInt then x
    else match env.tsRanges.find? s with
      | some ls => I.fn ls tyInt [x]
      | none => x
  | .tyvar _ => x

def ForDirection.Before : ForDirection → ℤ → ℤ → Prop
  | .forTo, x, y => x ≤ y
  | .forDownTo, x, y => y ≤ x

def ForDirection.succ : ForDirection → ℤ → ℤ
  | .forTo, x => x + 1
  | .forDownTo, x => x - 1

/-- The state in which the index is `i`. The variable that the program sees has the
value `x`. -/
def indexState (vx vi : PVSymbol) (x : D) (i : ℤ) (ρ : VSymbol → D) : VSymbol → D :=
  setVars (setVars ρ [vx] [x]) [vi] [int i]

def forIter (vx : PVSymbol) (d : ForDirection) (zb : ℤ) (vi : PVSymbol) (e1 : Kode)
    (h : ℤ × (VSymbol → D)) : Comp (VSymbol → D) :=
  {o | d.Before h.1 zb ∧ ∃ x ∈ I.carrier (vx.pvVs.vsTy.vMap τ),
    indexVal I env vx.pvVs.vsTy x = int h.1 ∧
      o ∈ exec I τ H.rel e1 (indexState int vx vi x h.1 h.2)}

def forExit (d : ForDirection) (zb : ℤ) (res : PVSymbol) (h : ℤ × (VSymbol → D)) :
    Comp (VSymbol → D) :=
  {o | ¬ d.Before h.1 zb ∧ o ∈ exec I τ H.rel (kUnit res) h.2}

/-- The next index, the variables of the iteration being forgotten. -/
noncomputable def forNext (d : ForDirection) (L : Set VSymbol) (ρ0 : VSymbol → D)
    (h : ℤ × (VSymbol → D)) (ρ : VSymbol → D) : ℤ × (VSymbol → D) :=
  (d.succ h.1, leave L ρ0 ρ)

variable {I τ H int} {ρ ρ' : VSymbol → D} {x : D} {i j za zb : ℤ} {t u f : Term}
  {d : ForDirection} {attrs : List Attr} {vx a b vi : PVSymbol} {invl : List Term} {l : Loop}
  {e1 : Kode} {L : Set VSymbol}

theorem eval_intOfPv {v : PVSymbol} (h : intOfPv env vx v = .ok t) (ρ : VSymbol → D) :
    I.eval τ ρ [] t = (indexVal I env vx.pvVs.vsTy (ρ v.pvVs), False) := by
  unfold intOfPv at h
  unfold indexVal
  generalize vx.pvVs.vsTy = ty at h ⊢
  cases ty with
  | tyvar _ => cases h
  | tyapp s tl =>
    dsimp only at h ⊢
    split at h
    · next hs =>
        cases h
        simp [hs]
    · next hs =>
        obtain ⟨ls, hls, h⟩ := bind_eq_ok.mp h
        rw [tApp_eq h, if_neg hs, intOfRange_eq_ok hls, eval_tapp_some]
        rfl

section Std

variable (hint : env.toVcEnv.StdInt I int)
include hint

theorem holds_le (h : tApp (Vc.ForDirection.le env d) [t, u] none = .ok f)
    (ht : (I.eval τ ρ [] t).1 = int i) (hu : (I.eval τ ρ [] u).1 = int j) :
    I.Holds τ ρ f ↔ d.Before i j := by
  rw [tApp_eq h, Holds, eval_tapp_none, map_cons, map_cons, map_nil, ht, hu]
  cases d with
  | forTo => exact hint.le i j
  | forDownTo => exact hint.ge i j

theorem holds_gt (h : tApp (Vc.ForDirection.gt env d) [t, u] none = .ok f)
    (ht : (I.eval τ ρ [] t).1 = int i) (hu : (I.eval τ ρ [] u).1 = int j) :
    I.Holds τ ρ f ↔ ¬ d.Before i j := by
  rw [tApp_eq h, Holds, eval_tapp_none, map_cons, map_cons, map_nil, ht, hu]
  cases d with
  | forTo => exact (hint.gt i j).trans not_le.symm
  | forDownTo => exact (hint.lt i j).trans not_le.symm

theorem eval_pl (h : tApp (Vc.ForDirection.pl env d) [t, tNatConst 1] (some tyInt) = .ok u)
    (ht : (I.eval τ ρ [] t).1 = int i) : I.eval τ ρ [] u = (int (d.succ i), False) := by
  have hty : tyInt.vMap τ = tyInt := rfl
  have hone : (I.eval τ ρ [] (tNatConst 1)).1 = int 1 := hint.lit 1
  rw [tApp_eq h, eval_tapp_some, map_cons, map_cons, map_nil, ht, hone, hty]
  cases d with
  | forTo => exact congrArg (·, False) (hint.pl i 1)
  | forDownTo => exact congrArg (·, False) (hint.mn i 1)

end Std

/-! ## The code of a `for` loop -/

/-- The variables of a `for` loop. An iteration binds variables of `L` only, and not the
index of the invariant; the bounds are not among them, and the invariants mention none
of them but the index. -/
structure ForScoped (H : WriteSem env D) (l : Loop) (L : Set VSymbol) (ρ : VSymbol → D)
    (vx a b vi : PVSymbol) (invl : List Term) (e1 : Kode) : Prop where
  mem_vx : vx.pvVs ∈ L
  mem_vi : vi.pvVs ∈ L
  mem_res : l.res.pvVs ∈ L
  start : a.pvVs ∉ L ∧ (env.restorePv a.pvVs).pvIty.ityPure = true
  stop : b.pvVs ∉ L ∧ (env.restorePv b.pvVs).pvIty.ityPure = true
  index : vi.pvVs ∉ e1.binders ∧ (env.restorePv vi.pvVs).pvIty.ityPure = true
  body : Covers H l.eff L ρ e1
  inv : ∀ f ∈ invl, ∀ v ∈ f.freeVars, v ∈ L → v = vi.pvVs
  iinv : ∀ f ∈ l.iinv, ∀ v ∈ f.freeVars, v ∉ L

structure ForTerms (env : KEnv) (attrs : List Attr) (vx a : PVSymbol) (d : ForDirection)
    (b vi : PVSymbol) (invl : List Term) where
  ta : Term
  tb : Term
  init : Term
  prev : Term
  keep : Term
  lower : Term
  upper : Term
  bounds : Term
  iPl1 : Term
  bPl1 : Term
  init' : Term
  keep' : Term
  last : Term
  prem : Term
  ix : Term
  inside : Term
  outside : Term
  ta_eq : intOfPv env vx a = .ok ta
  tb_eq : intOfPv env vx b = .ok tb
  init_eq : wpOfInv attrs explLoopInit invl = .ok init
  prev_eq : spOfInv attrs explLoopInit invl = .ok prev
  keep_eq : wpOfInv attrs explLoopKeep invl = .ok keep
  lower_eq : tApp (Vc.ForDirection.le env d) [ta, tvar [] vi.pvVs] none = .ok lower
  upper_eq : tApp (Vc.ForDirection.le env d) [tvar [] vi.pvVs, tb] none = .ok upper
  bounds_eq : tAnd lower upper = .ok bounds
  iPl1_eq : tApp (Vc.ForDirection.pl env d) [tvar [] vi.pvVs, tNatConst 1] (some tyInt) = .ok iPl1
  bPl1_eq : tApp (Vc.ForDirection.pl env d) [tb, tNatConst 1] (some tyInt) = .ok bPl1
  init'_eq : tSubstSingle vi.pvVs ta init = .ok init'
  keep'_eq : tSubstSingle vi.pvVs iPl1 keep = .ok keep'
  last_eq : tSubstSingle vi.pvVs bPl1 prev = .ok last
  prem_eq : spAnd bounds prev = .ok prem
  ix_eq : intOfPv env vx vx = .ok ix
  inside_eq : tApp (Vc.ForDirection.le env d) [ta, bPl1] none = .ok inside
  outside_eq : tApp (Vc.ForDirection.gt env d) [ta, bPl1] none = .ok outside

namespace ForTerms

variable (T : ForTerms env attrs vx a d b vi invl) (l : Loop) (e1 : Kode)

def iteration : Kode :=
  let k := .kseq e1 0 (l.iinv.foldr assertInv (.kstop T.keep'))
  if vx = vi then .kseq (.kval [vx] T.prem) 0 k
  else .kseq (.kval [vx] (ttrue [])) 0 (.kseq (.klet vi T.ix T.prem) 0 k)

def main : Kode :=
  .kpar (l.iinv.foldr assertInv (.kstop T.init'))
    (kHavoc l.eff (l.iinv.foldr assumeInv (.kpar (T.iteration l e1) (.kval [l.res] T.last))))

def kode : Kode :=
  .kpar (.kseq (.kval [] (vcExpl attrs explForBound T.inside)) 0
      (checkDivergence env l.eff attrs (T.main l e1)))
    (.kseq (.kval [l.res] (vcExpl attrs explForBound T.outside)) 0
      (.ktag (.off (.expl explOffBound)) (.kcont 0)))

end ForTerms

theorem kFor_eq_ok {k : Kode} (hk : kFor env l attrs vx a d b vi invl e1 = .ok k) :
    ∃ T : ForTerms env attrs vx a d b vi invl, k = T.kode l e1 := by
  obtain ⟨ta, hta, tb, htb, init, hinit, hk⟩ := bind₃_eq_ok.mp hk
  obtain ⟨prev, hprev, keep, hkeep, lower, hlower, hk⟩ := bind₃_eq_ok.mp hk
  obtain ⟨upper, hupper, bounds, hbounds, iPl1, hi, hk⟩ := bind₃_eq_ok.mp hk
  obtain ⟨bPl1, hb, init', hinit', keep', hkeep', hk⟩ := bind₃_eq_ok.mp hk
  obtain ⟨last, hlast, prem, hprem, ix, hix, hk⟩ := bind₃_eq_ok.mp hk
  obtain ⟨inside, hin, outside, hout, hk⟩ := bind₂_eq_ok.mp hk
  cases hk
  exact ⟨⟨ta, tb, init, prev, keep, lower, upper, bounds, iPl1, bPl1, init', keep', last, prem, ix,
    inside, outside, hta, htb, hinit, hprev, hkeep, hlower, hupper, hbounds, hi, hb, hinit', hkeep',
    hlast, hprem, hix, hin, hout⟩, rfl⟩

theorem setVars_single (ρ : VSymbol → D) (v : PVSymbol) (x : D) (u : VSymbol) :
    setVars ρ [v] [x] u = if u = v.pvVs then x else ρ u := by
  rw [setVars, map_singleton, zip_cons_cons, zip_nil_left, assign_cons, assign_nil]

theorem indexState_of_ne {v : VSymbol} (hvx : v ≠ vx.pvVs) (hvi : v ≠ vi.pvVs) :
    indexState int vx vi x i ρ v = ρ v := by
  rw [indexState, setVars_single, if_neg hvi, setVars_single, if_neg hvx]

theorem indexState_vi : indexState int vx vi x i ρ vi.pvVs = int i := by
  rw [indexState, setVars_single, if_pos rfl]

/-- What holds of a state at the head of a `for` loop with the index `i`. -/
structure ForHead (H : WriteSem env D) (I : Interp D) (τ : TyVal) (int : ℤ → D) (l : Loop)
    (L : Set VSymbol) (ρ : VSymbol → D) (d : ForDirection) (za zb : ℤ) (vi : PVSymbol)
    (invl : List Term) (i : ℤ) (ρ' : VSymbol → D) : Prop where
  good : H.good ρ'
  changes : l.eff.Changes H ρ ρ'
  leave : leave L ρ ρ' = ρ'
  iinv : ∀ f ∈ l.iinv, I.Holds τ ρ' f
  inv : ∀ f ∈ invl, I.Holds τ (assign ρ' [(vi.pvVs, int i)]) f
  lower : d.Before za i
  upper : d.Before i (d.succ zb)

theorem ForDirection.before_refl (d : ForDirection) (x : ℤ) : d.Before x x := by
  cases d <;> simp [ForDirection.Before]

theorem ForDirection.before_trans_succ (h : d.Before i j) : d.Before i (d.succ j) := by
  cases d <;> simp only [ForDirection.Before, ForDirection.succ] at h ⊢ <;> omega

theorem ForDirection.succ_before (h : d.Before i j) : d.Before (d.succ i) (d.succ j) := by
  cases d <;> simp only [ForDirection.Before, ForDirection.succ] at h ⊢ <;> omega

theorem ForDirection.eq_succ (h : ¬ d.Before i j) (h' : d.Before i (d.succ j)) : i = d.succ j := by
  cases d <;> simp only [ForDirection.Before, ForDirection.succ] at h h' ⊢ <;> omega

section Scoped

variable {T : ForTerms env attrs vx a d b vi invl}
  (hint : env.toVcEnv.StdInt I int) (hsc : ForScoped H l L ρ vx a b vi invl e1)
  (ha : indexVal I env vx.pvVs.vsTy (ρ a.pvVs) = int za)
  (hb : indexVal I env vx.pvVs.vsTy (ρ b.pvVs) = int zb)
  (hh : ForHead H I τ int l L ρ d za zb vi invl i ρ')

include ha in
theorem eval_start (h : ρ' a.pvVs = ρ a.pvVs) : (I.eval τ ρ' [] T.ta).1 = int za := by
  rw [eval_intOfPv T.ta_eq, h, ha]

include hb in
theorem eval_stop (h : ρ' b.pvVs = ρ b.pvVs) : (I.eval τ ρ' [] T.tb).1 = int zb := by
  rw [eval_intOfPv T.tb_eq, h, hb]

include hint hb in
theorem eval_afterStop (h : ρ' b.pvVs = ρ b.pvVs) :
    I.eval τ ρ' [] T.bPl1 = (int (d.succ zb), False) :=
  eval_pl hint T.bPl1_eq (eval_stop hb h)

include hsc in
/-- The invariant at an index does not depend on the variables of the iteration. -/
theorem holds_inv_congr {ρ₁ ρ₂ : VSymbol → D} (h : ∀ v ∉ L, ρ₁ v = ρ₂ v)
    (hi : ρ₁ vi.pvVs = ρ₂ vi.pvVs) {f : Term} (hf : f ∈ invl) :
    I.Holds τ ρ₁ f ↔ I.Holds τ ρ₂ f := by
  refine holds_congr fun v hv => ?_
  by_cases hvL : v ∈ L
  · rw [hsc.inv f hf v hv hvL, hi]
  · exact h v hvL

include hint hsc ha hb hh in
theorem holds_prem (hi : d.Before i zb) (x : D) :
    I.Holds τ (indexState int vx vi x i ρ') T.prem := by
  have hne : ∀ {v}, v ∉ L → indexState int vx vi x i ρ' v = ρ' v := fun hv =>
    indexState_of_ne (fun h => hv (h ▸ hsc.mem_vx)) (fun h => hv (h ▸ hsc.mem_vi))
  have hi' : (I.eval τ (indexState int vx vi x i ρ') [] (tvar [] vi.pvVs)).1 = int i :=
    indexState_vi
  have ha' := eval_start (I := I) (τ := τ) (T := T) ha
    ((hne hsc.start.1).trans (hh.changes.pure hsc.start.2))
  have hb' := eval_stop (I := I) (τ := τ) (T := T) hb
    ((hne hsc.stop.1).trans (hh.changes.pure hsc.stop.2))
  rw [holds_spAnd T.prem_eq, holds_tAnd T.bounds_eq, holds_le hint T.lower_eq ha' hi',
    holds_le hint T.upper_eq hi' hb', holds_spOfInv T.prev_eq]
  refine ⟨⟨hh.lower, hi⟩, fun f hf => ?_⟩
  refine (holds_inv_congr hsc (fun v hv => ?_) ?_ hf).mp (hh.inv f hf)
  · rw [hne hv, assign_cons, if_neg, assign_nil]
    exact fun h => hv (h ▸ hsc.mem_vi)
  · rw [indexState_vi, assign_cons, if_pos rfl]

theorem vsTy_vi (T : ForTerms env attrs vx a d b vi invl) : vi.pvVs.vsTy = tyInt := by
  obtain ⟨_, hcheck, _⟩ := bind_eq_ok.mp T.keep'_eq
  obtain ⟨ty, hty, hcheck⟩ := bind_eq_ok.mp hcheck
  rw [tApp_eq T.iPl1_eq] at hty
  cases hty
  split at hcheck
  · next h => exact h
  · cases hcheck

include hint hsc ha hb hh in
theorem iteration_subset (hi : d.Before i zb) (hx : x ∈ I.carrier (vx.pvVs.vsTy.vMap τ))
    (hxi : indexVal I env vx.pvVs.vsTy x = int i) :
    exec I τ H.rel (.kseq e1 0 (l.iinv.foldr assertInv (.kstop T.keep')))
        (indexState int vx vi x i ρ') ⊆ exec I τ H.rel (T.iteration l e1) ρ' := by
  have hprem := holds_prem (T := T) hint hsc ha hb hh hi x
  intro o ho
  unfold ForTerms.iteration
  split
  · next heq =>
      -- the program sees the index itself
      subst heq
      have hval : x = int i := by
        rw [vsTy_vi T] at hxi
        simpa [indexVal, tyInt] using hxi
      have hstate : indexState int vx vx x i ρ' = setVars ρ' [vx] [x] := by
        funext v
        simp only [indexState, setVars_single, hval]
        split <;> rfl
      rw [hstate] at ho hprem
      refine .inr ⟨0, _, ⟨[x], .cons hx .nil, hprem, rfl⟩, ?_⟩
      rwa [Comp.handle_self]
  · refine .inr ⟨0, setVars ρ' [vx] [x], ⟨[x], .cons hx .nil, trivial, rfl⟩, ?_⟩
    have hix : I.val τ (setVars ρ' [vx] [x]) T.ix = int i := by
      rw [val, eval_intOfPv T.ix_eq, setVars_single, if_pos rfl, hxi]
    rw [Comp.handle_self, exec_kseq]
    refine .inr ⟨0, indexState int vx vi x i ρ', ?_, ?_⟩
    · rw [exec, hix]
      exact ⟨hprem, rfl⟩
    · rwa [Comp.handle_self]

include hint hsc ha hb hh in
theorem main_subset (hi : d.Before i zb) (hx : x ∈ I.carrier (vx.pvVs.vsTy.vMap τ))
    (hxi : indexVal I env vx.pvVs.vsTy x = int i) :
    exec I τ H.rel (.kseq e1 0 (l.iinv.foldr assertInv (.kstop T.keep')))
        (indexState int vx vi x i ρ') ⊆ exec I τ H.rel (T.main l e1) ρ := by
  refine subset_trans (iteration_subset hint hsc ha hb hh hi hx hxi) ?_
  refine subset_trans ?_ Set.subset_union_right
  refine subset_trans ?_ (subset_kHavoc hh.changes)
  rw [exec_assumeInvs hh.iinv]
  exact Set.subset_union_left

include hint hsc ha hb hh in
theorem ForHead.step (hsafe : .fail ∉ exec I τ H.rel (T.main l e1) ρ) {ρ₂ : VSymbol → D}
    (h : .done 0 ρ₂ ∈ forIter I τ H int vx d zb vi e1 (i, ρ')) :
    ForHead H I τ int l L ρ d za zb vi invl (d.succ i) (Why3.leave L ρ ρ₂) := by
  obtain ⟨hi, x, hx, hxi, h⟩ := h
  have hleave : Why3.leave L ρ (indexState int vx vi x i ρ') = ρ' := by
    rw [indexState, leave_setVars (by simpa using hsc.mem_vi),
      leave_setVars (by simpa using hsc.mem_vx), hh.leave]
  obtain ⟨hgood, hch⟩ := hsc.body.changes (hleave.symm ▸ hh.good) h
  rw [hleave] at hch
  have hend : .fail ∉ exec I τ H.rel (l.iinv.foldr assertInv (.kstop T.keep')) ρ₂ := by
    intro hfail
    refine hsafe (main_subset hint hsc ha hb hh hi hx hxi ?_)
    refine Comp.fail_mem_bind.mpr (.inr ⟨0, ρ₂, h, ?_⟩)
    rwa [Comp.handle_self]
  obtain ⟨hiinv, hkeep⟩ := holds_of_assertInvs hend
  have hvi : (I.eval τ ρ₂ [] (tvar [] vi.pvVs)).1 = int i := by
    rw [eval_tvar, exec_pure hsc.index.1 hsc.index.2 h, indexState_vi]
  have hnext := eval_pl hint T.iPl1_eq hvi
  rw [holds_tSubstSingle T.keep'_eq (by rw [hnext]), val, hnext, holds_wpOfInv T.keep_eq] at hkeep
  refine ⟨hgood, hh.changes.trans hch, leave_leave, ?_, ?_, ?_, ForDirection.succ_before hi⟩
  · intro f hf
    exact (holds_congr fun v hv => (leave_of_notMem (hsc.iinv f hf v hv)).symm).mp (hiinv f hf)
  · intro f hf
    refine (holds_inv_congr hsc (fun v hv => ?_) ?_ hf).mp (hkeep f hf)
    · simp only [assign_cons, assign_nil, leave_of_notMem hv]
    · simp only [assign_cons, if_pos]
  · exact ForDirection.before_trans_succ hh.lower

include hsc hh in
theorem ForHead.holds_result (r : D) {f : Term} (hf : f ∈ invl) :
    I.Holds τ (assign (setVars ρ' [l.res] [r]) [(vi.pvVs, int i)]) f := by
  refine (holds_inv_congr hsc (fun v hv => ?_) ?_ hf).mp (hh.inv f hf)
  · have hne : v ≠ l.res.pvVs := fun h => hv (h ▸ hsc.mem_res)
    simp only [assign_cons, assign_nil, setVars_single, if_neg hne]
  · simp only [assign_cons, if_pos]

theorem mem_kUnit {W : Writes → (VSymbol → D) → (VSymbol → D) → Prop} {res : PVSymbol}
    {o : Outcome (VSymbol → D)} :
    o ∈ exec I τ W (kUnit res) ρ ↔
      ∃ r ∈ I.carrier (res.pvVs.vsTy.vMap τ), o = .done 0 (setVars ρ [res] [r]) := by
  constructor
  · rintro ⟨ds, hds, _, rfl⟩
    cases hds with
    | cons hr hnil =>
      cases hnil
      exact ⟨_, hr, rfl⟩
  · rintro ⟨r, hr, rfl⟩
    exact ⟨[r], .cons hr .nil, trivial, rfl⟩

include hint hsc hb hh in
theorem exit_subset (hi : i = d.succ zb) :
    exec I τ H.rel (kUnit l.res) ρ' ⊆ exec I τ H.rel (T.main l e1) ρ := by
  refine subset_trans ?_ Set.subset_union_right
  refine subset_trans ?_ (subset_kHavoc hh.changes)
  rw [exec_assumeInvs hh.iinv]
  refine subset_trans ?_ Set.subset_union_right
  intro o ho
  obtain ⟨r, hr, rfl⟩ := mem_kUnit.mp ho
  refine ⟨[r], .cons hr .nil, ?_, rfl⟩
  have hne : b.pvVs ≠ l.res.pvVs := fun h => hsc.stop.1 (h ▸ hsc.mem_res)
  have hstop : setVars ρ' [l.res] [r] b.pvVs = ρ b.pvVs := by
    rw [setVars_single, if_neg hne, hh.changes.pure hsc.stop.2]
  have hafter := eval_afterStop (τ := τ) (T := T) hint hb hstop
  rw [holds_tSubstSingle T.last_eq (by rw [hafter]), val, hafter, holds_spOfInv T.prev_eq, ← hi]
  exact fun f hf => hh.holds_result hsc r hf

theorem heads_of_not_entered (hbounds : ¬ d.Before za (d.succ zb)) {h : ℤ × (VSymbol → D)}
    (hreach : Comp.Heads (forIter I τ H int vx d zb vi e1) (forNext d L ρ) (za, ρ) h) :
    h = (za, ρ) := by
  refine hreach.invariant (J := (· = (za, ρ))) rfl ?_
  rintro h ρ₂ rfl hmem
  exact absurd (ForDirection.before_trans_succ hmem.1) hbounds

include hint hsc ha hb in
theorem for_covers (hρ : H.good ρ) (hsafe : .fail ∉ exec I τ H.rel (T.kode l e1) ρ) :
    (d.Before za (d.succ zb) → ∀ h, Comp.Heads (forIter I τ H int vx d zb vi e1) (forNext d L ρ)
        (za, ρ) h → ForHead H I τ int l L ρ d za zb vi invl h.1 h.2) ∧
      Comp.loop (forIter I τ H int vx d zb vi e1) (forExit I τ H d zb l.res) (forNext d L ρ)
        (za, ρ) ⊆ exec I τ H.rel (T.kode l e1) ρ := by
  have ha' := eval_start (τ := τ) (T := T) ha rfl
  have hafter := eval_afterStop (τ := τ) (T := T) hint hb rfl
  have hafter₁ : (I.eval τ ρ [] T.bPl1).1 = int (d.succ zb) := by rw [hafter]
  by_cases hbounds : d.Before za (d.succ zb)
  · have hmain : exec I τ H.rel (T.main l e1) ρ ⊆ exec I τ H.rel (T.kode l e1) ρ := by
      refine subset_trans ?_ Set.subset_union_left
      have hin : I.Holds τ ρ (vcExpl attrs explForBound T.inside) := by
        rw [holds_vcExpl, holds_le hint T.inside_eq ha' hafter₁]
        exact hbounds
      rw [exec_kseq, exec_kval_nil hin, Comp.pure_bind, Comp.handle_self]
      exact subset_checkDivergence attrs
    have hsafe' : .fail ∉ exec I τ H.rel (T.main l e1) ρ := fun h => hsafe (hmain h)
    have hstart : ForHead H I τ int l L ρ d za zb vi invl za ρ := by
      have hinit : .fail ∉ exec I τ H.rel (l.iinv.foldr assertInv (.kstop T.init')) ρ :=
        fun h => hsafe' (.inl h)
      obtain ⟨hiinv, hinv⟩ := holds_of_assertInvs hinit
      rw [holds_tSubstSingle T.init'_eq (by rw [eval_intOfPv T.ta_eq]), val, ha',
        holds_wpOfInv T.init_eq] at hinv
      exact ⟨hρ, .refl hρ, leave_self, hiinv, hinv, d.before_refl za, hbounds⟩
    have hstep : ∀ (h : ℤ × (VSymbol → D)) (ρ₂ : VSymbol → D),
        ForHead H I τ int l L ρ d za zb vi invl h.1 h.2 →
          .done 0 ρ₂ ∈ forIter I τ H int vx d zb vi e1 h →
            ForHead H I τ int l L ρ d za zb vi invl (forNext d L ρ h ρ₂).1 (forNext d L ρ h ρ₂).2 :=
      fun h ρ₂ hh hmem => hh.step hint hsc ha hb hsafe' hmem
    refine ⟨fun _ h hreach => hreach.invariant hstart hstep, ?_⟩
    refine subset_trans (Comp.loop_subset hstart hstep ?_ ?_) hmain
    · rintro h hh o ⟨hend, ho⟩
      exact exit_subset hint hsc hb hh (ForDirection.eq_succ hend hh.upper) ho
    · rintro h hh o ⟨hi, x, hx, hxi, ho⟩ hne
      exact main_subset hint hsc ha hb hh hi hx hxi (Comp.mem_bind_handle_of_ne ho hne)
  · -- the loop is not entered
    refine ⟨fun h => absurd h hbounds, ?_⟩
    rintro o ⟨h, hreach, ⟨_, ho⟩ | ⟨hmem, _⟩⟩
    · rw [heads_of_not_entered hbounds hreach] at ho
      obtain ⟨r, hr, rfl⟩ := mem_kUnit.mp ho
      refine .inr (.inr ⟨0, setVars ρ [l.res] [r], ⟨[r], .cons hr .nil, ?_, rfl⟩, ?_⟩)
      · have hne : ∀ {v : PVSymbol}, v.pvVs ∉ L → setVars ρ [l.res] [r] v.pvVs = ρ v.pvVs := by
          intro v hv
          have hv' : v.pvVs ≠ l.res.pvVs := fun h => hv (h ▸ hsc.mem_res)
          rw [setVars_single, if_neg hv']
        have hafter₂ := eval_afterStop (τ := τ) (T := T) hint hb (hne hsc.stop.1)
        rw [holds_vcExpl, holds_gt hint T.outside_eq
          (eval_start ha (hne hsc.start.1)) (by rw [hafter₂])]
        exact hbounds
      · rw [Comp.handle_self]
        exact rfl
    · rw [heads_of_not_entered hbounds hreach] at hmem
      exact absurd (ForDirection.before_trans_succ hmem.1) hbounds

end Scoped

end Why3
