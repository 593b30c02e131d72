import Why3.Mlw.For

/-!
# The code of a loop covers the executions of the loop

If the code that `kLoop` returns does not fail, then neither does the loop; its
invariant holds before every iteration, and every end of the loop is an end of the
code.
-/

namespace Why3

open Lib Term Interp Vc

variable {D : Type} {I : Interp D} {τ : TyVal} {ρ : VSymbol → D}

variable {env : KEnv} (H : WriteSem env D)

/-! ## Loops -/

namespace Loop

variable (I τ) (int : ℤ → D) (n : ℕ) (l : Loop) (L : Set VSymbol) (ρ₀ : VSymbol → D)

noncomputable def bound (env : KEnv) (vx v : PVSymbol) (ρ : VSymbol → D) : ℤ :=
  Function.invFun int (indexVal I env vx.pvVs.vsTy (ρ v.pvVs))

def invariants : List Term :=
  match l.node with
  | .ewhile _ invl _ _ => l.inferred.toList ++ invl
  | .efor _ _ _ _ _ invl _ => invl

/-- The iterations of the loop bind variables of `L` only, which its invariants do not
mention, and have the effect of the loop. The bounds of a `for` loop are integers. -/
def Scoped : Prop :=
  match l.node with
  | .ewhile e0 invl varl e1 =>
    (∀ b ∈ (oldifyVariant env n varl).1.bindings, b.1.pvVs ∈ L) ∧
      Covers H l.eff L ρ₀ e0.kode ∧ Covers H l.eff L ρ₀ e1 ∧
        ∀ f ∈ l.inferred.toList ++ invl ++ l.iinv, ∀ v ∈ f.freeVars, v ∉ L
  | .efor vx a _ b vi invl e1 =>
    ForScoped H l L ρ₀ vx a b vi invl e1 ∧
      ∀ v ∈ [a, b], indexVal I env vx.pvVs.vsTy (ρ₀ v.pvVs) ∈ Set.range int

/-- The states in which the condition or the body of the loop is run. In a `for` loop the
index has its value. -/
def before : Set (VSymbol → D) :=
  match l.node with
  | .ewhile e0 _ varl e1 =>
    {ρ' | Comp.Heads (whileIter I τ H (oldifyVariant env n varl).1.bindings e0 e1)
      (fun _ => leave L ρ₀) ρ₀ ρ'}
  | .efor vx a d b vi _ e1 =>
    {ρ' | ∃ h, Comp.Heads (forIter I τ H int vx d (bound I int env vx b ρ₀) vi e1) (forNext d L ρ₀)
        (bound I int env vx a ρ₀, ρ₀) h ∧ d.Before h.1 (bound I int env vx b ρ₀) ∧
          ρ' = assign h.2 [(vi.pvVs, int h.1)]}

noncomputable def run : Comp (VSymbol → D) :=
  match l.node with
  | .ewhile e0 _ varl e1 =>
    Comp.loop (whileIter I τ H (oldifyVariant env n varl).1.bindings e0 e1)
      (whileExit I τ H (oldifyVariant env n varl).1.bindings e0 l.res) (fun _ => leave L ρ₀) ρ₀
  | .efor vx a d b vi _ e1 =>
    Comp.loop (forIter I τ H int vx d (bound I int env vx b ρ₀) vi e1)
      (forExit I τ H d (bound I int env vx b ρ₀) l.res) (forNext d L ρ₀)
      (bound I int env vx a ρ₀, ρ₀)

/-- What a `for` loop has established at its end: the invariant for the index after the
last one if it was entered or only just not entered, and nothing has changed
otherwise. -/
def Established (env : KEnv) (ρ' : VSymbol → D) : Prop :=
  match l.node with
  | .ewhile _ _ _ _ => True
  | .efor vx a d b vi invl _ =>
    (d.Before (bound I int env vx a ρ₀) (d.succ (bound I int env vx b ρ₀)) →
      ∀ f ∈ invl, I.Holds τ (assign ρ' [(vi.pvVs, int (d.succ (bound I int env vx b ρ₀)))]) f) ∧
    (¬ d.Before (bound I int env vx a ρ₀) (d.succ (bound I int env vx b ρ₀)) →
      ∃ r, ρ' = setVars ρ₀ [l.res] [r])

end Loop

section Sound

variable {H} {int : ℤ → D} {n : ℕ} {l : Loop} {L : Set VSymbol} {k : Kode}

theorem kLoop_eq_ok (hk : kLoop env n l = .ok k) :
    ∃ k', exec I τ H.rel k ρ = exec I τ H.rel k' ρ ∧
      (match l.node with
        | .ewhile e0 invl varl e1 =>
          kWhile env n l (l.attrs.filter (· ∉ vcAttrs)) e0 invl varl e1
        | .efor vx a d b vi invl e1 =>
          kFor env l (l.attrs.filter (· ∉ vcAttrs)) vx a d b vi invl e1) = .ok k' := by
  have htag : ∀ {k' : Kode}, (if spAttr ∈ l.attrs then .ok (.ktag .sp k')
      else if wpAttr ∈ l.attrs then .ok (.ktag .wp k') else .ok k' : Except Exn Kode) = .ok k →
        exec I τ H.rel k ρ = exec I τ H.rel k' ρ := by
    intro k' h
    split at h
    · cases h
      rfl
    · split at h <;> cases h <;> rfl
  unfold kLoop at hk
  cases hnode : l.node with
  | ewhile e0 invl varl e1 | efor vx a d b vi invl e1 =>
    rw [hnode] at hk
    obtain ⟨k', hk', hk⟩ := bind_eq_ok.mp hk
    exact ⟨k', htag hk, hk'⟩

theorem bound_eq {vx v : PVSymbol} (h : indexVal I env vx.pvVs.vsTy (ρ v.pvVs) ∈ Set.range int) :
    indexVal I env vx.pvVs.vsTy (ρ v.pvVs) = int (Loop.bound I int env vx v ρ) :=
  (Function.invFun_eq h).symm

/-- If the code of a loop does not fail then the loop does not fail, its invariant holds
whenever the body is run, and its ends are ends of the code. -/
theorem loop_sound (hint : env.toVcEnv.StdInt I int) (hk : kLoop env n l = .ok k)
    (hl : l.Scoped I H int n L ρ) (hρ : H.good ρ) (hsafe : .fail ∉ exec I τ H.rel k ρ) :
    .fail ∉ l.run I τ H int n L ρ ∧
      (∀ ρ' ∈ l.before I τ H int n L ρ, ∀ f ∈ l.invariants, I.Holds τ ρ' f) ∧
      (∀ i ρ', .done i ρ' ∈ l.run I τ H int n L ρ → .done i ρ' ∈ exec I τ H.rel k ρ) ∧
      ∀ ρ', .done 0 ρ' ∈ l.run I τ H int n L ρ → l.Established I τ int ρ env ρ' := by
  obtain ⟨k', hexec, hk⟩ := kLoop_eq_ok (H := H) (I := I) (τ := τ) (ρ := ρ) hk
  rw [hexec] at hsafe ⊢
  unfold Loop.Scoped at hl
  unfold Loop.run Loop.before Loop.invariants Loop.Established
  cases hnode : l.node with
  | ewhile e0 invl varl e1 =>
    rw [hnode] at hl hk
    obtain ⟨hold, he0, he1, hfv⟩ := hl
    obtain ⟨hinv, hrun⟩ := while_covers hk hold he0 he1 hfv hρ hsafe
    exact ⟨fun h => hsafe (hrun h), hinv, fun i ρ' h => hrun h, fun _ _ => trivial⟩
  | efor vx a d b vi invl e1 =>
    rw [hnode] at hl hk
    obtain ⟨hsc, hbounds⟩ := hl
    have ha := bound_eq (hbounds a (by simp))
    have hb := bound_eq (hbounds b (by simp))
    obtain ⟨T, rfl⟩ := kFor_eq_ok hk
    obtain ⟨hheads, hrun⟩ := for_covers hint hsc ha hb hρ hsafe
    refine ⟨fun h => hsafe (hrun h), ?_, fun i ρ' h => hrun h, ?_⟩
    · rintro ρ' ⟨h, hreach, hbefore, rfl⟩ f hf
      have hfirst : d.Before (Loop.bound I int env vx a ρ)
          (d.succ (Loop.bound I int env vx b ρ)) := by
        by_contra hnot
        rw [heads_of_not_entered hnot hreach] at hbefore
        exact hnot (ForDirection.before_trans_succ hbefore)
      exact (hheads hfirst h hreach).inv f hf
    · rintro ρ' ⟨h, hreach, ⟨hend, hmem⟩ | ⟨_, hne⟩⟩
      · obtain ⟨r, hr, heq⟩ := mem_kUnit.mp hmem
        cases heq
        refine ⟨fun hfirst f hf => ?_, fun hfirst => ⟨r, ?_⟩⟩
        · have hh := hheads hfirst h hreach
          rw [← ForDirection.eq_succ hend hh.upper]
          exact hh.holds_result hsc r hf
        · rw [heads_of_not_entered hfirst hreach]
      · exact absurd rfl (hne ρ')

end Sound

/-! ## A loop that counts -/

namespace CountLoop

def tsRef : TySymbol := ⟨⟨61⟩, [], .noDef, List.nodup_nil⟩

def reg : Region := .mk ⟨60⟩ ⟨tsRef, false, true, false, [], []⟩ [] []

def contents : PVSymbol := ⟨⟨⟨62⟩, tyInt⟩, .ityapp ⟨tsInt, false, false, false, [], []⟩ [] [], false⟩

def pureVar (v : VSymbol) : PVSymbol :=
  ⟨v, .ityapp ⟨tsInt, false, false, false, [], []⟩ [] [], false⟩

def ref : VSymbol := ⟨⟨63⟩, .tyapp tsRef []⟩

def start : PVSymbol := pureVar ⟨⟨64⟩, tyInt⟩

def stop : PVSymbol := pureVar ⟨⟨65⟩, tyInt⟩

def index : PVSymbol := pureVar ⟨⟨66⟩, tyInt⟩

def result : PVSymbol := pureVar ⟨⟨67⟩, tyInt⟩

def countEnv : KEnv where
  toVcEnv := stdEnv
  divergent := false
  restorePv v := if v = ref then ⟨ref, .ityreg reg, false⟩ else pureVar v

def eff : Effect where
  effWrites := TagMap.empty.add reg (TagMap.ofList [contents])
  effCovers := TagMap.ofList [reg]
  effDiverges := false

/-- `for index = start to stop do invariant { start <= index } ref := any done` -/
def loop : Loop where
  node := .efor index start .forTo stop index
    [tapp [] intLe [tvar [] start.pvVs, tvar [] index.pvVs] none]
    (.kseq (.khavoc eff.writes) 0 (.kval [result] (ttrue [])))
  eff := eff
  attrs := []
  iinv := []
  inferred := none
  res := result

def writeSem : WriteSem countEnv StdVal where
  rel _ ρ ρ' := ∀ v, (countEnv.restorePv v).pvIty.ityPure = true → ρ' v = ρ v
  good _ := True
  pure h := h
  refl _ _ _ _ _ := rfl
  trans _ _ _ _ h h' v hv := (h' v hv).trans (h v hv)

def locals : Set VSymbol := {index.pvVs, result.pvVs}

noncomputable def interp : Interp StdVal :=
  stdInterp (fun _ ty _ => (den_nonempty ty).some) fun _ _ => False

open Classical in
noncomputable def state (v : VSymbol) : StdVal :=
  if v = start.pvVs then StdVal.ofInt 0
  else if v = stop.pvVs then StdVal.ofInt 2
  else StdVal.any v.vsTy

theorem restorePv_of_ne {v : VSymbol} (hv : v ≠ ref) :
    (countEnv.restorePv v).pvIty.ityPure = true := by
  simp [countEnv, hv, pureVar, Ity.ityPure, Ity.ityPureList]

theorem covers : Covers writeSem eff locals state
    (.kseq (.khavoc eff.writes) 0 (.kval [result] (ttrue []))) where
  binders v hv := by simp_all [Kode.binders, locals]
  writes wr _ ρ ρ' _ h := by
    refine ⟨trivial, ?_⟩
    intro v hv
    by_cases hL : v ∈ locals
    · rw [leave_of_mem hL, leave_of_mem hL]
    · rw [leave_of_notMem hL, leave_of_notMem hL, h v hv]

theorem indexVal_int (x : StdVal) : indexVal interp countEnv index.pvVs.vsTy x = x := by
  simp [indexVal, index, pureVar, tyInt]

theorem loop_scoped : loop.Scoped interp writeSem StdVal.ofInt 0 locals state where
  left := {
    mem_vx := by simp [locals]
    mem_vi := by simp [locals]
    mem_res := by simp [locals, loop]
    start := ⟨by simp [locals, start, index, result, pureVar], restorePv_of_ne (by decide)⟩
    stop := ⟨by simp [locals, stop, index, result, pureVar], restorePv_of_ne (by decide)⟩
    index := ⟨by simp [Kode.binders, index, result, pureVar], restorePv_of_ne (by decide)⟩
    body := covers
    inv := by
      simp [freeVars, freeVarsList, locals, start, index, result, pureVar]
    iinv := by simp [loop] }
  right v hv := by
    rw [indexVal_int]
    have hv' : v = start ∨ v = stop := by simpa using hv
    rcases hv' with rfl | rfl
    · exact ⟨0, by simp [state]⟩
    · exact ⟨2, by simp [state, start, stop, pureVar]⟩

theorem fail_mem_kval_seq {vl : List PVSymbol} {f : Term} {k : Kode} {ρ : VSymbol → StdVal}
    (h : .fail ∈ exec interp Ty.tyvar writeSem.rel (.kseq (.kval vl f) 0 k) ρ) :
    ∃ ds, interp.Typed Ty.tyvar (vl.map fun v => v.pvVs.vsTy) ds ∧
      interp.Holds Ty.tyvar (setVars ρ vl ds) f ∧
        .fail ∈ exec interp Ty.tyvar writeSem.rel k (setVars ρ vl ds) := by
  rcases Comp.fail_mem_bind.mp h with ⟨_, _, _, heq⟩ | ⟨i, s, ⟨ds, hds, hf, heq⟩, hfail⟩
  · cases heq
  · cases heq
    rw [Comp.handle_self] at hfail
    exact ⟨ds, hds, hf, hfail⟩

theorem fail_mem_khavoc_seq {wr : Writes} {k : Kode} {ρ : VSymbol → StdVal}
    (h : .fail ∈ exec interp Ty.tyvar writeSem.rel (.kseq (.khavoc wr) 0 k) ρ) :
    ∃ ρ', writeSem.rel wr ρ ρ' ∧ .fail ∈ exec interp Ty.tyvar writeSem.rel k ρ' := by
  rcases Comp.fail_mem_bind.mp h with ⟨_, _, heq⟩ | ⟨i, s, ⟨ρ', hρ', heq⟩, hfail⟩
  · cases heq
  · cases heq
    rw [Comp.handle_self] at hfail
    exact ⟨s, hρ', hfail⟩

theorem not_fail_kstop {f : Term} {ρ : VSymbol → StdVal} (hf : interp.Holds Ty.tyvar ρ f) :
    .fail ∉ exec interp Ty.tyvar writeSem.rel (.kstop f) ρ := by
  rw [exec, if_pos hf]
  rintro ⟨⟩

theorem safe {k : Kode} (hk : kLoop countEnv 0 loop = .ok k) :
    .fail ∉ exec interp Ty.tyvar writeSem.rel k state := by
  have hint : stdEnv.StdInt interp StdVal.ofInt := stdInt_stdInterp _ _
  obtain ⟨k', hexec, hk⟩ :=
    kLoop_eq_ok (I := interp) (τ := Ty.tyvar) (H := writeSem) (ρ := state) hk
  obtain ⟨T, rfl⟩ := kFor_eq_ok hk
  rw [hexec]
  have hinv : ∀ ρ : VSymbol → StdVal, ∀ {x y : ℤ}, ρ start.pvVs = StdVal.ofInt x →
      ρ index.pvVs = StdVal.ofInt y → ((∀ f ∈ loop.invariants, interp.Holds Ty.tyvar ρ f) ↔
        x ≤ y) := by
    intro ρ x y hx hy
    rw [← hint.le]
    simp [Loop.invariants, loop, Holds, hx, hy, stdEnv]
  have hstart : state start.pvVs = StdVal.ofInt 0 := by simp [state]
  have hta : ∀ ρ : VSymbol → StdVal, interp.eval Ty.tyvar ρ [] T.ta = (ρ start.pvVs, False) := by
    intro ρ
    rw [eval_intOfPv T.ta_eq, indexVal_int]
  have hpure : ∀ {ρ ρ' : VSymbol → StdVal} {wr : Writes}, writeSem.rel wr ρ ρ' → ∀ v ≠ ref,
      ρ' v = ρ v := fun h v hv => h v (restorePv_of_ne hv)
  have hne : start.pvVs ≠ index.pvVs := by decide
  rintro (h | h)
  · obtain ⟨_, _, _, h⟩ := fail_mem_kval_seq h
    rcases h with h | h
    · -- the invariant holds at first
      refine not_fail_kstop ?_ h
      change interp.Holds Ty.tyvar state T.init'
      rw [holds_tSubstSingle T.init'_eq (by rw [hta]), val, hta, holds_wpOfInv T.init_eq, hstart]
      refine (hinv (x := 0) (y := 0) _ ?_ ?_).mpr le_rfl
      · rw [assign_cons, if_neg hne, assign_nil, hstart]
      · rw [assign_cons, if_pos rfl]
    · obtain ⟨ρ', hρ', h⟩ := fail_mem_khavoc_seq h
      rcases h with h | ⟨_, _, _, heq⟩
      · -- an iteration keeps it
        rw [ForTerms.iteration, if_pos rfl] at h
        obtain ⟨ds, hds, hprem, h⟩ := fail_mem_kval_seq h
        obtain ⟨x, rfl⟩ := List.length_eq_one_iff.mp hds.length_eq.symm
        obtain ⟨z, rfl⟩ : x ∈ Set.range StdVal.ofInt := by
          rw [← hint.carrier]
          exact (List.forall₂_cons.mp hds).1
        have hI : setVars ρ' [index] [StdVal.ofInt z] index.pvVs = StdVal.ofInt z := by
          rw [setVars_single, if_pos rfl]
        have hS : setVars ρ' [index] [StdVal.ofInt z] start.pvVs = StdVal.ofInt 0 := by
          rw [setVars_single, if_neg hne, hpure hρ' _ (by decide)]
          exact hstart
        rcases Comp.fail_mem_bind.mp h with h | ⟨i, ρ₂, hρ₂, h⟩
        · obtain ⟨_, _, _, _, _, heq⟩ := fail_mem_khavoc_seq h
          cases heq
        · have hkeep : interp.Holds Ty.tyvar ρ₂ T.keep' := by
            have hz : (interp.eval Ty.tyvar ρ₂ [] (tvar [] index.pvVs)).1 = StdVal.ofInt z :=
              (exec_pure (by decide) (restorePv_of_ne (by decide)) hρ₂).trans hI
            have hnext := eval_pl hint T.iPl1_eq hz
            rw [holds_tSubstSingle T.keep'_eq (by rw [hnext]), val, hnext, holds_wpOfInv T.keep_eq]
            have hle := (hinv _ hS hI).mp ((holds_spOfInv T.prev_eq).mp
              ((holds_spAnd T.prem_eq).mp hprem).2)
            refine (hinv (x := 0) (y := z + 1) _ ?_ ?_).mpr (by omega)
            · rw [assign_cons, if_neg hne, assign_nil]
              exact (exec_pure (by decide) (restorePv_of_ne (by decide)) hρ₂).trans hS
            · rw [assign_cons, if_pos rfl]
              rfl
          by_cases hi : i = 0
          · rw [hi, Comp.handle_self] at h
            exact not_fail_kstop hkeep h
          · rw [Comp.handle_of_ne hi] at h
            cases h
      · cases heq
  · obtain ⟨_, _, _, h⟩ := fail_mem_kval_seq h
    cases h

theorem loop_sound_count : ∃ k, kLoop countEnv 0 loop = .ok k ∧
    .fail ∉ exec interp Ty.tyvar writeSem.rel k state ∧
    .fail ∉ loop.run interp Ty.tyvar writeSem StdVal.ofInt 0 locals state := by
  obtain ⟨k, hk⟩ : ∃ k, kLoop countEnv 0 loop = .ok k := ⟨_, rfl⟩
  exact ⟨k, hk, safe hk, (loop_sound (stdInt_stdInterp _ _) hk loop_scoped trivial (safe hk)).1⟩

end CountLoop

end Why3
