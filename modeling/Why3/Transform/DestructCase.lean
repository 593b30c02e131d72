import Why3.Transform.DestructFmla

/-!
# Splitting a match

A match is split into the expansions of the patterns of its branches. The constants of an
expansion stand for the variables of the pattern in the branch, and the value that is
matched is that of the expansion. Together with the connectives this shows that splitting
a formula is complete.
-/

namespace Why3

open Lib Term Interp List

variable {D : Type} {S : DataSig} {one : Prop} {n n' m : ℕ}
variable {e : Expansion Term} {I : Interp D} {a : List Attr} {vl : List VSymbol} {l : Parallel}
variable {t : Term} {ty : Ty} {τ : TyVal} {ρ : VSymbol → D} {k : ℕ}
variable {tbs : List (Pattern × Term)} {ld : LogicDecl} {acc acc' : Parallel} {b : Pattern × Term}
variable {mp : TagMap VSymbol Term} {Q : Term → Prop} {k' : ℕ}

/-! ## Definitions of aliases -/

theorem createLogicDecl_singleton {d : Decl} (h : createLogicDecl [ld] = .ok d) :
    ∃ pl, d = .dlogic [(ld.1, ld.1, ld.2.2.1, pl)] := by
  obtain ⟨news, _, ldl, hldl, h⟩ := bind₂_eq_ok.mp h
  cases h
  obtain ⟨syms, _, res, _, hldl⟩ := bind₂_eq_ok.mp hldl
  obtain ⟨ld', ldl', hset, hnil, rfl⟩ := forall₂_cons_left_iff.mp (mapM_eq_ok.mp hldl)
  obtain rfl := forall₂_nil_left_iff.mp hnil
  unfold setVariant at hset
  split at hset
  · next pl _ =>
      cases hset
      exact ⟨pl, rfl⟩
  · cases hset

theorem makeLsDefn_const {ls : LSymbol} (hls : ls.lsValue = some ty)
    (h : makeLsDefn ls [] t = .ok ld) :
    ld.1 = ls ∧ ld.2.2.1 = tapp [] psEqu [tapp [] ls [] (some ty), t] none := by
  obtain ⟨_, _, ⟨hd, fd⟩, hax, h⟩ := bind₂_eq_ok.mp h
  obtain ⟨_, _, h⟩ := bind_eq_ok.mp h
  obtain ⟨hty, hld⟩ : t.tTyCheck ls.lsValue = .ok () ∧ ld = (ls, ls, fd, []) := by
    dsimp only at h
    split at h
    · obtain ⟨_, _, _, hty, h⟩ := bind₂_eq_ok.mp h
      exact ⟨hty, (Except.ok.inj h).symm⟩
    · cases h
  subst hld
  have htTy : t.tTy = some ty := (tTyCheck_eq hty).trans hls
  obtain ⟨hd', hhd, bd, hbd, hax⟩ := bind₂_eq_ok.mp hax
  obtain ⟨f, hf, g, hg, hax⟩ := bind₂_eq_ok.mp hax
  cases hax
  refine ⟨rfl, ?_⟩
  rw [equOrIff, if_neg (by rw [htTy]; simp)] at hbd
  rw [(checkFvs_eq_ok hg).2, (tProp_eq_ok.mp hf).2, (tEqu_spec hbd).1, tApp_eq hhd, htTy, map_nil]

theorem equalityDecl_spec {q : VSymbol × LSymbol × Term} {x : IsDestructed}
    (h : equalityDecl q = .ok x) (hequ : (Sym.ls psEqu).Below n')
    (hq : NewConst n n' q.1.vsTy q.2.1) (ht : q.2.2.Settled n') :
    x.Settled one n' ∧ ∀ {D : Type} {w : World D S one} {τ : TyVal} {d : D},
      (∀ ty ds, w.I.fn q.2.1 ty ds = d) → w.I.Means τ d q.2.2 → w.Accepts x := by
  obtain ⟨ld, hld, decl, hdecl, h⟩ := bind₂_eq_ok.mp h
  cases h
  obtain ⟨pl, rfl⟩ := createLogicDecl_singleton hdecl
  obtain ⟨_, hax⟩ := makeLsDefn_const hq.value hld
  have hsettled := settled_equ hequ hq.made.settled ht
  refine ⟨⟨?_, rfl⟩, ?_⟩
  · intro s hs
    rw [Decl.subject, flatMap_singleton, hax] at hs
    exact hsettled.1 s hs
  · intro D w τ d hfn hd
    refine forall_mem_singleton.mpr ?_
    rw [hax]
    intro τ' ρ' _
    rw [Holds, eval_tapp_none]
    refine (w.sound.equ _ _).mpr ?_
    dsimp only
    have hvars : ∀ v ∈ q.2.2.tyFreevars, τ' v = τ v := fun v hv => absurd hv (by rw [ht.2]; simp)
    rw [eval_tapp_some, hfn, eval_tyCongr hvars, hd ρ']

/-! ## Expansions -/

def ExpansionCond (t : Term) (e : Expansion Term) (I : Interp D) (τ : TyVal) (ρ : VSymbol → D)
    (β : List (VSymbol × D)) : Prop :=
  e.Denotes I τ β (I.Means τ (I.eval τ ρ [] t).1)

theorem expansionHyps_spec {hyps : List IsDestructed} (h : expansionHyps t e = .ok hyps)
    (hequ : (Sym.ls psEqu).Below n') (he : e.Good n n' vl (Term.Settled n')) (ht : t.Settled n') :
    (∀ x ∈ hyps, x.Settled one n') ∧ ∀ {D : Type} {w : World D S one} {τ : TyVal} {ρ : VSymbol → D}
      {β : List (VSymbol × D)}, w.points = {(τ, ρ)} → ExpansionCond t e w.I τ ρ β →
      ∀ x ∈ hyps, w.Accepts x := by
  obtain ⟨eqs, heqs, f, hf, h⟩ := bind₂_eq_ok.mp h
  cases h
  have hequal : ∀ q ∈ e.equalities, (q.1, q.2.1) ∈ e.consts := fun q hq =>
    mem_append_right _ (mem_map_of_mem hq)
  simp only [forall_mem_append, forall_mem_map, forall_mem_singleton]
  refine ⟨⟨⟨?_, ?_⟩, ?_⟩, ?_⟩
  · exact fun b _ => settled_dparam n' b.2
  · intro x hx
    obtain ⟨q, hq, hx⟩ := forall₂_mem_right (mapM_eq_ok.mp heqs) hx
    exact (equalityDecl_spec (S := S) hx hequ (he.const _ (hequal q hq)) (he.equal q hq)).1
  · change f.Below n' ∧ (one → f.tyFreevars = [])
    rw [(tEqu_spec hf).1]
    have hsettled := settled_equ hequ ht he.term
    exact ⟨hsettled.1, fun _ => hsettled.2⟩
  · intro D w τ ρ β hp hden
    refine ⟨⟨fun b _ => trivial, ?_⟩, ?_⟩
    · intro x hx
      obtain ⟨q, hq, hx⟩ := forall₂_mem_right (mapM_eq_ok.mp heqs) hx
      obtain ⟨d, hd, hfn⟩ := hden.const _ (hequal q hq)
      obtain ⟨d', hd', heval⟩ := hden.equal q hq
      obtain rfl : d = d' := Option.some.inj (hd.symm.trans hd')
      exact (equalityDecl_spec hx hequ (he.const _ (hequal q hq)) (he.equal q hq)).2 hfn heval
    · exact fun _ => (World.holds_iff hp).mpr
        ((eval_tEqu w.sound hf).mpr (by rw [hden.term ρ]))

theorem foldlM_mvs {l : List (VSymbol × LSymbol)} {m₀ m' : TagMap VSymbol Term}
    (h : l.foldlM (fun m b => do .ok (m.add b.1 (← tApp b.2 [] b.2.lsValue))) m₀ = Except.ok m')
    (v : VSymbol) :
    (∃ ls, (v, ls) ∈ l ∧ m'.find? v = some (tapp [] ls [] ls.lsValue)) ∨
      v ∉ l.map Prod.fst ∧ m'.find? v = m₀.find? v := by
  induction l generalizing m₀ with
  | nil =>
    cases foldlM_nil_eq_ok.mp h
    exact .inr ⟨not_mem_nil, rfl⟩
  | cons b l ih =>
    obtain ⟨m₁, hb, h⟩ := foldlM_cons_eq_ok.mp h
    obtain ⟨t, ht, hb⟩ := bind_eq_ok.mp hb
    cases hb
    rw [tApp_eq ht] at h
    rcases ih h with ⟨ls, hmem, hfind⟩ | ⟨hnot, hfind⟩
    · exact .inl ⟨ls, mem_cons_of_mem _ hmem, hfind⟩
    · by_cases hv : v = b.1
      · subst hv
        exact .inl ⟨b.2, mem_cons_self, by rw [hfind, TagMap.find?_add_self]⟩
      · refine .inr ⟨?_, by rw [hfind, TagMap.find?_add_of_ne _ _ hv]⟩
        rw [map_cons, mem_cons, not_or]
        exact ⟨hv, hnot⟩

/-- The substitution of an expansion replaces the variables of the pattern. -/
theorem mvs_spec (h : e.mvs = .ok mp) (he : e.Good n n' vl Q) (v : VSymbol) :
    (∃ ls, (v, ls) ∈ e.consts ∧ mp.find? v = some (tapp [] ls [] (some v.vsTy))) ∨
      v ∉ vl ∧ mp.find? v = none := by
  rcases foldlM_mvs h v with ⟨ls, hls, hfind⟩ | ⟨hnot, hfind⟩
  · exact .inl ⟨ls, hls, by rw [hfind, (he.const _ hls).value]⟩
  · refine .inr ⟨fun hv => hnot ((he.keys v).mpr hv), by rw [hfind, TagMap.find?_empty]⟩

/-- The branch with the constants is true if it is with the values of the variables. -/
theorem eval_mvs (h : e.mvs = .ok mp) (he : e.Good n n' vl Q) {β : List (VSymbol × D)}
    {V : Term → Prop} (hden : e.Denotes I τ β V) (hβ : ∀ v, v ∈ β.map Prod.fst → v ∈ vl)
    (rhs : Term) : I.eval τ ρ [] (tSubst mp.find? rhs) = I.eval τ (assign ρ β) [] rhs := by
  rw [eval_tSubst]
  · congr 1
    funext v
    unfold substVal
    rcases mvs_spec h he v with ⟨ls, hls, hfind⟩ | ⟨hnot, hfind⟩
    · obtain ⟨d, hd, hfn⟩ := hden.const _ hls
      rw [hfind]
      change (I.eval τ ρ [] (tapp [] ls [] (some v.vsTy))).1 = _
      rw [eval_tapp_some, hfn, assign, hd, Option.getD_some]
    · rw [hfind, assign_of_not_mem fun hv => hnot (hβ v hv)]
  · intro v u hu
    rcases mvs_spec h he v with ⟨ls, _, hfind⟩ | ⟨_, hfind⟩
    · rw [hfind] at hu
      cases hu
      rw [eval_tapp_some]
    · rw [hfind] at hu
      cases hu

/-! ## Branches -/

theorem Pattern.tyFreevars_rename {f : VSymbol → VSymbol} (hf : ∀ v, (f v).vsTy = v.vsTy)
    (p : Pattern) : (p.rename f).tyFreevars = p.tyFreevars := by
  induction p using Pattern.inductionOn with
  | papp _ pl _ ih =>
    simp only [rename, tyFreevars, renameList_eq_map, tyFreevarsList_eq, flatMap_map]
    exact congrArg _ (flatMap_congr ih)
  | _ => simp_all [rename, tyFreevars, patTy_rename hf]

def AtPoint (P : (D : Type) → Interp D → TyVal → (VSymbol → D) → Prop) : Condition S True :=
  fun D w => ∃ τ ρ, w.points = {(τ, ρ)} ∧ P D w.I τ ρ

structure BranchReady (S : DataSig) (n : ℕ) (ty : Ty) (b : Pattern × Term) : Prop where
  pattern : PatTyped S b.1
  patTy : b.1.patTy = ty
  closed : b.1.tyFreevars = []
  typed : WellTyped S (b.1.vars.map VSymbol.vsTy) b.2 none
  made : b.2.Made n

theorem BranchReady.openVars (hb : BranchReady S n ty b) (hS : S.Below n)
    (hequ : (Sym.ls psEqu).Below n) (hk : n ≤ k) :
    Ready S True (k + (b.1.fresh k).vars.length) (openVars (b.1.fresh k).vars b.2) := by
  have hle : n ≤ k + (b.1.fresh k).vars.length := by omega
  have htys : (b.1.fresh k).vars.map VSymbol.vsTy = b.1.vars.map VSymbol.vsTy := by
    rw [vars_fresh hb.pattern, map_vsTy_freshLike]
  refine .of_made (hS.mono hle) (hequ.mono hle) ?_ ((hb.made.mono hle).openVars ?_)
  · apply WellTyped.openVars
    rw [htys, append_nil]
    exact hb.typed
  · intro v hv
    constructor
    · rw [vars_fresh hb.pattern] at hv ⊢
      rw [length_freshLike]
      exact (idTag_of_mem_freshLike hv).2
    · rw [eq_nil_iff_forall_not_mem]
      intro x hx
      have := Pattern.freevars_vars _ v hv x hx
      rw [Pattern.fresh, Pattern.tyFreevars_rename (Pattern.vsTy_freshVar k b.1.vars),
        hb.closed] at this
      cases this

section Cases

variable {recursive : Bool} {rec : ℕ → Bool → Term → Except Exn (ℕ × Parallel)}
  (hrec : RecSpec S True recursive rec)

include hrec

theorem destructExpansion_spec {rhs : Term} (hn' : n' ≤ k) (ht : t.Settled n')
    (he : e.Good n n' vl (Term.Settled n')) (hrhs : Ready S True n' rhs)
    (h : destructExpansion recursive rec t rhs (k, acc) e = .ok (k', acc')) :
    ∃ l, acc' = acc ++ l ∧ SplitSpec (S := S) (AtPoint fun _ I τ ρ => ∃ β,
      ExpansionCond t e I τ ρ β ∧ (∀ v, v ∈ β.map Prod.fst → v ∈ vl) ∧
        I.Holds τ (assign ρ β) rhs) k k' l := by
  obtain ⟨mp, hmp, rhs', hrhs', ⟨m', l⟩, hl, h⟩ := bind₃_eq_ok.mp h
  obtain ⟨_, _, hrhs'⟩ := bind_eq_ok.mp hrhs'
  cases hrhs'
  have hconst : ∀ v u, mp.find? v = some u → WellTyped S [] u (some v.vsTy) ∧ u.Made n' := by
    intro v u hu
    rcases mvs_spec hmp he v with ⟨ls, hls, hfind⟩ | ⟨_, hfind⟩
    · rw [hfind] at hu
      cases hu
      exact ⟨(he.const _ hls).typed, (he.const _ hls).made⟩
    · rw [hfind] at hu
      cases hu
  have hready : Ready S True n' (tSubst mp.find? rhs) :=
    .of_made hrhs.sig hrhs.equ (hrhs.typed.tSubst fun v u hu => (hconst v u hu).1)
      (hrhs.made.tSubst fun v u hu => (hconst v u hu).2)
  have hspec := destructFmlaException_spec hrec (hready.mono hn') (by simp) (by simp) hl
  have hholds : SplitSpec (S := S) (AtPoint fun _ I τ ρ => ∃ β, ExpansionCond t e I τ ρ β ∧
      (∀ v, v ∈ β.map Prod.fst → v ∈ vl) ∧ I.Holds τ (assign ρ β) rhs) k m' l := by
    refine hspec.imp ?_
    rintro D w ⟨τ, ρ, hp, β, hden, hβ, hrhs⟩
    rwa [World.holds_iff hp, Holds, eval_mvs hmp he hden hβ]
  cases l with
  | nil =>
    cases h
    exact ⟨[], rfl, hholds⟩
  | cons x l =>
    obtain ⟨hyps, hhyps, h⟩ := bind_eq_ok.mp h
    cases h
    obtain ⟨hsettled, hacc⟩ := expansionHyps_spec hhyps hrhs.equ he ht
    refine ⟨_, rfl, hholds.append (fun y hy => (hsettled y hy).mono hn') ?_⟩
    rintro D w ⟨τ, ρ, hp, β, hden, _⟩
    exact hacc hp hden

omit hrec in
theorem Ready.branch (ht : Ready S True n (tcase a t tbs))
    (hp : ∀ b ∈ tbs, PatTyped S b.1 ∧ b.1.patTy = ty)
    (hbl : ∀ b ∈ tbs, WellTyped S (b.1.vars.map VSymbol.vsTy ++ []) b.2 none) :
    ∀ b ∈ tbs, BranchReady S n ty b := by
  have hmem : ∀ (bl : List (Pattern × Term)), ∀ b ∈ bl,
      (∀ x ∈ b.1.tyFreevars, x ∈ tyFreevarsBranches bl) ∧
      (∀ s ∈ symsTerm b.2, s ∈ symsTermBranches bl) ∧
      (∀ x ∈ b.2.tyFreevars, x ∈ tyFreevarsBranches bl) ∧
      ∀ v ∈ b.2.freeVars, v ∈ freeVarsBranches bl := by
    intro bl
    induction bl with
    | nil => simp
    | cons c bl ih =>
      obtain ⟨p, u⟩ := c
      rw [forall_mem_cons]
      simp only [tyFreevarsBranches, symsTermBranches, freeVarsBranches, mem_append]
      refine ⟨⟨?_, ?_, ?_, ?_⟩, ?_⟩
      · exact fun x hx => .inl (.inl hx)
      · exact fun s hs => .inl (.inr hs)
      · exact fun x hx => .inl (.inr hx)
      · exact fun v hv => .inl hv
      · intro b hb
        obtain ⟨h1, h2, h3, h4⟩ := ih b hb
        exact ⟨fun x hx => .inr (h1 x hx), fun s hs => .inr (h2 s hs),
          fun x hx => .inr (h3 x hx), fun v hv => .inr (h4 v hv)⟩
  intro b hb
  obtain ⟨hpat, hsyms, htys, hvars⟩ := hmem tbs b hb
  refine ⟨(hp b hb).1, (hp b hb).2, eq_nil_iff_forall_not_mem.mpr ?_,
    by simpa using hbl b hb, .of_forall ?_ ?_ ?_⟩
  · exact fun x hx => ht.made.tyFreevars x (mem_append_right _ (hpat x hx))
  · exact fun s hs => ht.syms s (mem_append_right _ (hsyms s hs))
  · exact fun x hx => ht.made.tyFreevars x (mem_append_right _ (htys x hx))
  · exact fun v hv => ht.made.vars v (mem_append_right _ (hvars v hv))

theorem destructBranch_spec (hS : S.Below n) (hequ : (Sym.ls psEqu).Below n) (hk : n ≤ k)
    (ht : WellTyped S [] t (some ty)) (htn : t.Settled n) (hb : BranchReady S n ty b)
    (h : destructBranch recursive rec t (k, acc) b = .ok (k', acc')) :
    ∃ l, acc' = acc ++ l ∧ SplitSpec (S := S) (AtPoint fun _ I τ ρ => ∃ β,
      I.matchPat τ b.1 (I.eval τ ρ [] t).1 = some β ∧
        (I.eval τ ρ (I.values τ β b.1.vars) b.2).2) k k' l := by
  obtain ⟨⟨m, es⟩, hes, h⟩ := bind_eq_ok.mp h
  have hready := hb.openVars hS hequ hk
  have hclosed : (b.1.fresh k).tyFreevars = [] := by
    rw [Pattern.fresh, Pattern.tyFreevars_rename (Pattern.vsTy_freshVar k b.1.vars), hb.closed]
  have hspec := expand_spec hready.sig (hb.pattern.fresh (n := k)) hclosed hes
  have hkm : k ≤ m := (Nat.le_add_right _ _).trans hspec.le
  obtain ⟨l, rfl, hl⟩ := SplitSpec.foldlM m (fun e he k k' acc acc' hk hstep =>
    destructExpansion_spec hrec hk (htn.mono (by omega)) (hspec.good e he)
      (hready.mono hspec.le) hstep) (le_refl m) h
  refine ⟨l, rfl, hkm.trans hl.le, hl.settled, ?_⟩
  rintro D w ⟨τ, ρ, hp, β, hβ, hbody⟩
  obtain ⟨β', hβ', hvals⟩ := matchPat_fresh (n := k) hb.pattern hβ ρ
  have hρ : w.I.TypedVal τ ρ := w.typed (τ, ρ) (hp ▸ Set.mem_singleton _)
  have hd : (w.I.eval τ ρ [] t).1 ∈ w.I.carrier ((b.1.fresh k).patTy.vMap τ) := by
    rw [patTy_fresh, hb.patTy]
    exact (ht.eval_mem w.sound hρ .nil ty rfl).1
  obtain ⟨e, he, I', hI', hsound, hden⟩ := hspec.complete w.sound hd hβ'
  have hag : AgreeBelow k w.I I' := hI'.mono (Nat.le_add_right _ _)
  have hkeys : ∀ v, v ∈ β'.map Prod.fst → v ∈ (b.1.fresh k).vars := fun v hv =>
    (matchPat_keys hb.pattern.fresh hβ').mem_iff.mp hv
  have hchange : (w.change hag hsound (hS.mono hk)).AcceptsSome m l := by
    refine hl.complete _ ⟨e, he, τ, ρ, hp, β', ?_, hkeys, ?_⟩
    · change e.Denotes I' τ β' (I'.Means τ (I'.eval τ ρ [] t).1)
      rwa [hag.eval (htn.1.mono hk)]
    · change I'.Holds τ (assign ρ β') (openVars (b.1.fresh k).vars b.2)
      rw [Holds, eval_openVars, vars_fresh hb.pattern, hvals, append_nil,
        @eval_congr _ _ _ _ ρ, hag.eval (hb.made.settled.1.mono hk)]
      · exact hbody
      · intro v hv
        apply assign_of_not_mem
        intro hmem
        have := hkeys v hmem
        rw [vars_fresh hb.pattern] at this
        exact not_mem_freshLike ((hb.made.vars v hv).trans_le hk) this
  obtain ⟨x, hx, w', hw', hacc⟩ := hchange
  have hw : w.Agree k (w.change hag hsound (hS.mono hk)) := ⟨hag, rfl⟩
  exact ⟨x, hx, w', hw.trans hw' hkm, hacc⟩

theorem destructCase_spec (ht : Ready S True n (tcase a t tbs)) (hcov : Covered S (tcase a t tbs))
    (h : tbs.foldlM (destructBranch recursive rec t) (n, []) = .ok (n', l)) :
    DestructSpec S True (tcase a t tbs) n n' l := by
  cases ht.typed with
  | @tcase _ _ _ ty _ _ htyped hsat hne hp hbl =>
    have hbranch := ht.branch hp hbl
    have htn : t.Settled n := by
      constructor
      · exact fun s hs => ht.syms s (mem_append_left _ hs)
      · exact (append_eq_nil_iff.mp (ht.closed trivial)).1
    obtain ⟨l, rfl, hl⟩ := SplitSpec.foldlM n (fun b hb k k' acc acc' hk hstep =>
      destructBranch_spec hrec ht.sig ht.equ hk htyped htn (hbranch b hb) hstep) (le_refl n) h
    refine hl.imp fun w hw => ?_
    obtain ⟨τ, ρ, hp, hρ⟩ := w.exists_point
    rw [World.holds_iff hp, Holds, eval_tcase] at hw
    obtain ⟨b', hb', hne⟩ :=
      hcov _ mem_cons_self w.sound w.free _ (Pattern.eval_instance w.sound hρ .nil htyped)
    obtain ⟨b, hb, β, hβ | ⟨-, hnone⟩, heq⟩ := evalBranches_cases (ne_nil_of_mem hb')
    · rw [heq, append_nil] at hw
      exact ⟨b, hb, τ, ρ, hp, β, hβ, hw⟩
    · exact absurd (hnone b' hb') hne

end Cases

/-- Splitting a formula is complete, whatever the fuel, if what is split into cases has no type
variables. -/
theorem destructFmla_spec (recursive : Bool) :
    ∀ fuel (one : Prop), RecSpec S one recursive (destructFmla recursive fuel)
  | 0, _ => fun _ _ _ _ _ _ _ _ h => by cases h
  | fuel + 1, one => by
    have hrec := destructFmla_spec recursive fuel
    intro n n' toplevel t l ht hcov hcases h
    -- without type variables it is enough to look at one type
    have hclosed : (CasesClosed recursive toplevel t → t.tyFreevars = []) →
        (Ready S True n t → DestructSpec S True t n n' l) → DestructSpec S one t n n' l := by
      intro hty hspec
      have hnil : t.tyFreevars = [] := by
        by_cases ho : one
        · exact ht.closed ho
        · exact hty (hcases ho)
      exact (hspec ⟨ht.sig, ht.equ, ht.typed, ht.syms, ht.vars, fun _ => hnil⟩).all
    have htrue : DestructSpec S one t n n [[]] := destructSpec_follows ht [] (by simp)
    cases t with
    | tfalse a =>
      cases h
      refine ⟨le_refl n, by simp, fun w hw => ?_⟩
      obtain ⟨p, hp⟩ := w.nonempty
      exact (hw p hp).elim
    | ttrue a =>
      cases h
      exact htrue
    | tapp a ls tl ty =>
      rw [destructFmla] at h
      split at h
      · next c1 c2 heq =>
          cases h
          exact destructEquation_spec heq ht
      · cases h
    | tif a t1 t2 t3 =>
      refine hclosed (fun hc => ?_) fun ht => destructIf_spec (hrec True) ht h
      rwa [CasesClosed] at hc
    | tcase a t tbs =>
      rw [destructFmla] at h
      split at h
      · next htop =>
          refine hclosed (fun hc => ?_) fun ht => destructCase_spec (hrec True) ht (hcov htop) h
          rw [CasesClosed] at hc
          exact hc htop
      · cases h
    | tquant a q vl trl f =>
      cases q with
      | texists =>
        refine hclosed (fun hc => ?_) fun ht => destructExists_spec (hrec True) ht h
        rwa [CasesClosed] at hc
      | tforall => cases h
    | tbinop a op t1 t2 =>
      cases op with
      | tand => exact destructAnd_spec (hrec one) ht hcases h
      | tor =>
        refine hclosed (fun hc => ?_) fun ht => destructOr_spec (hrec True) ht h
        rwa [CasesClosed] at hc
      | timplies =>
        rw [destructFmla] at h
        split at h
        · next htop =>
            subst htop
            exact destructImplies_spec (hrec one) ht (hcov rfl) hcases h
        · cases h
      | tiff => cases h
    | tnot a t1 =>
      rw [destructFmla] at h
      split at h
      · cases h
        split
        · exact destructSpec_self ht
        · exact htrue
      · exact destructNot_spec (hrec one) ht hcov h
    | _ => cases h

end Why3
