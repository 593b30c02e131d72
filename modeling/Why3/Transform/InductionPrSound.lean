import Why3.Core.Known
import Why3.Transform.InductionPrContext

/-!
# Soundness of induction on inductive predicates

The goals that replace a formula are its cases: one for each clause of the located
predicate, with the part of the context that depends on the arguments put into the
induction hypothesis. The proof is by induction on the least fixpoint. The case of a clause
is used at the types of the goal, so that the type variables of the clause that the types
of the arguments do not determine have to be different from those of the goal.
-/

namespace Why3

open Lib Term Interp List

variable {D : Type} {I : Interp D} {τ τ' : TyVal} {ρ ρ' : VSymbol → D} {S : DataSig}
  {W : List TvSymbol}
variable {ctx : Context} {ls : LSymbol} {argl : List Term} {vl : List VSymbol} {e f t : Term}
variable {σ : TyVal}
variable {paraml : List Term} {Γ : List Ty} {ul : List VSymbol} {g : Term} {ty : Ty} {x : VSymbol}

/-! ## Terms over some type variables -/

def TypesIn (W : List TvSymbol) (vl : List VSymbol) : Prop :=
  ∀ x ∈ vl, ∀ v ∈ x.vsTy.freevars, v ∈ W

/-- The valuations agree on the type variables `W` and on the variables over them. -/
structure AgreeIn (W : List TvSymbol) (τ τ' : TyVal) (ρ ρ' : VSymbol → D) : Prop where
  ty : ∀ v ∈ W, τ v = τ' v
  val : ∀ x, TypesIn W [x] → ρ x = ρ' x

/-- The term has no index, and only depends on `W` and on the variables over it. -/
def Stable (I : Interp D) (W : List TvSymbol) (t : Term) : Prop :=
  ∀ τ τ' ρ ρ' b b', AgreeIn W τ τ' ρ ρ' → I.eval τ ρ b t = I.eval τ' ρ' b' t

theorem TypesIn.of_mem (h : TypesIn W vl) (hx : x ∈ vl) : TypesIn W [x] := by
  intro y hy
  rw [mem_singleton.mp hy]
  exact h x hx

section

variable (h : AgreeIn W τ τ' ρ ρ')
include h

theorem AgreeIn.map_eq (hvl : TypesIn W vl) : vl.map ρ = vl.map ρ' :=
  map_congr_left fun x hx => h.val x (hvl.of_mem hx)

theorem AgreeIn.assign (β : List (VSymbol × D)) :
    AgreeIn W τ τ' (Why3.assign ρ β) (Why3.assign ρ' β) := by
  refine ⟨h.ty, fun x hx => ?_⟩
  rw [Why3.assign, Why3.assign, h.val x hx]

theorem AgreeIn.typed (hvl : TypesIn W vl) (ds : List D) :
    I.Typed τ (vl.map VSymbol.vsTy) ds ↔ I.Typed τ' (vl.map VSymbol.vsTy) ds := by
  refine typed_congr fun ty hty v hv => ?_
  obtain ⟨x, hx, rfl⟩ := mem_map.mp hty
  exact h.ty v (hvl x hx v hv)

end

theorem stable_openVars {o : Option Ty} (ht : WellTyped S (ul.map VSymbol.vsTy) t o)
    (hfv : t.freeVars = []) (htv : ∀ v ∈ t.tyFreevars, v ∈ W) (hul : TypesIn W ul) :
    Stable I W (openVars ul t) := by
  intro τ τ' ρ ρ' b b' h
  rw [eval_openVars, eval_openVars, ht.eval_append b _ (by simp), ht.eval_append b' _ (by simp),
    h.map_eq hul, eval_tyCongr (fun v hv => h.ty v (htv v hv)), eval_closed _ _ hfv]

def ContextNode.Stable (I : Interp D) (W : List TvSymbol) : ContextNode → Prop
  | .clet vs t => TypesIn W [vs] ∧ Why3.Stable I W t
  | .cforall vsl => TypesIn W vsl
  | .cimplies t => Why3.Stable I W t

theorem Stable.withAttrs (h : Stable I W t) (a : List Attr) : Stable I W (t.withAttrs a) := by
  intro τ τ' ρ ρ' b b' hagree
  rw [eval_withAttrs, eval_withAttrs]
  exact h τ τ' ρ ρ' b b' hagree

theorem Stable.tBinary {op : Binop} {u : Term} (hu : tBinary op f g = .ok u) (hf : Stable I W f)
    (hg : Stable I W g) : Stable I W u := by
  intro τ τ' ρ ρ' b b' h
  rw [tBinary_eq hu]
  cases op <;> simp [hf τ τ' ρ ρ' b b' h, hg τ τ' ρ ρ' b b' h]

theorem Stable.tForallClose (hg : tForallClose vl [] f = .ok g) (hf : Stable I W f)
    (hvl : TypesIn W vl) : Stable I W g := by
  unfold Term.tForallClose at hg
  split at hg
  · rw [(tProp_eq_ok.mp hg).2]
    exact hf
  · next hne =>
      cases hg
      intro τ τ' ρ ρ' b b' h
      rw [tQuantClose, if_neg hne, eval_forall, eval_forall]
      congr 1
      refine propext (forall_congr' fun ds => imp_congr_ctx (h.typed hvl ds) fun hds => ?_)
      rw [eval_closeVars (typed_length hds), eval_closeVars (typed_length hds),
        hf _ _ _ _ b b' (h.assign (vl.zip ds))]

theorem Stable.tLetClose {v : VSymbol} (ht : Stable I W t) (he : Stable I W e) :
    Stable I W (tLetClose v t e) := by
  intro τ τ' ρ ρ' b b' h
  rw [eval_tLetClose, eval_tLetClose, ht τ τ' ρ ρ' b b' h]
  exact he _ _ _ _ b b' (h.assign _)

theorem Stable.tEqu {u : Term} (hf : tEqu t u = .ok f) (ht : Stable I W t) (hu : Stable I W u) :
    Stable I W f := by
  intro τ τ' ρ ρ' b b' h
  rw [(tEqu_spec hf).1, eval_tapp_none, eval_tapp_none]
  simp [ht τ τ' ρ ρ' b b' h, hu τ τ' ρ ρ' b b' h]

theorem Stable.tvar {a : List Attr} (hx : TypesIn W [x]) : Stable I W (Term.tvar a x) := by
  intro τ τ' ρ ρ' b b' h
  rw [eval_tvar, eval_tvar, h.val x hx]

theorem Stable.zip (hctx : ∀ c ∈ ctx, c.cNode.Stable I W) :
    ∀ {goal f : Term}, zip ctx goal = .ok f → Stable I W goal → Stable I W f := by
  induction ctx with
  | nil =>
    intro goal f h hgoal
    cases h
    exact hgoal
  | cons c ctx ih =>
    intro goal f h hgoal
    rw [forall_mem_cons] at hctx
    obtain ⟨node, a⟩ := c
    cases node with
    | clet vs t =>
      obtain ⟨_, _, h⟩ := bind_eq_ok.mp h
      exact ih hctx.2 h ((Stable.tLetClose hctx.1.2 hgoal).withAttrs a)
    | cforall vsl =>
      obtain ⟨g, hg, h⟩ := bind_eq_ok.mp h
      exact ih hctx.2 h ((hgoal.tForallClose hg hctx.1).withAttrs a)
    | cimplies t =>
      obtain ⟨g, hg, h⟩ := bind_eq_ok.mp h
      exact ih hctx.2 h ((Stable.tBinary hg hctx.1 hgoal).withAttrs a)

theorem partition_stable {vsi : TagMap VSymbol Unit} {cindep cdep : Context}
    (h : partition ctx vsi = .ok (cindep, cdep)) (hctx : ∀ c ∈ ctx, c.cNode.Stable I W) :
    (∀ c ∈ cindep, c.cNode.Stable I W) ∧ ∀ c ∈ cdep, c.cNode.Stable I W := by
  refine forall_partition ?_ ?_ h hctx (by simp) (by simp)
  · exact fun vl vl' hsub hvl x hx => hvl x (hsub hx)
  · exact fun vs t e he hlet => Stable.tEqu he (.tvar hlet.1) hlet.2

theorem ContextNode.Stable.sat {c : ContextNode} (hc : c.Stable I W) (h : AgreeIn W τ τ' ρ ρ')
    (hsat : c.Sat I τ ρ) : c.Sat I τ' ρ' := by
  cases c with
  | clet vs t =>
    change ρ' vs = (I.eval τ' ρ' [] t).1
    rw [← h.val vs hc.1, ← hc.2 τ τ' ρ ρ' [] [] h]
    exact hsat
  | cforall vsl => trivial
  | cimplies t =>
    change (I.eval τ' ρ' [] t).2
    rw [← hc τ τ' ρ ρ' [] [] h]
    exact hsat

/-! ## What is located -/

def TypedTerms (I : Interp D) (tl : List Term) : Prop :=
  ∀ t ∈ tl, ∀ ty, t.tTy = some ty → ∀ τ ρ, I.TypedVal τ ρ → I.val τ ρ t ∈ I.carrier (ty.vMap τ)

structure LocatedSpec (I : Interp D) (W : List TvSymbol) (kn : KnownMap) (ctx : Context)
    (ind : Located) (goal : Term) : Prop where
  ctx : ∀ c ∈ ctx, c.cNode.Stable I W
  goal : Stable I W goal
  args : ∀ u ∈ ind.2.1, Stable I W u ∧ TypesIn W u.freeVars ∧
    ∀ ty, u.tTy = some ty → ∀ v ∈ ty.freevars, v ∈ W
  typed : TypedTerms I ind.2.1
  inst : ∃ σ, ArgsMatch σ ind.1 ind.2.1
  known : ∃ dl, kn.find? (.ls ind.1) = some (.dind .ind dl) ∧ assq ind.1 dl = .ok ind.2.2

theorem Locates.spec (hI : I.Sound) {kn : KnownMap} {n : ℕ} {ind : Located} {goal : Term}
    (h : Locates kn n ul t ctx ind goal) (hty : WellTyped S (ul.map VSymbol.vsTy) t none)
    (hfv : t.freeVars = []) (htv : ∀ v ∈ t.tyFreevars, v ∈ W) (hul : TypesIn W ul) :
    LocatedSpec I W kn ctx ind goal := by
  induction h with
  | @tlet n ul a t1 t2 v ctx ind goal h ih =>
    rw [freeVars, append_eq_nil_iff] at hfv
    rw [tyFreevars, forall_mem_append] at htv
    cases hty with
    | tlet _ ht1 ht2 =>
      have hv : TypesIn W [⟨⟨n⟩, v.vsTy⟩] := by
        intro x hx w hw
        rw [mem_singleton.mp hx] at hw
        exact htv.1 w (freevars_tTy t1 ht1.tTy_eq w hw)
      have hspec := ih ht2 hfv.2 htv.2 (forall_mem_cons.mpr ⟨hv _ (by simp), hul⟩)
      refine { hspec with ctx := forall_mem_cons.mpr ⟨⟨hv, ?_⟩, hspec.ctx⟩ }
      exact stable_openVars ht1 hfv.1 htv.1 hul
  | @tforall n ul vl a trl t1 ctx ind goal h ih =>
    rw [freeVars, append_eq_nil_iff] at hfv
    rw [tyFreevars, forall_mem_append, forall_mem_append] at htv
    cases hty with
    | tquant _ _ _ ht1 =>
      have htys : (freshOf n (vl.map VSymbol.vsTy)).map VSymbol.vsTy = vl.map VSymbol.vsTy :=
        map_vsTy_freshOf n _
      have hvl : TypesIn W (freshOf n (vl.map VSymbol.vsTy)) := by
        intro x hx v hv
        have hmem : x.vsTy ∈ vl.map VSymbol.vsTy := htys ▸ mem_map_of_mem hx
        obtain ⟨y, hy, hxy⟩ := mem_map.mp hmem
        exact htv.1.1 v (mem_flatMap.mpr ⟨y, hy, hxy ▸ hv⟩)
      have hspec := ih (by rwa [map_append, htys]) hfv.2 htv.2
        (forall_mem_append.mpr ⟨hvl, hul⟩)
      exact { hspec with ctx := forall_mem_cons.mpr ⟨hvl, hspec.ctx⟩ }
  | @timplies n ul a lhs rhs ctx ind goal h ih =>
    rw [freeVars, append_eq_nil_iff] at hfv
    rw [tyFreevars, forall_mem_append] at htv
    cases hty with
    | tbinop _ _ hl hr =>
      have hspec := ih hr hfv.2 htv.2 hul
      refine { hspec with ctx := forall_mem_cons.mpr ⟨?_, hspec.ctx⟩ }
      exact stable_openVars hl hfv.1 htv.1 hul
  | @here n ul a a' ls argl o rhs dl cl hkn hcl =>
    rw [freeVars, append_eq_nil_iff] at hfv
    rw [tyFreevars, forall_mem_append, tyFreevars, forall_mem_append] at htv
    cases hty with
    | tbinop _ _ hl hr =>
      cases hl with
      | tapp _ σ hls ho hlen htl =>
        have harg : ∀ t ∈ argl, ∃ ty ∈ ls.lsArgs,
            WellTyped S (ul.map VSymbol.vsTy) t (some (ty.vMap σ)) := by
          intro t ht
          obtain ⟨i, hi, rfl⟩ := mem_iff_getElem.mp ht
          have hi' : i < ls.lsArgs.length := hlen ▸ hi
          exact ⟨_, getElem_mem hi', htl i _ _ (getElem?_eq_getElem hi)
            (getElem?_eq_getElem hi')⟩
        have hfvl := freeVars_eq_nil_of_mem hfv.1
        have hopen : ∀ u ∈ argl.map (openVars ul), ∃ ty, WellTyped S [] u (some ty) := by
          intro u hu
          obtain ⟨t, ht, rfl⟩ := mem_map.mp hu
          obtain ⟨ty, _, hty⟩ := harg t ht
          exact ⟨_, .openVars ul (by rwa [append_nil])⟩
        refine ⟨by simp, stable_openVars hr hfv.2 htv.2 hul, ?_, ?_, ⟨σ, ?_⟩, ⟨dl, hkn, hcl⟩⟩
        · intro u hu
          obtain ⟨t, ht, rfl⟩ := mem_map.mp hu
          obtain ⟨ty, _, hty⟩ := harg t ht
          have htvt : ∀ v ∈ t.tyFreevars, v ∈ W := fun v hv =>
            htv.1.2 v (mem_tyFreevarsList.mpr ⟨t, ht, hv⟩)
          refine ⟨stable_openVars hty (hfvl t ht) htvt hul, ?_, ?_⟩
          · intro x hx
            rcases mem_freeVars_openVars hx with hx | hx
            · rw [hfvl t ht] at hx
              cases hx
            · exact hul x hx
          · intro ty' hty' v hv
            rw [(WellTyped.openVars (Γ := []) ul (by rwa [append_nil])).tTy_eq,
              ← hty.tTy_eq] at hty'
            exact htvt v (freevars_tTy t hty' v hv)
        · intro u hu ty hty τ ρ hρ
          obtain ⟨ty', hu'⟩ := hopen u hu
          rw [hu'.tTy_eq] at hty
          cases hty
          exact (hu'.eval_mem hI hρ .nil _ rfl).1
        · apply ext_getElem (by simp [hlen])
          intro i hi hi'
          have hi₁ : i < argl.length := by simpa using hi
          have hi₂ : i < ls.lsArgs.length := by simpa using hi'
          have hti := htl i argl[i] ls.lsArgs[i] (getElem?_eq_getElem hi₁)
            (getElem?_eq_getElem hi₂)
          rw [← append_nil (ul.map VSymbol.vsTy)] at hti
          simpa using (WellTyped.openVars ul hti).tTy_eq

/-! ## Clauses -/

section Clauses

variable {vsi : List VSymbol} {argl : List Term} {goal : Term} {ls : LSymbol} {induct : Bool}
  {sps : List LSymbol} {b : List D}

theorem eval_introduceEqualities (hI : I.Sound)
    (h : introduceEqualities vsi paraml argl goal = .ok e) : (I.eval τ ρ b e).2 ↔
      ∀ ds, I.Typed τ (vsi.map VSymbol.vsTy) ds →
        (∀ x ∈ paraml.zip argl, (I.eval τ (assign ρ (vsi.zip ds)) b x.2).1 =
          (I.eval τ (assign ρ (vsi.zip ds)) b x.1).1) →
        (I.eval τ (assign ρ (vsi.zip ds)) b goal).2 := by
  obtain ⟨f, hf, hclose⟩ := bind_eq_ok.mp h
  rw [eval_tForallClose hclose]
  refine forall_congr' fun ds => imp_congr_right fun _ => ?_
  clear h hclose
  generalize paraml.zip argl = l at hf
  induction l generalizing goal with
  | nil =>
    cases hf
    simp
  | cons x l ih =>
    obtain ⟨g, hg, hf⟩ := foldlM_cons_eq_ok.mp hf
    obtain ⟨u, hu, hg⟩ := bind_eq_ok.mp hg
    rw [ih hf, tBinary_eq hg, eval_timplies, eval_tEqu hI hu, forall_mem_cons]
    exact ⟨fun h h' => h h'.2 h'.1, fun h h₂ h₁ => h ⟨h₁, h₂⟩⟩

def GoalAt (I : Interp D) (τ : TyVal) (ρ : VSymbol → D) (vsi : List VSymbol) (argl : List Term)
    (goal : Term) (ys : List D) : Prop :=
  ∀ ds, I.Typed τ (vsi.map VSymbol.vsTy) ds →
    argl.map (I.val τ (assign ρ (vsi.zip ds))) = ys → I.Holds τ (assign ρ (vsi.zip ds)) goal

/-- The generalised goal for closed arguments says what the goal says of their values. -/
theorem eval_introduceEqualities_closed (hI : I.Sound) (hagree : AgreeIn W τ τ' ρ ρ')
    (hargl : ∀ u ∈ argl, Stable I W u) (hgoal : Stable I W goal) (hvsi : TypesIn W vsi)
    (hlen : paraml.length = argl.length) (hfv : freeVarsList paraml = [])
    (h : introduceEqualities vsi paraml argl goal = .ok e) :
    (I.eval τ ρ b e).2 ↔ GoalAt I τ' ρ' vsi argl goal (paraml.map fun p => (I.eval τ ρ b p).1) := by
  rw [eval_introduceEqualities hI h]
  refine forall_congr' fun ds => imp_congr (hagree.typed hvsi ds) ?_
  have hassign := hagree.assign (vsi.zip ds)
  rw [hgoal _ _ _ _ b [] hassign]
  refine imp_congr ?_ Iff.rfl
  have hargs : ∀ u ∈ argl, (I.eval τ (assign ρ (vsi.zip ds)) b u).1 =
      I.val τ' (assign ρ' (vsi.zip ds)) u := fun u hu =>
    congrArg Prod.fst (hargl u hu _ _ _ _ b [] hassign)
  have hpar : ∀ p ∈ paraml, (I.eval τ (assign ρ (vsi.zip ds)) b p).1 = (I.eval τ ρ b p).1 :=
    fun p hp => congrArg Prod.fst (eval_closed _ _ (freeVars_eq_nil_of_mem hfv p hp) b)
  clear h hfv
  induction paraml generalizing argl with
  | nil =>
    rw [length_nil, eq_comm, length_eq_zero_iff] at hlen
    simp [hlen]
  | cons p paraml ih =>
    cases argl with
    | nil => simp at hlen
    | cons u argl =>
      rw [forall_mem_cons] at hargs hargl hpar
      have hrest := ih hargl.2 (by simpa using hlen) hargs.2 hpar.2
      rw [zip_cons_cons, forall_mem_cons, map_cons, map_cons, cons.injEq, hargs.1, hpar.1]
      exact and_congr_right fun _ => hrest

theorem clauseCase_derives {I' : Interp D} {c : Term} (hc : IndClause sps ls c)
    (hgrows : Grows I' I τ ρ sps ls (premiseCase induct vsi argl goal)) {C : List D → Prop}
    (hconcl : ∀ paraml e b, paraml.length = ls.lsArgs.length → freeVarsList paraml = [] →
      introduceEqualities vsi paraml argl goal = .ok e → (I.eval τ ρ b e).2 →
      C (paraml.map fun p => (I.eval τ ρ b p).1)) {b ds : List D} {u : Term}
    (hfv : c.freeVars = []) (htv : TyAgree σ τ τ' c.tyFreevars)
    (hu : clauseCase induct vsi ls argl goal (c.genMap (Ty.vMap σ) id) = .ok u)
    (hholds : (I.eval τ ρ b u).2) (hder : I'.Derives τ' ρ b c ds) : C ds := by
  have hid : ∀ t : Term, ∀ b, TyAgree σ τ τ' t.tyFreevars → ∀ I : Interp D,
      I.eval τ ρ b (t.genMap (Ty.vMap σ) id) = I.eval τ' ρ b t :=
    fun t b ht I => eval_genMap t b ht
  induction hc generalizing b ds u with
  | @tforall a vl trl f hf ih =>
    obtain ⟨es, hes, hder⟩ := hder
    obtain ⟨f', hf', hu⟩ := bind_eq_ok.mp hu
    cases hu
    rw [tyFreevars] at htv
    obtain ⟨htv, htvf⟩ := tyAgree_append.mp htv
    refine ih (append_eq_nil_iff.mp hfv).2 htvf hf' ?_ hder
    rw [eval_forall] at hholds
    exact hholds es ((typed_genMap_vars (tyAgree_append.mp htv).1).mpr
      ((hgrows.agree.typed _ _).mpr hes))
  | @timplies a g f hg hf ih =>
    obtain ⟨hprem, hder⟩ := hder
    rw [freeVars, append_eq_nil_iff] at hfv
    obtain ⟨htvg, htvf⟩ := tyAgree_append.mp htv
    obtain ⟨g', hg', f', hf', hu⟩ := bind₂_eq_ok.mp hu
    cases hu
    refine ih hfv.2 htvf hf' (hholds ?_) hder
    rw [← hid g b htvg I'] at hprem
    exact hgrows.eval _ b (by rw [freeVars_genMap, hfv.1, map_nil]) (fPosPs_genMap g hg) hg'
      hprem
  | @tlet a t v f ht hf ih =>
    rw [freeVars, append_eq_nil_iff] at hfv
    obtain ⟨htvt, htvf⟩ := tyAgree_append.mp htv
    obtain ⟨f', hf', hu⟩ := bind_eq_ok.mp hu
    cases hu
    refine ih hfv.2 htvf hf' ?_ hder
    rw [eval_tlet, hid t b htvt I, hgrows.agree.eval_term ht b] at hholds
    exact hholds
  | @tapp a tl ty hpos htys =>
    simp only [Term.genMap, clauseCase, mapLs, if_true] at hu
    have hlen : tl.length = ls.lsArgs.length := by simpa using congrArg List.length htys
    have hvals := hconcl _ u b (by rw [genMapList_eq_map, length_map, hlen])
      ((freeVars_genMap (tapp a ls tl ty)).trans (map_eq_nil_iff.mpr hfv)) hu hholds
    rw [map_eval_genMap fun t ht => hid t b (fun v hv =>
      (tyAgree_append.mp htv).2 v (mem_tyFreevarsList.mpr ⟨t, ht, hv⟩)) I] at hvals
    rw [hder, ← hgrows.agree.eval_terms hpos b]
    exact hvals

/-- In the premises, the predicate together with the goal implies the induction
hypothesis. -/
theorem premiseCase_grows (hI : I.Sound) (hagree : AgreeIn W τ τ' ρ ρ')
    (hargl : ∀ u ∈ argl, Stable I W u) (hgoal : Stable I W goal) (hvsi : TypesIn W vsi)
    (hls : ls ∈ sps) {P : LSymbol → List D → Prop}
    (hP : ∀ ds, P ls ds → GoalAt I τ' ρ' vsi argl goal ds) :
    Grows (I.withPr sps fun s ds => I.pr s ds ∧ P s ds) I τ ρ sps ls
      (premiseCase induct vsi argl goal) := by
  have hgrows := withPr_grows (I := I) (τ := τ) (ρ := ρ) (Q := I.pr)
    (P := fun s ds => I.pr s ds ∧ P s ds) hls fun s _ ds h => h.1
  rw [withPr_self] at hgrows
  refine { hgrows with app := ?_ }
  intro a tl ty u b hfv htl hu happ
  obtain rfl : ty = none := by
    cases ty with
    | none => rfl
    | some ty => exact absurd happ (by simp)
  have hself := hgrows.app a tl none _ b hfv htl rfl happ
  unfold premiseCase at hu
  split at hu
  · next hcond =>
      rw [Bool.and_eq_true, decide_eq_true_eq] at hcond
      obtain ⟨e, he, hu⟩ := bind_eq_ok.mp hu
      have hlen : tl.length = argl.length := by simpa using congrArg List.length hcond.2.symm
      rw [tBinary_eq hu, eval_tand]
      refine ⟨hself, (eval_introduceEqualities_closed hI hagree hargl hgoal hvsi hlen hfv he).mpr ?_⟩
      rw [eval_tapp_none, ← hgrows.agree.eval_terms htl b] at happ
      simp only [withPr, if_pos hls] at happ
      exact hP _ happ.2
  · cases hu
    exact hself

end Clauses

/-! ## Types -/

theorem ArgsMatch.exists_mem (h : ArgsMatch σ ls argl) (hty : ty ∈ ls.lsArgs) :
    ∃ u ∈ argl, u.tTy = some (ty.vMap σ) := by
  have hmem : some (ty.vMap σ) ∈ argl.map tTy := h ▸ mem_map_of_mem hty
  exact mem_map.mp hmem

theorem typed_of_argsMatch (hargs : ArgsMatch σ ls argl) (htyped : TypedTerms I argl)
    (hρ : I.TypedVal τ ρ) : I.Typed (fun v => (σ v).vMap τ) ls.lsArgs (argl.map (I.val τ ρ)) := by
  rw [Typed, forall₂_map_right_iff, forall₂_iff_get]
  have hlen : argl.length = ls.lsArgs.length := by simpa using congrArg List.length hargs
  refine ⟨hlen.symm, fun i hi hi' => ?_⟩
  have htTy : argl[i].tTy = some (ls.lsArgs[i].vMap σ) := by
    have := congrArg (·[i]?) hargs
    simpa [hi, hi'] using this
  have hval := htyped argl[i] (getElem_mem hi') _ htTy τ ρ hρ
  rwa [Ty.vMap_vMap] at hval

/-- Values that have the types of the arguments at two instances make the instances the
same. -/
theorem inst_eq_of_typed (hdisj : I.Disjoint) {τ₁ : TyVal} (hargs : ArgsMatch σ ls argl)
    (htyped : TypedTerms I argl) (hρ : I.TypedVal τ ρ)
    (hτ₁ : I.Typed τ₁ ls.lsArgs (argl.map (I.val τ ρ))) :
    ∀ ty ∈ ls.lsArgs, ∀ v ∈ ty.freevars, (σ v).vMap τ = τ₁ v := by
  intro ty hty
  obtain ⟨i, hi, rfl⟩ := mem_iff_getElem.mp hty
  have hval := (forall₂_iff_get.mp (typed_of_argsMatch hargs htyped hρ)).2 i hi
  have hval₁ := (forall₂_iff_get.mp hτ₁).2 i hi
  have hi' : i < (argl.map (I.val τ ρ)).length := by
    rw [← hτ₁.length_eq]
    exact hi
  exact Ty.eq_of_vMap_eq _ (hdisj _ _ _ (hval hi') (hval₁ hi'))

theorem exists_agreeIn (hI : I.Sound) (hρ : I.TypedVal τ ρ) (h : ∀ v ∈ W, τ' v = τ v) :
    ∃ ρ', I.TypedVal τ' ρ' ∧ AgreeIn W τ' τ ρ' ρ := by
  classical
  refine ⟨fun x => if TypesIn W [x] then ρ x else I.eps (x.vsTy.vMap τ') Set.univ, ?_, h, ?_⟩
  · intro x
    dsimp only
    split
    · next hx =>
        rw [Ty.vMap_congr x.vsTy fun v hv => h v (hx x (by simp) v hv)]
        exact hρ x
    · exact hI.eps_mem _ _
  · intro x hx
    exact if_pos hx

/-! ## Soundness -/

/-- No type variable of a clause of the located predicate occurs in the formula, unless it
occurs in the types of the arguments of the predicate. -/
def NoCapture (kn : KnownMap) (attr : Attr) (n : ℕ) (t : Term) : Prop :=
  ∀ ctx ls argl cl goal, locate kn attr n t = .ok (some (ctx, (ls, argl, cl), goal)) →
    ∀ c ∈ cl, ∀ v ∈ c.2.tyFreevars, v ∈ t.tyFreevars → ∃ ty ∈ ls.lsArgs, v ∈ ty.freevars

/-- The inductive declarations have been accepted, are well typed and stand for their least
fixpoints. -/
def IndModel (S : DataSig) (I : Interp D) (kn : KnownMap) : Prop :=
  ∀ ls dl, kn.find? (.ls ls) = some (.dind .ind dl) →
    createIndDecl .ind dl = .ok (.dind .ind dl) ∧
      (∀ id ∈ dl, ∀ ax ∈ id.2, WellTyped S [] ax.2 none) ∧ I.LeastFixpoint dl

/-- What the case goal of a clause proves: all facts that the clause derives satisfy the
goal. -/
theorem goalAt_of_case (hI : I.Sound) (hdisj : I.Disjoint) {sps : List LSymbol} {goal fc : Term}
    {vsi : List VSymbol} {induct : Bool} {n : ℕ} {cindep : Context} {c : Term}
    (hc : IndClause sps ls c) (hls : ls ∈ sps) (hfv : c.freeVars = []) (hty : WellTyped S [] c none)
    (hargl : ∀ u ∈ argl, Stable I W u ∧ TypesIn W u.freeVars ∧
      ∀ ty, u.tTy = some ty → ∀ v ∈ ty.freevars, v ∈ W) (htyped : TypedTerms I argl)
    (hgoal : Stable I W goal) (hvsi : TypesIn W vsi) (hcindep : ∀ c ∈ cindep, c.cNode.Stable I W)
    (hcapture : ∀ v ∈ c.tyFreevars, v ∈ W → ∃ ty ∈ ls.lsArgs, v ∈ ty.freevars)
    (hfc : substituteClause n induct vsi ls argl goal c = .ok fc) (hf : zip cindep fc = .ok f)
    (hvalid : I.Valid f) (hρ : I.TypedVal τ ρ) (hsat : ∀ c ∈ cindep, c.cNode.Sat I τ ρ)
    {P : LSymbol → List D → Prop} (hP : ∀ ds, P ls ds → GoalAt I τ ρ vsi argl goal ds) (τ₁ : TyVal) :
    ∃ ρ₁, ∀ ds, (I.withPr sps fun s ds => I.pr s ds ∧ P s ds).Derives τ₁ ρ₁ [] c ds →
      GoalAt I τ ρ vsi argl goal ds := by
  obtain ⟨s, hs, c', hc', hfc⟩ := bind₂_eq_ok.mp hfc
  rw [tTySubst_closed hfv] at hc'
  cases hc'
  let σ : TyVal := fun v => s.findDef (.tyvar v) v
  have hargs : ArgsMatch σ ls argl := lsArgInst_spec hs (extends_findDef s)
  by_cases hmatch : ∀ ty ∈ ls.lsArgs, ∀ v ∈ ty.freevars, (σ v).vMap τ = τ₁ v
  · -- the clause is used at the types of the goal: its case applies
    classical
    let τ₂ : TyVal := fun v => if v ∈ W then τ v else τ₁ v
    have hτ₂ : ∀ v ∈ W, τ₂ v = τ v := fun v hv => if_pos hv
    obtain ⟨ρ₂, hρ₂, hagree⟩ := exists_agreeIn hI hρ hτ₂
    have hagree' : AgreeIn W τ τ₂ ρ ρ₂ :=
      ⟨fun v hv => (hτ₂ v hv).symm, fun x hx => (hagree.val x hx).symm⟩
    have hholds : I.Holds τ₂ ρ₂ fc :=
      holds_of_zip hρ₂ (fun c hc => (hcindep c hc).sat hagree' (hsat c hc)) hf (hvalid τ₂ ρ₂ hρ₂)
    have htys : TyAgree σ τ₂ τ₁ c.tyFreevars := by
      intro v hv
      by_cases hmem : ∃ ty ∈ ls.lsArgs, v ∈ ty.freevars
      · obtain ⟨ty, hty, hvty⟩ := hmem
        obtain ⟨u, hu, hu'⟩ := hargs.exists_mem hty
        rw [← hmatch ty hty v hvty]
        refine Ty.vMap_congr _ fun w hw => hτ₂ w ((hargl u hu).2.2 _ hu' w ?_)
        exact (Ty.mem_freevars_vMap σ ty w).mpr ⟨v, hvty, hw⟩
      · have hnone : s.find? v = none := lsArgInst_find? hs fun ty hty hv => hmem ⟨ty, hty, hv⟩
        have hW : v ∉ W := fun hW => hmem (hcapture v hv hW)
        simp only [σ, τ₂, TagMap.findDef, hnone, Option.getD_none, Ty.vMap_tyvar, if_neg hW]
    refine ⟨ρ₂, fun ds => clauseCase_derives hc ?_ ?_ hfv htys hfc hholds⟩
    · exact premiseCase_grows hI hagree (fun u hu => (hargl u hu).1) hgoal hvsi hls hP
    · intro paraml e b hlen hclosed he hholds
      have hlen' : argl.length = ls.lsArgs.length := by simpa using congrArg List.length hargs
      exact (eval_introduceEqualities_closed hI hagree (fun u hu => (hargl u hu).1) hgoal hvsi
        (hlen.trans hlen'.symm) hclosed he).mp hholds
  · -- the clause is used at other types, where the goal says nothing
    refine ⟨fun x => I.eps (x.vsTy.vMap τ₁) Set.univ, fun ds hder es hes hds => ?_⟩
    have hgrows := withPr_grows (I := I) (τ := τ₁) (ρ := fun x => I.eps (x.vsTy.vMap τ₁) Set.univ)
      (Q := I.pr) (P := fun s ds => I.pr s ds ∧ P s ds) hls fun s _ ds h => h.1
    rw [withPr_self] at hgrows
    have htyped₁ := (hder.mono hc hgrows hfv).typed hI hc (fun x => hI.eps_mem _ _) hty .nil
    rw [← hds] at htyped₁
    exact absurd (inst_eq_of_typed hdisj hargs htyped (hρ.assign_zip hes) htyped₁) hmatch

theorem typesIn_indexVars (ps : List Bool) (h : ∀ u ∈ argl, TypesIn W u.freeVars) :
    TypesIn W ((indexVars ps argl).bindings.map Prod.fst) := by
  intro x hx
  have hmem : (indexVars ps argl).mem x = true := by
    rw [TagMap.mem, TagMap.find?]
    exact (TagMap.mem_keys_iff x _).mp hx
  rw [indexVars, TagMap.mem_ofList, mem_flatMap] at hmem
  obtain ⟨⟨p, u⟩, hpu, hx⟩ := hmem
  cases p with
  | true => simp at hx
  | false => exact h u (of_mem_zip hpu).2 x hx

/-- A closed formula is valid if all goals are that induction or inversion on an inductive
predicate replaces it by. -/
theorem inductionL_sound (hI : I.Sound) (hdisj : I.Disjoint) {kn : KnownMap}
    (hkn : IndModel S I kn) {attr : Attr} {induct : Bool} {n : ℕ} {t : Term} {cases : List Term}
    (ht : WellTyped S [] t none) (hclosed : t.freeVars = [])
    (h : inductionL attr induct kn n t = .ok (some cases)) (hcapture : NoCapture kn attr n t)
    (hcases : ∀ c ∈ cases, I.Valid c) : I.Valid t := by
  obtain ⟨r, hr, h⟩ := bind_eq_ok.mp h
  match r, h with
  | none, h => cases h
  | some (ctx, (ls, argl, cl), goal), h =>
    obtain ⟨⟨cindep, cdep⟩, hpart, h⟩ := bind_eq_ok.mp h
    obtain ⟨goal', hgoal', cases', hmap, h⟩ := bind₂_eq_ok.mp h
    cases h
    rw [mapM_eq_ok] at hmap
    have hloc := locateInductive_spec t hr
    have hspec : LocatedSpec I t.tyFreevars kn ctx (ls, argl, cl) goal :=
      hloc.spec hI ht hclosed (fun v hv => hv) (by simp [TypesIn])
    obtain ⟨dl, hfind, hassq⟩ := hspec.known
    obtain ⟨hcreate, hdlty, hlfp⟩ := hkn ls dl hfind
    have hclauses := (createIndDecl_spec hcreate).2
    obtain ⟨hindep, hdep⟩ := partition_stable hpart hspec.ctx
    have hvsi := typesIn_indexVars (parameters n ls cl) fun u hu => (hspec.args u hu).2.1
    generalize (indexVars (parameters n ls cl) argl).bindings.map Prod.fst = vsi at hvsi hmap
    have hmem : (ls, cl) ∈ dl := mem_of_lookup (assq_eq_ok.mp hassq)
    intro τ ρ hρ
    refine hloc.holds hI ht hclosed (by simp) hρ fun ρ' hρ' _ hsat hpr => ?_
    obtain ⟨hsatIndep, hsatDep⟩ := partition_sat hI hpart hsat
    refine holds_of_zip hρ' hsatDep hgoal' ?_
    -- the goal holds of all arguments for which the predicate does
    have hall := hlfp.induction (S := S)
      (P := fun s ds => s = ls → GoalAt I τ ρ' vsi argl goal' ds)
      (fun id hid ax hax => ⟨(hclauses id hid ax hax).1, (hclauses id hid ax hax).2,
        hdlty id hid ax hax⟩) ?_ ls (mem_map_of_mem hmem)
    · obtain ⟨σ, hσ⟩ := hspec.inst
      have hgoal := hall _ _ (typed_of_argsMatch hσ hspec.typed hρ') hpr rfl _
        (hρ'.typed_map _) (by rw [assign_zip_self])
      rwa [assign_zip_self] at hgoal
    · intro id hid ax hax τ₁
      by_cases hls : id.1 = ls
      · obtain rfl : id = (ls, cl) :=
          inj_on_of_nodup_map (createIndDecl_nodup hcreate) hid hmem hls
        obtain ⟨f, hf, hfax⟩ := forall₂_mem_left hmap hax
        obtain ⟨fc, hfc, hfax⟩ := bind_eq_ok.mp hfax
        obtain ⟨ρ₁, hder⟩ := goalAt_of_case hI hdisj (hclauses _ hid ax hax).2
          (mem_map_of_mem hid) (hclauses _ hid ax hax).1 (hdlty _ hid ax hax) hspec.args
          hspec.typed (Stable.zip hdep hgoal' hspec.goal) hvsi hindep
          (hcapture ctx ls argl cl goal hr ax hax) hfc hfax (hcases f hf) hρ' hsatIndep
          (P := fun s ds => s = ls → GoalAt I τ ρ' vsi argl goal' ds) (fun ds h => h rfl) τ₁
        exact ⟨ρ₁, fun ds h _ => hder ds h⟩
      · exact ⟨ρ, fun ds _ heq => absurd heq hls⟩

/-! ## Capture of a type variable -/

namespace Capture

def tvB : TvSymbol := ⟨⟨50⟩⟩

/-- `predicate p int` -/
def psP : LSymbol := ⟨⟨51⟩, [tyInt], none, 0⟩

/-- `function g 'b : int` -/
def fsG : LSymbol := ⟨⟨52⟩, [.tyvar tvB], some tyInt, 0⟩

/-- `constant k : 'b` -/
def fsK : LSymbol := ⟨⟨53⟩, [], some (.tyvar tvB), 0⟩

def tG (t : Term) : Term := tapp [] fsG [t] (some tyInt)

/-- `inductive p int = C : p (g (k : 'b))` -/
def decl : List IndDecl :=
  [(psP, [(⟨⟨54⟩⟩, tapp [] psP [tG (tapp [] fsK [] (some (.tyvar tvB)))] none)])]

def kn : KnownMap := TagMap.empty.add (.ls psP) (.dind .ind decl)

def vsN : VSymbol := ⟨⟨60⟩, tyInt⟩

def vsX : VSymbol := ⟨⟨61⟩, .tyvar tvB⟩

/-- `forall n x : 'b. p n -> n = g x` -/
def goal : Term :=
  tquant [] .tforall [vsN, vsX] [] (tbinop [] .timplies (tapp [] psP [tbnd [] 0 tyInt] none)
    (tapp [] psEqu [tbnd [] 0 tyInt, tG (tbnd [] 1 (.tyvar tvB))] none))

/-- `forall n x : 'b. n = g (k : 'b) -> n = g x` -/
def caseGoal : Term :=
  tquant [] .tforall [vsN, vsX] [] (tbinop [] .timplies
    (tapp [] psEqu [tbnd [] 0 tyInt, tG (tapp [] fsK [] (some (.tyvar tvB)))] none)
    (tapp [] psEqu [tbnd [] 0 tyInt, tG (tbnd [] 1 (.tyvar tvB))] none))

/-- `axiom A : forall x y : 'b. g x = g y` -/
def hyp : Term :=
  tquant [] .tforall [vsX, vsX] []
    (tapp [] psEqu [tG (tbnd [] 0 (.tyvar tvB)), tG (tbnd [] 1 (.tyvar tvB))] none)

theorem inductionL_goal (induct : Bool) :
    inductionL (.other 0) induct kn 60 goal = .ok (some [caseGoal]) := by
  cases induct <;> rfl

theorem caseGoal_valid {D : Type} {I : Interp D} (hI : I.Sound) (h : I.Valid hyp) :
    I.Valid caseGoal := by
  intro τ ρ hρ
  have hhyp := h τ ρ hρ
  rw [hyp, Holds, eval_forall] at hhyp
  rw [caseGoal, Holds, eval_forall]
  intro ds hds
  cases hds with
  | cons hn hds =>
    cases hds with
    | cons hx hds =>
      cases hds
      have hk := hI.fn fsK (.tyvar tvB) τ [] rfl .nil
      have hg := hhyp _ (.cons hk (.cons hx .nil))
      simp only [tG, eval_tapp_none, eval_tapp_some, eval_timplies, map_cons, map_nil,
        hI.equ] at hg ⊢
      exact fun heq => heq.trans hg

/-- The values of a type are numbered, and `g` only looks at the type. -/
noncomputable def codes : Interp (Ty × ℕ) :=
  { taggedInterp (fun _ _ => 0) (fun _ _ => False) (fun _ => 0) with
    fn := fun ls ty ds => (ty, if ls = fsG ∧ ∃ d ∈ ds, d.1 = tyBool then 1 else 0)
    pr := fun ls ds =>
      if ls = psEqu then ds[0]? = ds[1]?
      else ls = psP ∧ (ds = [(tyInt, 0)] ∨ ds = [(tyInt, 1)]) }

theorem codes_sound : codes.Sound :=
  { taggedInterp_sound (fun _ _ => 0) (fun _ _ => False) fun _ => 0 with
    fn := fun _ _ _ _ _ _ => rfl
    equ := fun d d' => by simp [codes] }

theorem codes_disjoint : codes.Disjoint := fun _ _ _ h h' => h.symm.trans h'

theorem codes_hyp : codes.Valid hyp := by
  intro τ ρ _
  rw [hyp, Holds, eval_forall]
  intro ds hds
  cases hds with
  | cons hx hds =>
    cases hds with
    | cons hy hds =>
      cases hds
      simp only [tG, eval_tapp_none, eval_tapp_some, map_cons, map_nil,
        codes_sound.equ, eval_tbnd, cons_append, getD_cons_zero, getD_cons_succ]
      simp only [codes, mem_singleton, exists_eq_left]
      rw [show _ = _ from hx, show _ = _ from hy]

theorem codes_psP (ds : List (Ty × ℕ)) :
    codes.pr psP ds ↔ ds = [(tyInt, 0)] ∨ ds = [(tyInt, 1)] := by
  simp [codes, psP, psEqu]

theorem codes_tG_k (τ : TyVal) (ρ : VSymbol → Ty × ℕ) (P : LSymbol → List (Ty × ℕ) → Prop) :
    ((codes.withPr [psP] P).eval τ ρ [] (tG (tapp [] fsK [] (some (.tyvar tvB))))).1 =
      (tyInt, if τ tvB = tyBool then 1 else 0) := by
  simp [tG, withPr, codes, fsG, fsK, tyInt]

theorem codes_leastFixpoint : codes.LeastFixpoint decl where
  closed := by
    rintro id hid ax hax τ ρ -
    rw [decl, mem_singleton] at hid
    subst hid
    rw [mem_singleton] at hax
    subst hax
    have hval := codes_tG_k τ ρ codes.pr
    rw [withPr_self] at hval
    rw [Holds, eval_tapp_none, map_singleton, hval]
    rw [codes_psP]
    by_cases hτ : τ tvB = tyBool <;> simp [hτ]
  least := by
    intro P h ls hls τ ds _ hpr
    obtain rfl : ls = psP := by simpa [decl] using hls
    have hP : ∀ τ : TyVal, P psP [(tyInt, if τ tvB = tyBool then 1 else 0)] := by
      intro τ
      have := h _ (mem_singleton_self _) _ (mem_singleton_self _) τ
        (fun v => (v.vsTy.vMap τ, 0)) fun v => rfl
      rw [Holds, eval_tapp_none, map_singleton, decl, map_singleton, codes_tG_k] at this
      simpa [withPr] using this
    rcases (codes_psP ds).mp hpr with rfl | rfl
    · simpa [tyInt, tyBool, tsInt, tsBool] using hP fun _ => tyInt
    · simpa using hP fun _ => tyBool

theorem codes_goal : ¬ codes.Valid goal := by
  intro h
  have := h (fun _ => tyBool) (fun v => (v.vsTy.vMap fun _ => tyBool, 0)) fun v => rfl
  rw [goal, Holds, eval_forall] at this
  have := this [(tyInt, 0), (tyBool, 0)] (.cons rfl (.cons rfl .nil))
  simp [codes, tG, psP, psEqu, fsG] at this

theorem wellTyped_psP (ht : WellTyped peanoSig Γ t (some tyInt)) :
    WellTyped peanoSig Γ (tapp [] psP [t] none) none :=
  .of_argsMatch (σ := .tyvar) [] (.inl rfl)
    (by simp [ArgsMatch, psP, ht.tTy_eq, tyInt]) (by simpa using ⟨_, ht⟩)

theorem wellTyped_tG (ht : WellTyped peanoSig Γ t (some ty)) :
    WellTyped peanoSig Γ (tG t) (some tyInt) :=
  .of_argsMatch (σ := fun _ => ty) [] (.inl rfl)
    (by simp [ArgsMatch, fsG, ht.tTy_eq]) (by simpa using ⟨_, ht⟩)

theorem codes_indModel : IndModel peanoSig codes kn := by
  intro ls dl h
  have hls : ls = psP ∧ dl = decl := by
    rw [kn, TagMap.find?_add] at h
    split at h
    · next heq => exact ⟨Sym.ls.inj heq, by simpa using h.symm⟩
    · simp at h
  obtain ⟨rfl, rfl⟩ := hls
  refine ⟨rfl, ?_, codes_leastFixpoint⟩
  intro id hid ax hax
  rw [decl, mem_singleton] at hid
  subst hid
  rw [mem_singleton] at hax
  subst hax
  have hk : WellTyped peanoSig [] (tapp [] fsK [] (some (.tyvar tvB))) (some (.tyvar tvB)) :=
    .of_argsMatch (σ := .tyvar) [] (.inl rfl) rfl (by simp)
  exact wellTyped_psP (wellTyped_tG hk)

theorem wellTyped_goal : WellTyped peanoSig [] goal none := by
  have hn : WellTyped peanoSig [tyInt, .tyvar tvB] (tbnd [] 0 tyInt) (some tyInt) := .tbnd [] rfl
  have hx : WellTyped peanoSig [tyInt, .tyvar tvB] (tbnd [] 1 (.tyvar tvB)) (some (.tyvar tvB)) :=
    .tbnd [] rfl
  exact .tquant [] _ (by simp) (.tbinop [] _ (wellTyped_psP hn) (.equ hn (wellTyped_tG hx)))

/-- The only case goal of a goal that is not valid follows from an axiom that is true: the
type variable of the clause is taken for that of the goal. -/
theorem inductionL_captures :
    WellTyped peanoSig [] goal none ∧ goal.freeVars = [] ∧
      inductionL (.other 0) true kn 60 goal = .ok (some [caseGoal]) ∧
      inductionL (.other 0) false kn 60 goal = .ok (some [caseGoal]) ∧
      (∀ (D : Type) (I : Interp D), I.Sound → I.Valid hyp → I.Valid caseGoal) ∧
      ∃ I : Interp (Ty × ℕ), I.Sound ∧ I.Disjoint ∧ IndModel peanoSig I kn ∧ I.Valid hyp ∧
        ¬ I.Valid goal :=
  ⟨wellTyped_goal, rfl, inductionL_goal true, inductionL_goal false,
    fun _ _ hI h => caseGoal_valid hI h, codes, codes_sound, codes_disjoint, codes_indModel,
    codes_hyp, codes_goal⟩

/-- `forall n. p n -> n = n` -/
def goalRefl : Term :=
  tquant [] .tforall [vsN] [] (tbinop [] .timplies (tapp [] psP [tbnd [] 0 tyInt] none)
    (tapp [] psEqu [tbnd [] 0 tyInt, tbnd [] 0 tyInt] none))

/-- `forall n. n = g (k : 'b) -> n = n` -/
def caseRefl : Term :=
  tquant [] .tforall [vsN] [] (tbinop [] .timplies
    (tapp [] psEqu [tbnd [] 0 tyInt, tG (tapp [] fsK [] (some (.tyvar tvB)))] none)
    (tapp [] psEqu [tbnd [] 0 tyInt, tbnd [] 0 tyInt] none))

/-- A goal without type variables. -/
theorem inductionL_sound_refl :
    inductionL (.other 0) true kn 60 goalRefl = .ok (some [caseRefl]) ∧ codes.Valid goalRefl := by
  have hn : WellTyped peanoSig [tyInt] (tbnd [] 0 tyInt) (some tyInt) := .tbnd [] rfl
  have hty : WellTyped peanoSig [] goalRefl none :=
    .tquant [] _ (by simp) (.tbinop [] _ (wellTyped_psP hn) (.equ hn hn))
  have hcase : codes.Valid caseRefl := by
    intro τ ρ _
    simp [caseRefl, Holds, codes_sound.equ]
  have hcapture : NoCapture kn (.other 0) 60 goalRefl := by
    intro ctx ls argl cl goal _ c _ v _ hv
    exact absurd hv (by simp [goalRefl, tyFreevars, tyFreevarsList, tyFreevarsTriggers, vsN, tyInt])
  have h : inductionL (.other 0) true kn 60 goalRefl = .ok (some [caseRefl]) := rfl
  exact ⟨h, inductionL_sound codes_sound codes_disjoint codes_indModel hty rfl h hcapture
    (by simpa using hcase)⟩

end Capture

end Why3
