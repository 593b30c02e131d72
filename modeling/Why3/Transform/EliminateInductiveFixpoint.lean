import Why3.Logic.Extend
import Why3.Transform.EliminateInductiveSound
import Why3.Transform.InductionPrSound

/-!
# Inversion axioms and fixpoints

The axioms of the clauses say that the predicates contain what the clauses derive from
them. The inversion axioms say that the predicates contain nothing else, but for each value
of the type variables separately. The types of the arguments of a predicate do not have to
determine all type variables of its clauses, as the check of unbound type variables compares
with those of the conclusion. Then a fixpoint need not make the inversion axiom true.
-/

namespace Why3

open Lib Term Interp List

variable {S : DataSig} {D : Type} {I : Interp D} {idl : List IndDecl}
variable {s : IndSign} {ds : List D} {f : Term} {τ : TyVal} {n : ℕ}
variable {id : IndDecl} {pr : PrSymbol} {task task' : Task} {τ' : TyVal}

namespace Interp

/-- The predicates hold of the arguments that the clauses derive from them in one step. -/
def Fixpoint (I : Interp D) (idl : List IndDecl) : Prop :=
  ∀ ls ∈ idl.map Prod.fst, ∀ τ ds, I.Typed τ ls.lsArgs ds →
    (I.pr ls ds ↔ I.consequences idl I.pr ls ds)

/-- What is derived does not depend on type variables that do not occur in the types of the
arguments. -/
def TypeBlind (I : Interp D) (idl : List IndDecl) : Prop :=
  ∀ id ∈ idl, ∀ τ τ' ds, (∀ ty ∈ id.1.lsArgs, ∀ v ∈ ty.freevars, τ v = τ' v) →
    DerivedAt I id τ ds → DerivedAt I id τ' ds

end Interp

/-- All type variables of the clauses occur in the types of the arguments of their
predicates. -/
def NoHiddenTypeVar (idl : List IndDecl) : Prop :=
  ∀ id ∈ idl, ∀ ax ∈ id.2, ∀ v ∈ ax.2.tyFreevars, ∃ ty ∈ id.1.lsArgs, v ∈ ty.freevars

/-! ## Derivations and types -/

theorem derives_tyCongr {ρ : VSymbol → D} : ∀ (c : Term) (b : List D) {ds : List D},
    (∀ v ∈ c.tyFreevars, τ v = τ' v) → I.Derives τ ρ b c ds → I.Derives τ' ρ b c ds
  | tquant _ .tforall vl _ f, b, ds, h, ⟨es, hes, hder⟩ => by
    refine ⟨es, ?_, derives_tyCongr f _ (fun v hv => h v (by simp [tyFreevars, hv])) hder⟩
    refine hes.congr fun ty hty v hv => h v ?_
    obtain ⟨u, hu, rfl⟩ := mem_map.mp hty
    simp only [tyFreevars, mem_append, mem_flatMap]
    exact .inl (.inl ⟨u, hu, hv⟩)
  | tbinop _ .timplies g f, b, ds, h, ⟨hg, hder⟩ => by
    refine ⟨?_, derives_tyCongr f b (fun v hv => h v (by simp [tyFreevars, hv])) hder⟩
    rwa [← eval_tyCongr fun v hv => h v (by simp [tyFreevars, hv])]
  | tlet _ t _ f, b, ds, h, hder => by
    rw [Derives, ← eval_tyCongr fun v hv => h v (by simp [tyFreevars, hv])]
    exact derives_tyCongr f _ (fun v hv => h v (by simp [tyFreevars, hv])) hder
  | tapp _ ls tl _, b, ds, h, hder => by
    rw [Derives] at hder ⊢
    rw [hder]
    refine map_congr_left fun t ht => ?_
    rw [eval_tyCongr fun v hv => h v ?_]
    exact mem_append_right _ (mem_tyFreevarsList.mpr ⟨t, ht, hv⟩)

theorem NoHiddenTypeVar.typeBlind (h : NoHiddenTypeVar idl) : I.TypeBlind idl := by
  rintro id hid τ τ' ds hτ ⟨ax, hax, ρ, hder⟩
  refine ⟨ax, hax, ρ, derives_tyCongr ax.2 [] (fun v hv => ?_) hder⟩
  obtain ⟨ty, hty, hv⟩ := h id hid ax hax v hv
  exact hτ ty hty v hv

theorem consequences_iff {ls : LSymbol} : I.consequences idl I.pr ls ds ↔
    ∃ id ∈ idl, id.1 = ls ∧ ∃ τ, DerivedAt I id τ ds := by
  rw [consequences, withPr_self]
  constructor
  · rintro ⟨id, hid, hls, ax, hax, τ, ρ, hder⟩
    exact ⟨id, hid, hls, τ, ax, hax, ρ, hder⟩
  · rintro ⟨id, hid, hls, τ, ax, hax, ρ, hder⟩
    exact ⟨id, hid, hls, ax, hax, τ, ρ, hder⟩

theorem typeVars_eq_of_typed (hdisj : I.Disjoint) {tyl : List Ty} (h : I.Typed τ tyl ds)
    (h' : I.Typed τ' tyl ds) : ∀ ty ∈ tyl, ∀ v ∈ ty.freevars, τ v = τ' v := by
  induction h with
  | nil => simp
  | cons hd _ ih =>
    cases h' with
    | cons hd' htl =>
      rw [forall_mem_cons]
      exact ⟨Ty.eq_of_vMap_eq _ (hdisj _ _ _ hd hd'), ih htl⟩

section Accepted

variable (hI : I.Sound) (hidl : ∀ id ∈ idl, ClausesTyped S (idl.map Prod.fst) id)

include hI hidl

theorem derivedAt_typed (hid : id ∈ idl) (h : DerivedAt I id τ ds) : I.Typed τ id.1.lsArgs ds := by
  obtain ⟨ρ, hρ⟩ := hI.exists_typedVal τ
  obtain ⟨ax, hax, hder⟩ := ((hidl id hid).derivedAt_iff ρ).mp h
  obtain ⟨_, hcl, hty⟩ := hidl id hid ax hax
  exact hder.typed hI hcl hρ hty .nil

/-- The clauses are true if the predicates contain what they derive. -/
theorem clauses_valid_iff : (∀ id ∈ idl, ∀ ax ∈ id.2, I.Valid ax.2) ↔
    ∀ id ∈ idl, ∀ τ ds, DerivedAt I id τ ds → I.pr id.1 ds := by
  constructor
  · intro h id hid τ ds hder
    obtain ⟨ρ, hρ⟩ := hI.exists_typedVal τ
    obtain ⟨ax, hax, hder⟩ := ((hidl id hid).derivedAt_iff ρ).mp hder
    obtain ⟨_, hcl, hty⟩ := hidl id hid ax hax
    exact (eval_clause_iff hcl [] hty).mp (h id hid ax hax τ ρ hρ) ds hder
  · intro h id hid ax hax τ ρ _
    obtain ⟨_, hcl, hty⟩ := hidl id hid ax hax
    exact (eval_clause_iff hcl [] hty).mpr fun ds hder => h id hid τ ds ⟨ax, hax, ρ, hder⟩

/-- The axioms that replace a declaration are true in the fixpoints for which the hidden type
variables do not matter. -/
theorem axioms_iff (hdisj : I.Disjoint) (hnodup : (idl.map Prod.fst).Nodup) :
    ((∀ id ∈ idl, ∀ ax ∈ id.2, I.Valid ax.2) ∧ ∀ id ∈ idl, ∀ τ ds, I.Typed τ id.1.lsArgs ds →
      I.pr id.1 ds → DerivedAt I id τ ds) ↔ I.Fixpoint idl ∧ I.TypeBlind idl := by
  rw [clauses_valid_iff hI hidl]
  constructor
  · rintro ⟨hclosed, hinv⟩
    refine ⟨?_, ?_⟩
    · intro ls hls τ ds hds
      obtain ⟨id, hid, rfl⟩ := mem_map.mp hls
      rw [consequences_iff]
      constructor
      · exact fun hpr => ⟨id, hid, rfl, τ, hinv id hid τ ds hds hpr⟩
      · rintro ⟨id', hid', heq, τ', hder⟩
        exact heq ▸ hclosed id' hid' τ' ds hder
    · intro id hid τ τ' ds hτ hder
      refine hinv id hid τ' ds ?_ (hclosed id hid τ ds hder)
      exact (derivedAt_typed hI hidl hid hder).congr hτ
  · rintro ⟨hfix, hblind⟩
    have hfix' : ∀ id ∈ idl, ∀ τ ds, I.Typed τ id.1.lsArgs ds →
        (I.pr id.1 ds ↔ ∃ τ', DerivedAt I id τ' ds) := by
      intro id hid τ ds hds
      rw [hfix id.1 (mem_map_of_mem hid) τ ds hds, consequences_iff]
      constructor
      · rintro ⟨id', hid', heq, τ', hder⟩
        obtain rfl := inj_on_of_nodup_map hnodup hid' hid heq
        exact ⟨τ', hder⟩
      · rintro ⟨τ', hder⟩
        exact ⟨id, hid, rfl, τ', hder⟩
    refine ⟨?_, ?_⟩
    · intro id hid τ ds hder
      exact (hfix' id hid τ ds (derivedAt_typed hI hidl hid hder)).mpr ⟨τ, hder⟩
    · intro id hid τ ds hds hpr
      obtain ⟨τ', hder⟩ := (hfix' id hid τ ds hds).mp hpr
      refine hblind id hid τ' τ ds ?_ hder
      exact typeVars_eq_of_typed hdisj (derivedAt_typed hI hidl hid hder) hds

end Accepted

/-! ## The axioms of a declaration -/

theorem createPropDecl_ok (k : PropKind) (pr : PrSymbol) (hf : WellTyped S [] f none)
    (hfv : f.freeVars = []) : createPropDecl k pr f = .ok (.dprop k pr f) := by
  refine bind_eq_ok.mpr ⟨f, ?_, rfl⟩
  refine bind_eq_ok.mpr ⟨(), ?_, tProp_of_wellTyped hf⟩
  rw [hfv]
  rfl

theorem imps_ok (hidl : ∀ id ∈ idl, ClausesTyped S (idl.map Prod.fst) id) :
    imps idl = .ok ((idl.flatMap Prod.snd).map fun ax => .dprop PropKind.paxiom ax.1 ax.2) := by
  rw [imps, mapM_eq_ok, forall₂_map_right_iff, forall₂_same]
  intro ax hax
  obtain ⟨id, hid, hax⟩ := mem_flatMap.mp hax
  obtain ⟨hfv, _, hty⟩ := hidl id hid ax hax
  exact createPropDecl_ok PropKind.paxiom ax.1 hty hfv

theorem Says.valid_iff (hI : I.Sound) {Q : TyVal → Prop} (h : Says S I [] f fun τ _ => Q τ) :
    I.Valid f ↔ ∀ τ, Q τ := by
  constructor
  · intro hf τ
    obtain ⟨ρ, hρ⟩ := hI.exists_typedVal τ
    exact (h.holds hρ).mp (hf τ ρ hρ)
  · exact fun hQ τ ρ hρ => (h.holds hρ).mpr (hQ τ)

theorem invs_spec (hI : I.Sound) {sps : List LSymbol}
    (hidl : ∀ id ∈ idl, id.2 ≠ [] ∧ ClausesTyped S sps id) (n : ℕ) :
    ∃ dl, invs n idl = .ok dl ∧ ((∀ d ∈ dl, I.Satisfies d) ↔ ∀ id ∈ idl, ∀ τ ds,
      I.Typed τ id.1.lsArgs ds → I.pr id.1 ds → DerivedAt I id τ ds) := by
  induction idl generalizing n with
  | nil => exact ⟨[], rfl, by simp⟩
  | cons id idl ih =>
    rw [forall_mem_cons] at hidl
    obtain ⟨f, hf, hsaid⟩ := inversion_says hI (n + 1) hidl.1.1 hidl.1.2
    obtain ⟨dl, hdl, hiff⟩ := ih hidl.2 (n + 1)
    have hfv : f.freeVars = [] := eq_nil_iff_forall_not_mem.mpr fun v hv =>
      not_mem_nil (hsaid.vars v hv)
    refine ⟨.dprop PropKind.paxiom ⟨⟨n⟩⟩ f :: dl, ?_, ?_⟩
    · exact bind₂_eq_ok.mpr ⟨_, bind_eq_ok.mpr ⟨f, hf,
        createPropDecl_ok PropKind.paxiom ⟨⟨n⟩⟩ hsaid.typed hfv⟩, dl, hdl, rfl⟩
    · rw [forall_mem_cons, forall_mem_cons, hiff]
      exact and_congr_left fun _ => hsaid.valid_iff hI

/-- A declaration that has been accepted, with well-typed clauses. -/
structure Accepted (S : DataSig) (s : IndSign) (idl : List IndDecl) : Prop where
  created : createIndDecl s idl = .ok (.dind s idl)
  typed : ∀ id ∈ idl, ∀ ax ∈ id.2, WellTyped S [] ax.2 none

theorem Accepted.clausesTyped (h : Accepted S s idl) :
    ∀ id ∈ idl, ClausesTyped S (idl.map Prod.fst) id := by
  intro id hid ax hax
  obtain ⟨hfv, hcl⟩ := (createIndDecl_spec h.created).2 id hid ax hax
  exact ⟨hfv, hcl, h.typed id hid ax hax⟩

theorem Accepted.elim_spec (h : Accepted S s idl) (hI : I.Sound) (hdisj : I.Disjoint) (n : ℕ) :
    ∃ dl, elim n (.dind s idl) = .ok (n + idl.length, dl) ∧
      ((∀ d ∈ dl, I.Satisfies d) ↔ I.Fixpoint idl ∧ I.TypeBlind idl) := by
  have hidl := h.clausesTyped
  obtain ⟨dl, hdl, hiff⟩ := invs_spec hI (fun id hid =>
    ⟨createIndDecl_ne_nil h.created id hid, hidl id hid⟩) n
  refine ⟨_, bind₂_eq_ok.mpr ⟨_, imps_ok hidl, dl, hdl, rfl⟩, ?_⟩
  rw [← axioms_iff hI hidl hdisj (createIndDecl_nodup h.created), ← hiff]
  simp only [forall_mem_append, forall_mem_map, mem_flatMap, Satisfies,
    implies_true, true_and, forall_exists_index, and_imp]
  refine and_congr_left fun _ => ⟨fun h id hid ax hax => h ax id hid hax, fun h ax id hid hax =>
    h id hid ax hax⟩

/-! ## Least and greatest fixpoints -/

section Fixpoints

variable {s : IndSign} (h : Accepted S s idl) (hI : I.Sound)

include h hI

theorem Accepted.fixpoint_of_least (hleast : I.LeastFixpoint idl) : I.Fixpoint idl := by
  have hidl := h.clausesTyped
  have hclosed := (clauses_valid_iff hI hidl).mp hleast.closed
  have hpr : ∀ ls ds, I.consequences idl I.pr ls ds → I.pr ls ds := by
    intro ls ds hds
    obtain ⟨id, hid, rfl, τ, hder⟩ := consequences_iff.mp hds
    exact hclosed id hid τ ds hder
  intro ls hls τ ds hds
  refine ⟨hleast.least (I.consequences idl I.pr) ?_ ls hls τ ds hds, hpr ls ds⟩
  -- what is derived from consequences is a consequence
  intro id hid ax hax τ ρ _
  obtain ⟨hfv, hcl, hty⟩ := hidl id hid ax hax
  have hmem : id.1 ∈ idl.map Prod.fst := mem_map_of_mem hid
  refine (eval_clause_iff hcl [] hty).mpr fun ds hder => ?_
  simp only [withPr, if_pos hmem]
  exact ⟨id, hid, rfl, ax, hax, τ, ρ,
    hder.mono hcl (withPr_grows hmem fun ls _ ds => hpr ls ds) hfv⟩

theorem Accepted.fixpoint_of_greatest (hgreatest : I.GreatestFixpoint idl) : I.Fixpoint idl := by
  have hclosed := (clauses_valid_iff hI h.clausesTyped).mp hgreatest.closed
  intro ls hls τ ds hds
  refine ⟨hgreatest.reproduced ls hls τ ds hds, fun hcons => ?_⟩
  obtain ⟨id, hid, rfl, τ, hder⟩ := consequences_iff.mp hcons
  exact hclosed id hid τ ds hder

theorem Accepted.fixpoint (hsat : I.Satisfies (.dind s idl)) : I.Fixpoint idl := by
  cases s with
  | ind => exact h.fixpoint_of_least hI hsat
  | coind => exact h.fixpoint_of_greatest hI hsat

end Fixpoints

/-! ## Tasks -/

def Task.IndAccepted (S : DataSig) (task : Task) : Prop :=
  ∀ s idl, .dind s idl ∈ task.taskDecls → Accepted S s idl

/-- A model of the task, in which hidden type variables do not matter, is a model of the
transformed task. -/
theorem models_eliminateInductive (hacc : task.IndAccepted S)
    (h : eliminateInductive n task = .ok task') (hI : I.Models task.taskDecls)
    (hblind : ∀ s idl, .dind s idl ∈ task.taskDecls → I.TypeBlind idl) :
    I.Models task'.taskDecls := by
  refine ⟨hI.sound, hI.disjoint, fun d' hd' => ?_⟩
  obtain ⟨out, hout, hsub⟩ := transDecl_sublist h
  obtain ⟨d, hd, m, m', dl, helim, hd'⟩ := mem_declOutputs hout (hsub.subset hd')
  have hsat := hI.decls d hd
  cases d with
  | dind s idl =>
    obtain ⟨dl', hdl', hiff⟩ := (hacc s idl hd).elim_spec hI.sound hI.disjoint m
    cases hdl'.symm.trans helim
    exact hiff.mpr ⟨(hacc s idl hd).fixpoint hI.sound hsat, hblind s idl hd⟩ d' hd'
  | _ =>
    cases helim
    exact mem_singleton.mp hd' ▸ hsat

theorem isGoal_of_createPropDecl {d : Decl} (h : createPropDecl PropKind.paxiom pr f = .ok d) :
    d.isGoal = false := by
  obtain ⟨g, _, h⟩ := bind_eq_ok.mp h
  cases h
  rfl

theorem isGoal_of_mem_invs : ∀ {idl : List IndDecl} {n : ℕ} {dl : List Decl},
    invs n idl = .ok dl → ∀ d ∈ dl, d.isGoal = false
  | [], n, dl, h => by
    cases h
    simp
  | id :: idl, n, dl, h => by
    obtain ⟨d, hd, dl', hdl', h⟩ := bind₂_eq_ok.mp h
    cases h
    obtain ⟨f, _, hd⟩ := bind_eq_ok.mp hd
    rw [forall_mem_cons]
    exact ⟨isGoal_of_createPropDecl hd, isGoal_of_mem_invs hdl'⟩

theorem isGoal_of_mem_elim {m : ℕ} {dl : List Decl} (h : elim n (.dind s idl) = .ok (m, dl)) :
    ∀ d ∈ dl, d.isGoal = false := by
  obtain ⟨dl₁, h₁, dl₂, h₂, h⟩ := bind₂_eq_ok.mp h
  cases h
  rw [forall_mem_append, forall_mem_append, forall_mem_map]
  refine ⟨⟨fun _ _ => rfl, fun d hd => ?_⟩, isGoal_of_mem_invs h₂⟩
  obtain ⟨ax, _, hax⟩ := forall₂_mem_right (mapM_eq_ok.mp h₁) hd
  exact isGoal_of_createPropDecl hax

theorem findGoal_eliminateInductive (htask : task.Built) (h : eliminateInductive n task = .ok task')
    (hgoal : task'.findGoal = some (pr, f)) : task.findGoal = some (pr, f) := by
  obtain ⟨hyps, hdecls⟩ := Task.taskDecls_of_findGoal hgoal
  obtain ⟨out, hout, hsub⟩ := transDecl_sublist h
  obtain ⟨d, hd, m, m', dl, helim, hd'⟩ := mem_declOutputs hout
    (hsub.subset (hdecls ▸ mem_append_right _ (mem_singleton_self _)))
  cases d with
  | dind s idl => cases isGoal_of_mem_elim helim _ hd'
  | _ =>
    cases helim
    exact htask.findGoal_eq (mem_singleton.mp hd' ▸ hd)

/-- The axioms that replace an accepted declaration are true in exactly the fixpoints of its
clauses, provided that what the clauses derive in a fixpoint does not depend on hidden type
variables. There are none to hide if all type variables of the clauses occur in the types of
the arguments. Valid tasks are then transformed from valid ones only. -/
theorem elim_iff_fixpoint {s : IndSign} (h : Accepted S s idl) (n : ℕ) :
    (∃ dl, elim n (.dind s idl) = .ok (n + idl.length, dl) ∧
      ∀ (D : Type) (I : Interp D), I.Sound → I.Disjoint →
        (((∀ d ∈ dl, I.Satisfies d) ↔ I.Fixpoint idl) ↔ (I.Fixpoint idl → I.TypeBlind idl))) ∧
      (NoHiddenTypeVar idl → ∀ (D : Type) (I : Interp D), I.TypeBlind idl) ∧
      ∀ task task' : Task, task.Built → task.IndAccepted S →
        eliminateInductive n task = .ok task' →
        (∀ (D : Type) (I : Interp D), I.Models task.taskDecls →
          ∀ s idl, .dind s idl ∈ task.taskDecls → I.TypeBlind idl) →
        task'.Valid → task.Valid := by
  refine ⟨?_, fun hhidden D I => hhidden.typeBlind, ?_⟩
  · -- the declarations do not depend on the interpretation
    obtain ⟨dl, hdl, _⟩ := h.elim_spec Capture.codes_sound Capture.codes_disjoint n
    refine ⟨dl, hdl, fun D I hI hdisj => ?_⟩
    obtain ⟨dl', hdl', hiff⟩ := h.elim_spec hI hdisj n
    cases hdl.symm.trans hdl'
    rw [hiff, and_iff_left_iff_imp]
  · rintro task task' htask hacc helim hblind ⟨pr, f, hgoal, hvalid⟩
    refine ⟨pr, f, findGoal_eliminateInductive htask helim hgoal, fun D I hI => ?_⟩
    exact hvalid D I (models_eliminateInductive hacc helim hI (hblind D I hI))

theorem accepted_even : Accepted peanoSig .ind evenDecl where
  created := rfl
  typed := by
    have happ : ∀ {Γ : List Ty} (ls : LSymbol) {tl : List Term}, ls ∈ [fsZero, fsSucc, psEven] →
        tl.map tTy = ls.lsArgs.map some → (∀ t ∈ tl, ∃ o, WellTyped peanoSig Γ t o) →
        WellTyped peanoSig Γ (tapp [] ls tl ls.lsValue) ls.lsValue := by
      intro Γ ls tl hls htys htl
      have hconstr : ls.lsConstr = 0 ∨ ∃ ts, ls ∈ peanoSig.constrs ts := by
        simp only [mem_cons, not_mem_nil, or_false] at hls
        rcases hls with rfl | rfl | rfl
        · exact .inr ⟨tsNat, by decide⟩
        · exact .inr ⟨tsNat, by decide⟩
        · exact .inl rfl
      have hmatch : ArgsMatch .tyvar ls tl := by
        rw [ArgsMatch, htys]
        simp [Ty.vMap_tyvar_eq_self]
      have := WellTyped.of_argsMatch (Γ := Γ) [] hconstr hmatch htl
      rwa [show ls.lsValue.map (Ty.vMap .tyvar) = ls.lsValue by
        cases ls.lsValue <;> simp [Ty.vMap_tyvar_eq_self]] at this
    have hzero : ∀ {Γ}, WellTyped peanoSig Γ (tapp [] fsZero [] (some tyNat)) (some tyNat) :=
      happ fsZero (by simp) rfl (by simp)
    have hsucc : ∀ {Γ t}, WellTyped peanoSig Γ t (some tyNat) →
        WellTyped peanoSig Γ (tapp [] fsSucc [t] (some tyNat)) (some tyNat) := fun {Γ t} ht =>
      happ fsSucc (by simp) (by simp [ht.tTy_eq, fsSucc]) (by simpa using ⟨_, ht⟩)
    have heven : ∀ {Γ t}, WellTyped peanoSig Γ t (some tyNat) →
        WellTyped peanoSig Γ (tapp [] psEven [t] none) none := fun {Γ t} ht =>
      happ psEven (by simp) (by simp [ht.tTy_eq, psEven]) (by simpa using ⟨_, ht⟩)
    have hn : WellTyped peanoSig [tyNat] (tbnd [] 0 tyNat) (some tyNat) := .tbnd [] rfl
    simp only [evenDecl, mem_singleton, forall_eq, forall_mem_cons]
    exact ⟨heven hzero, .tquant [] _ (by simp) (.tbinop [] _ (heven hn) (heven (hsucc (hsucc hn))))⟩

/-- The axioms for the even numbers. -/
theorem elim_iff_fixpoint_even : ∃ dl, elim 50 (.dind .ind evenDecl) = .ok (51, dl) ∧
    ∀ (D : Type) (I : Interp D), I.Sound → I.Disjoint →
      ((∀ d ∈ dl, I.Satisfies d) ↔ I.Fixpoint evenDecl) := by
  have hhidden : NoHiddenTypeVar evenDecl := by
    unfold NoHiddenTypeVar
    decide
  obtain ⟨⟨dl, hdl, hiff⟩, hblind, _⟩ := elim_iff_fixpoint accepted_even 50
  exact ⟨dl, hdl, fun D I hI hdisj => (hiff D I hI hdisj).mpr fun _ => hblind hhidden D I⟩

/-! ## A hidden type variable -/

namespace Capture

theorem accepted : Accepted peanoSig .ind decl where
  created := rfl
  typed id hid ax hax := ((codes_indModel psP decl rfl).2.1 id hid ax hax)

/-- The value that the clause derives depends on the type of the constant. -/
theorem codes_derivedAt (hid : id ∈ decl) (τ : TyVal) (ds : List (Ty × ℕ)) :
    DerivedAt codes id τ ds ↔ ds = [(tyInt, if τ tvB = tyBool then 1 else 0)] := by
  rw [decl, mem_singleton] at hid
  subst hid
  have hval := fun ρ => codes_tG_k τ ρ codes.pr
  simp only [withPr_self] at hval
  simp [DerivedAt, Derives, hval]

theorem codes_not_typeBlind : ¬ codes.TypeBlind decl := by
  intro h
  have hder := h _ (mem_singleton_self _) (fun _ => tyBool) (fun _ => tyInt) [(tyInt, 1)]
    (by simp [psP, tyInt, Ty.freevars, Ty.freevarsList]) (by simp [codes_derivedAt
      (mem_singleton_self _)])
  rw [codes_derivedAt (mem_singleton_self _)] at hder
  simp [tyInt, tyBool, tsInt, tsBool] at hder

/-- The least predicate that the clause allows does not satisfy the axioms: `g` has different
values at different types, and the inversion axiom claims each of them for all elements. -/
theorem elim_not_fixpoint : createIndDecl .ind decl = .ok (.dind .ind decl) ∧
    codes.Sound ∧ codes.Disjoint ∧ codes.LeastFixpoint decl ∧ codes.Fixpoint decl ∧
      ∃ dl, elim 60 (.dind .ind decl) = .ok (61, dl) ∧ ¬ ∀ d ∈ dl, codes.Satisfies d := by
  obtain ⟨dl, hdl, hiff⟩ := accepted.elim_spec codes_sound codes_disjoint 60
  refine ⟨rfl, codes_sound, codes_disjoint, codes_leastFixpoint,
    accepted.fixpoint codes_sound codes_leastFixpoint, dl, hdl, fun hall => ?_⟩
  exact codes_not_typeBlind (hiff.mp hall).2

end Capture

end Why3
