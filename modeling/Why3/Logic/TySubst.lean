import Why3.Core.TySubst
import Why3.Logic.Match

/-!
# The meaning of terms under a substitution of types

A term in which types are substituted for the type variables means what the term means
when its type variables stand for those types. In particular the meaning of a term
depends on the type variables that occur in it only.
-/

namespace Why3

open Lib Term Interp List

variable {D : Type} {I : Interp D} {τ τ' : TyVal} {σ : TyVal} {m : VSymbol → VSymbol}
variable {fnT : Ty → Ty} {ρ : VSymbol → D}
variable {b ds : List D}

/-! ## Types -/

def TyAgree (σ τ τ' : TyVal) (tvl : List TvSymbol) : Prop := ∀ v ∈ tvl, (σ v).vMap τ = τ' v

theorem TyAgree.vMap {ty : Ty} (h : TyAgree σ τ τ' ty.freevars) :
    (ty.vMap σ).vMap τ = ty.vMap τ' := by
  rw [Ty.vMap_vMap]
  exact Ty.vMap_congr ty h

theorem tyAgree_append {l l' : List TvSymbol} :
    TyAgree σ τ τ' (l ++ l') ↔ TyAgree σ τ τ' l ∧ TyAgree σ τ τ' l' :=
  forall_mem_append

theorem typed_map_genMap {tyl : List Ty} (h : ∀ ty ∈ tyl, TyAgree σ τ τ' ty.freevars) :
    I.Typed τ (tyl.map (Ty.vMap σ)) ds ↔ I.Typed τ' tyl ds := by
  rw [typed_map_vMap]
  exact typed_congr fun ty hty => h ty hty

/-! ## Patterns -/

namespace Pattern

theorem patTy_genMap (hm : ∀ v, (m v).vsTy = fnT v.vsTy) (p : Pattern) :
    (p.genMap fnT m).patTy = fnT p.patTy := by
  cases p with
  | pvar v => exact hm v
  | pas p v => exact hm v
  | por p q => exact patTy_genMap hm p
  | _ => rfl

theorem map_patTy_genMapList (hm : ∀ v, (m v).vsTy = fnT v.vsTy) (pl : List Pattern) :
    (genMapList fnT m pl).map patTy = (pl.map patTy).map fnT := by
  rw [genMapList_eq_map, map_map, map_map]
  exact map_congr_left fun p _ => patTy_genMap hm p

theorem vars_genMap (p : Pattern) : (p.genMap fnT m).vars = p.vars.map m := by
  induction p using inductionOn with
  | papp _ pl _ ih =>
    simp only [genMap, vars, genMapList_eq_map, varsList_eq_flatMap, flatMap_map, map_flatMap]
    exact flatMap_congr ih
  | _ => simp_all [genMap, vars]

theorem freevars_patTy (p : Pattern) : ∀ v ∈ p.patTy.freevars, v ∈ p.tyFreevars := by
  intro v hv
  cases p with
  | pwild ty => exact hv
  | pvar x => exact hv
  | papp fs pl ty | pas p x => exact mem_append_left _ hv
  | por p q => exact mem_append_left _ (mem_append_left _ hv)

theorem mem_tyFreevarsList {p : Pattern} {pl : List Pattern} (hp : p ∈ pl) :
    ∀ v ∈ p.tyFreevars, v ∈ tyFreevarsList pl := by
  intro v hv
  rw [tyFreevarsList_eq]
  exact mem_flatMap.mpr ⟨p, hp, hv⟩

theorem freevars_vars (p : Pattern) : ∀ x ∈ p.vars, ∀ v ∈ x.vsTy.freevars, v ∈ p.tyFreevars := by
  induction p using inductionOn with
  | _ =>
    simp only [vars, varsList_eq_flatMap, tyFreevars, tyFreevarsList_eq, mem_append, mem_flatMap]
    grind

end Pattern

open Pattern

mutual

theorem matchPat_genMap (hm : ∀ v, (m v).vsTy = v.vsTy.vMap σ) : ∀ (p : Pattern) (d : D),
    TyAgree σ τ τ' p.tyFreevars → I.matchPat τ (p.genMap (Ty.vMap σ) m) d =
      (I.matchPat τ' p d).map (List.map (Prod.map m id))
  | .pwild _, d, _ | .pvar v, d, _ => by simp [Pattern.genMap, matchPat]
  | .papp fs pl ty, d, h => by
    obtain ⟨hty, hpl⟩ := tyAgree_append.mp h
    have hargs := matchPatList_genMap hm pl
    have hex : ∀ ds, (I.Typed τ ((Pattern.genMapList (Ty.vMap σ) m pl).map patTy) ds ∧
        I.fn fs ((ty.vMap σ).vMap τ) ds = d) =
        (I.Typed τ' (pl.map patTy) ds ∧ I.fn fs (ty.vMap τ') ds = d) := by
      intro ds
      rw [map_patTy_genMapList hm, hty.vMap, typed_map_genMap]
      intro pty hpty v hv
      obtain ⟨p, hp, rfl⟩ := mem_map.mp hpty
      exact hpl v (mem_tyFreevarsList hp v (freevars_patTy p v hv))
    simp only [Pattern.genMap, matchPat, apply_dite (Option.map _), Option.map_none]
    exact dite_choose_congr (funext hex) (funext fun ds => hargs ds hpl)
  | .por p q, d, h => by
    obtain ⟨h, hq⟩ := tyAgree_append.mp h
    simp only [Pattern.genMap, matchPat]
    rw [matchPat_genMap hm p d (tyAgree_append.mp h).2, matchPat_genMap hm q d hq]
    cases I.matchPat τ' p d <;> rfl
  | .pas p v, d, h => by
    simp only [Pattern.genMap, matchPat]
    rw [matchPat_genMap hm p d (tyAgree_append.mp h).2]
    cases I.matchPat τ' p d <;> simp

theorem matchPatList_genMap (hm : ∀ v, (m v).vsTy = v.vsTy.vMap σ) :
    ∀ (pl : List Pattern) (ds : List D), TyAgree σ τ τ' (tyFreevarsList pl) →
      I.matchPatList τ (Pattern.genMapList (Ty.vMap σ) m pl) ds =
        (I.matchPatList τ' pl ds).map (List.map (Prod.map m id))
  | [], [], _ => rfl
  | [], _ :: _, _ => rfl
  | _ :: _, [], _ => rfl
  | p :: pl, d :: ds, h => by
    obtain ⟨hp, hpl⟩ := tyAgree_append.mp h
    rw [Pattern.genMapList, matchPatList_cons, matchPatList_cons, matchPat_genMap hm p d hp,
      matchPatList_genMap hm pl ds hpl]
    cases I.matchPat τ' p d with
    | none => rfl
    | some β =>
      cases I.matchPatList τ' pl ds with
      | none => rfl
      | some β' => simp

end

theorem values_genMap (p : Pattern) (h : TyAgree σ τ τ' p.tyFreevars) (β : List (VSymbol × D)) :
    I.values τ (β.map (Prod.map (p.genVar (Ty.vMap σ)) id)) (p.vars.map (p.genVar (Ty.vMap σ))) =
      I.values τ' β p.vars := by
  unfold values
  rw [map_map]
  apply map_congr_left
  intro v hv
  have hlt := idxOf_lt_length_of_mem hv
  have hkey : ∀ u, p.genVar (Ty.vMap σ) u = p.genVar (Ty.vMap σ) v → u = v := by
    intro u heq
    have hidx : p.vars.idxOf u = p.vars.idxOf v := congrArg (fun x => x.vsName.idTag) heq
    exact (idxOf_inj (idxOf_lt_length_iff.mp (hidx ▸ hlt))).mp hidx
  have hlookup : (β.map (Prod.map (p.genVar (Ty.vMap σ)) id)).lookup (p.genVar (Ty.vMap σ) v) =
      β.lookup v := by
    induction β with
    | nil => rfl
    | cons x β ih =>
      rw [map_cons, Prod.map, lookup_cons, lookup_cons, ih]
      by_cases hx : v = x.1
      · simp [hx]
      · have hne : (p.genVar (Ty.vMap σ) v == p.genVar (Ty.vMap σ) x.1) = false := by
          simpa using fun heq => hx (hkey x.1 heq.symm).symm
        have hne' : (v == x.1) = false := by simpa using hx
        rw [hne, hne']
  have hty : (p.genVar (Ty.vMap σ) v).vsTy.vMap τ = v.vsTy.vMap τ' :=
    TyAgree.vMap fun w hw => h w (freevars_vars p v hv w hw)
  rw [Function.comp_apply, hlookup, hty]

/-! ## Terms -/

theorem typed_genMap_vars {vl : List VSymbol}
    (h : TyAgree σ τ τ' (vl.flatMap fun v => v.vsTy.freevars)) :
    I.Typed τ ((vl.map fun v => (⟨v.vsName, v.vsTy.vMap σ⟩ : VSymbol)).map VSymbol.vsTy) ds ↔
      I.Typed τ' (vl.map VSymbol.vsTy) ds := by
  have hmap : (vl.map fun v => (⟨v.vsName, v.vsTy.vMap σ⟩ : VSymbol)).map VSymbol.vsTy =
      (vl.map VSymbol.vsTy).map (Ty.vMap σ) := by
    rw [map_map, map_map]
    rfl
  rw [hmap, typed_map_genMap]
  intro ty hty v hv
  obtain ⟨x, hx, rfl⟩ := mem_map.mp hty
  exact h v (mem_flatMap.mpr ⟨x, hx, hv⟩)

theorem map_eval_genMap {tl : List Term}
    (h : ∀ t ∈ tl, I.eval τ ρ b (t.genMap (Ty.vMap σ) m) = I.eval τ' (fun v => ρ (m v)) b t) :
    ((Term.genMapList (Ty.vMap σ) m tl).map fun t => (I.eval τ ρ b t).1) =
      tl.map fun t => (I.eval τ' (fun v => ρ (m v)) b t).1 := by
  rw [Term.genMapList_eq_map, map_map]
  exact map_congr_left fun t ht => congrArg Prod.fst (h t ht)

/-- The meaning of a term under a map of its types and its free variables. -/
theorem eval_genMap (t : Term) (b : List D) (h : TyAgree σ τ τ' t.tyFreevars) :
    I.eval τ ρ b (t.genMap (Ty.vMap σ) m) = I.eval τ' (fun v => ρ (m v)) b t := by
  induction t using Term.inductionOn generalizing b with
  | tconst a c ty => rw [Term.genMap, eval_tconst, eval_tconst, TyAgree.vMap h]
  | tapp a ls tl ty ih =>
    obtain ⟨hty, htl⟩ := tyAgree_append.mp h
    have hargs := map_eval_genMap fun t ht =>
      ih t ht b fun v hv => htl v (Term.mem_tyFreevarsList.mpr ⟨t, ht, hv⟩)
    cases ty with
    | none => rw [Term.genMap, Option.map_none, eval_tapp_none, eval_tapp_none, hargs]
    | some ty =>
      rw [Term.genMap, Option.map_some, eval_tapp_some, eval_tapp_some, hargs, TyAgree.vMap hty]
  | tif a f t e ihf iht ihe =>
    obtain ⟨h, he⟩ := tyAgree_append.mp h
    obtain ⟨hf, ht⟩ := tyAgree_append.mp h
    rw [Term.genMap, eval_tif, eval_tif, ihf b hf, iht b ht, ihe b he]
  | tlet a t v e iht ihe =>
    obtain ⟨ht, he⟩ := tyAgree_append.mp h
    rw [Term.genMap, eval_tlet, eval_tlet, iht b ht, ihe _ he]
  | tcase a t bl iht ihb =>
    obtain ⟨ht, hbl⟩ := tyAgree_append.mp h
    rw [Term.genMap, eval_tcase, eval_tcase, iht b ht, genMapBranches_eq_map]
    refine evalBranches_congr I τ rfl fun p u hb => ?_
    have hp : TyAgree σ τ τ' p.tyFreevars := fun v hv =>
      hbl v (mem_tyFreevarsBranches.mpr ⟨_, hb, .inl hv⟩)
    have hu : TyAgree σ τ τ' u.tyFreevars := fun v hv =>
      hbl v (mem_tyFreevarsBranches.mpr ⟨_, hb, .inr hv⟩)
    rw [matchPat_genMap (fun _ => rfl) p _ hp, vars_genMap, ihb p u hb _ hu]
    cases I.matchPat τ' p _ with
    | none => exact ⟨rfl, congrArg (fun ds => I.eval τ' _ (ds ++ b) u) (values_genMap p hp [])⟩
    | some β => exact ⟨rfl, congrArg (fun ds => I.eval τ' _ (ds ++ b) u) (values_genMap p hp β)⟩
  | teps a v f ih =>
    obtain ⟨hv, hf⟩ := tyAgree_append.mp h
    simp only [Term.genMap, eval_teps, TyAgree.vMap hv, ih _ hf]
  | tquant a q vl trl f _ ih =>
    obtain ⟨h, hf⟩ := tyAgree_append.mp h
    have hvl : ∀ ds, I.Typed τ ((vl.map fun v => (⟨v.vsName, v.vsTy.vMap σ⟩ : VSymbol)).map
        VSymbol.vsTy) ds ↔ I.Typed τ' (vl.map VSymbol.vsTy) ds :=
      fun ds => typed_genMap_vars (tyAgree_append.mp h).1
    cases q with
    | tforall => simp only [Term.genMap, eval_forall, hvl, ih _ hf]
    | texists => simp only [Term.genMap, eval_exists, hvl, ih _ hf]
  | tbinop a op f g ihf ihg =>
    obtain ⟨hf, hg⟩ := tyAgree_append.mp h
    cases op <;> simp [Term.genMap, ihf b hf, ihg b hg]
  | tnot a f ih => rw [Term.genMap, eval_tnot, eval_tnot, ih b h]
  | _ => rfl

theorem eval_tyCongr {t : Term} (h : ∀ v ∈ t.tyFreevars, τ v = τ' v) :
    I.eval τ ρ b t = I.eval τ' ρ b t := by
  have h₁ : I.eval τ ρ b (t.genMap (Ty.vMap .tyvar) id) = I.eval τ ρ b t :=
    eval_genMap t b fun v _ => rfl
  have h₂ : I.eval τ ρ b (t.genMap (Ty.vMap .tyvar) id) = I.eval τ' ρ b t := eval_genMap t b h
  exact h₁.symm.trans h₂

end Why3
