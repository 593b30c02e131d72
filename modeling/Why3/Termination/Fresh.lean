import Why3.Core.Lambda
import Why3.Core.Termination
import Why3.Logic.TySubst

/-!
# Patterns with fresh variables

Opening a branch renames the variables of its pattern. The renamed pattern matches
the same values, and binds the new variables to what the old ones are bound to.
-/

namespace Why3

open Lib Interp List

variable {vl : List VSymbol} {n : ℕ}

/-! ## Fresh variables -/

attribute [local simp] freshLike

theorem freshLike_eq_freshOf (n : ℕ) (vl : List VSymbol) :
    freshLike n vl = Term.freshOf n (vl.map VSymbol.vsTy) := by
  induction vl generalizing n with
  | nil => rfl
  | cons v vl ih => rw [freshLike, ih, map_cons, Term.freshOf]

theorem length_freshLike (n : ℕ) (vl : List VSymbol) : (freshLike n vl).length = vl.length := by
  rw [freshLike_eq_freshOf, Term.length_freshOf, length_map]

theorem map_vsTy_freshLike (n : ℕ) (vl : List VSymbol) :
    (freshLike n vl).map VSymbol.vsTy = vl.map VSymbol.vsTy := by
  rw [freshLike_eq_freshOf, Term.map_vsTy_freshOf]

theorem idTag_of_mem_freshLike {u : VSymbol} (hu : u ∈ freshLike n vl) :
    n ≤ u.vsName.idTag ∧ u.vsName.idTag < n + vl.length := by
  rw [freshLike_eq_freshOf] at hu
  rw [← length_map VSymbol.vsTy]
  exact Term.mem_freshOf hu

theorem not_mem_freshLike {v : VSymbol} (hv : v.vsName.idTag < n) : v ∉ freshLike n vl :=
  fun hmem => absurd (idTag_of_mem_freshLike hmem).1 (Nat.not_le.mpr hv)

theorem nodup_freshLike (n : ℕ) (vl : List VSymbol) : (freshLike n vl).Nodup :=
  freshLike_eq_freshOf n vl ▸ Term.nodup_freshOf n _

namespace Pattern

theorem map_freshVar {ul : List VSymbol} (hl : vl.length = ul.length) (hvl : vl.Nodup) :
    vl.map (freshVar vl ul) = ul := by
  apply ext_getElem?
  intro i
  rw [getElem?_map]
  cases hv : vl[i]? with
  | none =>
    rw [getElem?_eq_none_iff] at hv
    rw [Option.map_none, getElem?_eq_none (hl ▸ hv)]
  | some v =>
    have hi : i < ul.length := hl ▸ (List.getElem?_eq_some_iff.mp hv).1
    have hu : ul[i]? = some ul[i] := getElem?_eq_getElem hi
    rw [Option.map_some, hu, freshVar, lookup_zip_eq_some hvl hv hu, Option.getD_some]

theorem vsTy_freshVar (n : ℕ) (vl : List VSymbol) (v : VSymbol) :
    (freshVar vl (freshLike n vl) v).vsTy = v.vsTy := by
  induction vl generalizing n with
  | nil => rfl
  | cons w vl ih =>
    by_cases hv : v = w
    · simp [freshVar, hv]
    · have hne : (v == w) = false := by simp [hv]
      have := ih (n + 1)
      rw [freshVar] at this ⊢
      rwa [freshLike, zip_cons_cons, lookup_cons, hne]

/-! ## Renaming -/

section Rename

variable {f : VSymbol → VSymbol}

theorem renameList_eq_map (pl : List Pattern) : renameList f pl = pl.map (rename f) := by
  induction pl with
  | nil => rfl
  | cons p pl ih => rw [renameList, ih, map_cons]

theorem rename_eq_genMap (p : Pattern) : p.rename f = p.genMap (Ty.vMap .tyvar) f := by
  induction p using inductionOn with
  | papp _ pl _ ih =>
    rw [rename, genMap, renameList_eq_map, genMapList_eq_map, Ty.vMap_tyvar_eq_self,
      map_congr_left ih]
  | _ => simp_all [rename, genMap, Ty.vMap_tyvar_eq_self]

theorem patTy_rename (hf : ∀ v, (f v).vsTy = v.vsTy) (p : Pattern) :
    (p.rename f).patTy = p.patTy := by
  rw [rename_eq_genMap, patTy_genMap fun v => by rw [hf, Ty.vMap_tyvar_eq_self],
    Ty.vMap_tyvar_eq_self]

theorem map_patTy_renameList (hf : ∀ v, (f v).vsTy = v.vsTy) (pl : List Pattern) :
    (renameList f pl).map patTy = pl.map patTy := by
  rw [renameList_eq_map, map_map]
  exact map_congr_left fun p _ => patTy_rename hf p

theorem vars_rename (p : Pattern) : (p.rename f).vars = p.vars.map f := by
  rw [rename_eq_genMap, vars_genMap]

end Rename

end Pattern

open Pattern

variable {S : DataSig} {f : VSymbol → VSymbol}

/-- Distinct variables may be renamed to distinct variables of the same types. -/
theorem PatTyped.rename (hf : ∀ v, (f v).vsTy = v.vsTy) {p : Pattern} (hp : PatTyped S p) :
    (∀ v ∈ p.vars, ∀ w ∈ p.vars, f v = f w → v = w) → PatTyped S (p.rename f) := by
  induction hp with
  | pwild ty => exact fun _ => .pwild ty
  | pvar v => exact fun _ => .pvar _
  | @papp fs pl ts tl hl hfs hty hvars hpl ih =>
    intro hinj
    refine .papp hl hfs ?_ ?_ ?_
    · rw [map_patTy_renameList hf, hty]
    · have hmap : varsList (renameList f pl) = (varsList pl).map f :=
        vars_rename (.papp fs pl default)
      rw [hmap]
      exact hvars.map_on hinj
    · intro q hq
      rw [renameList_eq_map] at hq
      obtain ⟨p, hp, rfl⟩ := mem_map.mp hq
      have hsub : ∀ v ∈ p.vars, v ∈ varsList pl := by
        intro v hv
        rw [varsList_eq_flatMap]
        exact mem_flatMap.mpr ⟨p, hp, hv⟩
      exact ih p hp fun v hv w hw => hinj v (hsub v hv) w (hsub w hw)
  | @por p q hp hq hty hvars ihp ihq =>
    intro hinj
    refine .por (ihp hinj) (ihq fun v hv w hw => ?_) ?_ ?_
    · exact hinj v ((hvars v).mpr hv) w ((hvars w).mpr hw)
    · rw [patTy_rename hf, patTy_rename hf, hty]
    · intro v
      rw [vars_rename, vars_rename, mem_map, mem_map]
      simp only [hvars]
  | @pas p v hp hty hv ih =>
    intro hinj
    have hsub : ∀ w ∈ p.vars, w ∈ (Pattern.pas p v).vars :=
      fun w hw => mem_append_left _ hw
    refine .pas (ih fun w hw w' hw' => hinj w (hsub w hw) w' (hsub w' hw')) ?_ ?_
    · rw [patTy_rename hf, hf, hty]
    · rw [vars_rename]
      intro hmem
      obtain ⟨w, hw, heq⟩ := mem_map.mp hmem
      exact hv (hinj w (hsub w hw) v (mem_append_right _ (mem_singleton_self v)) heq ▸ hw)

variable {D : Type} {I : Interp D} {τ : TyVal}

theorem matchPat_rename (hf : ∀ v, (f v).vsTy = v.vsTy) (p : Pattern) (d : D) :
    I.matchPat τ (p.rename f) d = (I.matchPat τ p d).map (List.map (Prod.map f id)) := by
  rw [rename_eq_genMap]
  exact matchPat_genMap (fun v => by rw [hf, Ty.vMap_tyvar_eq_self]) p d fun _ _ => rfl

/-! ## Opened branches -/

section Fresh

variable {n : ℕ} {p : Pattern}

theorem vars_fresh (hp : PatTyped S p) : (p.fresh n).vars = freshLike n p.vars := by
  rw [Pattern.fresh, vars_rename, map_freshVar (length_freshLike n p.vars).symm hp.nodup]

theorem patTy_fresh : (p.fresh n).patTy = p.patTy :=
  patTy_rename (vsTy_freshVar n p.vars) p

theorem PatTyped.fresh (hp : PatTyped S p) : PatTyped S (p.fresh n) := by
  refine hp.rename (vsTy_freshVar n p.vars) ?_
  refine inj_on_of_nodup_map ?_
  rw [map_freshVar (length_freshLike n p.vars).symm hp.nodup]
  exact nodup_freshLike n p.vars

theorem lookup_of_rename {f : VSymbol → VSymbol} {v : VSymbol} {d : D} {β : List (VSymbol × D)}
    (hp : PatTyped S p) (hm : I.matchPat τ p d = some β)
    (hnodup : ((β.map (Prod.map f id)).map Prod.fst).Nodup) (hv : v ∈ p.vars) :
    ∃ x, β.lookup v = some x ∧ (β.map (Prod.map f id)).lookup (f v) = some x := by
  obtain ⟨x, hx⟩ := Option.isSome_iff_exists.mp
    ((TagMap.mem_keys_iff v β).mp ((matchPat_keys hp hm).mem_iff.mpr hv))
  have hx' : (f v, x) ∈ β.map (Prod.map f id) :=
    mem_map.mpr ⟨(v, x), mem_of_lookup hx, rfl⟩
  exact ⟨x, hx, (TagMap.lookup_eq_some_iff_mem hnodup _ _).mpr hx'⟩

/-- The fresh variables have the values of the variables that they stand for. -/
theorem matchPat_fresh (hp : PatTyped S p) {d : D} {β : List (VSymbol × D)}
    (hm : I.matchPat τ p d = some β) (η : VSymbol → D) :
    ∃ β', I.matchPat τ (p.fresh n) d = some β' ∧
      (freshLike n p.vars).map (assign η β') = I.values τ β p.vars := by
  have hfresh := matchPat_rename (I := I) (τ := τ) (vsTy_freshVar n p.vars) p d
  rw [hm, Option.map_some] at hfresh
  refine ⟨_, hfresh, ?_⟩
  have hkeys := matchPat_keys (hp.fresh (n := n)) hfresh
  rw [vars_fresh hp] at hkeys
  have hnodup := hkeys.nodup_iff.mpr (nodup_freshLike n p.vars)
  generalize hf : freshVar p.vars (freshLike n p.vars) = f at hnodup
  rw [← map_freshVar (length_freshLike n p.vars).symm hp.nodup, hf, map_map, values]
  apply map_congr_left
  intro v hv
  obtain ⟨x, hx, hx'⟩ := lookup_of_rename hp hm hnodup hv
  rw [Function.comp_apply, assign, hx', hx]
  rfl

end Fresh

end Why3
