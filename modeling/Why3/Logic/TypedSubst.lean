import Why3.Logic.Typing

/-!
# Typing of open and closed terms

A traversal of the variables keeps the type of a term as soon as it keeps the types
of the variables.
-/

namespace Why3

open Term List

variable {S : DataSig} {free : ℕ → List Attr → VSymbol → Term}
  {bound : ℕ → List Attr → ℕ → Ty → Term} {Γ Γ' : List Ty} {t : Term} {o : Option Ty}

theorem mapVarsBranches_eq_map (k : ℕ) (bl : List (Pattern × Term)) :
    mapVarsBranches free bound k bl =
      bl.map fun b => (b.1, mapVars free bound (k + b.1.vars.length) b.2) := by
  induction bl with
  | nil => rfl
  | cons b bl ih => rw [mapVarsBranches, ih, map_cons]

theorem mapVarsTriggers_eq_map (k : ℕ) (trl : List (List Term)) :
    mapVarsTriggers free bound k trl = trl.map fun tl => tl.map (mapVars free bound k) := by
  induction trl with
  | nil => rfl
  | cons tl trl ih => rw [mapVarsTriggers, ih, map_cons, mapVarsList_eq_map]

theorem WellTyped.mapVars (hfree : ∀ Δ a v, WellTyped S (Δ ++ Γ') (free Δ.length a v) (some v.vsTy))
    (hbound : ∀ Δ a i ty, (Δ ++ Γ)[i]? = some ty →
      WellTyped S (Δ ++ Γ') (bound Δ.length a i ty) (some ty))
    {Θ : List Ty} (h : WellTyped S Θ t o) :
    ∀ Δ : List Ty, Θ = Δ ++ Γ → WellTyped S (Δ ++ Γ') (mapVars free bound Δ.length t) o := by
  induction h with
  | tvar a v => exact fun Δ _ => hfree Δ a v
  | tbnd a hi =>
    rintro Δ rfl
    exact hbound Δ a _ _ hi
  | tconst a c ty => exact fun Δ _ => .tconst a c ty
  | tapp a σ hls ho hlen htl ih =>
    intro Δ hΘ
    rw [Term.mapVars, mapVarsList_eq_map]
    refine .tapp a σ hls ho (by rw [length_map, hlen]) ?_
    intro i t ty ht hty
    rw [getElem?_map] at ht
    obtain ⟨u, hu, rfl⟩ := Option.map_eq_some_iff.mp ht
    exact ih i u ty hu hty Δ hΘ
  | tif a _ _ _ ihf iht ihe => exact fun Δ hΘ => .tif a (ihf Δ hΘ) (iht Δ hΘ) (ihe Δ hΘ)
  | tlet a _ _ iht ihe => exact fun Δ hΘ => .tlet a (iht Δ hΘ) (ihe (_ :: Δ) (congrArg _ hΘ))
  | tcase a _ hsat hne hp _ iht ihbl =>
    intro Δ hΘ
    rw [Term.mapVars, mapVarsBranches_eq_map]
    refine .tcase a (iht Δ hΘ) hsat (by simpa using hne) ?_ ?_
    · intro b hb
      obtain ⟨c, hc, rfl⟩ := mem_map.mp hb
      exact hp c hc
    · intro b hb
      obtain ⟨c, hc, rfl⟩ := mem_map.mp hb
      have hbody := ihbl c hc (c.1.vars.map VSymbol.vsTy ++ Δ) (by rw [hΘ, append_assoc])
      rwa [append_assoc, length_append, length_map, Nat.add_comm] at hbody
  | teps a _ ih => exact fun Δ hΘ => .teps a (ih (_ :: Δ) (congrArg _ hΘ))
  | @tquant Θ a q vl trl f _ _ ihtr ih =>
    intro Δ hΘ
    have hΘ' : vl.map VSymbol.vsTy ++ Θ = (vl.map VSymbol.vsTy ++ Δ) ++ Γ := by
      rw [hΘ, append_assoc]
    have hk : (vl.map VSymbol.vsTy ++ Δ).length = Δ.length + vl.length := by
      rw [length_append, length_map, Nat.add_comm]
    rw [Term.mapVars, mapVarsTriggers_eq_map]
    refine .tquant a q ?_ ?_
    · intro tl htl t ht
      obtain ⟨ul, hul, rfl⟩ := mem_map.mp htl
      obtain ⟨u, hu, rfl⟩ := mem_map.mp ht
      have hbody := ihtr ul hul u hu _ hΘ'
      rw [hk, append_assoc] at hbody
      rwa [hbody.tTy_eq]
    · have hbody := ih _ hΘ'
      rwa [hk, append_assoc] at hbody
  | tbinop a op _ _ ihf ihg => exact fun Δ hΘ => .tbinop a op (ihf Δ hΘ) (ihg Δ hΘ)
  | tnot a _ ih => exact fun Δ hΘ => .tnot a (ih Δ hΘ)
  | ttrue a => exact fun _ _ => .ttrue a
  | tfalse a => exact fun _ _ => .tfalse a

theorem getElem?_append_shift {α : Type} (Δ Θ Γ : List α) (i : ℕ) :
    (Δ ++ (Θ ++ Γ))[if i < Δ.length then i else i + Θ.length]? = (Δ ++ Γ)[i]? := by
  split
  · next h => rw [getElem?_append_left h, getElem?_append_left h]
  · next h =>
      rw [getElem?_append_right (by omega), getElem?_append_right (by omega),
        getElem?_append_right (by omega)]
      congr 1
      omega

theorem WellTyped.closeVars (vl : List VSymbol) (h : WellTyped S Γ t o) :
    WellTyped S (vl.map VSymbol.vsTy ++ Γ) (closeVars vl t) o := by
  change WellTyped S ([] ++ (vl.map VSymbol.vsTy ++ Γ)) _ o
  refine h.mapVars (Γ := Γ) ?_ ?_ [] rfl
  · intro Δ a v
    split
    · next hv =>
        refine .tbnd a ?_
        have hlt := idxOf_lt_length_of_mem hv
        rw [getElem?_append_right (Nat.le_add_right _ _), Nat.add_sub_cancel_left,
          getElem?_append_left (by rwa [length_map]), getElem?_map,
          getElem?_eq_getElem hlt, getElem_idxOf hlt, Option.map_some]
    · exact .tvar a v
  · intro Δ a i ty hi
    refine .tbnd a ?_
    have hshift := getElem?_append_shift Δ (vl.map VSymbol.vsTy) Γ i
    rw [length_map] at hshift
    rw [hshift, hi]

theorem WellTyped.openVars (ul : List VSymbol) (h : WellTyped S (ul.map VSymbol.vsTy ++ Γ) t o) :
    WellTyped S Γ (openVars ul t) o := by
  refine h.mapVars (Γ := ul.map VSymbol.vsTy ++ Γ) ?_ ?_ [] rfl
  · exact fun Δ a v => .tvar a v
  · intro Δ a i ty hi
    split
    · next hlt =>
        rw [getElem?_append_left hlt] at hi
        exact .tbnd a (by rw [getElem?_append_left hlt, hi])
    · next hlt =>
        rw [getElem?_append_right (by omega)] at hi
        rw [getElem?_map]
        cases hu : ul[i - Δ.length]? with
        | none =>
          have hle := getElem?_eq_none_iff.mp hu
          rw [getElem?_append_right (by simpa using hle), length_map] at hi
          refine .tbnd a ?_
          rw [length_map, getElem?_append_right (by omega), ← hi]
          congr 1
          omega
        | some u =>
          have hlt' := (List.getElem?_eq_some_iff.mp hu).1
          rw [getElem?_append_left (by simpa using hlt'), getElem?_map, hu] at hi
          cases hi
          exact .tvar _ u

/-! ## Substitution -/

theorem WellTyped.withAttrs (a : List Attr) (h : WellTyped S Γ t o) :
    WellTyped S Γ (t.withAttrs a) o := by
  cases h with
  | tvar _ v => exact .tvar a v
  | tbnd _ hi => exact .tbnd a hi
  | tconst _ c ty => exact .tconst a c ty
  | tapp _ σ hls ho hlen htl => exact .tapp a σ hls ho hlen htl
  | tif _ hf ht he => exact .tif a hf ht he
  | tlet _ ht he => exact .tlet a ht he
  | tcase _ ht hsat hne hp hbl => exact .tcase a ht hsat hne hp hbl
  | teps _ hf => exact .teps a hf
  | tquant _ q htr hf => exact .tquant a q htr hf
  | tbinop _ op hf hg => exact .tbinop a op hf hg
  | tnot _ hf => exact .tnot a hf
  | ttrue _ => exact .ttrue a
  | tfalse _ => exact .tfalse a

theorem WellTyped.attrCopy (a : List Attr) (h : WellTyped S Γ t o) :
    WellTyped S Γ (t.attrCopy a) o :=
  h.withAttrs _

theorem WellTyped.shift (k : ℕ) (h : WellTyped S [] t o) : WellTyped S Γ (shift k t) o := by
  refine @WellTyped.mapVars S _ _ [] Γ t o ?_ ?_ [] h [] rfl
  · exact fun Δ a v => .tvar a v
  · intro Δ a i ty hi
    rw [append_nil] at hi
    have hlt := (List.getElem?_eq_some_iff.mp hi).1
    rw [if_pos hlt]
    exact .tbnd a (by rw [getElem?_append_left hlt, hi])

theorem WellTyped.tSubst {s : VSymbol → Option Term}
    (hs : ∀ v u, s v = some u → WellTyped S [] u (some v.vsTy)) (h : WellTyped S Γ t o) :
    WellTyped S Γ (tSubst s t) o := by
  refine h.mapVars (Γ := Γ) ?_ ?_ [] rfl
  · intro Δ a v
    cases hv : s v with
    | none => exact .tvar a v
    | some u => exact ((hs v u hv).shift Δ.length).attrCopy a
  · exact fun Δ a i ty hi => .tbnd a hi

theorem WellTyped.tQuantClose (q : Quant) (vl : List VSymbol) {trl : List (List Term)} {f : Term}
    (htrl : ∀ tl ∈ trl, ∀ t ∈ tl, WellTyped S Γ t t.tTy) (hf : WellTyped S Γ f none) :
    WellTyped S Γ (tQuantClose q vl trl f) none := by
  unfold Term.tQuantClose
  split
  · exact hf
  · refine .tquant [] q ?_ (hf.closeVars vl)
    rw [forall_mem_map]
    intro tl htl
    rw [forall_mem_map]
    intro t ht
    have htyped := (htrl tl htl t ht).closeVars vl
    rwa [htyped.tTy_eq]

/-! ## Indices that a term does not use -/

open Interp in
/-- The value of a term only depends on the indices that its types are known of. -/
theorem WellTyped.eval_append {D : Type} {I : Interp D} {τ : TyVal} {ρ : VSymbol → D}
    (h : WellTyped S Γ t o) (b e : List D) (he : e.length = Γ.length) :
    I.eval τ ρ (e ++ b) t = I.eval τ ρ e t := by
  induction h generalizing e with
  | tvar | tconst | ttrue | tfalse => rfl
  | tbnd a hi =>
    have hlt := (List.getElem?_eq_some_iff.mp hi).1
    rw [eval_tbnd, eval_tbnd, getD_append _ _ _ _ (by omega)]
  | @tapp Γ a ls tl o σ hls ho hlen htl ih =>
    have hargs : (tl.map fun t => (I.eval τ ρ (e ++ b) t).1) =
        tl.map fun t => (I.eval τ ρ e t).1 := by
      refine map_congr_left fun t ht => ?_
      obtain ⟨i, hi, rfl⟩ := mem_iff_getElem.mp ht
      have hi' : i < ls.lsArgs.length := hlen ▸ hi
      rw [ih i tl[i] ls.lsArgs[i] (getElem?_eq_getElem hi) (getElem?_eq_getElem hi') e he]
    cases o with
    | none => rw [eval_tapp_none, eval_tapp_none, hargs]
    | some ty => rw [eval_tapp_some, eval_tapp_some, hargs]
  | tif a _ _ _ ihf iht ihe =>
    rw [eval_tif, eval_tif, ihf e he, iht e he, ihe e he]
  | tlet a _ _ iht ihe =>
    rw [eval_tlet, eval_tlet, iht e he, ← cons_append, ihe _ (by simp [he])]
  | @tcase Γ a t ty bl o _ _ hne hp hbl iht ihbl =>
    rw [eval_tcase, eval_tcase, iht e he]
    have hbody : ∀ c ∈ bl, ∀ β, I.eval τ ρ (I.values τ β c.1.vars ++ (e ++ b)) c.2 =
        I.eval τ ρ (I.values τ β c.1.vars ++ e) c.2 := by
      intro c hc β
      rw [← append_assoc]
      exact ihbl c hc _ (by simp [length_values, he])
    exact evalBranches_rel (R := Eq) rfl (forall₂_same.mpr fun c hc => ⟨rfl, hbody c hc _⟩)
  | teps a _ ih =>
    rw [eval_teps, eval_teps]
    congr 2
    ext d
    rw [Set.mem_ofPred_eq, Set.mem_ofPred_eq, ← cons_append, ih _ (by simp [he])]
  | @tquant Γ a q vl trl f _ _ _ ih =>
    have hbody : ∀ ds, I.Typed τ (vl.map VSymbol.vsTy) ds →
        I.eval τ ρ (ds ++ (e ++ b)) f = I.eval τ ρ (ds ++ e) f := by
      intro ds hds
      rw [← append_assoc]
      exact ih _ (by rw [length_append, length_append, hds.length_eq, he])
    cases q with
    | tforall =>
      rw [eval_forall, eval_forall]
      congr 1
      exact propext (forall₂_congr fun ds hds => by rw [hbody ds hds])
    | texists =>
      rw [eval_exists, eval_exists]
      congr 1
      exact propext (exists_congr fun ds => and_congr_right fun hds => by rw [hbody ds hds])
  | tbinop a op _ _ ihf ihg =>
    cases op <;> simp [ihf e he, ihg e he]
  | tnot a _ ih =>
    rw [eval_tnot, eval_tnot, ih e he]

end Why3
