import Why3.Logic.Typing

/-!
# Applications that pass the check of types are well typed

Matching finds the types under which the arguments of a symbol have the types of the
terms that it is applied to.
-/

namespace Why3

open Lib Term List

variable {ls : LSymbol} {tl : List Term} {o : Option Ty} {f t u : Term} {v : TvSymbol}
variable {s s' : TagMap TvSymbol Ty} {σ : TyVal}

/-! ## Matching -/

def Extends (σ : TyVal) (s : TagMap TvSymbol Ty) : Prop :=
  ∀ v ty, s.find? v = some ty → σ v = ty

theorem extends_findDef (s : TagMap TvSymbol Ty) : Extends (fun v => s.findDef (.tyvar v) v) s := by
  intro v ty hv
  simp only [TagMap.findDef, hv, Option.getD_some]

mutual

/-- Matching makes the types equal, and binds the variables of the first one only. -/
theorem tyMatch_spec {s s' : TagMap TvSymbol Ty} : ∀ {ty ty' : Ty},
    tyMatch s ty ty' = some s' → (Extends σ s' → Extends σ s ∧ ty.vMap σ = ty') ∧
      (v ∉ ty.freevars → s'.find? v = s.find? v)
  | .tyvar w, ty', h => by
    simp only [tyMatch] at h
    split at h
    · next hw =>
        cases h
        refine ⟨fun hσ => ⟨fun u ty hu => hσ u ty ?_, hσ w ty' (TagMap.find?_add_self _ _ _)⟩,
          fun hv => TagMap.find?_add_of_ne _ _ (by simpa [eq_comm] using hv)⟩
        rw [TagMap.find?_add_of_ne]
        · exact hu
        · rintro rfl
          rw [hw] at hu
          cases hu
    · next ty hw =>
        split at h
        · next heq =>
            cases h
            exact ⟨fun hσ => ⟨hσ, heq ▸ hσ w ty hw⟩, fun _ => rfl⟩
        · cases h
  | .tyapp f tl, .tyapp f' tl', h => by
    simp only [tyMatch] at h
    split at h
    · next heq =>
        obtain ⟨hspec, hother⟩ := tyMatchList_spec h
        refine ⟨fun hσ => ⟨(hspec hσ).1, by rw [Ty.vMap_tyapp, (hspec hσ).2, heq]⟩, fun hv => ?_⟩
        exact hother fun ty hty hmem => hv ((Ty.mem_freevars_tyapp f tl v).mpr ⟨ty, hty, hmem⟩)
    · cases h
  | .tyapp _ _, .tyvar _, h => by simp [tyMatch] at h

theorem tyMatchList_spec {s s' : TagMap TvSymbol Ty} : ∀ {tl tl' : List Ty},
    tyMatchList s tl tl' = some s' → (Extends σ s' → Extends σ s ∧ tl.map (Ty.vMap σ) = tl') ∧
      ((∀ ty ∈ tl, v ∉ ty.freevars) → s'.find? v = s.find? v)
  | [], [], h => by
    cases h
    exact ⟨fun hσ => ⟨hσ, rfl⟩, fun _ => rfl⟩
  | ty :: tl, ty' :: tl', h => by
    simp only [tyMatchList] at h
    split at h
    · next s₁ hm =>
        obtain ⟨hspec, hother⟩ := tyMatchList_spec h
        obtain ⟨hspec₁, hother₁⟩ := tyMatch_spec hm
        refine ⟨fun hσ => ?_, fun hv => ?_⟩
        · obtain ⟨hs, hty⟩ := hspec₁ (hspec hσ).1
          exact ⟨hs, by rw [map_cons, hty, (hspec hσ).2]⟩
        · rw [forall_mem_cons] at hv
          rw [hother hv.2, hother₁ hv.1]
    · cases h
  | [], _ :: _, h | _ :: _, [], h => by simp [tyMatchList] at h

end

theorem tyMatchExn_eq_ok {ty ty' : Ty} (h : tyMatchExn s ty ty' = .ok s') :
    tyMatch s ty ty' = some s' := by
  unfold tyMatchExn at h
  split at h
  · next hm => rwa [← Except.ok.inj h]
  · cases h

theorem tyMatchExn_spec {ty ty' : Ty} (h : tyMatchExn s ty ty' = .ok s') (hσ : Extends σ s') :
    Extends σ s ∧ ty.vMap σ = ty' :=
  (tyMatch_spec (v := ⟨⟨0⟩⟩) (tyMatchExn_eq_ok h)).1 hσ

theorem tType_eq_ok {ty : Ty} : t.tType = .ok ty ↔ t.tTy = some ty := by
  unfold Term.tType
  cases t.tTy <;> simp

theorem foldlM_match_spec : ∀ {l : List (Ty × Term)} {s s' : TagMap TvSymbol Ty},
    l.foldlM (fun s a => do tyMatchExn s a.1 (← a.2.tType)) s = .ok s' →
      (Extends σ s' → Extends σ s ∧ ∀ a ∈ l, a.2.tTy = some (a.1.vMap σ)) ∧
        ((∀ a ∈ l, v ∉ a.1.freevars) → s'.find? v = s.find? v)
  | [], s, s', h => by
    cases foldlM_nil_eq_ok.mp h
    exact ⟨fun hσ => ⟨hσ, by simp⟩, fun _ => rfl⟩
  | a :: l, s, s', h => by
    obtain ⟨s₁, ha, h⟩ := foldlM_cons_eq_ok.mp h
    obtain ⟨ty, hty, hm⟩ := bind_eq_ok.mp ha
    obtain ⟨hspec, hother⟩ := foldlM_match_spec h
    obtain ⟨hspec₁, hother₁⟩ := tyMatch_spec (tyMatchExn_eq_ok hm)
    refine ⟨fun hσ => ?_, fun hv => ?_⟩
    · obtain ⟨hs, hinst⟩ := hspec₁ (hspec hσ).1
      rw [tType_eq_ok, ← hinst] at hty
      exact ⟨hs, forall_mem_cons.mpr ⟨hty, (hspec hσ).2⟩⟩
    · rw [forall_mem_cons] at hv
      rw [hother hv.2, hother₁ hv.1]

/-! ## Applications -/

/-- The terms have the types that a symbol expects, up to the values of its type
variables. -/
def ArgsMatch (σ : TyVal) (ls : LSymbol) (tl : List Term) : Prop :=
  tl.map tTy = ls.lsArgs.map fun ty => some (ty.vMap σ)

theorem lsArgInst_spec (h : lsArgInst ls tl = .ok s) (hσ : Extends σ s) : ArgsMatch σ ls tl := by
  unfold lsArgInst at h
  split at h
  · next hlen =>
      have hall := ((foldlM_match_spec (v := ⟨⟨0⟩⟩) h).1 hσ).2
      apply ext_getElem (by simp [hlen])
      intro i hi hi'
      rw [length_map] at hi hi'
      have := hall (ls.lsArgs[i], tl[i]) (mem_iff_getElem.mpr
        ⟨i, by simp [hlen, hi], by simp⟩)
      simpa using this
  · cases h

/-- A type variable that the types of the arguments do not mention stays. -/
theorem lsArgInst_find? (h : lsArgInst ls tl = .ok s) (hv : ∀ ty ∈ ls.lsArgs, v ∉ ty.freevars) :
    s.find? v = none := by
  unfold lsArgInst at h
  split at h
  · rw [(foldlM_match_spec (σ := .tyvar) h).2 fun a ha => hv a.1 (of_mem_zip ha).1,
      TagMap.find?_empty]
  · cases h

theorem lsAppInst_spec (h : lsAppInst ls tl o = .ok s) :
    ∃ σ, ArgsMatch σ ls tl ∧ o = ls.lsValue.map (Ty.vMap σ) := by
  obtain ⟨s₁, hs₁, h⟩ := bind_eq_ok.mp h
  refine ⟨fun v => s.findDef (.tyvar v) v, ?_⟩
  have hσ := extends_findDef s
  cases hv : ls.lsValue with
  | none =>
    cases o with
    | none =>
      simp only [hv] at h
      cases h
      exact ⟨lsArgInst_spec hs₁ hσ, rfl⟩
    | some ty =>
      simp only [hv] at h
      cases h
  | some vty =>
    cases o with
    | none =>
      simp only [hv] at h
      cases h
    | some ty =>
      simp only [hv] at h
      obtain ⟨hs, hty⟩ := tyMatchExn_spec h hσ
      exact ⟨lsArgInst_spec hs₁ hs, by rw [Option.map_some, hty]⟩

variable {S : DataSig} {Γ : List Ty}

theorem WellTyped.of_argsMatch (a : List Attr) (hls : ls.lsConstr = 0 ∨ ∃ ts, ls ∈ S.constrs ts)
    (hargs : ArgsMatch σ ls tl) (htl : ∀ t ∈ tl, ∃ o, WellTyped S Γ t o) :
    WellTyped S Γ (.tapp a ls tl (ls.lsValue.map (Ty.vMap σ))) (ls.lsValue.map (Ty.vMap σ)) := by
  refine .tapp a σ hls rfl (by simpa using congrArg List.length hargs) ?_
  intro i t ty hi hty
  obtain ⟨o, ht⟩ := htl t (mem_of_getElem? hi)
  have := congrArg (fun l : List (Option Ty) => l[i]?) hargs
  simp only [getElem?_map, hi, hty, Option.map_some, Option.some.injEq, ht.tTy_eq] at this
  exact this ▸ ht

theorem WellTyped.tApp (h : tApp ls tl o = .ok t) (hls : ls.lsConstr = 0 ∨ ∃ ts, ls ∈ S.constrs ts)
    (htl : ∀ t ∈ tl, ∃ o, WellTyped S Γ t o) : WellTyped S Γ t o := by
  obtain ⟨s, hs, _⟩ := bind_eq_ok.mp h
  obtain ⟨σ, hargs, rfl⟩ := lsAppInst_spec hs
  rw [tApp_eq h]
  exact .of_argsMatch [] hls hargs htl

theorem tEqu_spec (h : tEqu t u = .ok f) :
    f = tapp [] psEqu [t, u] none ∧ ∃ ty, t.tTy = some ty ∧ u.tTy = some ty := by
  refine ⟨tApp_eq h, ?_⟩
  obtain ⟨s, hs, _⟩ := bind_eq_ok.mp h
  obtain ⟨σ, hargs, _⟩ := lsAppInst_spec hs
  simp only [ArgsMatch, psEqu, map_cons, map_nil, cons.injEq, and_true] at hargs
  exact ⟨_, hargs⟩

theorem WellTyped.tEqu {o' : Option Ty} (h : tEqu t u = .ok f) (ht : WellTyped S Γ t o)
    (hu : WellTyped S Γ u o') : WellTyped S Γ f none := by
  refine .tApp h (.inl rfl) ?_
  simp only [mem_cons, not_mem_nil, or_false, forall_eq_or_imp, forall_eq]
  exact ⟨⟨o, ht⟩, ⟨o', hu⟩⟩

theorem Interp.eval_tEqu {D : Type} {I : Interp D} (hI : I.Sound) {τ : TyVal} {ρ : VSymbol → D}
    {b : List D} (h : tEqu t u = .ok f) :
    (I.eval τ ρ b f).2 ↔ (I.eval τ ρ b t).1 = (I.eval τ ρ b u).1 := by
  rw [(tEqu_spec h).1, eval_tapp_none]
  exact hI.equ _ _

/-! ## Well-typed applications pass the check -/

theorem Extends.add (h : Extends σ s) (v : TvSymbol) : Extends σ (s.add v (σ v)) := by
  intro w ty hw
  rw [TagMap.find?_add] at hw
  split at hw
  · next hwv =>
      cases hw
      rw [hwv]
  · exact h w ty hw

mutual

theorem tyMatch_complete : ∀ (ty : Ty) {s : TagMap TvSymbol Ty}, Extends σ s →
    ∃ s', tyMatch s ty (ty.vMap σ) = some s' ∧ Extends σ s'
  | .tyvar v, s, hs => by
    rw [Ty.vMap_tyvar]
    simp only [tyMatch]
    cases hv : s.find? v with
    | none => exact ⟨_, rfl, hs.add v⟩
    | some ty => exact ⟨s, if_pos (hs v ty hv).symm, hs⟩
  | .tyapp f tl, s, hs => by
    obtain ⟨s', htl, hs'⟩ := tyMatchList_complete tl hs
    refine ⟨s', ?_, hs'⟩
    rw [Ty.vMap_tyapp]
    simp only [tyMatch, if_true]
    exact htl

theorem tyMatchList_complete : ∀ (tl : List Ty) {s : TagMap TvSymbol Ty},
    Extends σ s → ∃ s', tyMatchList s tl (tl.map (Ty.vMap σ)) = some s' ∧ Extends σ s'
  | [], s, hs => ⟨s, rfl, hs⟩
  | ty :: tl, s, hs => by
    obtain ⟨s₁, hty, hs₁⟩ := tyMatch_complete ty hs
    obtain ⟨s₂, htl, hs₂⟩ := tyMatchList_complete tl hs₁
    refine ⟨s₂, ?_, hs₂⟩
    rw [map_cons, tyMatchList, hty]
    exact htl

end

theorem foldlM_match_complete : ∀ {l : List (Ty × Term)} {s : TagMap TvSymbol Ty},
    (∀ a ∈ l, a.2.tTy = some (a.1.vMap σ)) → Extends σ s →
      ∃ s', l.foldlM (fun s a => do tyMatchExn s a.1 (← a.2.tType)) s = .ok s' ∧ Extends σ s'
  | [], s, _, hs => ⟨s, rfl, hs⟩
  | a :: l, s, hl, hs => by
    obtain ⟨hty, hl⟩ := forall_mem_cons.mp hl
    obtain ⟨s₁, ha, hs₁⟩ := tyMatch_complete a.1 hs
    obtain ⟨s₂, hfold, hs₂⟩ := foldlM_match_complete hl hs₁
    refine ⟨s₂, foldlM_cons_eq_ok.mpr ⟨s₁, bind_eq_ok.mpr
      ⟨_, tType_eq_ok.mpr hty, ?_⟩, hfold⟩, hs₂⟩
    rw [tyMatchExn, ha]

theorem ArgsMatch.zip (h : ArgsMatch σ ls tl) :
    ∀ a ∈ ls.lsArgs.zip tl, a.2.tTy = some (a.1.vMap σ) := by
  rintro ⟨ty, t⟩ hmem
  obtain ⟨i, hi⟩ := mem_iff_getElem?.mp hmem
  obtain ⟨hty, ht⟩ := getElem?_zip_eq_some.mp hi
  have := congrArg (fun l : List (Option Ty) => l[i]?) h
  simpa [getElem?_map, ht, hty] using this

theorem tApp_ok (h : ArgsMatch σ ls tl) :
    tApp ls tl (ls.lsValue.map (Ty.vMap σ)) = .ok (tapp [] ls tl (ls.lsValue.map (Ty.vMap σ))) := by
  have hlen : tl.length = ls.lsArgs.length := by simpa using congrArg List.length h
  obtain ⟨s, hs, hσ⟩ : ∃ s, lsArgInst ls tl = .ok s ∧ Extends σ s := by
    unfold lsArgInst
    rw [if_pos hlen.symm]
    exact foldlM_match_complete h.zip fun v ty hv => by simp at hv
  obtain ⟨s', hs'⟩ : ∃ s', lsAppInst ls tl (ls.lsValue.map (Ty.vMap σ)) = .ok s' := by
    cases hv : ls.lsValue with
    | none => exact ⟨s, bind_eq_ok.mpr ⟨s, hs, by simp [hv]⟩⟩
    | some vty =>
      obtain ⟨s', hvty, _⟩ := tyMatch_complete vty hσ
      refine ⟨s', bind_eq_ok.mpr ⟨s, hs, ?_⟩⟩
      simp only [hv, Option.map_some]
      rw [tyMatchExn, hvty]
  exact bind_eq_ok.mpr ⟨s', hs', rfl⟩

theorem tApp_of_wellTyped {a : List Attr} (h : WellTyped S Γ (.tapp a ls tl o) o) :
    tApp ls tl o = .ok (tapp [] ls tl o) := by
  cases h with
  | tapp _ σ _ ho hlen htl =>
    subst ho
    refine tApp_ok (ext_getElem (by simp [hlen]) fun i hi hi' => ?_)
    rw [length_map] at hi hi'
    simpa using (htl i tl[i] ls.lsArgs[i] (getElem?_eq_getElem hi)
      (getElem?_eq_getElem hi')).tTy_eq

end Why3
