import Why3.Pattern.Column

/-!
# Applications of constructors are accepted

The types of a well-typed application always match, so that none of the patterns
which the compiler builds is refused.
-/

namespace Why3

open Lib List

variable {tl : List Ty} {s : TagMap TvSymbol Ty} {σ : TvSymbol → Ty}
variable {ty : Ty} {ts : TySymbol}

/-! ## Matching of types -/

mutual

theorem tyMatch_vMap :
    ∀ ty : Ty, (∀ v ∈ ty.freevars, s.find? v = some (σ v)) → tyMatch s ty (ty.vMap σ) = some s
  | .tyvar v, h => by
    simp [Ty.vMap, tyMatch, h v (by simp [Ty.freevars])]
  | .tyapp ts tl, h => by
    rw [Ty.vMap_tyapp, tyMatch, if_pos rfl]
    refine tyMatchList_vMap tl ?_
    intro ty hty v hv
    exact h v ((Ty.mem_freevars_tyapp ts tl v).mpr ⟨ty, hty, hv⟩)

theorem tyMatchList_vMap :
    ∀ tl : List Ty, (∀ ty ∈ tl, ∀ v ∈ ty.freevars, s.find? v = some (σ v)) →
      tyMatchList s tl (tl.map (Ty.vMap σ)) = some s
  | [], _ => rfl
  | ty :: tl, h => by
    rw [forall_mem_cons] at h
    rw [map_cons, tyMatchList, tyMatch_vMap ty h.1]
    exact tyMatchList_vMap tl h.2

end

theorem tyMatchList_tyvars {vl : List TvSymbol} (hvl : vl.Nodup) (hl : tl.length = vl.length)
    (hs : ∀ v ∈ vl, s.find? v = none) :
    ∃ s', tyMatchList s (vl.map .tyvar) tl = some s' ∧
      ∀ v, s'.find? v = ((vl.zip tl).lookup v).or (s.find? v) := by
  induction vl generalizing tl s with
  | nil =>
    rw [length_nil, length_eq_zero_iff] at hl
    subst hl
    exact ⟨s, rfl, by simp⟩
  | cons v vl ih =>
    cases tl with
    | nil => simp at hl
    | cons ty tl =>
      rw [nodup_cons] at hvl
      rw [forall_mem_cons] at hs
      have hs' : ∀ w ∈ vl, (s.add v ty).find? w = none := by
        intro w hw
        rw [TagMap.find?_add_of_ne]
        · exact hs.2 w hw
        · rintro rfl
          exact hvl.1 hw
      obtain ⟨s', hs₁, hs₂⟩ := ih hvl.2 (by simpa using hl) hs'
      refine ⟨s', ?_, ?_⟩
      · simp only [map_cons, tyMatchList, tyMatch, hs.1]
        exact hs₁
      · intro w
        rw [hs₂, TagMap.find?_add, zip_cons_cons, lookup_cons]
        by_cases hw : w = v
        · subst hw
          have hnone : (vl.zip tl).lookup w = none := by
            rw [← Option.not_isSome_iff_eq_none, ← TagMap.mem_keys_iff]
            intro hmem
            obtain ⟨p, hp, rfl⟩ := mem_map.mp hmem
            exact hvl.1 (of_mem_zip hp).1
          simp [hnone]
        · have hw' : (w == v) = false := by simpa using hw
          simp [hw, hw']

theorem tyMatchExn_value (hl : tl.length = ts.tsArgs.length) :
    ∃ s, tyMatchExn .empty (.tyapp ts (ts.tsArgs.map .tyvar)) (.tyapp ts tl) = .ok s ∧
      ∀ v ∈ ts.tsArgs, s.find? v = some (paramMap ts tl v) := by
  obtain ⟨s, hs₁, hs₂⟩ := tyMatchList_tyvars ts.argsNodup hl (s := .empty) (by simp)
  refine ⟨s, ?_, ?_⟩
  · rw [tyMatchExn, tyMatch, if_pos rfl, hs₁]
  · intro v hv
    obtain ⟨j, hj, hty⟩ := exists_paramMap_eq hl hv
    rw [hs₂, lookup_zip_eq_some ts.argsNodup hj hty]
    rfl

theorem tyInst_paramMap (hs : ∀ v ∈ ts.tsArgs, s.find? v = some (paramMap ts tl v))
    (hty : ∀ v ∈ ty.freevars, v ∈ ts.tsArgs) : tyInst s ty = ty.vMap (paramMap ts tl) := by
  unfold tyInst
  apply Ty.vMap_congr
  intro v hv
  rw [TagMap.findDef, hs v (hty v hv), Option.getD_some]

theorem matchArgs_total (fs : LSymbol) (n : ℕ) :
    ∀ (tyl : List Ty) (pl : List Pattern), pl.map Pattern.patTy = tyl.map (Ty.vMap σ) →
      (∀ ty ∈ tyl, ∀ v ∈ ty.freevars, s.find? v = some (σ v)) →
      matchArgs fs n s tyl pl = .ok s
  | [], [], _, _ => rfl
  | ty :: tyl, p :: pl, heq, h => by
    rw [map_cons, map_cons, cons.injEq] at heq
    rw [forall_mem_cons] at h
    have hmatch : tyMatchExn s ty p.patTy = .ok s := by
      rw [tyMatchExn, heq.1, tyMatch_vMap ty h.1]
    simp only [matchArgs, hmatch, bind, Except.bind]
    exact matchArgs_total fs n tyl pl heq.2 h.2
  | [], p :: pl, heq, _ | ty :: tyl, [], heq, _ => by simp at heq

variable {S : DataSig}

theorem PatTyped.patApp_eq {fs : LSymbol} {pl : List Pattern} (h : PatTyped S (.papp fs pl ty)) :
    patApp fs pl ty = .ok (.papp fs pl ty) := by
  cases h with
  | @papp _ _ ts tl hl hfs hty hvars hpl =>
    obtain ⟨s, hs₁, hs₂⟩ := tyMatchExn_value hl
    have hargs := matchArgs_total (s := s) fs pl.length fs.lsArgs pl hty
      fun ty hty v hv => hs₂ v (S.freevars hfs ty hty v hv)
    have hpos : fs.lsConstr ≠ 0 := (Pattern.constr_pos hfs).ne'
    unfold patApp
    simp only [S.value hfs, hs₁, hargs, bind, Except.bind, if_neg hpos, if_pos hvars]

end Why3
