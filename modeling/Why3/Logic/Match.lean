import Why3.Logic.Typing

/-!
# Matching of values against patterns

In an interpretation with free constructors a value is matched against a
constructor pattern by its arguments. A match binds the variables of the pattern,
each once, to values of their types.
-/

namespace Why3

open Lib List

/-! ## Bindings -/

section

variable {α β : Type} [DecidableEq α] {l l' : List (α × β)} {a : α}

theorem lookup_eq_none_of_not_mem (h : a ∉ l.map Prod.fst) : l.lookup a = none :=
  Option.not_isSome_iff_eq_none.mp ((TagMap.mem_keys_iff a l).not.mp h)

theorem lookup_perm (h : l.Perm l') (hl : (l.map Prod.fst).Nodup) (a : α) :
    l.lookup a = l'.lookup a := by
  apply Option.ext
  intro b
  have hl' : (l'.map Prod.fst).Nodup := ((h.map Prod.fst).nodup_iff).mp hl
  rw [TagMap.lookup_eq_some_iff_mem hl, TagMap.lookup_eq_some_iff_mem hl', h.mem_iff]

theorem lookup_append_of_some {b : β} (h : l.lookup a = some b) (l' : List (α × β)) :
    (l ++ l').lookup a = some b := by
  rw [lookup_append, h, Option.some_or]

end

theorem map_fst_zip_subset {α β : Type} (l : List α) (l' : List β) :
    (l.zip l').map Prod.fst ⊆ l := by
  intro a ha
  obtain ⟨x, hx, rfl⟩ := mem_map.mp ha
  exact (of_mem_zip hx).1

variable {D : Type} {ρ : VSymbol → D} {ds : List D} {β : List (VSymbol × D)}

theorem assign_perm {β' : List (VSymbol × D)} (h : β.Perm β') (hβ : (β.map Prod.fst).Nodup) :
    assign ρ β = assign ρ β' := by
  funext v
  rw [assign, assign, lookup_perm h hβ]

theorem assign_append (ρ : VSymbol → D) (β β' : List (VSymbol × D)) :
    assign ρ (β ++ β') = assign (assign ρ β') β := by
  funext v
  rw [assign, assign, assign, lookup_append]
  cases β.lookup v <;> simp

theorem assign_of_not_mem {v : VSymbol} (h : v ∉ β.map Prod.fst) : assign ρ β v = ρ v := by
  rw [assign, lookup_eq_none_of_not_mem h, Option.getD_none]

theorem assign_zip_map (ρ ρ' : VSymbol → D) (vl : List VSymbol) (v : VSymbol) :
    assign ρ (vl.zip (vl.map ρ')) v = if v ∈ vl then ρ' v else ρ v := by
  induction vl with
  | nil => rfl
  | cons w vl ih =>
    rw [map_cons, zip_cons_cons, assign_cons, ih]
    by_cases hvw : v = w
    · simp [hvw]
    · simp [hvw]

theorem map_assign_zip {vl : List VSymbol} (hvl : vl.Nodup) (hl : vl.length = ds.length)
    (ρ : VSymbol → D) : vl.map (assign ρ (vl.zip ds)) = ds := by
  apply ext_getElem?
  intro i
  rw [getElem?_map]
  cases hv : vl[i]? with
  | none =>
    rw [getElem?_eq_none_iff] at hv
    rw [Option.map_none, getElem?_eq_none (hl ▸ hv)]
  | some v =>
    have hi : i < ds.length := hl ▸ (List.getElem?_eq_some_iff.mp hv).1
    have hd : ds[i]? = some ds[i] := getElem?_eq_getElem hi
    rw [Option.map_some, assign, lookup_zip_eq_some hvl hv hd, Option.getD_some, hd]

namespace Interp

variable {I : Interp D} {τ : TyVal} {tyl : List Ty}

/-! ## Typed values -/

theorem typed_map_vMap {f : TyVal} :
    I.Typed τ (tyl.map (Ty.vMap f)) ds ↔ I.Typed (fun v => (f v).vMap τ) tyl ds := by
  unfold Typed
  rw [forall₂_map_left_iff]
  simp only [Ty.vMap_vMap]

theorem Typed.congr {τ' : TyVal} (hτ : ∀ ty ∈ tyl, ∀ v ∈ ty.freevars, τ v = τ' v)
    (h : I.Typed τ tyl ds) : I.Typed τ' tyl ds := by
  induction tyl generalizing ds with
  | nil =>
    cases h
    exact .nil
  | cons ty tyl ih =>
    cases h with
    | cons hd hds =>
      rw [forall_mem_cons] at hτ
      refine .cons ?_ (ih hτ.2 hds)
      rw [← Ty.vMap_congr ty hτ.1]
      exact hd

theorem typed_congr {τ' : TyVal} (hτ : ∀ ty ∈ tyl, ∀ v ∈ ty.freevars, τ v = τ' v) :
    I.Typed τ tyl ds ↔ I.Typed τ' tyl ds :=
  ⟨Typed.congr hτ, Typed.congr fun ty hty v hv => (hτ ty hty v hv).symm⟩

theorem Typed.append {tyl' : List Ty} {ds' : List D} (h : I.Typed τ tyl ds)
    (h' : I.Typed τ tyl' ds') : I.Typed τ (tyl ++ tyl') (ds ++ ds') :=
  rel_append h h'

/-! ## Constructor patterns -/

variable {S : DataSig} {p : Pattern} {pl : List Pattern} {d : D}

section

variable {fs cs : LSymbol} {ts : TySymbol} {tl : List Ty} (hl : tl.length = ts.tsArgs.length)
include hl

theorem typed_args_iff (hfs : fs ∈ S.constrs ts) :
    I.Typed τ (fs.lsArgs.map (Ty.vMap (paramMap ts tl))) ds ↔
      I.Typed (paramMap ts (tl.map (Ty.vMap τ))) fs.lsArgs ds := by
  rw [typed_map_vMap]
  apply typed_congr
  intro ty hty v hv
  exact (paramMap_map hl (S.freevars hfs ty hty v hv) _).symm

theorem Sound.constr_mem (hI : I.Sound) (hcs : cs ∈ S.constrs ts)
    (hds : I.Typed (paramMap ts tl) cs.lsArgs ds) :
    I.fn cs (.tyapp ts tl) ds ∈ I.carrier (.tyapp ts tl) := by
  have hmap : (Ty.tyapp ts (ts.tsArgs.map .tyvar)).vMap (paramMap ts tl) = .tyapp ts tl := by
    rw [Ty.vMap_tyapp, map_map]
    congr 1
    apply ext_getElem?
    intro i
    rw [getElem?_map]
    cases hv : ts.tsArgs[i]? with
    | none =>
      rw [getElem?_eq_none_iff] at hv
      rw [Option.map_none, getElem?_eq_none (hl ▸ hv)]
    | some v =>
      have hi : i < tl.length := hl ▸ (List.getElem?_eq_some_iff.mp hv).1
      have hty : tl[i]? = some tl[i] := getElem?_eq_getElem hi
      rw [Option.map_some, hty]
      exact congrArg some (paramMap_eq hv hty)
  have hmem := hI.fn cs _ (paramMap ts tl) ds (S.value hcs) hds
  rwa [hmap] at hmem

/-- The arguments of a constructor pattern and those of the constructor have the
same types. -/
theorem typed_patTy_iff (hfs : fs ∈ S.constrs ts)
    (hty : pl.map Pattern.patTy = fs.lsArgs.map (Ty.vMap (paramMap ts tl))) :
    I.Typed τ (pl.map Pattern.patTy) ds ↔
      I.Typed (paramMap ts (tl.map (Ty.vMap τ))) fs.lsArgs ds := by
  rw [hty, typed_args_iff hl hfs]

theorem matchPat_papp (hI : I.Free S) (hfs : fs ∈ S.constrs ts)
    (hty : pl.map Pattern.patTy = fs.lsArgs.map (Ty.vMap (paramMap ts tl)))
    (hds : I.Typed (paramMap ts (tl.map (Ty.vMap τ))) fs.lsArgs ds) :
    I.matchPat τ (.papp fs pl (.tyapp ts tl)) (I.fn fs (.tyapp ts (tl.map (Ty.vMap τ))) ds) =
      I.matchPatList τ pl ds := by
  have hl' : (tl.map (Ty.vMap τ)).length = ts.tsArgs.length := by rw [length_map, hl]
  have hex : ∃ ds', I.Typed τ (pl.map Pattern.patTy) ds' ∧
      I.fn fs ((Ty.tyapp ts tl).vMap τ) ds' = I.fn fs (.tyapp ts (tl.map (Ty.vMap τ))) ds :=
    ⟨ds, (typed_patTy_iff hl hfs hty).mpr hds, by rw [Ty.vMap_tyapp]⟩
  unfold matchPat
  rw [dif_pos hex]
  obtain ⟨htyped, heq⟩ := hex.choose_spec
  generalize hex.choose = ds' at htyped heq ⊢
  rw [typed_patTy_iff hl hfs hty] at htyped
  rw [Ty.vMap_tyapp] at heq
  rw [hI.inj hl' hfs htyped hds heq]

theorem matchPat_papp_of_ne (hI : I.Free S) (hfs : fs ∈ S.constrs ts) (hcs : cs ∈ S.constrs ts)
    (hne : fs ≠ cs) (hty : pl.map Pattern.patTy = fs.lsArgs.map (Ty.vMap (paramMap ts tl)))
    (hds : I.Typed (paramMap ts (tl.map (Ty.vMap τ))) cs.lsArgs ds) :
    I.matchPat τ (.papp fs pl (.tyapp ts tl)) (I.fn cs (.tyapp ts (tl.map (Ty.vMap τ))) ds) =
      none := by
  have hl' : (tl.map (Ty.vMap τ)).length = ts.tsArgs.length := by rw [length_map, hl]
  unfold matchPat
  rw [dif_neg]
  rintro ⟨ds', hds', heq⟩
  rw [typed_patTy_iff hl hfs hty] at hds'
  rw [Ty.vMap_tyapp] at heq
  exact hI.disjoint hl' hfs hcs hne hds' hds heq

end

/-! ## The bindings of a match -/

theorem matchPatList_cons :
    I.matchPatList τ (p :: pl) (d :: ds) =
      match I.matchPat τ p d, I.matchPatList τ pl ds with
      | some β, some β' => some (β ++ β')
      | _, _ => none := rfl

theorem matchPatList_cons_eq_some :
    I.matchPatList τ (p :: pl) (d :: ds) = some β ↔
      ∃ β₁ β₂, I.matchPat τ p d = some β₁ ∧ I.matchPatList τ pl ds = some β₂ ∧ β = β₁ ++ β₂ := by
  rw [matchPatList_cons]
  cases I.matchPat τ p d with
  | none => simp
  | some β₁ =>
    cases I.matchPatList τ pl ds with
    | none => simp
    | some β₂ => simp [eq_comm]

theorem matchPatList_length (h : I.matchPatList τ pl ds = some β) : pl.length = ds.length := by
  induction pl generalizing ds β with
  | nil =>
    cases ds with
    | nil => rfl
    | cons d ds => simp [matchPatList] at h
  | cons p pl ih =>
    cases ds with
    | nil => simp [matchPatList] at h
    | cons d ds =>
      obtain ⟨_, β₂, _, h₂, _⟩ := matchPatList_cons_eq_some.mp h
      rw [length_cons, length_cons, ih h₂]

/-- A property of the matches of well-typed patterns, shown along the patterns. -/
structure MatchRule (S : DataSig) (I : Interp D) (τ : TyVal)
    (P : Pattern → D → List (VSymbol × D) → Prop)
    (Q : List Pattern → List D → List (VSymbol × D) → Prop) : Prop where
  wild : ∀ ty d, P (.pwild ty) d []
  var : ∀ v d, P (.pvar v) d [(v, d)]
  app : ∀ {fs pl ty ds β}, PatTyped S (.papp fs pl ty) → I.Typed τ (pl.map Pattern.patTy) ds →
    Q pl ds β → P (.papp fs pl ty) (I.fn fs (ty.vMap τ) ds) β
  left : ∀ {p q d β}, PatTyped S (.por p q) → P p d β → P (.por p q) d β
  right : ∀ {p q d β}, PatTyped S (.por p q) → P q d β → P (.por p q) d β
  as : ∀ {p v d β}, PatTyped S (.pas p v) → P p d β → P (.pas p v) d (β ++ [(v, d)])
  nil : Q [] [] []
  cons : ∀ {p pl d ds β β'}, P p d β → Q pl ds β' → Q (p :: pl) (d :: ds) (β ++ β')

section

variable {P : Pattern → D → List (VSymbol × D) → Prop}
variable {Q : List Pattern → List D → List (VSymbol × D) → Prop} (hrule : MatchRule S I τ P Q)
include hrule

theorem MatchRule.list_of
    (hpl : ∀ p ∈ pl, ∀ {d β}, I.matchPat τ p d = some β → P p d β)
    (h : I.matchPatList τ pl ds = some β) : Q pl ds β := by
  induction pl generalizing ds β with
  | nil =>
    cases ds with
    | nil =>
      cases h
      exact hrule.nil
    | cons d ds => simp [matchPatList] at h
  | cons p pl ih =>
    cases ds with
    | nil => simp [matchPatList] at h
    | cons d ds =>
      rw [forall_mem_cons] at hpl
      obtain ⟨β₁, β₂, h₁, h₂, rfl⟩ := matchPatList_cons_eq_some.mp h
      exact hrule.cons (hpl.1 h₁) (ih hpl.2 h₂)

theorem MatchRule.pat (hp : PatTyped S p) : ∀ {d β}, I.matchPat τ p d = some β → P p d β := by
  induction hp with
  | pwild ty =>
    intro d β h
    cases h
    exact hrule.wild ty d
  | pvar v =>
    intro d β h
    cases h
    exact hrule.var v d
  | papp hl hfs hty hvars hpl ih =>
    intro d β h
    unfold matchPat at h
    split at h
    · next hex =>
        obtain ⟨hds, heq⟩ := hex.choose_spec
        exact heq ▸ hrule.app (.papp hl hfs hty hvars hpl) hds (hrule.list_of ih h)
    · cases h
  | @por p q hp hq hty hvars ihp ihq =>
    intro d β h
    unfold matchPat at h
    cases hm : I.matchPat τ p d with
    | some β' =>
      rw [hm] at h
      cases h
      exact hrule.left (.por hp hq hty hvars) (ihp hm)
    | none =>
      rw [hm] at h
      exact hrule.right (.por hp hq hty hvars) (ihq h)
  | pas hp hty hv ih =>
    intro d β h
    unfold matchPat at h
    obtain ⟨β', hm, rfl⟩ := Option.map_eq_some_iff.mp h
    exact hrule.as (.pas hp hty hv) (ih hm)

theorem MatchRule.list (hpl : ∀ p ∈ pl, PatTyped S p) (h : I.matchPatList τ pl ds = some β) :
    Q pl ds β :=
  hrule.list_of (fun p hp => hrule.pat (hpl p hp)) h

end

theorem keysRule : MatchRule S I τ (fun p _ β => (β.map Prod.fst).Perm p.vars)
    fun pl _ β => (β.map Prod.fst).Perm (Pattern.varsList pl) where
  wild _ _ := .nil
  var _ _ := .refl _
  app _ _ h := h
  left _ h := h
  right hp h := by
    cases hp with
    | por hp hq hty hvars =>
      -- both sides bind the same variables, each once
      exact h.trans ((perm_ext_iff_of_nodup hq.nodup hp.nodup).mpr fun v => (hvars v).symm)
  as _ h := by
    rw [map_append]
    exact h.append_right _
  nil := .nil
  cons h h' := by
    rw [map_append]
    exact h.append h'

theorem matchPat_keys (hp : PatTyped S p) (h : I.matchPat τ p d = some β) :
    (β.map Prod.fst).Perm p.vars :=
  keysRule.pat hp h

theorem matchPatList_keys (hpl : ∀ p ∈ pl, PatTyped S p) (h : I.matchPatList τ pl ds = some β) :
    (β.map Prod.fst).Perm (Pattern.varsList pl) :=
  keysRule.list hpl h

theorem matchPat_typed (hp : PatTyped S p) (h : I.matchPat τ p d = some β)
    (hd : d ∈ I.carrier (p.patTy.vMap τ)) : ∀ x ∈ β, x.2 ∈ I.carrier (x.1.vsTy.vMap τ) := by
  have hrule : MatchRule S I τ
      (fun p d β => d ∈ I.carrier (p.patTy.vMap τ) → ∀ x ∈ β, x.2 ∈ I.carrier (x.1.vsTy.vMap τ))
      fun pl ds β => I.Typed τ (pl.map Pattern.patTy) ds →
        ∀ x ∈ β, x.2 ∈ I.carrier (x.1.vsTy.vMap τ) :=
    { wild := fun _ _ _ => by simp
      var := fun _ _ hd => forall_mem_singleton.mpr hd
      app := fun _ hds h _ => h hds
      left := fun _ h => h
      right := fun hp h hd => by
        cases hp with
        | por _ _ hty _ => exact h (hty ▸ hd)
      as := fun hp h hd => by
        cases hp with
        | pas _ hty _ => exact forall_mem_append.mpr ⟨h (hty ▸ hd), forall_mem_singleton.mpr hd⟩
      nil := fun _ => by simp
      cons := fun h h' hds => by
        cases hds with
        | cons hd hds => exact forall_mem_append.mpr ⟨h hd, h' hds⟩ }
  exact hrule.pat hp h hd

/-! ## Terms have values of their types -/

/-- The values of the free variables lie in the carriers of their types. -/
def TypedVal (I : Interp D) (τ : TyVal) (ρ : VSymbol → D) : Prop :=
  ∀ v : VSymbol, ρ v ∈ I.carrier (v.vsTy.vMap τ)

theorem typed_values (hI : I.Sound) (hβ : ∀ x ∈ β, x.2 ∈ I.carrier (x.1.vsTy.vMap τ))
    (vl : List VSymbol) : I.Typed τ (vl.map VSymbol.vsTy) (I.values τ β vl) := by
  unfold Typed values
  rw [forall₂_map_left_iff, forall₂_map_right_iff, forall₂_same]
  intro v _
  cases hv : β.lookup v with
  | none => exact hI.eps_mem _ _
  | some d => exact hβ (v, d) (mem_of_lookup hv)

theorem TypedVal.assign (hρ : I.TypedVal τ ρ)
    (hβ : ∀ x ∈ β, x.2 ∈ I.carrier (x.1.vsTy.vMap τ)) : I.TypedVal τ (assign ρ β) := by
  intro v
  unfold Why3.assign
  cases hv : β.lookup v with
  | none => exact hρ v
  | some d => exact hβ (v, d) (mem_of_lookup hv)

theorem Typed.getElem? (h : I.Typed τ tyl ds) {i : ℕ} {ty : Ty} (hi : tyl[i]? = some ty) (d : D) :
    ds.getD i d ∈ I.carrier (ty.vMap τ) := by
  have hlt := (List.getElem?_eq_some_iff.mp hi).1
  have hlt' : i < ds.length := h.length_eq ▸ hlt
  have hget := Forall₂.get h hlt hlt'
  rw [getD_eq_getElem _ _ hlt']
  rw [getElem?_eq_getElem hlt, Option.some.injEq] at hi
  simpa [← hi] using hget

theorem evalBranches_mem (hI : I.Sound) {b : List D} {ty : Ty} {P : D × Prop → Prop}
    {bl : List (Pattern × Term)} (hne : bl ≠ []) (hd : d ∈ I.carrier (ty.vMap τ)) (hp : ∀ c ∈ bl, PatTyped S c.1 ∧ c.1.patTy = ty)
    (hbl : ∀ c ∈ bl, ∀ ds, I.Typed τ (c.1.vars.map VSymbol.vsTy) ds →
      P (I.eval τ ρ (ds ++ b) c.2)) : P (I.evalBranches τ ρ b d bl) := by
  obtain ⟨c, hc, β, hβ, heq⟩ := evalBranches_cases hne
  rw [heq]
  refine hbl c hc _ (typed_values hI ?_ c.1.vars)
  rcases hβ with hβ | ⟨rfl, -⟩
  · obtain ⟨hpat, rfl⟩ := hp c hc
    exact matchPat_typed hpat hβ hd
  · simp

end Interp

open Interp

theorem WellTyped.eval_mem {I : Interp D} {τ : TyVal} {S : DataSig} (hI : I.Sound)
    (hρ : I.TypedVal τ ρ) {Γ : List Ty} {t : Term} {o : Option Ty}
    (h : WellTyped S Γ t o) {b : List D} (hb : I.Typed τ Γ b) (ty : Ty) (hty : o = some ty) :
    (I.eval τ ρ b t).1 ∈ I.carrier (ty.vMap τ) ∧ (I.eval τ ρ b t).2 = False := by
  induction h generalizing b ty with
  | tvar a v =>
    cases hty
    rw [eval_tvar]
    exact ⟨hρ v, rfl⟩
  | tbnd a hi =>
    cases hty
    rw [eval_tbnd]
    exact ⟨hb.getElem? hi _, rfl⟩
  | tconst a c ty =>
    cases hty
    rw [eval_tconst]
    exact ⟨hI.lit _ _, rfl⟩
  | @tapp Γ a ls tl o σ hls ho hlen htl ih =>
    subst hty
    obtain ⟨vty, hvty, rfl⟩ := Option.map_eq_some_iff.mp ho.symm
    rw [eval_tapp_some, Ty.vMap_vMap]
    refine ⟨hI.fn ls vty _ _ hvty ?_, rfl⟩
    unfold Typed
    rw [forall₂_iff_get]
    refine ⟨by simp [hlen], ?_⟩
    intro i hi hi'
    rw [length_map] at hi'
    have hmem := (ih i tl[i] ls.lsArgs[i] (getElem?_eq_getElem hi')
      (getElem?_eq_getElem hi) hb _ rfl).1
    rw [Ty.vMap_vMap] at hmem
    simpa using hmem
  | tif a hf ht he ihf iht ihe =>
    rw [eval_tif]
    split
    · exact iht hb ty hty
    · exact ihe hb ty hty
  | tlet a ht he iht ihe =>
    rw [eval_tlet]
    exact ihe (.cons (iht hb _ rfl).1 hb) ty hty
  | tcase a ht _ hne hp hbl iht ihbl =>
    rw [eval_tcase]
    refine evalBranches_mem (P := fun r => r.1 ∈ I.carrier (ty.vMap τ) ∧ r.2 = False) hI hne
      (iht hb _ rfl).1 hp ?_
    intro c hc ds hds
    exact ihbl c hc (hds.append hb) ty hty
  | teps a hf ih =>
    cases hty
    rw [eval_teps]
    exact ⟨hI.eps_mem _ _, rfl⟩
  | tquant | tbinop | tnot | ttrue | tfalse => cases hty

end Why3
