import Why3.Core.Unfolding

/-!
# What the positivity check computes

`tsExtractPos` expands a type symbol once and takes every symbol whose expansion
is under way for positive in all its parameters. What it computes is described by
`Exposed`: a parameter is answered negative exactly when it reaches the left of an
arrow, or an argument of an abstract type, along a chain of applications that
never comes back to a symbol.
-/

namespace Why3

open Lib List

variable {posl : List Bool} {tl : List Ty} {sts : List TySymbol} {v : TvSymbol} {ty : Ty}
variable {ts : TySymbol} {j : ℕ}
variable {csl : List Constructor} {ext : TySymbol → Except Exn (List Bool)}

/-! ## What is computed -/

inductive AppIn : Ty → TySymbol → List Ty → Prop where
  | here (ts : TySymbol) (tl : List Ty) : AppIn (.tyapp ts tl) ts tl
  | arg {ts ts' : TySymbol} {tl tl' : List Ty} {ty : Ty} (hty : ty ∈ tl)
      (h : AppIn ty ts' tl') : AppIn (.tyapp ts tl) ts' tl'

/-- A parameter, given by its position, is exposed: a chain of applications in
constructor arguments leads from it to the left of an arrow or to an argument of
an abstract type, and visits no symbol twice and none of `sts`. -/
inductive Exposed (kn : KnownMap) : List TySymbol → TySymbol → ℕ → Prop where
  | func (sts : List TySymbol) : Exposed kn sts tsFunc 0
  | abstract {sts : List TySymbol} {ts : TySymbol} {j : ℕ} (hts : ts ≠ tsFunc) (hsts : ts ∉ sts)
      (hcs : findConstructors kn ts = .ok []) (hj : j < ts.tsArgs.length) : Exposed kn sts ts j
  | data {sts : List TySymbol} {ts ts' : TySymbol} {j k : ℕ} {v : TvSymbol} {arg ty : Ty}
      {tl : List Ty} (hts : ts ≠ tsFunc) (hsts : ts ∉ sts) (harg : ArgOf kn ts arg)
      (happ : AppIn arg ts' tl) (hk : tl[k]? = some ty) (hj : ts.tsArgs[j]? = some v)
      (hv : v ∈ ty.freevars) (hrest : Exposed kn (ts :: sts) ts' k) : Exposed kn sts ts j

theorem AppIn.freevars (h : AppIn ty ts tl) {a : Ty} (ha : a ∈ tl) (hv : v ∈ a.freevars) :
    v ∈ ty.freevars := by
  induction h with
  | here ts tl => exact (Ty.mem_freevars_tyapp ts tl v).mpr ⟨a, ha, hv⟩
  | arg hty _ ih => exact (Ty.mem_freevars_tyapp _ _ v).mpr ⟨_, hty, ih ha⟩

theorem AppIn.mem_syms (h : AppIn ty ts tl) : ts ∈ ty.syms := by
  induction h with
  | here ts tl => simp
  | arg hty _ ih => exact (Ty.mem_syms_tyapp _ _ _).mpr (.inr ⟨_, hty, ih⟩)

section GetTy

variable {ext : TySymbol → Except Exn (List Bool)}

/-- The variable occurs in an argument whose position is not positive. -/
def NegAt (posl : List Bool) (tl : List Ty) (v : TvSymbol) : Prop :=
  ∃ (k : ℕ) (a : Ty), posl[k]? = some false ∧ tl[k]? = some a ∧ v ∈ a.freevars

theorem negAt_cons {b : Bool} :
    NegAt (b :: posl) (ty :: tl) v ↔ (b = false ∧ v ∈ ty.freevars) ∨ NegAt posl tl v := by
  constructor
  · rintro ⟨k, a, hk, ha, hv⟩
    cases k with
    | zero =>
      simp only [getElem?_cons_zero, Option.some.injEq] at hk ha
      exact .inl ⟨hk, ha ▸ hv⟩
    | succ k => exact .inr ⟨k, a, by simpa using hk, by simpa using ha, hv⟩
  · rintro (⟨hb, hv⟩ | ⟨k, a, hk, ha, hv⟩)
    · exact ⟨0, ty, by simp [hb], rfl, hv⟩
    · exact ⟨k + 1, a, by simpa using hk, by simpa using ha, hv⟩

/-- The variable occurs in an argument whose position `ext` does not call
positive. -/
def NegIn (ext : TySymbol → Except Exn (List Bool)) (ty : Ty) (v : TvSymbol) : Prop :=
  ∃ ts tl posl, AppIn ty ts tl ∧ ext ts = .ok posl ∧ NegAt posl tl v

theorem not_negIn_tyvar {w : TvSymbol} : ¬ NegIn ext (.tyvar w) v := by
  rintro ⟨ts, tl, posl, happ, _⟩
  cases happ

theorem negIn_tyapp (hext : ext ts = .ok posl) :
    NegIn ext (.tyapp ts tl) v ↔ NegAt posl tl v ∨ ∃ a ∈ tl, NegIn ext a v := by
  constructor
  · rintro ⟨ts', tl', posl', happ, hext', hneg⟩
    cases happ with
    | here =>
      rw [hext, Except.ok.injEq] at hext'
      exact .inl (hext' ▸ hneg)
    | arg hty happ => exact .inr ⟨_, hty, ts', tl', posl', happ, hext', hneg⟩
  · rintro (hneg | ⟨b, hb, ts', tl', posl', happ, hext', hneg⟩)
    · exact ⟨ts, tl, posl, .here ts tl, hext, hneg⟩
    · exact ⟨ts', tl', posl', .arg hb happ, hext', hneg⟩

theorem NegIn.freevars (h : NegIn ext ty v) : v ∈ ty.freevars := by
  obtain ⟨ts, tl, posl, happ, _, k, a, _, ha, hv⟩ := h
  exact happ.freevars (mem_of_getElem? ha) hv

theorem getTyList_spec {tl : List Ty}
    (ih : ∀ ty ∈ tl, ∀ stv stv', getTy ext stv ty = .ok stv' →
      ∀ v, v ∈ stv' ↔ v ∈ stv ∨ NegIn ext ty v)
    {posl : List Bool} {stv stv' : List TvSymbol} (h : getTyList ext stv posl tl = .ok stv')
    (v : TvSymbol) : v ∈ stv' ↔ v ∈ stv ∨ NegAt posl tl v ∨ ∃ a ∈ tl, NegIn ext a v := by
  induction tl generalizing posl stv with
  | nil =>
    cases posl with
    | nil =>
      simp only [getTyList, Except.ok.injEq] at h
      subst h
      simp [NegAt]
    | cons b posl => cases b <;> simp [getTyList] at h
  | cons ty tl ihl =>
    have ihl' := @ihl fun ty' hty' => ih ty' (mem_cons_of_mem ty hty')
    cases posl with
    | nil => simp [getTyList] at h
    | cons b posl =>
      rw [negAt_cons, exists_mem_cons_iff]
      cases b with
      | true =>
        obtain ⟨stv₁, h₁, h₂⟩ := bind_eq_ok.mp h
        rw [ihl' h₂, ih ty mem_cons_self stv stv₁ h₁ v]
        clear ih ihl ihl'
        tauto
      | false =>
        change getTyList ext (stv ++ ty.freevars) posl tl = .ok stv' at h
        rw [ihl' h, mem_append]
        -- a variable that is negative inside the argument is one of its variables
        have hneg : NegIn ext ty v → v ∈ ty.freevars := NegIn.freevars
        clear ih ihl ihl'
        tauto

theorem getTy_spec (ty : Ty) :
    ∀ stv stv', getTy ext stv ty = .ok stv' → ∀ v, v ∈ stv' ↔ v ∈ stv ∨ NegIn ext ty v := by
  induction ty using Ty.inductionOn with
  | hvar w =>
    intro stv stv' h v
    simp only [getTy, Except.ok.injEq] at h
    subst h
    simp [not_negIn_tyvar]
  | happ ts tl ih =>
    intro stv stv' h v
    obtain ⟨posl, hext, h⟩ := bind_eq_ok.mp h
    rw [getTyList_spec ih h, negIn_tyapp hext]

theorem foldlM_getTy_spec (tl : List Ty) :
    ∀ stv stv', tl.foldlM (getTy ext) stv = .ok stv' →
      ∀ v, v ∈ stv' ↔ v ∈ stv ∨ ∃ ty ∈ tl, NegIn ext ty v := by
  induction tl with
  | nil =>
    intro stv stv' h v
    rw [foldlM_nil_eq_ok] at h
    simp [h]
  | cons ty tl ih =>
    intro stv stv' h v
    obtain ⟨stv₁, h₁, h₂⟩ := foldlM_cons_eq_ok.mp h
    rw [ih stv₁ stv' h₂, getTy_spec ty stv stv₁ h₁, exists_mem_cons_iff, or_assoc]

theorem foldlM_getCs_spec (csl : List Constructor) :
    ∀ stv stv', csl.foldlM (getCs ext) stv = .ok stv' →
      ∀ v, v ∈ stv' ↔ v ∈ stv ∨ ∃ c ∈ csl, ∃ ty ∈ c.1.lsArgs, NegIn ext ty v := by
  induction csl with
  | nil =>
    intro stv stv' h v
    rw [foldlM_nil_eq_ok] at h
    simp [h]
  | cons c csl ih =>
    intro stv stv' h v
    obtain ⟨stv₁, h₁, h₂⟩ := foldlM_cons_eq_ok.mp h
    rw [ih stv₁ stv' h₂, foldlM_getTy_spec c.1.lsArgs stv stv₁ h₁, exists_mem_cons_iff, or_assoc]

/-- Nothing goes wrong when `ext` answers on every symbol, with one answer for
each parameter. -/
theorem getTy_total (ty : Ty) (hsat : ty.saturated = true)
    (hext : ∀ ts ∈ ty.syms, ∃ posl, ext ts = .ok posl ∧ posl.length = ts.tsArgs.length) :
    ∀ stv, ∃ stv', getTy ext stv ty = .ok stv' := by
  induction ty using Ty.inductionOn with
  | hvar w => exact fun stv => ⟨stv, rfl⟩
  | happ ts tl ih =>
    intro stv
    obtain ⟨posl, hposl, hlen⟩ := hext ts (by simp)
    obtain ⟨hl, htl⟩ := (Ty.saturated_tyapp ts tl).mp hsat
    have htotal : ∀ ty ∈ tl, ∀ stv, ∃ stv', getTy ext stv ty = .ok stv' := by
      intro ty hty
      refine ih ty hty (htl ty hty) ?_
      intro ts' hts'
      exact hext ts' ((Ty.mem_syms_tyapp ts tl ts').mpr (.inr ⟨ty, hty, hts'⟩))
    have hlist : ∀ (tl : List Ty) (posl : List Bool), posl.length = tl.length →
        (∀ ty ∈ tl, ∀ stv, ∃ stv', getTy ext stv ty = .ok stv') →
        ∀ stv, ∃ stv', getTyList ext stv posl tl = .ok stv' := by
      intro tl
      induction tl with
      | nil =>
        intro posl hlen _ stv
        rw [length_nil, length_eq_zero_iff] at hlen
        exact ⟨stv, by rw [hlen]; rfl⟩
      | cons ty tl ihl =>
        intro posl hlen htotal stv
        have htl := fun ty' hty' => htotal ty' (mem_cons_of_mem ty hty')
        cases posl with
        | nil => simp at hlen
        | cons b posl =>
          simp only [length_cons, Nat.add_right_cancel_iff] at hlen
          cases b with
          | true =>
            obtain ⟨stv₁, h₁⟩ := htotal ty mem_cons_self stv
            obtain ⟨stv₂, h₂⟩ := ihl posl hlen htl stv₁
            exact ⟨stv₂, bind_eq_ok.mpr ⟨stv₁, h₁, h₂⟩⟩
          | false => exact ihl posl hlen htl (stv ++ ty.freevars)
    obtain ⟨stv', h⟩ := hlist tl posl (hlen.trans hl.symm) htotal stv
    exact ⟨stv', bind_eq_ok.mpr ⟨posl, hposl, h⟩⟩

end GetTy

theorem foldlM_total {σ β : Type} {f : σ → β → Except Exn σ} {l : List β}
    (h : ∀ b ∈ l, ∀ s, ∃ s', f s b = .ok s') : ∀ s, ∃ s', l.foldlM f s = .ok s' := by
  induction l with
  | nil => exact fun s => ⟨s, foldlM_nil_eq_ok.mpr rfl⟩
  | cons b l ih =>
    intro s
    obtain ⟨s₁, h₁⟩ := h b mem_cons_self s
    obtain ⟨s₂, h₂⟩ := ih (fun b' hb' => h b' (mem_cons_of_mem b hb')) s₁
    exact ⟨s₂, foldlM_cons_eq_ok.mpr ⟨s₁, h₁, h₂⟩⟩

section ExtractPos

variable {kn : KnownMap}

theorem exposed_tsFunc : Exposed kn sts tsFunc j ↔ j = 0 := by
  constructor
  · intro h
    cases h with
    | func => rfl
    | abstract hts | data hts => exact absurd rfl hts
  · rintro rfl
    exact .func sts

section

variable (hts : ts ≠ tsFunc)
include hts

theorem not_exposed_of_mem (hmem : ts ∈ sts) : ¬ Exposed kn sts ts j := by
  intro h
  cases h with
  | func => exact hts rfl
  | abstract _ hsts | data _ hsts => exact hsts hmem

theorem exposed_abstract (hmem : ts ∉ sts) (hcs : findConstructors kn ts = .ok []) :
    Exposed kn sts ts j ↔ j < ts.tsArgs.length := by
  constructor
  · intro h
    cases h with
    | func => exact absurd rfl hts
    | abstract _ _ _ hj => exact hj
    | data _ _ _ _ _ hj => exact (List.getElem?_eq_some_iff.mp hj).1
  · exact .abstract hts hmem hcs

/-- Exposure of a parameter of an algebraic type, when `ext` computes exposure
one level below. -/
theorem exposed_data (hmem : ts ∉ sts) (hcs : findConstructors kn ts = .ok csl) (hne : csl ≠ [])
    (hext : ∀ c ∈ csl, ∀ ty ∈ c.1.lsArgs, ∀ ts' ∈ ty.syms, ∃ posl, ext ts' = .ok posl ∧
      ∀ k, posl[k]? = some false ↔ Exposed kn (ts :: sts) ts' k) :
    Exposed kn sts ts j ↔
      ∃ v, ts.tsArgs[j]? = some v ∧ ∃ c ∈ csl, ∃ ty ∈ c.1.lsArgs, NegIn ext ty v := by
  constructor
  · intro h
    cases h with
    | func => exact absurd rfl hts
    | abstract _ _ hcs' =>
      rw [hcs, Except.ok.injEq] at hcs'
      exact absurd hcs' hne
    | @data _ _ ts' _ k v arg ty tl _ _ harg happ hk hj hv hrest =>
      obtain ⟨csl', hcs', c, hc, harg⟩ := harg
      rw [hcs, Except.ok.injEq] at hcs'
      subst hcs'
      obtain ⟨posl, hposl, hspec⟩ := hext c hc arg harg ts' happ.mem_syms
      exact ⟨v, hj, c, hc, arg, harg, ts', tl, posl, happ, hposl, k, ty, (hspec k).mpr hrest,
        hk, hv⟩
  · rintro ⟨v, hj, c, hc, arg, harg, ts', tl, posl, happ, hposl, k, ty, hk, hty, hv⟩
    obtain ⟨posl', hposl', hspec⟩ := hext c hc arg harg ts' happ.mem_syms
    rw [hposl, Except.ok.injEq] at hposl'
    subst hposl'
    exact .data hts hmem ⟨csl, hcs, c, hc, harg⟩ happ hty hj hv ((hspec k).mp hk)

/-- The variables that are collected for an algebraic type are the exposed ones. -/
theorem negs_spec (hmem : ts ∉ sts) (hcs : findConstructors kn ts = .ok csl) (hne : csl ≠ [])
    (hargs : ∀ c ∈ csl, ∀ ty ∈ c.1.lsArgs, ArgWellFormed kn ts ty)
    (hext : ∀ c ∈ csl, ∀ ty ∈ c.1.lsArgs, ∀ ts' ∈ ty.syms, ∃ posl, ext ts' = .ok posl ∧
      posl.length = ts'.tsArgs.length ∧
      ∀ k : ℕ, posl[k]? = some false ↔ Exposed kn (ts :: sts) ts' k) :
    ∃ negs, csl.foldlM (getCs ext) [] = .ok negs ∧
      ∀ j : ℕ, (∃ v, ts.tsArgs[j]? = some v ∧ v ∈ negs) ↔ Exposed kn sts ts j := by
  have htotal : ∀ c ∈ csl, ∀ stv, ∃ stv', getCs ext stv c = .ok stv' := by
    intro c hc
    apply foldlM_total
    intro ty hty
    apply getTy_total ty (hargs c hc ty hty).saturated
    intro ts' hts'
    obtain ⟨posl, hposl, hlen, _⟩ := hext c hc ty hty ts' hts'
    exact ⟨posl, hposl, hlen⟩
  obtain ⟨negs, hnegs⟩ := foldlM_total htotal []
  refine ⟨negs, hnegs, ?_⟩
  intro j
  have hext' : ∀ c ∈ csl, ∀ ty ∈ c.1.lsArgs, ∀ ts' ∈ ty.syms, ∃ posl, ext ts' = .ok posl ∧
      ∀ k : ℕ, posl[k]? = some false ↔ Exposed kn (ts :: sts) ts' k := by
    intro c hc ty hty ts' hts'
    obtain ⟨posl, hposl, _, hspec⟩ := hext c hc ty hty ts' hts'
    exact ⟨posl, hposl, hspec⟩
  rw [exposed_data hts hmem hcs hne hext']
  simp only [foldlM_getCs_spec csl [] negs hnegs, not_mem_nil, false_or]

end

theorem length_le_of_typeKnown (hnodup : sts.Nodup) (hsts : ∀ ts ∈ sts, TypeKnown kn ts) :
    sts.length ≤ kn.bindings.length := by
  have hinj : Function.Injective fun ts : TySymbol => Sym.ts ts.embed := by
    intro ts ts' h
    exact TySym.embed_injective (Sym.ts.inj h)
  have hsub : sts.map (fun ts => Sym.ts ts.embed) ⊆ kn.bindings.map Prod.fst := by
    intro s hs
    obtain ⟨ts, hts, rfl⟩ := mem_map.mp hs
    rw [TagMap.mem_keys_iff]
    exact (hsts ts hts).mem
  have hle := ((hnodup.map hinj).subperm hsub).length_le
  simpa using hle

/-- Enough fuel gives an answer, and a parameter is answered negative exactly when
it is exposed. -/
theorem tsExtractPosFuel_spec (hkn : ArgsKnown kn) : ∀ (fuel : ℕ) (sts : List TySymbol)
    (ts : TySymbol), sts.Nodup → (∀ s ∈ sts, TypeKnown kn s) → ts = tsFunc ∨ TypeKnown kn ts →
    kn.bindings.length < fuel + sts.length →
    ∃ posl, tsExtractPosFuel kn fuel sts ts = .ok posl ∧ posl.length = ts.tsArgs.length ∧
      ∀ j : ℕ, posl[j]? = some false ↔ Exposed kn sts ts j := by
  intro fuel
  induction fuel with
  | zero =>
    intro sts ts hnodup hsts _ hfuel
    have hle := length_le_of_typeKnown hnodup hsts
    omega
  | succ fuel ih =>
    intro sts ts hnodup hsts hknown hfuel
    unfold tsExtractPosFuel
    by_cases hts : ts = tsFunc
    · subst hts
      refine ⟨[false, true], by simp, rfl, ?_⟩
      intro j
      rw [exposed_tsFunc]
      match j with
      | 0 => simp
      | 1 => simp
      | j + 2 => simp
    · rw [if_neg hts]
      by_cases hmem : ts ∈ sts
      · refine ⟨ts.tsArgs.map fun _ => true, by simp [hmem], by simp, ?_⟩
        intro j
        rw [getElem?_map]
        simp [not_exposed_of_mem hts hmem]
      · rw [if_neg hmem]
        obtain ⟨csl, hcs⟩ := hknown.resolve_left hts
        have hnodup' : (ts :: sts).Nodup := nodup_cons.mpr ⟨hmem, hnodup⟩
        have hsts' : ∀ s ∈ ts :: sts, TypeKnown kn s :=
          forall_mem_cons.mpr ⟨⟨csl, hcs⟩, hsts⟩
        rw [hcs]
        cases csl with
        | nil =>
          refine ⟨ts.tsArgs.map fun _ => false, rfl, by simp, ?_⟩
          intro j
          rw [exposed_abstract hts hmem hcs, getElem?_map, Option.map_eq_some_iff]
          simp only [and_true]
          exact ⟨fun ⟨_, h⟩ => (List.getElem?_eq_some_iff.mp h).1,
            fun h => ⟨_, getElem?_eq_getElem h⟩⟩
        | cons c csl =>
          have hargs : ∀ c' ∈ c :: csl, ∀ ty ∈ c'.1.lsArgs, ArgWellFormed kn ts ty :=
            fun c' hc' ty hty => hkn ts ty ⟨c :: csl, hcs, c', hc', hty⟩
          have hext : ∀ c' ∈ c :: csl, ∀ ty ∈ c'.1.lsArgs, ∀ ts' ∈ ty.syms, ∃ posl,
              tsExtractPosFuel kn fuel (ts :: sts) ts' = .ok posl ∧
                posl.length = ts'.tsArgs.length ∧
                ∀ j : ℕ, posl[j]? = some false ↔ Exposed kn (ts :: sts) ts' j := by
            intro c' hc' ty hty ts' hts'
            refine ih (ts :: sts) ts' hnodup' hsts' (.inr ?_) ?_
            · exact (hargs c' hc' ty hty).known ts' hts'
            · rw [length_cons]
              omega
          obtain ⟨negs, hnegs, hspec⟩ := negs_spec hts hmem hcs (by simp) hargs hext
          refine ⟨ts.tsArgs.map fun v => decide (v ∉ negs), ?_, by simp, ?_⟩
          · exact bind_eq_ok.mpr ⟨c :: csl, rfl, bind_eq_ok.mpr ⟨negs, hnegs, rfl⟩⟩
          · intro j
            rw [← hspec j, getElem?_map, Option.map_eq_some_iff]
            simp

theorem tsExtractPos_spec (hkn : Known kn) (hts : ts = tsFunc ∨ TypeKnown kn ts) :
    ∃ posl, tsExtractPos kn [] ts = .ok posl ∧ posl.length = ts.tsArgs.length ∧
      ∀ j : ℕ, posl[j]? = some false ↔ Exposed kn [] ts j :=
  tsExtractPosFuel_spec hkn.argsKnown _ [] ts nodup_nil (by simp) hts (by simp)

end ExtractPos

end Why3
