import Why3.Core.Foundness
import Why3.Logic.TaskSig
import Why3.Pattern.Local

/-!
# Declarations in a smaller known map

The checks of a declaration look at the symbols that the declaration mentions, and at those
that their declarations mention. A declaration that was added to a known map is added to a
smaller one as well, as long as that one knows the symbols of the declaration.
-/

namespace Why3

open Lib List

variable {ty : Ty} {ts : TySymbol}
variable {d : Decl} {tvs : List TvSymbol} {sts tss : List TySymbol} {j : ℕ}

section Agree

variable {kn kn' : KnownMap}

theorem ArgOf.typeKnown (h : ArgOf kn ts ty) : TypeKnown kn ts :=
  ⟨h.choose, h.choose_spec.1⟩

section

variable (h : KnownIn kn kn')
include h

theorem KnownIn.findConstructors_eq (hts : TypeKnown kn ts) :
    findConstructors kn' ts = findConstructors kn ts := by
  obtain ⟨d, hd⟩ := (TagMap.mem_eq_true_iff _ _).mp hts.mem
  rw [findConstructors, findConstructors, hd, h _ _ hd]

theorem KnownIn.argOf_iff (hts : TypeKnown kn ts) : ArgOf kn' ts ty ↔ ArgOf kn ts ty := by
  rw [ArgOf, ArgOf, h.findConstructors_eq hts]

/-! ## Positivity -/

theorem KnownIn.exposed (hexp : Exposed kn sts ts j) : Exposed kn' sts ts j := by
  induction hexp with
  | func sts => exact .func sts
  | abstract hts hsts hcs hj =>
    exact .abstract hts hsts ((h.findConstructors_eq ⟨_, hcs⟩).trans hcs) hj
  | data hts hsts harg happ hk hj hv _ ih =>
    exact .data hts hsts ((h.argOf_iff harg.typeKnown).mpr harg) happ hk hj hv ih

theorem KnownIn.exposed_iff (hargs : ArgsKnown kn) (hts : TypeKnown kn ts) :
    Exposed kn' sts ts j ↔ Exposed kn sts ts j := by
  refine ⟨fun hexp => ?_, h.exposed⟩
  induction hexp with
  | func sts => exact .func sts
  | abstract hne hsts hcs hj =>
    exact .abstract hne hsts ((h.findConstructors_eq hts).symm.trans hcs) hj
  | data hne hsts harg happ hk hj hv _ ih =>
    have harg' := (h.argOf_iff hts).mp harg
    exact .data hne hsts harg' happ hk hj hv (ih ((hargs _ _ harg').known _ happ.mem_syms))

end

theorem bool_list_ext {l l' : List Bool} (hlen : l.length = l'.length)
    (h : ∀ j : ℕ, l[j]? = some false ↔ l'[j]? = some false) : l = l' := by
  refine ext_getElem hlen fun j hj hj' => ?_
  have hjj := h j
  rw [getElem?_eq_getElem hj, getElem?_eq_getElem hj', Option.some.injEq, Option.some.injEq] at hjj
  exact Bool.eq_iff_iff.mpr (by simpa using not_congr hjj)

theorem KnownIn.tsExtractPos_eq (h : KnownIn kn kn') (hargs : ArgsKnown kn) (hargs' : ArgsKnown kn')
    (hts : TypeKnown kn ts) : tsExtractPos kn' [] ts = tsExtractPos kn [] ts := by
  have hts' : TypeKnown kn' ts := by
    obtain ⟨csl, hcsl⟩ := hts
    exact ⟨csl, (h.findConstructors_eq ⟨csl, hcsl⟩).trans hcsl⟩
  obtain ⟨posl, hposl, hlen, hspec⟩ := tsExtractPosFuel_spec hargs (kn.bindings.length + 2) [] ts
    nodup_nil (by simp) (.inr hts) (by simp)
  obtain ⟨posl', hposl', hlen', hspec'⟩ := tsExtractPosFuel_spec hargs' (kn'.bindings.length + 2)
    [] ts nodup_nil (by simp) (.inr hts') (by simp)
  rw [tsExtractPos, tsExtractPos, hposl, hposl', Except.ok.injEq]
  refine bool_list_ext (hlen'.trans hlen.symm) fun j => ?_
  rw [hspec', hspec, h.exposed_iff hargs hts]

section CheckPos

set_option linter.unusedSectionVars false

variable {tss : List TySymbol} {tys : TySymbol} {cs : LSymbol}
  (hext : ∀ ts, TypeKnown kn ts → tsExtractPos kn' [] ts = tsExtractPos kn [] ts)

include hext

mutual

theorem checkPosTy_congr : ∀ ty : Ty, (∀ ts ∈ ty.syms, TypeKnown kn ts) →
    checkPosTy kn' tss tys cs ty = checkPosTy kn tss tys cs ty
  | .tyvar _, _ => rfl
  | .tyapp ts tl, h => by
    rw [checkPosTy, checkPosTy, hext ts (h ts (by simp))]
    refine except_bind_congr fun posl _ => checkPosList_congr tl posl fun ty hty ts' hts' => ?_
    exact h ts' ((Ty.mem_syms_tyapp ts tl ts').mpr (.inr ⟨ty, hty, hts'⟩))

theorem checkPosList_congr : ∀ (tl : List Ty) (posl : List Bool),
    (∀ ty ∈ tl, ∀ ts ∈ ty.syms, TypeKnown kn ts) →
    checkPosList kn' tss tys cs posl tl = checkPosList kn tss tys cs posl tl
  | [], [], _ => rfl
  | [], b :: _, _ => by cases b <;> rfl
  | _ :: _, [], _ => rfl
  | ty :: tl, true :: posl, h => by
    rw [forall_mem_cons] at h
    rw [checkPosList, checkPosList, checkPosTy_congr ty h.1, checkPosList_congr tl posl h.2]
  | ty :: tl, false :: posl, h => by
    rw [forall_mem_cons] at h
    rw [checkPosList, checkPosList, checkPosList_congr tl posl h.2]

end

end CheckPos

/-! ## Inhabitation -/

theorem KnownIn.founded (h : KnownIn kn kn') (hty : Founded kn tss tvs ty) :
    Founded kn' tss tvs ty := by
  induction hty with
  | tyvar hv => exact .tyvar hv
  | abstract hts hcs _ ih =>
    exact .abstract hts ((h.findConstructors_eq ⟨_, hcs⟩).trans hcs) ih
  | data hts hcs hc _ _ ihargs ihconstr =>
    exact .data hts ((h.findConstructors_eq ⟨_, hcs⟩).trans hcs) hc ihargs ihconstr

theorem KnownIn.founded_iff (h : KnownIn kn kn') (hargs : ArgsKnown kn)
    (hty : ∀ ts ∈ ty.syms, TypeKnown kn ts) : Founded kn' tss tvs ty ↔ Founded kn tss tvs ty := by
  refine ⟨fun hf => ?_, h.founded⟩
  induction hf with
  | tyvar hv => exact .tyvar hv
  | @abstract tss tvs ts tl hts hcs _ ih =>
    refine .abstract hts ((h.findConstructors_eq (hty ts (by simp))).symm.trans hcs)
      fun ty hmem => ih ty hmem fun ts' hts' => hty ts' ?_
    exact (Ty.mem_syms_tyapp ts tl ts').mpr (.inr ⟨ty, hmem, hts'⟩)
  | @data tss tvs tvs' ts tl csl c hts hcs hc _ _ ihargs ihconstr =>
    have hcs' := (h.findConstructors_eq (hty ts (by simp))).symm.trans hcs
    refine .data hts hcs' hc (fun v hv hv' => ihargs v hv hv' fun ts' hts' => ?_)
      fun ty hmem => ihconstr ty hmem (hargs ts ty ⟨csl, hcs', c, hc, hmem⟩).known
    -- a parameter stands for an argument, or for itself
    rw [paramMap] at hts'
    cases hlookup : (ts.tsArgs.zip tl).lookup v with
    | none => simp [hlookup] at hts'
    | some ty =>
      rw [hlookup] at hts'
      have hmem := of_mem_zip (mem_of_lookup hlookup)
      exact hty ts' ((Ty.mem_syms_tyapp ts tl ts').mpr (.inr ⟨ty, hmem.2, hts'⟩))

theorem Decides.eq_of_iff {x y : Except Exn Bool} {p q : Prop} (hx : Decides x p) (hy : Decides y q)
    (h : p ↔ q) : x = y := by
  obtain ⟨b, rfl, hb⟩ := hx
  obtain ⟨c, rfl, hc⟩ := hy
  rw [Bool.eq_iff_iff.mpr (hb.trans (h.trans hc.symm))]

theorem KnownIn.checkTs_eq (h : KnownIn kn kn') (hargs : ArgsKnown kn) (hargs' : ArgsKnown kn')
    (hts : TypeKnown kn ts) : checkTs kn' [] [] ts = checkTs kn [] [] ts := by
  have hts' : TypeKnown kn' ts := by
    obtain ⟨csl, hcsl⟩ := hts
    exact ⟨csl, (h.findConstructors_eq ⟨csl, hcsl⟩).trans hcsl⟩
  refine (checkTs_decides hargs' hts').eq_of_iff (checkTs_decides hargs hts)
    (h.founded_iff hargs fun ts' hts'' => ?_)
  obtain rfl : ts' = ts := by simpa [tyParams] using hts''
  exact hts

end Agree

/-! ## One addition -/

theorem foldlM_addNew_knownIn (l : List Sym) {kn kn' kn₁ : KnownMap} (hin : KnownIn kn' kn)
    (h : l.foldlM (addNew d) kn = .ok kn₁) :
    ∃ kn₁', l.foldlM (addNew d) kn' = .ok kn₁' ∧ KnownIn kn₁' kn₁ := by
  induction l generalizing kn kn' with
  | nil =>
    rw [foldlM_nil_eq_ok] at h
    exact ⟨kn', rfl, h ▸ hin⟩
  | cons a l ih =>
    obtain ⟨kn₂, hadd, hfold⟩ := foldlM_cons_eq_ok.mp h
    unfold addNew at hadd
    split at hadd
    · next hnew =>
        cases hadd
        have hnew' : kn'.find? a = none := by
          cases hfind : kn'.find? a with
          | none => rfl
          | some d' => cases hnew.symm.trans (hin a d' hfind)
        have hin' : KnownIn (kn'.add a d) (kn.add a d) := by
          intro s d' hs
          rw [TagMap.find?_add] at hs ⊢
          split
          · next hsa => rwa [if_pos hsa] at hs
          · next hsa =>
              rw [if_neg hsa] at hs
              exact hin s d' hs
        obtain ⟨kn₁', hfold', hin₁⟩ := ih hin' hfold
        exact ⟨kn₁', foldlM_cons_eq_ok.mpr ⟨_, by rw [addNew, hnew'], hfold'⟩, hin₁⟩
    · split at hadd <;> cases hadd

theorem checkMatch_eq_terms (kn : KnownMap) {syms : List Sym} (h : getDeclSyms d = .ok syms) :
    checkMatch kn d = (declTerms d).forM (checkMatchTerm kn) := by
  rw [checkMatch_eq kn h, declStmts, forM_flatMap]
  exact forM_congr fun t _ => (checkMatchTerm_eq kn t).symm

/-- The symbols that a declaration mentions, itself introducing some of them, are known. -/
def UsesKnown (kn : KnownMap) (d : Decl) : Prop :=
  ∀ syms, getDeclSyms d = .ok syms → ∀ s ∈ syms, s ∈ declNews d ∨ kn.mem s = true

section Addition

open List

variable {kn kn' kn₁ : KnownMap} {d : Decl}

theorem AddedBase.mem_iff (h : AddedBase kn d kn₁) {s : Sym} :
    kn₁.mem s = true ↔ s ∈ declNews d ∨ kn.mem s = true := by
  rw [TagMap.mem_eq_true_iff, TagMap.mem_eq_true_iff, h.find]
  by_cases hs : s ∈ declNews d <;> simp [hs]

/-- The symbols are added, or one that the declaration mentions is not known. -/
theorem knownAddDeclBase_local (hin : KnownIn kn' kn) (h : knownAddDeclBase kn d = .ok kn₁) :
    (UsesKnown kn' d ∧ ∃ kn₁', knownAddDeclBase kn' d = .ok kn₁' ∧ KnownIn kn₁' kn₁) ∨
      ¬ UsesKnown kn' d ∧ ∃ i, knownAddDeclBase kn' d = .error (.unknownIdent i) := by
  obtain ⟨kn₂, hfold, syms, hsyms, hrest⟩ := bind₂_eq_ok.mp h
  obtain rfl : kn₂ = kn₁ := by
    split at hrest
    · exact Except.ok.inj hrest
    · cases hrest
  obtain ⟨kn₂', hfold', hin'⟩ := foldlM_addNew_knownIn _ hin hfold
  have hmem : ∀ s, kn₂'.mem s = true ↔ s ∈ declNews d ∨ kn'.mem s = true := by
    intro s
    rw [TagMap.mem_eq_true_iff, TagMap.mem_eq_true_iff, (foldlM_addNew _ _ _ hfold').2]
    by_cases hs : s ∈ declNews d <;> simp [hs]
  cases hfind : syms.find? fun s => !kn₂'.mem s with
  | none =>
    refine .inl ⟨fun syms' hsyms' s hs => ?_, kn₂',
      bind₂_eq_ok.mpr ⟨_, hfold', _, hsyms, by rw [hfind]⟩, hin'⟩
    cases hsyms.symm.trans hsyms'
    rw [← hmem]
    simpa using find?_eq_none.mp hfind s hs
  | some s =>
    refine .inr ⟨fun huses => ?_, s.id,
      by simp [knownAddDeclBase, hfold', hsyms, hfind, bind, Except.bind]⟩
    have hs := find?_some hfind
    rw [(hmem s).mpr (huses syms hsyms s (mem_of_find?_eq_some hfind))] at hs
    cases hs

theorem checks_local (hkn : Known kn) (hkn' : Known kn') (hd : d.WellFormed) {kn₁' : KnownMap}
    (hadd : AddedBase kn d kn₁) (hadd' : AddedBase kn' d kn₁') (hin : KnownIn kn₁' kn₁) :
    checkPositivity kn₁' d = checkPositivity kn₁ d ∧ checkFoundness kn₁' d = checkFoundness kn₁ d ∧
      checkMatch kn₁' d = checkMatch kn₁ d := by
  have hargs := hadd.argsKnown hd hkn.introduced hkn.argsKnown
  have hargs' := hadd'.argsKnown hd hkn'.introduced hkn'.argsKnown
  have hintro := hadd'.introduced hkn'.introduced
  obtain ⟨syms, hsyms, hknown⟩ := hadd'.uses
  refine ⟨?_, ?_, ?_⟩
  · cases d with
    | ddata tdl =>
      refine forM_congr fun td htd => forM_congr fun c hc => forM_congr fun ty hty => ?_
      refine (checkPosTy_congr (fun ts hts => hin.tsExtractPos_eq hargs' hargs hts) ty
        fun ts hts => hintro.typeKnown (hknown _ ?_)).symm
      cases hsyms
      exact mem_flatMap.mpr ⟨td, htd, mem_flatMap.mpr ⟨c, hc,
        mem_flatMap.mpr ⟨ty, hty, mem_map_of_mem hts⟩⟩⟩
    | _ => rfl
  · cases d with
    | ddata tdl =>
      refine forM_congr fun td htd => ?_
      have hts : TypeKnown kn₁' td.1 := hintro.typeKnown (hadd'.mem_iff.mpr (.inl
        (ts_mem_declNews_ddata.mpr (mem_map_of_mem htd))))
      rw [hin.checkTs_eq hargs' hargs hts]
    | _ => rfl
  · rw [checkMatch_eq_terms _ hsyms, checkMatch_eq_terms _ hsyms]
    refine forM_congr fun t ht => checkMatchTerm_congr (P := fun s => kn₁'.mem s = true)
      (fun ts hts => (hin.findConstructors_eq (hintro.typeKnown hts)).symm) t fun y hy => ?_
    exact hknown y (declTerms_syms hsyms t ht y hy)

/-- A declaration that was added to a map is added to a smaller one if its symbols are known
there. Otherwise one of them is reported as unknown. -/
theorem knownAddDecl_local (hkn : Known kn) (hkn' : Known kn') (hin : KnownIn kn' kn)
    (hd : d.WellFormed) (h : knownAddDecl kn d = .ok kn₁) :
    (UsesKnown kn' d ∧ ∃ kn₁', knownAddDecl kn' d = .ok kn₁' ∧ KnownIn kn₁' kn₁) ∨
      ¬ UsesKnown kn' d ∧ ∃ i, knownAddDecl kn' d = .error (.unknownIdent i) := by
  obtain ⟨kn₂, hbase, h⟩ := bind_eq_ok.mp h
  rcases knownAddDeclBase_local hin hbase with ⟨huses, kn₂', hbase', hin'⟩ | ⟨huses, i, hbase'⟩
  · obtain ⟨hpos, hfound, hmatch⟩ := checks_local hkn hkn' hd (knownAddDeclBase_added hbase)
      (knownAddDeclBase_added hbase') hin'
    obtain ⟨⟨⟩, hpos₁, ⟨⟩, hfound₁, ⟨⟩, hmatch₁, h⟩ := bind₃_eq_ok.mp h
    cases h
    refine .inl ⟨huses, kn₂', ?_, hin'⟩
    exact bind₃_eq_ok.mpr ⟨kn₂', hbase', (), hpos.trans hpos₁, (), hfound.trans hfound₁,
        bind_eq_ok.mpr ⟨(), hmatch.trans hmatch₁, rfl⟩⟩
  · refine .inr ⟨huses, i, ?_⟩
    rw [knownAddDecl, hbase']
    rfl

end Addition

end Why3
