import Why3.Core.Decl

/-!
# Known maps that arise from declarations

`Known kn` says that `kn` was built from the empty map by adding declarations one
after another. In such a map the declaration of an algebraic type mentions known
types only, and with its own parameters only.
-/

namespace Why3

open Lib List

variable {d : Decl} {kn kn' : KnownMap} {tdl : List DataDecl} {ty : Ty} {ts : TySymbol}
variable {α β : Type} {l : List (α × β)} {a : α}

/-- The declaration is one that the functions of the source return: the checks of
`createDataDecl` passed, and types apply symbols to as many arguments as they
have parameters. -/
def Decl.WellFormed : Decl → Prop
  | .ddata tdl =>
    createDataDecl tdl = .ok (.ddata tdl) ∧
      ∀ td ∈ tdl, ∀ c ∈ td.2, ∀ ty ∈ c.1.lsArgs, ty.saturated = true
  | _ => True

inductive Known : KnownMap → Prop where
  | empty : Known .empty
  | add {kn kn' : KnownMap} {d : Decl} (hkn : Known kn) (hd : d.WellFormed)
      (h : knownAddDecl kn d = .ok kn') : Known kn'

theorem TySym.embed_injective {ts' : TySymbol} (h : ts.embed = ts'.embed) : ts = ts' := by
  obtain ⟨n, a, d, ha⟩ := ts
  obtain ⟨n', a', d', ha'⟩ := ts'
  simp only [TySym.embed, TySym.mk.injEq] at h
  obtain ⟨rfl, rfl, hdef⟩ := h
  congr 1
  rcases d with _ | e | ir | fp <;> rcases d' with _ | e' | ir' | fp' <;>
    first | exact e.elim | exact e'.elim | simp_all

/-! ## One addition -/

theorem foldlM_addNew (l : List Sym) (kn kn' : KnownMap) (h : l.foldlM (addNew d) kn = .ok kn') :
    (∀ s ∈ l, kn.find? s = none) ∧ ∀ s, kn'.find? s = if s ∈ l then some d else kn.find? s := by
  induction l generalizing kn with
  | nil =>
    rw [foldlM_nil_eq_ok] at h
    subst h
    simp
  | cons a l ih =>
    rw [foldlM_cons_eq_ok] at h
    obtain ⟨kn₁, hadd, hfold⟩ := h
    obtain ⟨hnone, hfind⟩ := ih kn₁ hfold
    unfold addNew at hadd
    split at hadd
    · next hnew =>
        simp only [Except.ok.injEq] at hadd
        subst hadd
        constructor
        · intro s hs
          rcases mem_cons.mp hs with rfl | hs
          · exact hnew
          · have hs' := hnone s hs
            rw [TagMap.find?_add] at hs'
            by_cases hsa : s = a
            · simp [hsa] at hs'
            · simpa [hsa] using hs'
        · intro s
          rw [hfind s, TagMap.find?_add]
          by_cases hsl : s ∈ l
          · simp [hsl]
          · by_cases hsa : s = a
            · simp [hsa]
            · simp [hsl, hsa]
    · split at hadd <;> simp at hadd

structure AddedBase (kn : KnownMap) (d : Decl) (kn' : KnownMap) : Prop where
  fresh : ∀ s ∈ declNews d, kn.find? s = none
  find : ∀ s, kn'.find? s = if s ∈ declNews d then some d else kn.find? s
  uses : ∃ syms, getDeclSyms d = .ok syms ∧ ∀ s ∈ syms, kn'.mem s = true

structure Added (kn : KnownMap) (d : Decl) (kn' : KnownMap) : Prop extends
    AddedBase kn d kn' where
  positive : checkPositivity kn' d = .ok ()

theorem knownAddDeclBase_added (h : knownAddDeclBase kn d = .ok kn') : AddedBase kn d kn' := by
  unfold knownAddDeclBase at h
  obtain ⟨kn₂, hfold, syms, hsyms, h⟩ := bind₂_eq_ok.mp h
  split at h
  · next hfind =>
      simp only [Except.ok.injEq] at h
      subst h
      obtain ⟨hnone, hadd⟩ := foldlM_addNew _ _ _ hfold
      refine ⟨hnone, hadd, syms, hsyms, ?_⟩
      intro s hs
      have hs' := find?_eq_none.mp hfind s hs
      simpa using hs'
  · simp at h

theorem knownAddDecl_added (h : knownAddDecl kn d = .ok kn') : Added kn d kn' := by
  unfold knownAddDecl at h
  obtain ⟨kn₁, hbase, ⟨⟩, hpos, h⟩ := bind₂_eq_ok.mp h
  obtain ⟨⟨⟩, _, ⟨⟩, _, h⟩ := bind₂_eq_ok.mp h
  simp only [Except.ok.injEq] at h
  subst h
  exact ⟨knownAddDeclBase_added hbase, hpos⟩

/-! ## Type symbols of a known map -/

def TypeKnown (kn : KnownMap) (ts : TySymbol) : Prop :=
  ∃ csl, findConstructors kn ts = .ok csl

theorem ts_mem_declNews (h : Sym.ts ts.embed ∈ declNews d) :
    d = .dtype ts.embed ∨ ∃ tdl, d = .ddata tdl ∧ ts ∈ tdl.map Prod.fst := by
  cases d with
  | dtype ts' =>
    simp only [declNews, mem_singleton, Sym.ts.injEq] at h
    exact .inl (by rw [h])
  | ddata tdl =>
    refine .inr ⟨tdl, rfl, ?_⟩
    simp only [declNews, mem_flatMap] at h
    obtain ⟨td, htd, h⟩ := h
    simp only [cons_append, mem_cons, mem_append, mem_map, Sym.ts.injEq,
      reduceCtorEq, and_false, exists_false, or_false] at h
    rw [TySym.embed_injective h]
    exact mem_map_of_mem htd
  | dparam ls | dlogic ldl | dind s idl | dprop k pr f => simp [declNews] at h

theorem ts_mem_declNews_ddata :
    Sym.ts ts.embed ∈ declNews (.ddata tdl) ↔ ts ∈ tdl.map Prod.fst := by
  constructor
  · intro h
    rcases ts_mem_declNews h with h | ⟨tdl', h, hmem⟩
    · cases h
    · cases h
      exact hmem
  · intro h
    obtain ⟨td, htd, rfl⟩ := mem_map.mp h
    simp only [declNews, mem_flatMap]
    exact ⟨td, htd, by simp⟩

theorem lookup_isSome_of_mem [DecidableEq α] (h : a ∈ l.map Prod.fst) : ∃ b, l.lookup a = some b :=
  Option.isSome_iff_exists.mp ((TagMap.mem_keys_iff a l).mp h)

theorem assq_eq_ok [DecidableEq α] {b : β} : assq a l = .ok b ↔ l.lookup a = some b := by
  unfold assq
  cases l.lookup a with
  | none => simp
  | some b' => simp

def Introduced (kn : KnownMap) : Prop := ∀ s d, kn.find? s = some d → s ∈ declNews d

theorem AddedBase.introduced (h : AddedBase kn d kn') (hkn : Introduced kn) : Introduced kn' := by
  intro s d' hs
  rw [h.find s] at hs
  split at hs
  · next hmem =>
      simp only [Option.some.injEq] at hs
      rw [← hs]
      exact hmem
  · exact hkn s d' hs

theorem Known.introduced (h : Known kn) : Introduced kn := by
  induction h with
  | empty =>
    intro s d hs
    simp at hs
  | add _ _ h ih => exact (knownAddDecl_added h).introduced ih

theorem Known.mem_declNews (h : Known kn) {s : Sym} (hs : kn.find? s = some d) : s ∈ declNews d :=
  h.introduced s d hs

theorem TypeKnown.mem (h : TypeKnown kn ts) : kn.mem (.ts ts.embed) = true := by
  obtain ⟨csl, hcsl⟩ := h
  rw [TagMap.mem_eq_true_iff]
  unfold findConstructors at hcsl
  cases hf : kn.find? (.ts ts.embed) with
  | none => simp [hf] at hcsl
  | some d => exact ⟨d, rfl⟩

theorem Introduced.typeKnown (h : Introduced kn) (hts : kn.mem (.ts ts.embed) = true) :
    TypeKnown kn ts := by
  obtain ⟨d, hd⟩ := (TagMap.mem_eq_true_iff _ _).mp hts
  rcases ts_mem_declNews (h _ d hd) with rfl | ⟨tdl, rfl, hmem⟩
  · exact ⟨[], by simp [findConstructors, hd]⟩
  · obtain ⟨csl, hcsl⟩ := lookup_isSome_of_mem hmem
    exact ⟨csl, by simp [findConstructors, hd, assq, hcsl]⟩

theorem Known.typeKnown_iff (h : Known kn) (ts : TySymbol) :
    TypeKnown kn ts ↔ kn.mem (.ts ts.embed) = true :=
  ⟨TypeKnown.mem, h.introduced.typeKnown⟩

theorem findConstructors_ddata (h : AddedBase kn (.ddata tdl) kn') (hts : ts ∈ tdl.map Prod.fst) :
    findConstructors kn' ts = assq ts tdl := by
  have hmem := ts_mem_declNews_ddata.mpr hts
  simp [findConstructors, h.find, hmem]

theorem findConstructors_of_not_mem (h : AddedBase kn d kn') (hts : Sym.ts ts.embed ∉ declNews d) :
    findConstructors kn' ts = findConstructors kn ts := by
  simp [findConstructors, h.find, hts]

/-! ## Constructor arguments -/

section CheckArg

variable {tys : TySymbol} {fs : LSymbol} {tss : List TySymbol} {vs : List TvSymbol}

theorem checkArgList_forall {seen : Bool} {tl : List Ty}
    (h : checkArgList tys fs tss vs seen tl = .ok ()) :
    ∀ ty ∈ tl, checkArg tys fs tss vs seen ty = .ok () := by
  induction tl with
  | nil => simp
  | cons a tl ih =>
    unfold checkArgList at h
    obtain ⟨⟨⟩, ha, htl⟩ := bind_eq_ok.mp h
    intro ty hty
    rcases mem_cons.mp hty with rfl | hty
    · exact ha
    · exact ih htl ty hty

theorem checkArg_freevars (ty : Ty) :
    ∀ seen, checkArg tys fs tss vs seen ty = .ok () → ∀ v ∈ ty.freevars, v ∈ vs := by
  induction ty using Ty.inductionOn with
  | hvar w =>
    intro seen h v hv
    rw [Ty.freevars_tyvar, mem_singleton] at hv
    subst hv
    unfold checkArg at h
    split at h
    · assumption
    · simp at h
  | happ ts tl ih =>
    intro seen h v hv
    obtain ⟨ty, hty, hv⟩ := (Ty.mem_freevars_tyapp ts tl v).mp hv
    unfold checkArg at h
    split at h
    · simp at h
    · exact ih ty hty _ (checkArgList_forall h ty hty) v hv

end CheckArg

section CheckConstr

variable {tss : List TySymbol} {tys : TySymbol} {cll : ℕ} {pjs : TagMap LSymbol Unit}
  {news news' : List Sym} {cl : List Constructor}

theorem newsId_eq_ok {s : Sym} (h : newsId news s = .ok news') :
    s ∉ news ∧ news' = news ++ [s] := by
  unfold newsId at h
  split at h
  · cases h
  · next hs => exact ⟨hs, (Except.ok.inj h).symm⟩

structure ConstrChecked (tss : List TySymbol) (tys : TySymbol) (ty : Ty) (cll : ℕ) (cs : LSymbol) :
    Prop where
  value : cs.lsValue = some ty
  count : cs.lsConstr = cll
  args : checkArgList tys cs tss ty.freevars false cs.lsArgs = .ok ()

theorem checkConstr_spec {c : Constructor} (h : checkConstr tss tys ty cll pjs news c = .ok news') :
    ConstrChecked tss tys ty cll c.1 ∧ Sym.ls c.1 ∉ news ∧ news' = news ++ [Sym.ls c.1] := by
  obtain ⟨fs, pl⟩ := c
  unfold checkConstr at h
  simp only at h
  split at h
  · simp [bind, Except.bind] at h
  · next vty hvty =>
      obtain ⟨⟨⟩, heq, fsPjs, _, h⟩ := bind₂_eq_ok.mp h
      have hty : ty = vty := by
        unfold tyEqualCheck at heq
        split at heq
        · next h => exact h
        · cases heq
      split at h
      · simp at h
      · split at h
        · next hcll =>
            obtain ⟨⟨⟩, hargs, h⟩ := bind_eq_ok.mp h
            exact ⟨⟨by rw [hvty, hty], hcll, hargs⟩, newsId_eq_ok h⟩
        · simp at h

theorem foldlM_checkConstr (h : cl.foldlM (checkConstr tss tys ty cll pjs) news = .ok news') :
    (cl.map Prod.fst).Nodup ∧
      ∀ c ∈ cl, ConstrChecked tss tys ty cll c.1 ∧ Sym.ls c.1 ∉ news := by
  induction cl generalizing news with
  | nil => simp
  | cons c cl ih =>
    obtain ⟨news₁, hc, hcl⟩ := foldlM_cons_eq_ok.mp h
    obtain ⟨hspec, hnew, rfl⟩ := checkConstr_spec hc
    obtain ⟨hnodup, hall⟩ := ih hcl
    refine ⟨?_, forall_mem_cons.mpr ⟨⟨hspec, hnew⟩, ?_⟩⟩
    · rw [map_cons, nodup_cons]
      refine ⟨?_, hnodup⟩
      intro hmem
      obtain ⟨c', hc', heq⟩ := mem_map.mp hmem
      exact (hall c' hc').2 (by simp [heq])
    · exact fun c' hc' => ⟨(hall c' hc').1, fun hmem => (hall c' hc').2 (mem_append_left _ hmem)⟩

/-- What the declaration of an algebraic type guarantees of its constructors. -/
theorem createDataDecl_spec (h : createDataDecl tdl = .ok d) (htd : (ts, cl) ∈ tdl) :
    ∃ tss, (cl.map Prod.fst).Nodup ∧
      ∀ c ∈ cl, ConstrChecked tss ts (.tyapp ts (ts.tsArgs.map .tyvar)) cl.length c.1 := by
  unfold createDataDecl at h
  split at h
  · simp at h
  · obtain ⟨news, hfold, _⟩ := bind_eq_ok.mp h
    refine ⟨tdl.map Prod.fst, foldlM_forall (P := fun td => (td.2.map Prod.fst).Nodup ∧ ∀ c ∈ td.2,
      ConstrChecked _ td.1 (.tyapp td.1 (td.1.tsArgs.map .tyvar)) td.2.length c.1) ?_ hfold
        (ts, cl) htd⟩
    intro news td news' hstep
    obtain ⟨ts, cl⟩ := td
    unfold checkDataDecl at hstep
    simp only at hstep
    split at hstep
    · simp at hstep
    · split at hstep
      · simp at hstep
      · obtain ⟨news₁, _, news₂, _, hstep⟩ := bind₂_eq_ok.mp hstep
        obtain ⟨hnodup, hall⟩ := foldlM_checkConstr hstep
        exact ⟨hnodup, fun c hc => (hall c hc).1⟩

end CheckConstr

theorem createDataDecl_args (h : createDataDecl tdl = .ok d) {td : DataDecl} (htd : td ∈ tdl)
    {c : Constructor} (hc : c ∈ td.2) (hty : ty ∈ c.1.lsArgs) :
    ∀ v ∈ ty.freevars, v ∈ td.1.tsArgs := by
  obtain ⟨tss, -, hall⟩ := createDataDecl_spec h htd
  intro v hv
  simpa using checkArg_freevars ty _ (checkArgList_forall (hall c hc).args ty hty) v hv

/-- The argument types of the constructors of a known map: they mention declared
types and the parameters of the declared symbol only. -/
structure ArgWellFormed (kn : KnownMap) (ts : TySymbol) (ty : Ty) : Prop where
  known : ∀ ts' ∈ ty.syms, TypeKnown kn ts'
  saturated : ty.saturated = true
  freevars : ∀ v ∈ ty.freevars, v ∈ ts.tsArgs

def ArgOf (kn : KnownMap) (ts : TySymbol) (ty : Ty) : Prop :=
  ∃ csl, findConstructors kn ts = .ok csl ∧ ∃ c ∈ csl, ty ∈ c.1.lsArgs

theorem argOf_ddata (h : AddedBase kn (.ddata tdl) kn') (hts : ts ∈ tdl.map Prod.fst)
    (harg : ArgOf kn' ts ty) : ∃ cl, (ts, cl) ∈ tdl ∧ ∃ c ∈ cl, ty ∈ c.1.lsArgs := by
  obtain ⟨csl, hcsl, hc⟩ := harg
  rw [findConstructors_ddata h hts, assq_eq_ok] at hcsl
  exact ⟨csl, mem_of_lookup hcsl, hc⟩

theorem TypeKnown.added (hkn : Introduced kn) (h : AddedBase kn d kn') (hts : TypeKnown kn ts) :
    TypeKnown kn' ts := by
  refine (h.introduced hkn).typeKnown ?_
  rw [TagMap.mem_eq_true_iff, h.find]
  obtain ⟨d₀, hd₀⟩ := (TagMap.mem_eq_true_iff _ _).mp hts.mem
  split
  · exact ⟨d, rfl⟩
  · exact ⟨d₀, hd₀⟩

def ArgsKnown (kn : KnownMap) : Prop := ∀ ts ty, ArgOf kn ts ty → ArgWellFormed kn ts ty

theorem AddedBase.argsKnown (h : AddedBase kn d kn') (hd : d.WellFormed) (hkn : Introduced kn)
    (hargs : ArgsKnown kn) : ArgsKnown kn' := by
  intro ts ty harg
  by_cases hts : Sym.ts ts.embed ∈ declNews d
  · rcases ts_mem_declNews hts with rfl | ⟨tdl, rfl, hmem⟩
    · -- an abstract type has no constructor
      obtain ⟨csl, hcsl, c, hc, _⟩ := harg
      simp only [findConstructors, h.find, declNews, mem_singleton, if_true,
        Except.ok.injEq] at hcsl
      rw [← hcsl] at hc
      simp at hc
    · obtain ⟨cl, htd, c, hc, hty⟩ := argOf_ddata h hmem harg
      refine ⟨?_, hd.2 _ htd c hc ty hty, createDataDecl_args hd.1 htd hc hty⟩
      intro ts' hts'
      obtain ⟨syms, hsyms, hall⟩ := h.uses
      apply (h.introduced hkn).typeKnown
      apply hall
      simp only [getDeclSyms, Except.ok.injEq] at hsyms
      rw [← hsyms]
      simp only [mem_flatMap]
      exact ⟨(ts, cl), htd, c, hc, ty, hty, mem_map_of_mem hts'⟩
  · have harg' : ArgOf kn ts ty := by
      unfold ArgOf at harg ⊢
      rwa [findConstructors_of_not_mem h hts] at harg
    have hty := hargs ts ty harg'
    exact ⟨fun ts' hts' => (hty.known ts' hts').added hkn h, hty.saturated, hty.freevars⟩

theorem Known.argsKnown (h : Known kn) : ArgsKnown kn := by
  induction h with
  | empty =>
    rintro ts ty ⟨csl, hcsl, _⟩
    simp [findConstructors] at hcsl
  | add hkn hd h ih => exact (knownAddDecl_added h).argsKnown hd hkn.introduced ih

theorem Known.argOf (h : Known kn) (harg : ArgOf kn ts ty) : ArgWellFormed kn ts ty :=
  h.argsKnown ts ty harg

/-- A type that was declared before a group of algebraic types does not mention
them. -/
theorem Known.argOf_before (hkn : Known kn) (h : Added kn (.ddata tdl) kn')
    (hts : ts ∉ tdl.map Prod.fst) (harg : ArgOf kn' ts ty) :
    ∀ ts' ∈ ty.syms, ts' ∉ tdl.map Prod.fst := by
  intro ts' hts' hmem
  have hnew := mt ts_mem_declNews_ddata.mp hts
  have harg' : ArgOf kn ts ty := by
    unfold ArgOf at harg ⊢
    rwa [findConstructors_of_not_mem h.toAddedBase hnew] at harg
  have hknown := (hkn.typeKnown_iff ts').mp ((hkn.argOf harg').known ts' hts')
  obtain ⟨d, hd⟩ := (TagMap.mem_eq_true_iff _ _).mp hknown
  rw [h.fresh _ (ts_mem_declNews_ddata.mpr hmem)] at hd
  cases hd

end Why3
