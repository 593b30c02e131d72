import Why3.Termination.Total
import Why3.Logic.TypedSubst
import Why3.Logic.Peano

/-!
# Accepted definitions terminate

A group of definitions that is accepted has no infinite sequence of calls, in any
interpretation in which the values of algebraic types are finite: the cycles of calls
decrease in the lexicographic order of the positions that are kept with each
definition.
-/

namespace Why3

open Lib Relation Interp Term List

variable {S : DataSig}
variable {ls : LSymbol} {vl : List VSymbol} {syms : TagMap LSymbol (List VSymbol × Term)} {t : Term}
variable {pl : List ℕ}

/-! ## What the construction of a definition checks -/

structure Defines (S : DataSig) (ls : LSymbol) (vl : List VSymbol) (e : Term) : Prop where
  args : vl.map VSymbol.vsTy = ls.lsArgs
  typed : WellTyped S ls.lsArgs e ls.lsValue
  closed : e.freeVars = []

theorem checkArgs_eq {tyl : List Ty} (hl : tyl.length = vl.length)
    (h : ((tyl.zip vl).forM fun a => tyEqualCheck a.1 a.2.vsTy) = .ok ()) :
    vl.map VSymbol.vsTy = tyl := by
  induction tyl generalizing vl with
  | nil => rw [length_eq_zero_iff.mp hl.symm, map_nil]
  | cons ty tyl ih =>
    cases vl with
    | nil => cases hl
    | cons v vl =>
      rw [zip_cons_cons, forM_cons_eq] at h
      obtain ⟨_, hty, h⟩ := bind_eq_ok.mp h
      rw [map_cons, ih (Nat.succ.inj hl) h]
      unfold tyEqualCheck at hty
      split at hty
      · next heq => rw [← heq]
      · cases hty

/-- The axiom of a definition opens to its variables and its closed body. -/
theorem lsDefnAxiom_open {hd fd : Term} (h : lsDefnAxiom ls vl t = .ok (hd, fd))
    (ht : WellTyped S [] t t.tTy) :
    ∃ e, openLsDefn (ls, fd, pl) = .ok (vl, e) ∧
      WellTyped S (vl.map VSymbol.vsTy) e t.tTy ∧ e.freeVars = [] := by
  obtain ⟨hd', hhd, bd, hbd, h⟩ := bind₂_eq_ok.mp h
  obtain ⟨fd', hfd, fd'', hfvs, h⟩ := bind₂_eq_ok.mp h
  cases h
  obtain ⟨hclosed, rfl⟩ := checkFvs_eq_ok hfvs
  have hbody : bd = tbinop [] .tiff hd t ∨ bd = tapp [] psEqu [hd, t] none := by
    unfold equOrIff at hbd
    split at hbd
    · exact .inl (tBinary_eq hbd)
    · exact .inr (tApp_eq hbd)
  unfold tForallClose at hfd
  cases vl with
  | nil =>
    obtain ⟨_, rfl⟩ := tProp_eq_ok.mp hfd
    refine ⟨t, ?_, ht, ?_⟩
    · rcases hbody with rfl | rfl <;> rfl
    · rcases hbody with rfl | rfl
      · simp only [freeVars, append_eq_nil_iff] at hclosed
        exact hclosed.2
      · simp only [freeVars, freeVarsList, append_eq_nil_iff] at hclosed
        exact hclosed.2.1
  | cons v vl =>
    obtain rfl := Except.ok.inj hfd
    have htyped := ht.closeVars (v :: vl)
    rw [append_nil] at htyped
    refine ⟨closeVars (v :: vl) t, ?_, htyped, ?_⟩
    · rcases hbody with rfl | rfl <;> rfl
    · have hfv : (closeVars (v :: vl) bd).freeVars = [] := by
        simp only [tQuantClose, isEmpty_cons, Bool.false_eq_true, if_false, freeVars,
          append_eq_nil_iff] at hclosed
        exact hclosed.2
      rcases hbody with rfl | rfl
      · simp only [closeVars, mapVars, freeVars, append_eq_nil_iff] at hfv
        exact hfv.2
      · simp only [closeVars, mapVars, mapVarsList, freeVars, freeVarsList,
          append_eq_nil_iff] at hfv
        exact hfv.2.1

/-- Whatever is built as a definition has a closed body of the right type. -/
theorem makeLsDefn_defines {ld : LogicDecl} (h : makeLsDefn ls vl t = .ok ld)
    (ht : WellTyped S [] t t.tTy) :
    ld.1 = ls ∧ ∃ e, openLsDefn ld.2 = .ok (vl, e) ∧ Defines S ls vl e := by
  obtain ⟨_, _, ⟨hd, fd⟩, hax, h⟩ := bind₂_eq_ok.mp h
  obtain ⟨_, _, h⟩ := bind_eq_ok.mp h
  dsimp only at h
  split at h
  · next hl =>
      obtain ⟨_, hargs, _, hval, h⟩ := bind₂_eq_ok.mp h
      cases h
      obtain ⟨e, he, htyped, hclosed⟩ := lsDefnAxiom_open hax ht
      have hmap := checkArgs_eq hl hargs
      refine ⟨rfl, e, he, hmap, ?_, hclosed⟩
      rwa [hmap, tTyCheck_eq hval] at htyped
  · cases h

/-! ## One description for each argument -/

section Sized

variable {syms : LSymbol → Bool} {ls : LSymbol}

theorem sized_callsTerms {tl : List Term}
    (h : ∀ t ∈ tl, ∀ vsg b n cgr, Sized cgr → Sized (callsTerm syms ls vsg b n t cgr))
    (vsg : VsGraph) (b : List VSymbol) (n : ℕ) (cgr : CallSet) (hcgr : Sized cgr) :
    Sized (callsTerms syms ls vsg b n tl cgr) := by
  induction tl generalizing cgr with
  | nil => exact hcgr
  | cons t tl ih =>
    rw [forall_mem_cons] at h
    exact ih h.2 _ (h.1 vsg b n cgr hcgr)

theorem sized_callsBranches {bl : List (Pattern × Term)}
    (h : ∀ br ∈ bl, ∀ vsg b n cgr, Sized cgr → Sized (callsTerm syms ls vsg b n br.2 cgr))
    (vsg : VsGraph) (b : List VSymbol) (n : ℕ) (t : Term) (cgr : CallSet) (hcgr : Sized cgr) :
    Sized (callsBranches syms ls vsg b n t bl cgr) := by
  induction bl generalizing cgr with
  | nil => exact hcgr
  | cons br bl ih =>
    rw [forall_mem_cons] at h
    exact ih h.2 _ (h.1 _ _ _ cgr hcgr)

theorem WellTyped.sized {Γ : List Ty} {o : Option Ty} (ht : WellTyped S Γ t o) :
    ∀ vsg b n cgr, Sized cgr → Sized (callsTerm syms ls vsg b n t cgr) := by
  induction ht with
  | tvar | tbnd | tconst | ttrue | tfalse => exact fun _ _ _ _ hcgr => hcgr
  | @tapp Γ a s tl o σ hls ho hlen htl ih =>
    intro vsg b n cgr hcgr
    have hargs : Sized (callsTerms syms ls vsg b n tl cgr) := by
      refine sized_callsTerms ?_ vsg b n cgr hcgr
      intro t ht
      obtain ⟨i, hi⟩ := mem_iff_getElem?.mp ht
      have hlt := hlen ▸ (List.getElem?_eq_some_iff.mp hi).1
      exact ih i t _ hi (getElem?_eq_getElem hlt)
    rw [callsTerm]
    split
    · intro c hc
      rcases mem_registerCall.mp hc with hc | ⟨vm, _, rfl⟩
      · exact hargs c hc
      · rw [length_map, hlen]
    · exact hargs
  | tif a _ _ _ ihf iht ihe =>
    exact fun vsg b n cgr hcgr => ihe _ _ _ _ (iht _ _ _ _ (ihf vsg b n cgr hcgr))
  | tlet a _ _ iht ihe => exact fun vsg b n cgr hcgr => ihe _ _ _ _ (iht vsg b n cgr hcgr)
  | tcase a _ _ _ _ _ iht ihbl =>
    exact fun vsg b n cgr hcgr => sized_callsBranches ihbl vsg b n _ _ (iht vsg b n cgr hcgr)
  | teps a _ ih | tquant a q _ _ _ ih => exact fun vsg b n cgr hcgr => ih _ _ _ cgr hcgr
  | tbinop a op _ _ ihf ihg => exact fun vsg b n cgr hcgr => ihg _ _ _ _ (ihf vsg b n cgr hcgr)
  | tnot a _ ih => exact fun vsg b n cgr hcgr => ih vsg b n cgr hcgr

end Sized

/-! ## The call set of a group -/

section CallGraph

variable {syms : TagMap LSymbol (List VSymbol × Term)}

theorem sized_callGraph (h : ∀ ls d, syms.find? ls = some d → Defines S ls d.1 d.2) :
    Sized (callGraph syms) := by
  have hfold : ∀ (l : List (LSymbol × List VSymbol × Term)) (cgr : CallSet),
      (∀ x ∈ l, Defines S x.1 x.2.1 x.2.2) → Sized cgr →
      Sized (l.foldl (fun cgr x => buildCallGraph syms.mem x.1 cgr x.2.1 x.2.2) cgr) := by
    intro l
    induction l with
    | nil => exact fun _ _ hcgr => hcgr
    | cons x l ih =>
      intro cgr hl hcgr
      rw [forall_mem_cons] at hl
      exact ih _ hl.2 (hl.1.typed.sized _ _ _ cgr hcgr)
  refine hfold _ _ ?_ (by simp [Sized])
  exact fun x hx => h x.1 x.2 ((TagMap.find?_eq_some_iff syms x.1 x.2).mpr hx)

theorem mem_callGraph {d : List VSymbol × Term} (hd : syms.find? ls = some d)
    {P : LSymbol × LSymbol × List Descent → Prop}
    (h : ∀ cgr, ∃ c ∈ buildCallGraph syms.mem ls cgr d.1 d.2, P c) : ∃ c ∈ callGraph syms, P c := by
  have hfold : ∀ (l : List (LSymbol × List VSymbol × Term)) (cgr : CallSet),
      ((ls, d) ∈ l ∨ ∃ c ∈ cgr, P c) →
      ∃ c ∈ l.foldl (fun cgr x => buildCallGraph syms.mem x.1 cgr x.2.1 x.2.2) cgr, P c := by
    intro l
    induction l with
    | nil => exact fun cgr hl => hl.resolve_left not_mem_nil
    | cons x l ih =>
      rintro cgr (hmem | ⟨c, hc, hP⟩)
      · rcases mem_cons.mp hmem with rfl | hmem
        · exact ih _ (.inr (h cgr))
        · exact ih _ (.inl hmem)
      · exact ih _ (.inr ⟨c, callsTerm_mono _ _ _ _ cgr c hc, hP⟩)
  exact hfold _ _ (.inl ((TagMap.find?_eq_some_iff syms ls d).mp hd))

end CallGraph

variable {D : Type} {I : Interp D} {τ : TyVal}

theorem createVsGraph_valid {xs : List (Ty × D)} {n : ℕ} {η : VSymbol → D} {ul : List VSymbol}
    (htags : ∀ u ∈ ul, u.vsName.idTag < n) (hxs : xs = ul.map fun u => (u.vsTy.vMap τ, η u)) :
    SomeValid S I τ xs n η (createVsGraph ul) := by
  have hfold : ∀ (l : List (VSymbol × ℕ)) (vm : TagMap VSymbol Descent) (v : VSymbol)
      (d : Descent), (l.foldl (fun vm b => vm.add b.1 (.equal b.2)) vm).find? v = some d →
        vm.find? v = some d ∨ ∃ i, (v, i) ∈ l ∧ d = .equal i := by
    intro l
    induction l with
    | nil => exact fun vm v d h => .inl h
    | cons b l ih =>
      intro vm v d h
      rcases ih _ v d h with h | ⟨i, hi, hd⟩
      · rw [TagMap.find?_add] at h
        split at h
        · next hv =>
            refine .inr ⟨b.2, ?_, (Option.some.inj h).symm⟩
            rw [hv]
            exact mem_cons_self
        · exact .inl h
      · exact .inr ⟨i, mem_cons_of_mem _ hi, hd⟩
  refine ⟨_, mem_singleton_self _, ?_⟩
  intro v d hv
  rcases hfold _ _ v d hv with h | ⟨i, hi, rfl⟩
  · simp at h
  · have hget : ul[i]? = some v := mem_zipIdx_iff_getElem?.mp hi
    refine ⟨htags v (mem_of_getElem? hget), _, ?_, .refl⟩
    rw [hxs, getElem?_map, hget, Option.map_some]

/-! ## Calls between definitions -/

/-- Evaluating the definition of `x.1` at the arguments `x.2` calls `y.1` with the
arguments `y.2`, both being symbols of the group. -/
def Calls (I : Interp D) (ldl : List LogicDecl) (x y : LSymbol × List (Ty × D)) : Prop :=
  y.1 ∈ ldl.map Prod.fst ∧ ∃ ld ∈ ldl, ld.1 = x.1 ∧ ∃ vl e, openLsDefn ld.2 = .ok (vl, e) ∧
    ∃ τ ρ ds, I.TypedVal τ ρ ∧ I.Typed τ x.1.lsArgs ds ∧
      x.2 = (x.1.lsArgs.map (Ty.vMap τ)).zip ds ∧ CallIn I τ ρ y.1 y.2 ds e

theorem buildCallGraph_sound (hI : I.Sound) (hfree : I.Free S) {syms : LSymbol → Bool}
    {f g : LSymbol} (hg : syms g = true) {e : Term} (hf : Defines S f vl e) {ρ : VSymbol → D}
    (hρ : I.TypedVal τ ρ) {ds : List D} (hds : I.Typed τ f.lsArgs ds) {ys : List (Ty × D)}
    (h : CallIn I τ ρ g ys ds e) (cgr : CallSet) :
    ∃ c ∈ buildCallGraph syms f cgr vl e, ∃ v, c = (g, f, v) ∧ v.length = ys.length ∧
      Describes S I ((f.lsArgs.map (Ty.vMap τ)).zip ds) v ys := by
  have hempty : Opened I τ 0 [] ρ := ⟨by simp, .nil⟩
  rw [← hf.args] at hds
  obtain ⟨η, hopened, hbv, hvalue, _⟩ := hempty.fresh vl hds
  simp only [append_nil, map_nil, Nat.zero_add] at hopened hbv
  have htyped := hf.typed
  rw [← hf.args, ← map_vsTy_freshLike 0 vl] at htyped
  refine callsTerm_sound hI hfree hρ hg h hopened hbv htyped hf.closed ?_ cgr
  refine createVsGraph_valid hopened.tags ?_
  rw [← hf.args, ← map_vsTy_freshLike 0 vl, ← hvalue, List.map_map, zip_map', Function.comp_def]

/-! ## The check of a group -/

section Group

variable {ldl ldl' : List LogicDecl}

theorem foldlM_add {α β : Type} {f : α → Except Exn β} {l : List (LSymbol × α)}
    {m m' : TagMap LSymbol β} (hl : (l.map Prod.fst).Nodup)
    (h : l.foldlM (fun m x => do .ok (m.add x.1 (← f x.2))) m = .ok m') (k : LSymbol) (b : β) :
    m'.find? k = some b ↔
      (∃ x ∈ l, x.1 = k ∧ f x.2 = .ok b) ∨ k ∉ l.map Prod.fst ∧ m.find? k = some b := by
  induction l generalizing m with
  | nil =>
    rw [foldlM_nil_eq_ok] at h
    simp [h]
  | cons x l ih =>
    obtain ⟨m₁, h₁, h₂⟩ := foldlM_cons_eq_ok.mp h
    obtain ⟨b₁, hb₁, h₁⟩ := bind_eq_ok.mp h₁
    obtain rfl := Except.ok.inj h₁
    rw [map_cons, nodup_cons] at hl
    rw [ih hl.2 h₂, TagMap.find?_add]
    by_cases hk : k = x.1
    · subst hk
      have hnot : ¬ ∃ y ∈ l, y.1 = x.1 ∧ f y.2 = .ok b := by
        rintro ⟨y, hy, heq, _⟩
        exact hl.1 (heq ▸ mem_map_of_mem hy)
      rw [exists_mem_cons_iff, hb₁]
      simp [hnot, hl.1]
    · have hk' : ¬ x.1 = k := fun h => hk h.symm
      rw [exists_mem_cons_iff]
      simp [hk, hk']

theorem openLogicDecls_find? (hl : (ldl.map Prod.fst).Nodup) (h : openLogicDecls ldl = .ok syms)
    (ls : LSymbol) (d : List VSymbol × Term) :
    syms.find? ls = some d ↔ ∃ ld ∈ ldl, ld.1 = ls ∧ openLsDefn ld.2 = .ok d := by
  rw [foldlM_add hl h]
  simp

theorem nodup_of_newsId {news news' : List Sym}
    (h : ldl.foldlM (fun news ld =>
      if ld.2.1 = ld.1 then newsId news (.ls ld.1) else .error (.badLogicDecl ld.1 ld.2.1)) news =
        .ok news') : (ldl.map Prod.fst).Nodup ∧ ∀ ld ∈ ldl, Sym.ls ld.1 ∉ news := by
  induction ldl generalizing news with
  | nil => simp
  | cons ld ldl ih =>
    obtain ⟨news₁, h₁, h₂⟩ := foldlM_cons_eq_ok.mp h
    obtain ⟨hnodup, hnew⟩ := ih h₂
    split at h₁
    · unfold newsId at h₁
      split at h₁
      · cases h₁
      · next hmem =>
          obtain rfl := Except.ok.inj h₁
          rw [map_cons, nodup_cons, forall_mem_cons]
          refine ⟨⟨?_, hnodup⟩, hmem, ?_⟩
          · intro hmem'
            obtain ⟨ld', hld', heq⟩ := mem_map.mp hmem'
            exact hnew ld' hld' (by simp [heq])
          · exact fun ld' hld' h => hnew ld' hld' (mem_append_left _ h)
    · cases h₁

theorem variants_eq_ok {res : TagMap LSymbol (List ℕ)} (h : variants syms = .ok res) (ls : LSymbol)
    (pl : List ℕ) (hpl : res.find? ls = some pl) :
    findVariant (.noTerminationProof ls) (callGraph syms) ls = .ok pl := by
  unfold variants TagMap.foldM at h
  have hempty : ∀ ls pl, (TagMap.empty : TagMap LSymbol (List ℕ)).find? ls = some pl →
      findVariant (.noTerminationProof ls) (callGraph syms) ls = .ok pl := by simp
  generalize TagMap.empty = m at h hempty
  generalize syms.bindings = l at h
  induction l generalizing m with
  | nil =>
    rw [foldlM_nil_eq_ok] at h
    exact hempty ls pl (h ▸ hpl)
  | cons x l ih =>
    obtain ⟨m₁, h₁, h₂⟩ := foldlM_cons_eq_ok.mp h
    obtain ⟨pl₁, hpl₁, h₁⟩ := bind_eq_ok.mp h₁
    obtain rfl := Except.ok.inj h₁
    refine ih _ (fun ls' pl' hls' => ?_) h₂
    rw [TagMap.find?_add] at hls'
    split at hls'
    · next heq => rw [heq, hpl₁, Option.some.inj hls']
    · exact hempty ls' pl' hls'

theorem variants_total (syms : TagMap LSymbol (List VSymbol × Term)) :
    (∃ res, variants syms = .ok res ∧ ∀ ls, syms.mem ls = true → res.mem ls = true) ∨
      ∃ ls, syms.mem ls = true ∧ variants syms = .error (.noTerminationProof ls) := by
  have hmem : ∀ ls, syms.mem ls = true ↔ ls ∈ syms.bindings.map Prod.fst := by
    intro ls
    rw [TagMap.mem_eq_true_iff, mem_map]
    simp only [TagMap.find?_eq_some_iff, Prod.exists, exists_and_right, exists_eq_right]
  unfold variants TagMap.foldM
  simp only [hmem]
  suffices hfold : ∀ (l : List (LSymbol × List VSymbol × Term)) (m : TagMap LSymbol (List ℕ)),
      (∃ res, l.foldlM (fun acc x => do .ok (acc.add x.1 (← findVariant
          (.noTerminationProof x.1) (callGraph syms) x.1))) m = .ok res ∧
        ∀ ls, (m.mem ls = true ∨ ls ∈ l.map Prod.fst) → res.mem ls = true) ∨
      ∃ ls ∈ l.map Prod.fst, l.foldlM (fun acc x => do .ok (acc.add x.1 (← findVariant
          (.noTerminationProof x.1) (callGraph syms) x.1))) m =
        .error (.noTerminationProof ls) by
    refine (hfold syms.bindings .empty).imp_left ?_
    rintro ⟨res, hres, hkeys⟩
    exact ⟨res, hres, fun ls hls => hkeys ls (.inr hls)⟩
  intro l
  induction l with
  | nil => exact fun m => .inl ⟨m, rfl, by simp⟩
  | cons x l ih =>
    intro m
    rw [foldlM_cons]
    rcases findVariant_total (.noTerminationProof x.1) (callGraph syms) x.1 with ⟨pl, h⟩ | h
    · rw [h]
      rcases ih (m.add x.1 pl) with ⟨res, hres, hkeys⟩ | ⟨ls, hls, herr⟩
      · refine .inl ⟨res, hres, fun ls hls => hkeys ls ?_⟩
        rw [map_cons, mem_cons] at hls
        rw [TagMap.mem_add]
        tauto
      · exact .inr ⟨ls, mem_cons_of_mem _ hls, herr⟩
    · rw [h]
      exact .inr ⟨x.1, mem_cons_self, rfl⟩

/-- The positions that are kept for the symbols of an accepted group are those of a
variant. -/
theorem checkTermination_eq_ok (h : checkTermination ldl = .ok ldl') :
    ∃ syms, openLogicDecls ldl = .ok syms ∧ Forall₂ (fun ld ld' => ∃ pl,
      findVariant (.noTerminationProof ld.1) (callGraph syms) ld.1 = .ok pl ∧
        ld' = (ld.1, ld.1, ld.2.2.1, pl)) ldl ldl' := by
  obtain ⟨syms, hsyms, res, hres, h⟩ := bind₂_eq_ok.mp h
  refine ⟨syms, hsyms, (mapM_eq_ok.mp h).imp fun ld ld' hld => ?_⟩
  unfold setVariant at hld
  cases hpl : res.find? ld.1 with
  | none =>
    rw [hpl] at hld
    cases hld
  | some pl =>
    rw [hpl] at hld
    exact ⟨pl, variants_eq_ok hres ld.1 pl hpl, (Except.ok.inj hld).symm⟩

theorem openLogicDecls_mem (h : openLogicDecls ldl = .ok syms) :
    ∀ ld ∈ ldl, syms.mem ld.1 = true := by
  unfold openLogicDecls at h
  suffices hfold : ∀ (m : TagMap LSymbol (List VSymbol × Term)),
      ldl.foldlM (fun syms ld => do .ok (syms.add ld.1 (← openLsDefn ld.2))) m = .ok syms →
      ∀ ls, (m.mem ls = true ∨ ls ∈ ldl.map Prod.fst) → syms.mem ls = true from
    fun ld hld => hfold _ h ld.1 (.inr (mem_map_of_mem hld))
  clear h
  induction ldl with
  | nil =>
    intro m h ls hls
    rw [foldlM_nil_eq_ok] at h
    simpa [h] using hls
  | cons ld ldl ih =>
    intro m h ls hls
    obtain ⟨m₁, h₁, h₂⟩ := foldlM_cons_eq_ok.mp h
    obtain ⟨d, _, h₁⟩ := bind_eq_ok.mp h₁
    obtain rfl := Except.ok.inj h₁
    refine ih _ h₂ ls ?_
    rw [map_cons, mem_cons] at hls
    rw [TagMap.mem_add]
    tauto

/-- The check answers: it accepts the group, with the positions of a variant for every symbol,
or names a symbol without a variant. -/
theorem checkTermination_total (hsyms : openLogicDecls ldl = .ok syms) :
    (∃ ldl', checkTermination ldl = .ok ldl' ∧ Forall₂ (fun ld ld' => ∃ pl,
      findVariant (.noTerminationProof ld.1) (callGraph syms) ld.1 = .ok pl ∧
        ld' = (ld.1, ld.1, ld.2.2.1, pl)) ldl ldl') ∨
      ∃ ls, syms.mem ls = true ∧ checkTermination ldl = .error (.noTerminationProof ls) := by
  have hcheck : checkTermination ldl =
      (variants syms >>= fun res => ldl.mapM (setVariant res)) := by
    rw [checkTermination, hsyms]
    rfl
  rcases variants_total syms with ⟨res, hres, hmem⟩ | ⟨ls, hls, herr⟩
  · obtain ⟨ldl', hldl'⟩ : ∃ ldl', ldl.mapM (setVariant res) = .ok ldl' := by
      refine mapM_total fun ld hld => ?_
      obtain ⟨pl, hpl⟩ := (TagMap.mem_eq_true_iff _ _).mp
        (hmem _ (openLogicDecls_mem hsyms ld hld))
      rw [setVariant, hpl]
      exact ⟨_, rfl⟩
    have hok : checkTermination ldl = .ok ldl' := by
      rw [hcheck, hres]
      exact hldl'
    obtain ⟨syms', hsyms', hall⟩ := checkTermination_eq_ok hok
    rw [hsyms] at hsyms'
    obtain rfl := Except.ok.inj hsyms'
    exact .inl ⟨ldl', hok, hall⟩
  · refine .inr ⟨ls, hls, ?_⟩
    rw [hcheck, herr]
    rfl

theorem registered_callGraph (hI : I.Sound) (hfree : I.Free S) (hl : (ldl.map Prod.fst).Nodup)
    (hsyms : openLogicDecls ldl = .ok syms)
    (hdef : ∀ ls d, syms.find? ls = some d → Defines S ls d.1 d.2) :
    Registered S I (callGraph syms) (Calls I ldl) := by
  rintro ⟨f, xs⟩ ⟨g, ys⟩ ⟨hmem, ld, hld, rfl, vl, e, hopen, τ, ρ, ds, hρ, hds, hxs, hcall⟩
  have hg : syms.mem g = true := by
    obtain ⟨ld', hld', rfl⟩ := mem_map.mp hmem
    exact openLogicDecls_mem hsyms ld' hld'
  have hfind : syms.find? ld.1 = some (vl, e) :=
    (openLogicDecls_find? hl hsyms _ _).mpr ⟨ld, hld, rfl, hopen⟩
  obtain ⟨c, hc, v, rfl, hlen, hdescr⟩ := mem_callGraph hfind
    (buildCallGraph_sound hI hfree hg (hdef _ _ hfind) hρ hds hcall)
  exact ⟨v, hc, hlen, hxs ▸ hdescr⟩

theorem cycle_decreases {cgr : CallSet} {exn : Exn} {id : LSymbol}
    {R : LSymbol × List (Ty × D) → LSymbol × List (Ty × D) → Prop} (hsized : Sized cgr)
    (hR : Registered S I cgr R) (h : findVariant exn cgr id = .ok pl) {xs ys : List (Ty × D)}
    (hcycle : TransGen R (id, xs) (id, ys)) : LexLess (TransGen (SubValue S I)) pl ys xs := by
  obtain ⟨cl, hcl, hcheck⟩ := bind_eq_ok.mp h
  have hlen := hsized.buildCallList hcl
  obtain ⟨_, rfl, hpl⟩ := checkVariant_spec (S := S) (I := I) hcheck
    (isLocal_of_mem hcl) hlen
  have hways : ∀ x z : LSymbol × List (Ty × D), x.1 = id → z.1 = id →
      Way R (fun y => y.1 = id) z x → LexLess (TransGen (SubValue S I)) pl z.2 x.2 := by
    intro x z hx hz hway
    obtain ⟨v, hv, hdescr⟩ := buildCallList_spec hR hcl hx hz hway
    refine hpl v hv x.2 z.2 ?_ hdescr
    obtain ⟨w, hw⟩ : ∃ w, R w z := by
      clear hdescr hx
      induction hway with
      | single h => exact ⟨_, h⟩
      | cons _ _ _ ih => exact ih
    obtain ⟨u, hu, hul, _⟩ := hR w z hw
    rw [← hul, hsized _ hu]
    exact congrArg (fun ls : LSymbol => ls.lsArgs.length) hz
  exact transGen_of_ways
    (fun z x : LSymbol × List (Ty × D) => LexLess (TransGen (SubValue S I)) pl z.2 x.2)
    (fun _ _ _ h h' => h.trans (fun _ _ _ => TransGen.trans) h') hways rfl rfl hcycle

end Group

/-- If a group of definitions is accepted then it has no infinite sequence of calls,
whatever the meaning of the symbols, as long as values are built by finitely many
constructors. Every cycle of calls decreases, in the order of proper parts of values,
at the positions that are kept with the definition. -/
theorem createLogicDecl_terminates (hI : I.Sound) (hfree : I.Free S)
    (hfinite : WellFounded (SubValue S I)) {ldl : List LogicDecl}
    (hldl : ∀ ld ∈ ldl, ∃ ls vl t, makeLsDefn ls vl t = .ok ld ∧ WellTyped S [] t t.tTy)
    {d : Decl} (h : createLogicDecl ldl = .ok d) :
    ∃ ldl', d = .dlogic ldl' ∧ WellFounded (fun y x => Calls I ldl x y) ∧
      Forall₂ (fun ld ld' => ld'.1 = ld.1 ∧ ∀ xs ys : List (Ty × D),
        TransGen (Calls I ldl) (ld.1, xs) (ld.1, ys) →
          LexLess (TransGen (SubValue S I)) ld'.2.2.2 ys xs) ldl ldl' := by
  unfold createLogicDecl at h
  split at h
  · cases h
  · obtain ⟨_, hnews, ldl', hcheck, h⟩ := bind₂_eq_ok.mp h
    have hl := (nodup_of_newsId hnews).1
    obtain ⟨syms, hsyms, hall⟩ := checkTermination_eq_ok hcheck
    have hdef : ∀ ls d, syms.find? ls = some d → Defines S ls d.1 d.2 := by
      intro ls d hfind
      obtain ⟨ld, hld, rfl, hopen⟩ := (openLogicDecls_find? hl hsyms ls d).mp hfind
      obtain ⟨ls, vl, t, hmake, ht⟩ := hldl ld hld
      obtain ⟨rfl, e, hopen', hdefines⟩ := makeLsDefn_defines hmake ht
      cases Except.ok.inj (hopen.symm.trans hopen')
      exact hdefines
    have hR := registered_callGraph hI hfree hl hsyms hdef
    have hsized := sized_callGraph hdef
    refine ⟨ldl', (Except.ok.inj h).symm, ?_, ?_⟩
    · refine wellFounded_of_classes Prod.fst (ldl.map Prod.fst).finite_toSet
        (fun _ _ hcall => hcall.1) ?_
      intro id hid
      obtain ⟨ld, hld, rfl⟩ := mem_map.mp hid
      obtain ⟨_, _, pl, hpl, _⟩ := forall₂_mem_left hall hld
      refine Subrelation.wf ?_ (InvImage.wf Prod.snd
        (lexLess_wellFounded (hfinite.transGen) pl))
      rintro ⟨_, ys⟩ ⟨_, xs⟩ ⟨rfl, rfl, hcycle⟩
      exact cycle_decreases hsized hR hpl hcycle
    · refine hall.imp ?_
      rintro ld _ ⟨pl, hpl, rfl⟩
      exact ⟨rfl, fun xs ys hcycle => cycle_decreases hsized hR hpl hcycle⟩

/-! ## A recursive definition on natural numbers -/

theorem peano_finite : WellFounded (SubValue peanoSig peano) := by
  refine Subrelation.wf ?_ (InvImage.wf (fun x : Ty × (Ty × ℕ) => x.2.2) wellFounded_lt)
  rintro x _ ⟨ts, tl, cs, hcs, _, ds, hds, rfl, hx⟩
  obtain ⟨rfl, rfl | rfl⟩ := mem_constrs_peanoSig hcs
  · simp [fsZero] at hx
  · obtain ⟨n, rfl⟩ := typed_fsSucc hds
    obtain rfl : x = _ := by simpa [fsSucc] using hx
    change n < (peano.fn fsSucc _ [(tyNat, n)]).2
    simp [peano, taggedInterp]

def fsDown : LSymbol := ⟨⟨33⟩, [tyNat], some tyNat, 0⟩

def vsM : VSymbol := ⟨⟨34⟩, tyNat⟩

def vsK : VSymbol := ⟨⟨35⟩, tyNat⟩

/-- `match m with O -> O | S k -> down k end` -/
def downBody : Term :=
  tCaseClose (.tvar [] vsM)
    [(.papp fsZero [] tyNat, .tapp [] fsZero [] (some tyNat)),
      (.papp fsSucc [.pvar vsK] tyNat, .tapp [] fsDown [.tvar [] vsK] (some tyNat))]

def downAxiom : Term :=
  .tquant [] .tforall [vsM] []
    (.tapp [] psEqu [.tapp [] fsDown [.tbnd [] 0 tyNat] (some tyNat), closeVars [vsM] downBody]
      none)

def downDefn : LogicDecl := (fsDown, fsDown, downAxiom, [])

theorem downBody_typed : WellTyped peanoSig [] downBody (some tyNat) := by
  have hzero : fsZero ∈ peanoSig.constrs tsNat := by simp [peanoSig]
  have hsucc : fsSucc ∈ peanoSig.constrs tsNat := by simp [peanoSig]
  have hbody : WellTyped peanoSig [tyNat] (.tapp [] fsDown [.tbnd [] 0 tyNat] (some tyNat))
      (some tyNat) := by
    refine .tapp [] .tyvar (.inl rfl) rfl rfl ?_
    rintro (_ | i) t ty ht hty
    · cases ht
      cases hty
      exact .tbnd [] rfl
    · simp at ht
  refine .tcase [] (.tvar [] vsM) rfl (by simp) ?_ ?_
  · simp only [map_cons, map_nil, forall_mem_cons, tCloseBranch]
    refine ⟨⟨.papp rfl hzero rfl nodup_nil (by simp), rfl⟩, ⟨?_, rfl⟩, by simp⟩
    refine .papp rfl hsucc rfl (by simp [Pattern.varsList, Pattern.vars]) ?_
    rw [forall_mem_singleton]
    exact .pvar vsK
  · simp only [map_cons, map_nil, forall_mem_cons, tCloseBranch]
    refine ⟨.tapp [] .tyvar (.inr ⟨tsNat, hzero⟩) rfl rfl ?_, hbody, by simp⟩
    exact fun i t ty ht => absurd ht (by simp [mapVarsList])

/-- The definition by recursion on the argument is accepted, and terminates. -/
theorem createLogicDecl_terminates_down :
    createLogicDecl [downDefn] = .ok (.dlogic [(fsDown, fsDown, downAxiom, [0])]) ∧
      ∃ ldl', Decl.dlogic [(fsDown, fsDown, downAxiom, [0])] = .dlogic ldl' ∧
        WellFounded (fun y x => Calls peano [downDefn] x y) ∧
        Forall₂ (fun ld ld' => ld'.1 = ld.1 ∧ ∀ xs ys : List (Ty × (Ty × ℕ)),
          TransGen (Calls peano [downDefn]) (ld.1, xs) (ld.1, ys) →
            LexLess (TransGen (SubValue peanoSig peano)) ld'.2.2.2 ys xs) [downDefn] ldl' := by
  refine ⟨rfl, createLogicDecl_terminates peano_sound peano_free peano_finite ?_ rfl⟩
  rw [forall_mem_singleton]
  exact ⟨fsDown, [vsM], downBody, rfl, downBody_typed⟩

theorem checkTermination_total_down : ∃ syms, openLogicDecls [downDefn] = .ok syms ∧
    findVariant (.noTerminationProof fsDown) (callGraph syms) fsDown = .ok [0] ∧
    ((∃ ldl', checkTermination [downDefn] = .ok ldl' ∧ Forall₂ (fun ld ld' => ∃ pl,
      findVariant (.noTerminationProof ld.1) (callGraph syms) ld.1 = .ok pl ∧
        ld' = (ld.1, ld.1, ld.2.2.1, pl)) [downDefn] ldl') ∨ ∃ ls, syms.mem ls = true ∧
      checkTermination [downDefn] = .error (.noTerminationProof ls)) :=
  ⟨_, rfl, rfl, checkTermination_total rfl⟩

end Why3
