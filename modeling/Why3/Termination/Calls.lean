import Why3.Termination.Describe
import Why3.Termination.Fresh

/-!
# The calls of a definition

The calls that evaluating a term makes, and the fact that each of them is registered
with a description of its arguments that is right.
-/

namespace Why3

open Lib Interp List

variable {D : Type}
variable {ds : List D} {tl : List Term} {b : List VSymbol} {t : Term} {vsg : VsGraph}
variable {P : LSymbol × LSymbol × List Descent → Prop} {vm : TagMap VSymbol Descent} {n : ℕ}

noncomputable def typedValue (I : Interp D) (τ : TyVal) (ρ : VSymbol → D) (bv : List D)
    (t : Term) : Ty × D :=
  ((t.tTy.getD default).vMap τ, (I.eval τ ρ bv t).1)

/-- Evaluating a term, the indices having the values `bv`, leads to a call of `g` with
the arguments `ys`. Both branches of a conditional are counted, and every branch of a
case statement whose pattern matches. A bound variable takes all values of its type. -/
inductive CallIn (I : Interp D) (τ : TyVal) (ρ : VSymbol → D) (g : LSymbol)
    (ys : List (Ty × D)) : List D → Term → Prop where
  | call {bv : List D} {a : List Attr} {tl : List Term} {o : Option Ty}
      (h : ys = tl.map (typedValue I τ ρ bv)) : CallIn I τ ρ g ys bv (.tapp a g tl o)
  | tapp {bv : List D} {a : List Attr} {ls : LSymbol} {tl : List Term} {o : Option Ty} {t : Term}
      (ht : t ∈ tl) (h : CallIn I τ ρ g ys bv t) : CallIn I τ ρ g ys bv (.tapp a ls tl o)
  | ifCond {bv : List D} {a : List Attr} {f t e : Term} (h : CallIn I τ ρ g ys bv f) :
      CallIn I τ ρ g ys bv (.tif a f t e)
  | ifThen {bv : List D} {a : List Attr} {f t e : Term} (h : CallIn I τ ρ g ys bv t) :
      CallIn I τ ρ g ys bv (.tif a f t e)
  | ifElse {bv : List D} {a : List Attr} {f t e : Term} (h : CallIn I τ ρ g ys bv e) :
      CallIn I τ ρ g ys bv (.tif a f t e)
  | letTerm {bv : List D} {a : List Attr} {t : Term} {v : VSymbol} {e : Term}
      (h : CallIn I τ ρ g ys bv t) : CallIn I τ ρ g ys bv (.tlet a t v e)
  | letBody {bv : List D} {a : List Attr} {t : Term} {v : VSymbol} {e : Term}
      (h : CallIn I τ ρ g ys ((I.eval τ ρ bv t).1 :: bv) e) : CallIn I τ ρ g ys bv (.tlet a t v e)
  | caseTerm {bv : List D} {a : List Attr} {t : Term} {bl : List (Pattern × Term)}
      (h : CallIn I τ ρ g ys bv t) : CallIn I τ ρ g ys bv (.tcase a t bl)
  | branch {bv : List D} {a : List Attr} {t : Term} {bl : List (Pattern × Term)} {p : Pattern}
      {e : Term} {β : List (VSymbol × D)} (hmem : (p, e) ∈ bl)
      (hm : I.matchPat τ p (I.eval τ ρ bv t).1 = some β)
      (h : CallIn I τ ρ g ys (I.values τ β p.vars ++ bv) e) :
      CallIn I τ ρ g ys bv (.tcase a t bl)
  | teps {bv : List D} {a : List Attr} {v : VSymbol} {f : Term} {d : D}
      (hd : d ∈ I.carrier (v.vsTy.vMap τ)) (h : CallIn I τ ρ g ys (d :: bv) f) :
      CallIn I τ ρ g ys bv (.teps a v f)
  | tquant {bv : List D} {a : List Attr} {q : Quant} {vl : List VSymbol} {trl : List (List Term)}
      {f : Term} {ds : List D} (hds : I.Typed τ (vl.map VSymbol.vsTy) ds)
      (h : CallIn I τ ρ g ys (ds ++ bv) f) : CallIn I τ ρ g ys bv (.tquant a q vl trl f)
  | left {bv : List D} {a : List Attr} {op : Binop} {f₁ f₂ : Term}
      (h : CallIn I τ ρ g ys bv f₁) : CallIn I τ ρ g ys bv (.tbinop a op f₁ f₂)
  | right {bv : List D} {a : List Attr} {op : Binop} {f₁ f₂ : Term}
      (h : CallIn I τ ρ g ys bv f₂) : CallIn I τ ρ g ys bv (.tbinop a op f₁ f₂)
  | tnot {bv : List D} {a : List Attr} {f : Term} (h : CallIn I τ ρ g ys bv f) :
      CallIn I τ ρ g ys bv (.tnot a f)

/-! ## Registered calls stay registered -/

section Mono

variable {syms : LSymbol → Bool} {ls : LSymbol}

theorem mem_registerCall {cgr : CallSet} {callee : LSymbol} {c : LSymbol × LSymbol × List Descent} :
    c ∈ registerCall cgr ls b vsg callee tl ↔
      c ∈ cgr ∨ ∃ vm ∈ vsg, c = (callee, ls, tl.map (describe b vm)) := by
  unfold registerCall
  induction vsg generalizing cgr with
  | nil => simp
  | cons vm vsg ih =>
    rw [foldl_cons, ih, mem_cons, exists_mem_cons_iff]
    tauto

mutual

theorem callsTerm_mono : ∀ (t : Term) (vsg : VsGraph) (b : List VSymbol) (n : ℕ) (cgr : CallSet),
    ∀ c ∈ cgr, c ∈ callsTerm syms ls vsg b n t cgr
  | .tvar _ _, _, _, _, _, _, hc | .tbnd _ _ _, _, _, _, _, _, hc
  | .tconst _ _ _, _, _, _, _, _, hc | .ttrue _, _, _, _, _, _, hc
  | .tfalse _, _, _, _, _, _, hc => hc
  | .tapp _ s tl _, vsg, b, n, cgr, c, hc => by
    have hargs := callsTerms_mono tl vsg b n cgr c hc
    rw [callsTerm]
    split
    · exact mem_registerCall.mpr (.inl hargs)
    · exact hargs
  | .tif _ f t e, vsg, b, n, cgr, c, hc =>
    callsTerm_mono e vsg b n _ c (callsTerm_mono t vsg b n _ c (callsTerm_mono f vsg b n _ c hc))
  | .tlet _ t _ e, _, _, _, _, c, hc =>
    callsTerm_mono e _ _ _ _ c (callsTerm_mono t _ _ _ _ c hc)
  | .tcase _ t bl, _, _, _, _, c, hc =>
    callsBranches_mono bl _ _ _ _ _ c (callsTerm_mono t _ _ _ _ c hc)
  | .teps _ _ f, _, _, _, _, c, hc
  | .tquant _ _ _ _ f, _, _, _, _, c, hc
  | .tnot _ f, _, _, _, _, c, hc => callsTerm_mono f _ _ _ _ c hc
  | .tbinop _ _ f g, _, _, _, _, c, hc =>
    callsTerm_mono g _ _ _ _ c (callsTerm_mono f _ _ _ _ c hc)

theorem callsTerms_mono : ∀ (tl : List Term) (vsg : VsGraph) (b : List VSymbol) (n : ℕ)
    (cgr : CallSet), ∀ c ∈ cgr, c ∈ callsTerms syms ls vsg b n tl cgr
  | [], _, _, _, _, _, hc => hc
  | t :: tl, vsg, b, n, cgr, c, hc =>
    callsTerms_mono tl vsg b n _ c (callsTerm_mono t vsg b n cgr c hc)

theorem callsBranches_mono : ∀ (bl : List (Pattern × Term)) (vsg : VsGraph) (b : List VSymbol)
    (n : ℕ) (t : Term) (cgr : CallSet), ∀ c ∈ cgr, c ∈ callsBranches syms ls vsg b n t bl cgr
  | [], _, _, _, _, _, _, hc => hc
  | (_, e) :: bl, vsg, b, n, t, cgr, c, hc =>
    callsBranches_mono bl vsg b n t _ c (callsTerm_mono e _ _ _ cgr c hc)

end

/-- What is registered for one of the terms is registered for the list. -/
theorem mem_callsTerms (ht : t ∈ tl) (h : ∀ cgr, ∃ c ∈ callsTerm syms ls vsg b n t cgr, P c)
    (cgr : CallSet) : ∃ c ∈ callsTerms syms ls vsg b n tl cgr, P c := by
  induction tl generalizing cgr with
  | nil => exact absurd ht not_mem_nil
  | cons t' tl ih =>
    rcases mem_cons.mp ht with rfl | ht
    · obtain ⟨c, hc, hP⟩ := h cgr
      exact ⟨c, callsTerms_mono tl vsg b n _ c hc, hP⟩
    · exact ih ht _

theorem mem_callsBranches {p : Pattern} {e : Term} {bl : List (Pattern × Term)} (hmem : (p, e) ∈ bl)
    (h : ∀ cgr, ∃ c ∈ callsTerm syms ls (vsGraphPat b vsg t (p.fresh n))
      (freshLike n p.vars ++ b) (n + p.vars.length) e cgr, P c) (cgr : CallSet) :
    ∃ c ∈ callsBranches syms ls vsg b n t bl cgr, P c := by
  induction bl generalizing cgr with
  | nil => exact absurd hmem not_mem_nil
  | cons br bl ih =>
    rcases mem_cons.mp hmem with rfl | hmem
    · obtain ⟨c, hc, hP⟩ := h cgr
      exact ⟨c, callsBranches_mono bl vsg b n t _ c hc, hP⟩
    · exact ih hmem _

end Mono

/-! ## Every call is registered -/

/-- The vector is right about the arguments `ys`. -/
structure Describes (S : DataSig) (I : Interp D) (xs : List (Ty × D)) (v : List Descent)
    (ys : List (Ty × D)) : Prop where
  length : ys.length ≤ v.length
  descr : ∀ i y, ys[i]? = some y → Descr S I xs (v.getD i .unknown) y

variable {S : DataSig} {I : Interp D} {τ : TyVal} {xs ys : List (Ty × D)} {n n' : ℕ}
  {ρ η η' : VSymbol → D} {b ul : List VSymbol} {vsg : VsGraph}

theorem HasValue.describe {ty : Ty} {d : D} (h : HasValue S I τ ρ b η t ty d)
    (hvm : Valid S I τ xs n η vm) : Descr S I xs (describe b vm t) (ty.vMap τ, d) := by
  unfold Why3.describe
  cases hv : Why3.termVar b t with
  | none => exact trivial
  | some v =>
    change Descr S I xs ((vm.find? v).getD .unknown) _
    cases hfind : vm.find? v with
    | none => exact trivial
    | some link => exact h.descr hvm (Option.bind_eq_some_iff.mpr ⟨v, hv, hfind⟩)

theorem describes_map (htl : ∀ t ∈ tl, ∃ ty, HasValue S I τ ρ b η t ty (I.eval τ ρ (b.map η) t).1)
    (hvm : Valid S I τ xs n η vm) :
    Describes S I xs (tl.map (describe b vm)) (tl.map (typedValue I τ ρ (b.map η))) where
  length := by rw [length_map, length_map]
  descr i y hy := by
    rw [getElem?_map] at hy
    obtain ⟨t, ht, rfl⟩ := Option.map_eq_some_iff.mp hy
    obtain ⟨ty, hval⟩ := htl t (mem_of_getElem? ht)
    rw [getD_eq_getElem?_getD, getElem?_map, ht, Option.map_some, Option.getD_some,
      typedValue, hval.typed.tTy_eq, Option.getD_some]
    exact hval.describe hvm

theorem map_append_eq (hb : Opened I τ n b η)
    (hold : ∀ v : VSymbol, v.vsName.idTag < n → η' v = η v) (hds : ul.map η' = ds) :
    (ul ++ b).map η' = ds ++ b.map η := by
  rw [map_append, hds]
  congr 1
  exact map_congr_left fun v hv => hold v (hb.tags v hv)

theorem Opened.mono (hb : Opened I τ n b η) (hn : n ≤ n') : Opened I τ n' b η :=
  ⟨fun v hv => (hb.tags v hv).trans_le hn, hb.typed⟩

theorem Opened.extend (hb : Opened I τ n b η) (hn : n ≤ n') (htags : ∀ u ∈ ul, u.vsName.idTag < n')
    (hold : ∀ v : VSymbol, v.vsName.idTag < n → η' v = η v) (hds : ul.map η' = ds)
    (htyped : I.Typed τ (ul.map VSymbol.vsTy) ds) : Opened I τ n' (ul ++ b) η' where
  tags v hv := by
    rcases mem_append.mp hv with hv | hv
    · exact htags v hv
    · exact (hb.tags v hv).trans_le hn
  typed := by
    rw [map_append, map_append_eq hb hold hds]
    exact htyped.append hb.typed

theorem exists_values (n : ℕ) (η : VSymbol → D) {vl : List VSymbol} (hl : vl.length = ds.length) :
    ∃ η' : VSymbol → D, (freshLike n vl).map η' = ds ∧ ∀ v ∉ freshLike n vl, η' v = η v := by
  have hl' : (freshLike n vl).length = ds.length := (length_freshLike n vl).trans hl
  refine ⟨assign η ((freshLike n vl).zip ds), ?_, ?_⟩
  · apply ext_getElem?
    intro i
    rw [getElem?_map]
    cases hu : (freshLike n vl)[i]? with
    | none =>
      rw [getElem?_eq_none_iff] at hu
      rw [Option.map_none, getElem?_eq_none (hl' ▸ hu)]
    | some u =>
      have hi : i < ds.length := hl' ▸ (List.getElem?_eq_some_iff.mp hu).1
      have hd : ds[i]? = some ds[i] := getElem?_eq_getElem hi
      rw [Option.map_some, hd, assign, lookup_zip_eq_some (nodup_freshLike n vl) hu hd,
        Option.getD_some]
  · intro v hv
    apply assign_of_not_mem
    rwa [map_fst_zip hl'.le]

theorem Opened.fresh (hb : Opened I τ n b η) (vl : List VSymbol)
    (hds : I.Typed τ (vl.map VSymbol.vsTy) ds) :
    ∃ η', Opened I τ (n + vl.length) (freshLike n vl ++ b) η' ∧
      ds ++ b.map η = (freshLike n vl ++ b).map η' ∧ (freshLike n vl).map η' = ds ∧
      ∀ v ∉ freshLike n vl, η' v = η v := by
  have hl : vl.length = ds.length := by simpa using hds.length_eq
  obtain ⟨η', hvalue, hold⟩ := exists_values n η hl
  have hold' : ∀ v : VSymbol, v.vsName.idTag < n → η' v = η v :=
    fun v hv => hold v (not_mem_freshLike hv)
  refine ⟨η', ?_, (map_append_eq hb hold' hvalue).symm, hvalue, hold⟩
  refine hb.extend (Nat.le_add_right n _) ?_ hold' hvalue ?_
  · exact fun u hu => (idTag_of_mem_freshLike hu).2
  · rwa [map_vsTy_freshLike]

/-- A call that an evaluation makes is registered, with a right description. -/
theorem callsTerm_sound (hI : I.Sound) (hfree : I.Free S) (hρ : I.TypedVal τ ρ)
    {syms : LSymbol → Bool} {f g : LSymbol} (hg : syms g = true) {bv : List D}
    {b : List VSymbol} {η : VSymbol → D} {n : ℕ} {vsg : VsGraph} {o : Option Ty}
    (h : CallIn I τ ρ g ys bv t) (hb : Opened I τ n b η) (hbv : bv = b.map η)
    (ht : WellTyped S (b.map VSymbol.vsTy) t o) (hclosed : t.freeVars = [])
    (hvalid : SomeValid S I τ xs n η vsg) (cgr) : ∃ c ∈ callsTerm syms f vsg b n t cgr,
      ∃ v, c = (g, f, v) ∧ v.length = ys.length ∧ Describes S I xs v ys := by
  induction h generalizing b η n vsg o cgr with
  | @call bv a tl o h =>
    subst hbv
    obtain ⟨vm, hvm, hvalid⟩ := hvalid
    have hargs : ∀ t ∈ tl, ∃ ty, HasValue S I τ ρ b η t ty (I.eval τ ρ (b.map η) t).1 := by
      intro t hmem
      have hfv := Term.freeVars_eq_nil_of_mem hclosed t hmem
      cases ht with
      | tapp _ σ _ _ hlen htl =>
        obtain ⟨i, hi⟩ := mem_iff_getElem?.mp hmem
        have hlt := hlen ▸ (List.getElem?_eq_some_iff.mp hi).1
        exact ⟨_, htl i t _ hi (getElem?_eq_getElem hlt), hfv, rfl⟩
    refine ⟨(g, f, tl.map (describe b vm)), ?_, _, rfl, by simp [h], h ▸ describes_map hargs hvalid⟩
    rw [callsTerm, if_pos hg]
    exact mem_registerCall.mpr (.inr ⟨vm, hvm, rfl⟩)
  | @tapp bv a ls tl o t hmem h ih =>
    cases ht with
    | tapp _ σ _ _ hlen htl =>
      obtain ⟨i, hi⟩ := mem_iff_getElem?.mp hmem
      have hlt := hlen ▸ (List.getElem?_eq_some_iff.mp hi).1
      have ht := htl i t _ hi (getElem?_eq_getElem hlt)
      obtain ⟨c, hc, hP⟩ := mem_callsTerms hmem
        (ih hb hbv ht (Term.freeVars_eq_nil_of_mem hclosed t hmem) hvalid) cgr
      refine ⟨c, ?_, hP⟩
      rw [callsTerm]
      split
      · exact mem_registerCall.mpr (.inl hc)
      · exact hc
  | ifCond h ih =>
    simp only [Term.freeVars, append_eq_nil_iff] at hclosed
    cases ht with
    | tif _ hf _ _ =>
      rw [callsTerm]
      exact (ih hb hbv hf hclosed.1.1 hvalid cgr).imp fun c => .imp_left fun hc =>
        callsTerm_mono _ _ _ _ _ c (callsTerm_mono _ _ _ _ _ c hc)
  | ifThen h ih =>
    simp only [Term.freeVars, append_eq_nil_iff] at hclosed
    cases ht with
    | tif _ _ ht _ =>
      rw [callsTerm]
      exact (ih hb hbv ht hclosed.1.2 hvalid _).imp fun c => .imp_left (callsTerm_mono _ _ _ _ _ c)
  | ifElse h ih =>
    simp only [Term.freeVars, append_eq_nil_iff] at hclosed
    cases ht with
    | tif _ _ _ he => exact ih hb hbv he hclosed.2 hvalid _
  | letTerm h ih =>
    simp only [Term.freeVars, append_eq_nil_iff] at hclosed
    cases ht with
    | tlet _ ht _ =>
      rw [callsTerm]
      exact (ih hb hbv ht hclosed.1 hvalid cgr).imp fun c => .imp_left (callsTerm_mono _ _ _ _ _ c)
  | @letBody bv a t v e h ih =>
    subst hbv
    simp only [Term.freeVars, append_eq_nil_iff] at hclosed
    cases ht with
    | tlet _ ht he =>
      have hd := (ht.eval_mem hI hρ hb.typed _ rfl).1
      obtain ⟨η', hb', hbv, hvalue, hold⟩ := hb.fresh [v] (.cons hd .nil)
      refine ih hb' hbv he hclosed.2 ?_ _
      have hvalid' := hvalid.mono (Nat.le_add_right n 1) fun _ _ => rfl
      refine hvalid'.vsGraphLet (ρ := ρ) ⟨ht, hclosed.1, ?_⟩ (Nat.lt_succ_self n) ?_
      · exact (List.cons.inj hvalue).1.symm
      · exact fun w hw => hold w (by simpa [freshLike] using hw)
  | caseTerm h ih =>
    simp only [Term.freeVars, append_eq_nil_iff] at hclosed
    cases ht with
    | tcase _ ht _ _ _ _ =>
      exact (ih hb hbv ht hclosed.1 hvalid cgr).imp fun c =>
        .imp_left (callsBranches_mono _ _ _ _ _ _ c)
  | @branch bv a t bl p e β hmem hm h ih =>
    subst hbv
    simp only [Term.freeVars, append_eq_nil_iff] at hclosed
    cases ht with
    | tcase _ ht _ _ hp hbl =>
      obtain ⟨hp, hty⟩ := hp (p, e) hmem
      have hd : (I.eval τ ρ (b.map η) t).1 ∈ I.carrier (p.patTy.vMap τ) := by
        rw [hty]
        exact (ht.eval_mem hI hρ hb.typed _ rfl).1
      obtain ⟨β', hm', hvalue⟩ := matchPat_fresh (n := n) hp hm η
      have htags : ∀ u ∈ freshLike n p.vars, u.vsName.idTag < n + p.vars.length :=
        fun u hu => (idTag_of_mem_freshLike hu).2
      have hold : ∀ v : VSymbol, v.vsName.idTag < n → assign η β' v = η v := by
        intro v hv
        apply assign_eq_of_not_mem_vars hp.fresh hm'
        rw [vars_fresh hp]
        exact not_mem_freshLike hv
      have hds : I.Typed τ ((freshLike n p.vars).map VSymbol.vsTy) (I.values τ β p.vars) := by
        rw [map_vsTy_freshLike]
        exact typed_values hI (matchPat_typed hp hm hd) p.vars
      have hb' := hb.extend (Nat.le_add_right n _) htags hold hvalue hds
      have he := hbl (p, e) hmem
      rw [← map_vsTy_freshLike n, ← map_append] at he
      refine mem_callsBranches hmem (ih hb' (map_append_eq hb hold hvalue).symm he
        (freeVars_eq_nil_of_mem_branches hclosed.2 (p, e) hmem) ?_) _
      have hvalid' := hvalid.mono (Nat.le_add_right n p.vars.length) fun _ _ => rfl
      refine hvalid'.vsGraphPat hI hfree hρ (hb.mono (Nat.le_add_right n _)) hp.fresh hm' ?_ ?_
      · rwa [vars_fresh hp]
      · rw [patTy_fresh, hty]
        exact ⟨ht, hclosed.1, rfl⟩
  | @teps bv a v f d hd h ih =>
    subst hbv
    cases ht with
    | teps _ hf =>
      obtain ⟨η', hb', hbv, _, hold⟩ := hb.fresh [v] (.cons hd .nil)
      refine ih hb' hbv hf hclosed (hvalid.mono (Nat.le_add_right n 1) fun w hw => ?_) _
      exact hold w (not_mem_freshLike hw)
  | @tquant bv a q vl trl f ds hds h ih =>
    subst hbv
    simp only [Term.freeVars, append_eq_nil_iff] at hclosed
    cases ht with
    | tquant _ _ _ hf =>
      obtain ⟨η', hb', hbv, _, hold⟩ := hb.fresh vl hds
      rw [← map_vsTy_freshLike n, ← map_append] at hf
      refine ih hb' hbv hf hclosed.2 (hvalid.mono (Nat.le_add_right n _) fun w hw => ?_) _
      exact hold w (not_mem_freshLike hw)
  | left h ih =>
    simp only [Term.freeVars, append_eq_nil_iff] at hclosed
    cases ht with
    | tbinop _ _ hf _ =>
      rw [callsTerm]
      exact (ih hb hbv hf hclosed.1 hvalid cgr).imp fun c => .imp_left (callsTerm_mono _ _ _ _ _ c)
  | right h ih =>
    simp only [Term.freeVars, append_eq_nil_iff] at hclosed
    cases ht with
    | tbinop _ _ _ hg => exact ih hb hbv hg hclosed.2 hvalid _
  | tnot h ih =>
    cases ht with
    | tnot _ hf => exact ih hb hbv hf hclosed hvalid cgr

end Why3
