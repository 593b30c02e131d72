import Why3.Logic.Map

/-!
# Simplifying constructors

Every simplifying constructor applies to well-typed arguments, and rewrites what the plain
constructor builds.
-/

namespace Why3

open Lib Term Interp List

variable {S : DataSig} {D : Type} {I : Interp D} {Φ : RewriteCtx D}
variable {q : Quant} {e f t : Term} {v : VSymbol}
variable {trl : List (List Term)} {vl : List VSymbol} {g u : Term} {n : ℕ}
variable {fn : ℕ → (u : Term) → Part u f → Except Exn Term}

/-- Formulas with the same truth value are rewritten to each other. -/
theorem Rewrites.of_holds (hf : WellTyped S [] f none) (hg : WellTyped S [] g none)
    (hvars : g.freeVars ⊆ f.freeVars)
    (h : ∀ {τ ρ}, I.TypedVal τ ρ → (I.Holds τ ρ g ↔ I.Holds τ ρ f)) : Rewrites S I Φ none f g :=
  ⟨hg, fun hv => .inl (hvars hv), fun hρ =>
    Prod.ext (by rw [hf.eval_fst, hg.eval_fst]) (propext (h hρ.1))⟩

theorem Rewrites.holds (h : Rewrites S I Φ none f g) {τ : TyVal} {ρ : VSymbol → D}
    (hρ : Φ.Admits I τ ρ) : I.Holds τ ρ g ↔ I.Holds τ ρ f := by
  rw [Holds, Holds, h.eval hρ]

theorem Rewrites.of_ok {o : Option Ty} {r : Except Exn Term} (hr : r = .ok u)
    (h : ∃ t, r = .ok t ∧ Rewrites S I Φ o f t) : Rewrites S I Φ o f u := by
  obtain ⟨t, ht, h⟩ := h
  rwa [Except.ok.inj (hr.symm.trans ht)]

section

variable {Γ : List Ty} {o : Option Ty} {τ : TyVal} {ρ : VSymbol → D} {b : List D}

theorem WellTyped.attrAdd (x : Attr) (h : WellTyped S Γ t o) : WellTyped S Γ (t.attrAdd x) o :=
  h.withAttrs _

theorem WellTyped.attrRemove (x : Attr) (h : WellTyped S Γ t o) :
    WellTyped S Γ (t.attrRemove x) o :=
  h.withAttrs _

namespace Interp

@[simp] theorem eval_attrAdd (x : Attr) (t : Term) : I.eval τ ρ b (t.attrAdd x) = I.eval τ ρ b t :=
  eval_withAttrs I τ ρ b _ t

@[simp] theorem eval_attrRemove (x : Attr) (t : Term) :
    I.eval τ ρ b (t.attrRemove x) = I.eval τ ρ b t :=
  eval_withAttrs I τ ρ b _ t

theorem eval_of_isTrue (h : f.isTrue = true) : (I.eval τ ρ b f).2 := by
  cases f <;> simp_all [Term.isTrue]

theorem eval_of_isFalse (h : f.isFalse = true) : ¬ (I.eval τ ρ b f).2 := by
  cases f <;> simp_all [Term.isFalse]

end Interp

end

/-! ## Connectives -/

section Connectives

variable {f g : Term} (hf : WellTyped S [] f none) (hg : WellTyped S [] g none)

include hf in
theorem tNotSimp_rewrites : ∃ t, tNotSimp f = .ok t ∧ Rewrites S I Φ none (.tnot [] f) t := by
  unfold tNotSimp
  split
  · exact ⟨_, rfl, .of_holds (.tnot [] hf) ((WellTyped.tfalse []).attrCopy _) (by simp [freeVars])
      fun _ => by simp [Holds]⟩
  · exact ⟨_, rfl, .of_holds (.tnot [] hf) ((WellTyped.ttrue []).attrCopy _) (by simp [freeVars])
      fun _ => by simp [Holds]⟩
  · cases hf with
    | tnot _ hf =>
      exact ⟨_, rfl, .of_holds (.tnot [] (.tnot _ hf)) (hf.attrCopy _) (by simp [freeVars])
        fun _ => by simp [Holds]⟩
  · exact ⟨_, tNot_of_wellTyped hf, .refl (.tnot [] hf)⟩

include hf hg

theorem Rewrites.to_right (op : Binop)
    (h : ∀ {τ ρ}, I.TypedVal τ ρ → (I.Holds τ ρ g ↔ I.Holds τ ρ (.tbinop [] op f g))) :
    Rewrites S I Φ none (.tbinop [] op f g) g :=
  .of_holds (.tbinop [] op hf hg) hg (subset_append_right _ _) h

theorem Rewrites.to_left (op : Binop)
    (h : ∀ {τ ρ}, I.TypedVal τ ρ → (I.Holds τ ρ f ↔ I.Holds τ ρ (.tbinop [] op f g))) :
    Rewrites S I Φ none (.tbinop [] op f g) f :=
  .of_holds (.tbinop [] op hf hg) hf (subset_append_left _ _) h

theorem Rewrites.to_attrRemove (op : Binop) (x : Attr)
    (h : ∀ {τ ρ}, I.TypedVal τ ρ → (I.Holds τ ρ f ↔ I.Holds τ ρ (.tbinop [] op f g))) :
    Rewrites S I Φ none (.tbinop [] op f g) (f.attrRemove x) := by
  have hleft : Rewrites S I Φ none (.tbinop [] op f g) f := to_left hf hg op h
  exact ⟨hf.attrRemove x, by rw [attrRemove, freeVars_withAttrs]; exact hleft.vars, fun hρ => by
    rw [eval_attrRemove, hleft.eval hρ]⟩

theorem Rewrites.to_true (op : Binop) (a : List Attr)
    (h : ∀ {τ ρ}, I.TypedVal τ ρ → I.Holds τ ρ (.tbinop [] op f g)) :
    Rewrites S I Φ none (.tbinop [] op f g) (Term.attrCopy a (ttrue [])) :=
  .of_holds (.tbinop [] op hf hg) ((WellTyped.ttrue []).attrCopy a) (by simp [freeVars])
    fun hρ => by simpa [Holds] using h hρ

theorem tNotSimp_of_holds {op : Binop} {u : Term} (hu : WellTyped S [] u none)
    (hsub : u.freeVars ⊆ f.freeVars ++ g.freeVars)
    (h : ∀ {τ ρ}, I.TypedVal τ ρ → (I.Holds τ ρ (.tnot [] u) ↔ I.Holds τ ρ (.tbinop [] op f g))) :
    ∃ t, tNotSimp u = .ok t ∧ Rewrites S I Φ none (.tbinop [] op f g) t := by
  obtain ⟨t, ht, hnot⟩ := tNotSimp_rewrites (I := I) (Φ := Φ) hu
  exact ⟨t, ht, .trans (.of_holds (.tbinop [] op hf hg) (.tnot [] hu) hsub h) hnot⟩

theorem tBinary_rewrites (op : Binop) :
    ∃ t, tBinary op f g = .ok t ∧ Rewrites S I Φ none (.tbinop [] op f g) t :=
  ⟨_, tBinary_of_wellTyped hf hg op, .refl (.tbinop [] op hf hg)⟩

theorem conjSimp_rewrites (hI : I.Sound) {conj : Term → Term → Except Exn Term}
    (hconj : ∃ t, conj f g = .ok t ∧ Rewrites S I Φ none (.tbinop [] .tand f g) t) :
    ∃ t, conjSimp conj f g = .ok t ∧ Rewrites S I Φ none (.tbinop [] .tand f g) t := by
  unfold conjSimp
  split_ifs with h₁ h₂ h₃ h₄ h₅
  · exact ⟨_, rfl, .to_right hf hg _ fun _ => by simp [Holds, eval_of_isTrue h₁]⟩
  · exact ⟨_, rfl, .to_attrRemove hf hg _ _ fun _ => by simp [Holds, eval_of_isTrue h₂]⟩
  · exact ⟨_, rfl, .to_attrRemove hf hg _ _ fun _ => by simp [Holds, eval_of_isFalse h₃]⟩
  · exact ⟨_, rfl, .to_right hf hg _ fun _ => by simp [Holds, eval_of_isFalse h₄]⟩
  · exact ⟨_, rfl, .to_left hf hg _ fun _ => by simp [Holds, eval_of_tEqual hI hf hg h₅]⟩
  · exact hconj

theorem disjSimp_rewrites (hI : I.Sound) {disj : Term → Term → Except Exn Term}
    (hdisj : ∃ t, disj f g = .ok t ∧ Rewrites S I Φ none (.tbinop [] .tor f g) t) :
    ∃ t, disjSimp disj f g = .ok t ∧ Rewrites S I Φ none (.tbinop [] .tor f g) t := by
  unfold disjSimp
  split_ifs with h₁ h₂ h₃ h₄ h₅
  · exact ⟨_, rfl, .to_attrRemove hf hg _ _ fun _ => by simp [Holds, eval_of_isTrue h₁]⟩
  · exact ⟨_, rfl, .to_right hf hg _ fun _ => by simp [Holds, eval_of_isTrue h₂]⟩
  · exact ⟨_, rfl, .to_right hf hg _ fun _ => by simp [Holds, eval_of_isFalse h₃]⟩
  · exact ⟨_, rfl, .to_attrRemove hf hg _ _ fun _ => by simp [Holds, eval_of_isFalse h₄]⟩
  · exact ⟨_, rfl, .to_left hf hg _ fun _ => by simp [Holds, eval_of_tEqual hI hf hg h₅]⟩
  · exact hdisj

theorem tAndAsym_rewrites :
    ∃ t, tAndAsym f g = .ok t ∧ Rewrites S I Φ none (.tbinop [] .tand f g) t := by
  have hf' : Rewrites S I Φ none f (f.attrAdd .asymSplit) :=
    ⟨hf.attrAdd _, by rw [attrAdd, freeVars_withAttrs]; exact .inl, fun _ => by
      rw [eval_attrAdd]⟩
  exact ⟨_, tBinary_of_wellTyped hf'.typed hg .tand, hf'.tbinop (.refl hg)⟩

section

variable (hI : I.Sound)
include hI

theorem tAndAsymSimp_rewrites :
    ∃ t, tAndAsymSimp f g = .ok t ∧ Rewrites S I Φ none (.tbinop [] .tand f g) t :=
  conjSimp_rewrites hf hg hI (tAndAsym_rewrites hf hg)

theorem tImpliesSimp_rewrites :
    ∃ t, tImpliesSimp f g = .ok t ∧ Rewrites S I Φ none (.tbinop [] .timplies f g) t := by
  unfold tImpliesSimp
  split_ifs with h₁ h₂ h₃ h₄ h₅
  · exact ⟨_, rfl, .to_right hf hg _ fun _ => by simp [Holds, eval_of_isTrue h₁]⟩
  · exact ⟨_, rfl, .to_right hf hg _ fun _ => by simp [Holds, eval_of_isTrue h₂]⟩
  · exact ⟨_, rfl, .to_true hf hg _ _ fun _ => by simp [Holds, eval_of_isFalse h₃]⟩
  · refine tNotSimp_of_holds hf hg hf (subset_append_left _ _) fun _ => ?_
    simp [Holds, eval_of_isFalse h₄]
  · exact ⟨_, rfl, .to_true hf hg _ _ fun _ => by simp [Holds, eval_of_tEqual hI hf hg h₅]⟩
  · exact tBinary_rewrites hf hg _

theorem tIffSimp_rewrites :
    ∃ t, tIffSimp f g = .ok t ∧ Rewrites S I Φ none (.tbinop [] .tiff f g) t := by
  unfold tIffSimp
  split_ifs with h₁ h₂ h₃ h₄ h₅
  · exact ⟨_, rfl, .to_right hf hg _ fun _ => by simp [Holds, eval_of_isTrue h₁]⟩
  · exact ⟨_, rfl, .to_left hf hg _ fun _ => by simp [Holds, eval_of_isTrue h₂]⟩
  · refine tNotSimp_of_holds hf hg hg (subset_append_right _ _) fun _ => ?_
    simp [Holds, eval_of_isFalse h₃]
  · refine tNotSimp_of_holds hf hg hf (subset_append_left _ _) fun _ => ?_
    simp [Holds, eval_of_isFalse h₄]
  · exact ⟨_, rfl, .to_true hf hg _ _ fun _ => by simp [Holds, eval_of_tEqual hI hf hg h₅]⟩
  · exact tBinary_rewrites hf hg _

theorem tBinarySimp_rewrites (op : Binop) :
    ∃ t, tBinarySimp op f g = .ok t ∧ Rewrites S I Φ none (.tbinop [] op f g) t := by
  cases op with
  | tand => exact conjSimp_rewrites hf hg hI (tBinary_rewrites hf hg _)
  | tor => exact disjSimp_rewrites hf hg hI (tBinary_rewrites hf hg _)
  | timplies => exact tImpliesSimp_rewrites hf hg hI
  | tiff => exact tIffSimp_rewrites hf hg hI

theorem tIfSimp_rewrites (he : WellTyped S [] e none) :
    ∃ t, tIfSimp f g e = .ok t ∧ Rewrites S I Φ none (.tif [] f g e) t := by
  have hif : WellTyped S [] (.tif [] f g e) none := .tif [] hf hg he
  have hsub : ∀ {t}, t.freeVars ⊆ f.freeVars ++ g.freeVars ++ e.freeVars → WellTyped S [] t none →
      (∀ {τ ρ}, I.TypedVal τ ρ → (I.Holds τ ρ t ↔ I.Holds τ ρ (.tif [] f g e))) →
      Rewrites S I Φ none (.tif [] f g e) t :=
    fun hvars ht h => .of_holds hif ht hvars h
  unfold tIfSimp
  split_ifs with h₁ h₂ h₃ h₄ h₅ h₆ h₇
  · exact ⟨_, rfl, hsub (by simp) hg fun _ => by simp [Holds, eval_of_isTrue h₁]⟩
  · exact ⟨_, rfl, hsub (by simp) he fun _ => by simp [Holds, eval_of_isFalse h₂]⟩
  · obtain ⟨t, ht, hnot⟩ := tNotSimp_rewrites (I := I) (Φ := Φ) hf
    obtain ⟨u, hu, himp⟩ := tImpliesSimp_rewrites hnot.typed he hI
    refine ⟨u, bind_eq_ok.mpr ⟨t, ht, hu⟩, .trans (.trans (hsub ?_ (.tbinop [] .timplies
      (.tnot [] hf) he) fun {τ ρ} _ => ?_) (hnot.tbinop (.refl he))) himp⟩
    · simp [freeVars]
    · by_cases hc : (I.eval τ ρ [] f).2 <;> simp [Holds, hc, eval_of_isTrue h₃]
  · obtain ⟨t, ht, hnot⟩ := tNotSimp_rewrites (I := I) (Φ := Φ) hf
    obtain ⟨u, hu, hand⟩ := tAndAsymSimp_rewrites hnot.typed he hI
    refine ⟨u, bind_eq_ok.mpr ⟨t, ht, hu⟩, .trans (.trans (hsub ?_ (.tbinop [] .tand
      (.tnot [] hf) he) fun {τ ρ} _ => ?_) (hnot.tbinop (.refl he))) hand⟩
    · simp [freeVars]
    · by_cases hc : (I.eval τ ρ [] f).2 <;> simp [Holds, hc, eval_of_isFalse h₄]
  · obtain ⟨u, hu, himp⟩ := tImpliesSimp_rewrites hf hg hI
    refine ⟨u, hu, .trans (hsub ?_ (.tbinop [] .timplies hf hg) fun {τ ρ} _ => ?_) himp⟩
    · simp [freeVars]
    · by_cases hc : (I.eval τ ρ [] f).2 <;> simp [Holds, hc, eval_of_isTrue h₅]
  · obtain ⟨u, hu, hand⟩ := tAndAsymSimp_rewrites hf hg hI
    refine ⟨u, hu, .trans (hsub ?_ (.tbinop [] .tand hf hg) fun {τ ρ} _ => ?_) hand⟩
    · simp [freeVars]
    · by_cases hc : (I.eval τ ρ [] f).2 <;> simp [Holds, hc, eval_of_isFalse h₆]
  · refine ⟨_, rfl, hsub (by simp) hg fun {τ ρ} _ => ?_⟩
    by_cases hc : (I.eval τ ρ [] f).2 <;> simp [Holds, hc, eval_of_tEqual hI hg he h₇]
  · refine ⟨_, ?_, .refl hif⟩
    refine bind₂_eq_ok.mpr ⟨(), ?_, f, tProp_of_wellTyped hf, rfl⟩
    rw [hg.tTy_eq, ← he.tTy_eq]
    exact tTyCheck_self e

end

end Connectives

/-! ## Equations and binders -/

theorem tEquSimp_rewrites (hI : I.Sound) {a : List Attr}
    (h : WellTyped S [] (.tapp a psEqu [t, u] none) none) :
    ∃ f, tEquSimp t u = .ok f ∧ Rewrites S I Φ none (.tapp a psEqu [t, u] none) f := by
  obtain ⟨o, ht⟩ := h.args t (by simp)
  obtain ⟨o', hu⟩ := h.args u (by simp)
  unfold tEquSimp
  split_ifs with heq
  · refine ⟨_, rfl, .of_holds h (.ttrue []) (by simp [freeVars]) fun {τ ρ} _ => ?_⟩
    have hval := eval_of_tEqual (I := I) (τ := τ) (ρ := ρ) hI ht hu heq []
    simp [Holds, hI.equ, hval]
  · refine ⟨_, tApp_of_wellTyped h, ?_⟩
    exact ⟨h.withAttrs [], .inl, fun _ => rfl⟩

theorem tSubstSingle_ok (ht : t.tTy = some v.vsTy) :
    tSubstSingle v t e = .ok (tSubst (fun u => if u = v then some t else none) e) :=
  bind_eq_ok.mpr ⟨(), vsCheck_ok ht, rfl⟩

theorem mem_freeVars_tSubstSingle {w : VSymbol} (h : tSubstSingle v t e = .ok u)
    (hw : w ∈ u.freeVars) : (v ∈ e.freeVars ∧ w ∈ t.freeVars) ∨ (w ∈ e.freeVars ∧ w ≠ v) := by
  obtain ⟨_, _, h⟩ := bind_eq_ok.mp h
  cases h
  rcases mem_freeVars_tSubst.mp hw with ⟨x, hx, r, hr, hwr⟩ | ⟨hw, hnone⟩
  · split at hr
    · next hxv =>
        cases hr
        exact .inl ⟨hxv ▸ hx, hwr⟩
    · cases hr
  · split at hnone
    · cases hnone
    · next hwv => exact .inr ⟨hw, hwv⟩

theorem tLetCloseSimp_rewrites (hI : I.Sound) {o : Option Ty} (ht : WellTyped S [] t (some v.vsTy))
    (he : WellTyped S [] e o) :
    ∃ u, tLetCloseSimp v t e = .ok u ∧ Rewrites S I Φ o (tLetClose v t e) u := by
  have hlet : WellTyped S [] (tLetClose v t e) o := .tlet [] ht (he.closeVars [v])
  have hclose : ∀ w ∈ e.freeVars, w ≠ v → w ∈ (tLetClose v t e).freeVars := by
    intro w hw hne
    rw [tLetClose, freeVars, mem_append, mem_freeVars_closeVars]
    exact .inr ⟨hw, by simpa using hne⟩
  have hok : ∃ u, tLetCloseSimp v t e = .ok u ∧ u.freeVars ⊆ (tLetClose v t e).freeVars := by
    unfold tLetCloseSimp
    simp only
    split_ifs with h₁ h₂
    · refine ⟨e, rfl, fun w hw => hclose w hw ?_⟩
      rintro rfl
      exact count_eq_zero.mp h₁ hw
    · refine ⟨_, tSubstSingle_ok ht.tTy_eq, fun w hw => ?_⟩
      rcases mem_freeVars_tSubstSingle (tSubstSingle_ok ht.tTy_eq) hw with ⟨_, hw⟩ | ⟨hw, hne⟩
      · exact mem_append_left _ hw
      · exact hclose w hw hne
    · exact ⟨_, bind_eq_ok.mpr ⟨(), vsCheck_ok ht.tTy_eq, rfl⟩, Subset.refl _⟩
  obtain ⟨u, hu, hvars⟩ := hok
  refine ⟨u, hu, WellTyped.tLetCloseSimp hu ht he, fun hv => .inl (hvars hv), fun {τ ρ} hρ => ?_⟩
  have hterm := (ht.eval_mem hI hρ.1 .nil _ rfl).2
  rw [eval_tLetCloseSimp hu hterm, eval_tLetClose]
  rfl

/-! ## Quantifiers -/

/-- Values for the variables that only differ on `vl`, as far as `f` depends on them. -/
structure VariesOn (I : Interp D) (τ : TyVal) (vl : List VSymbol) (f : Term) (ρ ρ' : VSymbol → D) :
    Prop where
  typed : I.TypedVal τ ρ'
  agree : ∀ v ∈ f.freeVars, v ∉ vl → ρ' v = ρ v

section Quantifiers

variable {τ : TyVal} {ρ : VSymbol → D} {vl : List VSymbol} {f : Term}

theorem VariesOn.assign (hρ : I.TypedVal τ ρ) {ds : List D}
    (hds : I.Typed τ (vl.map VSymbol.vsTy) ds) : VariesOn I τ vl f ρ (Why3.assign ρ (vl.zip ds)) :=
  ⟨hρ.assign_zip hds, fun _ _ hv => assign_of_not_mem fun hmem =>
    hv (map_fst_zip_subset _ _ hmem)⟩

theorem VariesOn.holds_iff {ρ' : VSymbol → D} (h : VariesOn I τ vl f ρ ρ') :
    I.Holds τ (Why3.assign ρ (vl.zip (vl.map ρ'))) f ↔ I.Holds τ ρ' f := by
  refine holds_congr fun v hv => ?_
  rw [assign_zip_map]
  split_ifs with hmem
  · rfl
  · exact (h.agree v hv hmem).symm

def Quantified (I : Interp D) (τ : TyVal) (ρ : VSymbol → D) (vl : List VSymbol) (f : Term) :
    Quant → Prop
  | .tforall => ∀ ρ', VariesOn I τ vl f ρ ρ' → I.Holds τ ρ' f
  | .texists => ∃ ρ', VariesOn I τ vl f ρ ρ' ∧ I.Holds τ ρ' f

theorem holds_tQuantClose (hρ : I.TypedVal τ ρ) (q : Quant) (trl : List (List Term)) :
    I.Holds τ ρ (tQuantClose q vl trl f) ↔ Quantified I τ ρ vl f q := by
  cases q with
  | tforall =>
    rw [Holds, eval_forall_close]
    constructor
    · intro h ρ' hρ'
      exact hρ'.holds_iff.mp (h _ (hρ'.typed.typed_map vl))
    · exact fun h ds hds => h _ (.assign hρ hds)
  | texists =>
    rw [Holds, eval_exists_close]
    constructor
    · rintro ⟨ds, hds, h⟩
      exact ⟨_, .assign hρ hds, h⟩
    · rintro ⟨ρ', hρ', h⟩
      exact ⟨_, hρ'.typed.typed_map vl, hρ'.holds_iff.mpr h⟩

theorem quantified_congr {ul : List VSymbol} (h : ∀ v ∈ f.freeVars, v ∈ vl ↔ v ∈ ul) :
    Quantified I τ ρ vl f q ↔ Quantified I τ ρ ul f q := by
  have hvaries : ∀ ρ', VariesOn I τ vl f ρ ρ' ↔ VariesOn I τ ul f ρ ρ' := fun ρ' =>
    ⟨fun hρ' => ⟨hρ'.typed, fun v hv hmem => hρ'.agree v hv fun hvl => hmem ((h v hv).mp hvl)⟩,
      fun hρ' => ⟨hρ'.typed, fun v hv hmem => hρ'.agree v hv fun hul => hmem ((h v hv).mpr hul)⟩⟩
  cases q with
  | tforall => exact forall_congr' fun ρ' => by rw [hvaries]
  | texists => exact exists_congr fun ρ' => by rw [hvaries]

theorem quantified_nil (hρ : I.TypedVal τ ρ) : Quantified I τ ρ [] f q ↔ I.Holds τ ρ f := by
  rw [← holds_tQuantClose hρ q []]
  rfl

end Quantifiers

theorem mem_freeVars_tQuantClose_iff (hvl : vl ≠ []) :
    v ∈ (tQuantClose q vl trl f).freeVars ↔
      ((∃ tl ∈ trl, ∃ t ∈ tl, v ∈ t.freeVars) ∨ v ∈ f.freeVars) ∧ v ∉ vl := by
  rw [tQuantClose, if_neg (by simpa using hvl), freeVars, mem_append, mem_freeVars_closeVars,
    mem_freeVarsTriggers, or_and_right]
  simp only [mem_map, exists_exists_and_eq_and, mem_freeVars_closeVars]
  refine or_congr_left ⟨?_, ?_⟩
  · rintro ⟨tl, htl, t, ht, hv, hmem⟩
    exact ⟨⟨tl, htl, t, ht, hv⟩, hmem⟩
  · rintro ⟨⟨tl, htl, t, ht, hv⟩, hmem⟩
    exact ⟨tl, htl, t, ht, hv, hmem⟩

theorem tQuantCloseSimp_rewrites (htrl : ∀ tl ∈ trl, ∀ t ∈ tl, WellTyped S [] t t.tTy)
    (hf : WellTyped S [] f none) :
    ∃ u, tQuantCloseSimp q vl trl f = .ok u ∧ Rewrites S I Φ none (tQuantClose q vl trl f) u := by
  have hclose : WellTyped S [] (tQuantClose q vl trl f) none := .tQuantClose q vl htrl hf
  have hprop := tProp_of_wellTyped hf
  have hfilter : ∀ {τ ρ}, Quantified I τ ρ vl f q ↔
      Quantified I τ ρ (vl.filter (· ∈ f.freeVars)) f q :=
    quantified_congr fun v hv => by simp [hv]
  unfold tQuantCloseSimp
  simp only
  split_ifs with h₁ h₂ h₃
  · refine ⟨f, rfl, ?_⟩
    rw [tQuantClose, if_pos h₁]
    exact .refl hf
  · exact ⟨_, bind_eq_ok.mpr ⟨f, hprop, rfl⟩, .refl hclose⟩
  · -- no variable occurs
    refine ⟨f, rfl, .of_holds hclose hf (fun v hv => ?_) fun hρ => ?_⟩
    · refine (mem_freeVars_tQuantClose_iff (by simpa using h₁)).mpr ⟨.inr hv, fun hvl => ?_⟩
      have hmem : v ∈ vl.filter (· ∈ f.freeVars) := by simp [hvl, hv]
      rw [List.isEmpty_iff.mp h₃] at hmem
      cases hmem
    · rw [holds_tQuantClose hρ, hfilter, List.isEmpty_iff.mp h₃, quantified_nil hρ]
  · refine ⟨_, bind_eq_ok.mpr ⟨f, hprop, rfl⟩, .of_holds hclose (.tQuantClose _ _ ?_ hf)
      (fun v hv => ?_) fun hρ => ?_⟩
    · exact fun tl htl => htrl tl (mem_of_mem_filter htl)
    · obtain ⟨hv, hmem⟩ := (mem_freeVars_tQuantClose_iff (by simpa using h₃)).mp hv
      have hvf : v ∈ f.freeVars := by
        rcases hv with ⟨tl, htl, t, ht, hv⟩ | hv
        · have hall := of_mem_filter htl
          simp only [all_eq_true, decide_eq_true_eq] at hall
          exact hall t ht v hv
        · exact hv
      exact (mem_freeVars_tQuantClose_iff (by simpa using h₁)).mpr
        ⟨.inr hvf, fun hvl => hmem (by simp [hvl, hvf])⟩
    · rw [holds_tQuantClose hρ, holds_tQuantClose hρ, hfilter]

/-! ## Maps with simplification -/

section

variable (hI : I.Sound) (hΦ : Φ.Stable n) (hf : WellTyped S [] f none) (hn : f.VarsBelow n)
include hI hΦ hf hn

theorem tMapSimpNode_spec (hfn : RewritesParts S I Φ n f fn) :
    ∃ g, tMapSimpNode n f fn = .ok g ∧ Rewrites S I Φ none f g := by
  unfold tMapSimpNode
  split
  · next a ls t1 t2 ty fn =>
      split_ifs with hls
      · have hty : ty = none := by rw [← hf.tTy_eq]; rfl
        subst hls hty
        obtain ⟨s1, hs1, h1⟩ := hfn.check n (le_refl n) .fst
          (hf.args t1 (by simp)).choose_spec.self
          fun v hv => hn v (by simp [freeVars, freeVarsList, hv])
        obtain ⟨s2, hs2, h2⟩ := hfn.check n (le_refl n) .snd
          (hf.args t2 (by simp)).choose_spec.self
          fun v hv => hn v (by simp [freeVars, freeVarsList, hv])
        have happ : Rewrites S I Φ none (.tapp a psEqu [t1, t2] none)
            (.tapp [] psEqu [s1, s2] none) := .tapp hf (.cons h1 (.cons h2 .nil))
        obtain ⟨g, hg, hequ⟩ := tEquSimp_rewrites hI happ.typed
        exact ⟨g, bind₂_eq_ok.mpr ⟨s1, hs1, s2, hs2, hg⟩, happ.trans hequ⟩
      · exact tMap_spec hI hΦ hf hn hfn
  · next a f1 f2 f3 fn =>
      cases hf with
      | tif _ hf1 hf2 hf3 =>
        obtain ⟨g1, hg1, h1⟩ := hfn.check n (le_refl n) .ifCond hf1 hn.tif.1
        obtain ⟨g2, hg2, h2⟩ := hfn.check n (le_refl n) .ifThen hf2 hn.tif.2.1
        obtain ⟨g3, hg3, h3⟩ := hfn.check n (le_refl n) .ifElse hf3 hn.tif.2.2
        obtain ⟨g, hg, hif⟩ := tIfSimp_rewrites h1.typed h2.typed hI h3.typed
        exact ⟨g, bind₃_eq_ok.mpr ⟨g1, hg1, g2, hg2, g3, hg3, hg⟩, (h1.tif h2 h3).trans hif⟩
  · next a t v e fn =>
      cases hf with
      | tlet _ ht he =>
        obtain ⟨s, r, hs, hr, hst, hrt, hlet⟩ := hfn.tlet hI hΦ ht he hn
        obtain ⟨g, hg, hsimp⟩ := tLetCloseSimp_rewrites (v := boundVar n v) hI hst hrt
        exact ⟨g, bind₂_eq_ok.mpr ⟨s, hs, r, hr, hg⟩, hlet.trans hsimp⟩
  · obtain ⟨srl, g, hsrl, hg, htrl, hgt, hquant⟩ := hfn.tquant hΦ hf hn
    obtain ⟨u, hu, hsimp⟩ := tQuantCloseSimp_rewrites htrl hgt
    exact ⟨u, bind₂_eq_ok.mpr ⟨srl, hsrl, g, hg, hu⟩, hquant.trans hsimp⟩
  · next a op f1 f2 fn =>
      cases hf with
      | tbinop _ _ hf1 hf2 =>
        obtain ⟨g1, hg1, h1⟩ := hfn.check n (le_refl n) .left hf1 hn.tbinop.1
        obtain ⟨g2, hg2, h2⟩ := hfn.check n (le_refl n) .right hf2 hn.tbinop.2
        obtain ⟨g, hg, hbin⟩ := tBinarySimp_rewrites h1.typed h2.typed hI op
        exact ⟨g, bind₂_eq_ok.mpr ⟨g1, hg1, g2, hg2, hg⟩, (h1.tbinop h2).trans hbin⟩
  · next a f1 fn =>
      cases hf with
      | tnot _ hf1 =>
        obtain ⟨g1, hg1, h1⟩ := hfn.check n (le_refl n) .neg hf1 hn
        obtain ⟨g, hg, hnot⟩ := tNotSimp_rewrites (I := I) (Φ := Φ) h1.typed
        exact ⟨g, bind_eq_ok.mpr ⟨g1, hg1, hg⟩, h1.tnot.trans hnot⟩
  · exact tMap_spec hI hΦ hf hn hfn

/-- A map that rewrites the parts of a formula and simplifies the results. -/
theorem tMapSimp_spec (hfn : RewritesParts S I Φ n f fn) :
    ∃ g, tMapSimp n f fn = .ok g ∧ Rewrites S I Φ none f g := by
  obtain ⟨g, hg, h⟩ := tMapSimpNode_spec hI hΦ hf hn hfn
  exact ⟨_, bind_eq_ok.mpr ⟨g, hg, rfl⟩, h.attrCopy _⟩

end

end Why3
