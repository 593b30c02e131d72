import Why3.Logic.Standard
import Why3.Transform.SimplifyFormulaSound

/-!
# Removing quantified variables

A variable is removed from a quantifier together with an equation that gives its value.
The equation holds wherever the truth of the body matters for the quantifier, and the body
does not grow.
-/

namespace Why3

open Lib Term Interp List

variable {S : DataSig} {D : Type} {I : Interp D} {τ : TyVal} {ρ : VSymbol → D}
variable {a : List Attr} {l ul vl : List VSymbol} {o : Option Ty} {q : Quant} {f g t : Term}
variable {v vs : VSymbol} {n : ℕ}
variable {sign1 : Bool} {ls : LSymbol} {trl : List (List Term)} {vsl : List VSymbol} {f1 : Term}
variable {ρ' : VSymbol → D}

/-! ## Values for the variables of a quantifier -/

/-- Values of the types of the variables that only differ on `vl`. -/
structure Moves (I : Interp D) (τ : TyVal) (vl : List VSymbol) (ρ ρ' : VSymbol → D) : Prop where
  typed : I.TypedVal τ ρ'
  agree : ∀ v, v ∉ vl → ρ' v = ρ v

theorem Moves.assign_zip (hρ : I.TypedVal τ ρ) {ds : List D}
    (hds : I.Typed τ (vl.map VSymbol.vsTy) ds) : Moves I τ vl ρ (assign ρ (vl.zip ds)) :=
  ⟨hρ.assign_zip hds, fun _ hv => assign_of_not_mem fun hmem =>
    hv (map_fst_zip_subset _ _ hmem)⟩

theorem Moves.assign_single (hρ : I.TypedVal τ ρ) {d : D} (hd : d ∈ I.carrier (v.vsTy.vMap τ)) :
    Moves I τ [v] ρ (assign ρ [(v, d)]) :=
  have hds : I.Typed τ ([v].map VSymbol.vsTy) [d] := .cons hd .nil
  .assign_zip hρ hds

theorem Moves.trans {wl : List VSymbol} {ρ'' : VSymbol → D} (h : Moves I τ vl ρ ρ')
    (h' : Moves I τ ul ρ' ρ'') (hvl : vl ⊆ wl) (hul : ul ⊆ wl) : Moves I τ wl ρ ρ'' :=
  ⟨h'.typed, fun v hv => (h'.agree v fun hmem => hv (hul hmem)).trans
    (h.agree v fun hmem => hv (hvl hmem))⟩

theorem Moves.restore (h : Moves I τ (v :: vl) ρ ρ') (hρ : I.TypedVal τ ρ) :
    Moves I τ vl ρ (assign ρ' [(v, ρ v)]) := by
  refine ⟨(Moves.assign_single h.typed (hρ v)).typed, fun u hu => ?_⟩
  rw [assign_cons]
  split_ifs with huv
  · rw [huv]
  · exact h.agree u (by simp [huv, hu])

/-- Some values for the variables give the truth value to the formula. -/
def Reaches (I : Interp D) (τ : TyVal) (ρ : VSymbol → D) (vl : List VSymbol) (f : Term)
    (sign : Bool) : Prop :=
  ∃ ρ', Moves I τ vl ρ ρ' ∧ (I.Holds τ ρ' f ↔ sign = true)

/-- A universal formula is false, and an existential one is true, by some values. -/
theorem quantified_iff_reaches (hρ : I.TypedVal τ ρ) :
    (Quantified I τ ρ vl f q ↔ (q == .texists) = true) ↔ Reaches I τ ρ vl f (q == .texists) := by
  have hmoves : ∀ {P : Prop → Prop}, (∃ ρ', VariesOn I τ vl f ρ ρ' ∧ P (I.Holds τ ρ' f)) ↔
      ∃ ρ', Moves I τ vl ρ ρ' ∧ P (I.Holds τ ρ' f) := by
    intro P
    constructor
    · rintro ⟨ρ', hρ', hP⟩
      refine ⟨_, .assign_zip hρ (hρ'.typed.typed_map vl), ?_⟩
      rwa [propext hρ'.holds_iff]
    · rintro ⟨ρ', hρ', hP⟩
      exact ⟨ρ', ⟨hρ'.typed, fun v _ hv => hρ'.agree v hv⟩, hP⟩
  cases q with
  | tforall =>
    have h := hmoves (P := Not)
    simp only [Quantified, Reaches] at h ⊢
    simpa [not_forall] using h
  | texists =>
    have h := hmoves (P := id)
    simpa [Quantified, Reaches] using h

theorem tQuantClose_iff_reaches (hρ : I.TypedVal τ ρ) (trl : List (List Term)) :
    (I.Holds τ ρ (tQuantClose q vl trl f) ↔ (q == .texists) = true) ↔
      Reaches I τ ρ vl f (q == .texists) := by
  rw [holds_tQuantClose hρ, quantified_iff_reaches hρ]

theorem tquant_iff_reaches (hρ : I.TypedVal τ ρ) (a : List Attr) (q : Quant)
    (trl : List (List Term)) (htys : ul.map VSymbol.vsTy = vl.map VSymbol.vsTy) (hul : ul.Nodup)
    (hnew : ∀ u ∈ ul, u ∉ f.freeVars) :
    (I.Holds τ ρ (.tquant a q vl trl f) ↔ (q == .texists) = true) ↔
      Reaches I τ ρ ul (openVars ul f) (q == .texists) := by
  have hopen : ∀ {ρ'}, Moves I τ ul ρ ρ' →
      (I.Holds τ ρ' (openVars ul f) ↔ (I.eval τ ρ (ul.map ρ') f).2) := by
    intro ρ' hρ'
    rw [Holds, eval_openVars, append_nil, eval_congr f _ fun v hv =>
      hρ'.agree v fun hmem => hnew v hmem hv]
  have hmoves : ∀ {P : Prop → Prop},
      (∃ ds, I.Typed τ (vl.map VSymbol.vsTy) ds ∧ P (I.eval τ ρ (ds ++ []) f).2) ↔
        ∃ ρ', Moves I τ ul ρ ρ' ∧ P (I.Holds τ ρ' (openVars ul f)) := by
    intro P
    constructor
    · rintro ⟨ds, hds, hP⟩
      have hlen : ul.length = ds.length := by
        rw [← hds.length_eq, ← htys, length_map]
      rw [← htys] at hds
      refine ⟨_, .assign_zip hρ hds, ?_⟩
      rw [append_nil] at hP
      rwa [propext (hopen (.assign_zip hρ hds)), map_assign_zip hul hlen]
    · rintro ⟨ρ', hρ', hP⟩
      refine ⟨ul.map ρ', htys ▸ hρ'.typed.typed_map ul, ?_⟩
      rwa [append_nil, ← propext (hopen hρ')]
  cases q with
  | tforall =>
    have h := hmoves (P := Not)
    rw [Holds, eval_forall]
    simpa [Reaches, not_forall] using h
  | texists =>
    have h := hmoves (P := id)
    rw [Holds, eval_exists]
    simpa [Reaches] using h

/-! ## Finding an equation -/

/-- The variable has the value of the term wherever the formula has the truth value. -/
structure Determines (S : DataSig) (I : Interp D) (f : Term) (var : VSymbol) (sign : Bool)
    (boundvars : List VSymbol) (t : Term) : Prop where
  typed : WellTyped S [] t (some var.vsTy)
  vars : t.freeVars ⊆ f.freeVars
  avoids : ∀ v ∈ boundvars, v ∉ t.freeVars
  value : ∀ {τ ρ}, I.TypedVal τ ρ → (I.Holds τ ρ f ↔ sign = true) → ρ var = I.val τ ρ t
  shrinks : Shrinks f t

variable {var : VSymbol} {boundvars : List VSymbol} {sign : Bool}

theorem Determines.of_part (h : Determines S I f1 var sign1 boundvars t)
    (hvars : f1.freeVars ⊆ f.freeVars) (hsize : Shrinks f f1)
    (hholds : ∀ {τ ρ}, I.TypedVal τ ρ → (I.Holds τ ρ f ↔ sign = true) →
      (I.Holds τ ρ f1 ↔ sign1 = true)) : Determines S I f var sign boundvars t :=
  ⟨h.typed, Subset.trans h.vars hvars, h.avoids, fun hρ hf => h.value hρ (hholds hρ hf),
    hsize.trans h.shrinks⟩

theorem shrinks_binop_left (a : List Attr) (op : Binop) (f1 f2 : Term) :
    Shrinks (.tbinop a op f1 f2) f1 := fun ρ => by
  rw [rank]
  omega

theorem shrinks_binop_right (a : List Attr) (op : Binop) (f1 f2 : Term) :
    Shrinks (.tbinop a op f1 f2) f2 := fun ρ => by
  rw [rank]
  omega

def FindsSubst (S : DataSig) (I : Interp D) (f : Term) (var : VSymbol) (sign : Bool)
    (boundvars : List VSymbol) (r : Except Exn (Option Term)) : Prop :=
  ∃ o, r = .ok o ∧ ∀ t, o = some t → Determines S I f var sign boundvars t

namespace FindsSubst

variable {f : Term}

theorem none : FindsSubst S I f var sign boundvars (.ok none) :=
  ⟨_, rfl, fun _ h => by cases h⟩

theorem of_part {bl : List VSymbol} {r : Except Exn (Option Term)}
    (h : FindsSubst S I f1 var sign1 bl r)
    (hf : ∀ {t}, Determines S I f1 var sign1 bl t → Determines S I f var sign boundvars t) :
    FindsSubst S I f var sign boundvars r := by
  obtain ⟨o, hr, ho⟩ := h
  exact ⟨o, hr, fun t ht => hf (ho t ht)⟩

theorem orFound {r1 r2 : Except Exn (Option Term)} (h1 : FindsSubst S I f var sign boundvars r1)
    (h2 : FindsSubst S I f var sign boundvars r2) :
    FindsSubst S I f var sign boundvars (Term.orFound r1 r2) := by
  obtain ⟨o1, rfl, ho1⟩ := h1
  obtain ⟨o2, rfl, ho2⟩ := h2
  cases o1 with
  | none => exact ⟨o2, rfl, ho2⟩
  | some t => exact ⟨some t, rfl, ho1⟩

end FindsSubst

/-- An equation of the variable and a term without the bound variables. -/
theorem Determines.of_isSubst {tv : Term} (hf : ls = psEqu → WellTyped S [] f none ∧
      (∃ ty, WellTyped S [] tv (some ty) ∧ WellTyped S [] t (some ty)) ∧
      t.freeVars ⊆ f.freeVars ∧ Shrinks f t ∧
      ∀ {τ ρ}, I.Holds τ ρ f → I.val τ ρ tv = I.val τ ρ t)
    (h : isSubst boundvars var sign ls t tv = true) : Determines S I f var sign boundvars t := by
  unfold isSubst at h
  split at h
  · next a vs =>
      simp only [Bool.and_eq_true, decide_eq_true_eq, Bool.not_eq_true'] at h
      obtain ⟨⟨⟨⟨rfl, hls⟩, rfl⟩, _⟩, hbound⟩ := h
      obtain ⟨_, ⟨ty, hv, ht⟩, hvars, hsize, hval⟩ := hf hls
      obtain rfl : ty = vs.vsTy := by
        have := hv.tTy_eq
        exact (Option.some.inj this).symm
      refine ⟨ht, hvars, fun v hv hmem => ?_, fun hρ hholds => hval (hholds.mpr rfl), hsize⟩
      have hall := any_eq_false.mp hbound v hmem
      simp [hv] at hall
  · cases h

theorem equSubst_spec (hI : I.Sound) {tl : List Term} (h : WellTyped S [] (.tapp a ls tl o) none) :
    FindsSubst S I (.tapp a ls tl o) var sign boundvars
      (.ok (equSubst boundvars var sign ls tl)) := by
  refine ⟨_, rfl, fun t ht => ?_⟩
  unfold equSubst at ht
  split at ht
  · next t1 t2 =>
      have hside : ls = psEqu → ∃ ty, WellTyped S [] t1 (some ty) ∧ WellTyped S [] t2 (some ty) ∧
          ∀ {τ ρ}, I.Holds τ ρ (.tapp a ls [t1, t2] o) → I.val τ ρ t1 = I.val τ ρ t2 := by
        rintro rfl
        obtain rfl : o = none := h.tTy_eq
        obtain ⟨ty, h1, h2⟩ := h.equ_args
        exact ⟨ty, h1, h2, (holds_equ hI).mp⟩
      split_ifs at ht with h1 h2
      · cases ht
        refine .of_isSubst (fun hls => ?_) h1
        obtain ⟨ty, ht1, ht2, hval⟩ := hside hls
        refine ⟨h, ⟨ty, ht1, ht2⟩, by simp [freeVars, freeVarsList], fun ρ => ?_, hval⟩
        rw [rank]
        exact Nat.le_succ_of_le (rank_le_rankList (by simp))
      · cases ht
        refine .of_isSubst (fun hls => ?_) h2
        obtain ⟨ty, ht1, ht2, hval⟩ := hside hls
        refine ⟨h, ⟨ty, ht2, ht1⟩, by simp [freeVars, freeVarsList], fun ρ => ?_, fun hf =>
          (hval hf).symm⟩
        rw [rank]
        exact Nat.le_succ_of_le (rank_le_rankList (by simp))
  · cases ht

/-- A term that is found in the body of a binder, without the variables of the binder. -/
theorem Determines.of_body {e : Term}
    (h : Determines S I (openVars ul e) var sign (ul ++ boundvars) t) (hvar : var ∉ ul)
    (hvars : e.freeVars ⊆ f.freeVars) (hrank : ∀ ρ, rank ρ (replicate ul.length 0) e ≤ rank ρ [] f)
    (hmoves : ∀ {τ ρ}, I.TypedVal τ ρ → (I.Holds τ ρ f ↔ sign = true) →
      Reaches I τ ρ ul (openVars ul e) sign) : Determines S I f var sign boundvars t := by
  have hnew : ∀ v ∈ t.freeVars, v ∉ ul := fun v hv hmem =>
    h.avoids v (mem_append_left _ hmem) hv
  refine ⟨h.typed, fun v hv => ?_, fun v hv => h.avoids v (mem_append_right _ hv), ?_, ?_⟩
  · exact hvars ((mem_freeVars_openVars (h.vars hv)).resolve_right (hnew v hv))
  · intro τ ρ hρ hf
    obtain ⟨ρ', hρ', hholds⟩ := hmoves hρ hf
    have hval := h.value hρ'.typed hholds
    rw [hρ'.agree var hvar] at hval
    rw [hval, val, val, eval_congr t [] fun v hv => hρ'.agree v (hnew v hv)]
  · -- the variables of the binder do not count
    intro ρ
    let r := fun v => if v ∈ ul then 0 else ρ v
    have hr : ul.map r = replicate ul.length 0 :=
      eq_replicate_iff.mpr ⟨length_map _, by
        simp only [mem_map]
        rintro _ ⟨v, hv, rfl⟩
        exact if_pos hv⟩
    calc rank ρ [] t = rank r [] t := rank_congr t [] fun v hv => (if_neg (hnew v hv)).symm
      _ ≤ rank r [] (openVars ul e) := h.shrinks r
      _ = rank r (replicate ul.length 0) e := by rw [rank_openVars, hr, append_nil]
      _ ≤ rank ρ (replicate ul.length 0) e := rank_mono e (fun v _ => by
          show (if v ∈ ul then 0 else ρ v) ≤ ρ v
          split <;> omega) fun _ => le_refl _
      _ ≤ rank ρ [] f := hrank ρ

theorem reaches_body (hρ : I.TypedVal τ ρ) (htys : ul.map VSymbol.vsTy = vl.map VSymbol.vsTy)
    (hul : ul.Nodup) (hnew : ∀ u ∈ ul, u ∉ f.freeVars)
    (h : I.Holds τ ρ (.tquant a q vl trl f) ↔ sign = true) :
    Reaches I τ ρ ul (openVars ul f) sign := by
  have hiff := tquant_iff_reaches hρ a q trl htys hul hnew
  by_cases hs : (q == .texists) = sign
  · rw [hs] at hiff
    exact hiff.mp h
  · refine ⟨ρ, ⟨hρ, fun _ _ => rfl⟩, ?_⟩
    have hnot : ¬Reaches I τ ρ ul (openVars ul f) (q == .texists) := by
      rw [← hiff, h]
      cases sign <;> cases hq : q == .texists <;> simp_all
    have hself : ¬(I.Holds τ ρ (openVars ul f) ↔ (q == .texists) = true) := fun hself =>
      hnot ⟨ρ, ⟨hρ, fun _ _ => rfl⟩, hself⟩
    cases sign <;> cases hq : q == .texists <;> simp_all

theorem rank_body_le_tquant (ρ : VSymbol → ℕ) (a : List Attr) (q : Quant) (vl : List VSymbol)
    (trl : List (List Term)) (f : Term) :
    rank ρ (replicate vl.length 0) f ≤ rank ρ [] (.tquant a q vl trl f) := by
  rw [rank]
  refine Nat.le_succ_of_le (le_trans ?_ (le_gain fun ds es hds hes hle => ?_))
  · rw [append_nil]
    exact Nat.le_add_left _ _
  · have hle := hle.append (hds.trans hes.symm) fun _ => le_refl (List.getD [] _ 0)
    exact rank_body_mono trl f hle

/-- The search succeeds, and a term that is found determines the variable. -/
theorem fmlaFindSubst_spec (hI : I.Sound) (sign : Bool) (boundvars : List VSymbol)
    (hf : WellTyped S [] f none) (hn : f.VarsBelow n) (hvar : var.vsName.idTag < n) :
    FindsSubst S I f var sign boundvars (fmlaFindSubst var n boundvars sign f) := by
  induction hm : f.size using Nat.strong_induction_on generalizing f n sign boundvars with
  | _ m ih =>
    cases hf with
    | tapp a σ hls ho hlen htl =>
      rw [fmlaFindSubst]
      exact equSubst_spec hI (.tapp a σ hls ho hlen htl)
    | tif | tcase | ttrue | tfalse =>
      rw [fmlaFindSubst]
      exact .none
    | @tnot _ a f1 hf1 =>
      rw [fmlaFindSubst]
      refine (ih f1.size (hm ▸ Part.neg.size_lt) _ _ hf1 hn hvar rfl).of_part fun ht =>
        ht.of_part (Subset.refl _) (fun ρ => ?_) fun {τ ρ} _ hholds => ?_
      · rw [rank]
        omega
      · rw [Holds, eval_tnot] at hholds
        cases sign <;> simpa [Holds] using hholds
    | @tbinop _ a op f1 f2 hf1 hf2 =>
      obtain ⟨hn1, hn2⟩ := hn.tbinop
      have hl : ∀ {s}, (∀ {τ ρ}, (I.Holds τ ρ (.tbinop a op f1 f2) ↔ sign = true) →
          (I.Holds τ ρ f1 ↔ s = true)) → FindsSubst S I (.tbinop a op f1 f2) var sign boundvars
            (fmlaFindSubst var n boundvars s f1) := fun h =>
        (ih f1.size (hm ▸ Part.left.size_lt) _ _ hf1 hn1 hvar rfl).of_part fun ht =>
          ht.of_part (subset_append_left _ _) (shrinks_binop_left a op f1 f2) fun _ => h
      have hr : ∀ {s}, (∀ {τ ρ}, (I.Holds τ ρ (.tbinop a op f1 f2) ↔ sign = true) →
          (I.Holds τ ρ f2 ↔ s = true)) → FindsSubst S I (.tbinop a op f1 f2) var sign boundvars
            (fmlaFindSubst var n boundvars s f2) := fun h =>
        (ih f2.size (hm ▸ Part.right.size_lt) _ _ hf2 hn2 hvar rfl).of_part fun ht =>
          ht.of_part (subset_append_right _ _) (shrinks_binop_right a op f1 f2) fun _ => h
      cases op with
      | tiff =>
        rw [fmlaFindSubst]
        exact .none
      | tand =>
        rw [fmlaFindSubst]
        split_ifs with hs
        · refine .orFound (hl fun h => ?_) (hr fun h => ?_) <;>
            simp_all [Holds]
        · exact .none
      | tor | timplies =>
        rw [fmlaFindSubst]
        split_ifs with hs
        · exact .none
        · refine .orFound (hl fun h => ?_) (hr fun h => ?_) <;>
            simp_all [Holds]
    | @tquant _ a q vl trl f1 htr hf1 =>
      rw [fmlaFindSubst]
      split_ifs with htrl
      · have hn1 := hn.tquant.2
        have hf1' := hf1
        rw [← map_vsTy_freshLike n vl] at hf1'
        refine (ih _ (hm ▸ (Part.quant (freshLike n vl)).size_lt) _ _
          (WellTyped.openVars _ hf1') (hn1.openVars (Nat.le_add_right n vl.length)
            fun u hu => (idTag_of_mem_freshLike hu).2) (by omega) rfl).of_part fun ht => ?_
        refine ht.of_body (not_mem_freshLike hvar) (subset_append_right _ _) (fun ρ => ?_)
          fun hρ h => reaches_body hρ (map_vsTy_freshLike n vl) (nodup_freshLike n vl)
            (fun u hu hmem => not_mem_freshLike (hn1 u hmem) hu) h
        rw [length_freshLike]
        exact rank_body_le_tquant ρ a q vl trl f1
      · exact .none
    | @tlet _ a t f1 v _ ht hf1 =>
      rw [fmlaFindSubst]
      have hn1 := hn.tlet.2
      refine (ih _ (hm ▸ (Part.letBody (boundVar n v)).size_lt) _ _
        (WellTyped.openVars [boundVar n v] hf1)
        (hn1.openVars (Nat.le_add_right n 1) (by simp)) (by omega) rfl).of_part fun hd => ?_
      have hu : ∀ w, w.vsName.idTag < n → w ∉ [boundVar n v] := by
        intro w hw hmem
        obtain rfl := mem_singleton.mp hmem
        exact Nat.lt_irrefl n hw
      refine Determines.of_body hd (hu var hvar) (subset_append_right _ _)
        (fun ρ => ?_) fun {τ ρ} hρ h => ?_
      · rw [rank]
        exact Nat.le_succ_of_le (Nat.le_add_left _ _)
      · have hval := (ht.eval_mem hI hρ .nil _ rfl).1
        refine ⟨_, .assign_single hρ hval, ?_⟩
        have hmap : [boundVar n v].map (assign ρ [(boundVar n v, (I.eval τ ρ [] t).1)]) =
            [(I.eval τ ρ [] t).1] := by simp [assign_cons]
        rw [← h, Holds, Holds, eval_openVars, eval_tlet, append_nil, hmap,
          eval_congr f1 _ fun w hw => assign_of_not_mem (hu w (hn1 w hw))]

/-! ## Trivial equations -/

theorem equSimpBinop_rewrites {Φ : RewriteCtx D} (hf : WellTyped S [] f none)
    (hg : WellTyped S [] g none) (op : Binop) : ∃ t, equSimpBinop op f g = .ok t ∧
      Rewrites S I Φ none (.tbinop [] op f g) t ∧ Shrinks (.tbinop [] op f g) t := by
  unfold equSimpBinop
  split
  · exact ⟨_, rfl, .to_right hf hg _ fun _ => by simp [Holds], shrinks_binop_right _ _ _ _⟩
  · exact ⟨_, rfl, .to_left hf hg _ fun _ => by simp [Holds], shrinks_binop_left _ _ _ _⟩
  · exact ⟨_, rfl, .to_right hf hg _ fun _ => by simp [Holds], shrinks_binop_right _ _ _ _⟩
  · exact ⟨_, rfl, .to_left hf hg _ fun _ => by simp [Holds], shrinks_binop_left _ _ _ _⟩
  · exact ⟨_, rfl, .to_right hf hg _ fun _ => by simp [Holds], shrinks_binop_right _ _ _ _⟩
  · exact ⟨_, tBinary_of_wellTyped hf hg op, .refl (.tbinop [] op hf hg), .refl _⟩

theorem tEquSimp_shrinks {u : Term} (h : tEquSimp t u = .ok f) :
    Shrinks (.tapp a psEqu [t, u] o) f := by
  unfold tEquSimp at h
  split_ifs at h with heq
  · cases h
    exact fun ρ => Nat.zero_le _
  · rw [tApp_eq h]
    exact fun ρ => le_refl _

theorem equSimp_spec (hI : I.Sound) (hf : WellTyped S [] f o) (hn : f.VarsBelow n) :
    ∃ g, equSimp n f = .ok g ∧ Rewrites S I .free o f g ∧ Shrinks f g := by
  induction hm : f.size using Nat.strong_induction_on generalizing f n o with
  | _ m ih =>
    have hparts : RewritesParts S I .free n f fun n u _ => equSimp n u :=
      fun n' _ u hu o hut hbelow => by
        obtain ⟨u', hu', hrw, _⟩ := ih u.size (hm ▸ hu.size_lt) hut hbelow rfl
        exact ⟨u', hu', hrw⟩
    have hshrink : ShrinksParts S n f fun n u _ => equSimp n u :=
      fun n' _ u hu o u' hut hbelow h => by
        obtain ⟨u'', hu'', _, hsh⟩ := ih u.size (hm ▸ hu.size_lt) hut hbelow rfl
        exact Except.ok.inj (hu''.symm.trans h) ▸ hsh
    have hmap : ∃ g, (tMap n f fun n u _ => equSimp n u) = .ok g ∧ Rewrites S I .free o f g ∧
        Shrinks f g := by
      obtain ⟨g, hg, hrw⟩ := tMap_spec hI (RewriteCtx.stable_free n) hf hn hparts
      exact ⟨g, hg, hrw, tMap_shrinks hf hn hshrink hg⟩
    suffices hnode : ∃ g, (equSimpNode n f fun n u _ => equSimp n u) = .ok g ∧
        Rewrites S I .free o f g ∧ Shrinks f g by
      obtain ⟨g, hg, hrw, hsh⟩ := hnode
      rw [equSimp]
      exact ⟨_, bind_eq_ok.mpr ⟨g, hg, rfl⟩, hrw.attrCopy _, hsh.attrCopy _⟩
    unfold equSimpNode
    split
    · next _ a op f1 f2 =>
        cases hf with
        | tbinop _ _ hf1 hf2 =>
          obtain ⟨g1, hg1, hrw1, hsh1⟩ := ih f1.size (hm ▸ Part.left.size_lt) hf1
            hn.tbinop.1 rfl
          obtain ⟨g2, hg2, hrw2, hsh2⟩ := ih f2.size (hm ▸ Part.right.size_lt) hf2
            hn.tbinop.2 rfl
          obtain ⟨g, hg, hrw, hsh⟩ := equSimpBinop_rewrites (I := I) (Φ := .free) hrw1.typed
            hrw2.typed op
          refine ⟨g, bind₂_eq_ok.mpr ⟨g1, hg1, g2, hg2, hg⟩,
            (hrw1.tbinop hrw2).trans hrw, Shrinks.trans (fun ρ => ?_) hsh⟩
          have h1 := hsh1 ρ
          have h2 := hsh2 ρ
          rw [rank, rank]
          omega
    · next _ a p f1 f2 ty =>
        split_ifs with hp
        · subst hp
          obtain rfl : ty = o := hf.tTy_eq
          obtain rfl : ty = none := by
            cases hf with
            | tapp _ _ _ ho _ _ => exact ho
          obtain ⟨ty, hf1, hf2⟩ := hf.equ_args
          obtain ⟨g1, hg1, hrw1, hsh1⟩ := ih f1.size (hm ▸ Part.fst.size_lt) hf1
            (fun v hv => hn v (by simp [freeVars, freeVarsList, hv])) rfl
          obtain ⟨g2, hg2, hrw2, hsh2⟩ := ih f2.size (hm ▸ Part.snd.size_lt) hf2
            (fun v hv => hn v (by simp [freeVars, freeVarsList, hv])) rfl
          have happ : Rewrites S I .free none (.tapp a psEqu [f1, f2] none)
              (.tapp a psEqu [g1, g2] none) :=
            .tapp hf (.cons (hf1.tTy_eq ▸ hrw1) (.cons (hf2.tTy_eq ▸ hrw2) .nil))
          obtain ⟨g, hg, hequ⟩ := tEquSimp_rewrites (Φ := .free) hI happ.typed
          refine ⟨g, bind₂_eq_ok.mpr ⟨g1, hg1, g2, hg2, hg⟩,
            happ.trans hequ, Shrinks.trans (fun ρ => ?_)
              (tEquSimp_shrinks (a := a) (o := none) hg)⟩
          exact Nat.succ_le_succ (rankList_le (.cons (hsh1 ρ) (.cons (hsh2 ρ) .nil)))
        · exact hmap
    · exact hmap

/-! ## Removing the variables of a quantifier -/

structure Removes (S : DataSig) (I : Interp D) (sign : Bool) (vl : List VSymbol) (f : Term)
    (vsl : List VSymbol) (g : Term) : Prop where
  typed : WellTyped S [] g none
  sub : vsl ⊆ vl
  vars : g.freeVars ⊆ f.freeVars
  bound : ∀ v ∈ g.freeVars, v ∈ vl → v ∈ vsl
  reaches : ∀ {τ ρ}, I.TypedVal τ ρ → (Reaches I τ ρ vsl g sign ↔ Reaches I τ ρ vl f sign)
  rank : ∀ r : VSymbol → ℕ, (∀ v ∈ vl, r v = 0) →
    Term.rank r [] g ≤ gain vl.length fun ds => Term.rank (assign r (vl.zip ds)) [] f

theorem reaches_cons (hρ : I.TypedVal τ ρ) :
    Reaches I τ ρ (vs :: l) f sign ↔ ∃ ρ', Moves I τ [vs] ρ ρ' ∧ Reaches I τ ρ' l f sign := by
  constructor
  · rintro ⟨ρ', hρ', h⟩
    refine ⟨_, .assign_single hρ (hρ'.typed vs), ρ', ⟨hρ'.typed, fun v hv => ?_⟩, h⟩
    rw [assign_cons]
    split_ifs with hvs
    · rw [hvs]
    · exact hρ'.agree v (by simp [hvs, hv])
  · rintro ⟨ρ', hρ', ρ'', hρ'', h⟩
    exact ⟨ρ'', hρ'.trans hρ'' (by simp) (subset_cons_self _ _), h⟩

theorem assign_cons_of_not_mem {r : VSymbol → ℕ} {d : ℕ} {β : List (VSymbol × ℕ)}
    (h : v ∉ β.map Prod.fst) : assign r ((v, d) :: β) = assign (assign r [(v, d)]) β := by
  funext u
  rw [assign_cons]
  split_ifs with hu
  · rw [hu, assign_of_not_mem h, assign_cons, if_pos rfl]
  · have hr : assign r [(v, d)] u = r u := by rw [assign_cons, if_neg hu, assign_nil]
    rw [assign, assign, hr]

theorem reaches_subst {f' : Term} (hρ : I.TypedVal τ ρ) (ht : Determines S I f vs sign [vs] t)
    (hI : I.Sound) (hf' : tSubstSingle vs t f = .ok f') :
    Reaches I τ ρ l f' sign ↔ Reaches I τ ρ (vs :: l) f sign := by
  have hsubst : ∀ {ρ'}, I.TypedVal τ ρ' →
      (I.Holds τ ρ' f' ↔ I.Holds τ (assign ρ' [(vs, I.val τ ρ' t)]) f) := fun hρ' => by
    rw [Holds, eval_tSubstSingle hf' (ht.typed.eval_mem hI hρ' .nil _ rfl).2]
    rfl
  constructor
  · rintro ⟨ρ', hρ', h⟩
    have hval : I.val τ ρ' t ∈ I.carrier (vs.vsTy.vMap τ) :=
      (ht.typed.eval_mem hI hρ'.typed .nil _ rfl).1
    refine ⟨_, hρ'.trans (.assign_single hρ'.typed hval) (subset_cons_self _ _) (by simp), ?_⟩
    rwa [← hsubst hρ'.typed]
  · rintro ⟨ρ', hρ', h⟩
    have hvs := ht.value hρ'.typed h
    have hback := hρ'.restore hρ
    refine ⟨_, hback, ?_⟩
    have hsame : I.val τ (assign ρ' [(vs, ρ vs)]) t = ρ' vs := by
      rw [hvs]
      refine congrArg Prod.fst (eval_congr t [] fun v hv => assign_of_not_mem ?_)
      intro hmem
      obtain rfl := mem_singleton.mp hmem
      exact ht.avoids v (by simp) hv
    rw [hsubst hback.typed, hsame, ← h]
    refine holds_congr fun v _ => ?_
    simp only [assign_cons, assign_nil]
    split_ifs with hvvs
    · rw [hvvs]
    · rfl

theorem reaches_of_not_mem (hρ : I.TypedVal τ ρ) (hvs : vs ∉ f.freeVars) :
    Reaches I τ ρ l f sign ↔ Reaches I τ ρ (vs :: l) f sign := by
  constructor
  · rintro ⟨ρ', hρ', h⟩
    exact ⟨ρ', ⟨hρ'.typed, fun v hv => hρ'.agree v fun hmem => hv (mem_cons_of_mem _ hmem)⟩, h⟩
  · rintro ⟨ρ', hρ', h⟩
    refine ⟨_, hρ'.restore hρ, ?_⟩
    rw [← h]
    refine holds_congr fun v hv => assign_of_not_mem fun hmem => ?_
    obtain rfl := mem_singleton.mp hmem
    exact hvs hv

theorem fmlaQuant_spec (hI : I.Sound) (keep : VSymbol → Bool) (sign : Bool)
    (hf : WellTyped S [] f none) (hn : f.VarsBelow n) (hl : l.Nodup)
    (hln : ∀ v ∈ l, v.vsName.idTag < n) :
    ∃ vsl g, fmlaQuant keep n sign f l = .ok (vsl, g) ∧ Removes S I sign l f vsl g := by
  induction l with
  | nil =>
    refine ⟨[], f, rfl, hf, Subset.refl _, Subset.refl _, by simp, fun _ => Iff.rfl, fun r _ => ?_⟩
    simp [gain]
  | cons vs l ih =>
    obtain ⟨hvs, hl⟩ := nodup_cons.mp hl
    obtain ⟨vsl, g, hg, hrem⟩ := ih hl fun v hv => hln v (mem_cons_of_mem _ hv)
    have hgn : g.VarsBelow n := fun v hv => hn v (hrem.vars hv)
    have hreach : ∀ {τ ρ}, I.TypedVal τ ρ →
        (Reaches I τ ρ (vs :: vsl) g sign ↔ Reaches I τ ρ (vs :: l) f sign) := by
      intro τ ρ hρ
      rw [reaches_cons hρ, reaches_cons hρ]
      exact exists_congr fun ρ' => and_congr_right fun hρ' => hrem.reaches hρ'.typed
    -- the measure when the first variable measures `d`
    have hrank : ∀ r : VSymbol → ℕ, (∀ v ∈ vs :: l, r v = 0) → ∀ d, rank (assign r [(vs, d)]) [] g ≤
          gain l.length fun ds => rank (assign r ((vs :: l).zip (d :: ds))) [] f := by
      intro r hr d
      refine le_trans (hrem.rank _ fun v hv => ?_) (le_of_eq (gain_congr fun ds _ => ?_))
      · rw [assign_cons, if_neg (by rintro rfl; exact hvs hv), assign_nil]
        exact hr v (mem_cons_of_mem _ hv)
      · refine rank_congr f [] fun v _ => ?_
        rw [zip_cons_cons, assign_cons_of_not_mem fun hmem =>
          hvs (map_fst_zip_subset _ _ hmem)]
    have hself : ∀ r : VSymbol → ℕ, (∀ v ∈ vs :: l, r v = 0) →
        rank r [] g ≤ gain l.length fun ds => rank (assign r ((vs :: l).zip (0 :: ds))) [] f := by
      intro r hr
      refine le_trans (le_of_eq (rank_congr g [] fun v _ => ?_)) (hrank r hr 0)
      rw [assign_cons, assign_nil]
      split_ifs with hv
      · rw [hv, hr vs mem_cons_self]
      · rfl
    have hgain : ∀ r : VSymbol → ℕ, (∀ v ∈ vs :: l, r v = 0) → ∀ r' : VSymbol → ℕ,
        (∀ v, v ≠ vs → r' v ≤ r v) → r' vs ≤ rank r [] g → rank r' [] g ≤
          gain (vs :: l).length fun ds => rank (assign r ((vs :: l).zip ds)) [] f := by
      intro r hr r' hne hle
      refine le_trans (rank_mono g (fun v _ => ?_) fun _ => le_refl _) (hrank r hr _)
      rw [assign_cons, assign_nil]
      split_ifs with hv
      · rw [hv]
        exact le_trans hle (hself r hr)
      · exact hne v hv
    have hzero : ∀ r : VSymbol → ℕ, (∀ v ∈ vs :: l, r v = 0) →
        rank r [] g ≤ gain (vs :: l).length fun ds => rank (assign r ((vs :: l).zip ds)) [] f :=
      fun r hr => hgain r hr r (fun _ _ => le_refl _) (by rw [hr vs mem_cons_self]; omega)
    have hkeep : Removes S I sign (vs :: l) f (vs :: vsl) g := by
      refine ⟨hrem.typed, cons_subset_cons vs hrem.sub, hrem.vars, fun v hv hmem => ?_,
        hreach, hzero⟩
      rcases mem_cons.mp hmem with rfl | hmem
      · exact mem_cons_self
      · exact mem_cons_of_mem _ (hrem.bound v hv hmem)
    have hsub : vsl ⊆ vs :: l := Subset.trans hrem.sub (subset_cons_self _ _)
    rw [fmlaQuant, hg]
    by_cases hk : keep vs
    · exact ⟨vs :: vsl, g, by simp [bind, Except.bind, hk], hkeep⟩
    by_cases hocc : tVOccurs vs g = 0
    · -- a variable that does not occur
      have hnot : vs ∉ g.freeVars := count_eq_zero.mp hocc
      refine ⟨vsl, g, by simp [bind, Except.bind, hk, hocc], hrem.typed, hsub, hrem.vars,
        fun v hv hmem => ?_, fun hρ => ?_, hzero⟩
      · rcases mem_cons.mp hmem with rfl | hmem
        · exact absurd hv hnot
        · exact hrem.bound v hv hmem
      · rw [← hreach hρ, ← reaches_of_not_mem hρ hnot]
    obtain ⟨o, ho, hdet⟩ := fmlaFindSubst_spec hI sign [vs] hrem.typed hgn
      (hln vs mem_cons_self)
    cases o with
    | none => exact ⟨vs :: vsl, g, by simp [bind, Except.bind, hk, hocc, ho], hkeep⟩
    | some t =>
      have ht := hdet t rfl
      have hsubst := tSubstSingle_ok (e := g) ht.typed.tTy_eq
      have htyped := WellTyped.tSubstSingle hsubst ht.typed hrem.typed
      have hvars : ∀ v ∈ (tSubst (fun u => if u = vs then some t else none) g).freeVars,
          v ∈ g.freeVars ∧ v ≠ vs := by
        intro v hv
        rcases mem_freeVars_tSubstSingle hsubst hv with ⟨_, hv⟩ | hv
        · exact ⟨ht.vars hv, fun h => ht.avoids vs (by simp) (h ▸ hv)⟩
        · exact hv
      obtain ⟨g', hg', hrw, hsh⟩ := equSimp_spec hI htyped fun v hv => hgn v (hvars v hv).1
      have hvars' : ∀ v ∈ g'.freeVars, v ∈ g.freeVars ∧ v ≠ vs := fun v hv =>
        hvars v ((hrw.vars hv).resolve_right id)
      refine ⟨vsl, g', by simp [bind, Except.bind, hk, hocc, ho, hsubst, hg'], hrw.typed, hsub,
        fun v hv => hrem.vars (hvars' v hv).1, fun v hv hmem => ?_, fun {τ ρ} hρ => ?_,
        fun r hr => ?_⟩
      · exact hrem.bound v (hvars' v hv).1
          ((mem_cons.mp hmem).resolve_left (hvars' v hv).2)
      · rw [← hreach hρ, ← reaches_subst hρ ht hI hsubst]
        exact exists_congr fun ρ' => and_congr_right fun hρ' => by
          rw [hrw.holds ⟨hρ'.typed, trivial⟩]
      · refine le_trans (hsh r) ?_
        rw [rank_tSubst]
        refine hgain r hr _ (fun v hv => ?_) ?_
        · simp [hv]
        · simpa using ht.shrinks r

/-! ## Removing quantifiers -/

theorem Removes.size_lt (a : List Attr) (q : Quant) (trl : List (List Term)) (hn : f.VarsBelow n)
    (h : Removes S I sign (freshLike n vl) (openVars (freshLike n vl) f) vsl g) :
    g.size < (Term.tquant a q vl trl f).size := by
  refine Nat.lt_succ_of_le (le_trans (h.rank (fun _ => 0) fun _ _ => rfl) ?_)
  rw [length_freshLike]
  refine gain_mono fun ds es hds hes hle => ?_
  have hlen : (freshLike n vl).length = ds.length := by rw [length_freshLike, hds]
  rw [rank_openVars, map_assign_zip (nodup_freshLike n vl) hlen]
  refine le_trans (le_of_eq (rank_congr f _ fun v hv => assign_of_not_mem fun hmem => ?_))
    (le_trans (rank_mono f (fun _ _ => le_refl _)
      (hle.append (hds.trans hes.symm) fun _ => le_refl _)) (Nat.le_add_left _ _))
  exact not_mem_freshLike (hn v hv) (map_fst_zip_subset _ _ hmem)

theorem Removes.rewrites {f2 : Term} (hn : f.VarsBelow n)
    (h : Removes S I (q == .texists) (freshLike n vl) (openVars (freshLike n vl) f) vsl f2)
    (hg : Rewrites S I .free none f2 g) (ht : WellTyped S [] (.tquant a q vl trl f) none) :
    Rewrites S I .free none (.tquant a q vl trl f) (tQuantClose q vsl [] g) := by
  have hvars : ∀ v ∈ g.freeVars, v ∉ vsl → v ∈ f.freeVars := by
    intro v hv hmem
    have hv2 := (hg.vars hv).resolve_right id
    exact (mem_freeVars_openVars (h.vars hv2)).resolve_right fun hul => hmem (h.bound v hv2 hul)
  refine .of_holds ht (.tQuantClose q vsl (by simp) hg.typed) (fun v hv => ?_) fun {τ ρ} hρ => ?_
  · refine mem_append_right _ ?_
    by_cases hvsl : vsl = []
    · subst hvsl
      exact hvars v hv not_mem_nil
    · obtain ⟨hv, hmem⟩ := (mem_freeVars_tQuantClose_iff hvsl).mp hv
      exact hvars v (hv.resolve_left (by simp)) hmem
  · have hreach : Reaches I τ ρ vsl g (q == .texists) ↔ Reaches I τ ρ vsl f2 (q == .texists) :=
      exists_congr fun ρ' => and_congr_right fun hρ' => by rw [hg.holds ⟨hρ'.typed, trivial⟩]
    have hiff := (tQuantClose_iff_reaches hρ []).trans (hreach.trans ((h.reaches hρ).trans
      (tquant_iff_reaches hρ a _ trl (map_vsTy_freshLike n vl) (nodup_freshLike n vl)
        fun u hu hmem => not_mem_freshLike (hn u hmem) hu).symm))
    cases q with
    | tforall => simpa [not_iff_not] using hiff
    | texists => simpa using hiff

theorem fmlaRemoveQuant_spec (hI : I.Sound) (hasAModelAttr : Ident → Bool) (keepModelVars : Bool)
    (ht : WellTyped S [] t o) (hn : t.VarsBelow n) :
    ∃ t', fmlaRemoveQuant hasAModelAttr keepModelVars n t = .ok t' ∧ Rewrites S I .free o t t' := by
  induction hm : t.size using Nat.strong_induction_on generalizing t o n with
  | _ m ih =>
    cases t with
    | tquant a q vl trl f =>
      obtain rfl : o = none := by rw [← ht.tTy_eq]; rfl
      rw [fmlaRemoveQuant]
      split_ifs with htrl
      · have htyped := ht
        cases ht with
        | tquant _ _ _ hf =>
          have hf' := hn.tquant.2
          have htys := map_vsTy_freshLike n vl
          have hul : ∀ u ∈ freshLike n vl, u.vsName.idTag < n + vl.length :=
            fun u hu => (idTag_of_mem_freshLike hu).2
          rw [← htys] at hf
          simp only
          obtain ⟨vsl, f2, hquant, hrem⟩ := fmlaQuant_spec hI
            (fun u => keepModelVars &&
              hasAModelAttr (Pattern.freshVar (freshLike n vl) vl u).vsName)
            (q == .texists) (WellTyped.openVars _ hf)
            (hf'.openVars (Nat.le_add_right n vl.length) hul)
            (nodup_freshLike n vl) hul
          have hlt := hrem.size_lt a q trl hf'
          rw [hquant]
          simp only [if_pos hlt]
          have hf2 : f2.VarsBelow (n + vl.length) := fun v hv =>
            hf'.openVars (by omega) hul v (hrem.vars hv)
          obtain ⟨g, hg, hrw⟩ := ih f2.size (hm ▸ hlt) hrem.typed hf2 rfl
          refine ⟨_, bind₂_eq_ok.mpr ⟨g, hg, g,
            tProp_of_wellTyped hrw.typed, rfl⟩, .attrCopy a (hrem.rewrites hf' hrw htyped)⟩
      · exact ⟨_, rfl, .refl ht⟩
    | _ =>
      rw [fmlaRemoveQuant]
      · exact tMap_spec hI (RewriteCtx.stable_free n) ht hn fun n' _ u hu o hut hbelow =>
          ih u.size (hm ▸ hu.size_lt) hut hbelow rfl
      · simp

/-! ## Equivalence -/

/-- The second formula is well typed, has no other free variables than the first one, and the
same truth value under all values for the variables. -/
structure EquivalentFmla (S : DataSig) (I : Interp D) (f g : Term) : Prop where
  typed : WellTyped S [] g none
  vars : g.freeVars ⊆ f.freeVars
  holds : ∀ {τ ρ}, I.TypedVal τ ρ → (I.Holds τ ρ g ↔ I.Holds τ ρ f)

theorem Rewrites.equivalentFmla (h : Rewrites S I .free none f g) : EquivalentFmla S I f g :=
  ⟨h.typed, fun _ hv => (h.vars hv).resolve_right id, fun hρ => h.holds ⟨hρ, trivial⟩⟩

/-- The simplifications of a formula are equivalent to it. Their assertions do not fail. -/
theorem simplifications_equivalent (hI : I.Sound) {n : ℕ} {f : Term}
    (hf : WellTyped S [] f none) (hn : f.VarsBelow n) :
    (∃ g, fmlaSimpl n f = .ok g ∧ EquivalentFmla S I f g) ∧
      (∀ hasAModelAttr keepModelVars, ∃ g,
        fmlaRemoveQuant hasAModelAttr keepModelVars n f = .ok g ∧ EquivalentFmla S I f g) ∧
      ∀ filter, ∃ g, fmlaCondSubst filter n f = .ok g ∧ EquivalentFmla S I f g := by
  refine ⟨?_, fun hasAModelAttr keepModelVars => ?_, fun filter => ?_⟩
  · obtain ⟨g, hg, h⟩ := (simpl_spec hI hf hn).2 rfl
    exact ⟨g, hg, h.equivalentFmla⟩
  · obtain ⟨g, hg, h⟩ := fmlaRemoveQuant_spec hI hasAModelAttr keepModelVars hf hn
    exact ⟨g, hg, h.equivalentFmla⟩
  · obtain ⟨g, hg, h⟩ := fmlaCondSubst_spec hI filter hf hn
    exact ⟨g, hg, h.equivalentFmla⟩

def someOne : Term :=
  .tquant [] .texists [⟨⟨0⟩, tyInt⟩] []
    (.tbinop [] .tand (.tapp [] psEqu [.tbnd [] 0 tyInt, .tconst [] (.constInt 1) tyInt] none)
      (.tnot [] (.tapp [] psEqu [.tbnd [] 0 tyInt, .tconst [] (.constInt 0) tyInt] none)))

theorem wellTyped_someOne : WellTyped boolSig [] someOne none := by
  have hvar : WellTyped boolSig [tyInt] (.tbnd [] 0 tyInt) (some tyInt) := .tbnd [] rfl
  exact .tquant [] .texists (by simp) (.tbinop [] .tand (.equ hvar (.tconst [] _ tyInt))
    (.tnot [] (.equ hvar (.tconst [] _ tyInt))))

theorem simplifications_equivalent_someOne :
    ∃ g, fmlaRemoveQuant (fun _ => false) false 1 someOne = .ok g ∧
      EquivalentFmla boolSig (stdInterp (fun _ ty _ => (den_nonempty ty).some) fun _ _ => False)
        someOne g :=
  (simplifications_equivalent (stdInterp_sound _ _) wellTyped_someOne (by simp [VarsBelow, someOne,
    freeVars, freeVarsTriggers, freeVarsList])).2.1 _ _

end Why3
