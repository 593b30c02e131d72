import Why3.Logic.MapSimp
import Why3.Logic.MapRank
import Why3.Transform.SimplifyFormula

/-!
# Simplifications are equivalences

Every simplification of a well-typed formula succeeds, with a formula that has the same
truth value under all values for the variables.
-/

namespace Why3

open Lib Term Interp List

variable {S : DataSig} {D : Type} {I : Interp D}
variable {conj : Bool} {l l' : List (Term × Bool)} {a : List Attr} {o : Option Ty} {f t : Term}
variable {τ : TyVal} {ρ : VSymbol → D} {n : ℕ}
variable {sign : Bool} {g t1 t2 u : Term} {ty : Ty} {i : ℕ}

/-! ## Simplifying constructors -/

theorem simpl_spec (hI : I.Sound) (ht : WellTyped S [] t o) (hn : t.VarsBelow n) :
    (∃ t', tFmlaSimpl n t = .ok t' ∧ Rewrites S I .free o t t') ∧
      (o = none → ∃ t', fmlaSimpl n t = .ok t' ∧ Rewrites S I .free o t t') := by
  induction hm : t.size using Nat.strong_induction_on generalizing t o n with
  | _ m ih =>
    have hparts : ∀ {u : Term}, u.size = m → RewritesParts S I .free n u fun n u _ =>
        if u.tTy.isNone then fmlaSimpl n u else tFmlaSimpl n u := by
      intro u hum n' _ w hw o hwt hbelow
      have hih := ih w.size (hum ▸ hw.size_lt) hwt hbelow rfl
      simp only [hwt.tTy_eq]
      cases o with
      | none => exact hih.2 rfl
      | some ty => exact hih.1
    refine ⟨?_, fun ho => ?_⟩
    · rw [tFmlaSimpl]
      exact tMap_spec hI (RewriteCtx.stable_free n) ht hn (hparts hm)
    · subst ho
      rw [fmlaSimpl]
      have hself : Rewrites S I .free none t (t.attrRemove .asymSplit) :=
        ⟨ht.attrRemove _, by rw [attrRemove, freeVars_withAttrs]; exact .inl, fun _ => by
          rw [eval_attrRemove]⟩
      have hbelow : (t.attrRemove .asymSplit).VarsBelow n := by
        unfold VarsBelow
        rwa [attrRemove, freeVars_withAttrs]
      obtain ⟨g, hg, hrw⟩ := tMapSimp_spec hI (RewriteCtx.stable_free n) hself.typed hbelow
        (hparts (by rw [attrRemove, size_withAttrs, hm]))
      exact ⟨g, hg, hself.trans hrw⟩

/-! ## Operands of a connective -/

/-- The operands are true with their signs, for a conjunction, and none of them is, for a
disjunction. -/
def AllJuncts (I : Interp D) (τ : TyVal) (ρ : VSymbol → D) (conj : Bool)
    (subf : List (Term × Bool)) : Prop :=
  ∀ p ∈ subf, I.Holds τ ρ p.1 ↔ p.2 = conj

theorem allJuncts_append :
    AllJuncts I τ ρ conj (l ++ l') ↔ AllJuncts I τ ρ conj l ∧ AllJuncts I τ ρ conj l' :=
  forall_mem_append

theorem allJuncts_singleton {s : Bool} :
    AllJuncts I τ ρ conj [(f, s)] ↔ (I.Holds τ ρ f ↔ s = conj) := by
  simp [AllJuncts]

/-- A formula of the sign, and how its operands determine its truth value. -/
structure JunctsOf (S : DataSig) (I : Interp D) (conj sign : Bool) (l : List (Term × Bool))
    (g : Term) : Prop where
  typed : WellTyped S [] g none
  vars : ∀ v ∈ g.freeVars, ∃ p ∈ l, v ∈ p.1.freeVars
  holds : ∀ {τ ρ}, (I.Holds τ ρ g ↔ sign = conj) ↔ AllJuncts I τ ρ conj l

theorem JunctsOf.attrCopy (a : List Attr) (h : JunctsOf S I conj sign l g) :
    JunctsOf S I conj sign l (g.attrCopy a) := by
  refine ⟨h.typed.attrCopy a, by rw [freeVars_attrCopy]; exact h.vars, fun {τ ρ} => ?_⟩
  rw [← h.holds, Holds, eval_attrCopy, Holds]

abbrev SameSigns (S : DataSig) (l l' : List (Term × Bool)) : Prop :=
  Forall₂ (fun p p' => p'.2 = p.2 ∧ WellTyped S [] p'.1 none) l l'

structure Flattens (S : DataSig) (I : Interp D) (conj sign : Bool) (f : Term)
    (l : List (Term × Bool)) : Prop where
  flatten : ∀ terms, flattenAux conj sign f terms = l ++ terms
  typed : ∀ p ∈ l, WellTyped S [] p.1 none
  vars : ∀ p ∈ l, p.1.freeVars ⊆ f.freeVars
  unflatten : ∀ {l'} rest, SameSigns S l l' →
    ∃ g, unflattenAux conj sign f (l' ++ rest) = .ok (g, rest) ∧ JunctsOf S I conj sign l' g
  holds : ∀ {τ ρ}, (I.Holds τ ρ f ↔ sign = conj) ↔ AllJuncts I τ ρ conj l

namespace Flattens

variable {conj sign : Bool}

theorem leaf (hflat : ∀ terms, flattenAux conj sign f terms = (f, sign) :: terms)
    (hun : ∀ fs, unflattenAux conj sign f fs = unflattenAux.unflattenLeaf sign f.tAttrs fs)
    (hf : WellTyped S [] f none) : Flattens S I conj sign f [(f, sign)] := by
  refine ⟨hflat, by simpa using hf, by simp, fun {l'} rest h => ?_, allJuncts_singleton.symm⟩
  cases h with
  | cons hp hnil =>
    rename_i p' _
    cases hnil
    obtain ⟨g, s⟩ := p'
    obtain ⟨rfl, hg⟩ := hp
    refine ⟨_, (hun _).trans (if_pos rfl), .attrCopy _ ⟨hg, ?_, allJuncts_singleton.symm⟩⟩
    exact fun v hv => ⟨_, mem_singleton_self _, hv⟩

theorem neg (h : Flattens S I conj (!sign) f l) : Flattens S I conj sign (.tnot a f) l := by
  have hsign : ∀ {P : Prop}, (¬P ↔ sign = conj) ↔ (P ↔ (!sign) = conj) := by
    intro P
    cases sign <;> cases conj <;> by_cases hP : P <;> simp [hP]
  refine ⟨h.flatten, h.typed, h.vars, fun {l'} rest hl => ?_, fun {τ ρ} => ?_⟩
  · obtain ⟨g, hg, hgl⟩ := h.unflatten rest hl
    refine ⟨_, bind₂_eq_ok.mpr ⟨_, hg, _, bind_eq_ok.mpr
      ⟨g, tProp_of_wellTyped hgl.typed, rfl⟩, rfl⟩,
      .attrCopy a ⟨.tnot [] hgl.typed, hgl.vars, fun {τ ρ} => ?_⟩⟩
    rw [← hgl.holds, ← hsign, Holds, eval_tnot]
    rfl
  · rw [← h.holds, ← hsign, Holds, eval_tnot]
    rfl

theorem binop {op : Binop} {f1 f2 : Term} {s1 s2 : Bool} {l1 l2 : List (Term × Bool)}
    (h1 : Flattens S I conj s1 f1 l1) (h2 : Flattens S I conj s2 f2 l2)
    (hflat : ∀ terms, flattenAux conj sign (.tbinop a op f1 f2) terms =
      flattenAux conj s1 f1 (flattenAux conj s2 f2 terms))
    (hun : ∀ fs, unflattenAux conj sign (.tbinop a op f1 f2) fs = do
      let (g1, fs) ← unflattenAux conj s1 f1 fs
      let (g2, fs) ← unflattenAux conj s2 f2 fs
      .ok (Term.attrCopy a (← tBinary op g1 g2), fs))
    (hop : ∀ {τ ρ a} {g1 g2 : Term}, (I.Holds τ ρ (.tbinop a op g1 g2) ↔ sign = conj) ↔
      (I.Holds τ ρ g1 ↔ s1 = conj) ∧ (I.Holds τ ρ g2 ↔ s2 = conj)) :
    Flattens S I conj sign (.tbinop a op f1 f2) (l1 ++ l2) := by
  refine ⟨fun terms => ?_, ?_, ?_, fun {l'} rest hl => ?_, ?_⟩
  · rw [hflat, h2.flatten, h1.flatten, append_assoc]
  · exact forall_mem_append.mpr ⟨h1.typed, h2.typed⟩
  · rw [forall_mem_append]
    exact ⟨fun p hp => Subset.trans (h1.vars p hp) (subset_append_left _ _),
      fun p hp => Subset.trans (h2.vars p hp) (subset_append_right _ _)⟩
  · have htake := forall₂_take l1.length hl
    have hdrop := forall₂_drop l1.length hl
    rw [take_left] at htake
    rw [drop_left] at hdrop
    obtain ⟨g1, hg1, hgl1⟩ := h1.unflatten (l'.drop l1.length ++ rest) htake
    obtain ⟨g2, hg2, hgl2⟩ := h2.unflatten rest hdrop
    rw [← append_assoc, take_append_drop] at hg1
    refine ⟨_, (hun _).trans (bind₃_eq_ok.mpr ⟨_, hg1, _, hg2, _, tBinary_of_wellTyped hgl1.typed
      hgl2.typed op, rfl⟩),
      .attrCopy a ⟨.tbinop [] op hgl1.typed hgl2.typed, fun v hv => ?_, fun {τ ρ} => ?_⟩⟩
    · rcases mem_append.mp hv with hv | hv
      · obtain ⟨p, hp, hv⟩ := hgl1.vars v hv
        exact ⟨p, mem_of_mem_take hp, hv⟩
      · obtain ⟨p, hp, hv⟩ := hgl2.vars v hv
        exact ⟨p, mem_of_mem_drop hp, hv⟩
    · rw [hop, hgl1.holds, hgl2.holds, ← allJuncts_append, take_append_drop]
  · intro τ ρ
    rw [hop, h1.holds, h2.holds, allJuncts_append]

end Flattens

theorem exists_flattens (conj sign : Bool) (hf : WellTyped S [] f none) :
    ∃ l, Flattens S I conj sign f l := by
  induction hm : f.size using Nat.strong_induction_on generalizing f sign with
  | _ m ih =>
    cases f with
    | tnot a f =>
      cases hf with
      | tnot _ hf =>
        obtain ⟨l, hl⟩ := ih f.size (hm ▸ Part.neg.size_lt) (!sign) hf rfl
        exact ⟨l, hl.neg⟩
    | tbinop a op f1 f2 =>
      have hf' := hf
      cases hf with
      | tbinop _ _ h1 h2 =>
        have ih1 := fun s => ih f1.size (hm ▸ Part.left.size_lt) s h1 rfl
        have ih2 := fun s => ih f2.size (hm ▸ Part.right.size_lt) s h2 rfl
        obtain ⟨l1, hl1⟩ := ih1 sign
        obtain ⟨l2, hl2⟩ := ih2 sign
        obtain ⟨l1', hl1'⟩ := ih1 (!sign)
        cases op with
        | tiff => exact ⟨_, .leaf (fun _ => rfl) (fun _ => rfl) hf'⟩
        | tand =>
          by_cases hs : sign = conj
          · refine ⟨_, hl1.binop hl2 ?_ ?_ ?_⟩
            · simp [flattenAux, hs]
            · simp [unflattenAux, hs, tAnd]
            · simp [Holds, hs]
          · exact ⟨_, .leaf (by simp [flattenAux, hs])
              (by simp [unflattenAux, hs, tAttrs]) hf'⟩
        | tor =>
          by_cases hs : sign = conj
          · exact ⟨_, .leaf (by simp [flattenAux, hs])
              (by simp [unflattenAux, hs, tAttrs]) hf'⟩
          · refine ⟨_, hl1.binop hl2 ?_ ?_ ?_⟩
            · simp [flattenAux, hs]
            · simp [unflattenAux, hs, tOr]
            · simp [Holds, hs]
        | timplies =>
          by_cases hs : sign = conj
          · exact ⟨_, .leaf (by simp [flattenAux, hs])
              (by simp [unflattenAux, hs, tAttrs]) hf'⟩
          · have hs' : (!sign) = conj := by
              cases sign <;> cases conj <;> simp_all
            refine ⟨_, hl1'.binop hl2 ?_ ?_ ?_⟩
            · simp [flattenAux, hs]
            · simp [unflattenAux, hs, tImplies]
            · simp [Holds, hs, hs']
    | _ => exact ⟨_, .leaf (fun _ => rfl) (fun _ => rfl) hf⟩

/-! ## Conditional substitution -/

theorem WellTyped.equ_args {Γ : List Ty} (h : WellTyped S Γ (.tapp a psEqu [t, u] o) none) :
    ∃ ty, WellTyped S Γ t (some ty) ∧ WellTyped S Γ u (some ty) := by
  cases h with
  | tapp _ σ _ _ _ htl => exact ⟨_, htl 0 t _ rfl rfl, htl 1 u _ rfl rfl⟩

theorem holds_equ (hI : I.Sound) :
    I.Holds τ ρ (.tapp a psEqu [t, u] none) ↔ I.val τ ρ t = I.val τ ρ u := by
  rw [Holds, eval_tapp_none]
  exact hI.equ _ _

/-- Operands that are rewritten without a change of what they say together. -/
structure JunctsInv (S : DataSig) (I : Interp D) (conj : Bool) (f : Term)
    (l l' : List (Term × Bool)) : Prop where
  signs : SameSigns S l l'
  vars : ∀ p ∈ l', p.1.freeVars ⊆ f.freeVars
  holds : ∀ {τ ρ}, I.TypedVal τ ρ → (AllJuncts I τ ρ conj l' ↔ AllJuncts I τ ρ conj l)

theorem Flattens.junctsInv (h : Flattens S I conj sign f l)
    (hl : Forall₂ (fun p p' => p'.2 = p.2 ∧ Rewrites S I .free none p.1 p'.1) l l') :
    JunctsInv S I conj f l l' := by
  refine ⟨hl.imp fun _ _ hp => ⟨hp.1, hp.2.typed⟩, fun p' hp' v hv => ?_, fun {τ ρ} hρ => ?_⟩
  · obtain ⟨p, hp, _, hrw⟩ := forall₂_mem_right hl hp'
    exact h.vars p hp ((hrw.vars hv).resolve_right id)
  · have heach : ∀ p p' : Term × Bool, p'.2 = p.2 ∧ Rewrites S I .free none p.1 p'.1 →
        ((I.Holds τ ρ p'.1 ↔ p'.2 = conj) ↔ (I.Holds τ ρ p.1 ↔ p.2 = conj)) := by
      rintro p p' ⟨hs, hrw⟩
      rw [hrw.holds ⟨hρ, trivial⟩, hs]
    constructor
    · intro hall p hp
      obtain ⟨p', hp', hpp⟩ := forall₂_mem_left hl hp
      exact (heach p p' hpp).mp (hall p' hp')
    · intro hall p' hp'
      obtain ⟨p, hp, hpp⟩ := forall₂_mem_right hl hp'
      exact (heach p p' hpp).mpr (hall p hp)

theorem doSubst_spec (hI : I.Sound) (h1 : WellTyped S [] t1 (some ty))
    (h2 : WellTyped S [] t2 (some ty)) (hn1 : t1.VarsBelow n) (hn2 : t2.VarsBelow n)
    {subf : List (Term × Bool)} (ht : ∀ p ∈ subf, WellTyped S [] p.1 none)
    (hn : ∀ p ∈ subf, p.1.VarsBelow n) :
    ∃ subf', doSubst n i t1 t2 subf = .ok subf' ∧ subf'[i]? = subf[i]? ∧
      Forall₂ (fun p p' => p'.2 = p.2 ∧ Rewrites S I (.replace I t1 t2) none p.1 p'.1)
        subf subf' := by
  have hstep : ∀ q ∈ subf.zipIdx, ∃ p', (if q.2 ≠ i then do
      .ok (← tReplace t1 t2 n q.1.1, q.1.2) else .ok q.1 : Except Exn (Term × Bool)) = .ok p' ∧
      (q.2 = i → p' = q.1) ∧ p'.2 = q.1.2 ∧ Rewrites S I (.replace I t1 t2) none q.1.1 p'.1 := by
    intro q hq
    have hmem : q.1 ∈ subf := fst_mem_of_mem_zipIdx hq
    split_ifs with hi
    · obtain ⟨t', ht', hrw⟩ := tReplace_spec hI h1 h2 hn1 hn2 (ht _ hmem) (hn _ hmem)
      exact ⟨(t', q.1.2), bind_eq_ok.mpr ⟨t', ht', rfl⟩, fun h => absurd h hi, rfl, hrw⟩
    · exact ⟨q.1, rfl, fun _ => rfl, rfl, .refl (ht _ hmem)⟩
  obtain ⟨subf', hsubf', hall⟩ := mapM_ok hstep
  obtain ⟨hlen, hget⟩ := forall₂_iff_get.mp hall
  rw [length_zipIdx] at hlen
  refine ⟨subf', hsubf', ?_, forall₂_iff_get.mpr ⟨hlen, ?_⟩⟩
  · by_cases hi : i < subf.length
    · have h := hget i (by rwa [length_zipIdx]) (hlen ▸ hi)
      simp only [get_eq_getElem, getElem_zipIdx, Nat.zero_add] at h
      rw [getElem?_eq_getElem hi, getElem?_eq_getElem (hlen ▸ hi), h.1 trivial]
    · rw [getElem?_eq_none (by omega), getElem?_eq_none (by omega)]
  · intro j hj hj'
    have h := hget j (by rwa [length_zipIdx]) hj'
    simpa using h.2

/-- The equation that is used is one of the operands, so that the others are only rewritten
where it holds. -/
theorem JunctsInv.doSubst (hI : I.Sound) (h : JunctsInv S I conj f l l') (hn : f.VarsBelow n)
    (hi : l'[i]? = some (g, conj)) (hequ : ∀ {τ ρ}, I.Holds τ ρ g ↔ I.val τ ρ t1 = I.val τ ρ t2)
    (h1 : WellTyped S [] t1 (some ty)) (h2 : WellTyped S [] t2 (some ty))
    (hv1 : t1.freeVars ⊆ g.freeVars) (hv2 : t2.freeVars ⊆ g.freeVars) :
    ∃ l'', Term.doSubst n i t1 t2 l' = .ok l'' ∧ JunctsInv S I conj f l l'' := by
  have hmem : (g, conj) ∈ l' := mem_of_getElem? hi
  have hg : g.freeVars ⊆ f.freeVars := h.vars _ hmem
  have htyped : ∀ p ∈ l', WellTyped S [] p.1 none := by
    intro p hp
    obtain ⟨_, _, hp⟩ := forall₂_mem_right h.signs hp
    exact hp.2
  obtain ⟨l'', hl'', hi'', hall⟩ := doSubst_spec (i := i) hI h1 h2
    (fun v hv => hn v (hg (hv1 hv))) (fun v hv => hn v (hg (hv2 hv))) htyped
    fun p hp v hv => hn v (h.vars p hp hv)
  refine ⟨l'', hl'', forall₂_comp ?_ h.signs hall, fun p hp v hv => ?_, fun {τ ρ} hρ => ?_⟩
  · rintro p p' p'' ⟨hs, _⟩ ⟨hs', hrw⟩
    exact ⟨hs'.trans hs, hrw.typed⟩
  · obtain ⟨p', hp', _, hrw⟩ := forall₂_mem_right hall hp
    rcases hrw.vars hv with hv | hv
    · exact h.vars p' hp' hv
    · exact hg (hv2 hv)
  · rw [← h.holds hρ]
    have hmem'' : (g, conj) ∈ l'' := mem_of_getElem? (hi''.trans hi)
    have heach : I.val τ ρ t1 = I.val τ ρ t2 →
        (AllJuncts I τ ρ conj l'' ↔ AllJuncts I τ ρ conj l') := by
      intro hval
      constructor
      · intro hall'' p hp
        obtain ⟨p'', hp'', hs, hrw⟩ := forall₂_mem_left hall hp
        rw [← hrw.holds ⟨hρ, hval⟩, ← hs]
        exact hall'' p'' hp''
      · intro hall' p'' hp''
        obtain ⟨p, hp, hs, hrw⟩ := forall₂_mem_right hall hp''
        rw [hrw.holds ⟨hρ, hval⟩, hs]
        exact hall' p hp
    exact ⟨fun hall'' => (heach (hequ.mp ((hall'' _ hmem'').mpr rfl))).mp hall'',
      fun hall' => (heach (hequ.mp ((hall' _ hmem).mpr rfl))).mpr hall'⟩

theorem JunctsInv.substStep (hI : I.Sound) (filter : Term → Term → Bool)
    (h : JunctsInv S I conj f l l') (hn : f.VarsBelow n) (i : ℕ) :
    ∃ l'', Term.substStep filter conj n l' i = .ok l'' ∧ JunctsInv S I conj f l l'' := by
  have hside : ∀ {a ls t1 t2 ty s}, ls = psEqu ∧ s = conj →
      l'[i]? = some (Term.tapp a ls [t1, t2] ty, s) →
      ∃ ty', (∀ {τ ρ}, I.Holds τ ρ (.tapp a ls [t1, t2] ty) ↔ I.val τ ρ t1 = I.val τ ρ t2) ∧
        WellTyped S [] t1 (some ty') ∧ WellTyped S [] t2 (some ty') ∧
        t1.freeVars ⊆ (Term.tapp a ls [t1, t2] ty).freeVars ∧
        t2.freeVars ⊆ (Term.tapp a ls [t1, t2] ty).freeVars := by
    rintro a ls t1 t2 ty s ⟨rfl, rfl⟩ hi
    obtain ⟨_, _, _, hg⟩ := forall₂_mem_right h.signs (mem_of_getElem? hi)
    obtain rfl : ty = none := hg.tTy_eq
    obtain ⟨ty', h1, h2⟩ := hg.equ_args
    exact ⟨ty', holds_equ hI, h1, h2, by simp [freeVars, freeVarsList],
      by simp [freeVars, freeVarsList]⟩
  unfold Term.substStep
  split
  · next a ls t1 t2 ty s hi =>
      split_ifs with hls hfilter hfilter'
      · obtain ⟨ty', hequ, h1, h2, hv1, hv2⟩ := hside hls hi
        exact h.doSubst hI hn (hls.2 ▸ hi) hequ h1 h2 hv1 hv2
      · obtain ⟨ty', hequ, h1, h2, hv1, hv2⟩ := hside hls hi
        exact h.doSubst hI hn (hls.2 ▸ hi) (hequ.trans eq_comm) h2 h1 hv2 hv1
      · exact ⟨l', rfl, h⟩
      · exact ⟨l', rfl, h⟩
  · exact ⟨l', rfl, h⟩

theorem fmlaCondSubst_spec (hI : I.Sound) (filter : Term → Term → Bool) (ht : WellTyped S [] t o)
    (hn : t.VarsBelow n) : ∃ t', fmlaCondSubst filter n t = .ok t' ∧ Rewrites S I .free o t t' := by
  induction hm : t.size using Nat.strong_induction_on generalizing t o n with
  | _ m ih =>
    have hmap : ∃ t', (tMap n t fun n u _ => fmlaCondSubst filter n u) = .ok t' ∧
        Rewrites S I .free o t t' :=
      tMap_spec hI (RewriteCtx.stable_free n) ht hn fun n' _ u hu o hut hbelow =>
        ih u.size (hm ▸ hu.size_lt) hut hbelow rfl
    cases t with
    | tbinop a op f1 f2 =>
      rw [fmlaCondSubst]
      split_ifs with hop
      · exact hmap
      · obtain rfl : o = none := by rw [← ht.tTy_eq]; rfl
        obtain ⟨l, hl⟩ := exists_flattens (I := I) (op == .tand) true ht
        have hflat : fmlaFlatten (op == .tand) (.tbinop a op f1 f2) = l := by
          rw [fmlaFlatten, hl.flatten, append_nil]
        obtain ⟨l0, hl0, hall⟩ := mapMem_ok
          (P := fun p (p' : Term × Bool) => p'.2 = p.2 ∧ Rewrites S I .free none p.1 p'.1)
          fun p (hp : p ∈ fmlaFlatten (op == .tand) (.tbinop a op f1 f2)) => by
            have hpl : p ∈ l := hflat ▸ hp
            obtain ⟨g, hg, hrw⟩ := ih p.1.size (hm ▸ size_lt_of_mem_fmlaFlatten hop hp)
              (hl.typed p hpl) (fun v hv => hn v (hl.vars p hpl hv)) rfl
            exact ⟨(g, p.2), bind_eq_ok.mpr ⟨g, hg, rfl⟩, rfl, hrw⟩
        rw [hflat] at hall
        obtain ⟨l1, hl1, hinv⟩ := foldlM_ok (l := List.range l0.length)
          (P := JunctsInv S I (op == .tand) (.tbinop a op f1 f2) l)
          (fun l' h i _ => h.substStep hI filter hn i) (hl.junctsInv hall)
        obtain ⟨g, hg, hgl⟩ := hl.unflatten [] hinv.signs
        rw [append_nil] at hg
        refine ⟨g, bind₃_eq_ok.mpr ⟨l0, hl0, l1, hl1, _, hg, rfl⟩, .of_holds ht hgl.typed
          (fun v hv => ?_)
          fun {τ ρ} hρ => ?_⟩
        · obtain ⟨p, hp, hv⟩ := hgl.vars v hv
          exact hinv.vars p hp hv
        · have hiff := hgl.holds.trans ((hinv.holds hρ).trans hl.holds.symm)
          by_cases hc : true = (op == .tand)
          · simpa [hc] using hiff
          · simpa [hc, not_iff_not] using hiff
    | _ =>
      rw [fmlaCondSubst]
      · exact hmap
      · simp

end Why3
