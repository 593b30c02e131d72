import Why3.Logic.Models
import Why3.Transform.EliminateInductive
import Why3.Transform.RemoveQuantSound

/-!
# What the inversion axioms say

The dual of a clause is the formula that the clause derives given arguments. It is built
below the binders of the clause, where the code opens the binders and closes them again, and
what the code builds rewrites it.
-/

namespace Why3

open Lib Term Interp List

variable {S : DataSig} {D : Type} {I : Interp D} {Φ : RewriteCtx D} {τ : TyVal} {ρ : VSymbol → D}
  {ps : LSymbol}
variable {sps : List LSymbol} {zl : List VSymbol} {c : Term}
variable {α : Type} {id : IndDecl} {vl : List Term} {l : List α} {w : VSymbol}
variable {map : α → Except Exn Term} {P : α → TyVal → (VSymbol → D) → Prop}

/-! ## Duals of clauses -/

def equations (acc : Term) : List Term → List Term → Term
  | v :: vl, t :: tl => equations (tbinop [] .tand acc (tapp [] psEqu [v, t] none)) vl tl
  | _, _ => acc

def dual (vl : List Term) : Term → Term
  | tquant _ .tforall ul trl f => tquant [] .texists ul trl (dual vl f)
  | tbinop _ .timplies g f => tbinop [] .tand g (dual vl f)
  | tlet _ t v f => tlet [] t v (dual vl f)
  | tapp _ _ tl _ => equations (ttrue []) vl tl
  | _ => tfalse []

/-- The quantifiers, premises and local definitions that end in an application of the
predicate. -/
inductive Chain (ps : LSymbol) : Term → Prop where
  | tforall {a : List Attr} {vl : List VSymbol} {trl : List (List Term)} {f : Term}
      (hf : Chain ps f) : Chain ps (tquant a .tforall vl trl f)
  | timplies {a : List Attr} {g f : Term} (hf : Chain ps f) : Chain ps (tbinop a .timplies g f)
  | tlet {a : List Attr} {t : Term} {v : VSymbol} {f : Term} (hf : Chain ps f) :
      Chain ps (tlet a t v f)
  | tapp {a : List Attr} {tl : List Term} {ty : Option Ty}
      (hlen : tl.length = ps.lsArgs.length) : Chain ps (tapp a ps tl ty)

theorem IndClause.chain (h : IndClause sps ps c) : Chain ps c := by
  induction h with
  | tforall _ ih => exact .tforall ih
  | timplies _ _ ih => exact .timplies ih
  | tlet _ _ ih => exact .tlet ih
  | tapp _ htys => exact .tapp (by simpa using congrArg List.length htys)

section MapVars

variable {free : ℕ → List Attr → VSymbol → Term} {bound : ℕ → List Attr → ℕ → Ty → Term}

theorem Chain.mapVars (h : Chain ps c) : ∀ k, Chain ps (Term.mapVars free bound k c) := by
  induction h with
  | tforall _ ih => exact fun k => .tforall (ih _)
  | timplies _ ih => exact fun k => .timplies (ih _)
  | tlet _ ih => exact fun k => .tlet (ih _)
  | tapp hlen =>
    intro k
    rw [Term.mapVars, mapVarsList_eq_map]
    exact .tapp (by rw [length_map, hlen])

theorem mapVars_equations (hvl : ∀ v ∈ vl, ∀ k, mapVars free bound k v = v) (k : ℕ) :
    ∀ (tl : List Term) (acc : Term),
    mapVars free bound k (equations acc vl tl) =
      equations (mapVars free bound k acc) vl (tl.map (mapVars free bound k)) := by
  induction vl with
  | nil => exact fun _ _ => rfl
  | cons v vl ih =>
    intro tl acc
    rw [forall_mem_cons] at hvl
    cases tl with
    | nil => rfl
    | cons t tl =>
      rw [equations, ih hvl.2]
      simp only [mapVars, mapVarsList, hvl.1, map_cons, equations]

theorem Chain.mapVars_dual (hvl : ∀ v ∈ vl, ∀ k, Term.mapVars free bound k v = v) (h : Chain ps c) :
    ∀ k, Term.mapVars free bound k (dual vl c) = dual vl (Term.mapVars free bound k c) := by
  induction h with
  | tforall _ ih | timplies _ ih | tlet _ ih =>
    intro k
    simp only [dual, Term.mapVars, ih]
  | tapp _ =>
    intro k
    rw [dual, mapVars_equations hvl, Term.mapVars, mapVarsList_eq_map]
    rfl

end MapVars

theorem Chain.openVars (h : Chain ps c) (ul : List VSymbol) : Chain ps (Term.openVars ul c) :=
  h.mapVars 0

theorem Chain.openVars_dual (h : Chain ps c) (ul zl : List VSymbol) :
    Term.openVars ul (dual (zl.map (tvar [])) c) =
      dual (zl.map (tvar [])) (Term.openVars ul c) := by
  refine h.mapVars_dual ?_ 0
  intro v hv k
  obtain ⟨z, _, rfl⟩ := mem_map.mp hv
  rfl

/-! ## What the code builds -/

theorem wellTyped_equations_iff {Γ : List Ty} : ∀ {vl tl : List Term} {acc : Term},
    vl.length = tl.length → (WellTyped S Γ (equations acc vl tl) none ↔ WellTyped S Γ acc none ∧
      Forall₂ (fun v t => WellTyped S Γ (tapp [] psEqu [v, t] none) none) vl tl)
  | [], [], acc, _ => by simp [equations]
  | v :: vl, t :: tl, acc, hlen => by
    rw [equations, wellTyped_equations_iff (by simpa using hlen), forall₂_cons]
    constructor
    · rintro ⟨hand, htl⟩
      cases hand with
      | tbinop _ _ hacc heq => exact ⟨hacc, heq, htl⟩
    · rintro ⟨hacc, heq, htl⟩
      exact ⟨.tbinop [] .tand hacc heq, htl⟩

theorem marry_rewrites (hI : I.Sound) : ∀ {vl tl : List Term} {acc acc' : Term},
    Forall₂ (fun v t => WellTyped S [] (tapp [] psEqu [v, t] none) none) vl tl →
    Rewrites S I Φ none acc acc' →
    ∃ g, marry acc' vl tl = .ok g ∧ Rewrites S I Φ none (equations acc vl tl) g
  | [], [], acc, acc', _, hacc => ⟨acc', rfl, hacc⟩
  | v :: vl, t :: tl, acc, acc', .cons heq htl, hacc => by
    obtain ⟨e, he, hand⟩ := conjSimp_rewrites (Φ := Φ) hacc.typed heq hI
      (tBinary_rewrites hacc.typed heq .tand)
    obtain ⟨g, hg, hrw⟩ := marry_rewrites hI htl ((hacc.tbinop (.refl heq)).trans hand)
    refine ⟨g, ?_, hrw⟩
    exact bind₂_eq_ok.mpr ⟨_, tApp_of_wellTyped heq, e, he, hg⟩

theorem descend_rewrites (hI : I.Sound) (hzl : zl.length = ps.lsArgs.length) {n : ℕ}
    (hc : Chain ps c) (hty : WellTyped S [] (dual (zl.map (tvar [])) c) none)
    (hn : (dual (zl.map (tvar [])) c).VarsBelow n) :
    ∃ g, descend (zl.map (tvar [])) n c = .ok g ∧
      Rewrites S I .free none (dual (zl.map (tvar [])) c) g := by
  induction hm : c.size using Nat.strong_induction_on generalizing c n with
  | _ m ih =>
    rw [descend.eq_def]
    cases hc with
    | @tforall a ul trl f hf =>
      have hquant := hty
      cases hty with
      | tquant _ _ htr hfty =>
        have htys := map_vsTy_freshLike n ul
        have hbelow : (dual (zl.map (tvar [])) f).VarsBelow n :=
          fun v hv => hn v (by simp [dual, freeVars, hv])
        have hopen := hf.openVars_dual (freshLike n ul) zl
        have hfty' : WellTyped S [] (openVars (freshLike n ul) (dual (zl.map (tvar [])) f))
          none := WellTyped.openVars _ (by rwa [htys])
        obtain ⟨g, hg, hrw⟩ := ih _ (hm ▸ (Part.quant _).size_lt) (hf.openVars _)
          (hopen ▸ hfty') (n := n + ul.length) (hopen ▸ hbelow.openVars
            (Nat.le_add_right n _) fun u hu => (idTag_of_mem_freshLike hu).2) rfl
        refine ⟨_, bind₂_eq_ok.mpr ⟨g, hg, g, tProp_of_wellTyped hrw.typed, rfl⟩, ?_⟩
        refine .tQuantClose htys (opens_freshLike (RewriteCtx.stable_free n) hbelow ul) ?_
          (hopen ▸ hrw)
        rw [forall₂_map_right_iff, forall₂_same]
        intro tl htl
        rw [forall₂_map_right_iff, forall₂_same]
        exact fun t ht => .refl (WellTyped.openVars _ (htys.symm ▸ htr tl htl t ht))
    | @timplies a g f hf =>
      cases hty with
      | tbinop _ _ hg hfty =>
        obtain ⟨e, he, hrw⟩ := ih _ (hm ▸ Part.right.size_lt) hf hfty
          (fun v hv => hn v (by simp [dual, freeVars, hv])) rfl
        exact ⟨_, bind_eq_ok.mpr ⟨e, he, tBinary_of_wellTyped hg hrw.typed .tand⟩,
          .tbinop (.refl hg) hrw⟩
    | @tlet a t v f hf =>
      cases hty with
      | tlet _ ht hfty =>
        have hbelow : (dual (zl.map (tvar [])) f).VarsBelow n :=
          fun w hw => hn w (by simp [dual, freeVars, hw])
        have hopen := hf.openVars_dual [boundVar n v] zl
        have hfty' : WellTyped S [] (openVars [boundVar n v] (dual (zl.map (tvar [])) f))
          none := WellTyped.openVars [boundVar n v] hfty
        obtain ⟨g, hg, hrw⟩ := ih _ (hm ▸ (Part.letBody _).size_lt) (hf.openVars _)
          (hopen ▸ hfty') (n := n + 1) (hopen ▸ hbelow.openVars (Nat.le_add_right n 1)
            (by simp)) rfl
        exact ⟨_, bind₂_eq_ok.mpr ⟨g, hg, (), vsCheck_ok ht.tTy_eq, rfl⟩, .tlet hI rfl
          (opens_boundVar (RewriteCtx.stable_free n) hbelow v) (.refl ht) (hopen ▸ hrw)⟩
    | @tapp a tl ty hlen =>
      have hargs := (wellTyped_equations_iff (by rw [length_map, hzl, hlen])).mp hty
      exact marry_rewrites hI hargs.2 (.refl (.ttrue []))

/-! ## What the duals say -/

theorem eval_equations (hI : I.Sound) {b : List D} : ∀ {vl tl : List Term} {acc : Term},
    vl.length = tl.length → ((I.eval τ ρ b (equations acc vl tl)).2 ↔ (I.eval τ ρ b acc).2 ∧
      (vl.map fun t => (I.eval τ ρ b t).1) = tl.map fun t => (I.eval τ ρ b t).1)
  | [], [], acc, _ => by simp [equations]
  | v :: vl, t :: tl, acc, hlen => by
    rw [equations, eval_equations hI (by simpa using hlen)]
    simp [hI.equ, and_assoc]

/-- The dual of a clause is true of the arguments that the clause derives. -/
theorem Chain.eval_dual (hI : I.Sound) (hzl : zl.length = ps.lsArgs.length) (hc : Chain ps c) :
    ∀ b : List D, (I.eval τ ρ b (dual (zl.map (tvar [])) c)).2 ↔ I.Derives τ ρ b c (zl.map ρ) := by
  induction hc with
  | tforall _ ih =>
    intro b
    rw [dual, eval_exists]
    exact exists_congr fun es => and_congr_right fun _ => ih _
  | timplies _ ih =>
    intro b
    rw [dual, eval_tand]
    exact and_congr_right fun _ => ih b
  | tlet _ ih =>
    intro b
    rw [dual, eval_tlet]
    exact ih _
  | tapp hlen =>
    intro b
    rw [dual, eval_equations hI (by rw [length_map, hzl, hlen]), Derives]
    simp [Function.comp_def]

/-- Conclusions are about arguments of the types of the predicate. -/
theorem IndClause.wellTyped_dual (hzl : zl.map VSymbol.vsTy = ps.lsArgs) (hc : IndClause sps ps c) :
    ∀ {Γ : List Ty}, WellTyped S Γ c none → WellTyped S Γ (dual (zl.map (tvar [])) c) none := by
  induction hc with
  | tforall _ ih =>
    intro Γ h
    cases h with
    | tquant _ _ htr hf => exact .tquant [] _ htr (ih hf)
  | timplies _ _ ih =>
    intro Γ h
    cases h with
    | tbinop _ _ hg hf => exact .tbinop [] _ hg (ih hf)
  | tlet _ _ ih =>
    intro Γ h
    cases h with
    | tlet _ ht hf => exact .tlet [] ht (ih hf)
  | @tapp a tl ty _ htys =>
    intro Γ h
    rw [← hzl, map_map] at htys
    have hlen : zl.length = tl.length := by simpa using (congrArg List.length htys).symm
    refine (wellTyped_equations_iff (by simpa using hlen)).mpr ⟨.ttrue [], ?_⟩
    rw [forall₂_map_left_iff, forall₂_iff_get]
    refine ⟨hlen, fun i hi hi' => ?_⟩
    obtain ⟨o, ht⟩ := h.args tl[i] (getElem_mem hi')
    have hty : tl[i].tTy = some zl[i].vsTy := by
      have := congrArg (·[i]?) htys
      simpa [hi, hi'] using this
    rw [← ht.tTy_eq, hty] at ht
    exact .equ (.tvar [] _) ht

theorem mem_freeVars_equations {w : VSymbol} : ∀ {vl tl : List Term} {acc : Term},
    w ∈ (equations acc vl tl).freeVars →
      w ∈ acc.freeVars ∨ (∃ v ∈ vl, w ∈ v.freeVars) ∨ ∃ t ∈ tl, w ∈ t.freeVars
  | [], _, acc, h => .inl h
  | _ :: _, [], acc, h => .inl h
  | v :: vl, t :: tl, acc, h => by
    have := @mem_freeVars_equations w vl tl _ h
    simp only [freeVars, freeVarsList, mem_append, append_nil] at this
    simp only [exists_mem_cons_iff]
    rcases this with (h | h | h) | h | h <;> simp only [h, true_or, or_true]

theorem Chain.mem_freeVars_dual (hc : Chain ps c) (hw : w ∈ (dual (zl.map (tvar [])) c).freeVars) :
    w ∈ c.freeVars ∨ w ∈ zl := by
  induction hc with
  | tforall _ ih | timplies _ ih | tlet _ ih =>
    simp only [dual, freeVars, mem_append] at hw ⊢
    tauto
  | tapp _ =>
    rcases mem_freeVars_equations hw with hw | ⟨v, hv, hw⟩ | ⟨t, ht, hw⟩
    · cases hw
    · obtain ⟨z, hz, rfl⟩ := mem_map.mp hv
      exact .inr (mem_singleton.mp hw ▸ hz)
    · exact .inl (mem_freeVarsList.mpr ⟨t, ht, hw⟩)

/-! ## The inversion axioms -/

structure Says (S : DataSig) (I : Interp D) (vl : List VSymbol) (f : Term)
    (Q : TyVal → (VSymbol → D) → Prop) : Prop where
  typed : WellTyped S [] f none
  vars : ∀ v ∈ f.freeVars, v ∈ vl
  holds : ∀ {τ ρ}, I.TypedVal τ ρ → (I.Holds τ ρ f ↔ Q τ ρ)

section Says

variable {vl : List VSymbol} {f g : Term} {Q R : TyVal → (VSymbol → D) → Prop}

theorem Says.rewrites (h : Says S I vl f Q) (hfg : Rewrites S I .free none f g) : Says S I vl g Q :=
  ⟨hfg.typed, fun v hv => h.vars v ((hfg.vars hv).resolve_right id), fun hρ =>
    (hfg.holds ⟨hρ, trivial⟩).trans (h.holds hρ)⟩

theorem Says.tOr (hf : Says S I vl f Q) (hg : Says S I vl g R) :
    ∃ h, tOr f g = .ok h ∧ Says S I vl h fun τ ρ => Q τ ρ ∨ R τ ρ := by
  refine ⟨_, tBinary_of_wellTyped hf.typed hg.typed .tor, .tbinop [] _ hf.typed hg.typed, ?_, ?_⟩
  · intro v hv
    exact (mem_append.mp hv).elim (hf.vars v) (hg.vars v)
  · intro τ ρ hρ
    exact or_congr (hf.holds hρ) (hg.holds hρ)

theorem Says.tImplies (hf : Says S I vl f Q) (hg : Says S I vl g R) :
    ∃ h, tImplies f g = .ok h ∧ Says S I vl h fun τ ρ => Q τ ρ → R τ ρ := by
  refine ⟨_, tBinary_of_wellTyped hf.typed hg.typed .timplies, .tbinop [] _ hf.typed hg.typed,
    ?_, ?_⟩
  · intro v hv
    exact (mem_append.mp hv).elim (hf.vars v) (hg.vars v)
  · intro τ ρ hρ
    exact imp_congr (hf.holds hρ) (hg.holds hρ)

theorem Says.foldlM_tOr (hmap : ∀ x ∈ l, ∃ g, map x = .ok g ∧ Says S I vl g (P x))
    (hf : Says S I vl f Q) :
    ∃ g, l.foldlM (fun acc x => do Term.tOr acc (← map x)) f = .ok g ∧
      Says S I vl g fun τ ρ => Q τ ρ ∨ ∃ x ∈ l, P x τ ρ := by
  induction l generalizing f Q with
  | nil => exact ⟨f, rfl, by simpa using hf⟩
  | cons x l ih =>
    rw [forall_mem_cons] at hmap
    obtain ⟨gx, hgx, hx⟩ := hmap.1
    obtain ⟨h, hh, hor⟩ := hf.tOr hx
    obtain ⟨g, hg, hall⟩ := ih hmap.2 hor
    refine ⟨g, foldlM_cons_eq_ok.mpr ⟨h, bind_eq_ok.mpr ⟨gx, hgx, hh⟩, hg⟩, ?_⟩
    simpa only [exists_mem_cons_iff, or_assoc] using hall

theorem mapJoinLeft_says (hne : l ≠ []) (hmap : ∀ x ∈ l, ∃ g, map x = .ok g ∧ Says S I vl g (P x)) :
    ∃ g, mapJoinLeft map Term.tOr l = .ok g ∧ Says S I vl g fun τ ρ => ∃ x ∈ l, P x τ ρ := by
  cases l with
  | nil => exact absurd rfl hne
  | cons x l =>
    rw [forall_mem_cons] at hmap
    obtain ⟨gx, hgx, hx⟩ := hmap.1
    obtain ⟨g, hg, hall⟩ := hx.foldlM_tOr hmap.2
    exact ⟨g, bind_eq_ok.mpr ⟨gx, hgx, hg⟩, by
      simpa only [exists_mem_cons_iff] using hall⟩

theorem Says.tForallClose (hf : Says S I vl f Q) :
    ∃ g, Term.tForallClose vl [] f = .ok g ∧ Says S I [] g fun τ ρ =>
      ∀ ds, I.Typed τ (vl.map VSymbol.vsTy) ds → Q τ (assign ρ (vl.zip ds)) := by
  have hok : ∃ g, Term.tForallClose vl [] f = .ok g ∧ ∀ v ∈ g.freeVars, v ∈ f.freeVars ∧ v ∉ vl := by
    unfold Term.tForallClose
    split
    · next hnil =>
        refine ⟨f, tProp_of_wellTyped hf.typed, fun v hv => ⟨hv, ?_⟩⟩
        rw [List.isEmpty_iff.mp hnil]
        exact not_mem_nil
    · next hne =>
        refine ⟨_, rfl, fun v hv => ?_⟩
        obtain ⟨hv, hmem⟩ := (mem_freeVars_tQuantClose_iff (by simpa using hne)).mp hv
        exact ⟨hv.resolve_left (by simp), hmem⟩
  obtain ⟨g, hg, hvars⟩ := hok
  refine ⟨g, hg, hf.typed.tForallClose hg, fun v hv => ?_, fun {τ ρ} hρ => ?_⟩
  · exact absurd (hf.vars v (hvars v hv).1) (hvars v hv).2
  · rw [holds_tForallClose hg]
    exact forall₂_congr fun ds hds => hf.holds (hρ.assign_zip hds)

end Says

def ClausesTyped (S : DataSig) (sps : List LSymbol) (id : IndDecl) : Prop :=
  ∀ ax ∈ id.2, ax.2.freeVars = [] ∧ IndClause sps id.1 ax.2 ∧ WellTyped S [] ax.2 none

def DerivedAt (I : Interp D) (id : IndDecl) (τ : TyVal) (ds : List D) : Prop :=
  ∃ ax ∈ id.2, ∃ ρ, I.Derives τ ρ [] ax.2 ds

theorem ClausesTyped.derivedAt_iff (h : ClausesTyped S sps id) (ρ : VSymbol → D) {ds : List D} :
    DerivedAt I id τ ds ↔ ∃ ax ∈ id.2, I.Derives τ ρ [] ax.2 ds := by
  constructor
  · rintro ⟨ax, hax, ρ', hder⟩
    exact ⟨ax, hax, (AgreeOn.refl (fun _ => True) I).derives ax.2 [] (fun _ _ => trivial)
      (by simp [(h ax hax).1]) hder⟩
  · rintro ⟨ax, hax, hder⟩
    exact ⟨ax, hax, ρ, hder⟩

theorem Chain.head (hc : Chain ps c) : ∀ {Γ : List Ty}, WellTyped S Γ c none →
    (ps.lsConstr = 0 ∨ ∃ ts, ps ∈ S.constrs ts) ∧ ps.lsValue = none := by
  induction hc with
  | tforall _ ih =>
    intro Γ h
    cases h with
    | tquant _ _ _ hf => exact ih hf
  | timplies _ ih =>
    intro Γ h
    cases h with
    | tbinop _ _ _ hf => exact ih hf
  | tlet _ ih =>
    intro Γ h
    cases h with
    | tlet _ _ hf => exact ih hf
  | tapp _ =>
    intro Γ h
    cases h with
    | tapp _ σ hls ho _ _ => exact ⟨hls, Option.map_eq_none_iff.mp ho.symm⟩

/-- The inversion axiom says that the arguments have been derived at their own types. -/
theorem inversion_says (hI : I.Sound) (n : ℕ) (hne : id.2 ≠ []) (hid : ClausesTyped S sps id) :
    ∃ f, inversion n id = .ok f ∧ Says S I [] f fun τ _ =>
      ∀ ds, I.Typed τ id.1.lsArgs ds → I.pr id.1 ds → DerivedAt I id τ ds := by
  have htys := map_vsTy_freshOf n id.1.lsArgs
  have hlen := length_freshOf n id.1.lsArgs
  set zl := freshOf n id.1.lsArgs with hzl
  have hbelow : ∀ z ∈ zl, z.vsName.idTag < n + id.1.lsArgs.length := fun z hz => (mem_freshOf hz).2
  -- the predicate
  have hhdty : WellTyped S [] (tapp [] id.1 (zl.map (tvar [])) none) none := by
    obtain ⟨ax, hax⟩ := exists_mem_of_ne_nil _ hne
    obtain ⟨_, hcl, hty⟩ := hid ax hax
    obtain ⟨hls, hvalue⟩ := hcl.chain.head hty
    have hmatch : ArgsMatch .tyvar id.1 (zl.map (tvar [])) := by
      rw [ArgsMatch, ← htys]
      simp [Function.comp_def, tTy, Ty.vMap_tyvar_eq_self]
    have := WellTyped.of_argsMatch (S := S) (Γ := []) [] hls hmatch (by
      intro t ht
      obtain ⟨z, _, rfl⟩ := mem_map.mp ht
      exact ⟨_, .tvar [] z⟩)
    rwa [hvalue] at this
  have hhd : Says S I zl (tapp [] id.1 (zl.map (tvar [])) none) fun _ ρ => I.pr id.1 (zl.map ρ) := by
    refine ⟨hhdty, fun v hv => ?_, fun _ => ?_⟩
    · obtain ⟨t, ht, hv⟩ := mem_freeVarsList.mp hv
      obtain ⟨z, hz, rfl⟩ := mem_map.mp ht
      exact mem_singleton.mp hv ▸ hz
    · simp [Holds, Function.comp_def]
  -- the clauses
  have hclause : ∀ ax ∈ id.2, ∃ g, exi (zl.map (tvar [])) (n + id.1.lsArgs.length) ax = .ok g ∧
      Says S I zl g fun τ ρ => I.Derives τ ρ [] ax.2 (zl.map ρ) := by
    intro ax hax
    obtain ⟨hfv, hcl, hty⟩ := hid ax hax
    have hdual : Says S I zl (dual (zl.map (tvar [])) ax.2) fun τ ρ =>
        I.Derives τ ρ [] ax.2 (zl.map ρ) := by
      refine ⟨hcl.wellTyped_dual htys hty, fun v hv => ?_, fun _ =>
        hcl.chain.eval_dual hI hlen []⟩
      exact (hcl.chain.mem_freeVars_dual hv).resolve_left (by simp [hfv])
    obtain ⟨g, hg, hrw⟩ := descend_rewrites hI hlen hcl.chain hdual.typed
      fun v hv => hbelow v (hdual.vars v hv)
    exact ⟨g, hg, hdual.rewrites hrw⟩
  obtain ⟨dj, hdj, hdjs⟩ := mapJoinLeft_says hne hclause
  obtain ⟨f, hf, hfs⟩ := hhd.tImplies hdjs
  obtain ⟨g, hg, hrw⟩ := fmlaRemoveQuant_spec hI (fun _ => false) false hfs.typed
    fun v hv => hbelow v (hfs.vars v hv)
  obtain ⟨h, hh, hhs⟩ := (hfs.rewrites hrw).tForallClose
  refine ⟨h, ?_, hhs.typed, hhs.vars, fun {τ ρ} hρ => ?_⟩
  · exact bind₃_eq_ok.mpr ⟨_, tApp_of_wellTyped hhdty, dj, hdj, f, hf, bind_eq_ok.mpr ⟨g, hg, hh⟩⟩
  · rw [hhs.holds hρ, htys]
    refine forall₂_congr fun ds hds => ?_
    have hmap : zl.map (assign ρ (zl.zip ds)) = ds :=
      map_assign_zip (nodup_freshOf n _) (hlen.trans hds.length_eq) ρ
    rw [hmap, hid.derivedAt_iff (assign ρ (zl.zip ds))]

end Why3
