import Why3.Logic.Boolean
import Why3.Logic.Map

/-!
# Maps by polarity

A map of formulas that makes them stronger for one sign and weaker for the other one is
extended to a formula by the polarity of its parts. An equivalence and the condition of a
conditional have both polarities.
-/

namespace Why3

open Lib Term Interp

/-- The second proposition is stronger than the first one, or weaker. -/
def Toward : Bool → Prop → Prop → Prop
  | true, p, q => q → p
  | false, p, q => p → q

variable {e f f1 f2 t u : Term} {τ : TyVal}

namespace Toward

variable {s : Bool} {p p' q q' r r' n n' : Prop}

theorem refl : Toward s p p := by
  cases s <;> exact id

theorem of_iff (h : q ↔ p) : Toward s p q := by
  cases s
  · exact h.mpr
  · exact h.mp

theorem not (h : Toward (!s) p q) : Toward s (¬ p) (¬ q) := by
  cases s <;> exact mt h

theorem and (h : Toward s p p') (h' : Toward s q q') : Toward s (p ∧ q) (p' ∧ q') := by
  cases s <;> exact And.imp h h'

theorem or (h : Toward s p p') (h' : Toward s q q') : Toward s (p ∨ q) (p' ∨ q') := by
  cases s <;> exact Or.imp h h'

theorem imp (h : Toward (!s) p p') (h' : Toward s q q') : Toward s (p → q) (p' → q') := by
  cases s <;> exact fun hpq hp => h' (hpq (h hp))

theorem forall_typed {α : Type} {T : α → Prop} {P Q : α → Prop}
    (h : ∀ x, T x → Toward s (P x) (Q x)) : Toward s (∀ x, T x → P x) (∀ x, T x → Q x) := by
  cases s <;> exact fun hall x hx => h x hx (hall x hx)

theorem exists_typed {α : Type} {T : α → Prop} {P Q : α → Prop}
    (h : ∀ x, T x → Toward s (P x) (Q x)) : Toward s (∃ x, T x ∧ P x) (∃ x, T x ∧ Q x) := by
  cases s <;> exact fun ⟨x, hx, hp⟩ => ⟨x, hx, h x hx hp⟩

theorem iff_of_both (h : Toward s p q) (h' : Toward (!s) p q) : q ↔ p := by
  cases s
  · exact ⟨h', h⟩
  · exact ⟨h, h'⟩

section Split

variable (hp : Toward s p p') (hn : Toward (!s) p n) (hq : Toward s q q')

include hp hn hq

/-- The two ways to split an equivalence by the polarities of its sides. -/
theorem iff (hn' : Toward (!s) q n') :
    Toward s (p ↔ q) ((n → q') ∧ (n' → p')) ∧ Toward s (p ↔ q) (n ∨ n' → p' ∧ q') := by
  cases s
  · refine ⟨fun h => ⟨fun h' => hq (h.mp (hn h')), fun h' => hp (h.mpr (hn' h'))⟩, fun h h' => ?_⟩
    have hor : p ∨ q := Or.imp hn hn' h'
    exact ⟨hp (hor.elim id h.mpr), hq (hor.elim h.mp id)⟩
  · exact ⟨fun h => ⟨fun h' => hq (h.1 (hn h')), fun h' => hp (h.2 (hn' h'))⟩,
      fun h => ⟨fun h' => hq (h (.inl (hn h'))).2, fun h' => hp (h (.inr (hn' h'))).1⟩⟩

/-- The two ways to split a conditional by the polarities of its condition. -/
theorem cond (hr : Toward s r r') :
    Toward s ((p → q) ∧ (¬ p → r)) ((n → q') ∧ (¬ p' → r')) ∧
      Toward s ((p → q) ∧ (¬ p → r)) (p' ∧ q' ∨ ¬ n ∧ r') := by
  refine ⟨(imp hn hq).and (imp (not (by rwa [Bool.not_not])) hr), ?_⟩
  cases s
  · intro h
    by_cases hif : p
    · exact .inl ⟨hp hif, hq (h.1 hif)⟩
    · exact .inr ⟨fun h' => hif (hn h'), hr (h.2 hif)⟩
  · rintro (⟨h, h'⟩ | ⟨h, h'⟩)
    · exact ⟨fun _ => hq h', fun hnot => absurd (hp h) hnot⟩
    · exact ⟨fun hif => absurd (hn hif) h, fun _ => hr h'⟩

end Split

end Toward

variable {S : DataSig} {D : Type} {I : Interp D} {pol s : Bool} {n : ℕ}

/-- The second formula is stronger than the first one under all values for the variables, or
weaker. -/
structure Directed (S : DataSig) (I : Interp D) (s : Bool) (f g : Term) : Prop where
  typed : WellTyped S [] g none
  holds : ∀ {τ ρ}, I.TypedVal τ ρ → Toward s (I.Holds τ ρ f) (I.Holds τ ρ g)

theorem Directed.attrCopy {g : Term} (a : List Attr) (h : Directed S I s f g) :
    Directed S I s f (g.attrCopy a) :=
  ⟨h.typed.attrCopy a, fun hρ => by
    rw [Holds, Holds, eval_attrCopy]
    exact h.holds hρ⟩

/-- With the sign `pol` the function makes the parts that are formulas stronger, and with the
other one weaker. Parts that have a value keep it. -/
structure DirectedParts (S : DataSig) (I : Interp D) (pol : Bool) (n : ℕ) (f : Term)
    (fn : Bool → ℕ → (u : Term) → Part u f → Except Exn Term) : Prop where
  formula : ∀ s, ∀ n' ≥ n, ∀ u (h : Part u f), WellTyped S [] u none → u.VarsBelow n' →
    ∃ u', fn s n' u h = .ok u' ∧ Directed S I (s == pol) u u'
  value : ∀ s, ∀ n' ≥ n, ∀ u (h : Part u f) ty, WellTyped S [] u (some ty) → u.VarsBelow n' →
    ∃ u', fn s n' u h = .ok u' ∧ WellTyped S [] u' (some ty) ∧
      ∀ {τ ρ}, I.TypedVal τ ρ → I.val τ ρ u' = I.val τ ρ u

theorem WellTyped.eval_eq_of_val (hI : I.Sound) {ty : Ty} (ht : WellTyped S [] t (some ty))
    (hu : WellTyped S [] u (some ty)) {ρ : VSymbol → D} (hρ : I.TypedVal τ ρ)
    (h : I.val τ ρ u = I.val τ ρ t) : I.eval τ ρ [] u = I.eval τ ρ [] t := by
  refine Prod.ext h ?_
  rw [(ht.eval_mem hI hρ .nil ty rfl).2, (hu.eval_mem hI hρ .nil ty rfl).2]

namespace DirectedParts

variable {f : Term} {fn : Bool → ℕ → (u : Term) → Part u f → Except Exn Term}

section

variable (h : DirectedParts S I pol n f fn)
include h

theorem rewrites (s : Bool) : RewritesParts S I ⟨fun _ _ => False, fun _ => True⟩ n f (fn s) := by
  intro n' hn' u hu o hut hbelow
  cases o with
  | none =>
    obtain ⟨u', hu', hmv⟩ := h.formula s n' hn' u hu hut hbelow
    exact ⟨u', hu', hmv.typed, fun _ => .inr trivial, fun hρ => hρ.2.elim⟩
  | some ty =>
    obtain ⟨u', hu', htyped, _⟩ := h.value s n' hn' u hu ty hut hbelow
    exact ⟨u', hu', htyped, fun _ => .inr trivial, fun hρ => hρ.2.elim⟩

theorem tMap_ok (hI : I.Sound) (hf : WellTyped S [] f none) (hn : f.VarsBelow n) (s : Bool) :
    ∃ g, tMap n f (fn s) = .ok g ∧ WellTyped S [] g none := by
  obtain ⟨g, hg, hrw⟩ := tMap_spec hI (fun _ _ _ _ h => h) hf hn (h.rewrites s)
  exact ⟨g, hg, hrw.typed⟩

theorem directed {n' : ℕ} (hn' : n ≤ n') {u' : Term} {hu : Part u f} (hut : WellTyped S [] u none)
    (hbelow : u.VarsBelow n') (hfn : checkTy u (fn s n' u hu) = .ok u') :
    Directed S I (s == pol) u u' := by
  obtain ⟨w, hw, hmv⟩ := h.formula s n' hn' u hu hut hbelow
  rw [checkTy_ok hw (hmv.typed.tTy_eq.trans hut.tTy_eq.symm)] at hfn
  exact Except.ok.inj hfn ▸ hmv

theorem keeps (hI : I.Sound) {n' : ℕ} (hn' : n ≤ n') {u' : Term} {hu : Part u f} {ty : Ty}
    (hut : WellTyped S [] u (some ty)) (hbelow : u.VarsBelow n')
    (hfn : checkTy u (fn s n' u hu) = .ok u') {ρ : VSymbol → D} (hρ : I.TypedVal τ ρ) :
    I.eval τ ρ [] u' = I.eval τ ρ [] u := by
  obtain ⟨w, hw, htyped, hval⟩ := h.value s n' hn' u hu ty hut hbelow
  rw [checkTy_ok hw (htyped.tTy_eq.trans hut.tTy_eq.symm)] at hfn
  exact Except.ok.inj hfn ▸ hut.eval_eq_of_val hI htyped hρ (hval hρ)

end

end DirectedParts

/-! ## Parts of one polarity -/

section Same

variable {a : List Attr} {τ : TyVal} {ρ : VSymbol → D} {g : Term}

/-- Bodies are compared with values for the variables they are opened with. -/
theorem Directed.toward_body {ul : List VSymbol} {r : Term} (h : Directed S I s (openVars ul e) r)
    (hopen : Opens (D := D) .free ul e) (hρ : I.TypedVal τ ρ) {ds : List D}
    (hds : I.Typed τ (ul.map VSymbol.vsTy) ds) :
    Toward s (I.eval τ ρ ds e).2 (I.eval τ ρ ds (closeVars ul r)).2 := by
  have hmv := h.holds (hρ.assign_zip hds)
  rwa [Holds, Holds, hopen.eval_open hds, ← eval_close hds] at hmv

theorem DirectedParts.tbinop {op : Binop}
    {fn : Bool → ℕ → (u : Term) → Part u (.tbinop a op f1 f2) → Except Exn Term}
    (h : DirectedParts S I pol n (.tbinop a op f1 f2) fn) (hop : op = .tand ∨ op = .tor)
    (ht : WellTyped S [] (.tbinop a op f1 f2) none) (hn : VarsBelow n (.tbinop a op f1 f2))
    (hg : tMap n (.tbinop a op f1 f2) (fn s) = .ok g) (hρ : I.TypedVal τ ρ) :
    Toward (s == pol) (I.Holds τ ρ (.tbinop a op f1 f2)) (I.Holds τ ρ g) := by
  obtain ⟨g1, hg1, g2, hg2, hg⟩ := bind₂_eq_ok.mp hg
  cases hg
  cases ht with
  | tbinop _ _ h1 h2 =>
    have hm1 := (h.directed (le_refl n) h1 hn.tbinop.1 hg1).holds hρ
    have hm2 := (h.directed (le_refl n) h2 hn.tbinop.2 hg2).holds hρ
    rw [Holds, Holds, eval_attrCopy]
    rcases hop with rfl | rfl
    · exact hm1.and hm2
    · exact hm1.or hm2

theorem DirectedParts.tlet (hI : I.Sound) {v : VSymbol}
    {fn : Bool → ℕ → (u : Term) → Part u (.tlet a t v e) → Except Exn Term}
    (h : DirectedParts S I pol n (.tlet a t v e) fn) (ht : WellTyped S [] (.tlet a t v e) none)
    (hn : VarsBelow n (.tlet a t v e)) (hg : tMap n (.tlet a t v e) (fn s) = .ok g)
    (hρ : I.TypedVal τ ρ) : Toward (s == pol) (I.Holds τ ρ (.tlet a t v e)) (I.Holds τ ρ g) := by
  obtain ⟨t', ht', e', he', _, _, hg⟩ := bind₃_eq_ok.mp hg
  cases hg
  cases ht with
  | tlet _ ht he =>
    have hbelow := hn.tlet.2
    have hval := h.keeps hI (le_refl n) ht hn.tlet.1 ht' hρ
    have hmv := h.directed (Nat.le_succ n) (WellTyped.openVars [boundVar n v] he)
      (.openVars hbelow (Nat.le_succ n) (by simp)) he'
    rw [Holds, Holds, eval_attrCopy, tLetClose, eval_tlet, eval_tlet, hval]
    exact hmv.toward_body (opens_boundVar (RewriteCtx.stable_free n) hbelow v) hρ
      (.cons (ht.eval_mem hI hρ .nil _ rfl).1 .nil)

theorem DirectedParts.tquant {q : Quant} {vl : List VSymbol} {trl : List (List Term)}
    {fn : Bool → ℕ → (u : Term) → Part u (.tquant a q vl trl e) → Except Exn Term}
    (h : DirectedParts S I pol n (.tquant a q vl trl e) fn)
    (ht : WellTyped S [] (.tquant a q vl trl e) none) (hn : VarsBelow n (.tquant a q vl trl e))
    (hg : tMap n (.tquant a q vl trl e) (fn s) = .ok g) (hρ : I.TypedVal τ ρ) :
    Toward (s == pol) (I.Holds τ ρ (.tquant a q vl trl e)) (I.Holds τ ρ g) := by
  obtain ⟨e', he', srl, _, f', hprop, hg⟩ := bind₃_eq_ok.mp hg
  cases hg
  obtain rfl : e' = f' := (tProp_eq_ok.mp hprop).2.symm
  cases ht with
  | tquant _ _ _ he =>
    have htys := map_vsTy_freshLike n vl
    have hbelow := hn.tquant.2
    rw [← htys] at he
    have hmv := h.directed (Nat.le_add_right n _) (WellTyped.openVars _ he)
      (.openVars hbelow (Nat.le_add_right n _) fun u hu => (idTag_of_mem_freshLike hu).2) he'
    have hopen := opens_freshLike (D := D) (RewriteCtx.stable_free n) hbelow vl
    have hbody : ∀ ds, I.Typed τ (vl.map VSymbol.vsTy) ds →
        Toward (s == pol) (I.eval τ ρ (ds ++ []) e).2
          (I.eval τ (assign ρ ((freshLike n vl).zip ds)) [] e').2 := by
      intro ds hds
      rw [← htys] at hds
      rw [List.append_nil, ← eval_close hds]
      exact hmv.toward_body hopen hρ hds
    rw [Holds, Holds, eval_attrCopy]
    cases q with
    | tforall =>
      rw [eval_forall_close, htys]
      exact .forall_typed hbody
    | texists =>
      rw [eval_exists_close, htys]
      exact .exists_typed hbody

theorem DirectedParts.tcase (hI : I.Sound) {bl : List (Pattern × Term)}
    {fn : Bool → ℕ → (u : Term) → Part u (.tcase a t bl) → Except Exn Term}
    (h : DirectedParts S I pol n (.tcase a t bl) fn) (ht : WellTyped S [] (.tcase a t bl) none)
    (hn : VarsBelow n (.tcase a t bl)) (hg : tMap n (.tcase a t bl) (fn s) = .ok g)
    (hρ : I.TypedVal τ ρ) : Toward (s == pol) (I.Holds τ ρ (.tcase a t bl)) (I.Holds τ ρ g) := by
  obtain ⟨t', ht', cl, hcl, g, hcase, hg⟩ := bind₃_eq_ok.mp hg
  cases hg
  obtain ⟨rfl, _⟩ := tCase_spec hcase
  cases ht with
  | tcase _ ht _ _ hp hbl =>
    have hval := h.keeps hI (le_refl n) ht hn.tcase.1 ht' hρ
    rw [Holds, Holds, eval_attrCopy, eval_tcase, eval_tcase, hval]
    refine evalBranches_fresh (S := S) (n := n) (R := fun x y => Toward (s == pol) y.2 x.2) hI
      (fun _ => .refl) (ht.eval_mem hI hρ .nil _ rfl).1 ((forall₂_of_mapMem hcl).imp ?_)
    rintro b c ⟨hb, hc⟩
    obtain ⟨e', he', hc⟩ := bind_eq_ok.mp hc
    cases hc
    have hbelow := hn.tcase.2 b hb
    have he := hbl b hb
    rw [← map_vsTy_freshLike n b.1.vars] at he
    have hmv := h.directed (Nat.le_add_right n _) (WellTyped.openVars _ he)
      (.openVars hbelow (Nat.le_add_right n _) fun u hu => (idTag_of_mem_freshLike hu).2) he'
    refine ⟨hp b hb, rfl, fun ds hds => ?_⟩
    rw [tCloseBranch, vars_fresh (hp b hb).1]
    exact hmv.toward_body (opens_freshLike (RewriteCtx.stable_free n) hbelow _) hρ
      (by rwa [map_vsTy_freshLike])

theorem DirectedParts.tapp (hI : I.Sound) {ls : LSymbol} {tl : List Term} {o : Option Ty}
    {fn : Bool → ℕ → (u : Term) → Part u (.tapp a ls tl o) → Except Exn Term}
    (h : DirectedParts S I pol n (.tapp a ls tl o) fn) (ht : WellTyped S [] (.tapp a ls tl o) none)
    (hn : VarsBelow n (.tapp a ls tl o)) (hg : tMap n (.tapp a ls tl o) (fn s) = .ok g)
    (hρ : I.TypedVal τ ρ) : Toward (s == pol) (I.Holds τ ρ (.tapp a ls tl o)) (I.Holds τ ρ g) := by
  have hparts : RewritesParts S I ⟨fun _ _ => True, fun _ => True⟩ n _ (fn s) := by
    rintro n' hn' u ⟨hmem⟩ o hut hbelow
    obtain ⟨ty, hty⟩ := ht.args u hmem
    obtain rfl : some ty = o := hty.tTy_eq.symm.trans hut.tTy_eq
    obtain ⟨u', hu', htyped, hval⟩ := h.value s n' hn' u (.app hmem) ty hty hbelow
    exact ⟨u', hu', htyped, fun _ => .inr trivial, fun hρ =>
      hty.eval_eq_of_val hI htyped hρ.1 (hval hρ.1)⟩
  obtain ⟨g', hg', hrw⟩ := tMap_spec hI (fun _ _ _ _ h => h) ht hn hparts
  obtain rfl : g' = g := Except.ok.inj (hg'.symm.trans hg)
  rw [Holds, Holds, hrw.eval ⟨hρ, trivial⟩]
  exact .refl

end Same

/-! ## Parts of both polarities -/

theorem not_beq_pol (s pol : Bool) : ((!s) == pol) = !(s == pol) := by
  cases s <;> cases pol <;> rfl

section Both

variable {a : List Attr}

theorem DirectedParts.both {fn : Bool → ℕ → (u : Term) → Part u f → Except Exn Term}
    (h : DirectedParts S I pol n f fn) (hu : Part u f) (hut : WellTyped S [] u none)
    (hbelow : u.VarsBelow n) (s : Bool) : ∃ up un, fn s n u hu = .ok up ∧
      fn (!s) n u hu = .ok un ∧ Directed S I (s == pol) u up ∧ Directed S I (!(s == pol)) u un := by
  obtain ⟨up, hup, hp⟩ := h.formula s n (le_refl n) u hu hut hbelow
  obtain ⟨un, hun, hn⟩ := h.formula (!s) n (le_refl n) u hu hut hbelow
  exact ⟨up, un, hup, hun, hp, not_beq_pol s pol ▸ hn⟩

theorem Directed.holds_iff (hI : I.Sound) {up un : Term} (hp : Directed S I s u up)
    (hn : Directed S I (!s) u un) (heq : tEqual up un = true) {ρ : VSymbol → D}
    (hρ : I.TypedVal τ ρ) : I.Holds τ ρ up ↔ I.Holds τ ρ u := by
  have hn' := hn.holds hρ
  rw [Holds, Holds, ← eval_of_tEqual hI hp.typed hn.typed heq] at hn'
  exact (hp.holds hρ).iff_of_both hn'

theorem DirectedParts.tiff (hI : I.Sound)
    {fn : Bool → ℕ → (u : Term) → Part u (.tbinop a .tiff f1 f2) → Except Exn Term}
    (h : DirectedParts S I pol n (.tbinop a .tiff f1 f2) fn) (h1 : WellTyped S [] f1 none)
    (h2 : WellTyped S [] f2 none) (hn : VarsBelow n (.tbinop a .tiff f1 f2)) (s : Bool) :
    ∃ g, tMapSign n s (.tbinop a .tiff f1 f2) fn = .ok g ∧
      Directed S I (s == pol) (.tbinop a .tiff f1 f2) g := by
  obtain ⟨p1, n1, hp1, hn1, hmp1, hmn1⟩ := h.both .left h1 hn.tbinop.1 s
  obtain ⟨p2, n2, hp2, hn2, hmp2, hmn2⟩ := h.both .right h2 hn.tbinop.2 s
  simp only [tMapSign, hp1, hn1, hp2, hn2, bind, Except.bind]
  split_ifs with heq hs
  · rw [Bool.and_eq_true] at heq
    refine ⟨_, bind_eq_ok.mpr ⟨_, tBinary_of_wellTyped hmp1.typed hmp2.typed .tiff, rfl⟩,
      Directed.attrCopy a ⟨.tbinop [] _ hmp1.typed hmp2.typed, fun hρ => ?_⟩⟩
    have hiff := iff_congr (hmp1.holds_iff hI hmn1 heq.1 hρ) (hmp2.holds_iff hI hmn2 heq.2 hρ)
    exact .of_iff hiff
  · have hl := WellTyped.tbinop [] .timplies hmn1.typed hmp2.typed
    have hr := WellTyped.tbinop [] .timplies hmn2.typed hmp1.typed
    simp only [tImplies, tAnd, tBinary_of_wellTyped hmn1.typed hmp2.typed,
      tBinary_of_wellTyped hmn2.typed hmp1.typed, tBinary_of_wellTyped hl hr]
    refine ⟨_, rfl, Directed.attrCopy a ⟨.tbinop [] _ hl hr, fun hρ => ?_⟩⟩
    exact ((hmp1.holds hρ).iff (hmn1.holds hρ) (hmp2.holds hρ) (hmn2.holds hρ)).1
  · have hl := WellTyped.tbinop [] .tor hmn1.typed hmn2.typed
    have hr := WellTyped.tbinop [] .tand hmp1.typed hmp2.typed
    simp only [tImplies, tOr, tAnd, tBinary_of_wellTyped hmn1.typed hmn2.typed,
      tBinary_of_wellTyped hmp1.typed hmp2.typed, tBinary_of_wellTyped hl hr]
    refine ⟨_, rfl, Directed.attrCopy a ⟨.tbinop [] _ hl hr, fun hρ => ?_⟩⟩
    exact ((hmp1.holds hρ).iff (hmn1.holds hρ) (hmp2.holds hρ) (hmn2.holds hρ)).2

theorem holds_tif {g : Term} {ρ : VSymbol → D} : I.Holds τ ρ (.tif a f g e) ↔
    (I.Holds τ ρ f → I.Holds τ ρ g) ∧ (¬ I.Holds τ ρ f → I.Holds τ ρ e) := by
  rw [Holds, eval_tif]
  split_ifs with h
  · exact ⟨fun hg => ⟨fun _ => hg, absurd h⟩, fun hall => hall.1 h⟩
  · exact ⟨fun he => ⟨(absurd · h), fun _ => he⟩, fun hall => hall.2 h⟩

theorem DirectedParts.tif (hI : I.Sound) {f3 : Term}
    {fn : Bool → ℕ → (u : Term) → Part u (.tif a f1 f2 f3) → Except Exn Term}
    (h : DirectedParts S I pol n (.tif a f1 f2 f3) fn) (h1 : WellTyped S [] f1 none)
    (h2 : WellTyped S [] f2 none) (h3 : WellTyped S [] f3 none) (hn : VarsBelow n (.tif a f1 f2 f3))
    (s : Bool) :
    ∃ g, tMapSign n s (.tif a f1 f2 f3) fn = .ok g ∧
      Directed S I (s == pol) (.tif a f1 f2 f3) g := by
  obtain ⟨p1, n1, hp1, hn1, hmp1, hmn1⟩ := h.both .ifCond h1 hn.tif.1 s
  obtain ⟨g2, hg2, hm2⟩ := h.formula s n (le_refl n) _ .ifThen h2 hn.tif.2.1
  obtain ⟨g3, hg3, hm3⟩ := h.formula s n (le_refl n) _ .ifElse h3 hn.tif.2.2
  have hty := (WellTyped.tif a h1 h2 h3).tTy_eq
  simp only [tMapSign, if_pos hty, hp1, hn1, hg2, hg3, bind, Except.bind]
  split_ifs with heq hs
  · have hcheck : tTyCheck g3 g2.tTy = .ok () := by
      rw [hm2.typed.tTy_eq, ← hm3.typed.tTy_eq]
      exact tTyCheck_self g3
    simp only [tIf, hcheck, tProp_of_wellTyped hmp1.typed, bind, Except.bind]
    refine ⟨_, rfl, Directed.attrCopy a ⟨.tif [] hmp1.typed hm2.typed hm3.typed, fun hρ => ?_⟩⟩
    rw [holds_tif, holds_tif]
    have hc := hmp1.holds_iff hI hmn1 heq hρ
    exact (Toward.imp (.of_iff hc) (hm2.holds hρ)).and (.imp (.of_iff (not_congr hc))
      (hm3.holds hρ))
  · have hl := WellTyped.tbinop [] .timplies hmn1.typed hm2.typed
    have hnot := WellTyped.tnot [] hmp1.typed
    have hr := WellTyped.tbinop [] .timplies hnot hm3.typed
    simp only [tImplies, tAnd, tBinary_of_wellTyped hmn1.typed hm2.typed,
      tNot_of_wellTyped hmp1.typed, tBinary_of_wellTyped hnot hm3.typed, tBinary_of_wellTyped hl hr]
    refine ⟨_, rfl, Directed.attrCopy a ⟨.tbinop [] _ hl hr, fun hρ => ?_⟩⟩
    rw [holds_tif]
    exact ((hmp1.holds hρ).cond (hmn1.holds hρ) (hm2.holds hρ) (hm3.holds hρ)).1
  · have hl := WellTyped.tbinop [] .tand hmp1.typed hm2.typed
    have hnot := WellTyped.tnot [] hmn1.typed
    have hr := WellTyped.tbinop [] .tand hnot hm3.typed
    simp only [tOr, tAnd, tBinary_of_wellTyped hmp1.typed hm2.typed,
      tNot_of_wellTyped hmn1.typed, tBinary_of_wellTyped hnot hm3.typed, tBinary_of_wellTyped hl hr]
    refine ⟨_, rfl, Directed.attrCopy a ⟨.tbinop [] _ hl hr, fun hρ => ?_⟩⟩
    rw [holds_tif]
    exact ((hmp1.holds hρ).cond (hmn1.holds hρ) (hm2.holds hρ) (hm3.holds hρ)).2

end Both

/-! ## The map -/

/-- A map that makes the parts of a formula stronger with the sign `pol`, and weaker with the
other one, does so for the formula. -/
theorem tMapSign_directed (hI : I.Sound) {fn : Bool → ℕ → (u : Term) → Part u f → Except Exn Term}
    (hf : WellTyped S [] f none) (hn : f.VarsBelow n) (h : DirectedParts S I pol n f fn) (s : Bool) :
    ∃ g, tMapSign n s f fn = .ok g ∧ Directed S I (s == pol) f g := by
  -- the cases that are left to the plain map
  have hplain : tMapSign n s f fn = (do .ok (Term.attrCopy f.tAttrs (← tMap n f (fn s)))) →
      (∀ {g} {τ : TyVal} {ρ : VSymbol → D}, tMap n f (fn s) = .ok g → I.TypedVal τ ρ →
        Toward (s == pol) (I.Holds τ ρ f) (I.Holds τ ρ g)) →
      ∃ g, tMapSign n s f fn = .ok g ∧ Directed S I (s == pol) f g := by
    intro heq hholds
    obtain ⟨g, hg, htyped⟩ := h.tMap_ok hI hf hn s
    refine ⟨_, heq.trans (bind_eq_ok.mpr ⟨g, hg, rfl⟩), Directed.attrCopy _ ⟨htyped, ?_⟩⟩
    exact hholds hg
  have htyped := hf
  cases hf with
  | ttrue a | tfalse a =>
    refine hplain rfl fun hg _ => ?_
    cases hg
    exact .refl
  | tapp a σ hls ho hlen htl => exact hplain rfl fun hg hρ => h.tapp hI htyped hn hg hρ
  | tlet a ht he => exact hplain rfl fun hg hρ => h.tlet hI htyped hn hg hρ
  | tquant a q htr hf => exact hplain rfl fun hg hρ => h.tquant htyped hn hg hρ
  | tcase a ht hsat hne hp hbl => exact hplain rfl fun hg hρ => h.tcase hI htyped hn hg hρ
  | tnot a hf =>
    obtain ⟨g, hg, hmv⟩ := h.formula (!s) n (le_refl n) _ .neg hf hn
    refine ⟨_, bind₂_eq_ok.mpr ⟨g, hg, _,
      tNot_of_wellTyped hmv.typed, rfl⟩, Directed.attrCopy a ⟨.tnot [] hmv.typed, fun hρ => ?_⟩⟩
    exact .not (not_beq_pol s pol ▸ hmv.holds hρ)
  | tif a h1 h2 h3 => exact h.tif hI h1 h2 h3 hn s
  | @tbinop _ a op f1 f2 h1 h2 =>
    cases op with
    | tand => exact hplain rfl fun hg hρ => h.tbinop (.inl rfl) htyped hn hg hρ
    | tor => exact hplain rfl fun hg hρ => h.tbinop (.inr rfl) htyped hn hg hρ
    | tiff => exact h.tiff hI h1 h2 hn s
    | timplies =>
      obtain ⟨g1, hg1, hm1⟩ := h.formula (!s) n (le_refl n) _ .left h1 hn.tbinop.1
      obtain ⟨g2, hg2, hm2⟩ := h.formula s n (le_refl n) _ .right h2 hn.tbinop.2
      refine ⟨_, bind₃_eq_ok.mpr ⟨g2, hg2, g1, hg1, _, tBinary_of_wellTyped hm1.typed hm2.typed
        .timplies, rfl⟩, Directed.attrCopy a ⟨.tbinop [] _ hm1.typed hm2.typed, fun hρ => ?_⟩⟩
      exact .imp (not_beq_pol s pol ▸ hm1.holds hρ) (hm2.holds hρ)

/-- Where the parts get stronger with the sign `true` and weaker with the sign `false`, or the
other way round, so does the formula. -/
theorem tMapSign_sound (hI : I.Sound) {f : Term}
    {fn : Bool → ℕ → (u : Term) → Part u f → Except Exn Term} (hf : WellTyped S [] f none)
    (hn : f.VarsBelow n) (h : DirectedParts S I pol n f fn) :
    ∃ g g', tMapSign n true f fn = .ok g ∧ tMapSign n false f fn = .ok g' ∧
      ∀ τ ρ, I.TypedVal τ ρ → match pol with
        | true => (I.Holds τ ρ g → I.Holds τ ρ f) ∧ (I.Holds τ ρ f → I.Holds τ ρ g')
        | false => (I.Holds τ ρ f → I.Holds τ ρ g) ∧ (I.Holds τ ρ g' → I.Holds τ ρ f) := by
  obtain ⟨g, hg, hm⟩ := tMapSign_directed hI hf hn h true
  obtain ⟨g', hg', hm'⟩ := tMapSign_directed hI hf hn h false
  refine ⟨g, g', hg, hg', fun τ ρ hρ => ?_⟩
  cases pol
  · exact ⟨hm.holds hρ, hm'.holds hρ⟩
  · exact ⟨hm.holds hρ, hm'.holds hρ⟩

/-- The equivalence of true and false, each of which becomes false or true by the sign. -/
def trueIffFalse : Term := .tbinop [] .tiff (.ttrue []) (.tfalse [])

def constBySign (s : Bool) (_ : ℕ) (u : Term) (_ : Part u trueIffFalse) : Except Exn Term :=
  .ok (if s then .tfalse [] else .ttrue [])

theorem tMapSign_sound_trueIffFalse :
    ∃ g g', tMapSign 0 true trueIffFalse constBySign = .ok g ∧
      tMapSign 0 false trueIffFalse constBySign = .ok g' ∧
      ∀ τ ρ, twoValued.TypedVal τ ρ →
        (twoValued.Holds τ ρ g → twoValued.Holds τ ρ trueIffFalse) ∧
          (twoValued.Holds τ ρ trueIffFalse → twoValued.Holds τ ρ g') := by
  have h : DirectedParts boolSig twoValued true 0 trueIffFalse constBySign := by
    constructor
    · intro s n' _ u hu _ _
      refine ⟨_, rfl, ?_, fun _ => ?_⟩
      · cases s
        exacts [.ttrue [], .tfalse []]
      · cases s
        exacts [fun _ => trivial, False.elim]
    · intro s n' _ u hu ty hut
      cases hu <;> cases hut
  exact tMapSign_sound twoValued_sound (.tbinop [] .tiff (.ttrue []) (.tfalse []))
    (by simp [VarsBelow, freeVars]) h

end Why3
