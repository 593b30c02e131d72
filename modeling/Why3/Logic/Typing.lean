import Why3.Logic.Agree

/-!
# Well-typed terms

Typing of patterns and of terms relative to the constructors of the algebraic
types, interpretations that respect it, and the fact that the value of a term lies
in the carrier of its type.
-/

namespace Why3

open Term List

/-- The constructors of the algebraic types. A type without constructors is
abstract. -/
structure DataSig where
  constrs : TySymbol → List LSymbol
  value : ∀ {ts cs}, cs ∈ constrs ts → cs.lsValue = some (.tyapp ts (ts.tsArgs.map .tyvar))
  freevars : ∀ {ts cs}, cs ∈ constrs ts → ∀ ty ∈ cs.lsArgs, ∀ v ∈ ty.freevars, v ∈ ts.tsArgs
  saturated : ∀ {ts cs}, cs ∈ constrs ts → ∀ ty ∈ cs.lsArgs, ty.saturated = true
  count : ∀ {ts cs}, cs ∈ constrs ts → cs.lsConstr = (constrs ts).length
  nodup : ∀ ts, (constrs ts).Nodup

variable (S : DataSig)

inductive PatTyped : Pattern → Prop where
  | pwild (ty : Ty) : PatTyped (.pwild ty)
  | pvar (v : VSymbol) : PatTyped (.pvar v)
  | papp {fs : LSymbol} {pl : List Pattern} {ts : TySymbol} {tl : List Ty}
      (hl : tl.length = ts.tsArgs.length) (hfs : fs ∈ S.constrs ts)
      (hty : pl.map Pattern.patTy = fs.lsArgs.map (Ty.vMap (paramMap ts tl)))
      (hvars : (Pattern.varsList pl).Nodup) (hpl : ∀ p ∈ pl, PatTyped p) :
      PatTyped (.papp fs pl (.tyapp ts tl))
  | por {p q : Pattern} (hp : PatTyped p) (hq : PatTyped q) (hty : p.patTy = q.patTy)
      (hvars : ∀ v, v ∈ p.vars ↔ v ∈ q.vars) : PatTyped (.por p q)
  | pas {p : Pattern} {v : VSymbol} (hp : PatTyped p) (hty : p.patTy = v.vsTy)
      (hv : v ∉ p.vars) : PatTyped (.pas p v)

variable {S} in
theorem PatTyped.nodup {p : Pattern} (h : PatTyped S p) : p.vars.Nodup := by
  induction h with
  | pwild | pvar => simp [Pattern.vars]
  | papp _ _ _ hvars _ _ => exact hvars
  | por _ _ _ _ ihp _ => exact ihp
  | pas _ _ hv ih =>
    rw [Pattern.vars, nodup_append]
    refine ⟨ih, by simp, ?_⟩
    intro w hw w' hw' heq
    rw [mem_singleton] at hw'
    exact hv (hw' ▸ heq ▸ hw)

/-- Well-typed terms, the indices having the types `Γ`. The type is that of
`tTy`, `none` for formulas. -/
inductive WellTyped : List Ty → Term → Option Ty → Prop where
  | tvar {Γ : List Ty} (a : List Attr) (v : VSymbol) : WellTyped Γ (.tvar a v) (some v.vsTy)
  | tbnd {Γ : List Ty} (a : List Attr) {i : ℕ} {ty : Ty} (hi : Γ[i]? = some ty) :
      WellTyped Γ (.tbnd a i ty) (some ty)
  | tconst {Γ : List Ty} (a : List Attr) (c : Constant) (ty : Ty) :
      WellTyped Γ (.tconst a c ty) (some ty)
  | tapp {Γ : List Ty} (a : List Attr) {ls : LSymbol} {tl : List Term} {o : Option Ty} (σ : TyVal)
      (hls : ls.lsConstr = 0 ∨ ∃ ts, ls ∈ S.constrs ts) (ho : o = ls.lsValue.map (Ty.vMap σ))
      (hlen : tl.length = ls.lsArgs.length)
      (htl : ∀ (i : ℕ) (t : Term) (ty : Ty), tl[i]? = some t → ls.lsArgs[i]? = some ty →
        WellTyped Γ t (some (Ty.vMap σ ty))) : WellTyped Γ (.tapp a ls tl o) o
  | tif {Γ : List Ty} (a : List Attr) {f t e : Term} {o : Option Ty} (hf : WellTyped Γ f none)
      (ht : WellTyped Γ t o) (he : WellTyped Γ e o) : WellTyped Γ (.tif a f t e) o
  | tlet {Γ : List Ty} (a : List Attr) {t e : Term} {v : VSymbol} {o : Option Ty}
      (ht : WellTyped Γ t (some v.vsTy)) (he : WellTyped (v.vsTy :: Γ) e o) :
      WellTyped Γ (.tlet a t v e) o
  | tcase {Γ : List Ty} (a : List Attr) {t : Term} {ty : Ty} {bl : List (Pattern × Term)}
      {o : Option Ty} (ht : WellTyped Γ t (some ty)) (hsat : ty.saturated = true) (hne : bl ≠ [])
      (hp : ∀ b ∈ bl, PatTyped S b.1 ∧ b.1.patTy = ty)
      (hbl : ∀ b ∈ bl, WellTyped (b.1.vars.map VSymbol.vsTy ++ Γ) b.2 o) :
      WellTyped Γ (.tcase a t bl) o
  | teps {Γ : List Ty} (a : List Attr) {v : VSymbol} {f : Term}
      (hf : WellTyped (v.vsTy :: Γ) f none) : WellTyped Γ (.teps a v f) (some v.vsTy)
  | tquant {Γ : List Ty} (a : List Attr) (q : Quant) {vl : List VSymbol}
      {trl : List (List Term)} {f : Term}
      (htr : ∀ tl ∈ trl, ∀ t ∈ tl, WellTyped (vl.map VSymbol.vsTy ++ Γ) t t.tTy)
      (hf : WellTyped (vl.map VSymbol.vsTy ++ Γ) f none) : WellTyped Γ (.tquant a q vl trl f) none
  | tbinop {Γ : List Ty} (a : List Attr) (op : Binop) {f g : Term} (hf : WellTyped Γ f none)
      (hg : WellTyped Γ g none) : WellTyped Γ (.tbinop a op f g) none
  | tnot {Γ : List Ty} (a : List Attr) {f : Term} (hf : WellTyped Γ f none) :
      WellTyped Γ (.tnot a f) none
  | ttrue {Γ : List Ty} (a : List Attr) : WellTyped Γ (.ttrue a) none
  | tfalse {Γ : List Ty} (a : List Attr) : WellTyped Γ (.tfalse a) none

variable {S} in
theorem WellTyped.tTy_eq {Γ : List Ty} {t : Term} {o : Option Ty} (h : WellTyped S Γ t o) :
    t.tTy = o := by
  induction h with
  | tif a _ _ _ _ iht _ => exact iht
  | tlet a _ _ _ ihe => exact ihe
  | @tcase Γ a t ty bl o _ _ hne _ _ _ ih =>
    cases bl with
    | nil => exact absurd rfl hne
    | cons b bl => exact ih b mem_cons_self
  | _ => rfl

/-! ## Terms built by a constructor -/

def constrHead : Term → Bool
  | .tapp _ cs _ _ => decide (0 < cs.lsConstr)
  | _ => false

variable {S}

theorem WellTyped.constr {Γ : List Ty} {a : List Attr} {cs : LSymbol}
    {al : List Term} {o : Option Ty} {ty : Ty} (h : WellTyped S Γ (.tapp a cs al o) (some ty))
    (hcs : 0 < cs.lsConstr) :
    ∃ ts tl, ty = .tyapp ts tl ∧ tl.length = ts.tsArgs.length ∧ cs ∈ S.constrs ts ∧
      o = some ty ∧ Forall₂ (fun t ty => WellTyped S Γ t (some ty)) al
        (cs.lsArgs.map (Ty.vMap (paramMap ts tl))) := by
  obtain rfl : o = some ty := h.tTy_eq
  cases h with
  | tapp _ σ hls ho hlen hal =>
    rcases hls with h0 | ⟨ts, hts⟩
    · omega
    · rw [S.value hts, Option.map_some, Option.some.injEq, Ty.vMap_tyapp, map_map] at ho
      refine ⟨ts, _, ho, by simp, hts, rfl, ?_⟩
      rw [forall₂_iff_get]
      refine ⟨by simp [hlen], ?_⟩
      intro i hi hi'
      rw [length_map] at hi'
      have hty : Ty.vMap (paramMap ts (ts.tsArgs.map (Ty.vMap σ ∘ .tyvar))) cs.lsArgs[i] =
          Ty.vMap σ cs.lsArgs[i] := by
        apply Ty.vMap_congr
        intro v hv
        obtain ⟨j, hj⟩ := mem_iff_getElem?.mp
          (S.freevars hts _ (getElem_mem hi') v hv)
        exact paramMap_eq hj (by simp [hj, Ty.vMap])
      have := hal i al[i] cs.lsArgs[i] (getElem?_eq_getElem hi)
        (getElem?_eq_getElem hi')
      simpa [hty] using this

theorem WellTyped.constrInduction {Γ : List Ty} {P : Term → Ty → Prop}
    (hconstr : ∀ {a cs al ts tl}, tl.length = ts.tsArgs.length → cs ∈ S.constrs ts →
      Forall₂ (fun t ty => WellTyped S Γ t (some ty) ∧ P t ty) al
        (cs.lsArgs.map (Ty.vMap (paramMap ts tl))) →
      P (.tapp a cs al (some (.tyapp ts tl))) (.tyapp ts tl))
    (hother : ∀ {t ty}, WellTyped S Γ t (some ty) → constrHead t = false → P t ty)
    {t : Term} {o : Option Ty} (h : WellTyped S Γ t o) : ∀ ty, o = some ty → P t ty := by
  induction h with
  | @tapp Γ a ls tl o σ hls ho hlen htl ih =>
    rintro ty rfl
    have h : WellTyped S Γ (.tapp a ls tl (some ty)) (some ty) := .tapp a σ hls ho hlen htl
    by_cases hpos : 0 < ls.lsConstr
    · obtain ⟨ts, tys, rfl, hl, hmem, _, hal⟩ := h.constr hpos
      refine hconstr hl hmem ?_
      rw [forall₂_iff_get] at hal ⊢
      refine ⟨hal.1, fun i hi hi' => ⟨hal.2 i hi hi', ?_⟩⟩
      have hi₁ : i < ls.lsArgs.length := hlen ▸ hi
      have hti : tl[i]? = some (tl.get ⟨i, hi⟩) := getElem?_eq_getElem hi
      have htyi : ls.lsArgs[i]? = some ls.lsArgs[i] := getElem?_eq_getElem hi₁
      have heq := (htl i _ _ hti htyi).tTy_eq.symm.trans (hal.2 i hi hi').tTy_eq
      exact ih i _ _ hti htyi hconstr hother _ heq
    · exact hother h (by simpa [constrHead] using hpos)
  | tvar a v => exact fun ty hty => hother (hty ▸ .tvar a v) rfl
  | tbnd a hi => exact fun ty hty => hother (hty ▸ .tbnd a hi) rfl
  | tconst a c ty => exact fun ty hty => hother (hty ▸ .tconst a c _) rfl
  | tif a hf ht he _ _ _ => exact fun ty hty => hother (hty ▸ .tif a hf ht he) rfl
  | tlet a ht he _ _ => exact fun ty hty => hother (hty ▸ .tlet a ht he) rfl
  | tcase a ht hsat hne hp hbl _ _ =>
    exact fun ty hty => hother (hty ▸ .tcase a ht hsat hne hp hbl) rfl
  | teps a hf _ => exact fun ty hty => hother (hty ▸ .teps a hf) rfl
  | tquant | tbinop | tnot | ttrue | tfalse =>
    intro ty hty
    cases hty

/-! ## Interpretations -/

variable (S)

/-- The interpretation respects the types, no carrier is empty, and the value of a type that
is chosen for a set belongs to it and does not depend on what else is in the set. -/
structure Interp.Sound {D : Type} (I : Interp D) : Prop where
  nonempty : ∀ ty, (I.carrier ty).Nonempty
  fn : ∀ (ls : LSymbol) (vty : Ty) (τ : TyVal) (ds : List D), ls.lsValue = some vty →
    I.Typed τ ls.lsArgs ds → I.fn ls (vty.vMap τ) ds ∈ I.carrier (vty.vMap τ)
  lit : ∀ c ty, I.lit c ty ∈ I.carrier ty
  eps_mem : ∀ ty s, I.eps ty s ∈ I.carrier ty
  eps_spec : ∀ ty s, (I.carrier ty ∩ s).Nonempty → I.eps ty s ∈ s
  eps_local : ∀ ty s, I.eps ty (I.carrier ty ∩ s) = I.eps ty s
  equ : ∀ d d', I.pr psEqu [d, d'] ↔ d = d'

/-- The value that is chosen depends on the values of the type in the set. -/
theorem Interp.Sound.eps_congr {D : Type} {I : Interp D} (hI : I.Sound) {ty : Ty} {s s' : Set D}
    (h : ∀ d ∈ I.carrier ty, d ∈ s ↔ d ∈ s') : I.eps ty s = I.eps ty s' := by
  rw [← hI.eps_local ty s, ← hI.eps_local ty s']
  congr 1
  ext d
  exact and_congr_right (h d)

/-- The constructors build each value of an algebraic type in exactly one way. -/
structure Interp.Free {D : Type} (I : Interp D) : Prop where
  inj : ∀ {ts tl cs ds ds'}, tl.length = ts.tsArgs.length → cs ∈ S.constrs ts →
    I.Typed (paramMap ts tl) cs.lsArgs ds → I.Typed (paramMap ts tl) cs.lsArgs ds' →
    I.fn cs (.tyapp ts tl) ds = I.fn cs (.tyapp ts tl) ds' → ds = ds'
  disjoint : ∀ {ts tl cs cs' ds ds'}, tl.length = ts.tsArgs.length → cs ∈ S.constrs ts →
    cs' ∈ S.constrs ts → cs ≠ cs' → I.Typed (paramMap ts tl) cs.lsArgs ds →
    I.Typed (paramMap ts tl) cs'.lsArgs ds' →
    I.fn cs (.tyapp ts tl) ds ≠ I.fn cs' (.tyapp ts tl) ds'
  cover : ∀ {ts tl d}, tl.length = ts.tsArgs.length → S.constrs ts ≠ [] →
    d ∈ I.carrier (.tyapp ts tl) →
    ∃ cs ∈ S.constrs ts, ∃ ds, I.Typed (paramMap ts tl) cs.lsArgs ds ∧
      I.fn cs (.tyapp ts tl) ds = d

theorem Interp.Free.congr {D : Type} {I : Interp D} {S S' : DataSig}
    (h : ∀ ts, S'.constrs ts = S.constrs ts)
    (hfree : I.Free S) : I.Free S' where
  inj hl hcs := hfree.inj hl (h _ ▸ hcs)
  disjoint hl hcs hcs' := hfree.disjoint hl (h _ ▸ hcs) (h _ ▸ hcs')
  cover hl hne hd := by
    rw [h] at hne ⊢
    exact hfree.cover hl hne hd

end Why3
