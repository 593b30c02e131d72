import Why3.Logic.Extend
import Why3.Transform.Destruct

/-!
# The expansions of a pattern

A value that matches a pattern is the value of one of the expansions of the pattern, for
suitable values of the constants of the expansion. The constants that stand for the
variables then have the values that the variables are bound to.
-/

namespace Why3

open Lib Term Interp List

variable {α D : Type} {S : DataSig} {n n' : ℕ}
variable {e : Expansion α} {I I' : Interp D} {ls : LSymbol} {es es' : List (Expansion Term)}
variable {p : Pattern} {t : Term} {ty : Ty} {τ : TyVal} {v : VSymbol} {m : ℕ}
variable {e' : Expansion Term} {o : Option VSymbol}

/-! ## Well-formed expansions -/

/-- A constant that was created while the counter went from `n` to `n'`, of a type without
variables. -/
structure NewConst (n n' : ℕ) (ty : Ty) (ls : LSymbol) : Prop where
  lower : n ≤ ls.lsName.idTag
  upper : ls.lsName.idTag < n'
  args : ls.lsArgs = []
  value : ls.lsValue = some ty
  constr : ls.lsConstr = 0
  closed : ty.freevars = []

theorem NewConst.mono {m' : ℕ} (h : NewConst n n' ty ls) (hm : m ≤ n) (hm' : n' ≤ m') :
    NewConst m m' ty ls :=
  ⟨hm.trans h.lower, h.upper.trans_le hm', h.args, h.value, h.constr, h.closed⟩

theorem newConst_constantOf (hty : ty.freevars = []) (n : ℕ) :
    NewConst n (n + 1) ty (constantOf n ty) :=
  ⟨le_refl n, Nat.lt_succ_self n, rfl, rfl, rfl, hty⟩

theorem NewConst.settled (h : NewConst n n' ty ls) (ht : tApp ls [] ls.lsValue = .ok t) :
    t.Settled n' := by
  rw [tApp_eq ht, h.value]
  constructor
  · intro s hs
    rw [symsTerm, Option.elim_some, mem_append] at hs
    rcases hs with hs | hs
    · exact below_of_mem_symsTy s hs
    · rw [mem_singleton.mp hs]
      exact h.upper
  · simp [tyFreevars, tyFreevarsList, h.closed]

namespace Expansion

/-- The expansion has one constant for each variable at least, and its terms are made of
symbols that exist. -/
structure Good (n n' : ℕ) (vl : List VSymbol) (Q : α → Prop) (e : Expansion α) : Prop where
  const : ∀ b ∈ e.consts, NewConst n n' b.1.vsTy b.2
  keys : ∀ v, v ∈ e.consts.map Prod.fst ↔ v ∈ vl
  equal : ∀ q ∈ e.equalities, q.2.2.Settled n'
  term : Q e.term

structure Denotes (I : Interp D) (τ : TyVal) (β : List (VSymbol × D)) (V : α → Prop)
    (e : Expansion α) : Prop where
  const : ∀ b ∈ e.consts, ∃ d, β.lookup b.1 = some d ∧ ∀ ty ds, I.fn b.2 ty ds = d
  equal : ∀ q ∈ e.equalities, ∃ d, β.lookup q.1 = some d ∧ ∀ ρ, I.eval τ ρ [] q.2.2 = (d, False)
  term : V e.term

theorem Good.mono {m' : ℕ} {vl : List VSymbol} {Q Q' : α → Prop} (h : e.Good n n' vl Q) (hm : m ≤ n)
    (hm' : n' ≤ m') (hQ : ∀ a, Q a → Q' a) : e.Good m m' vl Q' where
  const b hb := (h.const b hb).mono hm hm'
  keys := h.keys
  equal q hq := (h.equal q hq).mono hm'
  term := hQ _ h.term

theorem Denotes.agree {β : List (VSymbol × D)} {V V' : α → Prop} {vl : List VSymbol} {Q : α → Prop}
    (h : e.Denotes I τ β V) (he : e.Good n n' vl Q) (hI : AgreeBelow n' I I')
    (hV : ∀ a, Q a → V a → V' a) : e.Denotes I' τ β V' where
  const b hb := by
    obtain ⟨d, hd, hfn⟩ := h.const b hb
    exact ⟨d, hd, by rwa [hI.fn b.2 (he.const b hb).upper]⟩
  equal q hq := by
    obtain ⟨d, hd, heval⟩ := h.equal q hq
    exact ⟨d, hd, fun ρ => by rw [hI.eval (he.equal q hq).1, heval]⟩
  term := hV _ he.term h.term

theorem Denotes.lookup {β β' : List (VSymbol × D)} {V : α → Prop} (h : e.Denotes I τ β V)
    (hβ : ∀ v d, β.lookup v = some d → β'.lookup v = some d) : e.Denotes I τ β' V where
  const b hb := (h.const b hb).imp fun d hd => ⟨hβ _ d hd.1, hd.2⟩
  equal q hq := (h.equal q hq).imp fun d hd => ⟨hβ _ d hd.1, hd.2⟩
  term := h.term

theorem consts_cons (e : Expansion Term) (e' : Expansion (List Term)) (b : VSymbol × LSymbol) :
    b ∈ (e.cons e').consts ↔ b ∈ e.consts ∨ b ∈ e'.consts := by
  simp only [cons, consts, filterMap_append, map_append, mem_append]
  tauto

end Expansion

/-! ## Values -/

def Interp.Means (I : Interp D) (τ : TyVal) (d : D) (t : Term) : Prop :=
  ∀ ρ, I.eval τ ρ [] t = (d, False)

theorem Interp.Means.agree {d : D} (h : I.Means τ d t) (hI : AgreeBelow n I I') (ht : t.Below n) :
    I'.Means τ d t :=
  fun ρ => by rw [hI.eval ht, h ρ]

/-- The constructors in a pattern are those of the algebraic types. -/
theorem PatTyped.syms_below (hS : S.Below n) (hp : PatTyped S p) :
    ∀ s ∈ symsPattern p, s.Below n := by
  induction hp with
  | pwild ty | pvar v => exact below_of_mem_symsTy
  | @papp fs pl ts tl hl hfs hty hvars hpl ih =>
    rw [symsPattern, forall_mem_append, forall_mem_cons]
    refine ⟨below_of_mem_symsTy, hS ts fs hfs, fun s hs => ?_⟩
    obtain ⟨p, hp, hs⟩ := mem_symsPatternList.mp hs
    exact ih p hp s hs
  | por hp hq hty hvars ihp ihq =>
    rw [symsPattern, forall_mem_append, forall_mem_append]
    exact ⟨⟨below_of_mem_symsTy, ihp⟩, ihq⟩
  | pas hp hty hv ih =>
    rw [symsPattern, forall_mem_append]
    exact ⟨below_of_mem_symsTy, ih⟩

/-! ## What the expansions of a pattern are -/

/-- The expansions are well formed, and each way to match the pattern is the value of one
of them when the new constants have suitable values. -/
structure ExpandSpec (S : DataSig) (p : Pattern) (n n' : ℕ) (es : List (Expansion Term)) :
    Prop where
  le : n ≤ n'
  good : ∀ e ∈ es, e.Good n n' p.vars (Term.Settled n')
  complete : ∀ {D : Type} {I : Interp D} {τ : TyVal} {d : D} {β : List (VSymbol × D)}, I.Sound →
    d ∈ I.carrier (p.patTy.vMap τ) → I.matchPat τ p d = some β →
    ∃ e ∈ es, ∃ I', AgreeBelow n I I' ∧ I'.Sound ∧ e.Denotes I' τ β (I'.Means τ d)

structure ExpandArgsSpec (S : DataSig) (pl : List Pattern) (n n' : ℕ)
    (es : List (Expansion (List Term))) : Prop where
  le : n ≤ n'
  good : ∀ e ∈ es, e.Good n n' (Pattern.varsList pl) fun tl => ∀ t ∈ tl, t.Settled n'
  complete : ∀ {D : Type} {I : Interp D} {τ : TyVal} {ds : List D} {β : List (VSymbol × D)},
    I.Sound → I.Typed τ (pl.map Pattern.patTy) ds → I.matchPatList τ pl ds = some β →
    ∃ e ∈ es, ∃ I', AgreeBelow n I I' ∧ I'.Sound ∧
      e.Denotes I' τ β fun tl => Forall₂ (I'.Means τ) ds tl

theorem means_const {d : D} (hls : ls.lsValue = some ty) (ht : tApp ls [] ls.lsValue = .ok t)
    (hd : ∀ ty ds, I.fn ls ty ds = d) : I.Means τ d t := by
  intro ρ
  rw [tApp_eq ht, hls, eval_tapp_some, hd]

section

variable (hp : p.vars = o.toList) (hty : p.patTy = ty) (ho : ∀ v ∈ o, v.vsTy = ty)
  (hclosed : ty.freevars = [])
include hp hty ho hclosed

theorem expandSpec_const (hmatch : ∀ {D : Type} (I : Interp D) (τ : TyVal) (d : D),
      I.matchPat τ p d = some (o.toList.map fun v => (v, d)))
    (ht : tApp (constantOf n ty) [] (constantOf n ty).lsValue = .ok t) :
    ExpandSpec S p n (n + 1) [⟨[(o, constantOf n ty)], [], t⟩] where
  le := Nat.le_succ n
  good := by
    have hnew := newConst_constantOf hclosed n
    rw [forall_mem_singleton]
    refine ⟨?_, ?_, by simp, hnew.settled ht⟩
    · cases o with
      | none => simp [Expansion.consts]
      | some v => simpa [Expansion.consts, ho v rfl] using hnew
    · cases o <;> simp [Expansion.consts, hp]
  complete := by
    intro D I τ d β hI hd hm
    rw [hmatch] at hm
    obtain rfl := Option.some.inj hm
    refine ⟨_, mem_singleton_self _, I.withConst (constantOf n ty) d,
      agreeBelow_withConst (le_refl n) d, hI.withConst (τ := τ) rfl hclosed (hty ▸ hd), ?_, by simp,
      means_const rfl ht fun _ _ => withConst_fn_self _ _ _ _⟩
    cases o <;> simp [Expansion.consts]

theorem expand_var_spec (hmatch : ∀ {D : Type} (I : Interp D) (τ : TyVal) (d : D),
      I.matchPat τ p d = some (o.toList.map fun v => (v, d)))
    (h : (do .ok (n + 1, [⟨[(o, constantOf n ty)], [],
      ← tApp (constantOf n ty) [] (constantOf n ty).lsValue⟩])) = Except.ok (n', es)) :
    ExpandSpec S p n n' es := by
  obtain ⟨t, ht, h⟩ := bind_eq_ok.mp h
  cases h
  exact expandSpec_const hp hty ho hclosed hmatch ht

end

theorem ExpandSpec.por {q : Pattern} (hp : ExpandSpec S p n m es) (hq : ExpandSpec S q m n' es')
    (hty : p.patTy = q.patTy) (hvars : ∀ v, v ∈ p.vars ↔ v ∈ q.vars) :
    ExpandSpec S (.por p q) n n' (es ++ es') where
  le := hp.le.trans hq.le
  good := by
    rw [forall_mem_append]
    constructor
    · exact fun e he => (hp.good e he).mono (le_refl n) hq.le fun t ht => ht.mono hq.le
    · intro e he
      have hgood := (hq.good e he).mono hp.le (le_refl n') fun t ht => ht
      exact ⟨hgood.const, fun v => (hgood.keys v).trans (hvars v).symm, hgood.equal, hgood.term⟩
  complete := by
    intro D I τ d β hI hd hm
    cases hp' : I.matchPat τ p d with
    | some β' =>
      simp only [matchPat, hp', Option.orElse_some, Option.some.injEq] at hm
      subst hm
      obtain ⟨e, he, I', hI', hsound, hden⟩ := hp.complete hI hd hp'
      exact ⟨e, mem_append_left _ he, I', hI', hsound, hden⟩
    | none =>
      simp only [matchPat, hp', Option.orElse_none] at hm
      obtain ⟨e, he, I', hI', hsound, hden⟩ := hq.complete hI (by rwa [← hty]) hm
      exact ⟨e, mem_append_right _ he, I', hI'.mono hp.le, hsound, hden⟩

theorem expandAs_spec {e : Expansion Term} (h : expandAs v ls e = .ok e') :
    ∃ t, tApp ls [] ls.lsValue = .ok t ∧
      e' = ⟨e.bindings, e.equalities ++ [(v, ls, e.term)], t⟩ := by
  obtain ⟨t, ht, h⟩ := bind_eq_ok.mp h
  exact ⟨t, ht, (Except.ok.inj h).symm⟩

theorem mem_consts_as {e : Expansion Term} {b : VSymbol × LSymbol} :
    b ∈ (Expansion.mk e.bindings (e.equalities ++ [(v, ls, e.term)]) t).consts ↔
      b ∈ e.consts ∨ b = (v, ls) := by
  simp only [Expansion.consts, map_append, mem_append, map_singleton, mem_singleton, or_assoc]

theorem PatTyped.matchPat_agree (hS : S.Below n) (hp : PatTyped S p) (hI : AgreeBelow n I I')
    (τ : TyVal) (d : D) : I'.matchPat τ p d = I.matchPat τ p d :=
  AgreeOn.matchPat hI p d fun ls hls => hI.fn ls (hp.syms_below hS _ hls)

theorem ExpandSpec.pas (hS : S.Below n) (hp : ExpandSpec S p (n + 1) n' es) (hpt : PatTyped S p)
    (hty : p.patTy = v.vsTy) (hv : v ∉ p.vars) (hclosed : v.vsTy.freevars = [])
    (h : es.mapM (expandAs v (constantOf n p.patTy)) = .ok es') :
    ExpandSpec S (.pas p v) n n' es' where
  le := (Nat.le_succ n).trans hp.le
  good := by
    intro e' he'
    obtain ⟨e, he, happ⟩ := forall₂_mem_right (mapM_eq_ok.mp h) he'
    obtain ⟨t, ht, rfl⟩ := expandAs_spec happ
    have hnew : NewConst n n' v.vsTy (constantOf n p.patTy) := by
      rw [hty]
      exact (newConst_constantOf hclosed n).mono (le_refl n) hp.le
    have hgood := hp.good e he
    refine ⟨?_, ?_, ?_, hnew.settled ht⟩
    · intro b hb
      rcases mem_consts_as.mp hb with hb | rfl
      · exact (hgood.const b hb).mono (Nat.le_succ n) (le_refl n')
      · exact hnew
    · intro u
      rw [Pattern.vars, mem_append, mem_singleton, ← hgood.keys]
      simp only [mem_map, mem_consts_as, or_and_right, exists_or, exists_eq_left, eq_comm]
    · rw [forall_mem_append, forall_mem_singleton]
      exact ⟨hgood.equal, hgood.term⟩
  complete := by
    intro D I τ d β hI hd hm
    simp only [matchPat, Option.map_eq_some_iff] at hm
    obtain ⟨β', hm, rfl⟩ := hm
    -- the constant of the alias gets its value before those of the pattern
    have hag : AgreeBelow n I (I.withConst (constantOf n p.patTy) d) :=
      agreeBelow_withConst (le_refl n) d
    have hcd : d ∈ I.carrier (p.patTy.vMap τ) := by rwa [hty]
    have hI₀ := hI.withConst (c := constantOf n p.patTy) (τ := τ) rfl (hty ▸ hclosed) hcd
    rw [← hpt.matchPat_agree hS hag] at hm
    obtain ⟨e, he, I', hI', hsound, hden⟩ := hp.complete hI₀ hcd hm
    obtain ⟨e', he', happ⟩ := forall₂_mem_left (mapM_eq_ok.mp h) he
    obtain ⟨t, ht, rfl⟩ := expandAs_spec happ
    have hconst : ∀ ty ds, I'.fn (constantOf n p.patTy) ty ds = d := by
      intro ty ds
      have hlt : (Sym.ls (constantOf n p.patTy)).Below (n + 1) := Nat.lt_succ_self n
      rw [hI'.fn _ hlt, withConst_fn_self]
    have hkey : (β' ++ [(v, d)]).lookup v = some d := by
      have hnone : β'.lookup v = none := by
        apply lookup_eq_none_of_not_mem
        rw [(matchPat_keys hpt hm).mem_iff]
        exact hv
      rw [lookup_append, hnone, Option.none_or]
      simp
    refine ⟨_, he', I', hag.trans hI' (Nat.le_succ n), hsound, ?_, ?_, means_const rfl ht hconst⟩
    · intro b hb
      rcases mem_consts_as.mp hb with hb | rfl
      · obtain ⟨x, hx, hfn⟩ := hden.const b hb
        exact ⟨x, lookup_append_of_some hx _, hfn⟩
      · exact ⟨d, hkey, hconst⟩
    · rw [forall_mem_append, forall_mem_singleton]
      refine ⟨?_, d, hkey, hden.term⟩
      intro q hq
      obtain ⟨x, hx, heval⟩ := hden.equal q hq
      exact ⟨x, lookup_append_of_some hx _, heval⟩

theorem expandApp_spec {fs : LSymbol} {e : Expansion (List Term)} (h : expandApp fs ty e = .ok e') :
    e' = ⟨e.bindings, e.equalities, tapp [] fs e.term (some ty)⟩ := by
  obtain ⟨t, ht, h⟩ := bind_eq_ok.mp h
  rw [← Except.ok.inj h, tApp_eq ht]

theorem settled_tapp {tl : List Term} (hls : (Sym.ls ls).Below n) (hty : ty.freevars = [])
    (htl : ∀ t ∈ tl, t.Settled n) : (tapp [] ls tl (some ty)).Settled n := by
  have hsyms : ∀ l : List Term, (∀ t ∈ l, t.Settled n) → ∀ s ∈ symsTermList l, s.Below n := by
    intro l hl
    induction l with
    | nil => simp [symsTermList]
    | cons t l ih =>
      rw [forall_mem_cons] at hl
      rw [symsTermList, forall_mem_append]
      exact ⟨hl.1.1, ih hl.2⟩
  constructor
  · rw [Term.Below, symsTerm, forall_mem_append, forall_mem_cons]
    exact ⟨below_of_mem_symsTy, hls, hsyms tl htl⟩
  · rw [tyFreevars, Option.elim_some, hty, nil_append, eq_nil_iff_forall_not_mem]
    intro v hv
    obtain ⟨t, ht, hv⟩ := mem_tyFreevarsList.mp hv
    rw [(htl t ht).2] at hv
    cases hv

theorem map_eval_of_means {ρ : VSymbol → D} {ds : List D} {tl : List Term}
    (h : Forall₂ (I.Means τ) ds tl) : (tl.map fun t => (I.eval τ ρ [] t).1) = ds := by
  induction h with
  | nil => rfl
  | cons hd _ ih => rw [map_cons, hd ρ, ih]

theorem ExpandSpec.papp (hS : S.Below n) {fs : LSymbol} {pl : List Pattern} {ts : TySymbol}
    {tyl : List Ty} {es : List (Expansion (List Term))} (hpl : ExpandArgsSpec S pl n n' es)
    (hfs : fs ∈ S.constrs ts) (hclosed : (Ty.tyapp ts tyl).freevars = [])
    (h : es.mapM (expandApp fs (.tyapp ts tyl)) = .ok es') :
    ExpandSpec S (.papp fs pl (.tyapp ts tyl)) n n' es' where
  le := hpl.le
  good := by
    intro e' he'
    obtain ⟨e, he, happ⟩ := forall₂_mem_right (mapM_eq_ok.mp h) he'
    obtain rfl := expandApp_spec happ
    have hgood := hpl.good e he
    exact ⟨hgood.const, hgood.keys, hgood.equal,
      settled_tapp ((hS ts fs hfs).mono hpl.le) hclosed hgood.term⟩
  complete := by
    intro D I τ d β hI hd hm
    simp only [matchPat] at hm
    split at hm
    · next hex =>
        obtain ⟨htyped, hfn⟩ := hex.choose_spec
        obtain ⟨e, he, I', hI', hsound, hden⟩ := hpl.complete hI htyped hm
        obtain ⟨e', he', happ⟩ := forall₂_mem_left (mapM_eq_ok.mp h) he
        obtain rfl := expandApp_spec happ
        refine ⟨_, he', I', hI', hsound, hden.const, hden.equal, ?_⟩
        intro ρ
        rw [eval_tapp_some, map_eval_of_means hden.term, hI'.fn fs (hS ts fs hfs), hfn]
    · cases hm

theorem expandArgsSpec_nil : ExpandArgsSpec S [] n n [⟨[], [], []⟩] where
  le := le_refl n
  good := by
    rw [forall_mem_singleton]
    exact ⟨by simp [Expansion.consts], by simp [Expansion.consts, Pattern.varsList], by simp,
      by simp⟩
  complete := by
    intro D I τ ds β hI hds hm
    cases hds
    exact ⟨_, mem_singleton_self _, I, .refl n I, hI, by simp [Expansion.consts], by simp, .nil⟩

theorem ExpandArgsSpec.cons (hS : S.Below n) {pl : List Pattern}
    {es' : List (Expansion (List Term))} (hp : ExpandSpec S p n m es)
    (hpl : ExpandArgsSpec S pl m n' es') (hpt : PatTyped S p) (hplt : ∀ q ∈ pl, PatTyped S q)
    (hvars : (Pattern.varsList (p :: pl)).Nodup) :
    ExpandArgsSpec S (p :: pl) n n' (es.flatMap fun e => es'.map e.cons) where
  le := hp.le.trans hpl.le
  good := by
    intro e'' he''
    obtain ⟨e, he, hmem⟩ := mem_flatMap.mp he''
    obtain ⟨e', he', rfl⟩ := mem_map.mp hmem
    have hgood := hp.good e he
    have hgood' := hpl.good e' he'
    refine ⟨?_, ?_, ?_, ?_⟩
    · intro b hb
      rcases (Expansion.consts_cons e e' b).mp hb with hb | hb
      · exact (hgood.const b hb).mono (le_refl n) hpl.le
      · exact (hgood'.const b hb).mono hp.le (le_refl n')
    · intro v
      rw [Pattern.varsList, mem_append, ← hgood.keys, ← hgood'.keys]
      simp only [mem_map, Expansion.consts_cons, or_and_right, exists_or]
    · change ∀ q ∈ e.equalities ++ e'.equalities, _
      rw [forall_mem_append]
      exact ⟨fun q hq => (hgood.equal q hq).mono hpl.le, hgood'.equal⟩
    · change ∀ t ∈ e.term :: e'.term, _
      rw [forall_mem_cons]
      exact ⟨hgood.term.mono hpl.le, hgood'.term⟩
  complete := by
    intro D I τ ds β hI hds hm
    rw [map_cons] at hds
    cases hds with
    | @cons _ d _ ds hd hds =>
      obtain ⟨β₁, β₂, hm₁, hm₂, rfl⟩ := matchPatList_cons_eq_some.mp hm
      obtain ⟨e, he, I₁, hI₁, hsound₁, hden₁⟩ := hp.complete hI hd hm₁
      have hm₂' : I₁.matchPatList τ pl ds = some β₂ := by
        rw [AgreeOn.matchPatList hI₁ pl ds, hm₂]
        intro ls hls
        obtain ⟨q, hq, hls⟩ := mem_symsPatternList.mp hls
        exact hI₁.fn ls ((hplt q hq).syms_below hS _ hls)
      obtain ⟨e', he', I₂, hI₂, hsound₂, hden₂⟩ :=
        hpl.complete hsound₁ (hI₁.typed.mpr hds) hm₂'
      have hden : e.Denotes I₂ τ β₁ (I₂.Means τ d) :=
        hden₁.agree (hp.good e he) hI₂ fun t ht hmeans => hmeans.agree hI₂ ht.1
      have hright : ∀ v x, β₂.lookup v = some x → (β₁ ++ β₂).lookup v = some x := by
        intro v x hx
        have hv : v ∈ Pattern.varsList pl := by
          rw [← (matchPatList_keys hplt hm₂').mem_iff, TagMap.mem_keys_iff, hx]
          rfl
        have hnone : β₁.lookup v = none := by
          apply lookup_eq_none_of_not_mem
          rw [(matchPat_keys hpt hm₁).mem_iff]
          exact fun hmem => disjoint_of_nodup_append hvars hmem hv
        rw [lookup_append, hnone, Option.none_or, hx]
      have hleft := hden.lookup fun v x hx => lookup_append_of_some hx β₂
      have hden₂ := hden₂.lookup hright
      refine ⟨e.cons e', mem_flatMap.mpr ⟨e, he, mem_map_of_mem he'⟩, I₂,
        hI₁.trans hI₂ hp.le, hsound₂, ?_, ?_, .cons hleft.term hden₂.term⟩
      · intro b hb
        rcases (Expansion.consts_cons e e' b).mp hb with hb | hb
        · exact hleft.const b hb
        · exact hden₂.const b hb
      · change ∀ q ∈ e.equalities ++ e'.equalities, _
        rw [forall_mem_append]
        exact ⟨hleft.equal, hden₂.equal⟩

mutual

/-- A value that matches a pattern is the value of one of its expansions. -/
theorem expand_spec : ∀ {p : Pattern} {n n' : ℕ} {es : List (Expansion Term)}, S.Below n →
    PatTyped S p → p.tyFreevars = [] → expand n p = .ok (n', es) → ExpandSpec S p n n' es
  | .pwild ty, n, n', es, _, _, hty, h =>
    expand_var_spec (o := none) rfl rfl (by simp) hty (fun _ _ _ => rfl) h
  | .pvar v, n, n', es, _, _, hty, h =>
    expand_var_spec (o := some v) rfl rfl (by simp [Pattern.patTy]) hty (fun _ _ _ => rfl) h
  | .papp fs pl ty, n, n', es, hS, hp, hty, h => by
    obtain ⟨⟨m, l⟩, hl, l', hl', h⟩ := bind₂_eq_ok.mp h
    cases h
    rw [Pattern.tyFreevars, append_eq_nil_iff] at hty
    cases hp with
    | papp hlen hfs hptys hvars hpl =>
      exact .papp hS (expandArgs_spec hS hpl hvars hty.2 hl) hfs hty.1 hl'
  | .por p q, n, n', es, hS, hp, hty, h => by
    obtain ⟨⟨m, l⟩, hl, ⟨m', l'⟩, hl', h⟩ := bind₂_eq_ok.mp h
    cases h
    rw [Pattern.tyFreevars, append_eq_nil_iff, append_eq_nil_iff] at hty
    cases hp with
    | por hp hq hptys hvars =>
      have hspec := expand_spec hS hp hty.1.2 hl
      exact hspec.por (expand_spec (hS.mono hspec.le) hq hty.2 hl') hptys hvars
  | .pas p v, n, n', es, hS, hp, hty, h => by
    obtain ⟨⟨m, l⟩, hl, l', hl', h⟩ := bind₂_eq_ok.mp h
    cases h
    rw [Pattern.tyFreevars, append_eq_nil_iff] at hty
    cases hp with
    | pas hp hpty hv =>
      exact (expand_spec (hS.mono (Nat.le_succ n)) hp hty.2 hl).pas hS hp hpty hv hty.1 hl'

theorem expandArgs_spec : ∀ {pl : List Pattern} {n n' : ℕ} {es : List (Expansion (List Term))},
    S.Below n → (∀ p ∈ pl, PatTyped S p) → (Pattern.varsList pl).Nodup →
    Pattern.tyFreevarsList pl = [] → expandArgs n pl = .ok (n', es) →
    ExpandArgsSpec S pl n n' es
  | [], n, n', es, _, _, _, _, h => by
    cases h
    exact expandArgsSpec_nil
  | p :: pl, n, n', es, hS, hpl, hvars, hty, h => by
    obtain ⟨⟨m, l⟩, hl, ⟨m', l'⟩, hl', h⟩ := bind₂_eq_ok.mp h
    cases h
    rw [Pattern.tyFreevarsList, append_eq_nil_iff] at hty
    rw [forall_mem_cons] at hpl
    have hspec := expand_spec hS hpl.1 hty.1 hl
    have hvars' : (Pattern.varsList pl).Nodup := (nodup_append.mp hvars).2.1
    exact .cons hS hspec (expandArgs_spec (hS.mono hspec.le) hpl.2 hvars' hty.2 hl') hpl.1 hpl.2
      hvars

end

end Why3
