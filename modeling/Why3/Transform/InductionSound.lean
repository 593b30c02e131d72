import Why3.Transform.Induction
import Why3.Pattern.Constructors
import Why3.Logic.Valid
import Why3.Logic.KnownSig
import Why3.Logic.Peano
import Why3.Lib.Descent
import Mathlib.Data.DFinsupp.WellFounded

/-!
# Induction over algebraic types is sound

If the values of algebraic types are finite, then a goal is valid as soon as the
formula is that `src/transform/induction.ml` makes of it. The induction is over the
values of the induction variables, compared in their lexicographic order: a hypothesis
for one of them only quantifies again over variables that come later in this order,
and over neutral variables.
-/

namespace Why3

open Lib Term Interp List

variable {D : Type} {I : Interp D} {τ : TyVal} {S : DataSig}
variable {km : KnownMap} {qvl vl : List VSymbol} {x : VSymbol} {ρ : VSymbol → D} {v : Vlex} {n : ℕ}
variable {rql : List VSymbol} {lexl : List Vlex} {n' : ℕ}

/-! ## The variables of the goal -/

/-- The quantifiers are opened with new variables, and the goal is valid if what they
quantify is. -/
theorem decomposeForallAux_spec (f : Term) : ∀ {n : ℕ} {qvl ul qvl' : List VSymbol} {t : Term},
    decomposeForallAux n qvl ul f = (qvl', t) → (∀ v ∈ qvl, v.vsName.idTag < n) →
    (∀ v ∈ ul, v.vsName.idTag < n) → (∀ v ∈ f.freeVars, v.vsName.idTag < n) →
    ∃ k, qvl'.length = qvl.length + k ∧ (∀ v ∈ qvl', v.vsName.idTag < n + k) ∧
      (∀ v ∈ t.freeVars, v.vsName.idTag < n + k) ∧
      ((∀ ρ, I.TypedVal τ ρ → I.Holds τ ρ t) →
        ∀ ρ, I.TypedVal τ ρ → (I.eval τ ρ (ul.map ρ) f).2) := by
  intro n qvl ul qvl' t h hqvl hul hf
  fun_induction decomposeForallAux n qvl ul f generalizing qvl' t with
  | case1 n qvl ul a vl trl f ih =>
    set vl' := freshOf n (vl.map VSymbol.vsTy)
    have hvl' : ∀ v ∈ vl', n ≤ v.vsName.idTag ∧ v.vsName.idTag < n + vl.length := by
      intro v hv
      simpa using mem_freshOf hv
    have hlen : vl'.length = vl.length := by simp [vl', length_freshOf]
    have hold : ∀ {v : VSymbol}, v.vsName.idTag < n → v.vsName.idTag < n + vl.length :=
      fun h => by omega
    simp only [freeVars, mem_append] at hf
    obtain ⟨k, hk, htags, hfree, hvalid⟩ := ih h
      (forall_mem_append.mpr ⟨fun v hv => hold (hqvl v hv), fun v hv => (hvl' v hv).2⟩)
      (forall_mem_append.mpr ⟨fun v hv => (hvl' v hv).2, fun v hv => hold (hul v hv)⟩)
      fun v hv => hold (hf v (.inr hv))
    refine ⟨vl.length + k, ?_, ?_, ?_, ?_⟩
    · rw [hk, length_append, hlen, Nat.add_assoc]
    · simpa only [Nat.add_assoc] using htags
    · simpa only [Nat.add_assoc] using hfree
    · intro ht ρ hρ
      rw [eval_forall]
      intro ds hds
      rw [← map_vsTy_freshOf n (vl.map VSymbol.vsTy)] at hds
      have hnew : ∀ {v : VSymbol}, v.vsName.idTag < n → assign ρ (vl'.zip ds) v = ρ v := by
        intro v hv
        refine assign_of_not_mem fun hmem => ?_
        obtain ⟨x, hx, rfl⟩ := mem_map.mp hmem
        have := (hvl' x.1 (of_mem_zip hx).1).1
        omega
      have hmain := hvalid ht _ (hρ.assign_zip hds)
      rw [map_append, map_assign_zip (nodup_freshOf n _) (typed_length hds),
        map_congr_left fun v hv => hnew (hul v hv)] at hmain
      rwa [eval_congr f _ fun v hv => hnew (hf v (.inr hv))] at hmain
  | case2 n qvl ul t' ht' =>
    cases h
    refine ⟨0, rfl, hqvl, ?_, ?_⟩
    · intro v hv
      rcases mem_freeVars_openVars hv with hv | hv
      · exact hf v hv
      · exact hul v hv
    · intro ht ρ hρ
      have := ht ρ hρ
      rwa [Holds, eval_openVars, append_nil] at this

/-! ## Induction schemes -/

/-- The scheme for a variable has a branch for each constructor of its type, with new
variables for the arguments. -/
structure Scheme (S : DataSig) (x : VSymbol) (n n' : ℕ) (sch : Tyscheme) (ts : TySymbol)
    (tl : List Ty) (cl : List (LSymbol × List VSymbol)) : Prop where
  ty : x.vsTy = .tyapp ts tl
  length : tl.length = ts.tsArgs.length
  le : n ≤ n'
  constrs : cl.map Prod.fst = S.constrs ts
  types : ∀ c ∈ cl, c.2.map VSymbol.vsTy = c.1.lsArgs.map (Ty.vMap (paramMap ts tl))
  nodup : ∀ c ∈ cl, c.2.Nodup
  tags : ∀ c ∈ cl, ∀ v ∈ c.2, n ≤ v.vsName.idTag ∧ v.vsName.idTag < n'
  eq : sch = cl.map fun c =>
    (.papp c.1 (c.2.map .pvar) x.vsTy, c.2.filter fun v => decide (x.vsTy = v.vsTy))

theorem tyschemeConstructors_spec {sigma : TagMap TvSymbol Ty} :
    ∀ {cl : List Constructor} {n n' : ℕ} {sch : Tyscheme},
      tyschemeConstructors sigma x n cl = .ok (sch, n') →
      ∃ vls : List (LSymbol × List VSymbol), vls.map Prod.fst = cl.map Prod.fst ∧ n ≤ n' ∧
        (∀ c ∈ vls, c.2.map VSymbol.vsTy = c.1.lsArgs.map (tyInst sigma) ∧ c.2.Nodup ∧
          ∀ v ∈ c.2, n ≤ v.vsName.idTag ∧ v.vsName.idTag < n') ∧
        sch = vls.map fun c =>
          (.papp c.1 (c.2.map .pvar) x.vsTy, c.2.filter fun v => decide (x.vsTy = v.vsTy))
  | [], n, n', sch, h => by
    cases h
    exact ⟨[], rfl, le_rfl, by simp, rfl⟩
  | c :: cl, n, n', sch, h => by
    obtain ⟨b, hb, ⟨sch', n''⟩, hrest, h⟩ := bind₂_eq_ok.mp h
    obtain ⟨p, hp, hb⟩ := bind_eq_ok.mp hb
    obtain rfl := Pattern.patApp_eq_ok hp
    cases h
    cases hb
    obtain ⟨vls, hcl, hle, hvls, rfl⟩ := tyschemeConstructors_spec hrest
    refine ⟨(c.1, freshOf n (c.1.lsArgs.map (tyInst sigma))) :: vls, by simp [hcl], by omega,
      forall_mem_cons.mpr ⟨⟨map_vsTy_freshOf n _, nodup_freshOf n _, ?_⟩, ?_⟩, rfl⟩
    · intro v hv
      have := mem_freshOf hv
      rw [length_map] at this
      omega
    · intro c' hc'
      obtain ⟨hty, hnodup, htags⟩ := hvls c' hc'
      exact ⟨hty, hnodup, fun v hv => ⟨by have := (htags v hv).1; omega, (htags v hv).2⟩⟩

theorem vsTyscheme_spec (hkm : Known km) {sch : Tyscheme} (h : vsTyscheme km n x = .ok (sch, n')) :
    ∃ ts tl cl, Scheme (knownSig hkm) x n n' sch ts tl cl := by
  unfold vsTyscheme at h
  cases hty : x.vsTy with
  | tyvar tv => simp [hty] at h
  | tyapp ts tl =>
    rw [hty] at h
    dsimp only at h
    split at h
    · cases h
    · obtain ⟨sigma, hsigma, cl, hcl, h⟩ := bind₂_eq_ok.mp h
      have hl : tl.length = ts.tsArgs.length := by
        have := (tyMatchExn_spec hsigma (extends_findDef sigma)).2
        rw [Ty.vMap_tyapp, Ty.tyapp.injEq] at this
        rw [← this.2, length_map, length_map]
      have hfind : ∀ v ∈ ts.tsArgs, sigma.find? v = some (paramMap ts tl v) := by
        obtain ⟨s, hs, hfind⟩ := tyMatchExn_value hl
        rw [hs] at hsigma
        cases hsigma
        exact hfind
      obtain ⟨vls, hvls, hle, hspec, heq⟩ := tyschemeConstructors_spec h
      have hconstrs : vls.map Prod.fst = (knownSig hkm).constrs ts := by
        rw [hvls]
        simp only [knownSig, constrsOf, hcl]
      refine ⟨ts, tl, vls, hty, hl, hle, hconstrs, ?_, fun c hc => (hspec c hc).2.1,
        fun c hc => (hspec c hc).2.2, heq⟩
      intro c hc
      have hmem : c.1 ∈ (knownSig hkm).constrs ts := hconstrs ▸ mem_map_of_mem hc
      rw [(hspec c hc).1]
      exact map_congr_left fun ty hfty =>
        tyInst_paramMap hfind ((knownSig hkm).freevars hmem ty hfty)

inductive Schemes (S : DataSig) : ℕ → List Vlex → Prop where
  | nil (n : ℕ) : Schemes S n []
  | cons {n n' : ℕ} {v : Vlex} {vl : List Vlex} {ts : TySymbol} {tl : List Ty}
      {cl : List (LSymbol × List VSymbol)} (hv : Scheme S v.vs n n' v.ts ts tl cl)
      (hvl : Schemes S n' vl) : Schemes S n (v :: vl)

/-- The hypotheses for an induction variable quantify again over variables of the goal
only, and only over induction variables that come later. -/
structure Vlex.Ordered (ivm : TagMap VSymbol ℕ) (qvl : List VSymbol) (v : Vlex) : Prop where
  mem : v.vs ∈ qvl
  rq_mem : ∀ w ∈ v.rq, w ∈ qvl
  index : ivm.mem v.vs = true
  later : ∀ w ∈ v.rq, ∀ i, ivm.find? w = some i → ivm.findDef 0 v.vs < i

theorem qsplitAux_spec (hkm : Known km) {ivm : TagMap VSymbol ℕ} {qvl₀ : List VSymbol} :
    ∀ {qvl : List VSymbol} {n : ℕ} {ivs : TagMap VSymbol Unit}
    {lql lvl : List VSymbol} {acc lexl : List Vlex} {rql : List VSymbol},
    qsplitAux km ivm n ivs qvl lql lvl acc = .ok (lexl, rql) →
    (∀ v, ivs.mem v = true → ivm.mem v = true) → (∀ v ∈ qvl, v ∈ qvl₀) → (∀ v ∈ lvl, v ∈ qvl₀) →
    ∃ new, lexl = acc.reverse ++ new ∧ Schemes (knownSig hkm) n new ∧
      ∀ v ∈ new, v.Ordered ivm qvl₀
  | [], n, ivs, lql, lvl, acc, lexl, rql, h, _, _, _ => by
    cases h
    exact ⟨[], by simp, .nil n, by simp⟩
  | q :: tl, n, ivs, lql, lvl, acc, lexl, rql, h, hivs, hqvl, hlvl => by
    rw [forall_mem_cons] at hqvl
    rw [qsplitAux] at h
    split at h
    · next hq =>
        obtain ⟨⟨sch, n'⟩, hsch, h⟩ := bind_eq_ok.mp h
        obtain ⟨ts, tyl, cl, hscheme⟩ := vsTyscheme_spec hkm hsch
        obtain ⟨new, rfl, hnew, hord⟩ := qsplitAux_spec hkm h
          (fun v hv => hivs v (by
            rw [TagMap.remove, TagMap.mem, TagMap.find?_setDiff] at hv
            split at hv
            · simp at hv
            · exact hv)) hqvl.2
          (forall_mem_cons.mpr ⟨hqvl.1, hlvl⟩)
        have hacc : ∀ x : Vlex, (x :: acc).reverse ++ new = acc.reverse ++ x :: new := by simp
        refine ⟨_, hacc _, .cons hscheme hnew, forall_mem_cons.mpr ⟨?_, hord⟩⟩
        refine ⟨hqvl.1, ?_, hivs q hq, ?_⟩
        · intro w hw
          rcases mem_append.mp hw with hw | hw
          · exact hlvl w (mem_of_mem_filter (mem_reverse.mp hw))
          · exact hqvl.2 w (mem_of_mem_filter hw)
        · intro w hw i hi
          have hdef : ivm.findDef 0 w = i := by rw [TagMap.findDef, hi, Option.getD_some]
          rcases mem_append.mp hw with hw | hw
          · have := (mem_filter.mp (mem_reverse.mp hw)).2
            simpa [hdef] using this
          · have := (mem_filter.mp hw).2
            simpa [TagMap.mem, hi, hdef] using this
    · split at h
      · cases h
        exact ⟨[], by simp, .nil n, by simp⟩
      · exact qsplitAux_spec hkm h hivs hqvl.2 hlvl

theorem lexIndices_fold {vl₀ : List VSymbol} : ∀ {vl : List VSymbol} {k : ℕ}
    {m : TagMap VSymbol ℕ}, vl₀.drop k = vl →
    (∀ v i, m.find? v = some i → vl₀[i]? = some v) →
    (∀ v i, ((vl.foldl (fun (i, m) v => (i + 1, m.add v i)) (k, m)).2).find? v = some i →
      vl₀[i]? = some v) ∧
    ∀ v, m.mem v = true ∨ v ∈ vl →
      ((vl.foldl (fun (i, m) v => (i + 1, m.add v i)) (k, m)).2).mem v = true
  | [], k, m, _, hm => ⟨hm, fun v hv => by simpa using hv⟩
  | u :: vl, k, m, hdrop, hm => by
    have hk : vl₀[k]? = some u := by
      rw [← head?_drop, hdrop, head?_cons]
    have hdrop' : vl₀.drop (k + 1) = vl := by
      rw [← drop_drop, hdrop, drop_one, tail_cons]
    obtain ⟨h₁, h₂⟩ := lexIndices_fold (m := m.add u k) hdrop' (by
      intro v i hi
      rw [TagMap.find?_add] at hi
      split at hi
      · next hv =>
          cases hi
          rw [hv, hk]
      · exact hm v i hi)
    refine ⟨h₁, fun v hv => h₂ v ?_⟩
    rw [TagMap.mem_add]
    rcases hv with hv | hv
    · exact .inl (by simp [hv])
    · rcases mem_cons.mp hv with rfl | hv
      · exact .inl (by simp)
      · exact .inr hv

theorem lexIndices_get {v : VSymbol} {i : ℕ} (h : (lexIndices vl).find? v = some i) :
    vl[i]? = some v :=
  (lexIndices_fold rfl (by simp)).1 v i h

theorem mem_lexIndices {v : VSymbol} (h : v ∈ vl) : (lexIndices vl).mem v = true :=
  (lexIndices_fold rfl (by simp)).2 v (.inr h)

theorem qsplit_spec (hkm : Known km) (h : qsplit km n vl qvl = .ok (lexl, rql)) :
    Schemes (knownSig hkm) n lexl ∧ ∀ v ∈ lexl, v.Ordered (lexIndices vl) qvl := by
  obtain ⟨new, rfl, hnew, hord⟩ := qsplitAux_spec hkm h
    (fun v hv => mem_lexIndices ((TagMap.mem_ofList vl v).mp hv)) (fun v (hv : v ∈ qvl) => hv)
    (by simp)
  exact ⟨hnew, hord⟩

/-! ## The formula -/

section Formula

variable {t : Term} {old : ℕ}

/-- The goal holds whenever the induction variable has an argument of its value, and all
variables but those that are quantified again are unchanged. -/
def Vlex.Hyp (S : DataSig) (I : Interp D) (τ : TyVal) (old : ℕ) (t : Term) (v : Vlex)
    (ρ : VSymbol → D) : Prop :=
  ∀ ρ', I.TypedVal τ ρ' → (∀ w, w.vsName.idTag < old → w ∉ v.rq → w ≠ v.vs → ρ' w = ρ w) →
    Component S I (ρ' v.vs, v.vs.vsTy.vMap τ) (ρ v.vs, v.vs.vsTy.vMap τ) → I.Holds τ ρ' t

theorem Vlex.Hyp.congr {ρ' : VSymbol → D} (h : v.Hyp S I τ old t ρ) (hv : v.vs.vsName.idTag < old)
    (heq : ∀ w, w.vsName.idTag < old → ρ' w = ρ w) : v.Hyp S I τ old t ρ' := by
  intro ρ'' htyped hrest hcomp
  refine h ρ'' htyped (fun w hw hrq hne => (hrest w hw hrq hne).trans (heq w hw)) ?_
  rwa [← heq _ hv]

theorem holds_of_makeH : ∀ {vset : List VSymbol} {timp f : Term},
    makeH t v vset timp = .ok f →
    (∀ x ∈ vset, ∀ ds, I.Typed τ (v.rq.map VSymbol.vsTy) ds →
      I.Holds τ (assign (assign ρ (v.rq.zip ds)) [(v.vs, assign ρ (v.rq.zip ds) x)]) t) →
    I.Holds τ ρ f → I.Holds τ ρ timp
  | [], timp, f, h, _, hf => by
    cases h
    exact hf
  | x :: vset, timp, f, h, hyps, hf => by
    obtain ⟨timp', h', h⟩ := foldlM_cons_eq_ok.mp h
    obtain ⟨g, hg, h'⟩ := bind_eq_ok.mp h'
    obtain ⟨g', hg', h'⟩ := bind_eq_ok.mp h'
    rw [forall_mem_cons] at hyps
    refine (holds_timplies h').mp (holds_of_makeH h hyps.2 hf) ?_
    rw [holds_tForallClose hg']
    intro ds hds
    rw [holds_tSubstSingle hg rfl]
    exact hyps.1 ds hds

theorem makeInductionLexAux_cons {vl : List Vlex} {timp f : Term} {ts : TySymbol} {tl : List Ty}
    {cl : List (LSymbol × List VSymbol)} (hv : Scheme S v.vs n n' v.ts ts tl cl)
    (h : makeInductionLexAux t (v :: vl) timp = .ok f) :
    ∃ bodies : List (LSymbol × List Pattern × Term), ConstrCases S ts tl bodies ∧ bodies ≠ [] ∧
      tForallClose (v.lq ++ [v.vs]) [] (tcase [] (tvar [] v.vs)
        (bodies.map fun c => tCloseBranch (.papp c.1 c.2.1 (.tyapp ts tl)) c.2.2)) = .ok f ∧
      ∀ b ∈ bodies, ∃ c ∈ cl, ∃ timp', b.1 = c.1 ∧ b.2.1 = c.2.map .pvar ∧
        makeH t v (c.2.filter fun x => decide (v.vs.vsTy = x.vsTy)) timp = .ok timp' ∧
        makeInductionLexAux t vl timp' = .ok b.2.2 := by
  obtain ⟨tbl, htbl, g, hg, h⟩ := bind₂_eq_ok.mp h
  obtain ⟨rfl, hne⟩ := tCase_spec hg
  have hall := mapM_eq_ok.mp htbl
  rw [hv.eq, forall₂_map_left_iff] at hall
  suffices hsuff : ∀ {cl' : List (LSymbol × List VSymbol)} {tbl : List (Pattern × Term)},
      (∀ c ∈ cl', c ∈ cl) → Forall₂ (fun c b => (do
        let timp ← makeH t v (c.2.filter fun x => decide (v.vs.vsTy = x.vsTy)) timp
        let f ← makeInductionLexAux t vl timp
        .ok (tCloseBranch (.papp c.1 (c.2.map .pvar) v.vs.vsTy) f)) = .ok b) cl' tbl →
      ∃ bodies : List (LSymbol × List Pattern × Term), bodies.map Prod.fst = cl'.map Prod.fst ∧
        tbl = bodies.map (fun c => tCloseBranch (.papp c.1 c.2.1 v.vs.vsTy) c.2.2) ∧
        ∀ b ∈ bodies, ∃ c ∈ cl, ∃ timp', b.1 = c.1 ∧ b.2.1 = c.2.map .pvar ∧
          makeH t v (c.2.filter fun x => decide (v.vs.vsTy = x.vsTy)) timp = .ok timp' ∧
          makeInductionLexAux t vl timp' = .ok b.2.2 by
    obtain ⟨bodies, hfst, rfl, hbodies⟩ := hsuff (fun _ h => h) hall
    refine ⟨bodies, ⟨hfst.trans hv.constrs, ?_⟩, by simpa using hne, hv.ty ▸ h, hbodies⟩
    intro b hb
    obtain ⟨c, hc, _, hfs, hpl, _⟩ := hbodies b hb
    rw [hfs, hpl]
    refine .papp hv.length (hv.constrs ▸ mem_map_of_mem hc) ?_ ?_ ?_
    · rw [map_map, ← hv.types c hc]
      rfl
    · rw [Pattern.varsList_map_pvar]
      exact hv.nodup c hc
    · intro p hp
      obtain ⟨x, _, rfl⟩ := mem_map.mp hp
      exact .pvar x
  clear hall hne hg h htbl
  intro cl' tbl hcl' hall
  induction hall with
  | nil => exact ⟨[], rfl, rfl, by simp⟩
  | @cons c b cl' tbl hb _ ih =>
    rw [forall_mem_cons] at hcl'
    obtain ⟨bodies, hfst, rfl, hbodies⟩ := ih hcl'.2
    obtain ⟨timp', htimp', g, hg, hb⟩ := bind₂_eq_ok.mp hb
    cases hb
    exact ⟨(c.1, c.2.map .pvar, g) :: bodies, by simp [hfst], rfl,
      forall_mem_cons.mpr ⟨⟨c, hcl'.1, timp', rfl, rfl, htimp', hg⟩, hbodies⟩⟩

section Scheme

variable {v : VSymbol} {n n' : ℕ} {sch : Tyscheme} {ts : TySymbol} {tl : List Ty}
  {cl : List (LSymbol × List VSymbol)} {c : LSymbol × List VSymbol} {ds : List D}

section

variable (hv : Scheme S v n n' sch ts tl cl) (hc : c ∈ cl)
include hv hc

theorem Scheme.typed (hds : I.Typed (paramMap ts (tl.map (Ty.vMap τ))) c.1.lsArgs ds) :
    I.Typed τ (c.2.map VSymbol.vsTy) ds := by
  rw [hv.types c hc]
  exact (typed_args_iff hv.length (hv.constrs ▸ mem_map_of_mem hc)).mpr hds

theorem Scheme.assign_eq (ρ : VSymbol → D) {w : VSymbol} (hw : w.vsName.idTag < n) :
    assign ρ (c.2.zip ds) w = ρ w := by
  refine assign_of_not_mem fun hmem => ?_
  obtain ⟨x, hx, rfl⟩ := mem_map.mp hmem
  have := (hv.tags c hc x.1 (of_mem_zip hx).1).1
  omega

/-- The variables of a branch that have the type of the induction variable are arguments
of its value. -/
theorem Scheme.component {d : D} (hds : I.Typed (paramMap ts (tl.map (Ty.vMap τ))) c.1.lsArgs ds)
    (hd : I.fn c.1 (.tyapp ts (tl.map (Ty.vMap τ))) ds = d) (hx : x ∈ c.2) (hty : v.vsTy = x.vsTy)
    (ρ : VSymbol → D) :
    Component S I (assign ρ (c.2.zip ds) x, v.vsTy.vMap τ) (d, v.vsTy.vMap τ) := by
  have hlen := typed_length (hv.typed hc hds)
  obtain ⟨i, hi⟩ := mem_iff_getElem?.mp hx
  have hlt : i < ds.length := hlen ▸ (List.getElem?_eq_some_iff.mp hi).1
  have hdi : ds[i]? = some ds[i] := getElem?_eq_getElem hlt
  have hargs : (c.1.lsArgs.map (Ty.vMap (paramMap ts tl)))[i]? = some v.vsTy := by
    rw [← hv.types c hc, getElem?_map, hi, Option.map_some, hty]
  obtain ⟨fty, hfty, hfty'⟩ := Option.map_eq_some_iff.mp (getElem?_map ▸ hargs)
  have hcomp := component_vMap hv.length (hv.constrs ▸ mem_map_of_mem hc) hds hd hdi hfty
  rw [hfty', ← hv.ty] at hcomp
  rwa [assign, lookup_zip_eq_some (hv.nodup c hc) hi hdi, Option.getD_some]

end

end Scheme

/-- If the formula holds and so do the hypotheses for all induction variables then so does
what the formula was built around, for some values of the new variables. -/
theorem makeInductionLexAux_sound (hfree : I.Free S) {lexl : List Vlex} {n : ℕ} {timp f : Term}
    {ρ : VSymbol → D} (hs : Schemes S n lexl) (hn : old ≤ n)
    (hold : ∀ v ∈ lexl, v.vs.vsName.idTag < old ∧ ∀ w ∈ v.rq, w.vsName.idTag < old)
    (h : makeInductionLexAux t lexl timp = .ok f) (hρ : I.TypedVal τ ρ)
    (hyp : ∀ v ∈ lexl, v.Hyp S I τ old t ρ) (hf : I.Holds τ ρ f) :
    ∃ ρ', I.TypedVal τ ρ' ∧ (∀ w, w.vsName.idTag < n → ρ' w = ρ w) ∧ I.Holds τ ρ' timp := by
  induction hs generalizing timp f ρ with
  | nil =>
    cases h
    exact ⟨ρ, hρ, fun _ _ => rfl, hf⟩
  | @cons n _ v vl _ _ _ hv hvl ih =>
    rw [forall_mem_cons] at hold hyp
    obtain ⟨bodies, hcases, hne, hclose, hbodies⟩ := makeInductionLexAux_cons hv h
    have hcase := holds_of_tForallClose hclose hρ hf
    -- the branch of the constructor that the value of the induction variable is built by
    obtain ⟨b, hb, ds, hds, hd⟩ := hcases.cover hfree hne (hv.ty ▸ hρ v.vs)
    obtain ⟨c, hc, timp', hfs, hpl, hH, hrest⟩ := hbodies b hb
    rw [hfs] at hds hd
    have htyped := hv.typed hc hds
    rw [Holds, hcases.eval hfree hb (hfs ▸ hds) (hfs ▸ hd)
      (hpl ▸ Pattern.matchPatList_map_pvar (typed_length htyped))] at hcase
    obtain ⟨ρ', hρ', hkeep, htimp'⟩ := ih (hn.trans hv.le)
      hold.2 hrest (hρ.assign_zip htyped) (fun v' hv' => (hyp.2 v' hv').congr (hold.2 v' hv').1
        fun w hw => hv.assign_eq hc ρ (by omega)) hcase
    have hkeep' : ∀ w, w.vsName.idTag < n → ρ' w = ρ w := fun w hw =>
      (hkeep w (by have := hv.le; omega)).trans (hv.assign_eq hc ρ hw)
    refine ⟨ρ', hρ', hkeep', holds_of_makeH hH ?_ htimp'⟩
    intro x hx ds' hds'
    obtain ⟨hmem, hty⟩ := mem_filter.mp hx
    rw [decide_eq_true_eq] at hty
    have hrq : ∀ w ∉ v.rq, assign ρ' (v.rq.zip ds') w = ρ' w := by
      intro w hw
      refine assign_of_not_mem fun h => ?_
      obtain ⟨y, hy, rfl⟩ := mem_map.mp h
      exact hw (of_mem_zip hy).1
    have hx' : x ∉ v.rq := by
      intro h
      have h₁ := hold.1.2 x h
      have h₂ := (hv.tags c hc x hmem).1
      omega
    have hρ'' : I.TypedVal τ (assign ρ' (v.rq.zip ds')) := hρ'.assign_zip hds'
    refine hyp.1 _ (hρ''.assign ?_) ?_ ?_
    · rw [forall_mem_singleton, hty]
      exact hρ'' x
    · intro w hw hwrq hne
      rw [assign_cons, if_neg hne, assign_nil, hrq w hwrq, hkeep' w (by omega)]
    · rw [assign_cons, if_pos rfl, hrq x hx', hkeep x (hv.tags c hc x hmem).2]
      exact hv.component hc hds hd hmem hty ρ

end Formula

/-! ## The lexicographic order -/

/-- The value of an induction variable becomes one of its arguments, and the induction
variables before it keep their values. -/
def LexSmaller (S : DataSig) (I : Interp D) (τ : TyVal) (vl : List VSymbol) (ρ' ρ : VSymbol → D) :
    Prop :=
  ∃ v i, (lexIndices vl).find? v = some i ∧
    Component S I (ρ' v, v.vsTy.vMap τ) (ρ v, v.vsTy.vMap τ) ∧
    ∀ u j, (lexIndices vl).find? u = some j → j < i → ρ' u = ρ u

theorem lexSmaller_wellFounded (hfin : WellFounded (Component S I)) (vl : List VSymbol) :
    WellFounded (LexSmaller S I τ vl) := by
  -- a variable is looked at in the position of its index only
  let f : (VSymbol → D) → Fin vl.length → Option (D × Ty) := fun ρ i =>
    if (lexIndices vl).find? vl[i] = some i.1 then some (ρ vl[i], vl[i].vsTy.vMap τ) else none
  have hwf := Pi.Lex.wellFounded (fun i j : Fin vl.length => i < j)
    (fun _ => optLess_wellFounded hfin)
  refine Subrelation.wf ?_ (InvImage.wf f hwf)
  rintro ρ' ρ ⟨v, i, hi, hcomp, hbefore⟩
  obtain ⟨hlt, hget⟩ := List.getElem?_eq_some_iff.mp (lexIndices_get hi)
  refine ⟨⟨i, hlt⟩, fun j hj => ?_, ?_⟩
  · by_cases hlast : (lexIndices vl).find? vl[j] = some j.1
    · simp only [f, if_pos hlast, hbefore _ _ hlast hj]
    · simp only [f, if_neg hlast]
  · have hval : ∀ ρ, f ρ ⟨i, hlt⟩ = some (ρ v, v.vsTy.vMap τ) := by
      intro ρ
      simp only [f, Fin.getElem_fin, hget, if_pos hi]
    rw [hval, hval]
    exact ⟨_, rfl, _, rfl, hcomp⟩

/-- The hypothesis for an induction variable is about smaller values. -/
theorem Vlex.Ordered.smaller {old : ℕ} (hv : v.Ordered (lexIndices vl) qvl)
    (hvl : ∀ w ∈ vl, w.vsName.idTag < old) {ρ' : VSymbol → D}
    (hkeep : ∀ w, w.vsName.idTag < old → w ∉ v.rq → w ≠ v.vs → ρ' w = ρ w)
    (hcomp : Component S I (ρ' v.vs, v.vs.vsTy.vMap τ) (ρ v.vs, v.vs.vsTy.vMap τ)) :
    LexSmaller S I τ vl ρ' ρ := by
  obtain ⟨i, hi⟩ := Option.isSome_iff_exists.mp hv.index
  refine ⟨v.vs, i, hi, hcomp, fun u j hj hlt => ?_⟩
  have hdef : (lexIndices vl).findDef 0 v.vs = i := by rw [TagMap.findDef, hi, Option.getD_some]
  refine hkeep u (hvl u (mem_of_getElem? (lexIndices_get hj))) (fun hu => ?_) ?_
  · have := hv.later u hu j hj
    omega
  · rintro rfl
    rw [hi] at hj
    cases hj
    omega

/-! ## Soundness -/

/-- The body of the goal holds if the formula does for all values of the variables. -/
theorem makeInductionLex_sound (hkm : Known km) (hfree : I.Free (knownSig hkm))
    (hfin : WellFounded (Component (knownSig hkm) I)) {t f : Term} (hvl : ∀ v ∈ vl, v ∈ qvl)
    (hqvl : ∀ v ∈ qvl, v.vsName.idTag < n) (ht : ∀ v ∈ t.freeVars, v.vsName.idTag < n)
    (hsplit : qsplit km n vl qvl = .ok (lexl, rql)) (h : makeInductionLex lexl rql t = .ok f)
    (hf : ∀ ρ, I.TypedVal τ ρ → I.Holds τ ρ f) (ρ : VSymbol → D) (hρ : I.TypedVal τ ρ) :
    I.Holds τ ρ t := by
  obtain ⟨timp, htimp, h⟩ := bind_eq_ok.mp h
  obtain ⟨hschemes, hord⟩ := qsplit_spec hkm hsplit
  induction ρ using (lexSmaller_wellFounded (τ := τ) hfin vl).induction with
  | h ρ ih =>
    obtain ⟨ρ', hρ', hkeep, hbody⟩ := makeInductionLexAux_sound hfree hschemes le_rfl
      (fun v hv => ⟨hqvl _ (hord v hv).mem, fun w hw => hqvl w ((hord v hv).rq_mem w hw)⟩) h hρ
      (fun v hv ρ' hρ' hkeep hcomp =>
        ih ρ' ((hord v hv).smaller (fun w hw => hqvl w (hvl w hw)) hkeep hcomp) hρ')
      (hf ρ hρ)
    rw [holds_congr fun v hv => (hkeep v (ht v hv)).symm]
    exact holds_of_tForallClose htimp hρ' hbody

/-- The values of algebraic types are finite terms of constructors. -/
structure Interp.FiniteTerms (S : DataSig) (I : Interp D) : Prop where
  sound : I.Sound
  free : I.Free S
  finite : WellFounded (Component S I)

/-- A closed goal is valid if the formula is that induction on some of its variables
makes of it. -/
theorem inductionTyLex_sound {km : KnownMap} (hkm : Known km) {n : ℕ}
    {heuristicLex : List VSymbol → Term → Except Exn (List VSymbol)} {t0 f : Term}
    (hclosed : t0.freeVars = [])
    (hchoice : ∀ qvl t vl, heuristicLex qvl t = .ok vl → ∀ v ∈ vl, v ∈ qvl)
    (h : inductionTyLex km n heuristicLex t0 = .ok f) (hI : I.FiniteTerms (knownSig hkm))
    (hf : I.Valid f) : I.Valid t0 := by
  intro τ ρ hρ
  obtain ⟨vl, hvl, ⟨lexl, rql⟩, hsplit, h⟩ := bind₂_eq_ok.mp h
  obtain ⟨k, hk, hqvl, ht, hvalid⟩ := decomposeForallAux_spec (I := I) (τ := τ) t0
    (rfl : decomposeForallAux n [] [] t0 = _) (by simp) (by simp) (by simp [hclosed])
  rw [length_nil, Nat.zero_add] at hk
  refine hvalid (makeInductionLex_sound hkm hI.free hI.finite (hchoice _ _ vl hvl) ?_ ?_ hsplit h
    fun ρ hρ => hf τ ρ hρ) ρ hρ
  · exact hk ▸ hqvl
  · exact hk ▸ ht

/-! ## Induction on a natural number -/

def natDecl : Decl := .ddata [(tsNat, [(fsZero, []), (fsSucc, [none])])]

def natKn : KnownMap :=
  match knownAddDecl .empty natDecl with
  | .ok kn => kn
  | .error _ => .empty

theorem natKn_eq : knownAddDecl .empty natDecl = .ok natKn := rfl

theorem natDecl_wellFormed : natDecl.WellFormed := ⟨rfl, by decide⟩

theorem known_natKn : Known natKn := .add .empty natDecl_wellFormed natKn_eq

theorem constrsOf_natKn (ts : TySymbol) : constrsOf natKn ts = peanoSig.constrs ts := by
  by_cases hts : ts = tsNat
  · subst hts
    rfl
  · have hnot : Sym.ts ts.embed ∉ declNews natDecl := by
      rw [natDecl, ts_mem_declNews_ddata]
      simpa using hts
    have hfind := (knownAddDecl_added natKn_eq).find (.ts ts.embed)
    rw [if_neg hnot, TagMap.find?_empty] at hfind
    simp [constrsOf, findConstructors, hfind, peanoSig, hts]

theorem peano_finiteTerms : peano.FiniteTerms (knownSig known_natKn) where
  sound := peano_sound
  free := peano_free.congr constrsOf_natKn
  finite := by
    refine Subrelation.wf ?_ (InvImage.wf (fun x : (Ty × ℕ) × Ty => x.1.2) wellFounded_lt)
    rintro x y ⟨ts, tl, cs, ds, i, ty, _, _, hcs, hds, hy, hx, _, _⟩
    have hcs' : cs ∈ peanoSig.constrs ts := constrsOf_natKn ts ▸ (hcs : cs ∈ constrsOf natKn ts)
    obtain ⟨rfl, rfl | rfl⟩ := mem_constrs_peanoSig hcs'
    · cases hds
      simp at hx
    · obtain ⟨n, rfl⟩ := typed_fsSucc hds
      have hx' : (tyNat, n) = x.1 := by
        cases i with
        | zero => simpa using hx
        | succ i => simp at hx
      change x.1.2 < y.1.2
      rw [← hx', ← hy]
      simp [peano, taggedInterp]

/-- `n = m -> m = n` -/
def symmetric (n m : VSymbol) : Term :=
  tbinop [] .timplies (tapp [] psEqu [tvar [] n, tvar [] m] none)
    (tapp [] psEqu [tvar [] m, tvar [] n] none)

/-- `forall n : nat, x : int, m : nat. n = m -> m = n` -/
def symGoal : Term :=
  let n : VSymbol := ⟨⟨36⟩, tyNat⟩
  let m : VSymbol := ⟨⟨38⟩, tyNat⟩
  tQuantClose .tforall [n, ⟨⟨37⟩, tyInt⟩, m] [] (symmetric n m)

def natCases (v k : VSymbol) (f g : Term) : Term :=
  tCaseClose (tvar [] v) [(.papp fsZero [] tyNat, f), (.papp fsSucc [.pvar k] tyNat, g)]

/-- The hypothesis for the argument `j` of `m` is about all `n`, and the one for the argument `k` of
`n` about all `x` but the same `m`. -/
def symFormula : Term :=
  let n : VSymbol := ⟨⟨40⟩, tyNat⟩
  let x : VSymbol := ⟨⟨41⟩, tyInt⟩
  let m : VSymbol := ⟨⟨42⟩, tyNat⟩
  let k : VSymbol := ⟨⟨43⟩, tyNat⟩
  let j : VSymbol := ⟨⟨44⟩, tyNat⟩
  let hypK f := tbinop [] .timplies (tQuantClose .tforall [x] [] (symmetric k m)) f
  let hypJ f := tbinop [] .timplies (tQuantClose .tforall [n] [] (symmetric n j)) f
  tQuantClose .tforall [n] [] (natCases n k
    (tQuantClose .tforall [x, m] [] (natCases m j (symmetric n m) (hypJ (symmetric n m))))
    (tQuantClose .tforall [x, m] []
      (natCases m j (hypK (symmetric n m)) (hypJ (hypK (symmetric n m))))))

theorem valid_natCases {v k : VSymbol} {f g : Term} (hf : ∀ τ ρ, I.Holds τ ρ f)
    (hg : ∀ τ ρ, I.Holds τ ρ g) (τ : TyVal) (ρ : VSymbol → D) : I.Holds τ ρ (natCases v k f g) := by
  rw [natCases, tCaseClose, Holds, eval_tcase]
  have hne : [(Pattern.papp fsZero [] tyNat, f), (.papp fsSucc [.pvar k] tyNat, g)].map
      (fun b => tCloseBranch b.1 b.2) ≠ [] := by simp
  obtain ⟨c, hc, β, -, heq⟩ := evalBranches_cases (I := I) (τ := τ) (ρ := ρ) (b := [])
    (d := (I.eval τ ρ [] (tvar [] v)).1) hne
  rw [heq]
  have hclose : ∀ (p : Pattern) (h : Term), (∀ τ ρ, I.Holds τ ρ h) →
      (I.eval τ ρ (I.values τ β p.vars ++ []) (closeVars p.vars h)).2 := by
    intro p h hh
    rw [eval_closeVars (by simp [values])]
    exact hh _ _
  simp only [map_cons, map_nil, mem_cons, not_mem_nil, or_false] at hc
  rcases hc with rfl | rfl
  · exact hclose _ f hf
  · exact hclose _ g hg

theorem symFormula_valid : peano.Valid symFormula := by
  have hall : ∀ (vl : List VSymbol) (f : Term), (∀ τ ρ, peano.Holds τ ρ f) →
      ∀ τ ρ, peano.Holds τ ρ (tQuantClose .tforall vl [] f) :=
    fun vl f h τ ρ => (eval_forall_close vl [] f).mpr fun _ _ => h _ _
  have himp : ∀ (f g : Term), (∀ τ ρ, peano.Holds τ ρ g) →
      ∀ τ ρ, peano.Holds τ ρ (tbinop [] .timplies f g) := fun f g h τ ρ _ => h τ ρ
  have hsym : ∀ (n m : VSymbol) (τ : TyVal) (ρ : VSymbol → Ty × ℕ),
      peano.Holds τ ρ (symmetric n m) := by
    intro n m τ ρ h
    rw [eval_tapp_none, map_cons, map_singleton, peano_sound.equ] at h ⊢
    exact h.symm
  refine fun τ ρ _ => hall _ _ (valid_natCases (hall _ _ ?_) (hall _ _ ?_)) τ ρ
  · exact valid_natCases (hsym _ _) (himp _ _ (hsym _ _))
  · exact valid_natCases (himp _ _ (hsym _ _)) (himp _ _ (himp _ _ (hsym _ _)))

/-- Induction on `m` and then on `n`, against the order of the quantifiers. -/
def lastFirst (qvl : List VSymbol) (_ : Term) : Except Exn (List VSymbol) :=
  .ok (qvl.filter fun v => v.vsTy = tyNat).reverse

theorem inductionTyLex_sound_sym :
    inductionTyLex natKn 40 lastFirst symGoal = .ok symFormula ∧
      peano.Valid symFormula ∧ peano.Valid symGoal := by
  have hchoice : ∀ (qvl : List VSymbol) (t : Term) (vl : List VSymbol),
      lastFirst qvl t = .ok vl → ∀ v ∈ vl, v ∈ qvl := by
    intro qvl t vl h v hv
    cases h
    exact (mem_filter.mp (mem_reverse.mp hv)).1
  have h : inductionTyLex natKn 40 lastFirst symGoal = .ok symFormula := rfl
  exact ⟨h, symFormula_valid, inductionTyLex_sound known_natKn rfl hchoice h peano_finiteTerms
    symFormula_valid⟩

end Why3
