import Why3.Mlw.Variant
import Why3.Lib.Descent
import Why3.Logic.MapSimp
import Why3.Logic.Standard
import Why3.Pattern.Constructors

/-!
# Variants that decrease at every call cannot decrease forever

The value of a variant is a list of values, each with its type and its relation. The
orders that the components are compared in are put together into one order on such
triples, which is well-founded although it relates values of different types. The
formula of a call then makes the lists decrease at their first difference.
-/

namespace Why3

open Lib Term Interp Vc List

structure Measure (D : Type) where
  value : D
  ty : Option Ty
  rel : Option LSymbol

variable {D : Type} (S : DataSig) (I : Interp D)

structure VcEnv.StdInt (env : VcEnv) (int : ℤ → D) : Prop where
  carrier : I.carrier tyInt = Set.range int
  inj : Function.Injective int
  lit : ∀ z, I.lit (.constInt z) tyInt = int z
  le : ∀ a b, I.pr env.psIntLe [int a, int b] ↔ a ≤ b
  ge : ∀ a b, I.pr env.psIntGe [int a, int b] ↔ a ≥ b
  lt : ∀ a b, I.pr env.psIntLt [int a, int b] ↔ a < b
  gt : ∀ a b, I.pr env.psIntGt [int a, int b] ↔ a > b
  pl : ∀ a b, I.fn env.fsIntPl tyInt [int a, int b] = int (a + b)
  mn : ∀ a b, I.fn env.fsIntMn tyInt [int a, int b] = int (a - b)

def VcEnv.StdRange (env : VcEnv) (int : ℤ → D) : Prop :=
  ∀ (ts : TySymbol) (ls : LSymbol) (ir : IntRange), env.tsRanges.find? ts = some ls →
    ts.tsDef = .range ir → ∀ tl, ∀ d ∈ I.carrier (.tyapp ts tl),
      ∃ z, I.fn ls tyInt [d] = int z ∧ ir.irLower ≤ z ∧ z ≤ ir.irUpper

/-- What holds in every environment that the front end builds: types with constructors
of the logic are algebraic types of the logic, integers and range types have no
constructors, and none of the other symbols is a constructor. -/
structure VcEnv.Proper (env : VcEnv) : Prop where
  constrs : ∀ ts rsl, env.itdConstructors ts = some rsl → rsl ≠ [] → none ∉ rsl →
    rsl = (S.constrs ts).map some
  noConstrs : ∀ ts rsl, ts = tsInt ∨ isRangeTypeDef ts.tsDef = true →
    env.itdConstructors ts = some rsl → rsl = []
  bool : S.constrs tsBool = [fsBoolTrue, fsBoolFalse]
  symbols : ∀ ls ∈ [env.psIntLe, env.psIntGe, env.psIntLt, env.psIntGt, env.fsIntPl, env.fsIntMn,
    env.psWfAcc], ls.lsConstr = 0
  ranges : ∀ ts ls, env.tsRanges.find? ts = some ls → ls.lsConstr = 0

/-- Interpretations with standard integers, range types within their bounds, finite
values of algebraic types, all mappings, and an accessibility that holds of accessible
values only. -/
structure VcEnv.Standard (env : VcEnv) (int : ℤ → D) : Prop where
  sound : I.Sound
  free : I.Free S
  functional : I.Functional
  stdInt : env.StdInt I int
  stdRange : env.StdRange I int
  finite : WellFounded (Component S I)
  acc : ∀ ty, ∀ F ∈ I.carrier (tyFunc ty (tyFunc ty tyBool)), ∀ d ∈ I.carrier ty,
    I.pr env.psWfAcc [F, d] → Acc (fun y x => y ∈ I.carrier ty ∧ I.relOf ty F y x) d

/-! ## The order on components -/

section Below

variable (env : VcEnv) (int : ℤ → D)

def numeric : Ty → Bool
  | .tyapp ts _ => decide (ts = tsInt) || isRangeTypeDef ts.tsDef
  | .tyvar _ => false

inductive Below : Measure D → Measure D → Prop where
  | rel {ty : Ty} {r : LSymbol} {x y : D} (hx : x ∈ I.carrier ty) (h : I.pr r [x, y])
      (hacc : Acc (fun a b => a ∈ I.carrier ty ∧ I.pr r [a, b]) y) :
      Below ⟨x, some ty, some r⟩ ⟨y, some ty, some r⟩
  | int {a b : ℤ} (hb : 0 ≤ b) (h : a < b) :
      Below ⟨int a, some tyInt, none⟩ ⟨int b, some tyInt, none⟩
  | range {ts : TySymbol} {tl : List Ty} {ls : LSymbol} {ir : IntRange} {x y : D} {a b : ℤ}
      (hts : ts ≠ tsInt) (hls : env.tsRanges.find? ts = some ls) (hir : ts.tsDef = .range ir)
      (hx : I.fn ls tyInt [x] = int a) (hy : I.fn ls tyInt [y] = int b) (ha : ir.irLower ≤ a)
      (h : a < b) : Below ⟨x, some (.tyapp ts tl), none⟩ ⟨y, some (.tyapp ts tl), none⟩
  | arg {x y : D} {ty ty' : Ty} (hty : numeric ty = false) (h : Component S I (x, ty') (y, ty)) :
      Below ⟨x, some ty', none⟩ ⟨y, some ty, none⟩

variable {S I env int} {ts : TySymbol} {tl : List Ty}

theorem acc_rel (ty : Option Ty) (r : LSymbol) (y : D) :
    Acc (Below S I env int) ⟨y, ty, some r⟩ := by
  cases ty with
  | none => exact ⟨_, fun _ h => nomatch h⟩
  | some ty =>
    by_cases hy : Acc (fun a b => a ∈ I.carrier ty ∧ I.pr r [a, b]) y
    · induction hy with
      | intro y _ ih =>
        refine ⟨_, fun _ h => ?_⟩
        cases h with
        | rel hx h _ => exact ih _ ⟨hx, h⟩
    · refine ⟨_, fun _ h => ?_⟩
      cases h with
      | rel _ _ hacc => exact absurd hacc hy

section

variable (hint : Function.Injective int)
include hint

theorem acc_int (y : D) : Acc (Below S I env int) ⟨y, some tyInt, none⟩ := by
  suffices h : ∀ (n : ℕ) (b : ℤ), (b + 1).toNat = n →
      Acc (Below S I env int) ⟨int b, some tyInt, none⟩ by
    refine ⟨_, fun _ hlt => ?_⟩
    cases hlt with
    | @int a b _ _ => exact h _ a rfl
    | range hts => exact absurd rfl hts
    | arg hty => cases hty
  intro n
  induction n using Nat.strong_induction_on with
  | _ n ih =>
    intro b hb
    refine ⟨_, fun _ hlt => ?_⟩
    generalize hy : int b = y at hlt
    cases hlt with
    | @int a b' hb' h =>
      obtain rfl := hint hy
      exact ih (a + 1).toNat (by omega) a rfl
    | range hts => exact absurd rfl hts
    | arg hty => cases hty

theorem acc_range (hts : ts ≠ tsInt) {ir : IntRange} (hir : ts.tsDef = .range ir) (y : D) :
    Acc (Below S I env int) ⟨y, some (.tyapp ts tl), none⟩ := by
  have hnum : numeric (.tyapp ts tl) = true := by simp [numeric, hir, isRangeTypeDef]
  suffices h : ∀ (n : ℕ) (ls : LSymbol) (y : D) (b : ℤ), env.tsRanges.find? ts = some ls →
      I.fn ls tyInt [y] = int b → (b - ir.irLower).toNat = n →
      Acc (Below S I env int) ⟨y, some (.tyapp ts tl), none⟩ by
    refine ⟨_, fun _ hlt => ?_⟩
    cases hlt with
    | int => exact absurd rfl hts
    | range _ hls _ hx _ _ _ => exact h _ _ _ _ hls hx rfl
    | arg hty => exact absurd hty (by simp [hnum])
  intro n
  induction n using Nat.strong_induction_on with
  | _ n ih =>
    intro ls y b hls hy hb
    refine ⟨_, fun _ hlt => ?_⟩
    cases hlt with
    | int => exact absurd rfl hts
    | @range _ _ ls' ir' x _ a b' _ hls' hir' hx hy' ha h =>
      obtain rfl : ls = ls' := Option.some.inj (hls.symm.trans hls')
      obtain rfl : ir = ir' := TypeDef.range.inj (hir.symm.trans hir')
      obtain rfl : b = b' := hint (hy.symm.trans hy')
      exact ih (a - ir.irLower).toNat (by omega) ls x a hls hx rfl
    | arg hty => exact absurd hty (by simp [hnum])

theorem acc_numeric {ty : Ty} (hty : numeric ty = true) (y : D) :
    Acc (Below S I env int) ⟨y, some ty, none⟩ := by
  cases ty with
  | tyvar v => cases hty
  | tyapp ts tl =>
    by_cases hts : ts = tsInt
    · refine ⟨_, fun _ hlt => ?_⟩
      cases hlt with
      | int => exact acc_int hint _
      | range h => exact absurd hts h
      | arg h => exact absurd h (by simp [hty])
    · cases hdef : ts.tsDef with
      | range ir => exact acc_range hint hts hdef y
      | _ => simp [numeric, hts, hdef, isRangeTypeDef] at hty

end

theorem below_wellFounded (h : env.Standard S I int) : WellFounded (Below S I env int) := by
  have hint := h.stdInt.inj
  have harg : ∀ x : D × Ty, Acc (Below S I env int) ⟨x.1, some x.2, none⟩ := by
    intro x
    induction x using h.finite.induction with
    | h x ih =>
      cases hnum : numeric x.2 with
      | true => exact acc_numeric hint hnum x.1
      | false =>
        obtain ⟨y, ty⟩ := x
        refine ⟨_, fun _ hlt => ?_⟩
        cases hlt with
        | int => exact acc_int hint _
        | range hts _ hir => exact acc_range hint hts hir _
        | arg _ hcomp => exact ih _ hcomp
  refine ⟨fun m => ?_⟩
  obtain ⟨y, ty, r⟩ := m
  cases r with
  | some r => exact acc_rel ty r y
  | none =>
    cases ty with
    | none => exact ⟨_, fun _ hlt => nomatch hlt⟩
    | some ty => exact harg (y, ty)

end Below

/-! ## The arguments of a constructor -/

variable {S I} {env : VcEnv} {int : ℤ → D} {τ : TyVal} {ρ : VSymbol → D} {n : ℕ}
  {ts : TySymbol} {tl : List Ty} {sbs : TagMap TvSymbol Ty} {nty ty oty : Ty} {oldT t f : Term}
  {dt rest : Except Exn Term}

theorem addArgs_cons {fty : Ty} {tyl : List Ty} {pl : List Pattern}
    (h : addArgs sbs nty t n (fty :: tyl) = .ok (pl, f)) :
    ∃ ql g, addArgs sbs nty t (n + 1) tyl = .ok (ql, g) ∧
      (tyInst sbs fty = nty ∧ pl = .pvar ⟨⟨n⟩, nty⟩ :: ql ∧
          (∃ e, tEqu (tvar [] ⟨⟨n⟩, nty⟩) t = .ok e ∧ tOrSimp e g = .ok f) ∨
        tyInst sbs fty ≠ nty ∧ pl = .pwild (tyInst sbs fty) :: ql ∧ f = g) := by
  obtain ⟨⟨ql, g⟩, hrest, h⟩ := bind_eq_ok.mp h
  refine ⟨ql, g, hrest, ?_⟩
  dsimp only at h
  split at h
  · next hty =>
      obtain ⟨e, he, f', hf, h⟩ := bind₂_eq_ok.mp h
      cases h
      exact .inl ⟨hty, rfl, e, he, hf⟩
  · next hty =>
      cases h
      exact .inr ⟨hty, rfl, rfl⟩

/-- The patterns have the types of the arguments, and new variables. -/
theorem addArgs_typed : ∀ {tyl : List Ty} {n : ℕ} {pl : List Pattern} {f : Term}, addArgs sbs nty t n tyl = .ok (pl, f) →
      pl.map Pattern.patTy = tyl.map (tyInst sbs) ∧ (∀ p ∈ pl, PatTyped S p) ∧
        (∀ v ∈ Pattern.varsList pl, n ≤ v.vsName.idTag) ∧ (Pattern.varsList pl).Nodup
  | [], n, pl, f, h => by
    cases h
    exact ⟨rfl, by simp, by simp [Pattern.varsList], by simp [Pattern.varsList]⟩
  | fty :: tyl, n, pl, f, h => by
    obtain ⟨ql, g, hrest, h⟩ := addArgs_cons h
    obtain ⟨htys, hpl, htags, hnodup⟩ := addArgs_typed hrest
    rcases h with ⟨hty, rfl, e, he, hf⟩ | ⟨_, rfl, rfl⟩
    · refine ⟨by rw [map_cons, map_cons, htys, hty]; rfl,
        forall_mem_cons.mpr ⟨.pvar _, hpl⟩, ?_, ?_⟩
      · intro v hv
        rcases mem_append.mp hv with hv | hv
        · rw [mem_singleton.mp hv]
        · exact le_trans (Nat.le_succ n) (htags v hv)
      · refine nodup_cons.mpr ⟨fun hmem => ?_, hnodup⟩
        have : n + 1 ≤ n := htags _ hmem
        omega
    · refine ⟨by rw [map_cons, map_cons, htys]; rfl,
        forall_mem_cons.mpr ⟨.pwild _, hpl⟩, ?_, hnodup⟩
      exact fun v hv => le_trans (Nat.le_succ n) (htags v hv)

theorem addArgs_wellTyped (hI : I.Sound) (ht : WellTyped S [] t (some nty)) :
    ∀ {tyl : List Ty} {n : ℕ} {pl : List Pattern} {f : Term},
      addArgs sbs nty t n tyl = .ok (pl, f) → WellTyped S [] f none
  | [], n, pl, f, h => by
    cases h
    exact .tfalse []
  | fty :: tyl, n, pl, f, h => by
    obtain ⟨ql, g, hrest, h⟩ := addArgs_cons h
    have hg := addArgs_wellTyped hI ht hrest
    rcases h with ⟨_, _, e, he, hf⟩ | ⟨_, _, rfl⟩
    · have hor := tBinarySimp_rewrites (Φ := .free) (WellTyped.tEqu he (.tvar [] _) ht) hg hI .tor
      exact (Rewrites.of_ok hf hor).typed
    · exact hg

theorem addArgs_match : ∀ {tyl : List Ty} {n : ℕ} {pl : List Pattern} {f : Term} {ds : List D},
    addArgs sbs nty t n tyl = .ok (pl, f) → ds.length = tyl.length →
      ∃ β, I.matchPatList τ pl ds = some β ∧ ∀ i d, ds[i]? = some d →
        (tyl.map (tyInst sbs))[i]? = some nty → β.lookup ⟨⟨n + i⟩, nty⟩ = some d
  | [], n, pl, f, ds, h, hlen => by
    cases h
    rw [length_nil, length_eq_zero_iff] at hlen
    subst hlen
    exact ⟨[], rfl, by simp⟩
  | fty :: tyl, n, pl, f, [], h, hlen => by simp at hlen
  | fty :: tyl, n, pl, f, d :: ds, h, hlen => by
    obtain ⟨ql, g, hrest, h⟩ := addArgs_cons h
    obtain ⟨β, hβ, hval⟩ := addArgs_match hrest (Nat.succ.inj hlen)
    have hsucc : ∀ i, (⟨⟨n + (i + 1)⟩, nty⟩ : VSymbol) = ⟨⟨n + 1 + i⟩, nty⟩ := by
      intro i
      rw [Nat.add_right_comm, Nat.add_assoc]
    rcases h with ⟨hty, rfl, _⟩ | ⟨hty, rfl, rfl⟩
    · refine ⟨(⟨⟨n⟩, nty⟩, d) :: β, by rw [matchPatList_cons, hβ]; rfl, ?_⟩
      intro i d' hd hi
      cases i with
      | zero => simpa using hd
      | succ i =>
        have hne : ((⟨⟨n + 1 + i⟩, nty⟩ : VSymbol) == ⟨⟨n⟩, nty⟩) = false := by simp; omega
        rw [hsucc, lookup_cons, hne]
        exact hval i d' hd hi
    · refine ⟨β, by rw [matchPatList_cons, hβ]; rfl, ?_⟩
      intro i d' hd hi
      cases i with
      | zero => exact absurd (Option.some.inj hi) hty
      | succ i =>
        rw [hsucc]
        exact hval i d' hd hi

theorem addArgs_holds (hI : I.Sound) (hρ : I.TypedVal τ ρ) (ht : WellTyped S [] t (some nty)) :
    ∀ {tyl : List Ty} {n : ℕ} {pl : List Pattern} {f : Term} {ds : List D},
      addArgs sbs nty t n tyl = .ok (pl, f) → ds.length = tyl.length →
      (∀ i d, ds[i]? = some d → (tyl.map (tyInst sbs))[i]? = some nty →
        ρ ⟨⟨n + i⟩, nty⟩ = d) → I.Holds τ ρ f →
      ∃ i : ℕ, ds[i]? = some (I.val τ ρ t) ∧ (tyl.map (tyInst sbs))[i]? = some nty
  | [], n, pl, f, ds, h, _, _, hf => by
    cases h
    exact hf.elim
  | fty :: tyl, n, pl, f, [], h, hlen, _, _ => by simp at hlen
  | fty :: tyl, n, pl, f, d :: ds, h, hlen, hval, hf => by
    obtain ⟨ql, g, hrest, h⟩ := addArgs_cons h
    have hval' : ∀ i d', ds[i]? = some d' → (tyl.map (tyInst sbs))[i]? = some nty →
        ρ ⟨⟨n + 1 + i⟩, nty⟩ = d' := by
      intro i d' hd hi
      rw [← hval (i + 1) d' hd hi, Nat.add_right_comm, Nat.add_assoc]
    have hg : I.Holds τ ρ g → ∃ i : ℕ, (d :: ds)[i]? = some (I.val τ ρ t) ∧
        ((fty :: tyl).map (tyInst sbs))[i]? = some nty := by
      intro hg
      obtain ⟨i, hd, hi⟩ := addArgs_holds hI hρ ht hrest (Nat.succ.inj hlen) hval' hg
      exact ⟨i + 1, hd, hi⟩
    rcases h with ⟨hty, rfl, e, he, hor⟩ | ⟨_, rfl, rfl⟩
    · have hsimp := tBinarySimp_rewrites (Φ := .free) (WellTyped.tEqu he (.tvar [] _) ht)
        (addArgs_wellTyped hI ht hrest) hI .tor
      rcases ((Rewrites.of_ok hor hsimp).holds ⟨hρ, trivial⟩).mp hf with hf | hf
      · have heq : ρ ⟨⟨n⟩, nty⟩ = I.val τ ρ t := (eval_tEqu hI he).mp hf
        have hd : ρ ⟨⟨n⟩, nty⟩ = d := hval 0 d rfl (by simp [hty])
        exact ⟨0, by rw [getElem?_cons_zero, ← hd, heq], by simp [hty]⟩
      · exact hg hf
    · exact hg hf

/-! ## The comparison of two terms -/

/-- A term that can be compared: its type is well formed, and its variables are not new. -/
structure Comparable (S : DataSig) (n : ℕ) (t : Term) (ty : Ty) : Prop where
  typed : WellTyped S [] t (some ty)
  saturated : ty.saturated = true
  old : ∀ v ∈ t.freeVars, v.vsName.idTag < n

noncomputable def measureOf (I : Interp D) (τ : TyVal) (ρ : VSymbol → D) (x : Term × Option LSymbol) :
    Measure D :=
  ⟨I.val τ ρ x.1, x.1.tTy.map (Ty.vMap τ), x.2⟩

theorem Comparable.measureOf (ht : Comparable S n t ty) (r : Option LSymbol) :
    measureOf I τ ρ (t, r) = ⟨I.val τ ρ t, some (ty.vMap τ), r⟩ := by
  rw [Why3.measureOf, ht.typed.tTy_eq, Option.map_some]

theorem Comparable.val_mem (ht : Comparable S n t ty) (hI : I.Sound) (hρ : I.TypedVal τ ρ) :
    I.val τ ρ t ∈ I.carrier (ty.vMap τ) :=
  (ht.typed.eval_mem hI hρ .nil ty rfl).1

theorem WellTyped.tApp_pair {ls : LSymbol} {t u : Term} {o o₁ o₂ : Option Ty}
    (h : Term.tApp ls [t, u] o = .ok f) (hls : ls.lsConstr = 0) (ht : WellTyped S [] t o₁)
    (hu : WellTyped S [] u o₂) : WellTyped S [] f o := by
  refine .tApp h (.inl hls) ?_
  simp only [mem_cons, not_mem_nil, or_false, forall_eq_or_imp, forall_eq]
  exact ⟨⟨_, ht⟩, ⟨_, hu⟩⟩

theorem addCs_spec {cs : LSymbol} {br : Pattern × Term} (hl : tl.length = ts.tsArgs.length)
    (hsbs : ∀ v ∈ ts.tsArgs, sbs.find? v = some (paramMap ts tl v)) (hcs : cs ∈ S.constrs ts)
    (h : addCs n sbs (.tyapp ts tl) ty t cs = .ok br) :
    ∃ pl g, addArgs sbs ty t n cs.lsArgs = .ok (pl, g) ∧
      br = tCloseBranch (.papp cs pl (.tyapp ts tl)) g ∧
      PatTyped S (.papp cs pl (.tyapp ts tl)) ∧
      cs.lsArgs.map (tyInst sbs) = cs.lsArgs.map (Ty.vMap (paramMap ts tl)) := by
  obtain ⟨⟨pl, g⟩, hargs, p, hp, h⟩ := bind₂_eq_ok.mp h
  obtain rfl := Pattern.patApp_eq_ok hp
  have hinst : cs.lsArgs.map (tyInst sbs) = cs.lsArgs.map (Ty.vMap (paramMap ts tl)) :=
    map_congr_left fun fty hfty => tyInst_paramMap hsbs (S.freevars hcs fty hfty)
  obtain ⟨htys, hpl, _, hnodup⟩ := addArgs_typed hargs
  exact ⟨pl, g, hargs, (Except.ok.inj h).symm, .papp hl hcs (htys.trans hinst) hnodup hpl, hinst⟩

theorem mapM_getCs {rsl : List (Option LSymbol)} {csl : List LSymbol}
    (h : rsl.mapM Vc.getCs = .ok csl) : rsl = csl.map some := by
  have hall := mapM_eq_ok.mp h
  clear h
  induction hall with
  | nil => rfl
  | @cons r cs rsl csl hr _ ih =>
    rw [map_cons, ← ih]
    cases r with
    | none => cases hr
    | some cs' =>
      cases hr
      rfl

theorem decreaseAlg_eq (h : decreaseAlg env n oldT t = .ok f) (hold : oldT.tTy = some oty)
    (ht : t.tTy = some ty) : ∃ ts tl rsl csl sbs bl, oty = .tyapp ts tl ∧
      env.itdConstructors ts = some rsl ∧ rsl = csl.map some ∧ csl ≠ [] ∧
      tyMatchExn .empty (.tyapp ts (ts.tsArgs.map .tyvar)) oty = .ok sbs ∧
      csl.mapM (addCs n sbs oty ty t) = .ok bl ∧ tCase oldT bl = .ok f := by
  obtain ⟨oty', ho, nty, hn, h⟩ := bind₂_eq_ok.mp h
  rw [tType_eq_ok, hold, Option.some.injEq] at ho
  rw [tType_eq_ok, ht, Option.some.injEq] at hn
  subst ho hn
  cases oty with
  | tyvar v => cases h
  | tyapp ts tl =>
    dsimp only at h
    split at h
    · cases h
    · next rsl hrsl =>
        obtain ⟨csl, hcsl, h⟩ := bind_eq_ok.mp h
        split at h
        · cases h
        · next hne =>
            obtain ⟨sbs, hsbs, bl, hbl, h⟩ := bind₂_eq_ok.mp h
            exact ⟨ts, tl, rsl, csl, sbs, bl, rfl, hrsl, mapM_getCs hcsl, by simpa using hne,
              hsbs, hbl, h⟩

/-- The branches for the constructors `cl` of a type, each with its patterns and its
formula. -/
structure Branches (S : DataSig) (n : ℕ) (ts : TySymbol) (tl : List Ty) (ty : Ty) (t : Term)
    (sbs : TagMap TvSymbol Ty) (cl : List (LSymbol × List Pattern × Term)) : Prop where
  constrs : cl.map Prod.fst = S.constrs ts
  args : ∀ c ∈ cl, addArgs sbs ty t n c.1.lsArgs = .ok c.2
  typed : ∀ c ∈ cl, PatTyped S (.papp c.1 c.2.1 (.tyapp ts tl))
  inst : ∀ c ∈ cl, c.1.lsArgs.map (tyInst sbs) = c.1.lsArgs.map (Ty.vMap (paramMap ts tl))

theorem branches_spec {bl : List (Pattern × Term)} (hl : tl.length = ts.tsArgs.length)
    (hsbs : ∀ v ∈ ts.tsArgs, sbs.find? v = some (paramMap ts tl v))
    (h : (S.constrs ts).mapM (addCs n sbs (.tyapp ts tl) ty t) = .ok bl) :
    ∃ cl, Branches S n ts tl ty t sbs cl ∧
      bl = cl.map fun c => tCloseBranch (.papp c.1 c.2.1 (.tyapp ts tl)) c.2.2 := by
  have hall := mapM_eq_ok.mp h
  suffices hsuff : ∀ {csl : List LSymbol}, (∀ cs ∈ csl, cs ∈ S.constrs ts) →
      Forall₂ (fun cs br => addCs n sbs (.tyapp ts tl) ty t cs = .ok br) csl bl →
      ∃ cl : List (LSymbol × List Pattern × Term), cl.map Prod.fst = csl ∧
        (∀ c ∈ cl, addArgs sbs ty t n c.1.lsArgs = .ok c.2 ∧
          PatTyped S (.papp c.1 c.2.1 (.tyapp ts tl)) ∧
          c.1.lsArgs.map (tyInst sbs) = c.1.lsArgs.map (Ty.vMap (paramMap ts tl))) ∧
        bl = cl.map fun c => tCloseBranch (.papp c.1 c.2.1 (.tyapp ts tl)) c.2.2 by
    obtain ⟨cl, hcl, hspec, hbl⟩ := hsuff (fun _ h => h) hall
    exact ⟨cl, ⟨hcl, fun c hc => (hspec c hc).1, fun c hc => (hspec c hc).2.1,
      fun c hc => (hspec c hc).2.2⟩, hbl⟩
  clear h hall
  intro csl hcsl hall
  induction hall with
  | nil => exact ⟨[], rfl, by simp, rfl⟩
  | @cons cs br csl bl hbr _ ih =>
    rw [forall_mem_cons] at hcsl
    obtain ⟨cl, rfl, hspec, rfl⟩ := ih hcsl.2
    obtain ⟨pl, g, hargs, rfl, hp, hinst⟩ := addCs_spec hl hsbs hcsl.1 hbr
    exact ⟨(cs, pl, g) :: cl, rfl, forall_mem_cons.mpr ⟨⟨hargs, hp, hinst⟩, hspec⟩, rfl⟩

variable {cl : List (LSymbol × List Pattern × Term)}

theorem Branches.cases (hcl : Branches S n ts tl ty t sbs cl) : ConstrCases S ts tl cl :=
  ⟨hcl.constrs, hcl.typed⟩

/-- The formula says that the term is an argument of the constructor. -/
theorem Branches.component (hcl : Branches S n ts tl ty t sbs cl) (hI : I.Sound)
    (hfree : I.Free S) (hρ : I.TypedVal τ ρ) (hne : cl ≠ [])
    (hold : Comparable S n oldT (.tyapp ts tl)) (ht : Comparable S n t ty)
    (hf : I.Holds τ ρ (tcase [] oldT
      (cl.map fun c => tCloseBranch (.papp c.1 c.2.1 (.tyapp ts tl)) c.2.2))) :
    Component S I (I.val τ ρ t, ty.vMap τ) (I.val τ ρ oldT, (Ty.tyapp ts tl).vMap τ) := by
  obtain ⟨c, hc, ds, hds, hd⟩ := hcl.cases.cover hfree hne (hold.val_mem hI hρ)
  have hlen : ds.length = c.1.lsArgs.length := (Typed.length_eq hds).symm
  obtain ⟨β, hβ, hβval⟩ := addArgs_match (I := I) (τ := τ) (hcl.args c hc) hlen
  have hkeys : ∀ v ∈ t.freeVars, ρ v = assign ρ β v := by
    intro v hv
    refine (assign_of_not_mem fun hmem => ?_).symm
    have hpl := (addArgs_typed (S := S) (hcl.args c hc)).2
    have hv' := hpl.2.1 v ((matchPatList_keys hpl.1 hβ).mem_iff.mp hmem)
    have := ht.old v hv
    omega
  have hvalt : I.val τ (assign ρ β) t = I.val τ ρ t :=
    congrArg Prod.fst (eval_congr t [] hkeys).symm
  rw [Holds, hcl.cases.eval hfree hc hds hd hβ] at hf
  have hρβ : I.TypedVal τ (assign ρ β) := hρ.assign (matchPat_typed (hcl.typed c hc)
    ((hcl.cases.matchPat hfree hc hds hd).trans hβ) (hold.val_mem hI hρ))
  obtain ⟨i, hdi, hi⟩ := addArgs_holds hI hρβ ht.typed (hcl.args c hc) hlen
    (fun i d hdi hi => by rw [assign, hβval i d hdi hi, Option.getD_some]) hf
  rw [hvalt] at hdi
  rw [hcl.inst c hc, getElem?_map] at hi
  obtain ⟨fty, hfty, rfl⟩ := Option.map_eq_some_iff.mp hi
  exact component_vMap (hcl.cases.patTys hc).1 (hcl.cases.mem hc) hds hd hdi hfty

/-- The formula makes a component decrease. -/
def Decreases (S : DataSig) (I : Interp D) (env : VcEnv) (int : ℤ → D) (τ : TyVal)
    (ρ : VSymbol → D) (oldT t : Term) (r : Option LSymbol) (f : Term) : Prop :=
  WellTyped S [] f none ∧ (I.Holds τ ρ f →
    Below S I env int (measureOf I τ ρ (t, r)) (measureOf I τ ρ (oldT, r)))

section

variable (henv : env.Proper S) (hstd : env.Standard S I int) (hρ : I.TypedVal τ ρ)
include henv hstd hρ

theorem decreaseInt_spec (hold : Comparable S n oldT tyInt) (ht : Comparable S n t tyInt)
    (h : decreaseInt env oldT t = .ok f) : Decreases S I env int τ ρ oldT t none f := by
  obtain ⟨le, hle, lt, hlt, h⟩ := bind₂_eq_ok.mp h
  obtain rfl := tBinary_eq h
  have hle' := WellTyped.tApp_pair (S := S) hle (henv.symbols _ (by simp)) (.tconst [] _ _) hold.typed
  have hlt' := WellTyped.tApp_pair hlt (henv.symbols _ (by simp)) ht.typed hold.typed
  refine ⟨.tbinop [] _ hle' hlt', fun hf => ?_⟩
  have hint : ∀ {u}, Comparable S n u tyInt → ∃ z, int z = I.val τ ρ u := by
    intro u hu
    have hmem : I.val τ ρ u ∈ I.carrier tyInt := hu.val_mem hstd.sound hρ
    rwa [hstd.stdInt.carrier] at hmem
  obtain ⟨a, ha⟩ := hint ht
  obtain ⟨b, hb⟩ := hint hold
  rw [Holds, eval_tand, tApp_eq hle, tApp_eq hlt, eval_tapp_none, eval_tapp_none] at hf
  simp only [map_cons, map_nil] at hf
  rw [show (I.eval τ ρ [] t).1 = int a from ha.symm,
    show (I.eval τ ρ [] oldT).1 = int b from hb.symm, Vc.tNatConst, eval_tconst] at hf
  rw [show (tyInt.vMap τ) = tyInt from rfl, hstd.stdInt.lit, hstd.stdInt.le, hstd.stdInt.lt] at hf
  rw [ht.measureOf, hold.measureOf, ← ha, ← hb]
  exact .int (by exact_mod_cast hf.1) hf.2

theorem decreaseRange_spec (hts : ts ≠ tsInt) (hrange : isRangeTypeDef ts.tsDef = true)
    (hold : Comparable S n oldT (.tyapp ts tl)) (ht : Comparable S n t (.tyapp ts tl))
    (h : decreaseRange env ts oldT t = .ok f) : Decreases S I env int τ ρ oldT t none f := by
  obtain ⟨ls, hls, new, hnew, old, hold', h⟩ := bind₃_eq_ok.mp h
  have hls := intOfRange_eq_ok hls
  obtain ⟨ir, hir⟩ : ∃ ir, ts.tsDef = .range ir := by
    cases hdef : ts.tsDef with
    | range ir => exact ⟨ir, rfl⟩
    | _ => simp [hdef, isRangeTypeDef] at hrange
  have hone : ∀ {u v}, Comparable S n u (.tyapp ts tl) → tApp ls [u] (some tyInt) = .ok v →
      WellTyped S [] v (some tyInt) := by
    intro u v hu hv
    refine .tApp hv (.inl (henv.ranges ts ls hls)) ?_
    simp only [mem_singleton, forall_eq]
    exact ⟨_, hu.typed⟩
  refine ⟨WellTyped.tApp_pair h (henv.symbols _ (by simp)) (hone ht hnew) (hone hold hold'),
    fun hf => ?_⟩
  obtain ⟨a, ha, hlow, _⟩ := hstd.stdRange ts ls ir hls hir _ _ (ht.val_mem hstd.sound hρ)
  obtain ⟨b, hb, _, _⟩ := hstd.stdRange ts ls ir hls hir _ _ (hold.val_mem hstd.sound hρ)
  have hval : ∀ {u v : Term}, tApp ls [u] (some tyInt) = .ok v →
      (I.eval τ ρ [] v).1 = I.fn ls tyInt [I.val τ ρ u] := by
    intro u v hv
    rw [tApp_eq hv, eval_tapp_some]
    rfl
  rw [Holds, tApp_eq h, eval_tapp_none] at hf
  simp only [map_cons, map_nil] at hf
  rw [hval hnew, hval hold', ha, hb, hstd.stdInt.lt] at hf
  rw [ht.measureOf, hold.measureOf, Ty.vMap_tyapp]
  exact .range hts hls hir ha hb hlow hf

theorem decreaseAlg_spec (hold : Comparable S n oldT oty) (ht : Comparable S n t ty)
    (h : decreaseAlg env n oldT t = .ok f) : Decreases S I env int τ ρ oldT t none f := by
  obtain ⟨ts, tl, rsl, csl, sbs, bl, rfl, hrsl, rfl, hne, hsbs, hbl, hcase⟩ :=
    decreaseAlg_eq h hold.typed.tTy_eq ht.typed.tTy_eq
  have hl : tl.length = ts.tsArgs.length := by
    have := hold.saturated
    rw [Ty.saturated_tyapp] at this
    exact this.1
  obtain rfl : csl = S.constrs ts :=
    map_injective_iff.mpr (Option.some_injective _)
      (henv.constrs ts _ hrsl (by simpa using hne) (by simp))
  have hnum : numeric (.tyapp ts tl) = false := by
    rw [Bool.eq_false_iff]
    intro hnum
    have := henv.noConstrs ts _ (by simpa [numeric] using hnum) hrsl
    exact hne (by simpa using this)
  have hsbs' : ∀ v ∈ ts.tsArgs, sbs.find? v = some (paramMap ts tl v) := by
    obtain ⟨s, hs, hfind⟩ := tyMatchExn_value hl
    rw [hs] at hsbs
    cases hsbs
    exact hfind
  obtain ⟨cl, hcl, rfl⟩ := branches_spec hl hsbs' hbl
  obtain ⟨rfl, hne'⟩ := tCase_spec hcase
  refine ⟨.tcase [] hold.typed hold.saturated hne' ?_ ?_, fun hf => ?_⟩
  · exact forall_mem_map.mpr fun c hc => ⟨hcl.typed c hc, rfl⟩
  · refine forall_mem_map.mpr fun c hc => ?_
    exact (addArgs_wellTyped hstd.sound ht.typed (hcl.args c hc)).closeVars _
  · rw [ht.measureOf, hold.measureOf]
    exact .arg hnum (hcl.component hstd.sound hstd.free hρ (by simpa using hne') hold ht hf)

theorem decreaseDef_spec (hold : Comparable S n oldT oty) (ht : Comparable S n t ty)
    (h : decreaseDef env n oldT t = .ok f) : Decreases S I env int τ ρ oldT t none f := by
  obtain ⟨ty', hty, oty', hoty, h₂⟩ := bind₂_eq_ok.mp h
  rw [tType_eq_ok, ht.typed.tTy_eq, Option.some.injEq] at hty
  rw [tType_eq_ok, hold.typed.tTy_eq, Option.some.injEq] at hoty
  subst hty hoty
  split at h₂
  · next heq =>
      subst heq
      cases oty with
      | tyvar v => exact decreaseAlg_spec henv hstd hρ hold ht h₂
      | tyapp ts tl =>
        dsimp only at h₂
        split at h₂
        · next hts =>
            subst hts
            obtain rfl : tl = [] := by
              have := hold.saturated
              rw [Ty.saturated_tyapp] at this
              exact length_eq_zero_iff.mp this.1
            exact decreaseInt_spec henv hstd hρ hold ht h₂
        · next hts =>
            split at h₂
            · next hrange => exact decreaseRange_spec henv hstd hρ hts hrange hold ht h₂
            · exact decreaseAlg_spec henv hstd hρ hold ht h₂
  · exact decreaseAlg_spec henv hstd hρ hold ht h₂

theorem decreaseRel_spec {r : LSymbol} (hr : r.lsConstr = 0) (hold : Comparable S n oldT ty)
    (ht : Comparable S n t ty) (h : decreaseRel env n r oldT t = .ok f) :
    Decreases S I env int τ ρ oldT t (some r) f := by
  obtain ⟨g, hg, a, ha, h⟩ := bind₂_eq_ok.mp h
  obtain rfl := tBinary_eq h
  unfold acc at ha
  split at ha
  · obtain ⟨ty', hty, ha⟩ := bind_eq_ok.mp ha
    rw [tType_eq_ok, hold.typed.tTy_eq, Option.some.injEq] at hty
    subst hty
    obtain ⟨c, hc, ha⟩ := bind_eq_ok.mp ha
    have hbool := henv.bool
    have hc' := WellTyped.tClosure (S := S) hr (by simp [hbool]) (Γ := []) hc
    refine ⟨.tbinop [] _ (WellTyped.tApp_pair hg hr ht.typed hold.typed)
      (WellTyped.tApp_pair ha (henv.symbols _ (by simp)) hc' hold.typed), fun hf => ?_⟩
    have hF := (hc'.eval_mem hstd.sound hρ .nil _ rfl).1
    have hrel := eval_tClosure (τ := τ) (ρ := ρ) (b := []) hstd.sound hstd.free hstd.functional
      hbool hc
    rw [Holds, eval_tand, tApp_eq hg, tApp_eq ha, eval_tapp_none, eval_tapp_none] at hf
    simp only [map_cons, map_nil] at hf
    generalize (I.eval τ ρ [] c).1 = F at hF hrel hf
    have hval := hold.val_mem hstd.sound hρ
    have hacc := hstd.acc (ty.vMap τ) F hF _ hval hf.2
    rw [ht.measureOf, hold.measureOf]
    refine .rel (ht.val_mem hstd.sound hρ) hf.1 ?_
    change Acc _ (I.val τ ρ oldT) at hacc
    generalize I.val τ ρ oldT = y at hval hacc
    induction hacc with
    | intro y _ ih =>
      exact ⟨_, fun x hx => ih x ⟨hx.1, (hrel x hx.1 y hval).mpr hx.2⟩ hx.1⟩
  · cases ha

end

/-! ## Whole variants -/

/-- The variants that functions can have: all their terms can be compared, and the
relations are predicates. -/
def VariantOk (S : DataSig) (n : ℕ) (l : Variant) : Prop :=
  ∀ x ∈ l, (∃ ty, Comparable S n x.1 ty) ∧ ∀ r, x.2 = some r → r.lsConstr = 0

theorem val_of_tEqual (hI : I.Sound) (hold : Comparable S n oldT oty) (ht : Comparable S n t ty)
    (h : tEqual oldT t = true) (r : Option LSymbol) :
    measureOf I τ ρ (oldT, r) = measureOf I τ ρ (t, r) := by
  rw [Why3.measureOf, Why3.measureOf, val, val, eval_of_tEqual hI hold.typed ht.typed h,
    tTy_of_compareEqual h]

theorem orEqualThen_ty (hold : Comparable S n oldT oty) (ht : Comparable S n t ty)
    (h : orEqualThen dt oldT t rest = .ok f) : oty = ty := by
  obtain ⟨_, _, e, he, _⟩ := bind₂_eq_ok.mp h
  obtain ⟨_, ty', hty, hty'⟩ := tEqu_spec he
  rw [hold.typed.tTy_eq] at hty
  rw [ht.typed.tTy_eq] at hty'
  exact Option.some.inj (hty.trans hty'.symm)

/-- The formula makes the lists of the values decrease. -/
def WordDecreases (S : DataSig) (I : Interp D) (env : VcEnv) (int : ℤ → D) (τ : TyVal)
    (ρ : VSymbol → D) (olds news : Variant) (f : Term) : Prop :=
  WellTyped S [] f none ∧ (I.Holds τ ρ f →
    WordLess (Below S I env int) (news.map (measureOf I τ ρ)) (olds.map (measureOf I τ ρ)))

/-- Components are compared, and where they are equal the next ones. -/
theorem orEqualThen_spec {olds news : Variant} {r : Option LSymbol} (hI : I.Sound)
    (hρ : I.TypedVal τ ρ) (hold : Comparable S n oldT oty) (ht : Comparable S n t ty)
    (hdt : oty = ty → ∀ g, dt = .ok g → Decreases S I env int τ ρ oldT t r g)
    (hrest : ∀ g, rest = .ok g → WordDecreases S I env int τ ρ olds news g)
    (h : (if tEqual oldT t then rest else orEqualThen dt oldT t rest) = .ok f) :
    WordDecreases S I env int τ ρ ((oldT, r) :: olds) ((t, r) :: news) f := by
  unfold WordDecreases
  rw [map_cons, map_cons]
  split at h
  · next heq =>
      rw [val_of_tEqual hI hold ht heq]
      exact ⟨(hrest f h).1, fun hf => .tail ((hrest f h).2 hf)⟩
  · obtain rfl := orEqualThen_ty hold ht h
    obtain ⟨g, hg, e, he, h⟩ := bind₂_eq_ok.mp h
    obtain ⟨k, hk, l, hl, h⟩ := bind₂_eq_ok.mp h
    obtain ⟨hgt, hgless⟩ := hdt rfl g hg
    obtain ⟨hkt, hkless⟩ := hrest k hk
    have het := WellTyped.tEqu he hold.typed ht.typed
    have hand : Rewrites S I .free none (.tbinop [] .tand e k) l :=
      .of_ok hl (tBinarySimp_rewrites het hkt hI .tand)
    have hor : Rewrites S I .free none (.tbinop [] .tor g l) f :=
      .of_ok h (tBinarySimp_rewrites hgt hand.typed hI .tor)
    refine ⟨hor.typed, fun hf => ?_⟩
    rcases (hor.holds ⟨hρ, trivial⟩).mp hf with hf | hf
    · exact .head (hgless hf)
    · obtain ⟨heq, hf⟩ := (hand.holds ⟨hρ, trivial⟩).mp hf
      rw [hold.measureOf, ht.measureOf, show I.val τ ρ oldT = I.val τ ρ t from (eval_tEqu hI he).mp heq]
      exact .tail (hkless hf)

theorem decr_spec (henv : env.Proper S) (hstd : env.Standard S I int) (hρ : I.TypedVal τ ρ) :
    ∀ {olds news : Variant} {f : Term}, VariantOk S n olds → VariantOk S n news →
      decr env n olds news = .ok f → WordDecreases S I env int τ ρ olds news f
  | [], news, f, _, _, h => by
    cases news <;> cases h <;> exact ⟨.tfalse [], fun h => h.elim⟩
  | (oldT, o) :: olds, [], f, _, _, h => by
    cases o <;> cases h <;> exact ⟨.ttrue [], fun _ => .nil⟩
  | (oldT, some oldR) :: olds, (t, none) :: news, f, _, _, h
  | (oldT, none) :: olds, (t, some r) :: news, f, _, _, h => by
    cases h
    exact ⟨.tfalse [], fun h => h.elim⟩
  | (oldT, some oldR) :: olds, (t, some r) :: news, f, holds, hnews, h => by
    obtain ⟨⟨⟨oty, hold⟩, _⟩, holds'⟩ := forall_mem_cons.mp holds
    obtain ⟨⟨⟨ty, ht⟩, hr⟩, hnews'⟩ := forall_mem_cons.mp hnews
    unfold decr at h
    split at h
    · next heq =>
        subst heq
        refine orEqualThen_spec hstd.sound hρ hold ht ?_
          (fun g => decr_spec henv hstd hρ (f := g) holds' hnews') h
        rintro rfl g hg
        exact decreaseRel_spec henv hstd hρ (hr _ rfl) hold ht hg
    · cases h
      exact ⟨.tfalse [], fun h => h.elim⟩
  | (oldT, none) :: olds, (t, none) :: news, f, holds, hnews, h => by
    obtain ⟨⟨⟨oty, hold⟩, _⟩, holds⟩ := forall_mem_cons.mp holds
    obtain ⟨⟨⟨ty, ht⟩, _⟩, hnews⟩ := forall_mem_cons.mp hnews
    have hdef : ∀ g, decreaseDef env n oldT t = .ok g → Decreases S I env int τ ρ oldT t none g :=
      fun g hg => decreaseDef_spec henv hstd hρ hold ht hg
    unfold decr at h
    split at h
    · exact orEqualThen_spec hstd.sound hρ hold ht (fun _ => hdef)
        (fun g => decr_spec henv hstd hρ (f := g) holds hnews) h
    · exact ⟨(hdef f h).1, fun hf => .head ((hdef f h).2 hf)⟩

/-! ## Runs of calls -/

variable (S I) in
/-- A call from a function with the variant values `old` to one with the values `new`,
in a group of functions of which `group` lists the relations in the variants. The
condition of the call is what `decrease` returns, and it is true. -/
def CallDecreases (env : VcEnv) (group : List (List (Option LSymbol))) (old new : List (Measure D)) :
    Prop :=
  ∃ (olds news : Variant) (n : ℕ) (attrs : List Attr) (expl : String) (f : Term) (τ : TyVal)
    (ρ : VSymbol → D), olds.map Prod.snd ∈ group ∧ news.map Prod.snd ∈ group ∧
      VariantOk S n olds ∧ VariantOk S n news ∧ decrease env n attrs expl olds news = .ok f ∧
      I.TypedVal τ ρ ∧ I.Holds τ ρ f ∧ old = olds.map (measureOf I τ ρ) ∧
      new = news.map (measureOf I τ ρ)

variable {group : List (List (Option LSymbol))}

theorem CallDecreases.wordLess (henv : env.Proper S) (hstd : env.Standard S I int)
    (hgroup : [] ∉ group) {old new : List (Measure D)} (h : CallDecreases S I env group old new) :
    WordLess (Below S I env int) new old := by
  obtain ⟨olds, news, n, attrs, expl, f, τ, ρ, hmem, _, holds, hnews, hf, hρ, hholds, rfl, rfl⟩ := h
  unfold decrease at hf
  split at hf
  · next hempty =>
      rw [Bool.and_eq_true, List.isEmpty_iff, List.isEmpty_iff] at hempty
      rw [hempty.1] at hmem
      exact absurd hmem hgroup
  · obtain ⟨g, hg, hf⟩ := bind_eq_ok.mp hf
    cases hf
    rw [Holds, vcExpl, eval_withAttrs] at hholds
    exact (decr_spec henv hstd hρ holds hnews hg).2 hholds

theorem exists_bound (group : List (List (Option LSymbol))) : ∃ N, ∀ l ∈ group, l.length ≤ N := by
  induction group with
  | nil => exact ⟨0, by simp⟩
  | cons l group ih =>
    obtain ⟨N, hN⟩ := ih
    refine ⟨max l.length N, forall_mem_cons.mpr ⟨le_max_left _ _, fun l' hl' => ?_⟩⟩
    exact le_trans (hN l' hl') (le_max_right _ _)

/-- No sequence of calls inside a group makes the variants decrease forever. -/
theorem no_infinite_decrease (henv : env.Proper S) (hstd : env.Standard S I int)
    (hgroup : [] ∉ group) :
    ¬ ∃ c : ℕ → List (Measure D), ∀ i, CallDecreases S I env group (c i) (c (i + 1)) := by
  obtain ⟨N, hN⟩ := exists_bound group
  have hwf := wordLess_wellFounded (below_wellFounded hstd) N
  rintro ⟨c, hc⟩
  refine (wellFounded_iff_isEmpty_descending_chain.mp hwf).false ⟨c, fun i => ⟨?_, ?_⟩⟩
  · obtain ⟨_, news, _, _, _, _, _, _, _, hmem, _, _, _, _, _, _, hnew⟩ := hc i
    rw [hnew, length_map, ← length_map (f := Prod.snd)]
    exact hN _ hmem
  · exact (hc i).wordLess henv hstd hgroup

/-! ## The standard interpretation -/

/-- The environment of the standard interpretation, in which the booleans are the only
algebraic type. -/
def stdEnv : VcEnv where
  itdConstructors ts := some ((boolSig.constrs ts).map some)
  tsRanges := .empty
  accKnown := true
  psIntLe := intLe
  psIntGe := intGe
  psIntLt := intLt
  psIntGt := intGt
  fsIntPl := intPl
  fsIntMn := intMn
  psWfAcc := wfAcc

theorem stdEnv_proper : stdEnv.Proper boolSig where
  constrs ts rsl h _ _ := (Option.some.inj h).symm
  noConstrs ts rsl hts h := by
    have hne : ts ≠ tsBool := by
      rintro rfl
      rcases hts with h | h
      · exact absurd h (by decide)
      · cases h
    rw [← Option.some.inj h]
    simp [boolSig, hne]
  bool := by simp [boolSig]
  symbols := by decide
  ranges ts ls h := by simp [stdEnv] at h

open StdVal

section

variable (fn : LSymbol → (ty : Ty) → List StdVal → ty.den) (pr : LSymbol → List StdVal → Prop)
include fn pr

theorem stdInt_stdInterp : stdEnv.StdInt (stdInterp fn pr) ofInt where
  carrier := by
    ext d
    exact ⟨fun h => ⟨toInt d, ofInt_toInt h⟩, fun ⟨z, hz⟩ => hz ▸ rfl⟩
  inj := ofInt_injective
  lit z := by simp [stdInterp, stdLit]
  le a b := by
    change stdPr pr intLe _ ↔ _
    simp [stdPr, intLe, psEqu, intAt, toInt_ofInt]
  ge a b := by
    change stdPr pr intGe _ ↔ _
    simp [stdPr, intLe, intGe, psEqu, intAt, toInt_ofInt]
  lt a b := by
    change stdPr pr intLt _ ↔ _
    simp [stdPr, intLe, intGe, intLt, psEqu, intAt, toInt_ofInt]
  gt a b := by
    change stdPr pr intGt _ ↔ _
    simp [stdPr, intLe, intGe, intLt, intGt, psEqu, intAt, toInt_ofInt]
  pl a b := by
    change stdFn fn intPl tyInt _ = _
    simp [stdFn, intPl, fsFuncApp, fsBoolTrue, fsBoolFalse, intAt, toInt_ofInt]
  mn a b := by
    change stdFn fn intMn tyInt _ = _
    simp [stdFn, intPl, intMn, fsFuncApp, fsBoolTrue, fsBoolFalse, intAt, toInt_ofInt]

theorem stdInterp_standard : stdEnv.Standard boolSig (stdInterp fn pr) ofInt where
  sound := stdInterp_sound fn pr
  free := stdInterp_free fn pr
  functional := stdInterp_functional fn pr
  stdInt := stdInt_stdInterp fn pr
  stdRange ts ls ir h := by simp [stdEnv] at h
  finite := by
    refine ⟨fun x => ⟨_, fun y hy => ?_⟩⟩
    obtain ⟨ts, tl, cs, ds, i, ty, _, _, hcs, _, _, _, hty, _⟩ := hy
    obtain ⟨rfl, rfl | rfl⟩ := mem_constrs_boolSig hcs <;> simp [fsBoolTrue, fsBoolFalse] at hty
  acc ty F _ d hd h := by
    obtain rfl : d.1 = ty := hd
    have h : Accessible F d := by simpa [stdInterp, stdPr, stdEnv, wfAcc, psEqu, intLe, intGe,
      intLt, intGt] using h
    refine Subrelation.accessible ?_ h
    intro y x hyx
    refine ⟨hyx.1, ?_⟩
    have hrel : stdFn fn fsFuncApp tyBool [stdFn fn fsFuncApp (tyFunc d.1 tyBool) [F, y], x] =
        stdFn fn fsBoolTrue tyBool [] := hyx.2
    rwa [stdFn_true, stdFn, if_pos rfl, stdFn, if_pos rfl] at hrel

theorem callDecreases_one :
    CallDecreases boolSig (stdInterp fn pr) stdEnv [[none]] [⟨ofInt 1, some tyInt, none⟩]
      [⟨ofInt 0, some tyInt, none⟩] := by
  have hok : ∀ z, VariantOk boolSig 0 [(tconst [] (.constInt z) tyInt, none)] := by
    intro z x hx
    rw [mem_singleton.mp hx]
    exact ⟨⟨tyInt, .tconst [] _ _, by decide, by simp [freeVars]⟩, by simp⟩
  have hval : ∀ (τ : TyVal) (ρ : VSymbol → StdVal) (z : ℤ),
      (stdInterp fn pr).eval τ ρ [] (tconst [] (.constInt z) tyInt) = (ofInt z, False) := by
    intro τ ρ z
    rw [eval_tconst]
    exact congrArg (·, False) ((stdInt_stdInterp fn pr).lit z)
  have hdecr : decrease stdEnv 0 [] "" [(tconst [] (.constInt 1) tyInt, none)]
      [(tconst [] (.constInt 0) tyInt, none)] = .ok (vcExpl [] "" (tbinop [] .tand
        (tapp [] intLe [tNatConst 0, tconst [] (.constInt 1) tyInt] none)
        (tapp [] intLt [tconst [] (.constInt 0) tyInt, tconst [] (.constInt 1) tyInt] none))) := by
    have hne : tEqual (tconst [] (.constInt 1) tyInt) (tconst [] (.constInt 0) tyInt) = false := by
      simp [tEqual, compareEqual]
    simp only [decrease, decr, hne]
    rfl
  refine ⟨[(tconst [] (.constInt 1) tyInt, none)], [(tconst [] (.constInt 0) tyInt, none)], 0, [], "",
    _, Ty.tyvar, fun v => any (v.vsTy.vMap Ty.tyvar), by simp, by simp, hok 1, hok 0, hdecr,
    fun v => rfl, ?_, ?_, ?_⟩
  · rw [Holds, vcExpl, eval_withAttrs, eval_tand, eval_tapp_none, eval_tapp_none, tNatConst]
    simp only [map_cons, map_nil, hval]
    exact ⟨((stdInt_stdInterp fn pr).le 0 1).mpr (by decide),
      ((stdInt_stdInterp fn pr).lt 0 1).mpr (by decide)⟩
  · rw [map_singleton, Why3.measureOf, val, hval]
    rfl
  · rw [map_singleton, Why3.measureOf, val, hval]
    rfl

end

theorem no_infinite_decrease_std :
    CallDecreases boolSig (stdInterp (fun _ ty _ => (den_nonempty ty).some) fun _ _ => False) stdEnv
        [[none]] [⟨ofInt 1, some tyInt, none⟩] [⟨ofInt 0, some tyInt, none⟩] ∧
      ¬ ∃ c : ℕ → List (Measure StdVal), ∀ i, CallDecreases boolSig
        (stdInterp (fun _ ty _ => (den_nonempty ty).some) fun _ _ => False) stdEnv [[none]] (c i)
        (c (i + 1)) :=
  ⟨callDecreases_one _ _, no_infinite_decrease stdEnv_proper (stdInterp_standard _ _) (by simp)⟩

end Why3
