import Why3.Pattern.Dispatch
import Why3.Logic.Typing
import Mathlib.Data.List.Perm.Subperm

/-!
# The leftmost column of a well-typed matrix

On a well-typed matrix the first column is always split, and the constructors that
are found in it are constructors of its type.
-/

namespace Why3

open Lib List

namespace Pattern

variable {α : Type} {S : DataSig}
variable {rl : List (Row α)} {ty : Ty} {ts : TySymbol}
variable {cs : LSymbol} {isC : LSymbol → Bool} {tl : List Ty} {p : Pattern} {t : Term}

/-- `get` answers with the constructors of the type, or that it does not know them. -/
def Gets (S : DataSig) (get : TySymbol → Except Exn (Option (List LSymbol))) (ts : TySymbol) :
    Prop :=
  get ts = .ok (some (S.constrs ts)) ∨ get ts = .ok none

structure ArgsOf (S : DataSig) (ty : Ty) (cs : LSymbol) (ql : List Pattern) (ts : TySymbol)
    (tl : List Ty) : Prop where
  ty_eq : ty = .tyapp ts tl
  length : tl.length = ts.tsArgs.length
  mem : cs ∈ S.constrs ts
  types : ql.map patTy = cs.lsArgs.map (Ty.vMap (paramMap ts tl))

theorem heads_argsOf (hp : PatTyped S p) :
    ∀ c ∈ heads p, ∃ ts tl, ArgsOf S p.patTy c.1 c.2 ts tl := by
  induction p using headInduction with
  | pwild _ => simp [heads]
  | pvar _ => simp [heads]
  | papp fs pl ty =>
    intro c hc
    rw [heads, mem_singleton] at hc
    subst hc
    cases hp with
    | papp hl hfs hty _ _ => exact ⟨_, _, rfl, hl, hfs, hty⟩
  | por p q ihp ihq =>
    intro c hc
    cases hp with
    | por hp hq hpq _ =>
      rcases mem_append.mp hc with hc | hc
      · exact ihp hp c hc
      · change ∃ ts tl, ArgsOf S p.patTy c.1 c.2 ts tl
        rw [hpq]
        exact ihq hq c hc
  | pas p x ih =>
    intro c hc
    cases hp with
    | pas hp hpx _ =>
      change ∃ ts tl, ArgsOf S x.vsTy c.1 c.2 ts tl
      rw [← hpx]
      exact ih hp c hc

/-! ## The constructors of the type -/

structure Signature (S : DataSig) (ty : Ty) (bare : Bool) (css : TagMap LSymbol Unit) :
    Prop where
  constr : ∀ {ts tl cs}, ty = .tyapp ts tl → cs ∈ S.constrs ts → isConstr bare css cs = true
  css_mem : ∀ {cs}, css.mem cs = true → ∃ ts tl, ty = .tyapp ts tl ∧ cs ∈ S.constrs ts
  all_mem : ∀ {ts tl cs}, bare = false → ty = .tyapp ts tl → cs ∈ S.constrs ts →
    css.mem cs = true

theorem constr_pos (h : cs ∈ S.constrs ts) : 0 < cs.lsConstr := by
  rw [S.count h]
  exact length_pos_of_mem h

theorem columnConstrs_total {get : TySymbol → Except Exn (Option (List LSymbol))}
    (hget : ∀ ts tl, ty = .tyapp ts tl → Gets S get ts) :
    ∃ bare css, columnConstrs get ty = .ok (bare, css) ∧ Signature S ty bare css := by
  cases ty with
  | tyvar v =>
    refine ⟨false, .empty, rfl, ?_, ?_, ?_⟩
    · intro ts tl cs h
      cases h
    · intro cs h
      cases h
    · intro ts tl cs _ h
      cases h
  | tyapp ts tl =>
    rcases hget ts tl rfl with h | h
    · refine ⟨false, TagMap.ofList (S.constrs ts), ?_, ?_, ?_, ?_⟩
      · simp only [columnConstrs, h, bind, Except.bind]
      · intro ts' tl' cs heq hcs
        cases heq
        simp [isConstr, constr_pos hcs, (TagMap.mem_ofList (S.constrs ts) cs).mpr hcs]
      · intro cs hcs
        exact ⟨ts, tl, rfl, (TagMap.mem_ofList _ _).mp hcs⟩
      · intro ts' tl' cs _ heq hcs
        cases heq
        exact (TagMap.mem_ofList _ _).mpr hcs
    · refine ⟨true, .empty, ?_, ?_, ?_, ?_⟩
      · simp only [columnConstrs, h, bind, Except.bind]
      · intro ts' tl' cs _ hcs
        simp [isConstr, constr_pos hcs]
      · intro cs hcs
        cases hcs
      · intro ts' tl' cs hbare
        cases hbare

/-! ## Splitting -/

theorem populate_total (ty : Ty) (p : Pattern) (h : ∀ c ∈ heads p, isC c.1 = true) :
    ∀ acc, ∃ acc', populate isC ty acc p = .ok acc' := by
  induction p using headInduction with
  | pwild _ | pvar _ => exact fun acc => ⟨acc, rfl⟩
  | papp fs pl ty' =>
    rintro ⟨css, csl⟩
    have hfs : isC fs = true := h (fs, pl) (by simp [heads])
    unfold populate
    rw [if_pos hfs]
    split
    · exact ⟨_, rfl⟩
    · exact ⟨_, rfl⟩
  | por p q ihp ihq =>
    intro acc
    simp only [heads, forall_mem_append] at h
    obtain ⟨acc₁, h₁⟩ := ihp h.1 acc
    obtain ⟨acc₂, h₂⟩ := ihq h.2 acc₁
    exact ⟨acc₂, bind_eq_ok.mpr ⟨acc₁, h₁, h₂⟩⟩
  | pas p x ih => exact ih h

theorem populateRows_total (ty : Ty) (hne : ∀ row ∈ rl, row.1 ≠ [])
    (h : ∀ p, HeadOf p rl → ∀ c ∈ heads p, isC c.1 = true) :
    ∃ r, populateRows isC ty rl = .ok r := by
  unfold populateRows
  generalize ((TagMap.empty : TagMap LSymbol (List Pattern)),
    ([] : List (LSymbol × List Pattern))) = acc
  induction rl generalizing acc with
  | nil => exact ⟨acc, rfl⟩
  | cons row rl ih =>
    obtain ⟨pl, a⟩ := row
    cases pl with
    | nil => exact absurd rfl (hne _ mem_cons_self)
    | cons p pl =>
      obtain ⟨acc₁, h₁⟩ :=
        populate_total ty p (h p ⟨_, mem_cons_self, pl, rfl⟩) acc
      have hrest : ∀ q, HeadOf q rl → ∀ c ∈ heads q, isC c.1 = true := by
        rintro q ⟨row, hrow, hq⟩
        exact h q ⟨row, mem_cons_of_mem _ hrow, hq⟩
      obtain ⟨r, hr⟩ := ih (fun row hrow => hne row (mem_cons_of_mem _ hrow)) hrest acc₁
      exact ⟨r, foldlM_cons_eq_ok.mpr ⟨acc₁, h₁, hr⟩⟩

theorem specialise_ne_nil {mkLet : VSymbol → Term → α → α} {ql pl : List Pattern}
    {c : LSymbol × List Pattern} (p : Pattern) :
    ∀ a, c ∈ heads p → specialise mkLet t c.1 ql p pl a ≠ [] := by
  induction p using headInduction with
  | pwild _ => simp [heads]
  | pvar _ => simp [heads]
  | papp fs pl' ty =>
    intro a hc
    rw [heads, mem_singleton] at hc
    simp [specialise, hc]
  | por p q ihp ihq =>
    intro a hc
    rw [specialise, ne_eq, append_eq_nil_iff, not_and_or]
    exact (mem_append.mp hc).imp (ihp a) (ihq a)
  | pas p x ih => exact fun a hc => ih _ hc

structure ColumnSpec (S : DataSig) (mkLet : VSymbol → Term → α → α) (t : Term) (ty : Ty)
    (rl : List (Row α)) (c : Column α) : Prop where
  ty_eq : c.ty = ty
  signature : Signature S ty c.bare c.css
  populated : Populated (c.types, c.cslist)
  heads : ∀ p, HeadOf p rl → ∀ b ∈ heads p, c.types.mem b.1 = true
  head : ∀ cs ql, c.types.find? cs = some ql → ∃ p, HeadOf p rl ∧ (cs, ql) ∈ Pattern.heads p
  argsOf : ∀ cs ql, c.types.find? cs = some ql → ∃ ts tl, ArgsOf S ty cs ql ts tl
  wilds : c.wilds = rl.flatMap (onRow (defaults mkLet t))
  cases : ∀ cs ql, c.types.find? cs = some ql →
    c.cases.find? cs = some (rl.flatMap (onRow (specialise mkLet t cs ql)))

def ColumnTyped (S : DataSig) (ty : Ty) (rl : List (Row α)) : Prop :=
  ∀ row ∈ rl, ∃ p pl, row.1 = p :: pl ∧ p.patTy = ty ∧ PatTyped S p

theorem ColumnTyped.headOf (h : ColumnTyped S ty rl) (hp : HeadOf p rl) :
    p.patTy = ty ∧ PatTyped S p := by
  obtain ⟨row, hrow, pl, hpl⟩ := hp
  obtain ⟨q, ql, hq, hty, htyped⟩ := h row hrow
  rw [hpl, cons.injEq] at hq
  rw [hq.1]
  exact ⟨hty, htyped⟩

theorem columnOf_total (ops : CompileOps α)
    (hget : ∀ ts tl, ty = .tyapp ts tl → Gets S ops.getConstructors ts) (ht : t.tTy = some ty)
    (hrl : ColumnTyped S ty rl) :
    ∃ c, columnOf ops t rl = .ok c ∧ ColumnSpec S ops.mkLet t ty rl c ∧
      columnConstrs ops.getConstructors ty = .ok (c.bare, c.css) := by
  have htype : t.tType = .ok ty := by rw [Term.tType, ht]
  have hne : ∀ row ∈ rl, row.1 ≠ [] := by
    intro row hrow
    obtain ⟨p, pl, heq, _⟩ := hrl row hrow
    rw [heq]
    exact cons_ne_nil p pl
  obtain ⟨bare, css, hcss, hsig⟩ := columnConstrs_total hget
  have hargs : ∀ p, HeadOf p rl → ∀ c ∈ Pattern.heads p, ∃ ts tl, ArgsOf S ty c.1 c.2 ts tl := by
    intro p hp c hc
    obtain ⟨hty, htyped⟩ := hrl.headOf hp
    rw [← hty]
    exact heads_argsOf htyped c hc
  have hisC : ∀ p, HeadOf p rl → ∀ c ∈ Pattern.heads p, isConstr bare css c.1 = true := by
    intro p hp c hc
    obtain ⟨ts, tl, h⟩ := hargs p hp c hc
    exact hsig.constr h.ty_eq h.mem
  obtain ⟨⟨types, cslist⟩, htypes⟩ := populateRows_total ty hne hisC
  obtain ⟨⟨cases, wilds⟩, hdisp⟩ := dispatchRows_total ops.mkLet t types hne
  obtain ⟨hpop, hfrom, hheads⟩ := populateRows_spec htypes
  obtain ⟨hwilds, hcases⟩ := dispatchRows_spec ops.mkLet t types hdisp
  refine ⟨⟨ty, bare, css, types, cslist, cases, wilds⟩, ?_, ⟨rfl, hsig, hpop,
    fun p hp b hb => (hheads p hp b hb).2, hfrom, ?_, hwilds, ?_⟩, hcss⟩
  · simp only [columnOf, htype, hcss, htypes, hdisp, bind, Except.bind]
  · intro cs ql hcs
    obtain ⟨p, hp, hmem⟩ := hfrom cs ql hcs
    exact hargs p hp (cs, ql) hmem
  · intro cs ql hcs
    obtain ⟨p, ⟨row, hrow, pl, hpl⟩, hmem⟩ := hfrom cs ql hcs
    have hne' : rl.flatMap (onRow (specialise ops.mkLet t cs ql)) ≠ [] := by
      rw [ne_eq, flatMap_eq_nil_iff]
      intro hall
      have hrow' := hall row hrow
      obtain ⟨_, a⟩ := row
      cases hpl
      exact specialise_ne_nil p a hmem hrow'
    have hget' := hcases cs ql hcs
    change cases.find? cs = _
    cases hf : cases.find? cs with
    | none =>
      rw [hf, Option.getD_none] at hget'
      exact absurd hget'.symm hne'
    | some rl' =>
      rw [hf, Option.getD_some] at hget'
      rw [hget']

/-! ## Whether all constructors are there -/

section ColumnSpec

variable {mkLet : VSymbol → Term → α → α} {t : Term} {ty : Ty} {rl : List (Row α)} {c : Column α}

theorem ColumnSpec.mem_types (h : ColumnSpec S mkLet t ty rl c) (hcs : c.types.mem cs = true)
    (hty : ty = .tyapp ts tl) : cs ∈ S.constrs ts := by
  obtain ⟨ql, hql⟩ := (TagMap.mem_eq_true_iff _ _).mp hcs
  obtain ⟨ts', tl', hargs⟩ := h.argsOf cs ql hql
  have heq := hargs.ty_eq.symm.trans hty
  simp only [Ty.tyapp.injEq] at heq
  exact heq.1 ▸ hargs.mem

/-- No wildcard is needed exactly when the column has all constructors. -/
theorem ColumnSpec.noWilds_iff (h : ColumnSpec S mkLet t ty rl c) (hty : ty = .tyapp ts tl)
    (hne : c.types.bindings ≠ []) :
    noWilds c.bare c.css c.types = true ↔ ∀ cs ∈ S.constrs ts, c.types.mem cs = true := by
  cases hbare : c.bare with
  | false =>
    simp only [noWilds, Bool.false_eq_true, if_false, TagMap.submap_iff]
    constructor
    · exact fun hall cs hcs => hall cs (h.signature.all_mem hbare hty hcs)
    · intro hall cs hcs
      obtain ⟨ts', tl', hty', hmem⟩ := h.signature.css_mem hcs
      cases hty.symm.trans hty'
      exact hall cs hmem
  | true =>
    have hsub : ∀ cs ∈ c.types.bindings.map Prod.fst, cs ∈ S.constrs ts := by
      intro cs hcs
      exact h.mem_types ((TagMap.mem_keys_iff cs _).mp hcs) hty
    have hcount : ∀ cs ∈ c.types.bindings.map Prod.fst,
        cs.lsConstr = (S.constrs ts).length := fun cs hcs => S.count (hsub cs hcs)
    have hperm := subperm_of_subset c.types.nodup hsub
    have hlen : (c.types.bindings.map Prod.fst).length = c.types.bindings.length :=
      length_map _
    have hfirst : noWilds true c.css c.types =
        decide (c.types.bindings.length = (S.constrs ts).length) := by
      simp only [noWilds, if_true]
      cases hb : c.types.bindings with
      | nil => exact absurd hb hne
      | cons b bl =>
        have hb' := hcount b.1 (by simp [hb])
        rw [← hb']
        rfl
    rw [hfirst, decide_eq_true_iff]
    constructor
    · intro heq cs hcs
      have hperm' := hperm.perm_of_length_le (by omega)
      exact (TagMap.mem_keys_iff cs _).mp (hperm'.mem_iff.mpr hcs)
    · intro hall
      have hsub' : ∀ cs ∈ S.constrs ts, cs ∈ c.types.bindings.map Prod.fst :=
        fun cs hcs => (TagMap.mem_keys_iff cs _).mpr (hall cs hcs)
      have hle := (subperm_of_subset (S.nodup ts) hsub').length_le
      have hge := hperm.length_le
      omega

end ColumnSpec

end Pattern

end Why3
