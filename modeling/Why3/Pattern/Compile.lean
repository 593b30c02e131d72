import Why3.Core.Lambda
import Why3.Pattern.Rows
import Why3.Pattern.Column
import Why3.Logic.Boolean

/-!
# The compiler preserves the meaning of a matrix

A tree that the compiler returns has the value of the matrix on the values of the
terms. The invariant carried down the tree is that the rows are well typed, that
their variables do not occur in the terms, and that nothing mentions the variables
which are still to be numbered.
-/

namespace Why3

open Lib Interp List

variable {cs : LSymbol} {ql : List Pattern} {al : List Term} {t : Term} {ts : TySymbol}
variable {v : VSymbol} {m n : ℕ}
variable {l : List (LSymbol × List Pattern)} {tl : List Term} {tys : List Ty} {vl : List VSymbol}
variable {p : Pattern} {ty : Ty}

theorem Term.freeVars_tapp_of_mem {a : List Attr} {ls : LSymbol} {o : Option Ty} (ht : t ∈ tl)
    (hv : v ∈ t.freeVars) : v ∈ (Term.tapp a ls tl o).freeVars := by
  rw [Term.freeVars]
  induction tl with
  | nil => simp at ht
  | cons u tl ih =>
    rw [Term.freeVarsList, mem_append]
    rcases mem_cons.mp ht with rfl | ht
    · exact .inl hv
    · exact .inr (ih ht)

namespace Pattern

variable {α D R : Type} {I : Interp D} {τ : TyVal} {S : DataSig} {ev : α → (VSymbol → D) → R}
  {ops : CompileOps α} {tyl : List Ty} {rl : List (Row α)} {a : α} {ρ ρ' : VSymbol → D} {ds : List D}

structure Faithful (S : DataSig) (I : Interp D) (τ : TyVal) (ev : α → (VSymbol → D) → R)
    (ops : CompileOps α) : Prop where
  gets : ∀ ts, Gets S ops.getConstructors ts
  mkLet : ∀ v t a ρ, ev (ops.mkLet v t a) ρ = ev a (assign ρ [(v, I.val τ ρ t)])
  mkCase : ∀ {t pre p a post ρ β}, PatTyped S p →
    (∀ b ∈ pre, I.matchPat τ b.1 (I.val τ ρ t) = none) →
    I.matchPat τ p (I.val τ ρ t) = some β →
    ev (ops.mkCase t (pre ++ (p, a) :: post)) ρ = ev a (assign ρ β)

def Insensitive (ev : α → (VSymbol → D) → R) (n : ℕ) (a : α) : Prop :=
  ∀ ρ ρ', (∀ v : VSymbol, v.vsName.idTag < n → ρ v = ρ' v) → ev a ρ = ev a ρ'

theorem Insensitive.mono (h : Insensitive ev n a) (hn : n ≤ m) : Insensitive ev m a :=
  fun ρ ρ' hρ => h ρ ρ' fun v hv => hρ v (hv.trans_le hn)

structure Ready (S : DataSig) (ev : α → (VSymbol → D) → R) (n : ℕ) (tl : List Term)
    (tyl : List Ty) (rl : List (Row α)) : Prop where
  terms : Forall₂ (fun t ty => WellTyped S [] t (some ty)) tl tyl
  fresh : ∀ t ∈ tl, ∀ v ∈ t.freeVars, v.vsName.idTag < n
  rows : ∀ row ∈ rl, RowTyped S tyl row
  vars : ∀ row ∈ rl, ∀ v ∈ varsList row.1, v.vsName.idTag < n ∧ ∀ t ∈ tl, v ∉ t.freeVars
  actions : ∀ row ∈ rl, Insensitive ev n row.2

/-- The trees that `compile` returns have the value of the matrix. -/
def Compiles (S : DataSig) (I : Interp D) (τ : TyVal) (ev : α → (VSymbol → D) → R)
    (compile : ℕ → List Term → List (Row α) → Except Exn α) : Prop :=
  ∀ {n tl tyl rl a}, Ready S ev n tl tyl rl → compile n tl rl = .ok a →
    ∀ ρ, I.TypedVal τ ρ → evalRows I τ ev ρ (tl.map (I.val τ ρ)) rl = some (ev a ρ)

/-! ## Keeping the invariant -/

theorem val_congr (h : ∀ v ∈ t.freeVars, ρ v = ρ' v) : I.val τ ρ t = I.val τ ρ' t := by
  rw [val, val, eval_congr t [] h]

theorem Faithful.insensitive (hops : Faithful S I τ ev ops)
    (ht : ∀ v ∈ t.freeVars, v.vsName.idTag < n) (ha : Insensitive ev n a) :
    Insensitive ev n (ops.mkLet v t a) := by
  intro ρ ρ' hρ
  rw [hops.mkLet, hops.mkLet, val_congr fun w hw => hρ w (ht w hw)]
  apply ha
  intro w hw
  rw [assign, assign, hρ w hw]

section Ready

variable (h : Ready S ev n (t :: tl) (ty :: tyl) rl)
include h

theorem Ready.head : WellTyped S [] t (some ty) := by
  cases h.terms with
  | cons ht _ => exact ht

theorem Ready.columnTyped : ColumnTyped S ty rl := by
  intro row hrow
  obtain ⟨p, pl, heq, hty, hp, _⟩ := (h.rows row hrow).cons
  exact ⟨p, pl, by rw [heq], hty, hp⟩

theorem Ready.letsRow (hops : Faithful S I τ ev ops) (ρ : VSymbol → D) :
    ∀ row ∈ rl, LetsRow ops.mkLet t ev ρ (I.val τ ρ t) (varsList row.1) := by
  intro row hrow x hx a β hβ
  have hval : I.val τ (assign ρ β) t = I.val τ ρ t := by
    apply val_congr
    intro v hv
    apply assign_of_not_mem
    exact fun hmem => (h.vars row hrow v (hβ v hmem)).2 t mem_cons_self hv
  rw [hops.mkLet, hval]

/-- A matrix made from the rows of another one, for other terms in the place of the
first. -/
theorem Ready.of_rowFrom (hops : Faithful S I τ ev ops) (hn : n ≤ m) {atys : List Ty}
    (hal : Forall₂ (fun t ty => WellTyped S [] t (some ty)) al atys)
    (hfresh : ∀ u ∈ al, ∀ v ∈ u.freeVars, v.vsName.idTag < m)
    (hdisj : ∀ row ∈ rl, ∀ v ∈ varsList row.1, ∀ u ∈ al, v ∉ u.freeVars) {rl' : List (Row α)}
    (hrl' : ∀ row' ∈ rl', RowTyped S (atys ++ tyl) row' ∧
      ∃ row ∈ rl, RowFrom ops.mkLet t (varsList row.1) row.2 row') :
    Ready S ev m (al ++ tl) (atys ++ tyl) rl' where
  terms := by
    cases h.terms with
    | cons _ htl => exact rel_append hal htl
  fresh := by
    intro u hu v hv
    rcases mem_append.mp hu with hu | hu
    · exact hfresh u hu v hv
    · exact (h.fresh u (mem_cons_of_mem t hu) v hv).trans_le hn
  rows := fun row' hrow' => (hrl' row' hrow').1
  vars := by
    intro row' hrow' v hv
    obtain ⟨_, row, hrow, hfrom⟩ := hrl' row' hrow'
    obtain ⟨hlt, hnot⟩ := h.vars row hrow v (hfrom.vars v hv)
    refine ⟨hlt.trans_le hn, ?_⟩
    intro u hu
    rcases mem_append.mp hu with hu | hu
    · exact hdisj row hrow v (hfrom.vars v hv) u hu
    · exact hnot u (mem_cons_of_mem t hu)
  actions := by
    intro row' hrow'
    obtain ⟨_, row, hrow, hfrom⟩ := hrl' row' hrow'
    refine hfrom.action (Insensitive ev m) ?_ ((h.actions row hrow).mono hn)
    intro x _ a ha
    exact hops.insensitive
      (fun v hv => (h.fresh t mem_cons_self v hv).trans_le hn) ha

end Ready

theorem evalRows_congr (hrl : ∀ row ∈ rl, Insensitive ev n row.2)
    (hρ : ∀ v : VSymbol, v.vsName.idTag < n → ρ v = ρ' v) :
    evalRows I τ ev ρ ds rl = evalRows I τ ev ρ' ds rl := by
  apply findSome?_congr
  intro row hrow
  unfold evalRow
  congr 1
  funext β
  apply hrl row hrow
  intro v hv
  rw [assign, assign, hρ v hv]

/-! ## Fresh variables -/

theorem freshVars_eq_freshOf (n : ℕ) (ql : List Pattern) :
    freshVars n ql = Term.freshOf n (ql.map patTy) := by
  induction ql generalizing n with
  | nil => rfl
  | cons q ql ih => rw [freshVars, ih, map_cons, Term.freshOf]

theorem length_freshVars (n : ℕ) (ql : List Pattern) : (freshVars n ql).length = ql.length := by
  rw [freshVars_eq_freshOf, Term.length_freshOf, length_map]

theorem map_vsTy_freshVars (n : ℕ) (ql : List Pattern) :
    (freshVars n ql).map VSymbol.vsTy = ql.map patTy := by
  rw [freshVars_eq_freshOf, Term.map_vsTy_freshOf]

theorem mem_freshVars (hv : v ∈ freshVars n ql) :
    n ≤ v.vsName.idTag ∧ v.vsName.idTag < n + ql.length := by
  rw [freshVars_eq_freshOf] at hv
  simpa using Term.mem_freshOf hv

theorem nodup_freshVars (n : ℕ) (ql : List Pattern) : (freshVars n ql).Nodup :=
  freshVars_eq_freshOf n ql ▸ Term.nodup_freshOf n _

theorem varsList_map_pvar (vl : List VSymbol) : varsList (vl.map pvar) = vl := by
  induction vl with
  | nil => rfl
  | cons v vl ih =>
    rw [map_cons, varsList, ih]
    rfl

theorem matchPatList_map_pvar (hl : vl.length = ds.length) :
    I.matchPatList τ (vl.map pvar) ds = some (vl.zip ds) := by
  induction vl generalizing ds with
  | nil =>
    rw [length_nil, eq_comm, length_eq_zero_iff] at hl
    subst hl
    rfl
  | cons v vl ih =>
    cases ds with
    | nil => simp at hl
    | cons d ds =>
      rw [map_cons, matchPatList_cons, ih (by simpa using hl)]
      rfl

theorem patTyped_freshVars {tl : List Ty} (h : ArgsOf S ty cs ql ts tl) (n : ℕ) :
    PatTyped S (papp cs ((freshVars n ql).map pvar) ty) := by
  rw [h.ty_eq]
  refine .papp h.length h.mem ?_ ?_ ?_
  · rw [map_map, ← h.types, ← map_vsTy_freshVars n ql]
    rfl
  · rw [varsList_map_pvar]
    exact nodup_freshVars n ql
  · intro p hp
    obtain ⟨v, _, rfl⟩ := mem_map.mp hp
    exact .pvar v

/-! ## One step -/

theorem patApp_eq_ok {fs : LSymbol} {pl : List Pattern} (h : patApp fs pl ty = .ok p) :
    p = papp fs pl ty := by
  unfold patApp at h
  cases hv : fs.lsValue with
  | none => simp [hv, bind, Except.bind] at h
  | some vty =>
    simp only [hv] at h
    obtain ⟨s, _, _, _, h⟩ := bind₂_eq_ok.mp h
    split at h
    · cases h
    · split at h
      · exact (Except.ok.inj h).symm
      · cases h

theorem constrApp?_eq_some {bare : Bool} {css : TagMap LSymbol Unit}
    (h : constrApp? (isConstr bare css) t = some (cs, al)) :
    ∃ a o, t = .tapp a cs al o ∧ 0 < cs.lsConstr := by
  unfold constrApp? at h
  split at h
  · next a cs' al' o =>
      split at h
      · next hisC =>
          simp only [Option.some.injEq, Prod.mk.injEq] at h
          obtain ⟨rfl, rfl⟩ := h
          rw [isConstr, Bool.and_eq_true, decide_eq_true_eq] at hisC
          exact ⟨a, o, rfl, hisC.1⟩
      · cases h
  · cases h

theorem onNonExhaustive_eq_ok {f : List Pattern → Except Exn (List Pattern)} {r : Except Exn α}
    (h : onNonExhaustive f r = .ok a) : r = .ok a := by
  unfold onNonExhaustive at h
  split at h
  · next pl => cases hf : f pl <;> simp [hf, bind, Except.bind] at h
  · exact h

section Step

variable {compile : ℕ → List Term → List (Row α) → Except Exn α} {c : Column α}
  {base bl : List (Pattern × α)}

/-- The branches are put in front of `base`, each with a constructor of the list. -/
theorem foldlM_compBranch (h : l.foldlM (compBranch compile c tl n) base = .ok bl) :
    ∃ pre, bl = pre ++ base ∧
      ∀ x ∈ pre, ∃ b ∈ l, x.1 = papp b.1 ((freshVars n b.2).map pvar) c.ty := by
  induction l generalizing base with
  | nil =>
    rw [foldlM_nil_eq_ok] at h
    exact ⟨[], h.symm, by simp⟩
  | cons b l ih =>
    obtain ⟨base', hb, hl⟩ := foldlM_cons_eq_ok.mp h
    obtain ⟨a, _, p, hp, hb⟩ := bind₂_eq_ok.mp hb
    simp only [Except.ok.injEq] at hb
    subst hb
    obtain ⟨pre, rfl, hpre⟩ := ih hl
    refine ⟨pre ++ [(p, a)], by simp, ?_⟩
    intro x hx
    rcases mem_append.mp hx with hx | hx
    · obtain ⟨b', hb', heq⟩ := hpre x hx
      exact ⟨b', mem_cons_of_mem b hb', heq⟩
    · rw [mem_singleton] at hx
      subst hx
      exact ⟨b, mem_cons_self, patApp_eq_ok hp⟩

/-- The branch of a constructor stands behind branches of other constructors. -/
theorem foldlM_compBranch_mem (hnodup : (l.map Prod.fst).Nodup)
    (h : l.foldlM (compBranch compile c tl n) base = .ok bl) {b : LSymbol × List Pattern}
    (hb : b ∈ l) :
    ∃ pre a post, bl = pre ++ (papp b.1 ((freshVars n b.2).map pvar) c.ty, a) :: post ∧
      compCases compile c tl (n + b.2.length) b.1 ((freshVars n b.2).map (.tvar [])) = .ok a ∧
      ∀ x ∈ pre, ∃ b' ∈ l, b'.1 ≠ b.1 ∧
        x.1 = papp b'.1 ((freshVars n b'.2).map pvar) c.ty := by
  induction l generalizing base with
  | nil => simp at hb
  | cons b₁ l ih =>
    rw [map_cons, nodup_cons] at hnodup
    obtain ⟨base', h₁, hl⟩ := foldlM_cons_eq_ok.mp h
    rcases mem_cons.mp hb with rfl | hb
    · obtain ⟨a, ha, p, hp, h₁⟩ := bind₂_eq_ok.mp h₁
      simp only [Except.ok.injEq] at h₁
      subst h₁
      obtain ⟨pre, rfl, hpre⟩ := foldlM_compBranch hl
      refine ⟨pre, a, base, by rw [← patApp_eq_ok hp], ha, ?_⟩
      intro x hx
      obtain ⟨b', hb', heq⟩ := hpre x hx
      refine ⟨b', mem_cons_of_mem _ hb', ?_, heq⟩
      intro hne
      exact hnodup.1 (hne ▸ mem_map_of_mem hb')
    · obtain ⟨pre, a, post, hbl, ha, hpre⟩ := ih hnodup.2 hl hb
      refine ⟨pre, a, post, hbl, ha, ?_⟩
      intro x hx
      obtain ⟨b', hb', hne, heq⟩ := hpre x hx
      exact ⟨b', mem_cons_of_mem _ hb', hne, heq⟩

theorem ColumnSpec.matchPat_heads {mkLet : VSymbol → Term → α → α}
    (hc : ColumnSpec S mkLet t ty rl c) (hrl : ColumnTyped S ty rl) (hfree : I.Free S)
    (hty : ty = .tyapp ts tys) (hl : tys.length = ts.tsArgs.length) (hcs : cs ∈ S.constrs ts)
    (hmem : c.types.mem cs = false)
    (hds : I.Typed (paramMap ts (tys.map (Ty.vMap τ))) cs.lsArgs ds) :
    ∀ p, HeadOf p rl → ∀ b ∈ Pattern.heads p, I.matchPat τ (papp b.1 b.2 ty)
      (I.fn cs (.tyapp ts (tys.map (Ty.vMap τ))) ds) = none := by
  intro p hp b hb
  obtain ⟨hpty, htyped⟩ := hrl.headOf hp
  obtain ⟨ts', tys', hargs⟩ := heads_argsOf htyped b hb
  rw [hpty] at hargs
  cases hty.symm.trans hargs.ty_eq
  rw [hty]
  refine matchPat_papp_of_ne hl hfree hargs.mem hcs ?_ hargs.types hds
  intro heq
  have hb' := hc.heads p hp b hb
  rw [heq, hmem] at hb'
  cases hb'

variable (hrec : Compiles S I τ ev compile) (hops : Faithful S I τ ev ops)
  (h : Ready S ev n (t :: tl) (ty :: tyl) rl) (hc : ColumnSpec S ops.mkLet t ty rl c)
include hrec hops h hc

/-- The default rows are right for a value that is built by no constructor at the
head of a row. -/
theorem compWilds_eval (hρ : I.TypedVal τ ρ)
    (hno : ∀ p, HeadOf p rl → ∀ b ∈ heads p, I.matchPat τ (papp b.1 b.2 ty) (I.val τ ρ t) = none)
    (ha : compWilds compile c tl n = .ok a) :
    evalRows I τ ev ρ ((t :: tl).map (I.val τ ρ)) rl = some (ev a ρ) := by
  rw [compWilds, hc.wilds] at ha
  have hready : Ready S ev n tl tyl (rl.flatMap (onRow (defaults ops.mkLet t))) :=
    h.of_rowFrom hops le_rfl .nil (by simp) (by simp) (defaults_matrix_rowTyped h.rows)
  rw [map_cons, evalRows_defaults_matrix h.rows (h.letsRow hops ρ) hno]
  exact hrec hready (onNonExhaustive_eq_ok ha) ρ hρ

/-- The rows for `cs` are right for a value that is built by `cs`. -/
theorem compCases_eval (hfree : I.Free S) (hql : c.types.find? cs = some ql)
    (hargs : ArgsOf S ty cs ql ts tys) (hρ' : I.TypedVal τ ρ')
    (heq : ∀ v : VSymbol, v.vsName.idTag < n → ρ v = ρ' v) (hn : n ≤ m)
    (hal : Forall₂ (fun t ty => WellTyped S [] t (some ty)) al (ql.map patTy))
    (hfresh : ∀ u ∈ al, ∀ v ∈ u.freeVars, v.vsName.idTag < m)
    (hdisj : ∀ row ∈ rl, ∀ v ∈ varsList row.1, ∀ u ∈ al, v ∉ u.freeVars)
    (hds : I.Typed (paramMap ts (tys.map (Ty.vMap τ))) cs.lsArgs (al.map (I.val τ ρ')))
    (hd : I.val τ ρ t = I.fn cs (.tyapp ts (tys.map (Ty.vMap τ))) (al.map (I.val τ ρ')))
    (ha : compCases compile c tl m cs al = .ok a) :
    evalRows I τ ev ρ ((t :: tl).map (I.val τ ρ)) rl = some (ev a ρ') := by
  have hlen : ql.length = (al.map (I.val τ ρ')).length := by
    rw [length_map, hal.length_eq, length_map]
  have hvals : tl.map (I.val τ ρ) = tl.map (I.val τ ρ') := by
    apply map_congr_left
    intro u hu
    exact val_congr fun v hv => heq v (h.fresh u (mem_cons_of_mem t hu) v hv)
  have hrows : ∀ row ∈ rl, RowTyped S (.tyapp ts tys :: tyl) row := hargs.ty_eq ▸ h.rows
  have hspec := specialise_matrix_rowTyped ops.mkLet t hargs.types hrows
  rw [← hargs.types] at hspec
  have hready := h.of_rowFrom hops hn (rel_reverse hal)
    (fun u hu => hfresh u (mem_reverse.mp hu))
    (fun row hrow v hv u hu => hdisj row hrow v hv u (mem_reverse.mp hu)) hspec
  have hinsensitive : ∀ row ∈ rl.flatMap (onRow (specialise ops.mkLet t cs ql)),
      Insensitive ev n row.2 := by
    intro row' hrow'
    obtain ⟨_, row, hrow, hfrom⟩ := hspec row' hrow'
    refine hfrom.action (Insensitive ev n) ?_ (h.actions row hrow)
    exact fun x _ a ha => hops.insensitive (h.fresh t mem_cons_self) ha
  rw [compCases, hc.cases cs ql hql] at ha
  have hih := hrec hready (onNonExhaustive_eq_ok ha) ρ' hρ'
  rw [map_append, map_reverse] at hih
  rw [map_cons, evalRows_specialise_matrix hfree hargs.length hargs.mem hds hd hlen hrows
    (h.letsRow hops ρ), hvals, evalRows_congr hinsensitive heq]
  exact hih

variable (hI : I.Sound) (hfree : I.Free S)
include hI hfree

theorem compTree_case_eval (hne : c.types.bindings ≠ []) (hρ : I.TypedVal τ ρ)
    (hbase : (noWilds c.bare c.css c.types = true ∧ base = []) ∨
      ∃ a, compWilds compile c tl n = .ok a ∧ base = [(pwild c.ty, a)])
    (hbl : c.cslist.foldlM (compBranch compile c tl n) base = .ok bl) :
    evalRows I τ ev ρ ((t :: tl).map (I.val τ ρ)) rl = some (ev (ops.mkCase t bl) ρ) := by
  obtain ⟨⟨cs₀, ql₀⟩, hcs₀⟩ := exists_mem_of_ne_nil _ hne
  obtain ⟨ts, tys, hargs₀⟩ := hc.argsOf cs₀ ql₀ ((TagMap.find?_eq_some_iff _ _ _).mpr hcs₀)
  have hty := hargs₀.ty_eq
  have hmem : I.val τ ρ t ∈ I.carrier (ty.vMap τ) := (h.head.eval_mem hI hρ .nil ty rfl).1
  have hl : (tys.map (Ty.vMap τ)).length = ts.tsArgs.length := by
    rw [length_map, hargs₀.length]
  rw [hty, Ty.vMap_tyapp] at hmem
  obtain ⟨cs, hcs, ds, hds, hd⟩ := hfree.cover hl (ne_nil_of_mem hargs₀.mem) hmem
  -- a branch is passed by when its constructor is another one
  have hpass : ∀ b ∈ c.cslist, b.1 ≠ cs →
      I.matchPat τ (papp b.1 ((freshVars n b.2).map pvar) c.ty) (I.val τ ρ t) = none := by
    intro b hb hb'
    obtain ⟨ts', tys', hargs⟩ := hc.argsOf b.1 b.2 ((hc.populated.mem_iff b.1 b.2).mp hb)
    cases hty.symm.trans hargs.ty_eq
    rw [hc.ty_eq, hty, ← hd]
    refine matchPat_papp_of_ne hargs.length hfree hargs.mem hcs hb' ?_ hds
    rw [map_map, ← hargs.types, ← map_vsTy_freshVars n b.2]
    rfl
  cases htypes : c.types.find? cs with
  | none =>
    have hnot : c.types.mem cs = false := by rw [TagMap.mem, htypes]; rfl
    have hpass' : ∀ b ∈ c.cslist, b.1 ≠ cs := by
      rintro b hb rfl
      rw [(hc.populated.mem_iff b.1 b.2).mp hb] at htypes
      cases htypes
    rcases hbase with ⟨hall, _⟩ | ⟨a, ha, rfl⟩
    · have := (hc.noWilds_iff hty hne).mp hall cs hcs
      rw [hnot] at this
      cases this
    · obtain ⟨pre, rfl, hpre⟩ := foldlM_compBranch hbl
      have hcase : ev (ops.mkCase t (pre ++ [(pwild c.ty, a)])) ρ = ev a (assign ρ []) := by
        refine hops.mkCase (.pwild _) ?_ rfl
        intro x hx
        obtain ⟨b, hb, heq⟩ := hpre x hx
        rw [heq]
        exact hpass b hb (hpass' b hb)
      rw [hcase, assign_nil]
      refine compWilds_eval hrec hops h hc hρ ?_ ha
      rw [← hd]
      exact hc.matchPat_heads h.columnTyped hfree hty hargs₀.length hcs hnot hds
  | some ql =>
    have hin : (cs, ql) ∈ c.cslist := (hc.populated.mem_iff cs ql).mpr htypes
    obtain ⟨ts', tys', hargs⟩ := hc.argsOf cs ql htypes
    cases hty.symm.trans hargs.ty_eq
    obtain ⟨pre, a, post, rfl, ha, hpre⟩ := foldlM_compBranch_mem hc.populated.nodup hbl hin
    have hlen : (freshVars n ql).length = ds.length := by
      have h₁ := congrArg List.length hargs.types
      rw [length_map, length_map] at h₁
      rw [length_freshVars, h₁, hds.length_eq]
    have hpat := patTyped_freshVars hargs n
    have hmatch : I.matchPat τ (papp cs ((freshVars n ql).map pvar) ty) (I.val τ ρ t) =
        some ((freshVars n ql).zip ds) := by
      rw [hty, ← hd, matchPat_papp hargs.length hfree hargs.mem ?_ hds, matchPatList_map_pvar hlen]
      rw [map_map, ← hargs.types, ← map_vsTy_freshVars n ql]
      rfl
    have hcase : ev (ops.mkCase t (pre ++ (papp cs ((freshVars n ql).map pvar) c.ty, a) :: post)) ρ
        = ev a (assign ρ ((freshVars n ql).zip ds)) := by
      rw [hc.ty_eq]
      refine hops.mkCase hpat ?_ hmatch
      intro x hx
      obtain ⟨b, hb, hne', heq⟩ := hpre x hx
      rw [heq]
      exact hpass b hb hne'
    have hρ' : I.TypedVal τ (assign ρ ((freshVars n ql).zip ds)) := by
      refine hρ.assign (matchPat_typed hpat hmatch ?_)
      rw [patTy, hty, Ty.vMap_tyapp]
      exact hmem
    have hvals : ((freshVars n ql).map (Term.tvar [])).map
        (I.val τ (assign ρ ((freshVars n ql).zip ds))) = ds := by
      rw [map_map]
      exact map_assign_zip (nodup_freshVars n ql) hlen ρ
    rw [hcase]
    refine compCases_eval hrec hops h hc hfree htypes hargs hρ' ?_ (Nat.le_add_right n ql.length)
      ?_ ?_ ?_ ?_ ?_ ha
    · intro v hv
      rw [assign_of_not_mem]
      rw [map_fst_zip hlen.le]
      intro hmem'
      have := (mem_freshVars hmem').1
      omega
    · rw [← map_vsTy_freshVars n ql, forall₂_map_left_iff, forall₂_map_right_iff, forall₂_same]
      exact fun v _ => .tvar [] v
    · intro u hu v hv
      obtain ⟨w, hw, rfl⟩ := mem_map.mp hu
      rw [Term.freeVars, mem_singleton] at hv
      exact hv ▸ (mem_freshVars hw).2
    · intro row hrow v hv u hu hvu
      obtain ⟨w, hw, rfl⟩ := mem_map.mp hu
      rw [Term.freeVars, mem_singleton] at hvu
      have h₁ := (h.vars row hrow v hv).1
      have h₂ := (mem_freshVars hw).1
      rw [hvu] at h₁
      omega
    · rw [hvals]
      exact hds
    · rw [hvals, hd]

theorem compTree_eval (hρ : I.TypedVal τ ρ) (ha : compTree compile c tl ops.mkCase n t = .ok a) :
    evalRows I τ ev ρ ((t :: tl).map (I.val τ ρ)) rl = some (ev a ρ) := by
  unfold compTree at ha
  split at ha
  · next hempty =>
      refine compWilds_eval hrec hops h hc hρ ?_ ha
      intro p hp b hb
      have hmem := hc.heads p hp b hb
      rw [List.isEmpty_iff] at hempty
      rw [TagMap.mem, TagMap.find?, hempty] at hmem
      cases hmem
  · next hempty =>
      rw [List.isEmpty_iff] at hempty
      split at ha
      · next cs al hcs =>
          obtain ⟨attrs, o, rfl, hpos⟩ := constrApp?_eq_some hcs
          obtain ⟨ts, tys, hty, hl, hmem, rfl, hal⟩ := h.head.constr hpos
          have hval : I.val τ ρ (.tapp attrs cs al (some ty)) =
              I.fn cs (.tyapp ts (tys.map (Ty.vMap τ))) (al.map (I.val τ ρ)) := by
            rw [val, eval_tapp_some, hty, Ty.vMap_tyapp]
            rfl
          have hds : I.Typed (paramMap ts (tys.map (Ty.vMap τ))) cs.lsArgs
              (al.map (I.val τ ρ)) := by
            rw [← typed_args_iff hl hmem, Typed, forall₂_map_right_iff]
            exact hal.flip.imp fun ty t ht => (ht.eval_mem hI hρ .nil _ rfl).1
          split at ha
          · next hin =>
              obtain ⟨ql, hql⟩ := (TagMap.mem_eq_true_iff _ _).mp hin
              obtain ⟨ts', tys', hargs⟩ := hc.argsOf cs ql hql
              cases hty.symm.trans hargs.ty_eq
              refine compCases_eval hrec hops h hc hfree hql hargs hρ (fun _ _ => rfl) le_rfl ?_ ?_
                ?_ hds hval ha
              · rw [hargs.types]
                exact hal
              · intro u hu v hv
                exact h.fresh _ mem_cons_self v (Term.freeVars_tapp_of_mem hu hv)
              · intro row hrow v hv u hu hvu
                exact (h.vars row hrow v hv).2 _ mem_cons_self
                  (Term.freeVars_tapp_of_mem hu hvu)
          · next hin =>
              refine compWilds_eval hrec hops h hc hρ ?_ ha
              rw [hval]
              exact hc.matchPat_heads h.columnTyped hfree hty hl hmem (by simpa using hin) hds
      · obtain ⟨base, hbase, bl, hbl, ha⟩ := bind₂_eq_ok.mp ha
        simp only [Except.ok.injEq] at ha
        subst ha
        refine compTree_case_eval hrec hops h hc hI hfree hempty hρ ?_ hbl
        unfold compBase at hbase
        split at hbase
        · next hno => exact .inl ⟨hno, (Except.ok.inj hbase).symm⟩
        · obtain ⟨a, ha, hbase⟩ := bind_eq_ok.mp hbase
          exact .inr ⟨a, ha, (Except.ok.inj hbase).symm⟩

end Step

/-! ## The compiler -/

theorem compileFuel_compiles (hI : I.Sound) (hfree : I.Free S) (hops : Faithful S I τ ev ops)
    (fuel : ℕ) : Compiles S I τ ev (compileFuel ops fuel) := by
  induction fuel with
  | zero =>
    intro n tl tyl rl a _ ha
    cases ha
  | succ fuel ih =>
    intro n tl tyl rl a h ha ρ hρ
    cases rl with
    | nil =>
      obtain ⟨_, _, ha⟩ := bind_eq_ok.mp ha
      cases ha
    | cons row rl =>
      cases tl with
      | nil =>
        obtain ⟨pl, a'⟩ := row
        obtain rfl : a' = a := Except.ok.inj ha
        have hpl : pl = [] := by
          cases h.terms
          exact map_eq_nil_iff.mp (h.rows _ mem_cons_self).types
        subst hpl
        rfl
      | cons t tl =>
        cases h.terms with
        | @cons _ ty _ tyl ht htl =>
          obtain ⟨c, hc, hspec, _⟩ := columnOf_total ops (fun ts _ _ => hops.gets ts) ht.tTy_eq
            h.columnTyped
          rw [compileFuel, hc] at ha
          exact compTree_eval ih hops h hspec hI hfree hρ ha

theorem compileBare_eq_ok {mkCase : Term → List (Pattern × α) → α}
    {mkLet : VSymbol → Term → α → α} (h : compileBare mkCase mkLet n tl rl = .ok a) :
    compile ⟨fun _ => .ok none, mkCase, mkLet⟩ n tl rl = .ok a := by
  unfold compileBare at h
  split at h
  · cases h
  · exact h

theorem evalRows_eq_some {r : R} (h : evalRows I τ ev ρ ds rl = some r) :
    ∃ pre row post β, rl = pre ++ row :: post ∧
      (∀ row' ∈ pre, I.matchPatList τ row'.1 ds = none) ∧
      I.matchPatList τ row.1 ds = some β ∧ r = ev row.2 (assign ρ β) := by
  obtain ⟨pre, row, post, hrl, hrow, hpre⟩ := findSome?_eq_some_iff.mp h
  obtain ⟨β, hβ, heq⟩ := Option.map_eq_some_iff.mp hrow
  refine ⟨pre, row, post, β, hrl, ?_, hβ, heq.symm⟩
  exact fun row' hrow' => Option.map_eq_none_iff.mp (hpre row' hrow')

/-- A tree returned by the compiler, with or without the constructors of the types,
has the value of the action of the first row that matches the values of the terms,
with the variables of the row bound to the parts of the values they match. -/
theorem compile_correct (hI : I.Sound) (hfree : I.Free S) (hops : Faithful S I τ ev ops)
    (h : Ready S ev n tl tyl rl)
    (ha : compile ops n tl rl = .ok a ∨ compileBare ops.mkCase ops.mkLet n tl rl = .ok a)
    (hρ : I.TypedVal τ ρ) :
    ∃ pre row post β, rl = pre ++ row :: post ∧
      (∀ row' ∈ pre, I.matchPatList τ row'.1 (tl.map (I.val τ ρ)) = none) ∧
      I.matchPatList τ row.1 (tl.map (I.val τ ρ)) = some β ∧
      ev a ρ = ev row.2 (assign ρ β) := by
  have hbare : Faithful S I τ ev ⟨fun _ => .ok none, ops.mkCase, ops.mkLet⟩ :=
    ⟨fun _ => .inr rfl, hops.mkLet, hops.mkCase⟩
  rcases ha with ha | ha
  · exact evalRows_eq_some (compileFuel_compiles hI hfree hops _ h ha ρ hρ)
  · exact evalRows_eq_some
      (compileFuel_compiles hI hfree hbare _ h (compileBare_eq_ok ha) ρ hρ)

/-! ## Terms as actions -/

def termOps (getConstructors : TySymbol → Except Exn (Option (List LSymbol))) :
    CompileOps Term :=
  ⟨getConstructors, Term.tCaseClose, Term.tLetClose⟩

theorem assign_zip_values {β : List (VSymbol × D)} (hβ : (β.map Prod.fst).Perm vl) (hvl : vl.Nodup)
    (ρ : VSymbol → D) : assign ρ (vl.zip (I.values τ β vl)) = assign ρ β := by
  funext v
  by_cases hv : v ∈ vl
  · obtain ⟨j, hj⟩ := mem_iff_getElem?.mp hv
    obtain ⟨d, hd⟩ := Option.isSome_iff_exists.mp
      ((TagMap.mem_keys_iff v β).mp (hβ.mem_iff.mpr hv))
    have hval : (I.values τ β vl)[j]? = some d := by
      rw [values, getElem?_map, hj, Option.map_some, hd, Option.getD_some]
    rw [assign, assign, lookup_zip_eq_some hvl hj hval, hd]
  · rw [assign_of_not_mem, assign_of_not_mem]
    · exact fun h => hv (hβ.mem_iff.mp h)
    · rw [map_fst_zip (length_values I τ β vl).ge]
      exact hv

/-- The value of a case statement is that of its first branch that matches. -/
theorem eval_tCaseClose {pre post : List (Pattern × Term)} {a : Term} {β : List (VSymbol × D)}
    (hp : PatTyped S p) (hpre : ∀ b ∈ pre, I.matchPat τ b.1 (I.val τ ρ t) = none)
    (hβ : I.matchPat τ p (I.val τ ρ t) = some β) :
    I.eval τ ρ [] (Term.tCaseClose t (pre ++ (p, a) :: post)) = I.eval τ (assign ρ β) [] a := by
  rw [Term.tCaseClose, eval_tcase]
  change I.evalBranches τ ρ [] (I.val τ ρ t) _ = _
  have hbody : I.eval τ ρ (I.values τ β p.vars ++ []) (Term.closeVars p.vars a) =
      I.eval τ (assign ρ β) [] a := by
    rw [eval_closeVars (length_values I τ β p.vars).symm,
      assign_zip_values (matchPat_keys hp hβ) hp.nodup]
  induction pre with
  | nil =>
    cases post with
    | nil =>
      rw [nil_append, map_singleton, Term.tCloseBranch, evalBranches_singleton, hβ]
      exact hbody
    | cons b post =>
      rw [nil_append, map_cons, map_cons, Term.tCloseBranch, evalBranches_cons_cons, hβ]
      exact hbody
  | cons b pre ih =>
    rw [forall_mem_cons] at hpre
    rw [← ih hpre.2]
    cases pre with
    | nil =>
      rw [cons_append, nil_append, map_cons, map_cons, Term.tCloseBranch,
        evalBranches_cons_cons, hpre.1]
    | cons b' pre =>
      rw [cons_append, cons_append, map_cons, map_cons, Term.tCloseBranch,
        evalBranches_cons_cons, hpre.1]

theorem termOps_faithful {get : TySymbol → Except Exn (Option (List LSymbol))}
    (hget : ∀ ts, Gets S get ts) (I : Interp D) (τ : TyVal) :
    Faithful S I τ (fun t ρ => I.eval τ ρ [] t) (termOps get) where
  gets := hget
  mkLet v t a ρ := by
    change I.eval τ ρ [] (Term.tLetClose v t a) = _
    rw [Term.tLetClose, eval_tlet]
    exact @eval_closeVars _ I τ ρ [v] [I.val τ ρ t] rfl [] a
  mkCase hp hpre hβ := eval_tCaseClose hp hpre hβ

theorem insensitive_term (ht : ∀ v ∈ t.freeVars, v.vsName.idTag < n) (I : Interp D) (τ : TyVal) :
    Insensitive (fun t ρ => I.eval τ ρ [] t) n t :=
  fun _ _ hρ => eval_congr t [] fun v hv => hρ v (ht v hv)

/-! A match on a boolean `b` with the branches `True` and `x`. -/

def vsB : VSymbol := ⟨⟨20⟩, tyBool⟩

def vsX : VSymbol := ⟨⟨21⟩, tyBool⟩

def boolRows : List (Row Term) :=
  [([papp fsBoolTrue [] tyBool], .tapp [] fsBoolFalse [] (some tyBool)), ([pvar vsX], .tvar [] vsX)]

def boolTree : Term :=
  Term.tCaseClose (.tvar [] vsB) [(papp fsBoolTrue [] tyBool, .tapp [] fsBoolFalse [] (some tyBool)),
    (pwild tyBool, Term.tLetClose vsX (.tvar [] vsB) (.tvar [] vsX))]

theorem boolRows_ready (I : Interp D) (τ : TyVal) :
    Ready boolSig (fun t ρ => I.eval τ ρ [] t) 22 [.tvar [] vsB] [tyBool] boolRows where
  terms := .cons (.tvar [] vsB) .nil
  fresh := by decide
  rows := by
    have htrue : PatTyped boolSig (papp fsBoolTrue [] tyBool) :=
      .papp rfl (by simp [boolSig]) rfl (by decide) (by simp)
    rw [boolRows, forall_mem_cons, forall_mem_singleton]
    exact ⟨⟨rfl, by simpa using htrue, by decide⟩, rfl, by simpa using .pvar vsX, by decide⟩
  vars := by decide
  actions := by
    rw [boolRows, forall_mem_cons, forall_mem_singleton]
    exact ⟨insensitive_term (by decide) I τ, insensitive_term (by decide) I τ⟩

/-- `compile_correct` for the match on `b`, the value of `b` being true. -/
theorem compile_correct_boolRows :
    compile (termOps fun ts => .ok (some (boolSig.constrs ts))) 22 [.tvar [] vsB] boolRows =
        .ok boolTree ∧
      ∃ pre row post β, boolRows = pre ++ row :: post ∧
        (∀ row' ∈ pre, twoValued.matchPatList .tyvar row'.1
          [twoValued.val .tyvar (fun v => (v.vsTy.vMap .tyvar, true)) (.tvar [] vsB)] = none) ∧
        twoValued.matchPatList .tyvar row.1
          [twoValued.val .tyvar (fun v => (v.vsTy.vMap .tyvar, true)) (.tvar [] vsB)] = some β ∧
        twoValued.eval .tyvar (fun v => (v.vsTy.vMap .tyvar, true)) [] boolTree =
          twoValued.eval .tyvar (assign (fun v => (v.vsTy.vMap .tyvar, true)) β) [] row.2 :=
  ⟨rfl, compile_correct twoValued_sound twoValued_free
    (termOps_faithful (fun _ => .inl rfl) twoValued .tyvar)
    (boolRows_ready twoValued .tyvar) (.inl rfl) fun _ => rfl⟩

/-! The variables of a row must not occur in the terms: the definitions for the later columns are
put around those for the earlier ones. -/

def vsC : VSymbol := ⟨⟨22⟩, tyBool⟩

def captureRow : Row Term := ([pvar vsX, pvar vsB], .tvar [] vsX)

/-- `let b = c in let x = b in x` -/
def captureTree : Term :=
  Term.tLetClose vsB (.tvar [] vsC) (Term.tLetClose vsX (.tvar [] vsB) (.tvar [] vsX))

/-- On the values of `b` and `c`, the row with the patterns `x` and `b` gives that of `b`, and the
tree gives that of `c`. -/
theorem compile_captures :
    RowTyped boolSig [tyBool, tyBool] captureRow ∧
      compile (termOps fun ts => .ok (some (boolSig.constrs ts))) 23 [.tvar [] vsB, .tvar [] vsC]
        [captureRow] = .ok captureTree ∧
      ∃ ρ β, twoValued.TypedVal .tyvar ρ ∧
        twoValued.matchPatList .tyvar captureRow.1
          ([.tvar [] vsB, .tvar [] vsC].map (twoValued.val .tyvar ρ)) = some β ∧
        twoValued.eval .tyvar ρ [] captureTree ≠
          twoValued.eval .tyvar (assign ρ β) [] captureRow.2 := by
  refine ⟨⟨rfl, ?_, by decide⟩, rfl, fun v => (v.vsTy.vMap .tyvar, decide (v = vsB)),
    [(vsX, (tyBool, true)), (vsB, (tyBool, false))], fun _ => rfl, rfl, fun h => ?_⟩
  · simpa [captureRow] using ⟨.pvar vsX, .pvar vsB⟩
  · have htree : (twoValued.eval .tyvar (fun v => (v.vsTy.vMap .tyvar, decide (v = vsB))) []
        captureTree).1 = (tyBool, false) := rfl
    have hrow : (twoValued.eval .tyvar (assign (fun v => (v.vsTy.vMap .tyvar, decide (v = vsB)))
        [(vsX, (tyBool, true)), (vsB, (tyBool, false))]) [] captureRow.2).1 = (tyBool, true) := rfl
    rw [h, hrow] at htree
    cases htree

end Pattern

end Why3
