import Why3.Logic.Infer
import Why3.Pattern.CheckMatch

/-!
# Which constructors the check of a match asks for

The compiler of a pattern matrix asks for the constructors of type symbols that occur in the
terms and the patterns of the matrix. Two maps that agree on them lead to the same result.
-/

namespace Why3

open Lib Term List

variable {ql : List Pattern} {p : Pattern} {t : Term}

theorem symsTy_tTy {s : Sym} : ∀ {t : Term} {ty : Ty}, t.tTy = some ty → s ∈ symsTy ty →
    s ∈ symsTerm t
  | tvar _ v, ty, h, hs | tbnd _ _ _, ty, h, hs | tconst _ _ _, ty, h, hs => by cases h; exact hs
  | tapp _ _ _ o, ty, h, hs => by
    obtain rfl : o = some ty := h
    exact mem_append_left _ hs
  | tif _ f t e, ty, h, hs => by
    have := symsTy_tTy (t := t) h hs
    simp [symsTerm, this]
  | tlet _ t v e, ty, h, hs => by
    have := symsTy_tTy (t := e) h hs
    simp [symsTerm, this]
  | tcase _ t ((p, u) :: bl), ty, h, hs => by
    have := symsTy_tTy (t := u) h hs
    simp [symsTerm, symsTermBranches, this]
  | teps _ v f, ty, h, hs => by
    cases h
    exact mem_append_left _ hs

namespace Pattern

variable {α : Type} {P : Sym → Prop}

def RowsIn (P : Sym → Prop) (rl : List (Row α)) : Prop :=
  ∀ row ∈ rl, ∀ p ∈ row.1, ∀ s ∈ symsPattern p, P s

theorem heads_in (hp : ∀ s ∈ symsPattern p, P s) :
    ∀ b ∈ heads p, ∀ q ∈ b.2, ∀ s ∈ symsPattern q, P s := by
  induction p using headInduction with
  | pwild _ => simp [heads]
  | pvar _ => simp [heads]
  | papp fs pl ty =>
    intro b hb q hq s hs
    obtain rfl := mem_singleton.mp hb
    exact hp s (mem_append_right _ (mem_cons_of_mem _
      (mem_symsPatternList.mpr ⟨q, hq, hs⟩)))
  | por p q ihp ihq =>
    simp only [symsPattern, forall_mem_append] at hp
    intro b hb
    rcases mem_append.mp hb with hb | hb
    · exact ihp hp.1.2 b hb
    · exact ihq hp.2 b hb
  | pas p x ih =>
    simp only [symsPattern, forall_mem_append] at hp
    exact ih hp.2

theorem wildsFor_in (hql : ∀ q ∈ ql, ∀ s ∈ symsPattern q, P s) :
    ∀ p ∈ wildsFor ql, ∀ s ∈ symsPattern p, P s := by
  intro p hp s hs
  obtain ⟨q, hq, rfl⟩ := mem_map.mp (mem_reverse.mp hp)
  exact hql q hq s (symsTy_patTy q s hs)

section OneRow

variable {mkLet : VSymbol → Term → α → α} {t : Term} {pl : List Pattern}

theorem specialise_in {cs : LSymbol} (hql : ∀ q ∈ ql, ∀ s ∈ symsPattern q, P s)
    (hpl : ∀ q ∈ pl, ∀ s ∈ symsPattern q, P s) (hp : ∀ s ∈ symsPattern p, P s) (a : α) :
    RowsIn P (specialise mkLet t cs ql p pl a) := by
  rw [RowsIn, specialise_eq_alts, forall_mem_flatMap]
  rintro ⟨_ | c, a'⟩ hb row hrow
  · obtain rfl := mem_singleton.mp hrow
    exact forall_mem_append.mpr ⟨wildsFor_in hql, hpl⟩
  · rw [specialiseAlt] at hrow
    split at hrow
    · obtain rfl := mem_singleton.mp hrow
      exact forall_mem_append.mpr ⟨fun q hq =>
        heads_in hp c (mem_heads_of_mem_alts hb) q (mem_reverse.mp hq), hpl⟩
    · cases hrow

theorem defaults_in (hpl : ∀ q ∈ pl, ∀ s ∈ symsPattern q, P s) (p : Pattern) (a : α) :
    RowsIn P (defaults mkLet t p pl a) := by
  rw [RowsIn, defaults_eq_alts, forall_mem_flatMap]
  rintro ⟨_ | c, a'⟩ hb row hrow
  · exact mem_singleton.mp hrow ▸ hpl
  · cases hrow

theorem RowsIn.flatMap {rl : List (Row α)} (h : RowsIn P rl)
    {f : Pattern → List Pattern → α → List (Row α)}
    (hf : ∀ p pl a, (∀ s ∈ symsPattern p, P s) → (∀ q ∈ pl, ∀ s ∈ symsPattern q, P s) →
      RowsIn P (f p pl a)) : RowsIn P (rl.flatMap (onRow f)) := by
  intro row' hrow'
  obtain ⟨⟨pl, a⟩, hrow, hmem⟩ := mem_flatMap.mp hrow'
  cases pl with
  | nil => cases hmem
  | cons p pl =>
    have hpl := h _ hrow
    rw [forall_mem_cons] at hpl
    exact hf p pl a hpl.1 hpl.2 row' hmem

end OneRow

structure ColumnIn (P : Sym → Prop) (c : Column α) : Prop where
  wilds : RowsIn P c.wilds
  args : ∀ cs ql, c.types.find? cs = some ql → ∀ q ∈ ql, ∀ s ∈ symsPattern q, P s
  cases : ∀ cs ql rl, c.types.find? cs = some ql → c.cases.find? cs = some rl → RowsIn P rl
  listed : ∀ b ∈ c.cslist, c.types.find? b.1 = some b.2

theorem columnOf_in {ops : CompileOps α} {rl : List (Row α)} {c : Column α}
    (h : columnOf ops t rl = .ok c) (hrl : RowsIn P rl) : ColumnIn P c := by
  obtain ⟨ty, _, ⟨bare, css⟩, _, h⟩ := bind₂_eq_ok.mp h
  obtain ⟨⟨types, cslist⟩, hpop, ⟨cases, wilds⟩, hdisp, h⟩ := bind₂_eq_ok.mp h
  cases h
  obtain ⟨hpopulated, hfrom, _⟩ := populateRows_spec hpop
  obtain ⟨rfl, hcases⟩ := dispatchRows_spec ops.mkLet t types hdisp
  have hargs : ∀ cs ql, types.find? cs = some ql → ∀ q ∈ ql, ∀ s ∈ symsPattern q, P s := by
    intro cs ql hcs
    obtain ⟨p, ⟨row, hrow, pl, hpl⟩, hmem⟩ := hfrom cs ql hcs
    exact heads_in (hrl row hrow p (hpl ▸ mem_cons_self)) _ hmem
  refine ⟨hrl.flatMap fun p pl a _ hpl => defaults_in hpl p a, hargs, ?_, fun b hb =>
    (hpopulated.mem_iff b.1 b.2).mp hb⟩
  intro cs ql rl' hcs hrl'
  have hget := hcases cs ql hcs
  rw [show cases.find? cs = some rl' from hrl', Option.getD_some] at hget
  rw [hget]
  exact hrl.flatMap fun p pl a hp hpl => specialise_in (hargs cs ql hcs) hpl hp a

section Congr

variable {get get' : TySymbol → Except Exn (Option (List LSymbol))}
  {mkCase : Term → List (Pattern × α) → α} {mkLet : VSymbol → Term → α → α}

theorem columnOf_congr (hget : ∀ ts : TySymbol, P (.ts ts.embed) → get ts = get' ts)
    (ht : ∀ s ∈ symsTerm t, P s) (rl : List (Row α)) :
    columnOf ⟨get, mkCase, mkLet⟩ t rl = columnOf ⟨get', mkCase, mkLet⟩ t rl := by
  unfold columnOf
  refine except_bind_congr fun ty hty => ?_
  have hconstrs : columnConstrs get ty = columnConstrs get' ty := by
    cases ty with
    | tyvar v => rfl
    | tyapp ts tl =>
      rw [columnConstrs, columnConstrs, hget ts (ht _ (symsTy_tTy (tType_eq_ok.mp hty) ?_))]
      exact mem_map_of_mem (by simp)
  rw [hconstrs]

/-- Recursive calls that agree on what a column leads to give the same tree. -/
theorem compTree_congr {compile compile' : ℕ → List Term → List (Row α) → Except Exn α}
    {c : Column α} {tl : List Term} (hc : ColumnIn P c) (htl : ∀ t ∈ tl, ∀ s ∈ symsTerm t, P s)
    (hcomp : ∀ n tl rl, (∀ t ∈ tl, ∀ s ∈ symsTerm t, P s) → RowsIn P rl →
      compile n tl rl = compile' n tl rl) (n : ℕ) (ht : ∀ s ∈ symsTerm t, P s) :
    compTree compile c tl mkCase n t = compTree compile' c tl mkCase n t := by
  have hwilds : compWilds compile c tl n = compWilds compile' c tl n := by
    rw [compWilds, compWilds, hcomp n tl _ htl hc.wilds]
  have hcases : ∀ cs ql, c.types.find? cs = some ql → ∀ (n : ℕ) (al : List Term),
      (∀ t ∈ al, ∀ s ∈ symsTerm t, P s) →
      compCases compile c tl n cs al = compCases compile' c tl n cs al := by
    intro cs ql hcs n al hal
    unfold compCases
    cases hrl : c.cases.find? cs with
    | none => rfl
    | some rl =>
      simp only
      rw [hcomp n _ rl ?_ (hc.cases cs ql rl hcs hrl)]
      intro u hu
      rcases mem_append.mp hu with hu | hu
      · exact hal u (mem_reverse.mp hu)
      · exact htl u hu
  have hbranch : ∀ b ∈ c.cslist, ∀ acc,
      compBranch compile c tl n acc b = compBranch compile' c tl n acc b := by
    intro b hb acc
    unfold compBranch
    simp only
    rw [hcases b.1 b.2 (hc.listed b hb)]
    intro u hu s hs
    obtain ⟨v, hv, rfl⟩ := mem_map.mp hu
    have hty : v.vsTy ∈ b.2.map patTy := map_vsTy_freshVars n b.2 ▸ mem_map_of_mem hv
    obtain ⟨q, hq, hty⟩ := mem_map.mp hty
    exact hc.args b.1 b.2 (hc.listed b hb) q hq s (symsTy_patTy q s (hty ▸ hs))
  unfold compTree
  split_ifs with hempty
  · exact hwilds
  · split
    · next cs al hconstr =>
        obtain ⟨a, o, rfl, _⟩ := constrApp?_eq_some hconstr
        split_ifs with hmem
        · obtain ⟨ql, hql⟩ := (TagMap.mem_eq_true_iff _ _).mp hmem
          refine hcases cs ql hql n al fun u hu s hs => ht s ?_
          exact mem_append_right _ (mem_cons_of_mem _
            (mem_symsTermList.mpr ⟨u, hu, hs⟩))
        · exact hwilds
    · rw [compBase, compBase, hwilds]
      refine except_bind_congr fun base _ => ?_
      rw [foldlM_congr fun b hb acc => hbranch b hb acc]

theorem compileFuel_congr (hget : ∀ ts : TySymbol, P (.ts ts.embed) → get ts = get' ts)
    (fuel : ℕ) : ∀ (n : ℕ) (tl : List Term) (rl : List (Row α)),
    (∀ t ∈ tl, ∀ s ∈ symsTerm t, P s) → RowsIn P rl →
    compileFuel ⟨get, mkCase, mkLet⟩ fuel n tl rl =
      compileFuel ⟨get', mkCase, mkLet⟩ fuel n tl rl := by
  induction fuel with
  | zero => exact fun _ _ _ _ _ => rfl
  | succ fuel ih =>
    intro n tl rl htl hrl
    cases rl with
    | nil => rfl
    | cons row rl =>
      cases tl with
      | nil => rfl
      | cons t tl =>
        rw [forall_mem_cons] at htl
        rw [compileFuel, compileFuel, columnOf_congr hget htl.1]
        exact except_bind_congr fun c hc => compTree_congr (columnOf_in hc hrl) htl.2 ih n htl.1

end Congr

end Pattern

/-! ## The matches of a declaration -/

section CheckMatch

set_option linter.unusedSectionVars false

variable {P : Sym → Prop} {kn kn' : KnownMap}
  (hkn : ∀ ts : TySymbol, P (.ts ts.embed) → findConstructors kn ts = findConstructors kn' ts)

include hkn

theorem checkStmt_congr {s : Term × List (Pattern × Term)} (ht : ∀ y ∈ symsTerm s.1, P y)
    (hbl : ∀ y ∈ symsTermBranches s.2, P y) : checkStmt kn s = checkStmt kn' s := by
  have hget : ∀ ts : TySymbol, P (.ts ts.embed) → getConstructors kn ts = getConstructors kn' ts :=
    fun ts hts => by rw [getConstructors, getConstructors, hkn ts hts]
  have hpats : ∀ b ∈ s.2, ∀ y ∈ symsPattern b.1, P y :=
    fun b hb y hy => hbl y (mem_symsTermBranches.mpr ⟨b, hb, .inl hy⟩)
  unfold checkStmt Pattern.checkCompile
  cases hs : s.2 with
  | nil => rfl
  | cons b bl =>
    rw [hs] at hpats
    refine Pattern.compileFuel_congr hget _ _ _ _ ?_ ?_
    · simpa [Pattern.checkTerms] using ht
    · intro row hrow p hp y hy
      obtain ⟨pl, hpl, rfl⟩ := mem_map.mp hrow
      obtain ⟨b', hb', rfl⟩ : ∃ b' ∈ b :: bl, [b'.1] = pl := mem_map.mp hpl
      obtain rfl := mem_singleton.mp hp
      exact hpats b' hb' y hy

theorem checkMatchTerm_congr (t : Term) (h : ∀ y ∈ symsTerm t, P y) :
    checkMatchTerm kn t = checkMatchTerm kn' t := by
  rw [checkMatchTerm_eq, checkMatchTerm_eq]
  refine forM_congr fun (u, bl) hs => ?_
  obtain ⟨hu, hbl⟩ := caseStmts_syms t u bl hs
  exact checkStmt_congr hkn (fun y hy => h y (hu y hy)) fun y hy => h y (hbl y hy)

end CheckMatch

end Why3
