import Why3.Pattern.Exhaustive
import Why3.Logic.KnownSig

/-!
# The exhaustiveness checks

The three checks that call the compiler for its exceptions: of a matrix, of a
matrix whose constructors are not known, and of the matches of a declaration.
-/

namespace Why3

open Lib Interp List

variable {ppl : List (List Pattern)} {tl : List Term} {tyl : List Ty}
variable {s : Term × List (Pattern × Term)}

namespace Pattern

variable {α D : Type} {I : Interp D} {τ : TyVal} {S : DataSig} {K : TySymbol → Prop}
  {get : TySymbol → Except Exn (Option (List LSymbol))}
variable {pl : List Pattern} {n : ℕ}

/-! ## Matrices -/

def scrutinees (n : ℕ) (tl : List Term) : List (List Pattern) → List Term
  | [] => tl
  | pl :: _ => checkTerms n tl pl

def Unmatched (I : Interp D) (τ : TyVal) (ppl : List (List Pattern)) (ds : List D) : Prop :=
  ∀ pl ∈ ppl, I.matchPatList τ pl ds = none

theorem covers_map_iff (a : α) (ppl : List (List Pattern)) (ds : List D) :
    Covers I τ (ppl.map fun pl => (pl, a)) ds ↔ ¬ Unmatched I τ ppl ds := by
  simp [Covers, Unmatched]

/-- The result of a check is right: it fails with missing patterns if and only if
some instance of the scrutinees is not matched, and the missing patterns match no
other instance. -/
structure Right (S : DataSig) (I : Interp D) (τ : TyVal) (tl : List Term) (tyl : List Ty)
    (ppl : List (List Pattern)) (r : Except Exn Unit) : Prop where
  total : r = .ok () ∨ ∃ pl, r = .error (.nonExhaustive pl)
  raised_iff : (∃ pl, r = .error (.nonExhaustive pl)) ↔
    ∃ ds, Instances I τ tl ds ∧ Unmatched I τ ppl ds
  types : ∀ pl, r = .error (.nonExhaustive pl) → pl.map patTy = tyl ∧ ∀ p ∈ pl, PatTyped S p
  missing : ∀ pl, r = .error (.nonExhaustive pl) → ∀ ds, Instances I τ tl ds →
    I.matchPatList τ pl ds ≠ none → Unmatched I τ ppl ds

theorem Verdict.right {exact : Prop} (hexact : exact) {r : Except Exn Unit}
    (h : Verdict S I τ exact tl tyl (ppl.map fun pl => (pl, ())) (fun _ => True) r) :
    Right S I τ tl tyl ppl r := by
  cases h with
  | covered b hcov =>
    refine ⟨.inl rfl, ⟨?_, ?_⟩, ?_, ?_⟩
    · rintro ⟨pl, h⟩
      cases h
    · rintro ⟨ds, hds, hno⟩
      exact absurd hno ((covers_map_iff () ppl ds).mp (hcov ds trivial hds))
    · intro pl h
      cases h
    · intro pl h
      cases h
  | @missing pl ds hds hno hshape hpl =>
    have hun : ∀ ds, ¬ Covers I τ (ppl.map fun pl => (pl, ())) ds → Unmatched I τ ppl ds := by
      intro ds hno
      rwa [covers_map_iff, not_not] at hno
    refine ⟨.inr ⟨pl, rfl⟩, ⟨fun _ => ⟨ds, hds, hun ds hno⟩, fun _ => ⟨pl, rfl⟩⟩, ?_, ?_⟩
    · intro pl' h
      cases h
      exact ⟨hshape.types, hshape.typed⟩
    · intro pl' h ds hds hmatch
      cases h
      exact hun ds (hpl hexact ds hds hmatch)

theorem checkCompile_right (hI : I.Sound) (hfree : I.Free S) (hget : Answers S K get)
    (hexact : Exact S K get) (h : Matrix S K (scrutinees n tl ppl) tyl (ppl.map fun pl => (pl, ()))) :
    Right S I τ (scrutinees n tl ppl) tyl ppl (checkCompile get n tl ppl) := by
  apply Verdict.right hexact
  cases ppl with
  | nil => exact verdict_nil hI h.terms
  | cons pl ppl => exact compile_verdict hI hfree hget _ _ _ h

/-! ## Actions that stay the same -/

section Action

variable {P : α → Prop} {mkLet : VSymbol → Term → α → α} {t : Term}

theorem action_specialise (hlet : ∀ x t a, P a → P (mkLet x t a)) {cs : LSymbol} {ql : List Pattern}
    (p : Pattern) (a : α) (ha : P a) : ∀ row ∈ specialise mkLet t cs ql p pl a, P row.2 := by
  rw [specialise_eq_alts, forall_mem_flatMap]
  rintro ⟨_ | c, a'⟩ hb row hrow
  · exact mem_singleton.mp hrow ▸ alts_action hlet ha _ hb
  · rw [specialiseAlt] at hrow
    split at hrow
    · exact mem_singleton.mp hrow ▸ alts_action hlet ha _ hb
    · cases hrow

theorem action_defaults (hlet : ∀ x t a, P a → P (mkLet x t a)) (p : Pattern) (a : α) (ha : P a) :
    ∀ row ∈ defaults mkLet t p pl a, P row.2 := by
  rw [defaults_eq_alts, forall_mem_flatMap]
  rintro ⟨_ | c, a'⟩ hb row hrow
  · exact mem_singleton.mp hrow ▸ alts_action hlet ha _ hb
  · cases hrow

theorem action_onRow {f : Pattern → List Pattern → α → List (Row α)}
    (hf : ∀ p pl a, P a → ∀ row ∈ f p pl a, P row.2) {rl : List (Row α)}
    (hrl : ∀ row ∈ rl, P row.2) : ∀ row ∈ rl.flatMap (onRow f), P row.2 := by
  intro row' hrow'
  obtain ⟨⟨pl, a⟩, hrow, hmem⟩ := mem_flatMap.mp hrow'
  cases pl with
  | nil => simp [onRow] at hmem
  | cons p pl => exact hf p pl a (hrl _ hrow) row' hmem

theorem compileFuel_action {ops : CompileOps α} (hlet : ∀ x t a, P a → P (ops.mkLet x t a))
    (hcase : ∀ t bl, P (ops.mkCase t bl)) (fuel : ℕ) : ∀ {n tl} {rl : List (Row α)} {a},
      (∀ row ∈ rl, P row.2) → compileFuel ops fuel n tl rl = .ok a → P a := by
  induction fuel with
  | zero =>
    intro n tl rl a _ ha
    cases ha
  | succ fuel ih =>
    intro n tl rl a hrl ha
    cases rl with
    | nil =>
      obtain ⟨_, _, ha⟩ := bind_eq_ok.mp ha
      cases ha
    | cons row rl =>
      cases tl with
      | nil =>
        obtain ⟨pl, a'⟩ := row
        obtain rfl : a' = a := Except.ok.inj ha
        exact hrl _ mem_cons_self
      | cons t tl =>
        obtain ⟨c, hc, ha⟩ := bind_eq_ok.mp ha
        obtain ⟨ty, _, ⟨bare, css⟩, _, hc⟩ := bind₂_eq_ok.mp hc
        obtain ⟨⟨types, cslist⟩, _, ⟨cases, wilds⟩, hdisp, hc⟩ := bind₂_eq_ok.mp hc
        simp only [Except.ok.injEq] at hc
        subst hc
        obtain ⟨rfl, hcases⟩ := dispatchRows_spec ops.mkLet t types hdisp
        have hwilds : ∀ {c : Column α}, c.wilds = (row :: rl).flatMap (onRow
            (defaults ops.mkLet t)) → compWilds (compileFuel ops fuel) c tl n = .ok a → P a := by
          intro c hw ha
          rw [compWilds, hw] at ha
          exact ih (action_onRow (fun p pl => action_defaults hlet p) hrl)
            (onNonExhaustive_eq_ok ha)
        unfold compTree at ha
        split at ha
        · exact hwilds rfl ha
        · split at ha
          · next cs al _ =>
              split at ha
              · next hmem =>
                  obtain ⟨ql, hql⟩ := (TagMap.mem_eq_true_iff _ _).mp hmem
                  have hget := hcases cs ql hql
                  unfold compCases at ha
                  simp only at ha
                  cases hf : cases.find? cs with
                  | none => simp [hf] at ha
                  | some rl' =>
                    rw [hf, Option.getD_some] at hget
                    simp only [hf] at ha
                    rw [hget] at ha
                    exact ih (action_onRow (fun p pl => action_specialise hlet p) hrl)
                      (onNonExhaustive_eq_ok ha)
              · exact hwilds rfl ha
          · obtain ⟨base, _, bl, _, ha⟩ := bind₂_eq_ok.mp ha
            obtain rfl := Except.ok.inj ha
            exact hcase t bl

end Action

theorem isExhaustive_right (hI : I.Sound) (hfree : I.Free S)
    (hclosed : ∀ ts, K ts → ∀ cs ∈ S.constrs ts, ∀ ty ∈ cs.lsArgs, ∀ ts' ∈ ty.syms, K ts')
    (h : Matrix S K (scrutinees n tl ppl) tyl (ppl.map fun pl => (pl, ()))) :
    ∃ b, isExhaustive n tl ppl = .ok b ∧
      (b = false ↔ ∃ ds, Instances I τ (scrutinees n tl ppl) ds ∧ Unmatched I τ ppl ds) := by
  cases ppl with
  | nil =>
    obtain ⟨ds, hds⟩ := exists_instances (I := I) (τ := τ) hI h.terms
    exact ⟨false, rfl, by simpa [Unmatched] using ⟨ds, hds⟩⟩
  | cons pl ppl =>
    have hrows : Matrix S K (checkTerms n tl pl) tyl ((pl :: ppl).map fun pl => (pl, true)) := by
      refine ⟨h.terms, h.types, ?_⟩
      intro row hrow
      obtain ⟨pl', hpl', rfl⟩ := mem_map.mp hrow
      have hrow' := h.rows _ (mem_map_of_mem hpl')
      exact ⟨hrow'.types, hrow'.typed, hrow'.nodup⟩
    have hget : Answers S K fun _ => .ok none := ⟨fun _ _ => .inr rfl, hclosed⟩
    have hverdict := compile_verdict (I := I) (τ := τ) (K := K) hI hfree hget (fun _ _ => true)
      (fun _ _ _ => true) (n + pl.length) hrows
    have hcovers := covers_map_iff (I := I) (τ := τ) true (pl :: ppl)
    simp only [isExhaustive]
    generalize hr : compile ⟨fun _ => .ok none, fun _ _ => true, fun _ _ _ => true⟩
      (n + pl.length) (checkTerms n tl pl) ((pl :: ppl).map fun pl => (pl, true)) = r
      at hverdict ⊢
    cases hverdict with
    | covered b hcov =>
      have hb : b = true := by
        refine compileFuel_action (P := fun b => b = true) (fun _ _ _ _ => rfl)
          (fun _ _ => rfl) _ ?_ hr
        intro row hrow
        obtain ⟨pl', _, rfl⟩ := mem_map.mp hrow
        rfl
      refine ⟨b, rfl, ?_⟩
      rw [hb]
      constructor
      · intro hfalse
        cases hfalse
      · rintro ⟨ds, hds, hno⟩
        exact absurd hno ((hcovers ds).mp (hcov ds trivial hds))
    | @missing pl' ds hds hno _ _ =>
      rw [hcovers, not_not] at hno
      exact ⟨false, rfl, by simpa using ⟨ds, hds, hno⟩⟩

end Pattern

/-! ## The matches of a term -/

mutual

def caseStmts : Term → List (Term × List (Pattern × Term))
  | .tvar _ _ | .tbnd _ _ _ | .tconst _ _ _ | .ttrue _ | .tfalse _ => []
  | .tapp _ _ tl _ => caseStmtsList tl
  | .tif _ f t e => caseStmts f ++ (caseStmts t ++ caseStmts e)
  | .tlet _ t _ e => caseStmts t ++ caseStmts e
  | .tcase _ t bl => (t, bl) :: (caseStmts t ++ caseStmtsBranches bl)
  | .teps _ _ f => caseStmts f
  | .tquant _ _ _ trl f => caseStmts f ++ caseStmtsTriggers trl
  | .tbinop _ _ f g => caseStmts f ++ caseStmts g
  | .tnot _ f => caseStmts f

def caseStmtsList : List Term → List (Term × List (Pattern × Term))
  | [] => []
  | t :: tl => caseStmts t ++ caseStmtsList tl

def caseStmtsBranches : List (Pattern × Term) → List (Term × List (Pattern × Term))
  | [] => []
  | (_, t) :: bl => caseStmts t ++ caseStmtsBranches bl

def caseStmtsTriggers : List (List Term) → List (Term × List (Pattern × Term))
  | [] => []
  | tl :: trl => caseStmtsList tl ++ caseStmtsTriggers trl

end

section CaseStmts

open List

variable (kn : KnownMap)

def checkStmt (s : Term × List (Pattern × Term)) : Except Exn Unit :=
  Pattern.checkCompile (getConstructors kn) 0 [s.1] (s.2.map fun b => [b.1])

mutual

theorem checkMatchTerm_eq : ∀ t : Term, checkMatchTerm kn t = (caseStmts t).forM (checkStmt kn)
  | .tvar _ _ | .tbnd _ _ _ | .tconst _ _ _ | .ttrue _ | .tfalse _ => rfl
  | .tapp _ _ tl _ => checkMatchList_eq tl
  | .tif _ f t e => by
    rw [checkMatchTerm, caseStmts, forM_append_eq, forM_append_eq, checkMatchTerm_eq f,
      checkMatchTerm_eq t, checkMatchTerm_eq e]
  | .tlet _ t _ e => by
    rw [checkMatchTerm, caseStmts, forM_append_eq, checkMatchTerm_eq t, checkMatchTerm_eq e]
  | .tcase _ t bl => by
    rw [checkMatchTerm, caseStmts, forM_cons_eq, forM_append_eq, checkMatchTerm_eq t,
      checkMatchBranches_eq bl]
    rfl
  | .teps _ _ f | .tnot _ f => checkMatchTerm_eq f
  | .tquant _ _ _ trl f => by
    rw [checkMatchTerm, caseStmts, forM_append_eq, checkMatchTerm_eq f, checkMatchTriggers_eq trl]
  | .tbinop _ _ f g => by
    rw [checkMatchTerm, caseStmts, forM_append_eq, checkMatchTerm_eq f, checkMatchTerm_eq g]

theorem checkMatchList_eq : ∀ tl : List Term,
    checkMatchList kn tl = (caseStmtsList tl).forM (checkStmt kn)
  | [] => rfl
  | t :: tl => by
    rw [checkMatchList, caseStmtsList, forM_append_eq, checkMatchTerm_eq t, checkMatchList_eq tl]

theorem checkMatchBranches_eq : ∀ bl : List (Pattern × Term),
    checkMatchBranches kn bl = (caseStmtsBranches bl).forM (checkStmt kn)
  | [] => rfl
  | (p, t) :: bl => by
    rw [checkMatchBranches, caseStmtsBranches, forM_append_eq, checkMatchTerm_eq t,
      checkMatchBranches_eq bl]

theorem checkMatchTriggers_eq : ∀ trl : List (List Term),
    checkMatchTriggers kn trl = (caseStmtsTriggers trl).forM (checkStmt kn)
  | [] => rfl
  | tl :: trl => by
    rw [checkMatchTriggers, caseStmtsTriggers, forM_append_eq, checkMatchList_eq tl,
      checkMatchTriggers_eq trl]

end

end CaseStmts

/-! ## Typing of the case statements -/

variable {S : DataSig}

def CaseTyped (S : DataSig) (s : Term × List (Pattern × Term)) : Prop :=
  ∃ Γ ty, WellTyped S Γ s.1 (some ty) ∧ ty.saturated = true ∧ s.2 ≠ [] ∧
    ∀ b ∈ s.2, PatTyped S b.1 ∧ b.1.patTy = ty

theorem mem_caseStmtsList : s ∈ caseStmtsList tl ↔ ∃ t ∈ tl, s ∈ caseStmts t := by
  induction tl with
  | nil => simp [caseStmtsList]
  | cons t tl ih => simp [caseStmtsList, ih]

theorem mem_caseStmtsBranches {bl : List (Pattern × Term)} :
    s ∈ caseStmtsBranches bl ↔ ∃ b ∈ bl, s ∈ caseStmts b.2 := by
  induction bl with
  | nil => simp [caseStmtsBranches]
  | cons b bl ih => simp [caseStmtsBranches, ih]

theorem mem_caseStmtsTriggers {trl : List (List Term)} :
    s ∈ caseStmtsTriggers trl ↔ ∃ tl ∈ trl, ∃ t ∈ tl, s ∈ caseStmts t := by
  induction trl with
  | nil => simp [caseStmtsTriggers]
  | cons tl trl ih => simp [caseStmtsTriggers, mem_caseStmtsList, ih]

theorem WellTyped.caseStmts_typed {Γ : List Ty} {t : Term} {o : Option Ty}
    (h : WellTyped S Γ t o) : ∀ s ∈ caseStmts t, CaseTyped S s := by
  induction h with
  | tvar | tbnd | tconst | ttrue | tfalse => simp [caseStmts]
  | @tapp Γ a ls tl o σ _ _ hlen _ ih =>
    intro s hs
    obtain ⟨t, ht, hs⟩ := mem_caseStmtsList.mp hs
    obtain ⟨i, hi⟩ := mem_iff_getElem?.mp ht
    have hlt : i < ls.lsArgs.length := hlen ▸ (List.getElem?_eq_some_iff.mp hi).1
    exact ih i t _ hi (getElem?_eq_getElem hlt) s hs
  | tif a _ _ _ ihf iht ihe =>
    simp only [caseStmts, forall_mem_append]
    exact ⟨ihf, iht, ihe⟩
  | tlet a _ _ iht ihe =>
    simp only [caseStmts, forall_mem_append]
    exact ⟨iht, ihe⟩
  | @tcase Γ a t ty bl o ht hsat hne hp _ iht ihbl =>
    simp only [caseStmts, forall_mem_cons, forall_mem_append]
    refine ⟨⟨Γ, ty, ht, hsat, hne, hp⟩, iht, ?_⟩
    intro s hs
    obtain ⟨b, hb, hs⟩ := mem_caseStmtsBranches.mp hs
    exact ihbl b hb s hs
  | teps a _ ih => exact ih
  | tquant a q _ _ ihtr ihf =>
    simp only [caseStmts, forall_mem_append]
    refine ⟨ihf, ?_⟩
    intro s hs
    obtain ⟨tl, htl, t, ht, hs⟩ := mem_caseStmtsTriggers.mp hs
    exact ihtr tl htl t ht s hs
  | tbinop a op _ _ ihf ihg =>
    simp only [caseStmts, forall_mem_append]
    exact ⟨ihf, ihg⟩
  | tnot a _ ih => exact ih

theorem symsTy_patTy (p : Pattern) : ∀ y ∈ symsTy p.patTy, y ∈ symsPattern p := by
  intro y hy
  cases p with
  | pwild ty => exact hy
  | pvar v => exact hy
  | papp fs pl ty | pas p v => exact mem_append_left _ hy
  | por p q => exact mem_append_left _ (mem_append_left _ hy)

/-- The symbols of the case statements are among those of the term. -/
theorem caseStmts_syms (t : Term) : ∀ u bl, (u, bl) ∈ caseStmts t →
    (∀ y ∈ symsTerm u, y ∈ symsTerm t) ∧ ∀ y ∈ symsTermBranches bl, y ∈ symsTerm t := by
  induction t using Term.inductionOn with
  | _ =>
    simp only [caseStmts, symsTerm, mem_caseStmtsList, mem_caseStmtsBranches,
      mem_caseStmtsTriggers, Term.mem_symsTermList, Term.mem_symsTermTriggers, mem_append,
      mem_cons, Prod.exists]
    grind [Term.mem_symsTermBranches]

end Why3
