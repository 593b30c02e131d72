import Why3.Pattern.CheckMatch

/-!
# The matches of a declaration

A declaration that is added to a known map is checked case statement by case
statement. Its terms mention known types only, so that each check is right.
-/

namespace Why3

open Lib Interp Pattern List

variable {d : Decl} {syms : List Sym}

def declTerms : Decl → List Term
  | .dlogic ldl => ldl.filterMap fun ld => (lsDefnBody ld.2).toOption
  | .dind _ idl => idl.flatMap fun id => id.2.map fun a => a.2
  | .dprop _ _ f => [f]
  | _ => []

def declStmts (d : Decl) : List (Term × List (Pattern × Term)) := (declTerms d).flatMap caseStmts

def DeclTyped (S : DataSig) (d : Decl) : Prop := ∀ t ∈ declTerms d, ∃ Γ o, WellTyped S Γ t o

/-! ## Symbols -/

/-- If the symbols of a declaration can be collected then its definitions have
bodies, the symbols of which are collected. -/
theorem foldlM_syms {ldl : List LogicDecl} {syms' : List Sym}
    (h : ldl.foldlM (fun syms (ls, ld) => do
      let e ← lsDefnBody ld
      .ok (syms ++ ls.lsArgs.flatMap symsTy ++ symsTerm e)) syms = .ok syms') :
    (∀ y ∈ syms, y ∈ syms') ∧
      ∀ ld ∈ ldl, ∃ e, lsDefnBody ld.2 = .ok e ∧ ∀ y ∈ symsTerm e, y ∈ syms' := by
  induction ldl generalizing syms with
  | nil =>
    rw [foldlM_nil_eq_ok] at h
    subst h
    exact ⟨fun _ hy => hy, by simp⟩
  | cons ld ldl ih =>
    obtain ⟨syms₁, h₁, h₂⟩ := foldlM_cons_eq_ok.mp h
    obtain ⟨e, he, h₁⟩ := bind_eq_ok.mp h₁
    obtain rfl := Except.ok.inj h₁
    obtain ⟨hkeep, hall⟩ := ih h₂
    refine ⟨fun y hy => hkeep y (by simp [hy]), forall_mem_cons.mpr ⟨⟨e, he, ?_⟩, hall⟩⟩
    exact fun y hy => hkeep y (by simp [hy])

theorem declTerms_syms (h : getDeclSyms d = .ok syms) :
    ∀ t ∈ declTerms d, ∀ y ∈ symsTerm t, y ∈ syms := by
  intro t ht y hy
  cases d with
  | dlogic ldl =>
    obtain ⟨ld, hld, hbody⟩ := mem_filterMap.mp ht
    obtain ⟨e, he, hall⟩ := (foldlM_syms h).2 ld hld
    rw [he] at hbody
    cases hbody
    exact hall y hy
  | dind s idl =>
    obtain rfl := Except.ok.inj h
    obtain ⟨id, hid, hmem⟩ := mem_flatMap.mp ht
    obtain ⟨a, ha, rfl⟩ := mem_map.mp hmem
    exact mem_flatMap.mpr ⟨id, hid, mem_flatMap.mpr ⟨a, ha, hy⟩⟩
  | dprop k pr f =>
    obtain rfl := Except.ok.inj h
    rw [declTerms, mem_singleton] at ht
    exact ht ▸ hy
  | _ => simp [declTerms] at ht

/-! ## The check, statement by statement -/

theorem checkMatch_eq (kn : KnownMap) (h : getDeclSyms d = .ok syms) :
    checkMatch kn d = (declStmts d).forM (checkStmt kn) := by
  unfold declStmts
  rw [forM_flatMap]
  cases d with
  | dlogic ldl =>
    have hbody := (foldlM_syms h).2
    clear h
    simp only [checkMatch, declTerms]
    induction ldl with
    | nil => rfl
    | cons ld ldl ih =>
      rw [forall_mem_cons] at hbody
      obtain ⟨e, he, _⟩ := hbody.1
      have hcons : ((ld :: ldl).filterMap fun ld => (lsDefnBody ld.2).toOption) =
          e :: ldl.filterMap fun ld => (lsDefnBody ld.2).toOption := by
        rw [filterMap_cons, he]
        rfl
      rw [hcons, forM_cons_eq, forM_cons_eq, he, ih hbody.2, ← checkMatchTerm_eq]
      rfl
  | dind s idl =>
    simp only [checkMatch, declTerms]
    rw [forM_flatMap]
    apply forM_congr
    intro id _
    rw [forM_eq_forM, forM_eq_forM, forM_map]
    exact forM_congr fun a _ => checkMatchTerm_eq kn a.2
  | dprop k pr f =>
    simp only [checkMatch, declTerms]
    rw [checkMatchTerm_eq, forM_cons_eq]
    exact (bind_pure _).symm
  | _ => rfl

/-! ## Known types -/

variable {D : Type} {I : Interp D} {τ : TyVal} {kn kn' : KnownMap} {d : Decl}

theorem answers_known (hkn : Known kn) :
    Answers (knownSig hkn) (TypeKnown kn) (getConstructors kn) where
  gets _ hts := .inl (getConstructors_eq hts)
  closed _ _ := constrsOf_closed hkn

theorem checkStmt_right (hkn : Known kn) (hI : I.Sound) (hfree : I.Free (knownSig hkn))
    {s : Term × List (Pattern × Term)} (hs : CaseTyped (knownSig hkn) s)
    (htypes : ∀ b ∈ s.2, ∀ ts ∈ b.1.patTy.syms, TypeKnown kn ts) :
    ∃ ty, s.1.tTy = some ty ∧
      Right (knownSig hkn) I τ [s.1] [ty] (s.2.map fun b => [b.1]) (checkStmt kn s) := by
  obtain ⟨Γ, ty, ht, hsat, hne, hbl⟩ := hs
  refine ⟨ty, ht.tTy_eq, ?_⟩
  have hknown : ∀ ts ∈ ty.syms, TypeKnown kn ts := by
    obtain ⟨b, hb⟩ := exists_mem_of_ne_nil _ hne
    rw [← (hbl b hb).2]
    exact htypes b hb
  have hscrut : scrutinees 0 [s.1] (s.2.map fun b => [b.1]) = [s.1] := by
    cases s.2.map fun b => [b.1] <;> rfl
  have hmatrix : Matrix (knownSig hkn) (TypeKnown kn) [s.1] [ty]
      ((s.2.map fun b => [b.1]).map fun pl => (pl, ())) := by
    refine ⟨.cons ⟨Γ, ht⟩ .nil, by simpa using ⟨hsat, hknown⟩, ?_⟩
    intro row hrow
    simp only [map_map, mem_map, Function.comp_apply] at hrow
    obtain ⟨b, hb, rfl⟩ := hrow
    obtain ⟨htyped, hty⟩ := hbl b hb
    refine ⟨by simp [hty], by simpa using htyped, ?_⟩
    simpa [varsList] using htyped.nodup
  have hright := checkCompile_right (I := I) (τ := τ) hI hfree (answers_known hkn)
    (fun ts => getConstructors_eq) (n := 0) (hscrut ▸ hmatrix)
  rwa [hscrut] at hright

theorem ts_not_mem_declNews {t : Term} (h : t ∈ declTerms d) (ts : TySym Ty) :
    Sym.ts ts ∉ declNews d := by
  cases d <;> simp_all [declTerms, declNews]

structure RightDecl (S : DataSig) (I : Interp D) (τ : TyVal) (d : Decl) (r : Except Exn Unit) :
    Prop where
  total : r = .ok () ∨ ∃ pl, r = .error (.nonExhaustive pl)
  raised_iff : (∃ pl, r = .error (.nonExhaustive pl)) ↔
    ∃ s ∈ declStmts d, ∃ v, Instance I τ s.1 v ∧ ∀ b ∈ s.2, I.matchPat τ b.1 v = none
  missing : ∀ pl, r = .error (.nonExhaustive pl) → ∃ s ∈ declStmts d, ∃ p, pl = [p] ∧
    s.1.tTy = some p.patTy ∧ PatTyped S p ∧ ∀ v, Instance I τ s.1 v → I.matchPat τ p v ≠ none →
      ∀ b ∈ s.2, I.matchPat τ b.1 v = none

theorem matchPatList_singleton {p : Pattern} {v : D} :
    I.matchPatList τ [p] [v] = none ↔ I.matchPat τ p v = none := by
  rw [matchPatList_cons]
  cases I.matchPat τ p v <;> simp [matchPatList]

theorem unmatched_singleton {bl : List (Pattern × Term)} {v : D} :
    Unmatched I τ (bl.map fun b => [b.1]) [v] ↔ ∀ b ∈ bl, I.matchPat τ b.1 v = none := by
  rw [Unmatched, forall_mem_map]
  simp only [matchPatList_singleton]

theorem checkMatch_right (hkn : Known kn) (hI : I.Sound) (hfree : I.Free (knownSig hkn))
    (hbase : knownAddDeclBase kn d = .ok kn') (hd : DeclTyped (knownSig hkn) d) :
    RightDecl (knownSig hkn) I τ d (checkMatch kn' d) := by
  have hadd := knownAddDeclBase_added hbase
  obtain ⟨syms, hsyms, hknown⟩ := hadd.uses
  -- each statement is checked with the constructors of `kn`
  have hright : ∀ s ∈ declStmts d, ∃ ty, s.1.tTy = some ty ∧
      Right (knownSig hkn) I τ [s.1] [ty] (s.2.map fun b => [b.1]) (checkStmt kn' s) := by
    intro s hs
    obtain ⟨t, ht, hst⟩ := mem_flatMap.mp hs
    have hts := ts_not_mem_declNews ht
    have hget : getConstructors kn' = getConstructors kn := by
      funext ts
      simp [getConstructors, findConstructors, hadd.find, hts]
    obtain ⟨Γ, o, htyped⟩ := hd t ht
    have hstmt : checkStmt kn' s = checkStmt kn s := by
      unfold checkStmt
      rw [hget]
    rw [hstmt]
    refine checkStmt_right hkn hI hfree (htyped.caseStmts_typed s hst) ?_
    intro b hb ts hts'
    have hsym : Sym.ts ts.embed ∈ symsPattern b.1 :=
      symsTy_patTy b.1 _ (mem_map_of_mem hts')
    have hmem := hknown _ (declTerms_syms hsyms t ht _ ((caseStmts_syms t _ _ hst).2 _
      (Term.mem_symsTermBranches.mpr ⟨b, hb, .inl hsym⟩)))
    rw [TagMap.mem, hadd.find, if_neg (hts _)] at hmem
    exact (hkn.typeKnown_iff ts).mpr hmem
  have hraised : ∀ {s : Term × List (Pattern × Term)} {ty : Ty},
      Right (knownSig hkn) I τ [s.1] [ty] (s.2.map fun b => [b.1]) (checkStmt kn' s) →
      ((∃ pl, checkStmt kn' s = .error (.nonExhaustive pl)) ↔
        ∃ v, Instance I τ s.1 v ∧ ∀ b ∈ s.2, I.matchPat τ b.1 v = none) := by
    intro s ty h
    rw [h.raised_iff]
    constructor
    · rintro ⟨ds, hds, hno⟩
      cases hds with
      | @cons _ v _ _ hv hnil =>
        cases hnil
        exact ⟨v, hv, unmatched_singleton.mp hno⟩
    · rintro ⟨v, hv, hno⟩
      exact ⟨[v], .cons hv .nil, unmatched_singleton.mpr hno⟩
  rw [checkMatch_eq kn' hsyms]
  rcases forM_cases (checkStmt kn') (declStmts d) with ⟨hok, hall⟩ | ⟨s, hs, e, he, herr⟩
  · rw [hok]
    refine ⟨.inl rfl, ⟨?_, ?_⟩, ?_⟩
    · rintro ⟨pl, h⟩
      cases h
    · rintro ⟨s, hs, hv⟩
      obtain ⟨ty, _, h⟩ := hright s hs
      obtain ⟨pl, hpl⟩ := (hraised h).mpr hv
      rw [hall s hs] at hpl
      cases hpl
    · intro pl h
      cases h
  · obtain ⟨ty, hty, h⟩ := hright s hs
    obtain ⟨pl, rfl⟩ : ∃ pl, e = .nonExhaustive pl := by
      rcases h.total with h | ⟨pl, h⟩
      · rw [he] at h
        cases h
      · rw [he] at h
        exact ⟨pl, Except.error.inj h⟩
    rw [herr]
    refine ⟨.inr ⟨pl, rfl⟩, ⟨fun _ => ⟨s, hs, (hraised h).mp ⟨pl, he⟩⟩, fun _ => ⟨pl, rfl⟩⟩, ?_⟩
    rintro _ ⟨⟩
    obtain ⟨htypes, htyped⟩ := h.types pl he
    obtain ⟨p, rfl⟩ := length_eq_one_iff.mp (by simpa using congrArg List.length htypes)
    simp only [map_cons, map_nil, cons.injEq, and_true] at htypes
    refine ⟨s, hs, p, rfl, by rw [hty, htypes], htyped p mem_cons_self, ?_⟩
    intro v hv hmatch
    refine unmatched_singleton.mp (h.missing [p] he [v] (.cons hv .nil) ?_)
    rwa [ne_eq, matchPatList_singleton]

/-- The verdicts on exhaustiveness are right. The check of a matrix fails with missing
patterns if and only if some values are matched by no row, where the values are
instances of the scrutinees in which every part that no constructor builds has an
arbitrary value of its type; the missing patterns have the types of the scrutinees,
and an instance that they match is matched by no row. The check without known
constructors has the same verdict, and so has that of the case statements of a
declaration. -/
theorem exhaustiveness_verdict (hkn : Known kn) (hI : I.Sound) (hfree : I.Free (knownSig hkn))
    (τ : TyVal) :
    (∀ n tl tyl ppl, Matrix (knownSig hkn) (TypeKnown kn) (scrutinees n tl ppl) tyl
        (ppl.map fun pl => (pl, ())) →
      Right (knownSig hkn) I τ (scrutinees n tl ppl) tyl ppl
          (checkCompile (getConstructors kn) n tl ppl) ∧
        ∃ b, isExhaustive n tl ppl = .ok b ∧
          (b = false ↔ ∃ ds, Instances I τ (scrutinees n tl ppl) ds ∧ Unmatched I τ ppl ds)) ∧
      ∀ d kn', knownAddDeclBase kn d = .ok kn' → DeclTyped (knownSig hkn) d →
        RightDecl (knownSig hkn) I τ d (checkMatch kn' d) := by
  refine ⟨?_, fun d kn' => checkMatch_right hkn hI hfree⟩
  intro n tl tyl ppl h
  exact ⟨checkCompile_right hI hfree (answers_known hkn) (fun ts => getConstructors_eq) h,
    isExhaustive_right hI hfree (fun ts _ => constrsOf_closed hkn) h⟩

/-! ## Booleans -/

def boolDecl : Decl := .ddata [(tsBool, [(fsBoolTrue, []), (fsBoolFalse, [])])]

def boolKn : KnownMap :=
  match knownAddDecl .empty boolDecl with
  | .ok kn => kn
  | .error _ => .empty

theorem boolKn_eq : knownAddDecl .empty boolDecl = .ok boolKn := rfl

theorem boolDecl_wellFormed : boolDecl.WellFormed := ⟨rfl, by decide⟩

theorem known_boolKn : Known boolKn := .add .empty boolDecl_wellFormed boolKn_eq

theorem constrsOf_boolKn (ts : TySymbol) : constrsOf boolKn ts = boolSig.constrs ts := by
  by_cases hts : ts = tsBool
  · subst hts
    rfl
  · have hnot : Sym.ts ts.embed ∉ declNews boolDecl := by
      rw [boolDecl, ts_mem_declNews_ddata]
      simpa using hts
    have hfind := (knownAddDecl_added boolKn_eq).find (.ts ts.embed)
    rw [if_neg hnot, TagMap.find?_empty] at hfind
    simp [constrsOf, findConstructors, hfind, boolSig, hts]

theorem twoValued_free_boolKn : twoValued.Free (knownSig known_boolKn) :=
  twoValued_free.congr constrsOf_boolKn

def patTrue : Pattern := .papp fsBoolTrue [] tyBool

def patFalse : Pattern := .papp fsBoolFalse [] tyBool

theorem patTyped_bool (hkn : Known boolKn) :
    PatTyped (knownSig hkn) patTrue ∧ PatTyped (knownSig hkn) patFalse := by
  have hmem : ∀ cs ∈ boolSig.constrs tsBool, cs ∈ (knownSig hkn).constrs tsBool := by
    intro cs hcs
    rw [← constrsOf_boolKn] at hcs
    exact hcs
  exact ⟨.papp rfl (hmem _ (by simp [boolSig])) rfl (by decide) (by simp),
    .papp rfl (hmem _ (by simp [boolSig])) rfl (by decide) (by simp)⟩

def equalRows : List (List Pattern) := [[patTrue, patTrue], [patFalse, patFalse]]

theorem equalRows_matrix :
    Matrix (knownSig known_boolKn) (TypeKnown boolKn) [.tvar [] vsB, .tvar [] vsB]
      [tyBool, tyBool] (equalRows.map fun pl => (pl, ())) where
  terms := .cons ⟨[], .tvar [] vsB⟩ (.cons ⟨[], .tvar [] vsB⟩ .nil)
  types := by
    have hok : TyOk (TypeKnown boolKn) tyBool := ⟨rfl, by simpa [tyBool] using ⟨_, rfl⟩⟩
    simpa using hok
  rows := by
    obtain ⟨htrue, hfalse⟩ := patTyped_bool known_boolKn
    rw [equalRows, map_cons, map_singleton, forall_mem_cons, forall_mem_singleton]
    exact ⟨⟨rfl, by simpa using htrue, by decide⟩, rfl, by simpa using hfalse, by decide⟩

/-- `exhaustiveness_verdict` for a matrix on two booleans. -/
theorem exhaustiveness_verdict_bool :
    Right (knownSig known_boolKn) twoValued .tyvar [.tvar [] vsB, .tvar [] vsB] [tyBool, tyBool]
      equalRows (checkCompile (getConstructors boolKn) 22 [.tvar [] vsB, .tvar [] vsB] equalRows) :=
  ((exhaustiveness_verdict known_boolKn twoValued_sound twoValued_free_boolKn .tyvar).1 22
    [.tvar [] vsB, .tvar [] vsB] [tyBool, tyBool] equalRows equalRows_matrix).1

/-- A match on `(b, b)` with the rows `(True, True)` and `(False, False)` is refused,
although each value of `b` is matched by a row. -/
theorem checkCompile_repeated_variable :
    Matrix (knownSig known_boolKn) (TypeKnown boolKn) [.tvar [] vsB, .tvar [] vsB]
        [tyBool, tyBool] (equalRows.map fun pl => (pl, ())) ∧
      checkCompile (getConstructors boolKn) 22 [.tvar [] vsB, .tvar [] vsB] equalRows =
        .error (.nonExhaustive [patFalse, patTrue]) ∧
      ∀ (D : Type) (I : Interp D), I.Sound → I.Free (knownSig known_boolKn) →
        ∀ (τ : TyVal) (ρ : VSymbol → D), I.TypedVal τ ρ →
          ¬ Unmatched I τ equalRows ([Term.tvar [] vsB, .tvar [] vsB].map (I.val τ ρ)) := by
  refine ⟨equalRows_matrix, rfl, ?_⟩
  intro D I hI hfree τ ρ hρ hun
  obtain ⟨htrue, hfalse⟩ := patTyped_bool known_boolKn
  have hmatch : ∀ cs ∈ (knownSig known_boolKn).constrs tsBool, ∀ ds,
      I.Typed (paramMap tsBool []) cs.lsArgs ds → I.fn cs tyBool ds = ρ vsB →
      cs.lsArgs = [] → I.matchPat τ (.papp cs [] tyBool) (ρ vsB) = some [] := by
    intro cs hcs ds hds heq hargs
    have hnil : ds = [] := by
      rw [hargs] at hds
      cases hds
      rfl
    subst hnil
    rw [← heq]
    exact matchPat_papp rfl hfree hcs (by rw [hargs]; rfl) hds
  obtain ⟨cs, hcs, ds, hds, heq⟩ := @hfree.cover tsBool [] _ rfl
    (by change constrsOf boolKn tsBool ≠ []; decide) (hρ vsB)
  have hcs' : cs = fsBoolTrue ∨ cs = fsBoolFalse := by
    have hcs₁ : cs ∈ constrsOf boolKn tsBool := hcs
    rw [constrsOf_boolKn] at hcs₁
    exact (mem_constrs_boolSig hcs₁).2
  rcases hcs' with rfl | rfl
  · have hrow := hun _ mem_cons_self
    simp only [map_cons, map_nil, val, eval_tvar, matchPatList_cons, patTrue,
      hmatch _ hcs ds hds heq rfl] at hrow
    cases hrow
  · have hrow := hun _ (mem_cons_of_mem _ mem_cons_self)
    simp only [map_cons, map_nil, val, eval_tvar, matchPatList_cons, patFalse,
      hmatch _ hcs ds hds heq rfl] at hrow
    cases hrow

end Why3
