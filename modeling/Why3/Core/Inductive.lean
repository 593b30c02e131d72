import Why3.Core.Termination

/-!
# Declarations of inductive predicates

The checks on the clauses of inductive predicates, after `src/core/decl.ml`. A clause is
a chain of quantifiers, premises and local definitions that ends in an application of
its predicate, and the predicates of the declaration only have positive occurrences in
the premises. The exception `Found` of the source is the symbol that it carries.
-/

namespace Why3

open Lib Term List

variable {d : Decl} {s : IndSign} {ps : LSymbol} {idl : List IndDecl} {sps : List LSymbol}
variable {news news' : List Sym} {ax : PrSymbol × Term}

/-! ## Positive occurrences -/

def tPosPs (sps : List LSymbol) (t : Term) : Except LSymbol Unit :=
  (symsTerm t).forM fun s =>
    match s with
    | .ls ls => if ls ∈ sps then .error ls else .ok ()
    | _ => .ok ()

mutual

/-- All occurrences of the symbols in a formula of the polarity `pol` are positive. -/
def fPosPs (sps : List LSymbol) : Option Bool → Term → Except LSymbol Unit
  | pol, tapp _ s tl _ =>
    if pol ≠ some true ∧ s ∈ sps then .error s else tl.forM (tPosPs sps)
  | _, tbinop _ .tiff f g => do
    fPosPs sps none f
    fPosPs sps none g
  | pol, tbinop _ .timplies f g => do
    fPosPs sps (pol.map not) f
    fPosPs sps pol g
  | pol, tnot _ f => fPosPs sps (pol.map not) f
  | pol, tif _ f g h => do
    fPosPs sps none f
    fPosPs sps pol g
    fPosPs sps pol h
  | pol, tbinop _ .tand f g => do
    fPosPs sps pol f
    fPosPs sps pol g
  | pol, tbinop _ .tor f g => do
    fPosPs sps pol f
    fPosPs sps pol g
  | pol, tlet _ t _ f => do
    tPosPs sps t
    fPosPs sps pol f
  | pol, tcase _ t bl => do
    tPosPs sps t
    fPosPsBranches sps pol bl
  | pol, teps _ _ f => fPosPs sps pol f
  | pol, tquant _ _ _ trl f => do
    fPosPs sps pol f
    fPosPsTriggers sps pol trl
  | _, tvar _ _ => .ok ()
  | _, tbnd _ _ _ => .ok ()
  | _, tconst _ _ _ => .ok ()
  | _, ttrue _ => .ok ()
  | _, tfalse _ => .ok ()

def fPosPsBranches (sps : List LSymbol) : Option Bool → List (Pattern × Term) →
    Except LSymbol Unit
  | _, [] => .ok ()
  | pol, (_, f) :: bl => do
    fPosPs sps pol f
    fPosPsBranches sps pol bl

def fPosPsList (sps : List LSymbol) : Option Bool → List Term → Except LSymbol Unit
  | _, [] => .ok ()
  | pol, t :: tl => do
    if t.tTy = none then fPosPs sps pol t else tPosPs sps t
    fPosPsList sps pol tl

def fPosPsTriggers (sps : List LSymbol) : Option Bool → List (List Term) → Except LSymbol Unit
  | _, [] => .ok ()
  | pol, tl :: trl => do
    fPosPsList sps pol tl
    fPosPsTriggers sps pol trl

end

/-! ## Clauses -/

/-- The premises and the conclusion of a clause. A local definition counts as an
equation. -/
def indClause (acc : List Term) : Term → List Term × Term
  | tquant _ .tforall _ _ f => indClause acc f
  | tbinop _ .timplies g f => indClause (g :: acc) f
  | tlet _ t v f => indClause (tapp [] psEqu [tvar [] v, t] none :: acc) f
  | f => (acc, f)

def checkTl : List Ty → List Term → Except Exn Unit
  | [], [] => .ok ()
  | ty :: tyl, t :: tl => do
    tyEqualCheck ty (← t.tType)
    checkTl tyl tl
  | _, _ => .error .assertFailure

def checkAx (sps : List LSymbol) (ps : LSymbol) (news : List Sym) (ax : PrSymbol × Term) :
    Except Exn (List Sym) := do
  let f ← checkFvs ax.2
  let (cls, g) := indClause [] f
  match g with
  | tapp _ s tl _ =>
    if s = ps then do
      checkTl ps.lsArgs tl
      match (g :: cls).forM (fPosPs sps (some true)) with
      | .error ls => .error (.nonPositiveIndDecl ps ax.1.prName ls)
      | .ok () => do
        (f.tyFreevars.filter fun tv => decide (tv ∉ g.tyFreevars)).forM fun tv =>
          .error (.unboundTypeVar tv)
        newsId news (.pr ax.1)
    else .error (.invalidIndDecl ps ax.1.prName)
  | _ => .error (.invalidIndDecl ps ax.1.prName)

def checkIndDecl (sps : List LSymbol) (news : List Sym) (id : IndDecl) :
    Except Exn (List Sym) := do
  if id.2.isEmpty then .error (.emptyIndDecl id.1)
  else do
    let news ← newsId news (.ls id.1)
    id.2.foldlM (checkAx sps id.1) news

def createIndDecl (s : IndSign) (idl : List IndDecl) : Except Exn Decl :=
  if idl.isEmpty then .error .emptyDecl
  else do
    let _ ← idl.foldlM (checkIndDecl (idl.map Prod.fst)) []
    .ok (.dind s idl)

/-! ## What the checks ensure -/

/-- A clause for the predicate `ps` with positive occurrences of `sps` only. -/
inductive IndClause (sps : List LSymbol) (ps : LSymbol) : Term → Prop where
  | tforall {a : List Attr} {vl : List VSymbol} {trl : List (List Term)} {f : Term}
      (hf : IndClause sps ps f) : IndClause sps ps (tquant a .tforall vl trl f)
  | timplies {a : List Attr} {g f : Term} (hg : fPosPs sps (some true) g = .ok ())
      (hf : IndClause sps ps f) : IndClause sps ps (tbinop a .timplies g f)
  | tlet {a : List Attr} {t : Term} {v : VSymbol} {f : Term} (ht : tPosPs sps t = .ok ())
      (hf : IndClause sps ps f) : IndClause sps ps (tlet a t v f)
  | tapp {a : List Attr} {tl : List Term} {ty : Option Ty} (hpos : ∀ t ∈ tl, tPosPs sps t = .ok ())
      (htys : tl.map tTy = ps.lsArgs.map some) : IndClause sps ps (tapp a ps tl ty)

theorem checkTl_eq_ok : ∀ {tyl : List Ty} {tl : List Term}, checkTl tyl tl = .ok () →
    tl.map tTy = tyl.map some
  | [], [], _ => rfl
  | ty :: tyl, t :: tl, h => by
    obtain ⟨ty', hty', _, heq, h⟩ := bind₂_eq_ok.mp h
    have hty : t.tTy = some ty' := by
      unfold tType at hty'
      split at hty'
      · next hsome =>
          cases hty'
          exact hsome
      · cases hty'
    rw [map_cons, map_cons, checkTl_eq_ok h, hty]
    unfold tyEqualCheck at heq
    split at heq
    · next hsame => rw [hsame]
    · cases heq
  | [], _ :: _, h => by cases h
  | _ :: _, [], h => by cases h

theorem indClause_spec (f : Term) {acc cls : List Term} {a : List Attr} {tl : List Term}
    {ty : Option Ty} (h : indClause acc f = (cls, tapp a ps tl ty))
    (hcls : ∀ c ∈ cls, fPosPs sps (some true) c = .ok ()) (hpos : ∀ t ∈ tl, tPosPs sps t = .ok ())
    (htys : tl.map tTy = ps.lsArgs.map some) : (∀ c ∈ acc, c ∈ cls) ∧ IndClause sps ps f := by
  fun_induction indClause acc f with
  | case1 acc _ _ _ f ih =>
    obtain ⟨hacc, hf⟩ := ih h
    exact ⟨hacc, .tforall hf⟩
  | case2 acc _ g f ih =>
    obtain ⟨hacc, hf⟩ := ih h
    rw [forall_mem_cons] at hacc
    exact ⟨hacc.2, .timplies (hcls g hacc.1) hf⟩
  | case3 acc _ t v f ih =>
    obtain ⟨hacc, hf⟩ := ih h
    rw [forall_mem_cons] at hacc
    have heq := hcls _ hacc.1
    rw [fPosPs, if_neg (by simp), forM_eq_ok] at heq
    exact ⟨hacc.2, .tlet (heq t (by simp)) hf⟩
  | case4 acc f =>
    cases h
    exact ⟨fun c hc => hc, .tapp hpos htys⟩

theorem checkAx_spec (h : checkAx sps ps news ax = .ok news') :
    ax.2.freeVars = [] ∧ IndClause sps ps ax.2 := by
  obtain ⟨f, hf, h⟩ := bind_eq_ok.mp h
  obtain ⟨_, hfvs, hf⟩ := bind_eq_ok.mp hf
  obtain ⟨_, rfl⟩ := tProp_eq_ok.mp hf
  have hclosed : ax.2.freeVars = [] := by
    rw [eq_nil_iff_forall_not_mem]
    intro v hv
    have := forM_eq_ok.mp hfvs v hv
    cases this
  refine ⟨hclosed, ?_⟩
  cases hcl : indClause [] ax.2 with
  | mk cls g =>
    rw [hcl] at h
    dsimp only at h
    split at h
    · next a s tl ty =>
        split at h
        · next hs =>
            subst hs
            obtain ⟨_, htl, h⟩ := bind_eq_ok.mp h
            split at h
            · cases h
            · next hpos =>
                have hall := forM_eq_ok.mp hpos
                rw [forall_mem_cons, fPosPs, if_neg (by simp), forM_eq_ok] at hall
                exact (indClause_spec ax.2 hcl hall.2 hall.1 (checkTl_eq_ok htl)).2
        · cases h
    · cases h

theorem createIndDecl_spec (h : createIndDecl s idl = .ok d) :
    d = .dind s idl ∧ ∀ id ∈ idl, ∀ ax ∈ id.2,
      ax.2.freeVars = [] ∧ IndClause (idl.map Prod.fst) id.1 ax.2 := by
  unfold createIndDecl at h
  split at h
  · cases h
  · obtain ⟨news, hfold, h⟩ := bind_eq_ok.mp h
    refine ⟨(Except.ok.inj h).symm, ?_⟩
    refine foldlM_forall (P := fun id : IndDecl => ∀ ax ∈ id.2,
      ax.2.freeVars = [] ∧ IndClause (idl.map Prod.fst) id.1 ax.2) ?_ hfold
    intro news id news' hstep
    unfold checkIndDecl at hstep
    split at hstep
    · cases hstep
    · obtain ⟨news₁, _, hstep⟩ := bind_eq_ok.mp hstep
      exact foldlM_forall (fun _ _ _ => checkAx_spec) hstep

theorem createIndDecl_ne_nil (h : createIndDecl s idl = .ok d) : ∀ id ∈ idl, id.2 ≠ [] := by
  unfold createIndDecl at h
  split at h
  · cases h
  · obtain ⟨news, hfold, _⟩ := bind_eq_ok.mp h
    refine foldlM_forall (P := fun id : IndDecl => id.2 ≠ []) ?_ hfold
    intro news id news' hstep
    unfold checkIndDecl at hstep
    split at hstep
    · cases hstep
    · next hne => exact fun hnil => hne (by rw [hnil, isEmpty_nil])

theorem checkAx_news (h : checkAx sps ps news ax = .ok news') : news' = news ++ [.pr ax.1] := by
  obtain ⟨f, hf, h⟩ := bind_eq_ok.mp h
  cases hcl : indClause [] f with
  | mk cls g =>
    rw [hcl] at h
    dsimp only at h
    split at h
    · split at h
      · obtain ⟨_, _, h⟩ := bind_eq_ok.mp h
        split at h
        · cases h
        · obtain ⟨_, _, h⟩ := bind_eq_ok.mp h
          unfold newsId at h
          split at h
          · cases h
          · exact (Except.ok.inj h).symm
      · cases h
    · cases h

theorem createIndDecl_nodup (h : createIndDecl s idl = .ok d) : (idl.map Prod.fst).Nodup := by
  have haxs : ∀ {sps ps} {axl : List (PrSymbol × Term)} {news news' : List Sym},
      axl.foldlM (checkAx sps ps) news = .ok news' → news ⊆ news' := by
    intro sps ps axl
    induction axl with
    | nil =>
      intro news news' h
      rw [foldlM_nil_eq_ok.mp h]
      exact Subset.refl _
    | cons ax axl ih =>
      intro news news' h
      obtain ⟨news₁, hax, h⟩ := foldlM_cons_eq_ok.mp h
      refine fun x hx => ih h ?_
      rw [checkAx_news hax]
      exact mem_append_left _ hx
  have hfold : ∀ {sps} {idl : List IndDecl} {news news' : List Sym},
      idl.foldlM (checkIndDecl sps) news = .ok news' →
      (∀ id ∈ idl, Sym.ls id.1 ∉ news) ∧ (idl.map Prod.fst).Nodup := by
    intro sps idl
    induction idl with
    | nil => simp
    | cons id idl ih =>
      intro news news' h
      obtain ⟨news₁, hid, h⟩ := foldlM_cons_eq_ok.mp h
      obtain ⟨hnew, hnodup⟩ := ih h
      unfold checkIndDecl at hid
      split at hid
      · cases hid
      · obtain ⟨news₂, hnews, hid⟩ := bind_eq_ok.mp hid
        unfold newsId at hnews
        split at hnews
        · cases hnews
        · next hfresh =>
            cases hnews
            have hsub := haxs hid
            rw [map_cons, nodup_cons, forall_mem_cons]
            refine ⟨⟨hfresh, fun id' hid' hmem => ?_⟩, ?_, hnodup⟩
            · exact hnew id' hid' (hsub (mem_append_left _ hmem))
            · intro hmem
              obtain ⟨id', hid', heq⟩ := mem_map.mp hmem
              exact hnew id' hid' (hsub (by simp [heq]))
  unfold createIndDecl at h
  split at h
  · cases h
  · obtain ⟨news, hnews, _⟩ := bind_eq_ok.mp h
    exact (hfold hnews).2

end Why3
