import Mathlib.Order.FixedPoints
import Why3.Logic.Peano
import Why3.Logic.Positive
import Why3.Logic.Valid

/-!
# Inductive predicates as fixpoints

A declaration of inductive predicates stands for the least predicates that make its
clauses true, for all types at once. The values of different types have to be different
ones, as a predicate does not see the types of its arguments.

What a clause derives from given predicates grows with the predicates, so that there are
least and greatest predicates that a declaration reproduces. The induction rule has one
premise for each clause, about what the clause derives.
-/

namespace Why3

open Lib Term List

variable {D : Type}

namespace Interp

def withPr (I : Interp D) (sps : List LSymbol) (P : LSymbol → List D → Prop) : Interp D :=
  { I with pr := fun ls ds => if ls ∈ sps then P ls ds else I.pr ls ds }

def Disjoint (I : Interp D) : Prop :=
  ∀ d ty ty', d ∈ I.carrier ty → d ∈ I.carrier ty' → ty = ty'

/-- The declared predicates are the least ones that make the clauses true. -/
structure LeastFixpoint (I : Interp D) (idl : List IndDecl) : Prop where
  closed : ∀ id ∈ idl, ∀ ax ∈ id.2, I.Valid ax.2
  least : ∀ P : LSymbol → List D → Prop,
    (∀ id ∈ idl, ∀ ax ∈ id.2, (I.withPr (idl.map Prod.fst) P).Valid ax.2) →
    ∀ ls ∈ idl.map Prod.fst, ∀ τ ds, I.Typed τ ls.lsArgs ds → I.pr ls ds → P ls ds

/-- The arguments of the conclusion of a clause when its premises are true. -/
def Derives (I : Interp D) (τ : TyVal) (ρ : VSymbol → D) : List D → Term → List D → Prop
  | b, tquant _ .tforall vl _ f, ds =>
    ∃ es, I.Typed τ (vl.map VSymbol.vsTy) es ∧ Derives I τ ρ (es ++ b) f ds
  | b, tbinop _ .timplies g f, ds => (I.eval τ ρ b g).2 ∧ Derives I τ ρ b f ds
  | b, tlet _ t _ f, ds => Derives I τ ρ ((I.eval τ ρ b t).1 :: b) f ds
  | b, tapp _ _ tl _, ds => ds = tl.map fun t => (I.eval τ ρ b t).1
  | _, _, _ => False

def consequences (I : Interp D) (idl : List IndDecl) (P : LSymbol → List D → Prop) (ls : LSymbol)
    (ds : List D) : Prop :=
  ∃ id ∈ idl, id.1 = ls ∧ ∃ ax ∈ id.2, ∃ τ ρ,
    (I.withPr (idl.map Prod.fst) P).Derives τ ρ [] ax.2 ds

variable {I I' : Interp D} {τ : TyVal} {ρ : VSymbol → D} {sps : List LSymbol} {ps : LSymbol}
  {S : DataSig}
variable {P : LSymbol → List D → Prop} {idl : List IndDecl} {c : Term}

/-! ## What a clause derives -/

theorem eval_clause_iff (hc : IndClause sps ps c) {Γ : List Ty} (b : List D)
    (hty : WellTyped S Γ c none) :
    (I.eval τ ρ b c).2 ↔ ∀ ds, I.Derives τ ρ b c ds → I.pr ps ds := by
  induction hc generalizing Γ b with
  | tforall hf ih =>
    cases hty with
    | tquant _ _ _ hf =>
      rw [eval_forall]
      constructor
      · rintro h ds ⟨es, hes, hder⟩
        exact (ih (es ++ b) hf).mp (h es hes) ds hder
      · intro h es hes
        exact (ih (es ++ b) hf).mpr fun ds hder => h ds ⟨es, hes, hder⟩
  | timplies hg hf ih =>
    cases hty with
    | tbinop _ _ _ hf =>
      rw [eval_timplies]
      constructor
      · rintro h ds ⟨hprem, hder⟩
        exact (ih b hf).mp (h hprem) ds hder
      · exact fun h hprem => (ih b hf).mpr fun ds hder => h ds ⟨hprem, hder⟩
  | tlet ht hf ih =>
    cases hty with
    | tlet _ _ hf =>
      rw [eval_tlet]
      exact ih _ hf
  | @tapp a tl ty _ _ =>
    obtain rfl : ty = none := hty.tTy_eq
    rw [eval_tapp_none]
    exact ⟨fun h ds hds => hds ▸ h, fun h => h _ rfl⟩

theorem Derives.mono (hc : IndClause sps ps c) (h : Grows I I' τ ρ sps ps fun t _ => .ok t)
    {b ds : List D} (hfv : c.freeVars = []) (hder : I.Derives τ ρ b c ds) :
    I'.Derives τ ρ b c ds := by
  induction hc generalizing b ds with
  | tforall hf ih =>
    obtain ⟨es, hes, hder⟩ := hder
    exact ⟨es, (h.agree.typed _ _).mpr hes, ih (append_eq_nil_iff.mp hfv).2 hder⟩
  | timplies hg hf ih =>
    obtain ⟨hprem, hder⟩ := hder
    rw [freeVars, append_eq_nil_iff] at hfv
    exact ⟨h.eval _ b hfv.1 hg (mapLs_self _ fun _ _ _ _ => rfl) hprem, ih hfv.2 hder⟩
  | tlet ht hf ih =>
    rw [Derives, h.agree.eval_term ht b]
    exact ih (append_eq_nil_iff.mp hfv).2 hder
  | tapp hpos _ =>
    rw [Derives, h.agree.eval_terms hpos b]
    exact hder

/-- A clause derives facts about arguments of the types of its predicate. -/
theorem Derives.typed (hI : I.Sound) (hc : IndClause sps ps c) (hρ : I.TypedVal τ ρ) {Γ : List Ty}
    {b ds : List D} (hty : WellTyped S Γ c none) (hb : I.Typed τ Γ b)
    (hder : I.Derives τ ρ b c ds) : I.Typed τ ps.lsArgs ds := by
  induction hc generalizing Γ b ds with
  | tforall hf ih =>
    obtain ⟨es, hes, hder⟩ := hder
    cases hty with
    | tquant _ _ _ hf => exact ih hf (hes.append hb) hder
  | timplies hg hf ih =>
    cases hty with
    | tbinop _ _ _ hf => exact ih hf hb hder.2
  | tlet ht hf ih =>
    cases hty with
    | tlet _ ht hf => exact ih hf (.cons (ht.eval_mem hI hρ hb _ rfl).1 hb) hder
  | @tapp a tl ty _ htys =>
    cases hty with
    | tapp _ σ _ _ hlen htl =>
      rw [hder, Typed, forall₂_iff_get]
      refine ⟨by simp [hlen], fun i hi hi' => ?_⟩
      have hi₁ : i < tl.length := by simpa using hi'
      have hti := htl i tl[i] ps.lsArgs[i] (getElem?_eq_getElem hi₁)
        (getElem?_eq_getElem hi)
      -- the arguments of a conclusion have the very types of the predicate
      have hσ : some (ps.lsArgs[i].vMap σ) = some ps.lsArgs[i] := by
        rw [← hti.tTy_eq]
        have := congrArg (·[i]?) htys
        simpa [hi, hi₁] using this
      rw [hσ] at hti
      simpa using (hti.eval_mem hI hρ hb _ rfl).1

/-! ## Monotonicity -/

theorem withPr_self (I : Interp D) (sps : List LSymbol) : I.withPr sps I.pr = I := by
  simp [withPr]

theorem withPr_agree (I : Interp D) (sps : List LSymbol) (P Q : LSymbol → List D → Prop) :
    AgreeOn (fun s => s ∉ sps) (I.withPr sps P) (I.withPr sps Q) := by
  refine ⟨rfl, fun _ _ => rfl, fun s hs => ?_, rfl, rfl, rfl⟩
  funext ds
  simp only [withPr, if_neg hs]

theorem withPr_grows {Q : LSymbol → List D → Prop} (hps : ps ∈ sps)
    (hPQ : ∀ ls ∈ sps, ∀ ds, P ls ds → Q ls ds) :
    Grows (I.withPr sps P) (I.withPr sps Q) τ ρ sps ps fun t _ => .ok t := by
  have hpr : ∀ s ∈ sps, ∀ ds, (I.withPr sps P).pr s ds → (I.withPr sps Q).pr s ds := by
    intro s hs ds h
    simp only [withPr, if_pos hs] at h ⊢
    exact hPQ s hs ds h
  have hagree := I.withPr_agree sps P Q
  refine ⟨hagree, rfl, hps, fun s hs _ => hpr s hs, ?_⟩
  rintro a tl ty u b - htl ⟨⟩ h
  cases ty with
  | some ty => exact h
  | none =>
    rw [eval_tapp_none] at h ⊢
    rw [hagree.eval_terms htl b]
    exact hpr ps hps _ h

/-- What the clauses of a declaration derive grows with the predicates. -/
theorem consequences_mono (hidl : ∀ id ∈ idl, ∀ ax ∈ id.2,
    ax.2.freeVars = [] ∧ IndClause (idl.map Prod.fst) id.1 ax.2) :
    Monotone (I.consequences idl) := by
  rintro P Q hPQ ls ds ⟨id, hid, rfl, ax, hax, τ, ρ, hder⟩
  obtain ⟨hfv, hclause⟩ := hidl id hid ax hax
  have hmem : id.1 ∈ idl.map Prod.fst := mem_map_of_mem hid
  exact ⟨id, hid, rfl, ax, hax, τ, ρ,
    hder.mono hclause (withPr_grows hmem fun ls _ ds => hPQ ls ds) hfv⟩

/-- An accepted declaration is monotone, so that there are least and greatest predicates
that it reproduces. -/
theorem createIndDecl_monotone {s : IndSign} {idl : List IndDecl} {d : Decl}
    (h : createIndDecl s idl = .ok d) (I : Interp D) :
    Monotone (I.consequences idl) ∧
      (∃ P, IsLeast {P | I.consequences idl P = P} P) ∧
      ∃ P, IsGreatest {P | I.consequences idl P = P} P := by
  have hmono : Monotone (I.consequences idl) := consequences_mono (createIndDecl_spec h).2
  exact ⟨hmono, ⟨_, OrderHom.isLeast_lfp ⟨_, hmono⟩⟩, ⟨_, OrderHom.isGreatest_gfp ⟨_, hmono⟩⟩⟩

def psEven : LSymbol := ⟨⟨40⟩, [tyNat], none, 0⟩

def evenDecl : List IndDecl :=
  let n := tbnd [] 0 tyNat
  [(psEven,
    [(⟨⟨41⟩⟩, tapp [] psEven [tapp [] fsZero [] (some tyNat)] none),
      (⟨⟨42⟩⟩, tquant [] .tforall [⟨⟨43⟩, tyNat⟩] [] (tbinop [] .timplies (tapp [] psEven [n] none)
        (tapp [] psEven [tapp [] fsSucc [tapp [] fsSucc [n] (some tyNat)] (some tyNat)] none)))])]

theorem createIndDecl_monotone_even : createIndDecl .ind evenDecl = .ok (.dind .ind evenDecl) ∧
    Monotone (peano.consequences evenDecl) :=
  ⟨rfl, (createIndDecl_monotone (s := .ind) rfl peano).1⟩

/-! ## Induction -/

/-- Induction on the predicates of a declaration. The premises of the clauses may be used
with what is to be shown added to the predicates. As clauses are closed, the values of the
free variables do not matter. -/
theorem LeastFixpoint.induction (h : I.LeastFixpoint idl)
    (hidl : ∀ id ∈ idl, ∀ ax ∈ id.2, ax.2.freeVars = [] ∧
      IndClause (idl.map Prod.fst) id.1 ax.2 ∧ WellTyped S [] ax.2 none)
    (hstep : ∀ id ∈ idl, ∀ ax ∈ id.2, ∀ τ, ∃ ρ, ∀ ds,
      (I.withPr (idl.map Prod.fst) fun ls ds => I.pr ls ds ∧ P ls ds).Derives τ ρ [] ax.2 ds →
        P id.1 ds) :
    ∀ ls ∈ idl.map Prod.fst, ∀ τ ds, I.Typed τ ls.lsArgs ds → I.pr ls ds → P ls ds := by
  intro ls hls τ ds hds hpr
  refine (h.least (fun ls ds => I.pr ls ds ∧ P ls ds) ?_ ls hls τ ds hds hpr).2
  intro id hid ax hax τ ρ hρ
  obtain ⟨hfv, hclause, hty⟩ := hidl id hid ax hax
  obtain ⟨ρ', hP⟩ := hstep id hid ax hax τ
  have hmem : id.1 ∈ idl.map Prod.fst := mem_map_of_mem hid
  have hcongr : ∀ v ∈ ax.2.freeVars, ρ v = ρ' v := by simp [hfv]
  have hbase := (eval_clause_iff hclause [] hty).mp
    ((holds_congr hcongr).mp (h.closed id hid ax hax τ ρ hρ))
  have hgrows := withPr_grows (I := I) (τ := τ) (ρ := ρ') (Q := I.pr)
    (P := fun ls ds => I.pr ls ds ∧ P ls ds) hmem fun ls _ ds h => h.1
  rw [withPr_self] at hgrows
  rw [holds_congr hcongr, Holds, eval_clause_iff hclause [] hty]
  intro ds hder
  simp only [withPr, if_pos hmem]
  exact ⟨hbase ds (hder.mono hclause hgrows hfv), hP ds hder⟩

end Interp

end Why3
