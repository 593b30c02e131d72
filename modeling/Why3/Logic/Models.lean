import Why3.Core.Task
import Why3.Logic.Fixpoint

/-!
# Models of declarations and validity of tasks

A declaration restricts the interpretations of its symbols: the constructors of an
algebraic type build each of its values once and its projections take them apart, a
definition makes its axiom true, inductive predicates are fixpoints of their clauses, and
a hypothesis is true. A task is valid if its goal is true in all models of its
declarations.

What a declaration says depends on its symbols only, so that a model stays one when other
symbols get another meaning. New symbols are numbered from a counter on, and
interpretations that agree below the counter are told apart by new symbols only.
-/

namespace Why3

open Lib Term List

variable {D : Type}

namespace Interp

/-- The constructors `csl` build each value of the type in exactly one way. -/
structure FreeType (I : Interp D) (ts : TySymbol) (csl : List LSymbol) : Prop where
  inj : ∀ {tl cs ds ds'}, tl.length = ts.tsArgs.length → cs ∈ csl →
    I.Typed (paramMap ts tl) cs.lsArgs ds → I.Typed (paramMap ts tl) cs.lsArgs ds' →
    I.fn cs (.tyapp ts tl) ds = I.fn cs (.tyapp ts tl) ds' → ds = ds'
  disjoint : ∀ {tl cs cs' ds ds'}, tl.length = ts.tsArgs.length → cs ∈ csl → cs' ∈ csl →
    cs ≠ cs' → I.Typed (paramMap ts tl) cs.lsArgs ds → I.Typed (paramMap ts tl) cs'.lsArgs ds' →
    I.fn cs (.tyapp ts tl) ds ≠ I.fn cs' (.tyapp ts tl) ds'
  cover : ∀ {tl d}, tl.length = ts.tsArgs.length → d ∈ I.carrier (.tyapp ts tl) →
    ∃ cs ∈ csl, ∃ ds, I.Typed (paramMap ts tl) cs.lsArgs ds ∧ I.fn cs (.tyapp ts tl) ds = d

theorem free_iff {I : Interp D} {S : DataSig} :
    I.Free S ↔ ∀ ts, S.constrs ts ≠ [] → I.FreeType ts (S.constrs ts) :=
  ⟨fun h _ hne => ⟨h.inj, h.disjoint, fun hl => h.cover hl hne⟩,
    fun h => ⟨fun hl hcs => (h _ (ne_nil_of_mem hcs)).inj hl hcs,
      fun hl hcs => (h _ (ne_nil_of_mem hcs)).disjoint hl hcs, fun hl hne => (h _ hne).cover hl⟩⟩

def Projects (I : Interp D) (ts : TySymbol) (c : Constructor) : Prop :=
  ∀ tl ds, tl.length = ts.tsArgs.length → I.Typed (paramMap ts tl) c.1.lsArgs ds →
    ∀ (i : ℕ) (pj : LSymbol) (ty : Ty), c.2[i]? = some (some pj) → c.1.lsArgs[i]? = some ty →
      ds[i]? = some (I.fn pj (ty.vMap (paramMap ts tl)) [I.fn c.1 (.tyapp ts tl) ds])

/-- The declared predicates are the greatest ones that the clauses reproduce. -/
structure GreatestFixpoint (I : Interp D) (idl : List IndDecl) : Prop where
  closed : ∀ id ∈ idl, ∀ ax ∈ id.2, I.Valid ax.2
  reproduced : ∀ ls ∈ idl.map Prod.fst, ∀ τ ds, I.Typed τ ls.lsArgs ds → I.pr ls ds →
    I.consequences idl I.pr ls ds
  greatest : ∀ P : LSymbol → List D → Prop,
    (∀ ls ∈ idl.map Prod.fst, ∀ ds, P ls ds → I.consequences idl P ls ds) →
    ∀ ls ∈ idl.map Prod.fst, ∀ τ ds, I.Typed τ ls.lsArgs ds → P ls ds → I.pr ls ds

/-- What a declaration says. A goal says nothing. -/
def Satisfies (I : Interp D) : Decl → Prop
  | .dtype _ => True
  | .ddata tdl => ∀ td ∈ tdl, I.FreeType td.1 (td.2.map Prod.fst) ∧ ∀ c ∈ td.2, I.Projects td.1 c
  | .dparam _ => True
  | .dlogic ldl => ∀ ld ∈ ldl, I.Valid ld.2.2.1
  | .dind .ind idl => I.LeastFixpoint idl
  | .dind .coind idl => I.GreatestFixpoint idl
  | .dprop .pgoal _ _ => True
  | .dprop _ _ f => I.Valid f

structure Models (I : Interp D) (dl : List Decl) : Prop where
  sound : I.Sound
  disjoint : I.Disjoint
  decls : ∀ d ∈ dl, I.Satisfies d

end Interp

/-- The task has a goal, which is true in all models of the declarations. -/
def Task.Valid (task : Task) : Prop :=
  ∃ pr f, task.findGoal = some (pr, f) ∧
    ∀ (D : Type) (I : Interp D), I.Models task.taskDecls → I.Valid f

def Decl.subject : Decl → List Sym
  | .ddata tdl =>
    tdl.flatMap fun td => td.2.flatMap fun c => .ls c.1 :: c.2.reduceOption.map .ls
  | .dlogic ldl => ldl.flatMap fun ld => symsTerm ld.2.2.1
  | .dind _ idl => idl.flatMap fun id => .ls id.1 :: id.2.flatMap fun ax => symsTerm ax.2
  | .dprop _ _ f => symsTerm f
  | _ => []

/-! ## Interpretations that agree -/

namespace Interp

variable {L : LSymbol → Prop} {I I' I'' : Interp D} {τ : TyVal} {ρ : VSymbol → D}
variable {L' : LSymbol → Prop} {idl : List IndDecl} {f : Term} {ts : TySymbol}

variable (h : AgreeOn L I I')
include h

theorem AgreeOn.symm : AgreeOn L I' I where
  carrier := h.carrier.symm
  fn ls hls := (h.fn ls hls).symm
  pr ls hls := (h.pr ls hls).symm
  lit := h.lit.symm
  eps := h.eps.symm
  dflt := h.dflt.symm

theorem AgreeOn.trans (h' : AgreeOn L' I' I'') : AgreeOn (fun ls => L ls ∧ L' ls) I I'' where
  carrier := h'.carrier.trans h.carrier
  fn ls hls := (h'.fn ls hls.2).trans (h.fn ls hls.1)
  pr ls hls := (h'.pr ls hls.2).trans (h.pr ls hls.1)
  lit := h'.lit.trans h.lit
  eps := h'.eps.trans h.eps
  dflt := h'.dflt.trans h.dflt

theorem AgreeOn.mono (hL : ∀ ls, L' ls → L ls) : AgreeOn L' I I' where
  carrier := h.carrier
  fn ls hls := h.fn ls (hL ls hls)
  pr ls hls := h.pr ls (hL ls hls)
  lit := h.lit
  eps := h.eps
  dflt := h.dflt

theorem AgreeOn.typedVal : I'.TypedVal τ ρ ↔ I.TypedVal τ ρ := by
  rw [TypedVal, TypedVal, h.carrier]

theorem AgreeOn.holds (hf : ∀ ls, Sym.ls ls ∈ symsTerm f → L ls) :
    I'.Holds τ ρ f ↔ I.Holds τ ρ f := by
  rw [Holds, Holds, h.eval f [] hf]

theorem AgreeOn.valid (hf : ∀ ls, Sym.ls ls ∈ symsTerm f → L ls) (hI : I.Valid f) : I'.Valid f :=
  fun _ _ hρ => (h.holds hf).mpr (hI _ _ (h.typedVal.mp hρ))

theorem AgreeOn.withPr (sps : List LSymbol) (P : LSymbol → List D → Prop) :
    AgreeOn L (I.withPr sps P) (I'.withPr sps P) where
  carrier := h.carrier
  fn := h.fn
  pr ls hls := by
    funext ds
    simp only [Interp.withPr, h.pr ls hls]
  lit := h.lit
  eps := h.eps
  dflt := h.dflt

/-- Derivations depend on the symbols of a clause and on its free variables. -/
theorem AgreeOn.derives {ρ' : VSymbol → D} : ∀ (c : Term) (b : List D) {ds : List D},
    (∀ ls, Sym.ls ls ∈ symsTerm c → L ls) → (∀ v ∈ c.freeVars, ρ v = ρ' v) →
      I.Derives τ ρ' b c ds → I'.Derives τ ρ b c ds
  | tquant _ .tforall vl _ f, b, ds, hc, hρ, ⟨es, hes, hder⟩ => by
    simp only [symsTerm, freeVars, mem_append, or_imp, forall_and] at hc hρ
    exact ⟨es, (h.typed _ _).mpr hes, AgreeOn.derives f _ hc.2 hρ.2 hder⟩
  | tbinop _ .timplies g f, b, ds, hc, hρ, ⟨hg, hder⟩ => by
    simp only [symsTerm, freeVars, mem_append, or_imp, forall_and] at hc hρ
    exact ⟨by rwa [h.eval_congr g b hc.1 hρ.1], AgreeOn.derives f b hc.2 hρ.2 hder⟩
  | tlet _ t _ f, b, ds, hc, hρ, hder => by
    simp only [symsTerm, freeVars, mem_append, or_imp, forall_and] at hc hρ
    rw [Derives, h.eval_congr t b hc.1 hρ.1]
    exact AgreeOn.derives f _ hc.2 hρ.2 hder
  | tapp _ ls tl _, b, ds, hc, hρ, hder => by
    rw [Derives] at hder ⊢
    rw [hder]
    refine map_congr_left fun t ht => ?_
    rw [h.eval_congr t b (fun ls hls => hc ls ?_) fun v hv => hρ v (mem_freeVarsList.mpr ⟨t, ht, hv⟩)]
    simp only [symsTerm, mem_append, mem_cons, mem_symsTermList]
    exact .inr (.inr ⟨t, ht, hls⟩)

theorem AgreeOn.consequences
    (hidl : ∀ id ∈ idl, ∀ ax ∈ id.2, ∀ ls, Sym.ls ls ∈ symsTerm ax.2 → L ls)
    {P : LSymbol → List D → Prop} {ls : LSymbol} {ds : List D} (hds : I.consequences idl P ls ds) :
    I'.consequences idl P ls ds := by
  obtain ⟨id, hid, hls, ax, hax, τ, ρ, hder⟩ := hds
  exact ⟨id, hid, hls, ax, hax, τ, ρ, (h.withPr _ P).derives _ _ (hidl id hid ax hax)
    (fun _ _ => rfl) hder⟩

theorem AgreeOn.leastFixpoint (hls : ∀ ls ∈ idl.map Prod.fst, L ls)
    (hidl : ∀ id ∈ idl, ∀ ax ∈ id.2, ∀ ls, Sym.ls ls ∈ symsTerm ax.2 → L ls)
    (hI : I.LeastFixpoint idl) : I'.LeastFixpoint idl where
  closed id hid ax hax := h.valid (hidl id hid ax hax) (hI.closed id hid ax hax)
  least P hP ls hmem τ ds hds hpr := by
    refine hI.least P ?_ ls hmem τ ds ((h.typed _ _).mp hds) (h.pr ls (hls ls hmem) ▸ hpr)
    intro id hid ax hax
    exact (h.withPr _ P).symm.valid (hidl id hid ax hax) (hP id hid ax hax)

theorem AgreeOn.greatestFixpoint (hls : ∀ ls ∈ idl.map Prod.fst, L ls)
    (hidl : ∀ id ∈ idl, ∀ ax ∈ id.2, ∀ ls, Sym.ls ls ∈ symsTerm ax.2 → L ls)
    (hI : I.GreatestFixpoint idl) : I'.GreatestFixpoint idl where
  closed id hid ax hax := h.valid (hidl id hid ax hax) (hI.closed id hid ax hax)
  reproduced ls hmem τ ds hds hpr := by
    rw [h.pr ls (hls ls hmem)] at hpr
    obtain ⟨id, hid, hls', ax, hax, τ', ρ, hder⟩ :=
      hI.reproduced ls hmem τ ds ((h.typed _ _).mp hds) hpr
    refine ⟨id, hid, hls', ax, hax, τ', ρ, ?_⟩
    rw [withPr_self] at hder ⊢
    exact h.derives _ _ (hidl id hid ax hax) (fun _ _ => rfl) hder
  greatest P hP ls hmem τ ds hds hpr := by
    rw [h.pr ls (hls ls hmem)]
    refine hI.greatest P ?_ ls hmem τ ds ((h.typed _ _).mp hds) hpr
    exact fun ls hmem ds hds => h.symm.consequences hidl (hP ls hmem ds hds)

theorem AgreeOn.freeType {csl : List LSymbol} (hcsl : ∀ cs ∈ csl, L cs) (hI : I.FreeType ts csl) :
    I'.FreeType ts csl where
  inj {tl cs ds ds'} hl hcs hds hds' heq := by
    rw [h.fn cs (hcsl cs hcs)] at heq
    exact hI.inj hl hcs ((h.typed _ _).mp hds) ((h.typed _ _).mp hds') heq
  disjoint {tl cs cs' ds ds'} hl hcs hcs' hne hds hds' := by
    rw [h.fn cs (hcsl cs hcs), h.fn cs' (hcsl cs' hcs')]
    exact hI.disjoint hl hcs hcs' hne ((h.typed _ _).mp hds) ((h.typed _ _).mp hds')
  cover {tl d} hl hd := by
    rw [h.carrier] at hd
    obtain ⟨cs, hcs, ds, hds, heq⟩ := hI.cover hl hd
    exact ⟨cs, hcs, ds, (h.typed _ _).mpr hds, by rw [h.fn cs (hcsl cs hcs), heq]⟩

theorem AgreeOn.projects {c : Constructor} (hc : L c.1) (hpj : ∀ pj ∈ c.2.reduceOption, L pj)
    (hI : I.Projects ts c) : I'.Projects ts c := by
  intro tl ds hl hds i pj ty hi hty
  rw [h.fn c.1 hc, h.fn pj (hpj pj (mem_filterMap.mpr ⟨_, mem_of_getElem? hi, rfl⟩))]
  exact hI tl ds hl ((h.typed _ _).mp hds) i pj ty hi hty

theorem AgreeOn.satisfies {d : Decl} (hd : ∀ ls, Sym.ls ls ∈ d.subject → L ls)
    (hI : I.Satisfies d) : I'.Satisfies d := by
  cases d with
  | dtype ts => trivial
  | dparam ls => trivial
  | ddata tdl =>
    intro td htd
    have hcs : ∀ c ∈ td.2, L c.1 ∧ ∀ pj ∈ c.2.reduceOption, L pj := by
      intro c hc
      have hsub : ∀ s ∈ Sym.ls c.1 :: c.2.reduceOption.map Sym.ls, s ∈ (Decl.ddata tdl).subject :=
        fun s hs => mem_flatMap.mpr ⟨td, htd, mem_flatMap.mpr ⟨c, hc, hs⟩⟩
      exact ⟨hd _ (hsub _ mem_cons_self), fun pj hpj =>
        hd _ (hsub _ (mem_cons_of_mem _ (mem_map_of_mem hpj)))⟩
    refine ⟨h.freeType ?_ (hI td htd).1, ?_⟩
    · intro cs hmem
      obtain ⟨c, hc, rfl⟩ := mem_map.mp hmem
      exact (hcs c hc).1
    · exact fun c hc => h.projects (hcs c hc).1 (hcs c hc).2 ((hI td htd).2 c hc)
  | dlogic ldl =>
    intro ld hld
    exact h.valid (fun ls hls => hd ls (mem_flatMap.mpr ⟨ld, hld, hls⟩)) (hI ld hld)
  | dind s idl =>
    have hls : ∀ ls ∈ idl.map Prod.fst, L ls := by
      intro ls hmem
      obtain ⟨id, hid, rfl⟩ := mem_map.mp hmem
      exact hd _ (mem_flatMap.mpr ⟨id, hid, mem_cons_self⟩)
    have hidl : ∀ id ∈ idl, ∀ ax ∈ id.2, ∀ ls, Sym.ls ls ∈ symsTerm ax.2 → L ls :=
      fun id hid ax hax ls hmem => hd ls (mem_flatMap.mpr ⟨id, hid,
        mem_cons_of_mem _ (mem_flatMap.mpr ⟨ax, hax, hmem⟩)⟩)
    cases s with
    | ind => exact h.leastFixpoint hls hidl hI
    | coind => exact h.greatestFixpoint hls hidl hI
  | dprop k pr f =>
    cases k with
    | pgoal => trivial
    | plemma | paxiom => exact h.valid hd hI

theorem AgreeOn.disjoint (hI : I.Disjoint) : I'.Disjoint := by
  unfold Disjoint
  rw [h.carrier]
  exact hI

end Interp

end Why3
