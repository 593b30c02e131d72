import Why3.Pattern.Compile
import Why3.Pattern.PatApp

/-!
# Case analysis on constructors

A value of an algebraic type is larger than the arguments of its constructor. A case
statement with one branch for each constructor of the type takes the branch of the
constructor that the value is built by, and binds the variables of that branch to the
arguments.
-/

namespace Why3

open Lib Term Interp List

variable {D : Type} (S : DataSig) (I : Interp D)

/-- A value with its type is an argument of the constructor of another one. -/
def Component (x y : D × Ty) : Prop :=
  ∃ (ts : TySymbol) (tl : List Ty) (cs : LSymbol) (ds : List D) (i : ℕ) (ty : Ty),
    y.2 = .tyapp ts tl ∧ tl.length = ts.tsArgs.length ∧ cs ∈ S.constrs ts ∧
      I.Typed (paramMap ts tl) cs.lsArgs ds ∧ I.fn cs (.tyapp ts tl) ds = y.1 ∧
      ds[i]? = some x.1 ∧ cs.lsArgs[i]? = some ty ∧ ty.vMap (paramMap ts tl) = x.2

variable {S I} {τ : TyVal} {ρ : VSymbol → D} {ts : TySymbol} {tl : List Ty}
variable {ds : List D}

theorem component_vMap {cs : LSymbol} {i : ℕ} {x y : D} {fty : Ty}
    (hl : tl.length = ts.tsArgs.length) (hcs : cs ∈ S.constrs ts)
    (hds : I.Typed (paramMap ts (tl.map (Ty.vMap τ))) cs.lsArgs ds)
    (hy : I.fn cs (.tyapp ts (tl.map (Ty.vMap τ))) ds = y) (hx : ds[i]? = some x)
    (hfty : cs.lsArgs[i]? = some fty) :
    Component S I (x, (fty.vMap (paramMap ts tl)).vMap τ) (y, (Ty.tyapp ts tl).vMap τ) := by
  refine ⟨ts, tl.map (Ty.vMap τ), cs, ds, i, fty, Ty.vMap_tyapp _ _ _, ?_, hcs, hds, hy, hx, hfty,
    ?_⟩
  · rw [length_map, hl]
  · rw [Ty.vMap_vMap]
    apply Ty.vMap_congr
    intro v hv
    exact paramMap_map hl (S.freevars hcs fty (mem_of_getElem? hfty) v hv) _

structure ConstrCases (S : DataSig) (ts : TySymbol) (tl : List Ty)
    (cl : List (LSymbol × List Pattern × Term)) : Prop where
  constrs : cl.map Prod.fst = S.constrs ts
  typed : ∀ c ∈ cl, PatTyped S (.papp c.1 c.2.1 (.tyapp ts tl))

variable {cl : List (LSymbol × List Pattern × Term)} {c : LSymbol × List Pattern × Term}

section

variable (hcl : ConstrCases S ts tl cl)
include hcl

theorem ConstrCases.mem (hc : c ∈ cl) : c.1 ∈ S.constrs ts :=
  hcl.constrs ▸ mem_map_of_mem hc

theorem ConstrCases.patTys (hc : c ∈ cl) :
    tl.length = ts.tsArgs.length ∧
      c.2.1.map Pattern.patTy = c.1.lsArgs.map (Ty.vMap (paramMap ts tl)) := by
  cases hcl.typed c hc with
  | papp hl _ hty _ _ => exact ⟨hl, hty⟩

theorem ConstrCases.matchPat (hfree : I.Free S) {d : D} (hc : c ∈ cl)
    (hds : I.Typed (paramMap ts (tl.map (Ty.vMap τ))) c.1.lsArgs ds)
    (hd : I.fn c.1 (.tyapp ts (tl.map (Ty.vMap τ))) ds = d) :
    I.matchPat τ (.papp c.1 c.2.1 (.tyapp ts tl)) d = I.matchPatList τ c.2.1 ds := by
  rw [← hd, matchPat_papp (hcl.patTys hc).1 hfree (hcl.mem hc) (hcl.patTys hc).2 hds]

/-- On a value of the constructor of `c` the value is that of the branch `c`. -/
theorem ConstrCases.eval (hfree : I.Free S) {t : Term} (hc : c ∈ cl)
    (hds : I.Typed (paramMap ts (tl.map (Ty.vMap τ))) c.1.lsArgs ds)
    (hd : I.fn c.1 (.tyapp ts (tl.map (Ty.vMap τ))) ds = I.val τ ρ t) {β : List (VSymbol × D)}
    (hβ : I.matchPatList τ c.2.1 ds = some β) :
    I.eval τ ρ [] (tcase [] t
      (cl.map fun c => tCloseBranch (.papp c.1 c.2.1 (.tyapp ts tl)) c.2.2)) =
      I.eval τ (assign ρ β) [] c.2.2 := by
  obtain ⟨hl, hty⟩ := hcl.patTys hc
  obtain ⟨pre, post, rfl⟩ := append_of_mem hc
  have hpre : ∀ c' ∈ pre, I.matchPat τ (.papp c'.1 c'.2.1 (.tyapp ts tl)) (I.val τ ρ t) = none := by
    intro c' hc'
    have hc'' : c' ∈ pre ++ c :: post := mem_append_left _ hc'
    rw [← hd]
    refine matchPat_papp_of_ne hl hfree (hcl.mem hc'') (hcl.mem hc) ?_ (hcl.patTys hc'').2 hds
    have hnodup : ((pre ++ c :: post).map Prod.fst).Nodup := hcl.constrs ▸ S.nodup ts
    rw [map_append, map_cons, nodup_append] at hnodup
    exact hnodup.2.2 _ (mem_map_of_mem hc') _ mem_cons_self
  have hmatch := (hcl.matchPat hfree hc hds hd).trans hβ
  have heval : I.eval τ ρ [] (tCaseClose t
      (pre.map (fun c => (.papp c.1 c.2.1 (.tyapp ts tl), c.2.2)) ++
        (.papp c.1 c.2.1 (.tyapp ts tl), c.2.2) ::
          post.map fun c => (.papp c.1 c.2.1 (.tyapp ts tl), c.2.2))) =
      I.eval τ (assign ρ β) [] c.2.2 := by
    refine Pattern.eval_tCaseClose (hcl.typed c hc) ?_ hmatch
    intro b hb
    obtain ⟨c', hc', rfl⟩ := mem_map.mp hb
    exact hpre c' hc'
  rw [← heval, tCaseClose]
  simp only [map_append, map_cons, map_map]
  rfl

/-- Every value of the type is built by the constructor of one of the branches. -/
theorem ConstrCases.cover (hfree : I.Free S) (hne : cl ≠ []) {d : D}
    (hd : d ∈ I.carrier ((Ty.tyapp ts tl).vMap τ)) :
    ∃ c ∈ cl, ∃ ds, I.Typed (paramMap ts (tl.map (Ty.vMap τ))) c.1.lsArgs ds ∧
      I.fn c.1 (.tyapp ts (tl.map (Ty.vMap τ))) ds = d := by
  obtain ⟨c, hc⟩ := exists_mem_of_ne_nil cl hne
  have hl' : (tl.map (Ty.vMap τ)).length = ts.tsArgs.length := by
    rw [length_map, (hcl.patTys hc).1]
  rw [Ty.vMap_tyapp] at hd
  obtain ⟨cs, hcs, ds, hds, hd⟩ := hfree.cover hl' (ne_nil_of_mem (hcl.mem hc)) hd
  rw [← hcl.constrs] at hcs
  obtain ⟨c, hc, rfl⟩ := mem_map.mp hcs
  exact ⟨c, hc, ds, hds, hd⟩

end

end Why3
