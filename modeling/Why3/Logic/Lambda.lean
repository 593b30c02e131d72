import Why3.Core.Lambda
import Why3.Logic.Infer
import Why3.Logic.Equal
import Why3.Logic.TypedSubst

/-!
# The meaning of closed terms and of closures

A closing constructor gives the bound variables their values. The closure of a
predicate denotes a mapping to the booleans as soon as there is one.
-/

namespace Why3

open Lib Term Interp List

variable {S : DataSig} {D : Type} {I : Interp D} {τ : TyVal} {ρ : VSymbol → D} {b : List D}
variable {Γ : List Ty} {vl : List VSymbol} {f t : Term}
variable {fn g u : Term}

/-! ## Closing constructors -/

namespace Interp

theorem eval_closeVar (v : VSymbol) (d : D) (b : List D) (t : Term) :
    I.eval τ ρ (d :: b) (closeVars [v] t) = I.eval τ (assign ρ [(v, d)]) b t :=
  @eval_closeVars _ I τ ρ [v] [d] rfl b t

theorem eval_tLetClose (v : VSymbol) (t e : Term) :
    I.eval τ ρ b (tLetClose v t e) = I.eval τ (assign ρ [(v, (I.eval τ ρ b t).1)]) b e := by
  rw [tLetClose, eval_tlet]
  exact eval_closeVar v _ b e

theorem eval_tEpsClose (v : VSymbol) (f : Term) :
    I.eval τ ρ b (tEpsClose v f) =
      (I.eps (v.vsTy.vMap τ) {d | (I.eval τ (assign ρ [(v, d)]) b f).2}, False) := by
  rw [tEpsClose, eval_teps]
  congr 3
  funext d
  exact congrArg Prod.snd (eval_closeVar v d b f)

theorem typed_length {ds : List D} (h : I.Typed τ (vl.map VSymbol.vsTy) ds) :
    vl.length = ds.length := by
  have := Typed.length_eq h
  rwa [length_map] at this

theorem eval_forall_close (vl : List VSymbol) (trl : List (List Term)) (f : Term) :
    (I.eval τ ρ b (tQuantClose .tforall vl trl f)).2 ↔
      ∀ ds, I.Typed τ (vl.map VSymbol.vsTy) ds → (I.eval τ (assign ρ (vl.zip ds)) b f).2 := by
  unfold tQuantClose
  split
  · next hvl =>
      rw [List.isEmpty_iff] at hvl
      subst hvl
      exact ⟨fun h ds hds => by cases hds; exact h, fun h => h [] .nil⟩
  · rw [eval_forall]
    exact forall₂_congr fun ds hds => by rw [eval_closeVars (typed_length hds)]

theorem eval_exists_close (vl : List VSymbol) (trl : List (List Term)) (f : Term) :
    (I.eval τ ρ b (tQuantClose .texists vl trl f)).2 ↔
      ∃ ds, I.Typed τ (vl.map VSymbol.vsTy) ds ∧ (I.eval τ (assign ρ (vl.zip ds)) b f).2 := by
  unfold tQuantClose
  split
  · next hvl =>
      rw [List.isEmpty_iff] at hvl
      subst hvl
      exact ⟨fun h => ⟨[], .nil, h⟩, fun ⟨ds, hds, h⟩ => by cases hds; exact h⟩
  · rw [eval_exists]
    exact exists_congr fun ds => and_congr_right fun hds => by
      rw [eval_closeVars (typed_length hds)]

theorem eval_tForallClose {trl : List (List Term)} (h : tForallClose vl trl f = .ok g) :
    (I.eval τ ρ b g).2 ↔
      ∀ ds, I.Typed τ (vl.map VSymbol.vsTy) ds → (I.eval τ (assign ρ (vl.zip ds)) b f).2 := by
  rw [← eval_forall_close vl trl f]
  unfold tForallClose at h
  split at h
  · next hvl => rw [(tProp_eq_ok.mp h).2, tQuantClose, if_pos hvl]
  · cases h
    rfl

end Interp

theorem WellTyped.tEpsClose (v : VSymbol) (h : WellTyped S Γ f none) :
    WellTyped S Γ (tEpsClose v f) (some v.vsTy) :=
  .teps [] (h.closeVars [v])

theorem WellTyped.tForallClose (hf : WellTyped S Γ f none) (h : tForallClose vl [] f = .ok g) :
    WellTyped S Γ g none := by
  unfold Term.tForallClose at h
  split at h
  · rw [(tProp_eq_ok.mp h).2]
    exact hf
  · cases h
    exact .tQuantClose .tforall vl (by simp) hf

/-! ## Applications of mappings -/

theorem tFuncApp_spec (h : tFuncApp fn t = .ok u) :
    ∃ tyA tyB, fn.tTy = some (tyFunc tyA tyB) ∧ t.tTy = some tyA ∧
      u = tapp [] fsFuncApp [fn, t] (some tyB) := by
  obtain ⟨s, hs, h⟩ := bind_eq_ok.mp h
  have hargs := lsArgInst_spec hs (extends_findDef s)
  simp only [ArgsMatch, fsFuncApp, map_cons, map_nil, cons.injEq, and_true] at hargs
  refine ⟨_, _, hargs.1, hargs.2, (Except.ok.inj h).symm⟩

theorem WellTyped.funcApp {tyA tyB : Ty} (hfn : WellTyped S Γ fn (some (tyFunc tyA tyB)))
    (ht : WellTyped S Γ t (some tyA)) :
    WellTyped S Γ (Term.tapp [] fsFuncApp [fn, t] (some tyB)) (some tyB) := by
  have hargs : ArgsMatch (fun v => if v = ⟨⟨4⟩⟩ then tyA else tyB) fsFuncApp [fn, t] := by
    simp [ArgsMatch, fsFuncApp, hfn.tTy_eq, ht.tTy_eq, tyFunc]
  refine .of_argsMatch [] (.inl rfl) hargs ?_
  simp only [mem_cons, not_mem_nil, or_false, forall_eq_or_imp, forall_eq]
  exact ⟨⟨_, hfn⟩, ⟨_, ht⟩⟩

theorem WellTyped.equ {ty : Ty} (ht : WellTyped S Γ t (some ty)) (hu : WellTyped S Γ u (some ty)) :
    WellTyped S Γ (Term.tapp [] psEqu [t, u] none) none := by
  have hargs : ArgsMatch (fun _ => ty) psEqu [t, u] := by
    simp [ArgsMatch, psEqu, ht.tTy_eq, hu.tTy_eq]
  refine .of_argsMatch [] (.inl rfl) hargs ?_
  simp only [mem_cons, not_mem_nil, or_false, forall_eq_or_imp, forall_eq]
  exact ⟨⟨_, ht⟩, ⟨_, hu⟩⟩

/-! ## Closures of binary predicates -/

/-- The types of mappings contain all mappings between the carriers. -/
def Interp.Functional (I : Interp D) : Prop :=
  ∀ (tyA tyB : Ty) (g : D → D), (∀ d ∈ I.carrier tyA, g d ∈ I.carrier tyB) →
    ∃ F ∈ I.carrier (tyFunc tyA tyB), ∀ d ∈ I.carrier tyA, I.fn fsFuncApp tyB [F, d] = g d

/-- The relation that a mapping to mappings to booleans stands for. -/
def Interp.relOf (I : Interp D) (ty : Ty) (F x y : D) : Prop :=
  I.fn fsFuncApp tyBool [I.fn fsFuncApp (tyFunc ty tyBool) [F, x], y] = I.fn fsBoolTrue tyBool []

section Closure

variable {n : ℕ} {r : LSymbol} {ty : Ty} {u : Term}

theorem tClosure_spec (h : tClosure n r [ty, ty] none = .ok u) :
    ∃ g, u = tEpsClose ⟨⟨n + 2⟩, tyFunc ty (tyFunc ty tyBool)⟩ g ∧
      tForallClose [⟨⟨n⟩, ty⟩, ⟨⟨n + 1⟩, ty⟩] []
        (tbinop [] .tiff
          (tapp [] psEqu [tapp [] fsFuncApp [tapp [] fsFuncApp
            [tvar [] ⟨⟨n + 2⟩, tyFunc ty (tyFunc ty tyBool)⟩, tvar [] ⟨⟨n⟩, ty⟩]
            (some (tyFunc ty tyBool)), tvar [] ⟨⟨n + 1⟩, ty⟩] (some tyBool), tBoolTrue] none)
          (tapp [] r [tvar [] ⟨⟨n⟩, ty⟩, tvar [] ⟨⟨n + 1⟩, ty⟩] none)) = .ok g ∧
      ∃ σ, ArgsMatch σ r [tvar [] ⟨⟨n⟩, ty⟩, tvar [] ⟨⟨n + 1⟩, ty⟩] ∧
        none = r.lsValue.map (Ty.vMap σ) := by
  obtain ⟨t, ht, h⟩ := bind_eq_ok.mp h
  obtain rfl := tApp_eq ht
  obtain ⟨s, hs, _⟩ := bind_eq_ok.mp ht
  simp only [freshOf, map_cons, map_nil] at h
  have hbody : lambdaBody (tapp [] r [tvar [] ⟨⟨n⟩, ty⟩, tvar [] ⟨⟨n + 1⟩, ty⟩] none) =
      tapp [] r [tvar [] ⟨⟨n⟩, ty⟩, tvar [] ⟨⟨n + 1⟩, ty⟩] none := rfl
  simp only [tLambda, hbody, isEmpty_cons, Bool.false_eq_true, if_false, tTy,
    Option.isSome_none, Option.getD_none, foldr_cons, foldr_nil, foldlM_cons,
    foldlM_nil, length_cons, length_nil] at h
  obtain ⟨e, he, h⟩ := bind_eq_ok.mp h
  obtain ⟨e₁, he₁, e₂, he₂, he⟩ := bind₂_eq_ok.mp he
  cases he
  obtain ⟨_, _, hfn, hx, rfl⟩ := tFuncApp_spec he₁
  obtain ⟨_, _, hfn₂, hx₂, rfl⟩ := tFuncApp_spec he₂
  simp only [tTy, tyFunc, Option.some.injEq, Ty.tyapp.injEq, cons.injEq, and_true,
    true_and] at hfn hfn₂
  obtain ⟨rfl, rfl⟩ := hfn
  simp only [Ty.tyapp.injEq, cons.injEq, and_true, true_and] at hfn₂
  obtain ⟨rfl, rfl⟩ := hfn₂
  obtain ⟨e, he, f, hf, h⟩ := bind₂_eq_ok.mp h
  obtain ⟨rfl, _⟩ := tEqu_spec he
  obtain rfl := tBinary_eq hf
  obtain ⟨g, hg, h⟩ := bind_eq_ok.mp h
  exact ⟨g, (Except.ok.inj h).symm, hg, lsAppInst_spec hs⟩

theorem WellTyped.tClosure (hr : r.lsConstr = 0) (hbool : fsBoolTrue ∈ S.constrs tsBool)
    (h : tClosure n r [ty, ty] none = .ok u) :
    WellTyped S Γ u (some (tyFunc ty (tyFunc ty tyBool))) := by
  obtain ⟨g, rfl, hg, σ, hargs, hnone⟩ := tClosure_spec h
  refine .tEpsClose _ (.tForallClose (.tbinop [] _ ?_ ?_) hg)
  · have hvar : ∀ k ty', WellTyped S Γ (Term.tvar [] ⟨⟨k⟩, ty'⟩) (some ty') :=
      fun k ty' => .tvar [] ⟨⟨k⟩, ty'⟩
    refine .equ (((hvar (n + 2) (tyFunc ty (tyFunc ty tyBool))).funcApp (hvar n ty)).funcApp
      (hvar (n + 1) ty)) ?_
    exact .tapp [] Ty.tyvar (.inr ⟨_, hbool⟩) rfl rfl (by simp)
  · rw [hnone]
    refine .of_argsMatch [] (.inl hr) hargs ?_
    simp only [mem_cons, not_mem_nil, or_false, forall_eq_or_imp, forall_eq]
    exact ⟨⟨_, .tvar [] _⟩, ⟨_, .tvar [] _⟩⟩

theorem Interp.Functional.exists_relOf (hfun : I.Functional) (hI : I.Sound) (hfree : I.Free S)
    (hbool : S.constrs tsBool = [fsBoolTrue, fsBoolFalse]) (ty : Ty) (R : D → D → Prop) :
    ∃ F ∈ I.carrier (tyFunc ty (tyFunc ty tyBool)), ∀ x ∈ I.carrier ty, ∀ y ∈ I.carrier ty,
      (I.relOf ty F x y ↔ R x y) := by
  classical
  have hmem : ∀ cs ∈ S.constrs tsBool, cs.lsArgs = [] → I.fn cs tyBool [] ∈ I.carrier tyBool :=
    fun cs hcs hargs => hI.constr_mem rfl hcs (by rw [hargs]; exact .nil)
  have hne : I.fn fsBoolFalse (.tyapp tsBool []) [] ≠ I.fn fsBoolTrue (.tyapp tsBool []) [] :=
    hfree.disjoint rfl (by simp [hbool]) (by simp [hbool]) (by decide) .nil .nil
  let val : D → D → D := fun x y => I.fn (if R x y then fsBoolTrue else fsBoolFalse) tyBool []
  have hval : ∀ x y, val x y ∈ I.carrier tyBool := by
    intro x y
    change I.fn (if R x y then fsBoolTrue else fsBoolFalse) tyBool [] ∈ _
    split
    · exact hmem _ (by simp [hbool]) rfl
    · exact hmem _ (by simp [hbool]) rfl
  choose inner hinner hinner' using fun x => hfun ty tyBool (val x) fun y _ => hval x y
  obtain ⟨F, hF, hF'⟩ := hfun ty (tyFunc ty tyBool) inner fun x _ => hinner x
  refine ⟨F, hF, fun x hx y hy => ?_⟩
  rw [relOf, hF' x hx, hinner' x y hy]
  change I.fn (if R x y then fsBoolTrue else fsBoolFalse) tyBool [] = _ ↔ _
  split
  · next h => exact iff_of_true rfl h
  · next h => exact iff_of_false hne h

/-- The closure of a predicate denotes a mapping with the values of the predicate. -/
theorem eval_tClosure (hI : I.Sound) (hfree : I.Free S) (hfun : I.Functional)
    (hbool : S.constrs tsBool = [fsBoolTrue, fsBoolFalse])
    (h : tClosure n r [ty, ty] none = .ok u) :
    ∀ x ∈ I.carrier (ty.vMap τ), ∀ y ∈ I.carrier (ty.vMap τ),
      (I.relOf (ty.vMap τ) (I.eval τ ρ b u).1 x y ↔ I.pr r [x, y]) := by
  obtain ⟨g, rfl, hg, _⟩ := tClosure_spec h
  set fc : VSymbol := ⟨⟨n + 2⟩, tyFunc ty (tyFunc ty tyBool)⟩ with hfc
  have hgF : ∀ F, (I.eval τ (assign ρ [(fc, F)]) b g).2 ↔
      ∀ x ∈ I.carrier (ty.vMap τ), ∀ y ∈ I.carrier (ty.vMap τ),
        (I.relOf (ty.vMap τ) F x y ↔ I.pr r [x, y]) := by
    intro F
    rw [eval_tForallClose hg]
    have htyped : ∀ ds, I.Typed τ [ty, ty] ds ↔ ∃ x ∈ I.carrier (ty.vMap τ),
        ∃ y ∈ I.carrier (ty.vMap τ), ds = [x, y] := by
      intro ds
      constructor
      · rintro (_ | ⟨hx, _ | ⟨hy, _ | _⟩⟩)
        exact ⟨_, hx, _, hy, rfl⟩
      · rintro ⟨x, hx, y, hy, rfl⟩
        exact .cons hx (.cons hy .nil)
    have hval : ∀ x y, (I.eval τ (assign (assign ρ [(fc, F)])
        [(⟨⟨n⟩, ty⟩, x), (⟨⟨n + 1⟩, ty⟩, y)]) b
        (tbinop [] .tiff
          (tapp [] psEqu [tapp [] fsFuncApp [tapp [] fsFuncApp
            [tvar [] fc, tvar [] ⟨⟨n⟩, ty⟩] (some (tyFunc ty tyBool)),
            tvar [] ⟨⟨n + 1⟩, ty⟩] (some tyBool), tBoolTrue] none)
          (tapp [] r [tvar [] ⟨⟨n⟩, ty⟩, tvar [] ⟨⟨n + 1⟩, ty⟩] none))).2 ↔
        (I.relOf (ty.vMap τ) F x y ↔ I.pr r [x, y]) := by
      intro x y
      have h₀ : assign (assign ρ [(fc, F)]) [(⟨⟨n⟩, ty⟩, x), (⟨⟨n + 1⟩, ty⟩, y)] fc = F := by
        simp [assign_cons, hfc]
      have h₁ : assign (assign ρ [(fc, F)]) [(⟨⟨n⟩, ty⟩, x), (⟨⟨n + 1⟩, ty⟩, y)] ⟨⟨n⟩, ty⟩ = x := by
        simp [assign_cons]
      have h₂ : assign (assign ρ [(fc, F)]) [(⟨⟨n⟩, ty⟩, x), (⟨⟨n + 1⟩, ty⟩, y)] ⟨⟨n + 1⟩, ty⟩ =
          y := by
        simp [assign_cons]
      simp only [eval_tiff, eval_tapp_none, eval_tapp_some, map_cons, map_nil, eval_tvar,
        h₀, h₁, h₂, tBoolTrue, hI.equ, relOf]
      rfl
    constructor
    · intro hall x hx y hy
      exact (hval x y).mp (hall [x, y] ((htyped _).mpr ⟨x, hx, y, hy, rfl⟩))
    · intro hall ds hds
      obtain ⟨x, hx, y, hy, rfl⟩ := (htyped ds).mp hds
      exact (hval x y).mpr (hall x hx y hy)
  rw [eval_tEpsClose]
  obtain ⟨F, hF, hrel⟩ := hfun.exists_relOf hI hfree hbool (ty.vMap τ) fun x y => I.pr r [x, y]
  exact (hgF _).mp (hI.eps_spec _ {F | (I.eval τ (assign ρ [(fc, F)]) b g).2}
    ⟨F, hF, (hgF F).mpr hrel⟩)

end Closure

end Why3
