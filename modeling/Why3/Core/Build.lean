import Why3.Core.Subst
import Why3.Lib.ExceptFold

/-!
# Constructors with type checking

The constructors of `src/core/term.ml` that check the types of what they are
applied to.
-/

namespace Why3

open Lib List

namespace Term

def tProp (f : Term) : Except Exn Term :=
  match f.tTy with
  | none => .ok f
  | some _ => .error (.fmlaExpected f)

def tTyCheck (t : Term) (ty : Option Ty) : Except Exn Unit :=
  match ty, t.tTy with
  | some l, some r => if l = r then .ok () else .error (.typeMismatch l r)
  | some _, none => .error (.termExpected t)
  | none, some _ => .error (.fmlaExpected t)
  | none, none => .ok ()

def lsArgInst (ls : LSymbol) (tl : List Term) : Except Exn (TagMap TvSymbol Ty) :=
  if ls.lsArgs.length = tl.length then
    (ls.lsArgs.zip tl).foldlM (fun s a => do tyMatchExn s a.1 (← a.2.tType)) .empty
  else .error (.badArity ls tl.length)

def lsAppInst (ls : LSymbol) (tl : List Term) (ty : Option Ty) :
    Except Exn (TagMap TvSymbol Ty) := do
  let s ← lsArgInst ls tl
  match ls.lsValue, ty with
  | some _, none => .error (.predicateSymbolExpected ls)
  | none, some _ => .error (.functionSymbolExpected ls)
  | some vty, some ty => tyMatchExn s vty ty
  | none, none => .ok s

def tApp (ls : LSymbol) (tl : List Term) (ty : Option Ty) : Except Exn Term := do
  let _ ← lsAppInst ls tl ty
  .ok (tapp [] ls tl ty)

def tBinary (op : Binop) (f g : Term) : Except Exn Term := do
  .ok (tbinop [] op (← tProp f) (← tProp g))

def tEqu (t1 t2 : Term) : Except Exn Term := tApp psEqu [t1, t2] none

def tAppInfer (ls : LSymbol) (tl : List Term) : Except Exn Term := do
  let s ← lsArgInst ls tl
  .ok (tapp [] ls tl (ls.lsValue.map (tyInst s)))

def tCase (t : Term) (bl : List (Pattern × Term)) : Except Exn Term := do
  let tty ← t.tType
  match bl with
  | [] => .error .emptyCase
  | (_, t0) :: _ => do
    bl.forM fun br => do
      if tty = br.1.patTy then tTyCheck br.2 t0.tTy
      else .error (.typeMismatch tty br.1.patTy)
    .ok (tcase [] t bl)

def tForallClose (vl : List VSymbol) (trl : List (List Term)) (f : Term) : Except Exn Term :=
  if vl.isEmpty then tProp f else .ok (tQuantClose .tforall vl trl f)

/-! ## Type variables -/

end Term

mutual

def Pattern.tyFreevars : Pattern → List TvSymbol
  | .pwild ty => ty.freevars
  | .pvar v => v.vsTy.freevars
  | .papp _ pl ty => ty.freevars ++ Pattern.tyFreevarsList pl
  | .por p q => p.patTy.freevars ++ Pattern.tyFreevars p ++ Pattern.tyFreevars q
  | .pas p v => v.vsTy.freevars ++ Pattern.tyFreevars p

def Pattern.tyFreevarsList : List Pattern → List TvSymbol
  | [] => []
  | p :: pl => Pattern.tyFreevars p ++ Pattern.tyFreevarsList pl

end

theorem Pattern.tyFreevarsList_eq (pl : List Pattern) :
    tyFreevarsList pl = pl.flatMap tyFreevars := by
  induction pl with
  | nil => rfl
  | cons p pl ih => rw [tyFreevarsList, ih, flatMap_cons]

namespace Term

open List

mutual

def tyFreevars : Term → List TvSymbol
  | tvar _ v => v.vsTy.freevars
  | tbnd _ _ ty => ty.freevars
  | tconst _ _ ty => ty.freevars
  | tapp _ _ tl ty => ty.elim [] Ty.freevars ++ tyFreevarsList tl
  | tif _ f t e => tyFreevars f ++ tyFreevars t ++ tyFreevars e
  | tlet _ t _ e => tyFreevars t ++ tyFreevars e
  | tcase _ t bl => tyFreevars t ++ tyFreevarsBranches bl
  | teps _ v f => v.vsTy.freevars ++ tyFreevars f
  | tquant _ _ vl trl f =>
    (vl.flatMap fun v => v.vsTy.freevars) ++ tyFreevarsTriggers trl ++ tyFreevars f
  | tbinop _ _ f g => tyFreevars f ++ tyFreevars g
  | tnot _ f => tyFreevars f
  | ttrue _ => []
  | tfalse _ => []

def tyFreevarsList : List Term → List TvSymbol
  | [] => []
  | t :: tl => tyFreevars t ++ tyFreevarsList tl

def tyFreevarsBranches : List (Pattern × Term) → List TvSymbol
  | [] => []
  | (p, t) :: bl => p.tyFreevars ++ tyFreevars t ++ tyFreevarsBranches bl

def tyFreevarsTriggers : List (List Term) → List TvSymbol
  | [] => []
  | tl :: trl => tyFreevarsList tl ++ tyFreevarsTriggers trl

end

theorem mem_tyFreevarsList {tl : List Term} {v : TvSymbol} :
    v ∈ tyFreevarsList tl ↔ ∃ t ∈ tl, v ∈ t.tyFreevars := by
  induction tl with
  | nil => simp [tyFreevarsList]
  | cons t tl ih => simp [tyFreevarsList, ih]

mutual

theorem freevars_tTy : ∀ (t : Term) {ty : Ty}, t.tTy = some ty →
    ∀ v ∈ ty.freevars, v ∈ t.tyFreevars
  | tvar _ _, _, h, v, hv | tbnd _ _ _, _, h, v, hv | tconst _ _ _, _, h, v, hv => by
    cases h
    exact hv
  | tapp _ _ _ _, _, h, v, hv | teps _ _ _, _, h, v, hv => by
    cases h
    exact mem_append_left _ hv
  | tif _ _ t _, _, h, v, hv =>
    mem_append_left _ (mem_append_right _ (freevars_tTy t h v hv))
  | tlet _ _ _ e, _, h, v, hv => mem_append_right _ (freevars_tTy e h v hv)
  | tcase _ _ bl, _, h, v, hv => mem_append_right _ (freevars_tTyBranches bl h v hv)

theorem freevars_tTyBranches : ∀ (bl : List (Pattern × Term)) {ty : Ty}, tTyBranches bl = some ty →
    ∀ v ∈ ty.freevars, v ∈ tyFreevarsBranches bl
  | (_, t) :: _, _, h, v, hv =>
    mem_append_left _ (mem_append_right _ (freevars_tTy t h v hv))

end

/-! ## What the checks ensure -/

theorem tProp_eq_ok {f g : Term} : tProp f = .ok g ↔ f.tTy = none ∧ g = f := by
  unfold tProp
  cases f.tTy <;> simp [eq_comm]

theorem tApp_eq {ls : LSymbol} {tl : List Term} {ty : Option Ty} {t : Term}
    (h : tApp ls tl ty = .ok t) : t = tapp [] ls tl ty := by
  obtain ⟨_, _, h⟩ := bind_eq_ok.mp h
  exact (Except.ok.inj h).symm

theorem tBinary_eq {op : Binop} {f g t : Term} (h : tBinary op f g = .ok t) :
    t = tbinop [] op f g := by
  obtain ⟨f', hf, g', hg, h⟩ := bind₂_eq_ok.mp h
  rw [← Except.ok.inj h, (tProp_eq_ok.mp hf).2, (tProp_eq_ok.mp hg).2]

theorem tCase_spec {t u : Term} {bl : List (Pattern × Term)} (h : tCase t bl = .ok u) :
    u = tcase [] t bl ∧ bl ≠ [] := by
  obtain ⟨tty, _, h⟩ := bind_eq_ok.mp h
  cases bl with
  | nil => cases h
  | cons b bl =>
    obtain ⟨_, _, h⟩ := bind_eq_ok.mp h
    exact ⟨(Except.ok.inj h).symm, by simp⟩

theorem tTyCheck_eq {t : Term} {ty : Option Ty} (h : tTyCheck t ty = .ok ()) : t.tTy = ty := by
  unfold tTyCheck at h
  cases ty <;> cases ht : t.tTy <;> simp_all

end Term

end Why3
