import Why3.Logic.Boolean
import Why3.Logic.Lambda

/-!
# A standard interpretation

Integers are integers, booleans are booleans, the values of a type of mappings are all
mappings, and every other type has one value. Values carry their type.
-/

namespace Why3

open Interp List

/-! ## Values -/

def denFunc : List Type → Type
  | [A, B] => A → B
  | _ => Unit

/-- The values of a type symbol applied to types with the values `l`. -/
def denApp (ts : TySymbol) (l : List Type) : Type :=
  if ts = tsInt then ℤ
  else if ts = tsBool then Bool
  else if ts = tsFunc then denFunc l
  else Unit

mutual

def Ty.den : Ty → Type
  | .tyvar _ => Unit
  | .tyapp ts tl => denApp ts (Ty.denList tl)

def Ty.denList : List Ty → List Type
  | [] => []
  | ty :: tl => Ty.den ty :: Ty.denList tl

end

theorem den_int : tyInt.den = ℤ := by
  rw [tyInt, Ty.den, denApp, if_pos rfl]

theorem den_bool : tyBool.den = Bool := by
  rw [tyBool, Ty.den, denApp, if_neg (by decide), if_pos rfl]

theorem den_func (tyA tyB : Ty) : (tyFunc tyA tyB).den = (tyA.den → tyB.den) := by
  rw [tyFunc, Ty.den, denApp, if_neg (by decide), if_neg (by decide), if_pos rfl]
  rfl

theorem denApp_nonempty (ts : TySymbol) (tl : List Ty) (h : ∀ ty ∈ tl, Nonempty ty.den) :
    Nonempty (denApp ts (Ty.denList tl)) := by
  unfold denApp
  split
  · exact ⟨(0 : ℤ)⟩
  · split
    · exact ⟨false⟩
    · split
      · match tl, h with
        | [], _ => exact ⟨()⟩
        | [_], _ => exact ⟨()⟩
        | [tyA, tyB], h =>
          obtain ⟨b⟩ := h tyB (by simp)
          exact ⟨fun _ : tyA.den => b⟩
        | _ :: _ :: _ :: _, _ => exact ⟨()⟩
      · exact ⟨()⟩

theorem den_nonempty (ty : Ty) : Nonempty ty.den := by
  induction ty using Ty.inductionOn with
  | hvar tv => exact ⟨()⟩
  | happ ts tl ih => exact denApp_nonempty ts tl ih

abbrev StdVal := (ty : Ty) × ty.den

namespace StdVal

open List

noncomputable def any (ty : Ty) : StdVal := ⟨ty, (den_nonempty ty).some⟩

def ofInt (z : ℤ) : StdVal := ⟨tyInt, cast den_int.symm z⟩

def ofBool (b : Bool) : StdVal := ⟨tyBool, cast den_bool.symm b⟩

noncomputable def toInt (d : StdVal) : ℤ :=
  if h : d.1 = tyInt then cast (by rw [h, den_int]) d.2 else 0

open Classical in
noncomputable def app (tyB : Ty) (F x : StdVal) : StdVal :=
  if h : F.1 = tyFunc x.1 tyB then
    ⟨tyB, cast (by rw [h, den_func] : F.1.den = (x.1.den → tyB.den)) F.2 x.2⟩
  else any tyB

theorem ofInt_injective : Function.Injective ofInt := by
  intro a b h
  have h₂ := eq_of_heq (Sigma.mk.inj h).2
  exact (cast_bijective den_int.symm).injective h₂

theorem toInt_ofInt (z : ℤ) : toInt (ofInt z) = z := by
  unfold toInt ofInt
  rw [dif_pos rfl]
  simp

theorem ofInt_toInt {d : StdVal} (h : d.1 = tyInt) : ofInt (toInt d) = d := by
  obtain ⟨ty, d⟩ := d
  obtain rfl : ty = tyInt := h
  unfold toInt ofInt
  rw [dif_pos rfl]
  simp

theorem app_mk {tyA tyB : Ty} (g : tyA.den → tyB.den) (x : tyA.den) :
    app tyB ⟨tyFunc tyA tyB, cast (den_func tyA tyB).symm g⟩ ⟨tyA, x⟩ = ⟨tyB, g x⟩ := by
  unfold app
  rw [dif_pos rfl]
  simp

theorem fst_app (tyB : Ty) (F x : StdVal) : (app tyB F x).1 = tyB := by
  unfold app
  split <;> rfl

end StdVal

/-! ## Symbols -/

def intLe : LSymbol := ⟨⟨40⟩, [tyInt, tyInt], none, 0⟩

def intGe : LSymbol := ⟨⟨41⟩, [tyInt, tyInt], none, 0⟩

def intLt : LSymbol := ⟨⟨42⟩, [tyInt, tyInt], none, 0⟩

def intGt : LSymbol := ⟨⟨43⟩, [tyInt, tyInt], none, 0⟩

def intPl : LSymbol := ⟨⟨44⟩, [tyInt, tyInt], some tyInt, 0⟩

def intMn : LSymbol := ⟨⟨45⟩, [tyInt, tyInt], some tyInt, 0⟩

def wfAcc : LSymbol :=
  ⟨⟨46⟩, [tyFunc (.tyvar ⟨⟨47⟩⟩) (tyFunc (.tyvar ⟨⟨47⟩⟩) tyBool), .tyvar ⟨⟨47⟩⟩], none, 0⟩

namespace StdVal

open List

variable (fn : LSymbol → (ty : Ty) → List StdVal → ty.den) (pr : LSymbol → List StdVal → Prop)

noncomputable def intAt (ds : List StdVal) (i : ℕ) : ℤ := toInt (ds.getD i (ofInt 0))

/-- The meaning of function symbols, given that of the symbols without a fixed one. -/
noncomputable def stdFn (ls : LSymbol) (ty : Ty) (ds : List StdVal) : StdVal :=
  if ls = fsFuncApp then app ty (ds.getD 0 (any ty)) (ds.getD 1 (any ty))
  else if ls = fsBoolTrue ∧ ty = tyBool then ofBool true
  else if ls = fsBoolFalse ∧ ty = tyBool then ofBool false
  else if ls = intPl ∧ ty = tyInt then ofInt (intAt ds 0 + intAt ds 1)
  else if ls = intMn ∧ ty = tyInt then ofInt (intAt ds 0 - intAt ds 1)
  else ⟨ty, fn ls ty ds⟩

/-- The value is accessible for the relation that the mapping stands for. -/
def Accessible (F d : StdVal) : Prop :=
  Acc (fun y x : StdVal => y.1 = d.1 ∧
    app tyBool (app (tyFunc d.1 tyBool) F y) x = ofBool true) d

def stdPr (ls : LSymbol) (ds : List StdVal) : Prop :=
  if ls = psEqu then ds[0]? = ds[1]?
  else if ls = intLe then intAt ds 0 ≤ intAt ds 1
  else if ls = intGe then intAt ds 0 ≥ intAt ds 1
  else if ls = intLt then intAt ds 0 < intAt ds 1
  else if ls = intGt then intAt ds 0 > intAt ds 1
  else if ls = wfAcc then Accessible (ds.getD 0 (ofInt 0)) (ds.getD 1 (ofInt 0))
  else pr ls ds

noncomputable def stdLit : Constant → Ty → StdVal
  | .constInt z, ty => if ty = tyInt then ofInt z else any ty
  | _, ty => any ty

theorem fst_stdFn (ls : LSymbol) (ty : Ty) (ds : List StdVal) : (stdFn fn ls ty ds).1 = ty := by
  unfold stdFn
  split_ifs with h₁ h₂ h₃ h₄ h₅
  · exact fst_app _ _ _
  · exact h₂.2.symm
  · exact h₃.2.symm
  · exact h₄.2.symm
  · exact h₅.2.symm
  · rfl

theorem fst_stdLit (c : Constant) (ty : Ty) : (stdLit c ty).1 = ty := by
  cases c with
  | constInt z =>
    rw [stdLit]
    split
    · next h => exact h.symm
    · rfl
  | _ => rfl

end StdVal

open StdVal

open Classical in
noncomputable def stdInterp (fn : LSymbol → (ty : Ty) → List StdVal → ty.den)
    (pr : LSymbol → List StdVal → Prop) : Interp StdVal where
  carrier ty := {d | d.1 = ty}
  fn := stdFn fn
  pr := stdPr pr
  lit := stdLit
  eps ty s := if h : ∃ d : StdVal, d.1 = ty ∧ d ∈ s then h.choose else any ty
  dflt := ofInt 0

section Std

open List

variable (fn : LSymbol → (ty : Ty) → List StdVal → ty.den) (pr : LSymbol → List StdVal → Prop)

open Classical in
theorem stdInterp_sound : (stdInterp fn pr).Sound where
  nonempty ty := ⟨any ty, rfl⟩
  fn ls vty τ ds _ _ := fst_stdFn fn ls _ ds
  lit := fst_stdLit
  eps_mem ty s := by
    change (if h : ∃ d : StdVal, d.1 = ty ∧ d ∈ s then h.choose else any ty).1 = ty
    split
    · next h => exact h.choose_spec.1
    · rfl
  eps_spec ty s := by
    rintro ⟨d, hd, hs⟩
    have h : ∃ d : StdVal, d.1 = ty ∧ d ∈ s := ⟨d, hd, hs⟩
    change (if h : ∃ d : StdVal, d.1 = ty ∧ d ∈ s then h.choose else any ty) ∈ s
    rw [dif_pos h]
    exact h.choose_spec.2
  eps_local ty s := choose_congr (any ty) (funext fun d => propext
    ⟨fun h => ⟨h.1, h.2.2⟩, fun h => ⟨h.1, h.1, h.2⟩⟩)
  equ d d' := by simp [stdInterp, stdPr]

theorem stdFn_true : stdFn fn fsBoolTrue tyBool [] = ofBool true := by
  simp [stdFn, fsBoolTrue, fsFuncApp]

theorem stdFn_false : stdFn fn fsBoolFalse tyBool [] = ofBool false := by
  simp [stdFn, fsBoolTrue, fsBoolFalse, fsFuncApp]

theorem ofBool_injective : Function.Injective ofBool := by
  intro a b h
  exact (cast_bijective den_bool.symm).injective (eq_of_heq (Sigma.mk.inj h).2)

theorem exists_ofBool (d : tyBool.den) : ∃ b, ofBool b = ⟨tyBool, d⟩ :=
  ⟨cast den_bool d, by simp [ofBool]⟩

theorem stdInterp_free : (stdInterp fn pr).Free boolSig where
  inj := by
    intro ts tl cs ds ds' _ hcs hds hds' _
    obtain ⟨rfl, rfl | rfl⟩ := mem_constrs_boolSig hcs <;> cases hds <;> cases hds' <;> rfl
  disjoint := by
    intro ts tl cs cs' ds ds' hl hcs hcs' hne hds hds' heq
    obtain ⟨rfl, h⟩ := mem_constrs_boolSig hcs
    obtain ⟨_, h'⟩ := mem_constrs_boolSig hcs'
    obtain rfl : tl = [] := length_eq_zero_iff.mp hl
    have htrue : (stdInterp fn pr).fn fsBoolTrue tyBool [] = ofBool true := stdFn_true fn
    have hfalse : (stdInterp fn pr).fn fsBoolFalse tyBool [] = ofBool false := stdFn_false fn
    rcases h with rfl | rfl <;> rcases h' with rfl | rfl <;> cases hds <;> cases hds'
    · exact hne rfl
    · exact absurd (ofBool_injective (htrue.symm.trans (heq.trans hfalse))) (by decide)
    · exact absurd (ofBool_injective (hfalse.symm.trans (heq.trans htrue))) (by decide)
    · exact hne rfl
  cover := by
    rintro ts tl ⟨ty, d⟩ hl hne rfl
    have hts : ts = tsBool := by
      obtain ⟨cs, hcs⟩ := exists_mem_of_ne_nil _ hne
      exact (mem_constrs_boolSig hcs).1
    subst hts
    obtain rfl : tl = [] := length_eq_zero_iff.mp hl
    obtain ⟨b, hb⟩ := exists_ofBool d
    cases b with
    | false => exact ⟨fsBoolFalse, by simp [boolSig], [], .nil, (stdFn_false fn).trans hb⟩
    | true => exact ⟨fsBoolTrue, by simp [boolSig], [], .nil, (stdFn_true fn).trans hb⟩

theorem stdInterp_functional : (stdInterp fn pr).Functional := by
  intro tyA tyB g hg
  have hg' : ∀ x : tyA.den, (g ⟨tyA, x⟩).1 = tyB := fun x => hg ⟨tyA, x⟩ rfl
  let G : tyA.den → tyB.den := fun x => cast (by rw [hg' x]) (g ⟨tyA, x⟩).2
  refine ⟨⟨tyFunc tyA tyB, cast (den_func tyA tyB).symm G⟩, rfl, ?_⟩
  rintro ⟨ty, x⟩ rfl
  change stdFn fn fsFuncApp tyB [_, ⟨ty, x⟩] = g ⟨ty, x⟩
  rw [stdFn, if_pos rfl]
  change app tyB ⟨tyFunc ty tyB, _⟩ ⟨ty, x⟩ = _
  rw [app_mk]
  exact Sigma.ext (hg' x).symm (cast_heq _ _)

end Std

end Why3
