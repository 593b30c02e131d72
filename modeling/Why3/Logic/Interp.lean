import Why3.Core.Subst
import Mathlib.Data.Set.Basic
import Mathlib.Data.List.Forall2

/-!
# Interpretations and the meaning of terms

An interpretation gives a carrier to every type without variables, and a meaning
to the symbols. All carriers lie in one set of values. A polymorphic symbol may
depend on the types of its arguments: nothing prevents an interpretation from
using values that carry their type, so only the type of the result is passed.

The meaning of a term depends on types for the type variables, on values for the
free variables, and on a list of values for the indices. A term and a formula are
evaluated by one function; a formula has the value `dflt`, and a term is false.
-/

namespace Why3

structure Interp (D : Type) where
  carrier : Ty → Set D
  fn : LSymbol → Ty → List D → D
  pr : LSymbol → List D → Prop
  lit : Constant → Ty → D
  /-- A value of the set, if it has one. -/
  eps : Ty → Set D → D
  /-- The value of formulas. -/
  dflt : D

abbrev TyVal := TvSymbol → Ty

namespace Interp

variable {D : Type} (I : Interp D) (τ : TyVal)

def Typed (tyl : List Ty) (ds : List D) : Prop :=
  List.Forall₂ (fun ty d => d ∈ I.carrier (ty.vMap τ)) tyl ds

/-- The values that a list of bindings gives to variables. A variable without a
binding has an arbitrary value of its type. -/
def values (β : List (VSymbol × D)) (vl : List VSymbol) : List D :=
  vl.map fun v => (β.lookup v).getD (I.eps (v.vsTy.vMap τ) Set.univ)

section Match

open Classical

mutual

/-- The bindings under which a value matches a pattern, if it does. -/
noncomputable def matchPat : Pattern → D → Option (List (VSymbol × D))
  | .pwild _, _ => some []
  | .pvar v, d => some [(v, d)]
  | .papp fs pl ty, d =>
    if h : ∃ ds, I.Typed τ (pl.map Pattern.patTy) ds ∧ I.fn fs (ty.vMap τ) ds = d then
      matchPatList pl h.choose
    else none
  | .por p q, d => (matchPat p d).orElse fun _ => matchPat q d
  | .pas p v, d => (matchPat p d).map fun β => β ++ [(v, d)]

noncomputable def matchPatList : List Pattern → List D → Option (List (VSymbol × D))
  | [], [] => some []
  | p :: pl, d :: ds =>
    match matchPat p d, matchPatList pl ds with
    | some β, some β' => some (β ++ β')
    | _, _ => none
  | [], _ :: _ => none
  | _ :: _, [] => none

end

mutual

noncomputable def eval (ρ : VSymbol → D) : List D → Term → D × Prop
  | _, .tvar _ v => (ρ v, False)
  | b, .tbnd _ i _ => (b.getD i I.dflt, False)
  | _, .tconst _ c ty => (I.lit c (ty.vMap τ), False)
  | b, .tapp _ ls tl (some ty) => (I.fn ls (ty.vMap τ) (evalList ρ b tl), False)
  | b, .tapp _ ls tl none => (I.dflt, I.pr ls (evalList ρ b tl))
  | b, .tif _ f t e => if (eval ρ b f).2 then eval ρ b t else eval ρ b e
  | b, .tlet _ t _ e => eval ρ ((eval ρ b t).1 :: b) e
  | b, .tcase _ t bl => evalBranches ρ b (eval ρ b t).1 bl
  | b, .teps _ v f => (I.eps (v.vsTy.vMap τ) {d | (eval ρ (d :: b) f).2}, False)
  | b, .tquant _ .tforall vl _ f =>
    (I.dflt, ∀ ds, I.Typed τ (vl.map VSymbol.vsTy) ds → (eval ρ (ds ++ b) f).2)
  | b, .tquant _ .texists vl _ f =>
    (I.dflt, ∃ ds, I.Typed τ (vl.map VSymbol.vsTy) ds ∧ (eval ρ (ds ++ b) f).2)
  | b, .tbinop _ .tand f g => (I.dflt, (eval ρ b f).2 ∧ (eval ρ b g).2)
  | b, .tbinop _ .tor f g => (I.dflt, (eval ρ b f).2 ∨ (eval ρ b g).2)
  | b, .tbinop _ .timplies f g => (I.dflt, (eval ρ b f).2 → (eval ρ b g).2)
  | b, .tbinop _ .tiff f g => (I.dflt, ((eval ρ b f).2 ↔ (eval ρ b g).2))
  | b, .tnot _ f => (I.dflt, ¬ (eval ρ b f).2)
  | _, .ttrue _ => (I.dflt, True)
  | _, .tfalse _ => (I.dflt, False)

noncomputable def evalList (ρ : VSymbol → D) : List D → List Term → List D
  | _, [] => []
  | b, t :: tl => (eval ρ b t).1 :: evalList ρ b tl

/-- The branches are tried in order. If none matches then the last one is taken,
with arbitrary values for its variables. -/
noncomputable def evalBranches (ρ : VSymbol → D) :
    List D → D → List (Pattern × Term) → D × Prop
  | _, _, [] => (I.dflt, False)
  | b, d, [(p, t)] => eval ρ (I.values τ ((I.matchPat τ p d).getD []) p.vars ++ b) t
  | b, d, (p, t) :: c :: bl =>
    match I.matchPat τ p d with
    | some β => eval ρ (I.values τ β p.vars ++ b) t
    | none => evalBranches ρ b d (c :: bl)

end

end Match

noncomputable def val (ρ : VSymbol → D) (t : Term) : D := (I.eval τ ρ [] t).1

def Holds (ρ : VSymbol → D) (f : Term) : Prop := (I.eval τ ρ [] f).2

end Interp

end Why3
