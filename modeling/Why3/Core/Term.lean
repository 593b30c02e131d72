import Why3.Core.Symbol

/-!
# Patterns and terms

The syntax of terms and formulas, after `src/core/term.ml`. A bound variable is
an index that counts the enclosing binders from the inside; a binder keeps its
variables, which give the types and are what opening the binder starts from. A
pattern binds its variables in the order of `Pattern.vars`. The substitutions
that the source delays at binders are carried out at once.
-/

namespace Why3

open Lib List

inductive Pattern where
  | pwild (ty : Ty)
  | pvar (v : VSymbol)
  | papp (fs : LSymbol) (pl : List Pattern) (ty : Ty)
  | por (p q : Pattern)
  | pas (p : Pattern) (v : VSymbol)
  deriving Repr

namespace Pattern

instance : Inhabited Pattern := ⟨pwild default⟩

def patTy : Pattern → Ty
  | pwild ty => ty
  | pvar v => v.vsTy
  | papp _ _ ty => ty
  | por p _ => patTy p
  | pas _ v => v.vsTy

mutual

/-- The variables of a pattern, in the order in which they are bound. Both sides
of a disjunction have the same variables. -/
def vars : Pattern → List VSymbol
  | pwild _ => []
  | pvar v => [v]
  | papp _ pl _ => varsList pl
  | por p _ => vars p
  | pas p v => vars p ++ [v]

def varsList : List Pattern → List VSymbol
  | [] => []
  | p :: pl => vars p ++ varsList pl

end

/-- Induction over patterns, the arguments of a constructor being given one by one. -/
@[elab_as_elim] theorem inductionOn {P : Pattern → Prop} (p : Pattern)
    (pwild : ∀ ty, P (pwild ty)) (pvar : ∀ v, P (pvar v))
    (papp : ∀ fs pl ty, (∀ p ∈ pl, P p) → P (papp fs pl ty))
    (por : ∀ p q, P p → P q → P (por p q)) (pas : ∀ p v, P p → P (pas p v)) : P p :=
  @Pattern.rec P (fun pl => ∀ p ∈ pl, P p) pwild pvar papp por pas
    (by simp) (fun _ _ h hl => forall_mem_cons.mpr ⟨h, hl⟩) p

theorem varsList_eq_flatMap (pl : List Pattern) : varsList pl = pl.flatMap vars := by
  induction pl with
  | nil => rfl
  | cons p pl ih => rw [varsList, ih, flatMap_cons]

end Pattern

/-- Attributes, as far as a transformation looks at them. -/
inductive Attr where
  | asymSplit
  | stopSplit
  | caseSplit
  | compiled
  | annot
  | expl (s : String)
  | other (n : ℕ)
  deriving DecidableEq, Repr

/-- The value of a real literal: `rvSig * 2 ^ rvPow2 * 5 ^ rvPow5`. -/
structure RealValue where
  rvSig : ℤ
  rvPow2 : ℤ
  rvPow5 : ℤ
  deriving DecidableEq, Repr

/-- Literals. The notation that a literal was written in is not kept. -/
inductive Constant where
  | constInt (n : ℤ)
  | constReal (r : RealValue)
  | constStr (s : String)
  deriving DecidableEq, Repr

inductive Quant where
  | tforall
  | texists
  deriving DecidableEq, Repr

inductive Binop where
  | tand
  | tor
  | timplies
  | tiff
  deriving DecidableEq, Repr

inductive Term where
  | tvar (attrs : List Attr) (v : VSymbol)
  | tbnd (attrs : List Attr) (i : ℕ) (ty : Ty)
  | tconst (attrs : List Attr) (c : Constant) (ty : Ty)
  | tapp (attrs : List Attr) (ls : LSymbol) (tl : List Term) (ty : Option Ty)
  | tif (attrs : List Attr) (f t e : Term)
  | tlet (attrs : List Attr) (t : Term) (v : VSymbol) (e : Term)
  | tcase (attrs : List Attr) (t : Term) (bl : List (Pattern × Term))
  | teps (attrs : List Attr) (v : VSymbol) (f : Term)
  | tquant (attrs : List Attr) (q : Quant) (vl : List VSymbol) (trl : List (List Term))
      (f : Term)
  | tbinop (attrs : List Attr) (op : Binop) (f g : Term)
  | tnot (attrs : List Attr) (f : Term)
  | ttrue (attrs : List Attr)
  | tfalse (attrs : List Attr)
  deriving Repr

namespace Term

open List

instance : Inhabited Term := ⟨ttrue []⟩

/-- Induction over terms, the parts of a term in lists being given one by one. -/
@[elab_as_elim] theorem inductionOn {P : Term → Prop} (t : Term)
    (tvar : ∀ a v, P (tvar a v)) (tbnd : ∀ a i ty, P (tbnd a i ty))
    (tconst : ∀ a c ty, P (tconst a c ty))
    (tapp : ∀ a ls tl ty, (∀ t ∈ tl, P t) → P (tapp a ls tl ty))
    (tif : ∀ a f t e, P f → P t → P e → P (tif a f t e))
    (tlet : ∀ a t v e, P t → P e → P (tlet a t v e))
    (tcase : ∀ a t bl, P t → (∀ p u, (p, u) ∈ bl → P u) → P (tcase a t bl))
    (teps : ∀ a v f, P f → P (teps a v f))
    (tquant : ∀ a q vl trl f, (∀ tl ∈ trl, ∀ t ∈ tl, P t) → P f → P (tquant a q vl trl f))
    (tbinop : ∀ a op f g, P f → P g → P (tbinop a op f g))
    (tnot : ∀ a f, P f → P (tnot a f)) (ttrue : ∀ a, P (ttrue a))
    (tfalse : ∀ a, P (tfalse a)) : P t :=
  @Term.rec P (fun tl => ∀ t ∈ tl, P t) (fun bl => ∀ b ∈ bl, P b.2)
    (fun trl => ∀ tl ∈ trl, ∀ t ∈ tl, P t) (fun b => P b.2) tvar tbnd tconst tapp tif tlet
    (fun a t bl ht hbl => tcase a t bl ht fun p u h => hbl (p, u) h)
    teps tquant tbinop tnot ttrue tfalse
    (by simp) (fun _ _ h hl => forall_mem_cons.mpr ⟨h, hl⟩)
    (by simp) (fun _ _ h hl => forall_mem_cons.mpr ⟨h, hl⟩)
    (by simp) (fun _ _ h hl => forall_mem_cons.mpr ⟨h, hl⟩) (fun _ _ h => h) t

def tAttrs : Term → List Attr
  | tvar a _ | tbnd a _ _ | tconst a _ _ | tapp a _ _ _ | tif a _ _ _ | tlet a _ _ _
  | tcase a _ _ | teps a _ _ | tquant a _ _ _ _ | tbinop a _ _ _ | tnot a _ | ttrue a
  | tfalse a => a

def withAttrs (a : List Attr) : Term → Term
  | tvar _ v => tvar a v
  | tbnd _ i ty => tbnd a i ty
  | tconst _ c ty => tconst a c ty
  | tapp _ ls tl ty => tapp a ls tl ty
  | tif _ f t e => tif a f t e
  | tlet _ t v e => tlet a t v e
  | tcase _ t bl => tcase a t bl
  | teps _ v f => teps a v f
  | tquant _ q vl trl f => tquant a q vl trl f
  | tbinop _ op f g => tbinop a op f g
  | tnot _ f => tnot a f
  | ttrue _ => ttrue a
  | tfalse _ => tfalse a

mutual

/-- The type of a term, `none` for formulas. -/
def tTy : Term → Option Ty
  | tvar _ v => some v.vsTy
  | tbnd _ _ ty => some ty
  | tconst _ _ ty => some ty
  | tapp _ _ _ ty => ty
  | tif _ _ t _ => tTy t
  | tlet _ _ _ e => tTy e
  | tcase _ _ bl => tTyBranches bl
  | teps _ v _ => some v.vsTy
  | tquant _ _ _ _ _ | tbinop _ _ _ _ | tnot _ _ | ttrue _ | tfalse _ => none

def tTyBranches : List (Pattern × Term) → Option Ty
  | [] => none
  | (_, t) :: _ => tTy t

end

/-! ## Traversal of the variables -/

mutual

/-- Replace the variables of a term, free and bound, by terms that may depend on
the number of binders above. -/
def mapVars (free : ℕ → List Attr → VSymbol → Term) (bound : ℕ → List Attr → ℕ → Ty → Term) :
    ℕ → Term → Term
  | k, tvar a v => free k a v
  | k, tbnd a i ty => bound k a i ty
  | _, tconst a c ty => tconst a c ty
  | k, tapp a ls tl ty => tapp a ls (mapVarsList free bound k tl) ty
  | k, tif a f t e =>
    tif a (mapVars free bound k f) (mapVars free bound k t) (mapVars free bound k e)
  | k, tlet a t v e => tlet a (mapVars free bound k t) v (mapVars free bound (k + 1) e)
  | k, tcase a t bl => tcase a (mapVars free bound k t) (mapVarsBranches free bound k bl)
  | k, teps a v f => teps a v (mapVars free bound (k + 1) f)
  | k, tquant a q vl trl f =>
    tquant a q vl (mapVarsTriggers free bound (k + vl.length) trl)
      (mapVars free bound (k + vl.length) f)
  | k, tbinop a op f g => tbinop a op (mapVars free bound k f) (mapVars free bound k g)
  | k, tnot a f => tnot a (mapVars free bound k f)
  | _, ttrue a => ttrue a
  | _, tfalse a => tfalse a

def mapVarsList (free : ℕ → List Attr → VSymbol → Term)
    (bound : ℕ → List Attr → ℕ → Ty → Term) : ℕ → List Term → List Term
  | _, [] => []
  | k, t :: tl => mapVars free bound k t :: mapVarsList free bound k tl

def mapVarsBranches (free : ℕ → List Attr → VSymbol → Term)
    (bound : ℕ → List Attr → ℕ → Ty → Term) :
    ℕ → List (Pattern × Term) → List (Pattern × Term)
  | _, [] => []
  | k, (p, t) :: bl =>
    (p, mapVars free bound (k + p.vars.length) t) :: mapVarsBranches free bound k bl

def mapVarsTriggers (free : ℕ → List Attr → VSymbol → Term)
    (bound : ℕ → List Attr → ℕ → Ty → Term) : ℕ → List (List Term) → List (List Term)
  | _, [] => []
  | k, tl :: trl => mapVarsList free bound k tl :: mapVarsTriggers free bound k trl

end

/-! ## Equality up to the names of bound variables

Binders are compared by their number of variables alone, as in the source: the
types are compared where the variables occur. The flag `strict` says whether
attributes and triggers count. -/

mutual

/-- The right-hand sides of two disjunctions have the same shape, and bind their
variables, listed in `l1` and `l2`, at the same places. -/
def orEqual (l1 l2 : List VSymbol) : Pattern → Pattern → Bool
  | .pwild _, .pwild _ => true
  | .pvar v1, .pvar v2 => l1.idxOf v1 == l2.idxOf v2
  | .papp s1 pl1 _, .papp s2 pl2 _ => decide (s1 = s2) && orEqualList l1 l2 pl1 pl2
  | .por p1 q1, .por p2 q2 => orEqual l1 l2 p1 p2 && orEqual l1 l2 q1 q2
  | .pas p1 v1, .pas p2 v2 => orEqual l1 l2 p1 p2 && l1.idxOf v1 == l2.idxOf v2
  | _, _ => false

def orEqualList (l1 l2 : List VSymbol) : List Pattern → List Pattern → Bool
  | [], [] => true
  | p1 :: pl1, p2 :: pl2 => orEqual l1 l2 p1 p2 && orEqualList l1 l2 pl1 pl2
  | _, _ => false

end

mutual

def patEqual : Pattern → Pattern → Bool
  | .pwild _, .pwild _ => true
  | .pvar _, .pvar _ => true
  | .papp s1 pl1 _, .papp s2 pl2 _ => decide (s1 = s2) && patEqualList pl1 pl2
  | .por p1 q1, .por p2 q2 => patEqual p1 p2 && orEqual p1.vars p2.vars q1 q2
  | .pas p1 _, .pas p2 _ => patEqual p1 p2
  | _, _ => false

def patEqualList : List Pattern → List Pattern → Bool
  | [], [] => true
  | p1 :: pl1, p2 :: pl2 => patEqual p1 p2 && patEqualList pl1 pl2
  | _, _ => false

end

def nodeEqual (strict : Bool) (t1 t2 : Term) : Bool :=
  decide (t1.tTy = t2.tTy) && (!strict || decide (t1.tAttrs = t2.tAttrs))

mutual

def compareEqual (strict : Bool) : Term → Term → Bool
  | tvar a1 v1, tvar a2 v2 =>
    nodeEqual strict (tvar a1 v1) (tvar a2 v2) && decide (v1 = v2)
  | tbnd a1 i1 ty1, tbnd a2 i2 ty2 =>
    nodeEqual strict (tbnd a1 i1 ty1) (tbnd a2 i2 ty2) && i1 == i2
  | tconst a1 c1 ty1, tconst a2 c2 ty2 =>
    nodeEqual strict (tconst a1 c1 ty1) (tconst a2 c2 ty2) && decide (c1 = c2)
  | tapp a1 s1 l1 ty1, tapp a2 s2 l2 ty2 =>
    nodeEqual strict (tapp a1 s1 l1 ty1) (tapp a2 s2 l2 ty2) && decide (s1 = s2) &&
      compareEqualList strict l1 l2
  | tif a1 f1 t1 e1, tif a2 f2 t2 e2 =>
    nodeEqual strict (tif a1 f1 t1 e1) (tif a2 f2 t2 e2) && compareEqual strict f1 f2 &&
      compareEqual strict t1 t2 && compareEqual strict e1 e2
  | tlet a1 t1 v1 e1, tlet a2 t2 v2 e2 =>
    nodeEqual strict (tlet a1 t1 v1 e1) (tlet a2 t2 v2 e2) && compareEqual strict t1 t2 &&
      compareEqual strict e1 e2
  | tcase a1 t1 bl1, tcase a2 t2 bl2 =>
    nodeEqual strict (tcase a1 t1 bl1) (tcase a2 t2 bl2) && compareEqual strict t1 t2 &&
      compareEqualBranches strict bl1 bl2
  | teps a1 v1 f1, teps a2 v2 f2 =>
    nodeEqual strict (teps a1 v1 f1) (teps a2 v2 f2) && compareEqual strict f1 f2
  | tquant a1 q1 vl1 trl1 f1, tquant a2 q2 vl2 trl2 f2 =>
    nodeEqual strict (tquant a1 q1 vl1 trl1 f1) (tquant a2 q2 vl2 trl2 f2) &&
      decide (q1 = q2) && vl1.length == vl2.length &&
      (!strict || compareEqualTriggers strict trl1 trl2) && compareEqual strict f1 f2
  | tbinop a1 op1 f1 g1, tbinop a2 op2 f2 g2 =>
    nodeEqual strict (tbinop a1 op1 f1 g1) (tbinop a2 op2 f2 g2) && decide (op1 = op2) &&
      compareEqual strict g1 g2 && compareEqual strict f1 f2
  | tnot a1 f1, tnot a2 f2 =>
    nodeEqual strict (tnot a1 f1) (tnot a2 f2) && compareEqual strict f1 f2
  | ttrue a1, ttrue a2 => nodeEqual strict (ttrue a1) (ttrue a2)
  | tfalse a1, tfalse a2 => nodeEqual strict (tfalse a1) (tfalse a2)
  | _, _ => false

def compareEqualList (strict : Bool) : List Term → List Term → Bool
  | [], [] => true
  | t1 :: l1, t2 :: l2 => compareEqual strict t1 t2 && compareEqualList strict l1 l2
  | _, _ => false

def compareEqualBranches (strict : Bool) :
    List (Pattern × Term) → List (Pattern × Term) → Bool
  | [], [] => true
  | (p1, t1) :: bl1, (p2, t2) :: bl2 =>
    patEqual p1 p2 && compareEqual strict t1 t2 && compareEqualBranches strict bl1 bl2
  | _, _ => false

def compareEqualTriggers (strict : Bool) : List (List Term) → List (List Term) → Bool
  | [], [] => true
  | tl1 :: trl1, tl2 :: trl2 =>
    compareEqualList strict tl1 tl2 && compareEqualTriggers strict trl1 trl2
  | _, _ => false

end

def tEqual (t1 t2 : Term) : Bool := compareEqual false t1 t2

def tEqualStrict (t1 t2 : Term) : Bool := compareEqual true t1 t2

end Term

/-! ## Exceptions -/

/-- The exceptions of the core modules. The last two are not exceptions of the
source: `assertFailure` is a failed assertion or the failure of a function of the
standard library on a value outside its domain, and `outOfFuel` marks a recursion
that was given too little fuel. -/
inductive Exn where
  | badTypeArity (ts : TySymbol) (n : ℕ)
  | typeMismatch (ty1 ty2 : Ty)
  | badArity (ls : LSymbol) (n : ℕ)
  | functionSymbolExpected (ls : LSymbol)
  | predicateSymbolExpected (ls : LSymbol)
  | constructorExpected (ls : LSymbol)
  | duplicateVar (pl : List Pattern)
  | termExpected (t : Term)
  | fmlaExpected (t : Term)
  | patConstructorExpected (fs : LSymbol) (ty : Ty)
  | nonExhaustive (pl : List Pattern)
  | emptyCase
  | emptyDecl
  | emptyAlgDecl (ts : TySymbol)
  | emptyIndDecl (ls : LSymbol)
  | clashIdent (id : Ident)
  | illegalTypeAlias (ts : TySymbol)
  | badConstructor (ls : LSymbol)
  | badRecordField (ls : LSymbol)
  | recordFieldMissing (ls : LSymbol)
  | duplicateRecordField (ls : LSymbol)
  | unboundTypeVar (tv : TvSymbol)
  | nonPositiveTypeDecl (ts : TySymbol) (ls : LSymbol) (ty : Ty)
  | nonFoundedTypeDecl (ts : TySymbol)
  | unboundVar (v : VSymbol)
  | duplicateVarSymbol (v : VSymbol)
  | badLogicDecl (ls1 ls2 : LSymbol)
  | noTerminationProof (ls : LSymbol)
  | invalidIndDecl (ls : LSymbol) (pr : Ident)
  | nonPositiveIndDecl (ls : LSymbol) (pr : Ident) (ls1 : LSymbol)
  | knownIdent (id : Ident)
  | redeclaredIdent (id : Ident)
  | unknownIdent (id : Ident)
  | lemmaFound
  | goalFound
  | goalNotFound
  | argTrans (msg : String)
  | argTransType (msg : String) (ty1 ty2 : Ty)
  | cannotInferType (msg : String)
  | errorm (msg : String)
  | notFound
  | invalidArgument
  | assertFailure
  | outOfFuel

/-! ## Checked construction -/

/-- `Ty.ty_match`: matching that fails with the two types. -/
def tyMatchExn (s : TagMap TvSymbol Ty) (ty1 ty2 : Ty) : Except Exn (TagMap TvSymbol Ty) :=
  match tyMatch s ty1 ty2 with
  | some s' => .ok s'
  | none => .error (.typeMismatch (tyInst s ty1) ty2)

def Term.tType (t : Term) : Except Exn Ty :=
  match t.tTy with
  | some ty => .ok ty
  | none => .error (.termExpected t)

def matchArgs (fs : LSymbol) (n : ℕ) (s : TagMap TvSymbol Ty) :
    List Ty → List Pattern → Except Exn (TagMap TvSymbol Ty)
  | [], [] => .ok s
  | ty :: tyl, p :: pl => do matchArgs fs n (← tyMatchExn s ty p.patTy) tyl pl
  | [], _ :: _ => .error (.badArity fs n)
  | _ :: _, [] => .error (.badArity fs n)

def patApp (fs : LSymbol) (pl : List Pattern) (ty : Ty) : Except Exn Pattern := do
  let s ← match fs.lsValue with
    | some vty => tyMatchExn .empty vty ty
    | none => .error (.functionSymbolExpected fs)
  let _ ← matchArgs fs pl.length s fs.lsArgs pl
  if fs.lsConstr = 0 then .error (.constructorExpected fs)
  else if (Pattern.varsList pl).Nodup then .ok (.papp fs pl ty)
  else .error (.duplicateVar pl)

end Why3
