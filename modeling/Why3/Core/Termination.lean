import Why3.Core.Decl
import Why3.Core.Build
import Mathlib.Algebra.Order.Ring.Nat

/-!
# Termination of recursive definitions

The check of `src/core/decl.ml` that a group of definitions terminates. The calls of
a symbol of the group are described by vectors that relate each argument of a call
to an argument of the definition the call stands in. The descriptions of all ways
from a symbol back to itself are then computed, and a lexicographic order is looked
for in which all of them decrease.

Binders are opened with variables numbered from a counter; instead of replacing the
indices of the term, the list of the opened variables is passed along.
-/

namespace Why3

open Lib

/-! ## Definitions -/

def checkFvs (f : Term) : Except Exn Term := do
  f.freeVars.forM fun v => .error (.unboundVar v)
  f.tProp

open Term in
theorem checkFvs_eq_ok {f g : Term} (h : checkFvs f = .ok g) : f.freeVars = [] ∧ g = f := by
  obtain ⟨_, hfv, h⟩ := bind_eq_ok.mp h
  refine ⟨?_, (tProp_eq_ok.mp h).2⟩
  cases hf : f.freeVars with
  | nil => rfl
  | cons v vl =>
    rw [hf] at hfv
    cases hfv

def equOrIff (hd t : Term) : Except Exn Term :=
  if t.tTy = none then Term.tBinary .tiff hd t else Term.tEqu hd t

def lsDefnAxiom (ls : LSymbol) (vl : List VSymbol) (t : Term) : Except Exn (Term × Term) := do
  let hd ← Term.tApp ls (vl.map (.tvar [])) t.tTy
  let bd ← equOrIff hd t
  .ok (hd, ← checkFvs (← Term.tForallClose vl [] bd))

def makeLsDefn (ls : LSymbol) (vl : List VSymbol) (t : Term) : Except Exn LogicDecl := do
  let _ ← vl.foldlM (fun s v => if v ∈ s then .error (.duplicateVarSymbol v) else .ok (v :: s)) []
  let (hd, fd) ← lsDefnAxiom ls vl t
  (t.tyFreevars.filter fun tv => decide (tv ∉ hd.tyFreevars)).forM fun tv =>
    .error (.unboundTypeVar tv)
  if ls.lsArgs.length = vl.length then
    (ls.lsArgs.zip vl).forM fun a => tyEqualCheck a.1 a.2.vsTy
  else .error .assertFailure
  t.tTyCheck ls.lsValue
  .ok (ls, ls, fd, [])

def openLsDefn (ld : LsDefn) : Except Exn (List VSymbol × Term) := do
  let vl := match ld.2.1 with
    | .tquant _ .tforall vl _ _ => vl
    | _ => []
  .ok (vl, ← lsDefnBody ld)

/-! ## Descriptions -/

/-- What an argument of a call is with respect to the arguments of the caller. -/
inductive Descent where
  | less (i : ℕ)
  | equal (i : ℕ)
  | unknown
  deriving DecidableEq, Repr

/-- The calls, under the symbol that is called: the caller and a description of the
arguments. A call that is added last is found first. -/
abbrev CallSet := List (LSymbol × LSymbol × List Descent)

/-- What is known of the variables, in each of several alternatives. -/
abbrev VsGraph := List (TagMap VSymbol Descent)

def findAll {κ α : Type} [DecidableEq κ] (m : List (κ × α)) (k : κ) : List α :=
  m.filterMap fun b => if b.1 = k then some b.2 else none

/-! ## Variables -/

def createVsGraph (vl : List VSymbol) : VsGraph :=
  [vl.zipIdx.foldl (fun vm b => vm.add b.1 (.equal b.2)) .empty]

def termVar (b : List VSymbol) : Term → Option VSymbol
  | .tvar _ v => some v
  | .tbnd _ i _ => b[i]?
  | _ => none

def describe (b : List VSymbol) (vm : TagMap VSymbol Descent) (t : Term) : Descent :=
  match termVar b t with
  | some v => vm.findDef .unknown v
  | none => .unknown

def registerCall (cgr : CallSet) (caller : LSymbol) (b : List VSymbol) (vsg : VsGraph)
    (callee : LSymbol) (tl : List Term) : CallSet :=
  vsg.foldl (fun cgr vm => (callee, caller, tl.map (describe b vm)) :: cgr) cgr

def vsGraphDrop (vsg : VsGraph) (u : VSymbol) : VsGraph := (vsg.map (TagMap.remove u)).reverse

def vsGraphLet (b : List VSymbol) (vsg : VsGraph) (t : Term) (u : VSymbol) : VsGraph :=
  match termVar b t with
  | some v =>
    (vsg.map fun vm => match vm.find? v with
      | some d => vm.add u d
      | none => vm.remove u).reverse
  | none => vsGraphDrop vsg u

/-- What is below something that is at most an argument is less than it. -/
def Descent.toLess : Descent → Descent
  | .unknown => .unknown
  | .equal i => .less i
  | .less i => .less i

def matchVar (link : Descent) (acc : VsGraph) : Pattern → VsGraph
  | .pwild _ => acc
  | .pvar u => (acc.map fun vm => vm.add u link).reverse
  | .pas p u => ((matchVar link acc p).map fun vm => vm.add u link).reverse
  | .por p1 p2 => (matchVar link acc p1).reverse ++ matchVar link acc p2
  | .papp fs pl ty =>
    (acc.map fun vm =>
      (Pattern.vars (.papp fs pl ty)).foldl (fun vm u => vm.add u link.toLess) vm).reverse

def dropVars (acc : VsGraph) (vl : List VSymbol) : VsGraph :=
  (acc.map fun vm => vm.setDiff vl).reverse

section MatchTerm

variable (b : List VSymbol) (vm : TagMap VSymbol Descent)

def termLink (t : Term) : Option Descent := (termVar b t).bind vm.find?

mutual

def matchTerm : Term → VsGraph → Pattern → VsGraph
  | _, acc, .pwild _ => acc
  | t, acc, .pvar u =>
    match termLink b vm t with
    | some link => matchVar link acc (.pvar u)
    | none =>
      match t with
      | .tapp _ _ _ _ => vsGraphDrop acc u
      | _ => dropVars acc [u]
  | t, acc, .pas p u =>
    match termLink b vm t with
    | some link => matchVar link acc (.pas p u)
    | none =>
      match t with
      | .tapp _ _ _ _ => matchTerm t (vsGraphDrop acc u) p
      | _ => dropVars acc (Pattern.vars (.pas p u))
  | t, acc, .por p1 p2 =>
    match termLink b vm t with
    | some link => matchVar link acc (.por p1 p2)
    | none =>
      match t with
      | .tapp _ _ _ _ => (matchTerm t acc p1).reverse ++ matchTerm t acc p2
      | _ => dropVars acc (Pattern.vars (.por p1 p2))
  | t, acc, .papp c2 pl ty =>
    match termLink b vm t with
    | some link => matchVar link acc (.papp c2 pl ty)
    | none =>
      match t with
      | .tapp _ c1 tl _ =>
        if c1 = c2 then matchTerms tl acc pl
        else dropVars acc (Pattern.vars (.papp c2 pl ty))
      | _ => dropVars acc (Pattern.vars (.papp c2 pl ty))

def matchTerms : List Term → VsGraph → List Pattern → VsGraph
  | t :: tl, acc, p :: pl => matchTerms tl (matchTerm t acc p) pl
  | _, acc, _ => acc

end

end MatchTerm

def vsGraphPat (b : List VSymbol) (vsg : VsGraph) (t : Term) (p : Pattern) : VsGraph :=
  vsg.foldl (fun acc vm => (matchTerm b vm t [vm] p).reverse ++ acc) []

/-! ## Calls -/

def freshLike (n : ℕ) : List VSymbol → List VSymbol
  | [] => []
  | v :: vl => ⟨⟨n⟩, v.vsTy⟩ :: freshLike (n + 1) vl

namespace Pattern

mutual

def rename (f : VSymbol → VSymbol) : Pattern → Pattern
  | pwild ty => pwild ty
  | pvar v => pvar (f v)
  | papp fs pl ty => papp fs (renameList f pl) ty
  | por p q => por (rename f p) (rename f q)
  | pas p v => pas (rename f p) (f v)

def renameList (f : VSymbol → VSymbol) : List Pattern → List Pattern
  | [] => []
  | p :: pl => rename f p :: renameList f pl

end

def freshVar (vl ul : List VSymbol) (v : VSymbol) : VSymbol := ((vl.zip ul).lookup v).getD v

def fresh (n : ℕ) (p : Pattern) : Pattern := p.rename (freshVar p.vars (freshLike n p.vars))

end Pattern

section BuildCallGraph

variable (syms : LSymbol → Bool) (ls : LSymbol)

mutual

def callsTerm (vsg : VsGraph) (b : List VSymbol) (n : ℕ) : Term → CallSet → CallSet
  | .tvar _ _, cgr | .tbnd _ _ _, cgr | .tconst _ _ _, cgr | .ttrue _, cgr | .tfalse _, cgr => cgr
  | .tapp _ s tl _, cgr =>
    let cgr := callsTerms vsg b n tl cgr
    if syms s then registerCall cgr ls b vsg s tl else cgr
  | .tif _ f t e, cgr =>
    callsTerm vsg b n e (callsTerm vsg b n t (callsTerm vsg b n f cgr))
  | .tlet _ t v e, cgr =>
    let u : VSymbol := ⟨⟨n⟩, v.vsTy⟩
    callsTerm (vsGraphLet b vsg t u) (u :: b) (n + 1) e (callsTerm vsg b n t cgr)
  | .tcase _ t bl, cgr => callsBranches vsg b n t bl (callsTerm vsg b n t cgr)
  | .teps _ v f, cgr => callsTerm vsg (freshLike n [v] ++ b) (n + 1) f cgr
  | .tquant _ _ vl _ f, cgr => callsTerm vsg (freshLike n vl ++ b) (n + vl.length) f cgr
  | .tbinop _ _ f g, cgr => callsTerm vsg b n g (callsTerm vsg b n f cgr)
  | .tnot _ f, cgr => callsTerm vsg b n f cgr

def callsTerms (vsg : VsGraph) (b : List VSymbol) (n : ℕ) : List Term → CallSet → CallSet
  | [], cgr => cgr
  | t :: tl, cgr => callsTerms vsg b n tl (callsTerm vsg b n t cgr)

def callsBranches (vsg : VsGraph) (b : List VSymbol) (n : ℕ) (t : Term) :
    List (Pattern × Term) → CallSet → CallSet
  | [], cgr => cgr
  | (p, e) :: bl, cgr =>
    callsBranches vsg b n t bl
      (callsTerm (vsGraphPat b vsg t (p.fresh n)) (freshLike n p.vars ++ b)
        (n + p.vars.length) e cgr)

end

def buildCallGraph (cgr : CallSet) (vl : List VSymbol) (e : Term) : CallSet :=
  let ul := freshLike 0 vl
  callsTerm syms ls (createVsGraph ul) ul vl.length e cgr

end BuildCallGraph

/-! ## Ways back to a symbol -/

def Descent.localAt (i : ℕ) : Descent → Descent
  | .less j => if i = j then .less j else .unknown
  | .equal j => if i = j then .equal j else .unknown
  | .unknown => .unknown

def localVec (v : List Descent) : List Descent := v.mapIdx Descent.localAt

def Descent.sbs : Descent → Descent → Bool
  | _, .unknown => true
  | .equal u1, .equal u2 => decide (u1 = u2)
  | .less u1, .equal u2 => decide (u1 = u2)
  | .less u1, .less u2 => decide (u1 = u2)
  | _, _ => false

/-- The second vector says no more than the first. Both have the same length. -/
def subsumes : List Descent → List Descent → Bool
  | [], _ => true
  | d1 :: v1, d2 :: v2 => d1.sbs d2 && subsumes v1 v2
  | _ :: _, [] => false

def subsumed (htb : List (LSymbol × List Descent)) (s : LSymbol) (c : List Descent) : Bool :=
  (findAll htb s).any (subsumes c)

/-- The arguments that `v1` describes, by what `v2` says of those it refers to. -/
def multiply (v1 v2 : List Descent) : List Descent :=
  v1.map fun
    | .unknown => .unknown
    | .equal i => v2.getD i .unknown
    | .less i => (v2.getD i .unknown).toLess

def resolve (cgr : CallSet) (s : LSymbol) (c : List Descent) : List (LSymbol × List Descent) :=
  ((findAll cgr s).map fun sv => (sv.1, multiply c sv.2)).reverse

def addCall (cgr : CallSet) (id : LSymbol) :
    ℕ → List (LSymbol × List Descent) → List (List Descent) → List (LSymbol × List Descent) →
      Except Exn (List (List Descent))
  | 0, _, _, _ => .error .outOfFuel
  | _ + 1, _, lc, [] => .ok lc
  | fuel + 1, htb, lc, (s, c) :: r =>
    if s = id then addCall cgr id fuel htb (localVec c :: lc) r
    else if subsumed htb s c then addCall cgr id fuel htb lc r
    else addCall cgr id fuel ((s, c) :: htb) lc ((resolve cgr s c).reverse ++ r)

def Descent.bound : Descent → ℕ
  | .less i => i + 1
  | .equal i => i + 1
  | .unknown => 0

/-- No vector of a symbol is resolved twice: the number of vectors bounds the steps. -/
def callFuel (cgr : CallSet) : ℕ :=
  let m := (cgr.map fun c => (c.2.2.map Descent.bound).foldr max 0).foldr max 0
  let k := (cgr.map fun c => c.2.2.length).foldr max 0
  cgr.length * (2 * m + 2) ^ k * (cgr.length + 1) + cgr.length + 1

def buildCallList (cgr : CallSet) (id : LSymbol) : Except Exn (List (List Descent)) :=
  addCall cgr id (callFuel cgr) [] [] (findAll cgr id)

/-! ## Variants -/

def Descent.add : Descent → Descent → Descent
  | .unknown, _ => .unknown
  | _, .unknown => .unknown
  | .less i, _ => .less i
  | _, .less i => .less i
  | .equal i, .equal _ => .equal i

def addVec (v1 v2 : List Descent) : List Descent :=
  v1.mapIdx fun i d1 => d1.add (v2.getD i .unknown)

def findLess (l : List ℕ) : Descent → List ℕ
  | .less i => i :: l
  | _ => l

def decreasing (p : List Descent) : List ℕ := p.foldl findLess []

def keeps (res : List ℕ) (a : List Descent) : Bool :=
  res.all fun i => decide (a.getD i .unknown ≠ .less i)

/-- Find positions that never increase and of which one decreases, set aside the
ways that decrease there, and go on with the others. -/
def checkVariant (exn : Exn) : ℕ → List ℕ → List (List Descent) → Except Exn (List ℕ)
  | _, acc, [] => .ok acc.reverse
  | 0, _, _ :: _ => .error .outOfFuel
  | fuel + 1, acc, a :: r =>
    let res := decreasing (r.foldl addVec a)
    if res.isEmpty then .error exn
    else checkVariant exn fuel (res.reverse ++ acc) ((a :: r).filter (keeps res))

def findVariant (exn : Exn) (cgr : CallSet) (id : LSymbol) : Except Exn (List ℕ) := do
  let cl ← buildCallList cgr id
  checkVariant exn cl.length [] cl

/-! ## The check -/

def openLogicDecls (ldl : List LogicDecl) : Except Exn (TagMap LSymbol (List VSymbol × Term)) :=
  ldl.foldlM (fun syms ld => do .ok (syms.add ld.1 (← openLsDefn ld.2))) .empty

def callGraph (syms : TagMap LSymbol (List VSymbol × Term)) : CallSet :=
  syms.fold (fun ls d cgr => buildCallGraph syms.mem ls cgr d.1 d.2) []

def variants (syms : TagMap LSymbol (List VSymbol × Term)) :
    Except Exn (TagMap LSymbol (List ℕ)) :=
  let cgr := callGraph syms
  syms.foldM (fun ls _ res => do
    .ok (res.add ls (← findVariant (.noTerminationProof ls) cgr ls))) .empty

def setVariant (res : TagMap LSymbol (List ℕ)) (ld : LogicDecl) : Except Exn LogicDecl :=
  match res.find? ld.1 with
  | some pl => .ok (ld.1, ld.1, ld.2.2.1, pl)
  | none => .error .notFound

def checkTermination (ldl : List LogicDecl) : Except Exn (List LogicDecl) := do
  let syms ← openLogicDecls ldl
  let res ← variants syms
  ldl.mapM (setVariant res)

def createLogicDecl (ldl : List LogicDecl) : Except Exn Decl :=
  if ldl.isEmpty then .error .emptyDecl
  else do
    let _ ← ldl.foldlM (fun news ld =>
      if ld.2.1 = ld.1 then newsId news (.ls ld.1) else .error (.badLogicDecl ld.1 ld.2.1)) []
    .ok (.dlogic (← checkTermination ldl))

end Why3
