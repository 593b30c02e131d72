import Why3.Core.Inductive
import Why3.Core.MapLs
import Why3.Core.TySubst
import Why3.Core.Lambda

/-!
# Induction and inversion on inductive predicates

After `src/transform/induction_pr.ml`. The goal is a chain of quantifiers, local
definitions and implications, one of which has an inductive predicate as its premise.
The part of the chain in front of it is its context. There is a new goal for each clause
of the predicate, in which the conclusion and the recursive premises of the clause stand
for the goal with the arguments of the predicate generalised.

The exception `Ind_not_found` is the result `none`, and a hole is the empty context.
Variables that are created on the way are numbered from an argument on.
-/

namespace Why3

open Lib Term

/-! ## Contexts -/

inductive ContextNode where
  | clet (vs : VSymbol) (t : Term)
  | cforall (vsl : List VSymbol)
  | cimplies (t : Term)

structure ContextLevel where
  cNode : ContextNode
  cAttrs : List Attr

/-- The levels of a context, the outermost or the innermost one first. -/
abbrev Context := List ContextLevel

/-- The application of an inductive predicate, with the clauses of the predicate. -/
abbrev Located := LSymbol × List Term × List (PrSymbol × Term)

def addLevel (c : ContextLevel) : Option (Context × Located × Term) →
    Option (Context × Located × Term) :=
  Option.map fun (ctx, ind, goal) => (c :: ctx, ind, goal)

/-- Look for the premise to work on: the first one with the attribute if there is one,
and the first inductive one otherwise, if `findAny` says so. The variables `ul` are those
that the enclosing binders were opened with. -/
def locateInductive (kn : KnownMap) (attr : Attr) :
    ℕ → List VSymbol → Bool → Term → Except Exn (Option (Context × Located × Term))
  | n, ul, findAny, tlet a t1 v t2 => do
    let vs : VSymbol := ⟨⟨n⟩, v.vsTy⟩
    let r ← locateInductive kn attr (n + 1) (vs :: ul) findAny t2
    .ok (addLevel ⟨.clet vs (openVars ul t1), a⟩ r)
  | n, ul, findAny, tquant a .tforall vl _ t1 => do
    let vsl := freshOf n (vl.map VSymbol.vsTy)
    let r ← locateInductive kn attr (n + vl.length) (vsl ++ ul) findAny t1
    .ok (addLevel ⟨.cforall vsl, a⟩ r)
  | n, ul, findAny, tbinop a .timplies lhs rhs =>
    let locateRhs (findAny : Bool) : Except Exn (Option (Context × Located × Term)) := do
      let r ← locateInductive kn attr n ul findAny rhs
      .ok (addLevel ⟨.cimplies (openVars ul lhs), a⟩ r)
    let hasAttr := decide (attr ∈ lhs.tAttrs)
    if findAny || hasAttr then
      match lhs with
      | tapp _ ls argl _ =>
        match kn.find? (.ls ls) with
        | some (.dind .ind dl) => do
          let cl ← assq ls dl
          let found := some ([], (ls, argl.map (openVars ul), cl), openVars ul rhs)
          if findAny && !hasAttr then do
            match ← locateRhs false with
            | some r => .ok (some r)
            | none => .ok found
          else .ok found
        | some (.dtype _) => .error .assertFailure
        | some (.dprop _ _ _) => .error .assertFailure
        | some _ => locateRhs findAny
        | none => .error .notFound
      | _ => locateRhs findAny
    else locateRhs findAny
  | _, _, _, _ => .ok none

def locate (kn : KnownMap) (attr : Attr) (n : ℕ) (t : Term) :
    Except Exn (Option (Context × Located × Term)) :=
  locateInductive kn attr n [] true t

/-! ## Parameters -/

/-- What is known of an argument of the predicate in the applications seen so far. -/
inductive Matching where
  | any
  | equal (t : Term)
  | nothing

def matching : Matching → Term → Matching
  | .any, b => .equal b
  | .equal a, b => if tEqual a b then .equal a else .nothing
  | .nothing, _ => .nothing

mutual

/-- Compare the arguments of all applications of `ls`. Every binder is opened with new
variables. -/
def explore (ls : LSymbol) (ul : List VSymbol) : Term → ℕ × List Matching → ℕ × List Matching
  | tapp _ ls2 args _, (n, l) =>
    let l := if ls2 = ls then List.zipWith matching l (args.map (openVars ul)) else l
    exploreList ls ul args (n, l)
  | tif _ f t e, s => explore ls ul e (explore ls ul t (explore ls ul f s))
  | tlet _ t v e, s =>
    let (n, l) := explore ls ul t s
    explore ls (⟨⟨n⟩, v.vsTy⟩ :: ul) e (n + 1, l)
  | tcase _ t bl, s => exploreBranches ls ul bl (explore ls ul t s)
  | teps _ v f, (n, l) => explore ls (⟨⟨n⟩, v.vsTy⟩ :: ul) f (n + 1, l)
  | tquant _ _ vl trl f, (n, l) =>
    let vl' := freshOf n (vl.map VSymbol.vsTy) ++ ul
    exploreTriggers ls vl' trl (explore ls vl' f (n + vl.length, l))
  | tbinop _ _ f g, s => explore ls ul g (explore ls ul f s)
  | tnot _ f, s => explore ls ul f s
  | _, s => s

def exploreList (ls : LSymbol) (ul : List VSymbol) :
    List Term → ℕ × List Matching → ℕ × List Matching
  | [], s => s
  | t :: tl, s => exploreList ls ul tl (explore ls ul t s)

def exploreBranches (ls : LSymbol) (ul : List VSymbol) :
    List (Pattern × Term) → ℕ × List Matching → ℕ × List Matching
  | [], s => s
  | (p, t) :: bl, (n, l) =>
    let vl' := freshOf n (p.vars.map VSymbol.vsTy)
    exploreBranches ls ul bl (explore ls (vl' ++ ul) t (n + p.vars.length, l))

def exploreTriggers (ls : LSymbol) (ul : List VSymbol) :
    List (List Term) → ℕ × List Matching → ℕ × List Matching
  | [], s => s
  | tl :: trl, s => exploreTriggers ls ul trl (exploreList ls ul tl s)

end

def parameters (n : ℕ) (ls : LSymbol) (cl : List (PrSymbol × Term)) : List Bool :=
  let reset : Matching → Matching
    | .nothing => .nothing
    | _ => .any
  let clause (s : ℕ × List Matching) (c : PrSymbol × Term) :=
    let (n, l) := explore ls [] c.2 s
    (n, l.map reset)
  let (_, l) := cl.foldl clause (n, ls.lsArgs.map fun _ => .any)
  l.map fun
    | .nothing => false
    | _ => true

/-! ## The parts of a context -/

def addForall (a : List Attr) (c : Context) : List VSymbol → Context
  | [] => c
  | vl => ⟨.cforall vl, a⟩ :: c

/-- The levels that depend on `vsi`, or on local definitions that do, and the others. Both
results have the innermost level first. -/
def partitionAux (vsi : TagMap VSymbol Unit) : Context → TagMap VSymbol Unit → Context → Context →
    Except Exn (Context × Context)
  | [], _, cindep, cdep => .ok (cindep, cdep)
  | ⟨.cimplies t, a⟩ :: ctx, vsiAcc, cindep, cdep =>
    if t.freeVars.any vsiAcc.mem then partitionAux vsi ctx vsiAcc cindep (⟨.cimplies t, a⟩ :: cdep)
    else partitionAux vsi ctx vsiAcc (⟨.cimplies t, a⟩ :: cindep) cdep
  | ⟨.cforall vsl, a⟩ :: ctx, vsiAcc, cindep, cdep =>
    let vsl := vsl.filter fun v => !vsi.mem v
    let (vdep, vindep) := vsl.partition vsiAcc.mem
    partitionAux vsi ctx vsiAcc (addForall a cindep vindep) (addForall a cdep vdep)
  | ⟨.clet vs t, a⟩ :: ctx, vsiAcc, cindep, cdep =>
    if vsi.mem vs then do
      let e ← tEqu (tvar [] vs) t
      partitionAux vsi ctx vsiAcc cindep (⟨.cimplies e, a⟩ :: cdep)
    else if t.freeVars.any vsiAcc.mem then
      partitionAux vsi ctx (vsiAcc.add vs ()) cindep (⟨.clet vs t, a⟩ :: cdep)
    else partitionAux vsi ctx vsiAcc (⟨.clet vs t, a⟩ :: cindep) cdep

def partition (ctx : Context) (vsi : TagMap VSymbol Unit) : Except Exn (Context × Context) :=
  partitionAux vsi ctx vsi [] []

/-- Put a formula into a context whose innermost level comes first. -/
def zip : Context → Term → Except Exn Term
  | [], goal => .ok goal
  | ⟨.cimplies t, a⟩ :: ctx, goal => do
    let f ← tBinary .timplies t goal
    zip ctx (f.withAttrs a)
  | ⟨.cforall vsl, a⟩ :: ctx, goal => do
    let f ← tForallClose vsl [] goal
    zip ctx (f.withAttrs a)
  | ⟨.clet vs t, a⟩ :: ctx, goal => do
    vsCheck vs t
    zip ctx ((tLetClose vs t goal).withAttrs a)

/-! ## Clauses -/

/-- The goal with the arguments of the predicate generalised to `paraml`. -/
def introduceEqualities (vsi : List VSymbol) (paraml argl : List Term) (goal : Term) :
    Except Exn Term := do
  let f ← (paraml.zip argl).foldlM (fun g (p, a) => do
    let e ← tEqu a p
    tBinary .timplies e g) goal
  tForallClose vsi [] f

/-- An application of the predicate in a premise keeps its place and gets the goal as an
induction hypothesis, unless it is at other types. -/
def premiseCase (induct : Bool) (vsi : List VSymbol) (argl : List Term) (goal t : Term)
    (paraml : List Term) : Except Exn Term :=
  if induct && decide (argl.map tTy = paraml.map tTy) then do
    tBinary .tand t (← introduceEqualities vsi paraml argl goal)
  else .ok t

def clauseCase (induct : Bool) (vsi : List VSymbol) (ls : LSymbol) (argl : List Term)
    (goal : Term) : Term → Except Exn Term
  | tlet a t1 v t2 => do
    let f ← clauseCase induct vsi ls argl goal t2
    .ok (tlet a t1 v f)
  | tquant a .tforall vsl tr t1 => do
    let f ← clauseCase induct vsi ls argl goal t1
    .ok (tquant a .tforall vsl tr f)
  | tbinop a .timplies lhs rhs => do
    let f ← mapLs ls (premiseCase induct vsi argl goal) lhs
    let g ← clauseCase induct vsi ls argl goal rhs
    .ok (tbinop a .timplies f g)
  | t => mapLs ls (fun _ paraml => introduceEqualities vsi paraml argl goal) t

def substituteClause (n : ℕ) (induct : Bool) (vsi : List VSymbol) (ls : LSymbol)
    (argl : List Term) (goal c : Term) : Except Exn Term := do
  let sigma ← lsArgInst ls argl
  let c ← tTySubst n sigma .empty c
  clauseCase induct vsi ls argl goal c

def indexVars (ps : List Bool) (argl : List Term) : TagMap VSymbol Unit :=
  TagMap.ofList ((ps.zip argl).flatMap fun (p, t) => if p then [] else t.freeVars)

def inductionL (attr : Attr) (induct : Bool) (kn : KnownMap) (n : ℕ) (t : Term) :
    Except Exn (Option (List Term)) := do
  match ← locate kn attr n t with
  | none => .ok none
  | some (ctx, (ls, argl, cl), goal) => do
    let vsi := indexVars (parameters n ls cl) argl
    let (cindep, cdep) ← partition ctx vsi
    let goal ← zip cdep goal
    let cases ← cl.mapM fun c => do
      let f ← substituteClause n induct (vsi.bindings.map Prod.fst) ls argl goal c.2
      zip cindep f
    .ok (some cases)

end Why3
