import Why3.Core.Term
import Mathlib.Algebra.Order.Ring.Nat

/-!
# Compilation of pattern matrices

The compiler of `src/core/pattern.ml`, which turns a matrix of rows, each a list
of patterns with an action, into a tree of primitive case statements on the
terms at the head of the columns. Actions are of any type; the two functions that
build larger actions are parameters, as in the source.

Variables for the arguments of a constructor are numbered from a counter that is
passed down the tree.
-/

namespace Why3

open Lib

namespace Pattern

/-- A row of a matrix: one pattern for each column, and an action. -/
abbrev Row (α : Type) := List Pattern × α

abbrev Cases (α : Type) := TagMap LSymbol (List (Row α))

/-- The parameters of `compile`. The constructors of a type symbol are `none` for
the exception `Bare`. -/
structure CompileOps (α : Type) where
  getConstructors : TySymbol → Except Exn (Option (List LSymbol))
  mkCase : Term → List (Pattern × α) → α
  mkLet : VSymbol → Term → α → α

/-- The constructors of the type of a column, and whether they are unknown. -/
def columnConstrs (get : TySymbol → Except Exn (Option (List LSymbol))) :
    Ty → Except Exn (Bool × TagMap LSymbol Unit)
  | .tyapp ts _ => do
    match ← get ts with
    | some l => .ok (false, TagMap.ofList l)
    | none => .ok (true, .empty)
  | .tyvar _ => .ok (false, .empty)

/-- If the constructors are unknown, only `lsConstr` is checked. -/
def isConstr (bare : Bool) (css : TagMap LSymbol Unit) (fs : LSymbol) : Bool :=
  decide (0 < fs.lsConstr) && (bare || css.mem fs)

/-- Collect the constructors at the head of a pattern, each with the first list
of arguments it is found with. -/
def populate (isC : LSymbol → Bool) (ty : Ty) :
    TagMap LSymbol (List Pattern) × List (LSymbol × List Pattern) → Pattern →
      Except Exn (TagMap LSymbol (List Pattern) × List (LSymbol × List Pattern))
  | acc, pwild _ => .ok acc
  | acc, pvar _ => .ok acc
  | acc, pas p _ => populate isC ty acc p
  | acc, por p q => do populate isC ty (← populate isC ty acc p) q
  | (css, csl), papp fs pl _ =>
    if isC fs then
      if css.mem fs then .ok (css, csl) else .ok (css.add fs pl, (fs, pl) :: csl)
    else .error (.patConstructorExpected fs ty)

def populateRows {α : Type} (isC : LSymbol → Bool) (ty : Ty) (rl : List (Row α)) :
    Except Exn (TagMap LSymbol (List Pattern) × List (LSymbol × List Pattern)) :=
  rl.foldlM (fun acc row =>
    match row.1 with
    | [] => .error .assertFailure
    | p :: _ => populate isC ty acc p) (.empty, [])

section Dispatch

variable {α : Type} (mkLet : VSymbol → Term → α → α) (t : Term)
  (types : TagMap LSymbol (List Pattern))

def addCase (fs : LSymbol) (pl : List Pattern) (a : α) (cases : Cases α) : Cases α :=
  cases.add fs (match cases.find? fs with
    | none => [(pl, a)]
    | some rl => (pl, a) :: rl)

/-- A row whose head matches anything goes to every constructor, with a wildcard
for each argument. -/
def unionCases (pl : List Pattern) (a : α) (cases : Cases α) : Cases α :=
  let wild (ql : List Pattern) : List (Row α) :=
    [(ql.foldl (fun pl q => pwild q.patTy :: pl) pl, a)]
  TagMap.unionWith (fun wl rl => wl ++ rl) (types.map wild) cases

/-- Dispatch a row, whose head pattern is given first, to the constructors and to
the rows that match anything. -/
def dispatch : Pattern → List Pattern → α → Cases α × List (Row α) → Cases α × List (Row α)
  | papp fs pl' _, pl, a, (cases, wilds) => (addCase fs (pl'.reverse ++ pl) a cases, wilds)
  | por p q, pl, a, acc => dispatch p pl a (dispatch q pl a acc)
  | pas p x, pl, a, acc => dispatch p pl (mkLet x t a) acc
  | pvar x, pl, a, (cases, wilds) =>
    (unionCases types pl (mkLet x t a) cases, (pl, mkLet x t a) :: wilds)
  | pwild _, pl, a, (cases, wilds) => (unionCases types pl a cases, (pl, a) :: wilds)

def dispatchRows (rl : List (Row α)) : Except Exn (Cases α × List (Row α)) :=
  rl.foldrM (fun row acc =>
    match row.1 with
    | [] => .error .assertFailure
    | p :: pl => .ok (dispatch mkLet t types p pl row.2 acc)) (.empty, [])

end Dispatch

/-- Put the missing patterns of the arguments of `cs` back under `cs`. -/
def contWitness (cs : LSymbol) (ty : Ty) :
    List Pattern → List Ty → List Pattern → Except Exn (List Pattern)
  | acc, _ :: vl, p :: pl => contWitness cs ty (p :: acc) vl pl
  | acc, [], pl => do .ok ((← patApp cs acc ty) :: pl)
  | _, _ :: _, [] => .error .assertFailure

/-- The head of the missing patterns when no constructor of `types` applies: the
first other constructor, or a wildcard. -/
def wildWitness (css : TagMap LSymbol Unit) (types : TagMap LSymbol (List Pattern)) (ty : Ty) :
    Except Exn Pattern :=
  match css.bindings.find? (fun b => !types.mem b.1) with
  | some (cs, _) => do
    let vty ← match cs.lsValue with
      | some vty => .ok vty
      | none => .error .assertFailure
    let tm ← tyMatchExn .empty vty ty
    patApp cs (cs.lsArgs.map fun ty => pwild (tyInst tm ty)) ty
  | none => .ok (pwild ty)

def onNonExhaustive {α : Type} (f : List Pattern → Except Exn (List Pattern)) :
    Except Exn α → Except Exn α
  | .error (.nonExhaustive pl) => do
    let pl' ← f pl
    .error (.nonExhaustive pl')
  | r => r

def constrApp? (isC : LSymbol → Bool) : Term → Option (LSymbol × List Term)
  | .tapp _ cs al _ => if isC cs then some (cs, al) else none
  | _ => none

def noWilds (bare : Bool) (css : TagMap LSymbol Unit) (types : TagMap LSymbol (List Pattern)) :
    Bool :=
  if bare then
    match types.bindings with
    | [] => false
    | (cs, _) :: _ => types.bindings.length == cs.lsConstr
  else css.submap types

def freshVars (n : ℕ) : List Pattern → List VSymbol
  | [] => []
  | q :: ql => ⟨⟨n⟩, q.patTy⟩ :: freshVars (n + 1) ql

structure Column (α : Type) where
  ty : Ty
  bare : Bool
  css : TagMap LSymbol Unit
  types : TagMap LSymbol (List Pattern)
  cslist : List (LSymbol × List Pattern)
  cases : Cases α
  wilds : List (Row α)

def columnOf {α : Type} (ops : CompileOps α) (t : Term) (rl : List (Row α)) :
    Except Exn (Column α) := do
  let ty ← t.tType
  let (bare, css) ← columnConstrs ops.getConstructors ty
  let (types, cslist) ← populateRows (isConstr bare css) ty rl
  let (cases, wilds) ← dispatchRows ops.mkLet t types rl
  .ok ⟨ty, bare, css, types, cslist, cases, wilds⟩

section Assemble

variable {α : Type} (compile : ℕ → List Term → List (Row α) → Except Exn α) (c : Column α)
  (tl : List Term)

def compCases (n : ℕ) (cs : LSymbol) (al : List Term) : Except Exn α :=
  match c.cases.find? cs with
  | none => .error .notFound
  | some rl =>
    onNonExhaustive (contWitness cs c.ty [] cs.lsArgs) (compile n (al.reverse ++ tl) rl)

def compWilds (n : ℕ) : Except Exn α :=
  onNonExhaustive (fun pl => do .ok ((← wildWitness c.css c.types c.ty) :: pl))
    (compile n tl c.wilds)

def compBase (n : ℕ) : Except Exn (List (Pattern × α)) :=
  if noWilds c.bare c.css c.types then .ok []
  else do .ok [(pwild c.ty, ← compWilds compile c tl n)]

def compBranch (n : ℕ) (acc : List (Pattern × α)) (b : LSymbol × List Pattern) :
    Except Exn (List (Pattern × α)) := do
  let vl := freshVars n b.2
  let a ← compCases compile c tl (n + b.2.length) b.1 (vl.map (.tvar []))
  let p ← patApp b.1 (vl.map pvar) c.ty
  .ok ((p, a) :: acc)

def compTree (mkCase : Term → List (Pattern × α) → α) (n : ℕ) (t : Term) : Except Exn α :=
  if c.types.bindings.isEmpty then compWilds compile c tl n
  else match constrApp? (isConstr c.bare c.css) t with
    | some (cs, al) =>
      if c.types.mem cs then compCases compile c tl n cs al else compWilds compile c tl n
    | none => do
      let base ← compBase compile c tl n
      let bl ← c.cslist.foldlM (compBranch compile c tl n) base
      .ok (mkCase t bl)

end Assemble

def compileFuel {α : Type} (ops : CompileOps α) :
    ℕ → ℕ → List Term → List (Row α) → Except Exn α
  | 0, _, _, _ => .error .outOfFuel
  | _ + 1, _, tl, [] => do
    let pl ← tl.mapM fun t => do .ok (pwild (← t.tType))
    .error (.nonExhaustive pl)
  | _ + 1, _, [], (_, a) :: _ => .ok a
  | fuel + 1, n, t :: tl, row :: rl => do
    let c ← columnOf ops t (row :: rl)
    compTree (compileFuel ops fuel) c tl ops.mkCase n t

/-! The recursion is bounded by the number of rows left after every disjunction is
split, each weighted by its constructors. -/

mutual

def weight : Pattern → ℕ
  | pwild _ => 1
  | pvar _ => 1
  | papp _ pl _ => weightList pl + 1
  | por p q => weight p + weight q
  | pas p _ => weight p

def weightList : List Pattern → ℕ
  | [] => 1
  | p :: pl => weight p * weightList pl

end

mutual

def arity : Pattern → ℕ
  | pwild _ => 0
  | pvar _ => 0
  | papp _ pl _ => max pl.length (arityList pl)
  | por p q => max (arity p) (arity q)
  | pas p _ => arity p

def arityList : List Pattern → ℕ
  | [] => 0
  | p :: pl => max (arity p) (arityList pl)

end

def matrixWeight {α : Type} (rl : List (Row α)) : ℕ :=
  (rl.map fun row => weightList row.1).sum

def matrixArity {α : Type} (rl : List (Row α)) : ℕ :=
  (rl.map fun row => arityList row.1).foldr max 0

def compile {α : Type} (ops : CompileOps α) (n : ℕ) (tl : List Term) (rl : List (Row α)) :
    Except Exn α :=
  compileFuel ops (matrixWeight rl * (matrixArity rl + 1) + tl.length + 1) n tl rl

def compileBare {α : Type} (mkCase : Term → List (Pattern × α) → α)
    (mkLet : VSymbol → Term → α → α) (n : ℕ) (tl : List Term) (rl : List (Row α)) :
    Except Exn α :=
  match compile ⟨fun _ => .ok none, mkCase, mkLet⟩ n tl rl with
  | .error (.nonExhaustive _) => .error (.nonExhaustive [])
  | r => r

/-- The scrutinees of a matrix that is checked without any. -/
def checkTerms (n : ℕ) (tl : List Term) (pl : List Pattern) : List Term :=
  if tl.isEmpty then (freshVars n pl).map (.tvar []) else tl

def checkCompile (getConstructors : TySymbol → Except Exn (Option (List LSymbol))) (n : ℕ)
    (tl : List Term) : List (List Pattern) → Except Exn Unit
  | [] => do
    let pl ← tl.mapM fun t => do .ok (pwild (← t.tType))
    .error (.nonExhaustive pl)
  | pl :: ppl =>
    compile ⟨getConstructors, fun _ _ => (), fun _ _ _ => ()⟩ (n + pl.length)
      (checkTerms n tl pl) ((pl :: ppl).map fun pl => (pl, ()))

def isExhaustive (n : ℕ) (tl : List Term) : List (List Pattern) → Except Exn Bool
  | [] => .ok false
  | pl :: ppl =>
    match compile ⟨fun _ => .ok none, fun _ _ => true, fun _ _ _ => true⟩ (n + pl.length)
        (checkTerms n tl pl) ((pl :: ppl).map fun pl => (pl, true)) with
    | .error (.nonExhaustive _) => .ok false
    | r => r

end Pattern

end Why3
