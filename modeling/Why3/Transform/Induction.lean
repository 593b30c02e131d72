import Why3.Core.Decl
import Why3.Core.Lambda

/-!
# Induction over algebraic types

After `src/transform/induction.ml`: the goal is opened, each induction variable is
taken apart by the constructors of its type, and the arguments of its own type get an
induction hypothesis. A hypothesis quantifies again over a part of the variables of the
goal, which depends on the order of the quantifiers and on that of the induction
variables.

Variables that are created on the way are numbered from an argument on.
-/

namespace Why3

open Lib Term

/-! ## The variables of the goal -/

/-- The leading universal quantifiers are opened. The variables `ul` are those that the
enclosing quantifiers were opened with, innermost first. -/
def decomposeForallAux (n : ℕ) (qvl ul : List VSymbol) : Term → List VSymbol × Term
  | tquant _ .tforall vl _ f =>
    decomposeForallAux (n + vl.length) (qvl ++ freshOf n (vl.map VSymbol.vsTy))
      (freshOf n (vl.map VSymbol.vsTy) ++ ul) f
  | t => (qvl, openVars ul t)

def decomposeForall (n : ℕ) (t : Term) : List VSymbol × Term := decomposeForallAux n [] [] t

/-! ## Induction schemes -/

/-- A pattern for each constructor, with those of its variables that have the type of
the induction variable. -/
abbrev Tyscheme := List (Pattern × List VSymbol)

/-- An induction variable, with the neutral variables quantified right before it, those
that its hypotheses quantify again, and the scheme of its type. -/
structure Vlex where
  vs : VSymbol
  lq : List VSymbol
  rq : List VSymbol
  ts : Tyscheme

def tyschemeConstructor (sigma : TagMap TvSymbol Ty) (x : VSymbol) (n : ℕ) (ls : LSymbol) :
    Except Exn (Pattern × List VSymbol) := do
  let vlst := freshOf n (ls.lsArgs.map (tyInst sigma))
  let p ← patApp ls (vlst.map .pvar) x.vsTy
  .ok (p, vlst.filter fun v => decide (x.vsTy = v.vsTy))

def tyschemeConstructors (sigma : TagMap TvSymbol Ty) (x : VSymbol) :
    ℕ → List Constructor → Except Exn (Tyscheme × ℕ)
  | n, [] => .ok ([], n)
  | n, c :: cl => do
    let b ← tyschemeConstructor sigma x n c.1
    let (ts, n') ← tyschemeConstructors sigma x (n + c.1.lsArgs.length) cl
    .ok (b :: ts, n')

/-- The induction scheme for a variable, and the number of the next new variable. -/
def vsTyscheme (km : KnownMap) (n : ℕ) (x : VSymbol) : Except Exn (Tyscheme × ℕ) :=
  match x.vsTy with
  | .tyvar _ => .error .assertFailure
  | .tyapp ts _ =>
    if x.vsTy = tyInt then .error .assertFailure
    else do
      let sigma ← tyMatchExn .empty (.tyapp ts (ts.tsArgs.map .tyvar)) x.vsTy
      tyschemeConstructors sigma x n (← findConstructors km ts)

/-- The positions of the induction variables. The last one counts for a variable that
is listed twice. -/
def lexIndices (vl : List VSymbol) : TagMap VSymbol ℕ :=
  (vl.foldl (fun (i, m) v => (i + 1, m.add v i)) (0, TagMap.empty)).2

/-- The variables `ivs` are the induction variables that still have to come, `lql` are
the neutral variables since the last one and `lvl` the induction variables so far, both
in reverse order. A variable that is looked up in `ivm` without a test is one of the
induction variables. -/
def qsplitAux (km : KnownMap) (ivm : TagMap VSymbol ℕ) : ℕ → TagMap VSymbol Unit →
    List VSymbol → List VSymbol → List VSymbol → List Vlex → Except Exn (List Vlex × List VSymbol)
  | _, _, [], lql, _, acc => .ok (acc.reverse, lql)
  | n, ivs, q :: tl, lql, lvl, acc =>
    if ivs.mem q then do
      let qi := ivm.findDef 0 q
      let rleft := lvl.filter fun v => decide (qi < ivm.findDef 0 v)
      let rright := tl.filter fun v => if ivm.mem v then decide (qi < ivm.findDef 0 v) else true
      let (ts, n') ← vsTyscheme km n q
      qsplitAux km ivm n' (ivs.remove q) tl [] (q :: lvl)
        (⟨q, lql.reverse, rleft.reverse ++ rright, ts⟩ :: acc)
    else if ivs.isEmpty then .ok (acc.reverse, q :: tl)
    else qsplitAux km ivm n ivs tl (q :: lql) lvl acc

/-- The induction variables in the order of the quantifiers, and the neutral variables
after the last of them. -/
def qsplit (km : KnownMap) (n : ℕ) (vl qvl : List VSymbol) :
    Except Exn (List Vlex × List VSymbol) :=
  qsplitAux km (lexIndices vl) n (TagMap.ofList vl) qvl [] [] []

/-! ## The formula -/

/-- The induction hypotheses for the arguments `vset` of an induction variable. -/
def makeH (t : Term) (v : Vlex) (vset : List VSymbol) (timp : Term) : Except Exn Term :=
  vset.foldlM (fun timp x => do
    let h ← tSubstSingle v.vs (tvar [] x) t
    let h ← tForallClose v.rq [] h
    tBinary .timplies h timp) timp

def makeInductionLexAux (t : Term) : List Vlex → Term → Except Exn Term
  | [], timp => .ok timp
  | v :: vl, timp => do
    let tbl ← v.ts.mapM fun (pat, vset) => do
      let timp ← makeH t v vset timp
      let f ← makeInductionLexAux t vl timp
      .ok (tCloseBranch pat f)
    let f ← tCase (tvar [] v.vs) tbl
    tForallClose (v.lq ++ [v.vs]) [] f

def makeInductionLex (lexl : List Vlex) (rql : List VSymbol) (t : Term) : Except Exn Term := do
  let timp ← tForallClose rql [] t
  makeInductionLexAux t lexl timp

/-- Induction on the variables that `heuristicLex` chooses, from those of the goal and
from its body. -/
def inductionTyLex (km : KnownMap) (n : ℕ)
    (heuristicLex : List VSymbol → Term → Except Exn (List VSymbol)) (t0 : Term) :
    Except Exn Term := do
  let (qvl, t) := decomposeForall n t0
  let vl ← heuristicLex qvl t
  let (lexl, rql) ← qsplit km (n + qvl.length) vl qvl
  makeInductionLex lexl rql t

end Why3
