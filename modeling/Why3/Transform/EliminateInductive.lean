import Why3.Core.Inductive
import Why3.Transform.Destruct
import Why3.Transform.SimplifyFormula

/-!
# Elimination of inductive predicates

Inductive predicates are replaced by uninterpreted ones, with an axiom for each clause and
an inversion axiom for each predicate, after `src/transform/eliminate_inductive.ml`. The
inversion axiom says that some clause has derived the arguments: the quantifiers and the
premises of the clause are dualised and its conclusion becomes equations.

The names of the new axioms are numbered from a counter on. The attributes of variables for
counterexamples are not kept, so that they do not matter.
-/

namespace Why3

open Lib Term

/-- The equations between the arguments of a predicate and those of a conclusion. -/
def marry (acc : Term) : List Term → List Term → Except Exn Term
  | [], [] => .ok acc
  | v :: vl, t :: tl => do marry (← tAndSimp acc (← tEqu v t)) vl tl
  | _, _ => .error .invalidArgument

def descend (vl : List Term) (n : ℕ) : Term → Except Exn Term
  | tquant _ .tforall ul trl f => do
    let wl := freshLike n ul
    let g ← descend vl (n + ul.length) (openVars wl f)
    .ok (tQuantClose .texists wl (trl.map (List.map (openVars wl))) (← tProp g))
  | tbinop _ .timplies g f => do tAnd g (← descend vl n f)
  | tapp _ _ tl _ => marry (ttrue []) vl tl
  | tlet _ t v f => do
    let u := boundVar n v
    let g ← descend vl (n + 1) (openVars [u] f)
    vsCheck u t
    .ok (tLetClose u t g)
  | _ => .error .assertFailure
termination_by f => f.size
decreasing_by
  all_goals first
    | exact Part.right.size_lt
    | exact (Part.quant _).size_lt
    | exact (Part.letBody _).size_lt

def exi (vl : List Term) (n : ℕ) (ax : PrSymbol × Term) : Except Exn Term := descend vl n ax.2

/-- The disjunction of what is made of the elements of a list, which must not be empty. -/
def mapJoinLeft {α : Type} (map : α → Except Exn Term) (join : Term → Term → Except Exn Term) :
    List α → Except Exn Term
  | [] => .error .invalidArgument
  | x :: xl => do xl.foldlM (fun acc x => do join acc (← map x)) (← map x)

def inversion (n : ℕ) (id : IndDecl) : Except Exn Term := do
  let vl := freshOf n id.1.lsArgs
  let tl := vl.map (tvar [])
  let m := n + id.1.lsArgs.length
  let hd ← tApp id.1 tl none
  let dj ← mapJoinLeft (exi tl m) tOr id.2
  let hsdj ← fmlaRemoveQuant (fun _ => false) false m (← tImplies hd dj)
  tForallClose vl [] hsdj

def inv (n : ℕ) (id : IndDecl) : Except Exn Decl := do
  createPropDecl PropKind.paxiom ⟨⟨n⟩⟩ (← inversion (n + 1) id)

def invs : ℕ → List IndDecl → Except Exn (List Decl)
  | _, [] => .ok []
  | n, id :: idl => do
    let d ← inv n id
    .ok (d :: (← invs (n + 1) idl))

def imps (idl : List IndDecl) : Except Exn (List Decl) :=
  (idl.flatMap Prod.snd).mapM fun ax => createPropDecl PropKind.paxiom ax.1 ax.2

def elim (n : ℕ) : Decl → Except Exn (ℕ × List Decl)
  | .dind _ idl => do
    let dl ← imps idl
    let dl' ← invs n idl
    .ok (n + idl.length, idl.map (fun id => .dparam id.1) ++ dl ++ dl')
  | d => .ok (n, [d])

def eliminateInductive : ℕ → Task → Except Exn Task := transDecl elim

end Why3
