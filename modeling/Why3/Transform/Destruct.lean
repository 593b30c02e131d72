import Why3.Core.Lambda
import Why3.Core.Occurs
import Why3.Core.Task
import Why3.Core.Termination

/-!
# Taking a hypothesis apart

After `src/transform/destruct.ml`. A hypothesis is split into a list of lists: there is
a new task for each element of the outer list, in which the elements of the inner one
take the place of the hypothesis. A premise of an implication becomes the goal of a task
of its own.

New symbols and variables are numbered from a counter on. The recursion stops for lack of
fuel only if the fuel is less than the weight of the formula.
-/

namespace Why3

open Lib Term

/-- Declare a proposition, which must be closed. -/
def createPropDecl (k : PropKind) (pr : PrSymbol) (f : Term) : Except Exn Decl := do
  .ok (.dprop k pr (← checkFvs f))

def createGoal (expl : String) (pr : PrSymbol) (t : Term) : Except Exn Decl :=
  createPropDecl .pgoal pr (t.attrAdd (.expl expl))

/-! ## Transformations with several results -/

section DeclGoalL

variable (fn : Decl → Except Exn (List (List DiffDecl)))

def declGoalStep (acc : Option Decl × Task) : TDecl → Except Exn (List (Option Decl × Task))
  | .decl d =>
    if d.isGoal then
      match acc.1 with
      | none => do (← fn d).mapM fun x => x.foldlM goalStep acc
      | some newGoal => do .ok [(acc.1, ← acc.2.addDecl newGoal)]
    else do (← fn d).mapM fun x => x.foldlM diffStep acc
  | td => do .ok [(acc.1, ← acc.2.addTdecl td)]

def declGoalSteps (accs : List (Option Decl × Task)) (td : TDecl) :
    Except Exn (List (Option Decl × Task)) := do
  .ok (← accs.mapM fun acc => declGoalStep fn acc td).flatten

def declGoalL (task : Task) : Except Exn (List Task) := do
  let accs ← task.taskTdecls.foldlM (declGoalSteps fn) [(none, Task.empty)]
  .ok (accs.map Prod.snd)

end DeclGoalL

/-! ## Patterns -/

def constantOf (n : ℕ) (ty : Ty) : LSymbol := ⟨⟨n⟩, [], some ty, 0⟩

/-- A value of a pattern: constants for its variables, definitions for the variables of
its aliases, and the value itself. -/
structure Expansion (α : Type) where
  bindings : List (Option VSymbol × LSymbol)
  equalities : List (VSymbol × LSymbol × Term)
  term : α

def Expansion.cons (e : Expansion Term) (e' : Expansion (List Term)) : Expansion (List Term) :=
  ⟨e.bindings ++ e'.bindings, e.equalities ++ e'.equalities, e.term :: e'.term⟩

def expandApp (fs : LSymbol) (ty : Ty) (e : Expansion (List Term)) :
    Except Exn (Expansion Term) := do
  .ok ⟨e.bindings, e.equalities, ← tApp fs e.term (some ty)⟩

def expandAs (v : VSymbol) (ls : LSymbol) (e : Expansion Term) : Except Exn (Expansion Term) := do
  .ok ⟨e.bindings, e.equalities ++ [(v, ls, e.term)], ← tApp ls [] ls.lsValue⟩

mutual

def expand : ℕ → Pattern → Except Exn (ℕ × List (Expansion Term))
  | n, .pwild ty => do
    let ls := constantOf n ty
    .ok (n + 1, [⟨[(none, ls)], [], ← tApp ls [] ls.lsValue⟩])
  | n, .pvar v => do
    let ls := constantOf n v.vsTy
    .ok (n + 1, [⟨[(some v, ls)], [], ← tApp ls [] ls.lsValue⟩])
  | n, .papp fs pl ty => do
    let (n, l) ← expandArgs n pl
    .ok (n, ← l.mapM (expandApp fs ty))
  | n, .por p q => do
    let (n, l) ← expand n p
    let (n, l') ← expand n q
    .ok (n, l ++ l')
  | n, .pas p v => do
    let ls := constantOf n p.patTy
    let (n, l) ← expand (n + 1) p
    .ok (n, ← l.mapM (expandAs v ls))

def expandArgs : ℕ → List Pattern → Except Exn (ℕ × List (Expansion (List Term)))
  | n, [] => .ok (n, [⟨[], [], []⟩])
  | n, p :: pl => do
    let (n, l) ← expand n p
    let (n, l') ← expandArgs n pl
    .ok (n, l.flatMap fun e => l'.map e.cons)

end

/-! ## Formulas -/

inductive IsDestructed where
  | axiomTerm (t : Term)
  | param (d : Decl)
  | goalTerm (t : Term)

/-- The new tasks, each with what takes the place of the hypothesis. -/
abbrev Parallel := List (List IsDestructed)

def isConstructor (ls : LSymbol) : Bool := decide (ls.lsConstr ≠ 0)

def constrEquation : Term → Option ((LSymbol × List Term) × (LSymbol × List Term))
  | tapp _ ls [tapp _ cs1 l1 _, tapp _ cs2 l2 _] _ =>
    if decide (ls = psEqu) && isConstructor cs1 && isConstructor cs2 then
      some ((cs1, l1), (cs2, l2))
    else none
  | _ => none

def argEquations : List Term → List Term → Except Exn (List IsDestructed)
  | [], [] => .ok []
  | x1 :: l1, x2 :: l2 => do
    let f ← tAppInfer psEqu [x1, x2]
    .ok (.axiomTerm f :: (← argEquations l1 l2))
  | _, _ => .error .invalidArgument

def destructEquation (t : Term) (c1 c2 : LSymbol × List Term) : Parallel :=
  if c1.1 = c2.1 then
    match argEquations c1.2 c2.2 with
    | .ok l => [l]
    | .error _ => [[.axiomTerm t]]
  else [[.axiomTerm (tfalse [])]]

/-- A formula that cannot be split further is a hypothesis itself. -/
def orAxiom (recursive : Bool) (n : ℕ) (t : Term) (r : Except Exn (ℕ × Parallel)) :
    Except Exn (ℕ × Parallel) :=
  if recursive then
    match r with
    | .error .outOfFuel => .error .outOfFuel
    | .error _ => .ok (n, [[.axiomTerm t]])
    | .ok r => .ok r
  else .ok (n, [[.axiomTerm t]])

def Expansion.consts {α : Type} (e : Expansion α) : List (VSymbol × LSymbol) :=
  (e.bindings.filterMap fun b => b.1.map fun v => (v, b.2)) ++
    e.equalities.map fun q => (q.1, q.2.1)

def Expansion.mvs (e : Expansion Term) : Except Exn (TagMap VSymbol Term) :=
  e.consts.foldlM (fun m b => do .ok (m.add b.1 (← tApp b.2 [] b.2.lsValue))) .empty

def tSubstMap (m : TagMap VSymbol Term) (t : Term) : Except Exn Term := do
  m.bindings.forM fun b => vsCheck b.1 b.2
  .ok (tSubst m.find? t)

def equalityDecl (q : VSymbol × LSymbol × Term) : Except Exn IsDestructed := do
  .ok (.param (← createLogicDecl [← makeLsDefn q.2.1 [] q.2.2]))

def expansionHyps (t : Term) (e : Expansion Term) : Except Exn (List IsDestructed) := do
  let eqs ← e.equalities.mapM equalityDecl
  .ok ((e.bindings.map fun b => .param (.dparam b.2)) ++ eqs ++ [.axiomTerm (← tEqu t e.term)])

section DestructFmla

variable (recursive : Bool) (rec : ℕ → Bool → Term → Except Exn (ℕ × Parallel))

def destructFmlaException (n : ℕ) (toplevel : Bool) (t : Term) : Except Exn (ℕ × Parallel) :=
  orAxiom recursive n t (rec n toplevel t)

/-- Both parts of a conjunction, in all combinations of their cases. -/
def destructAnd (n : ℕ) (t1 t2 : Term) : Except Exn (ℕ × Parallel) := do
  let (n, l1) ← destructFmlaException recursive rec n false t1
  let (n, l2) ← destructFmlaException recursive rec n false t2
  .ok (n, l1.flatMap fun seq1 => l2.map fun seq2 => seq1 ++ seq2)

def destructOr (n : ℕ) (t1 t2 : Term) : Except Exn (ℕ × Parallel) := do
  let (n, l1) ← destructFmlaException recursive rec n false t1
  let (n, l2) ← destructFmlaException recursive rec n false t2
  .ok (n, l1 ++ l2)

def destructImplies (n : ℕ) (t1 t2 : Term) : Except Exn (ℕ × Parallel) := do
  let (n, l2) ← destructFmlaException recursive rec n true t2
  .ok (n, [.goalTerm t1] :: l2)

/-- Types that do not match are reported as an error of the transformation. -/
def onTypeMismatch {α : Type} (msg : String) : Except Exn α → Except Exn α
  | .error (.typeMismatch ty1 ty2) => .error (.argTransType msg ty1 ty2)
  | r => r

/-- A constant takes the place of the first variable. The triggers are left as they are. -/
def openExists (n : ℕ) (trl : List (List Term)) (te : Term) :
    List VSymbol → Except Exn (LSymbol × Term)
  | x :: tl => do
    let ls := constantOf n x.vsTy
    let tx ← tApp ls [] (some x.vsTy)
    let partT ← onTypeMismatch "destruct_exists" (tSubstSingle x tx te)
    .ok (ls, ← if tl.isEmpty then tProp partT else .ok (tQuantClose .texists tl trl partT))
  | [] => .error (.argTrans "destruct_exists")

def destructExists (n : ℕ) (vl : List VSymbol) (trl : List (List Term)) (f : Term) :
    Except Exn (ℕ × Parallel) := do
  let vsl := freshOf n (vl.map VSymbol.vsTy)
  let (ls, newT) ← openExists (n + vl.length) (trl.map fun tl => tl.map (openVars vsl))
    (openVars vsl f) vsl
  let (n, l) ← destructFmlaException recursive rec (n + vl.length + 1) false newT
  .ok (n, l.map fun x => .param (.dparam ls) :: x)

def destructIf (n : ℕ) (t1 t2 t3 : Term) : Except Exn (ℕ × Parallel) := do
  let (n, l2) ← destructFmlaException recursive rec n false t2
  let (n, l3) ← destructFmlaException recursive rec n false t3
  let t1' ← tNot t1
  .ok (n, (l2.map fun ts => .axiomTerm t1 :: ts) ++ l3.map fun ts => .axiomTerm t1' :: ts)

def destructExpansion (t rhs : Term) (acc : ℕ × Parallel) (e : Expansion Term) :
    Except Exn (ℕ × Parallel) := do
  let rhs ← tSubstMap (← e.mvs) rhs
  let (n, l) ← destructFmlaException recursive rec acc.1 false rhs
  let hyps ← if l.isEmpty then .ok [] else expansionHyps t e
  .ok (n, acc.2 ++ l.map fun rhs => hyps ++ rhs)

def destructBranch (t : Term) (acc : ℕ × Parallel) (b : Pattern × Term) :
    Except Exn (ℕ × Parallel) := do
  let p := b.1.fresh acc.1
  let rhs := openVars p.vars b.2
  let (n, es) ← expand (acc.1 + p.vars.length) p
  es.foldlM (destructExpansion recursive rec t rhs) (n, acc.2)

end DestructFmla

/-- Split a formula. An implication and a match are split only at the top, which is
what `toplevel` says. -/
def destructFmla (recursive : Bool) : ℕ → ℕ → Bool → Term → Except Exn (ℕ × Parallel)
  | 0, _, _, _ => .error .outOfFuel
  | fuel + 1, n, toplevel, t =>
    let rec' := destructFmla recursive fuel
    match t with
    | tfalse _ => .ok (n, [])
    | ttrue _ => .ok (n, [[]])
    | tbinop _ .tand t1 t2 => destructAnd recursive rec' n t1 t2
    | tbinop _ .tor t1 t2 => destructOr recursive rec' n t1 t2
    | tbinop _ .timplies t1 t2 =>
      if toplevel then destructImplies recursive rec' n t1 t2
      else .error (.argTrans "destruct")
    | tquant _ .texists vl trl f => destructExists recursive rec' n vl trl f
    | tapp a ls tl ty =>
      match constrEquation (tapp a ls tl ty) with
      | some (c1, c2) => .ok (n, destructEquation (tapp a ls tl ty) c1 c2)
      | none => .error (.argTrans "destruct")
    | tnot a t1 =>
      match constrEquation t1 with
      | some (c1, c2) => .ok (n, if c1.1 = c2.1 then [[.axiomTerm (tnot a t1)]] else [[]])
      | none => do
        destructFmlaException recursive rec' n toplevel (← tImplies t1 (tfalse []))
    | tif _ t1 t2 t3 => destructIf recursive rec' n t1 t2 t3
    | tcase _ t tbs =>
      if toplevel then tbs.foldlM (destructBranch recursive rec' t) (n, [])
      else .error (.argTrans "destruct")
    | _ => .error (.argTrans "destruct")

/-! ## The transformation -/

def destructExpl : String := "destruct premise"

def diffDecl (n : ℕ) : IsDestructed → Except Exn (ℕ × DiffDecl)
  | .axiomTerm t => do .ok (n + 1, .normalDecl (← createPropDecl PropKind.paxiom ⟨⟨n⟩⟩ t))
  | .param d => .ok (n, .normalDecl d)
  | .goalTerm t => do .ok (n + 1, .goalDecl (← createGoal destructExpl ⟨⟨n⟩⟩ t))

def diffDecls : ℕ → List IsDestructed → Except Exn (ℕ × List DiffDecl)
  | n, [] => .ok (n, [])
  | n, x :: l => do
    let (n, d) ← diffDecl n x
    let (n, dl) ← diffDecls n l
    .ok (n, d :: dl)

def diffDeclsL : ℕ → Parallel → Except Exn (List (List DiffDecl))
  | _, [] => .ok []
  | n, l :: ls => do
    let (n, dl) ← diffDecls n l
    .ok (dl :: (← diffDeclsL n ls))

def destructDecl (recursive : Bool) (n : ℕ) (pr : PrSymbol) (d : Decl) :
    Except Exn (List (List DiffDecl)) :=
  match d with
  | .dprop PropKind.paxiom dpr ht =>
    if dpr = pr then do
      let (n, l) ← destructFmla recursive (ht.weight + 1) n true ht
      diffDeclsL n l
    else .ok [[.normalDecl d]]
  | _ => .ok [[.normalDecl d]]

def destruct (recursive : Bool) (n : ℕ) (pr : PrSymbol) (task : Task) : Except Exn (List Task) :=
  declGoalL (destructDecl recursive n pr) task

end Why3
