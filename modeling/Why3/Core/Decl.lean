import Why3.Core.Pattern
import Why3.Lib.ExceptFold

/-!
# Declarations and known maps

Declarations, the checks that are made when they are built, and the map of the
known symbols with the checks that are made when a declaration is added to it,
after `src/core/decl.ml`.

A known map binds symbols where the source binds identifiers: an identifier
belongs to one symbol only, so that both say the same.
-/

namespace Why3

open Lib

def TySym.embed (ts : TySymbol) : TySym Ty :=
  { tsName := ts.tsName
    tsArgs := ts.tsArgs
    tsDef := match ts.tsDef with
      | .noDef => .noDef
      | .range ir => .range ir
      | .float fp => .float fp
    argsNodup := ts.argsNodup }

structure PrSymbol where
  prName : Ident
  deriving DecidableEq, Repr

abbrev Constructor := LSymbol × List (Option LSymbol)

abbrev DataDecl := TySymbol × List Constructor

/-- A defined symbol, its defining axiom and the positions that decrease in its
recursive calls. -/
abbrev LsDefn := LSymbol × Term × List ℕ

abbrev LogicDecl := LSymbol × LsDefn

abbrev IndDecl := LSymbol × List (PrSymbol × Term)

inductive IndSign where
  | ind
  | coind
  deriving DecidableEq, Repr

inductive PropKind where
  | plemma
  | paxiom
  | pgoal
  deriving DecidableEq, Repr

inductive Decl where
  | dtype (ts : TySym Ty)
  | ddata (tdl : List DataDecl)
  | dparam (ls : LSymbol)
  | dlogic (ldl : List LogicDecl)
  | dind (s : IndSign) (idl : List IndDecl)
  | dprop (k : PropKind) (pr : PrSymbol) (f : Term)

inductive Sym where
  | ts (ts : TySym Ty)
  | ls (ls : LSymbol)
  | pr (pr : PrSymbol)
  deriving DecidableEq

def Sym.id : Sym → Ident
  | ts s => s.tsName
  | ls s => s.lsName
  | pr s => s.prName

instance : Tagged Sym := ⟨fun s => s.id.idTag⟩

/-! ## The symbols of a declaration -/

def symsTy (ty : Ty) : List Sym := ty.syms.map fun ts => .ts ts.embed

mutual

def symsPattern : Pattern → List Sym
  | .pwild ty => symsTy ty
  | .pvar v => symsTy v.vsTy
  | .papp fs pl ty => symsTy ty ++ .ls fs :: symsPatternList pl
  | .por p q => symsTy p.patTy ++ symsPattern p ++ symsPattern q
  | .pas p v => symsTy v.vsTy ++ symsPattern p

def symsPatternList : List Pattern → List Sym
  | [] => []
  | p :: pl => symsPattern p ++ symsPatternList pl

end

mutual

def symsTerm : Term → List Sym
  | .tvar _ v => symsTy v.vsTy
  | .tbnd _ _ ty => symsTy ty
  | .tconst _ _ ty => symsTy ty
  | .tapp _ ls tl ty => (ty.elim [] symsTy) ++ .ls ls :: symsTermList tl
  | .tif _ f t e => symsTerm f ++ symsTerm t ++ symsTerm e
  | .tlet _ t _ e => symsTerm t ++ symsTerm e
  | .tcase _ t bl => symsTerm t ++ symsTermBranches bl
  | .teps _ v f => symsTy v.vsTy ++ symsTerm f
  | .tquant _ _ vl trl f =>
    (vl.flatMap fun v => symsTy v.vsTy) ++ symsTermTriggers trl ++ symsTerm f
  | .tbinop _ _ f g => symsTerm f ++ symsTerm g
  | .tnot _ f => symsTerm f
  | .ttrue _ => []
  | .tfalse _ => []

def symsTermList : List Term → List Sym
  | [] => []
  | t :: tl => symsTerm t ++ symsTermList tl

def symsTermBranches : List (Pattern × Term) → List Sym
  | [] => []
  | (p, t) :: bl => symsPattern p ++ symsTerm t ++ symsTermBranches bl

def symsTermTriggers : List (List Term) → List Sym
  | [] => []
  | tl :: trl => symsTermList tl ++ symsTermTriggers trl

end

def lsDefnBody (ld : LsDefn) : Except Exn Term :=
  let f := match ld.2.1 with
    | .tquant _ .tforall _ _ f => f
    | f => f
  match f with
  | .tapp _ _ [_, f] _ => .ok f
  | .tbinop _ _ _ f => .ok f
  | _ => .error .assertFailure

def getDeclSyms : Decl → Except Exn (List Sym)
  | .dtype ts =>
    match ts.tsDef with
    | .alias ty => .ok (symsTy ty)
    | _ => .ok []
  | .ddata tdl => .ok (tdl.flatMap fun td => td.2.flatMap fun c => c.1.lsArgs.flatMap symsTy)
  | .dparam ls => .ok ((ls.lsValue.elim [] symsTy) ++ ls.lsArgs.flatMap symsTy)
  | .dlogic ldl =>
    ldl.foldlM (fun syms (ls, ld) => do
      let e ← lsDefnBody ld
      .ok (syms ++ ls.lsArgs.flatMap symsTy ++ symsTerm e)) []
  | .dind _ idl => .ok (idl.flatMap fun id => id.2.flatMap fun a => symsTerm a.2)
  | .dprop _ _ f => .ok (symsTerm f)

def projections (cl : List Constructor) : TagMap LSymbol Unit :=
  TagMap.ofList (cl.flatMap fun c => c.2.reduceOption)

def declNews : Decl → List Sym
  | .dtype ts => [.ts ts]
  | .ddata tdl =>
    tdl.flatMap fun td =>
      .ts td.1.embed :: ((projections td.2).bindings.map fun b => Sym.ls b.1) ++
        td.2.map fun c => .ls c.1
  | .dparam ls => [.ls ls]
  | .dlogic ldl => ldl.map fun ld => .ls ld.1
  | .dind _ idl => idl.flatMap fun id => .ls id.1 :: id.2.map fun a => .pr a.1
  | .dprop _ pr _ => [.pr pr]

/-! ## Declarations of algebraic types -/

def tyEqualCheck (ty1 ty2 : Ty) : Except Exn Unit :=
  if ty1 = ty2 then .ok () else .error (.typeMismatch ty1 ty2)

def newsId (news : List Sym) (s : Sym) : Except Exn (List Sym) :=
  if s ∈ news then .error (.clashIdent s.id) else .ok (news ++ [s])

/-- A projection is a function from the declared type to the type of the
argument, and stands for one argument only. -/
def checkProj (tyv : Ty) (s : TagMap LSymbol Unit) (tya : Ty) :
    Option LSymbol → Except Exn (TagMap LSymbol Unit)
  | none => .ok s
  | some ls =>
    match ls.lsArgs, ls.lsValue, ls.lsConstr with
    | [ptyv], some ptya, 0 => do
      tyEqualCheck tyv ptyv
      tyEqualCheck tya ptya
      if s.mem ls then .error (.duplicateRecordField ls) else .ok (s.add ls ())
    | _, _, _ => .error (.badRecordField ls)

def checkProjs (fs : LSymbol) (tyv : Ty) :
    TagMap LSymbol Unit → List Ty → List (Option LSymbol) → Except Exn (TagMap LSymbol Unit)
  | s, [], [] => .ok s
  | s, tya :: tyl, ls :: pl => do checkProjs fs tyv (← checkProj tyv s tya ls) tyl pl
  | _, [], _ :: _ => .error (.badConstructor fs)
  | _, _ :: _, [] => .error (.badConstructor fs)

mutual

/-- An argument type mentions the variables `vs` only, and no symbol of the group
`tss` stands in an argument of another one. -/
def checkArg (tys : TySymbol) (fs : LSymbol) (tss : List TySymbol) (vs : List TvSymbol) :
    Bool → Ty → Except Exn Unit
  | _, .tyvar v => if v ∈ vs then .ok () else .error (.unboundTypeVar v)
  | seen, .tyapp ts tl =>
    if seen && decide (ts ∈ tss) then .error (.nonPositiveTypeDecl tys fs (.tyapp ts tl))
    else checkArgList tys fs tss vs (seen || decide (ts ∈ tss)) tl

def checkArgList (tys : TySymbol) (fs : LSymbol) (tss : List TySymbol) (vs : List TvSymbol) :
    Bool → List Ty → Except Exn Unit
  | _, [] => .ok ()
  | seen, ty :: tl => do
    checkArg tys fs tss vs seen ty
    checkArgList tys fs tss vs seen tl

end

def checkConstr (tss : List TySymbol) (tys : TySymbol) (ty : Ty) (cll : ℕ)
    (pjs : TagMap LSymbol Unit) (news : List Sym) (c : Constructor) : Except Exn (List Sym) := do
  let (fs, pl) := c
  match fs.lsValue with
  | none => .error (.badConstructor fs)
  | some vty => tyEqualCheck ty vty
  let fsPjs ← checkProjs fs ty .empty fs.lsArgs pl
  match pjs.bindings.find? fun b => !fsPjs.mem b.1 with
  | some b => .error (.recordFieldMissing b.1)
  | none =>
    if fs.lsConstr = cll then do
      checkArgList tys fs tss ty.freevars false fs.lsArgs
      newsId news (.ls fs)
    else .error (.badConstructor fs)

def checkDataDecl (tss : List TySymbol) (news : List Sym) (td : DataDecl) :
    Except Exn (List Sym) := do
  let (ts, cl) := td
  if cl.isEmpty then .error (.emptyAlgDecl ts)
  else if ts.tsDef ≠ .noDef then .error (.illegalTypeAlias ts)
  else do
    let news ← newsId news (.ts ts.embed)
    let pjs := projections cl
    let news ← pjs.bindings.foldlM (fun news b => newsId news (.ls b.1)) news
    cl.foldlM (checkConstr tss ts (.tyapp ts (ts.tsArgs.map .tyvar)) cl.length pjs) news

def createDataDecl (tdl : List DataDecl) : Except Exn Decl :=
  if tdl.isEmpty then .error .emptyDecl
  else do
    let _ ← tdl.foldlM (checkDataDecl (tdl.map Prod.fst)) []
    .ok (.ddata tdl)

/-! ## Known maps -/

abbrev KnownMap := TagMap Sym Decl

def eqLd (ld1 ld2 : LogicDecl) : Bool :=
  decide (ld1.1 = ld2.1) && Term.tEqualStrict ld1.2.2.1 ld2.2.2.1

def eqIax (a1 a2 : PrSymbol × Term) : Bool :=
  decide (a1.1 = a2.1) && Term.tEqualStrict a1.2 a2.2

def listEqual {α : Type} (eq : α → α → Bool) : List α → List α → Bool
  | [], [] => true
  | a :: l, b :: l' => eq a b && listEqual eq l l'
  | _, _ => false

/-- Declarations are shared, so that equal ones are the same in the source. -/
def dEqual : Decl → Decl → Bool
  | .dtype s1, .dtype s2 => decide (s1 = s2)
  | .ddata l1, .ddata l2 => decide (l1 = l2)
  | .dparam s1, .dparam s2 => decide (s1 = s2)
  | .dlogic l1, .dlogic l2 => listEqual eqLd l1 l2
  | .dind s1 l1, .dind s2 l2 =>
    decide (s1 = s2) &&
      listEqual (fun i1 i2 => decide (i1.1 = i2.1) && listEqual eqIax i1.2 i2.2) l1 l2
  | .dprop k1 pr1 f1, .dprop k2 pr2 f2 =>
    decide (k1 = k2) && decide (pr1 = pr2) && Term.tEqualStrict f1 f2
  | _, _ => false

def addNew (decl : Decl) (kn : KnownMap) (s : Sym) : Except Exn KnownMap :=
  match kn.find? s with
  | none => .ok (kn.add s decl)
  | some decl0 =>
    if dEqual decl0 decl then .error (.knownIdent s.id) else .error (.redeclaredIdent s.id)

/-- Add the symbols of a declaration; those it uses must then be known. -/
def knownAddDeclBase (kn0 : KnownMap) (decl : Decl) : Except Exn KnownMap := do
  let kn ← (declNews decl).foldlM (addNew decl) kn0
  let syms ← getDeclSyms decl
  match syms.find? fun s => !kn.mem s with
  | none => .ok kn
  | some s => .error (.unknownIdent s.id)

def assq {α β : Type} [DecidableEq α] (a : α) (l : List (α × β)) : Except Exn β :=
  match l.lookup a with
  | some b => .ok b
  | none => .error .notFound

def findConstructors (kn : KnownMap) (ts : TySymbol) : Except Exn (List Constructor) :=
  match kn.find? (.ts ts.embed) with
  | some (.dtype _) => .ok []
  | some (.ddata dl) => assq ts dl
  | some _ => .error .assertFailure
  | none => .error .notFound

/-! ## Positivity -/

section ExtractPos

variable (ext : TySymbol → Except Exn (List Bool))

mutual

/-- Add the type variables of a type that are not in a positive position, the
positions of the arguments of a symbol being given by `ext`. -/
def getTy : List TvSymbol → Ty → Except Exn (List TvSymbol)
  | stv, .tyvar _ => .ok stv
  | stv, .tyapp ts tl => do getTyList stv (← ext ts) tl

def getTyList : List TvSymbol → List Bool → List Ty → Except Exn (List TvSymbol)
  | stv, [], [] => .ok stv
  | stv, true :: posl, ty :: tl => do getTyList (← getTy stv ty) posl tl
  | stv, false :: posl, ty :: tl => getTyList (stv ++ ty.freevars) posl tl
  | _, [], _ :: _ => .error .assertFailure
  | _, _ :: _, [] => .error .assertFailure

end

def getCs (stv : List TvSymbol) (c : Constructor) : Except Exn (List TvSymbol) :=
  c.1.lsArgs.foldlM (getTy ext) stv

end ExtractPos

/-- Which parameters of a type symbol are positive. The symbols `sts` are being
expanded already; the first argument bounds the depth of the expansion. -/
def tsExtractPosFuel (kn : KnownMap) : ℕ → List TySymbol → TySymbol → Except Exn (List Bool)
  | 0, _, _ => .error .outOfFuel
  | fuel + 1, sts, ts =>
    if ts = tsFunc then .ok [false, true]
    else if ts ∈ sts then .ok (ts.tsArgs.map fun _ => true)
    else do
      match ← findConstructors kn ts with
      | [] => .ok (ts.tsArgs.map fun _ => false)
      | csl => do
        let negs ← csl.foldlM (getCs (tsExtractPosFuel kn fuel (ts :: sts))) []
        .ok (ts.tsArgs.map fun v => decide (v ∉ negs))

/-- No symbol is expanded inside its own expansion, so that the number of known
symbols bounds the depth. -/
def tsExtractPos (kn : KnownMap) (sts : List TySymbol) (ts : TySymbol) :
    Except Exn (List Bool) :=
  tsExtractPosFuel kn (kn.bindings.length + 2) sts ts

section CheckPositivity

variable (kn : KnownMap) (tss : List TySymbol) (tys : TySymbol) (cs : LSymbol)

mutual

/-- No symbol of the group `tss` stands where the position is not positive. -/
def checkPosTy : Ty → Except Exn Unit
  | .tyvar _ => .ok ()
  | .tyapp ts tl => do checkPosList (← tsExtractPos kn [] ts) tl

def checkPosList : List Bool → List Ty → Except Exn Unit
  | [], [] => .ok ()
  | true :: posl, ty :: tl => do
    checkPosTy ty
    checkPosList posl tl
  | false :: posl, ty :: tl =>
    if ty.syms.any fun ts => decide (ts ∈ tss) then
      .error (.nonPositiveTypeDecl tys cs ty)
    else checkPosList posl tl
  | [], _ :: _ => .error .assertFailure
  | _ :: _, [] => .error .assertFailure

end

end CheckPositivity

def checkPositivity (kn : KnownMap) : Decl → Except Exn Unit
  | .ddata tdl =>
    tdl.forM fun td => td.2.forM fun c =>
      c.1.lsArgs.forM (checkPosTy kn (tdl.map Prod.fst) td.1 c.1)
  | _ => .ok ()

/-! ## Inhabitation -/

section CheckFoundness

variable (kn : KnownMap) (checkTs : List TvSymbol → TySymbol → Except Exn Bool)

mutual

def checkType (tvs : List TvSymbol) : Ty → Except Exn Bool
  | .tyvar tv => .ok (decide (tv ∉ tvs))
  | .tyapp ts tl => do checkTs (← emptyArgs tvs ts.tsArgs tl) ts

def emptyArgs (tvs : List TvSymbol) :
    List TvSymbol → List Ty → Except Exn (List TvSymbol)
  | [], [] => .ok []
  | tv :: tvl, ty :: tl => do
    let b ← checkType tvs ty
    let acc ← emptyArgs tvs tvl tl
    .ok (if b then acc else tv :: acc)
  | [], _ :: _ => .error .assertFailure
  | _ :: _, [] => .error .assertFailure

end

end CheckFoundness

def forAllM {α : Type} (f : α → Except Exn Bool) : List α → Except Exn Bool
  | [] => .ok true
  | a :: l => do if ← f a then forAllM f l else .ok false

def existsM {α : Type} (f : α → Except Exn Bool) : List α → Except Exn Bool
  | [] => .ok false
  | a :: l => do if ← f a then .ok true else existsM f l

/-- Whether a type symbol has a value, the parameters `tvs` having none. A symbol
that is being expanded already is given up. -/
def checkTsFuel (kn : KnownMap) :
    ℕ → List TySymbol → List TvSymbol → TySymbol → Except Exn Bool
  | 0, _, _, _ => .error .outOfFuel
  | fuel + 1, tss, tvs, ts =>
    if ts ∈ tss then .ok false
    else do
      match ← findConstructors kn ts with
      | [] => .ok tvs.isEmpty
      | cl => existsM (fun c => forAllM (checkType (checkTsFuel kn fuel (ts :: tss)) tvs)
          c.1.lsArgs) cl

def checkTs (kn : KnownMap) (tss : List TySymbol) (tvs : List TvSymbol) (ts : TySymbol) :
    Except Exn Bool :=
  checkTsFuel kn (kn.bindings.length + 2) tss tvs ts

def checkFoundness (kn : KnownMap) : Decl → Except Exn Unit
  | .ddata tdl =>
    tdl.forM fun td => do
      if ← checkTs kn [] [] td.1 then .ok () else .error (.nonFoundedTypeDecl td.1)
  | _ => .ok ()

/-! ## Exhaustiveness of matches -/

section CheckMatch

variable (kn : KnownMap)

def getConstructors (ts : TySymbol) : Except Exn (Option (List LSymbol)) := do
  let cl ← findConstructors kn ts
  .ok (some (cl.map Prod.fst))

mutual

def checkMatchTerm : Term → Except Exn Unit
  | .tvar _ _ | .tbnd _ _ _ | .tconst _ _ _ | .ttrue _ | .tfalse _ => .ok ()
  | .tapp _ _ tl _ => checkMatchList tl
  | .tif _ f t e => do
    checkMatchTerm f
    checkMatchTerm t
    checkMatchTerm e
  | .tlet _ t _ e => do
    checkMatchTerm t
    checkMatchTerm e
  | .tcase _ t bl => do
    Pattern.checkCompile (getConstructors kn) 0 [t] (bl.map fun b => [b.1])
    checkMatchTerm t
    checkMatchBranches bl
  | .teps _ _ f => checkMatchTerm f
  | .tquant _ _ _ trl f => do
    checkMatchTerm f
    checkMatchTriggers trl
  | .tbinop _ _ f g => do
    checkMatchTerm f
    checkMatchTerm g
  | .tnot _ f => checkMatchTerm f

def checkMatchList : List Term → Except Exn Unit
  | [] => .ok ()
  | t :: tl => do
    checkMatchTerm t
    checkMatchList tl

def checkMatchBranches : List (Pattern × Term) → Except Exn Unit
  | [] => .ok ()
  | (_, t) :: bl => do
    checkMatchTerm t
    checkMatchBranches bl

def checkMatchTriggers : List (List Term) → Except Exn Unit
  | [] => .ok ()
  | tl :: trl => do
    checkMatchList tl
    checkMatchTriggers trl

end

def checkMatch : Decl → Except Exn Unit
  | .dlogic ldl => ldl.forM fun ld => do checkMatchTerm kn (← lsDefnBody ld.2)
  | .dind _ idl => idl.forM fun id => id.2.forM fun a => checkMatchTerm kn a.2
  | .dprop _ _ f => checkMatchTerm kn f
  | _ => .ok ()

end CheckMatch

def knownAddDecl (kn : KnownMap) (d : Decl) : Except Exn KnownMap := do
  let kn ← knownAddDeclBase kn d
  checkPositivity kn d
  checkFoundness kn d
  checkMatch kn d
  .ok kn

end Why3
