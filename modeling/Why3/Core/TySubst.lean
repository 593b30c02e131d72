import Why3.Core.FreeVars
import Why3.Core.Simp

/-!
# Substitution of types in terms

Terms under a map of their types, after `src/core/term.ml`. The variables of a pattern
get new names, which nothing outside of the pattern depends on; those of the other
binders have no name to keep. A free variable whose type changes is replaced by a new
variable.
-/

namespace Why3

open Lib List

variable {fnT : Ty → Ty} {m : VSymbol → VSymbol}

namespace Pattern

mutual

def genMap (fnT : Ty → Ty) (m : VSymbol → VSymbol) : Pattern → Pattern
  | pwild ty => pwild (fnT ty)
  | pvar v => pvar (m v)
  | papp fs pl ty => papp fs (genMapList fnT m pl) (fnT ty)
  | por p q => por (genMap fnT m p) (genMap fnT m q)
  | pas p v => pas (genMap fnT m p) (m v)

def genMapList (fnT : Ty → Ty) (m : VSymbol → VSymbol) : List Pattern → List Pattern
  | [] => []
  | p :: pl => genMap fnT m p :: genMapList fnT m pl

end

theorem genMapList_eq_map (pl : List Pattern) : genMapList fnT m pl = pl.map (genMap fnT m) := by
  induction pl with
  | nil => rfl
  | cons p pl ih => rw [genMapList, ih, map_cons]

def genVar (fnT : Ty → Ty) (p : Pattern) (v : VSymbol) : VSymbol :=
  ⟨⟨p.vars.idxOf v⟩, fnT v.vsTy⟩

end Pattern

namespace Term

open List

mutual

/-- Map the types of a term, and its free variables. The types of constants are closed. -/
def genMap (fnT : Ty → Ty) (m : VSymbol → VSymbol) : Term → Term
  | tvar a v => tvar a (m v)
  | tbnd a i ty => tbnd a i (fnT ty)
  | tconst a c ty => tconst a c (fnT ty)
  | tapp a ls tl ty => tapp a ls (genMapList fnT m tl) (ty.map fnT)
  | tif a f t e => tif a (genMap fnT m f) (genMap fnT m t) (genMap fnT m e)
  | tlet a t v e => tlet a (genMap fnT m t) ⟨v.vsName, fnT v.vsTy⟩ (genMap fnT m e)
  | tcase a t bl => tcase a (genMap fnT m t) (genMapBranches fnT m bl)
  | teps a v f => teps a ⟨v.vsName, fnT v.vsTy⟩ (genMap fnT m f)
  | tquant a q vl trl f =>
    tquant a q (vl.map fun v => ⟨v.vsName, fnT v.vsTy⟩) (genMapTriggers fnT m trl)
      (genMap fnT m f)
  | tbinop a op f g => tbinop a op (genMap fnT m f) (genMap fnT m g)
  | tnot a f => tnot a (genMap fnT m f)
  | ttrue a => ttrue a
  | tfalse a => tfalse a

def genMapList (fnT : Ty → Ty) (m : VSymbol → VSymbol) : List Term → List Term
  | [] => []
  | t :: tl => genMap fnT m t :: genMapList fnT m tl

def genMapBranches (fnT : Ty → Ty) (m : VSymbol → VSymbol) :
    List (Pattern × Term) → List (Pattern × Term)
  | [] => []
  | (p, t) :: bl => (p.genMap fnT (p.genVar fnT), genMap fnT m t) :: genMapBranches fnT m bl

def genMapTriggers (fnT : Ty → Ty) (m : VSymbol → VSymbol) : List (List Term) → List (List Term)
  | [] => []
  | tl :: trl => genMapList fnT m tl :: genMapTriggers fnT m trl

end

theorem genMapList_eq_map (tl : List Term) : genMapList fnT m tl = tl.map (genMap fnT m) := by
  induction tl with
  | nil => rfl
  | cons t tl ih => rw [genMapList, ih, map_cons]

theorem genMapBranches_eq_map (bl : List (Pattern × Term)) : genMapBranches fnT m bl =
      bl.map fun (p, t) => (p.genMap fnT (p.genVar fnT), genMap fnT m t) := by
  induction bl with
  | nil => rfl
  | cons b bl ih => rw [genMapBranches, ih, map_cons]

theorem genMapTriggers_eq_map (trl : List (List Term)) :
    genMapTriggers fnT m trl = trl.map (·.map (genMap fnT m)) := by
  induction trl with
  | nil => rfl
  | cons tl trl ih => rw [genMapTriggers, ih, genMapList_eq_map, map_cons]

theorem freeVars_genMap (t : Term) : (t.genMap fnT m).freeVars = t.freeVars.map m := by
  induction t using inductionOn with
  | tapp _ _ tl _ ih =>
    simp only [genMap, freeVars, genMapList_eq_map, freeVarsList_eq, flatMap_map, map_flatMap]
    exact flatMap_congr ih
  | tcase _ t bl iht ihb =>
    simp only [genMap, freeVars, iht, genMapBranches_eq_map, freeVarsBranches_eq,
      flatMap_map, map_append, map_flatMap]
    exact congrArg _ (flatMap_congr fun b h => ihb b.1 b.2 h)
  | tquant _ _ _ trl f iht ihf =>
    simp only [genMap, freeVars, ihf, genMapTriggers_eq_map, freeVarsTriggers_eq,
      flatMap_map, map_append, map_flatMap]
    exact congrArg (· ++ _) (flatMap_congr fun tl htl => flatMap_congr (iht tl htl))
  | _ => simp_all [genMap, freeVars]

def genMapV (fnT : Ty → Ty) : ℕ → List VSymbol → List (VSymbol × VSymbol)
  | _, [] => []
  | n, v :: vl =>
    (v, if fnT v.vsTy = v.vsTy then v else ⟨⟨n⟩, fnT v.vsTy⟩) :: genMapV fnT (n + 1) vl

def substTypes (mapV : TagMap VSymbol Term) (m : List (VSymbol × VSymbol)) :
    Except Exn (List (VSymbol × Term)) :=
  m.foldrM (fun (v, u) s =>
    match mapV.find? v with
    | some t => do
      vsCheck u t
      .ok ((u, t) :: s)
    | none => .ok s) []

/-- The types `mapT` take the place of the type variables, and the terms `mapV` that of
the variables. -/
def tTySubst (n : ℕ) (mapT : TagMap TvSymbol Ty) (mapV : TagMap VSymbol Term) (t : Term) :
    Except Exn Term := do
  let vl := (TagMap.ofList t.freeVars).bindings.map Prod.fst
  let m := genMapV (tyInst mapT) n vl
  let s ← substTypes mapV m
  .ok (tSubst (fun v => s.lookup v) (genMap (tyInst mapT) (fun v => (m.lookup v).getD v) t))

theorem tTySubst_closed {n : ℕ} {mapT : TagMap TvSymbol Ty} {t : Term} (ht : t.freeVars = []) :
    tTySubst n mapT .empty t = .ok (t.genMap (tyInst mapT) id) := by
  have hself : ∀ t : Term, tSubst (fun _ => none) t = t := by
    intro t
    exact mapVars_self (fun _ _ _ => rfl) (fun _ _ _ _ => rfl) t 0
  rw [tTySubst, ht]
  change Except.ok (tSubst (fun _ => none) _) = _
  rw [hself]
  rfl

end Term

end Why3
