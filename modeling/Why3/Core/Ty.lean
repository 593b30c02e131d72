import Why3.Lib.TagMap
import Mathlib.Data.Finset.Basic

/-!
# Types

Type variables, type symbols and types, after `src/core/ty.ml`. An identifier is
known by its tag alone: names, locations and attributes of identifiers play no
part in the comparison of symbols.

An alias is expanded as soon as it is applied, so no type mentions an alias
symbol. This is a matter of typing here: `TySym α` is a type symbol whose alias
definitions are values of `α`, the symbols that occur in types are the
`TySym Empty`, and the symbols that a declaration may introduce are the
`TySym Ty`.
-/

namespace Why3

open Lib List

structure Ident where
  idTag : ℕ
  deriving DecidableEq, Repr

instance : Tagged Ident := ⟨Ident.idTag⟩

structure TvSymbol where
  tvName : Ident
  deriving DecidableEq, Repr

instance : Tagged TvSymbol := ⟨fun tv => tv.tvName.idTag⟩

structure IntRange where
  irLower : ℤ
  irUpper : ℤ
  deriving DecidableEq, Repr

structure FloatFormat where
  fpExponentDigits : ℕ
  fpSignificandDigits : ℕ
  deriving DecidableEq, Repr

inductive TypeDef (α : Type) where
  | noDef
  | alias (ty : α)
  | range (ir : IntRange)
  | float (fp : FloatFormat)
  deriving DecidableEq, Repr

/-- Type symbols whose aliases are values of `α`. No parameter is repeated. -/
structure TySym (α : Type) where
  tsName : Ident
  tsArgs : List TvSymbol
  tsDef : TypeDef α
  argsNodup : tsArgs.Nodup := by decide
  deriving DecidableEq, Repr

/-- The type symbols that occur in types: none of them is an alias. -/
abbrev TySymbol := TySym Empty

instance {α : Type} : Tagged (TySym α) := ⟨fun ts => ts.tsName.idTag⟩

inductive Ty where
  | tyvar (tv : TvSymbol)
  | tyapp (ts : TySymbol) (tl : List Ty)
  deriving Repr

variable {tl : List Ty} {v : TvSymbol} {fn : TvSymbol → Ty} {ts : TySymbol}
variable {α β : Type} {fn' : TvSymbol → Ty} {ty : Ty} {P : Ty → Prop} {a : α} {b : β} {j : ℕ}

namespace Ty

instance : Inhabited Ty := ⟨tyvar ⟨⟨0⟩⟩⟩

mutual

/-- Equality of types. Types are hash-consed in the source, so that it is
physical equality there. -/
def decEq : (a b : Ty) → Decidable (a = b)
  | tyvar v, tyvar w =>
    if h : v = w then isTrue (by rw [h]) else isFalse (by simp [h])
  | tyapp s l, tyapp s' l' =>
    if h : s = s' then
      match decEqList l l' with
      | isTrue h' => isTrue (by rw [h, h'])
      | isFalse h' => isFalse (by simp [h'])
    else isFalse (by simp [h])
  | tyvar _, tyapp _ _ => isFalse (by simp)
  | tyapp _ _, tyvar _ => isFalse (by simp)

def decEqList : (l l' : List Ty) → Decidable (l = l')
  | [], [] => isTrue rfl
  | a :: l, b :: l' =>
    match decEq a b with
    | isTrue h =>
      match decEqList l l' with
      | isTrue h' => isTrue (by rw [h, h'])
      | isFalse h' => isFalse (by simp [h'])
    | isFalse h => isFalse (by simp [h])
  | [], _ :: _ => isFalse (by simp)
  | _ :: _, [] => isFalse (by simp)

end

instance : DecidableEq Ty := decEq

mutual

/-- Induction over types, the arguments of an application being taken together. -/
theorem inductionOn (hvar : ∀ tv, P (tyvar tv))
    (happ : ∀ ts tl, (∀ ty ∈ tl, P ty) → P (tyapp ts tl)) : ∀ ty, P ty
  | tyvar tv => hvar tv
  | tyapp ts tl => happ ts tl (inductionOnList hvar happ tl)

theorem inductionOnList (hvar : ∀ tv, P (tyvar tv))
    (happ : ∀ ts tl, (∀ ty ∈ tl, P ty) → P (tyapp ts tl)) : ∀ (tl : List Ty), ∀ ty ∈ tl, P ty
  | [], _, h => absurd h (by simp)
  | a :: tl, ty, h => by
    rcases mem_cons.mp h with heq | hmem
    · rw [heq]
      exact inductionOn hvar happ a
    · exact inductionOnList hvar happ tl ty hmem

end

/-! ## Traversals -/

mutual

def vMap (fn : TvSymbol → Ty) : Ty → Ty
  | tyvar v => fn v
  | tyapp ts tl => tyapp ts (vMapList fn tl)

def vMapList (fn : TvSymbol → Ty) : List Ty → List Ty
  | [] => []
  | ty :: tl => vMap fn ty :: vMapList fn tl

end

mutual

def freevars : Ty → List TvSymbol
  | tyvar v => [v]
  | tyapp _ tl => freevarsList tl

def freevarsList : List Ty → List TvSymbol
  | [] => []
  | ty :: tl => freevars ty ++ freevarsList tl

end

mutual

def syms : Ty → List TySymbol
  | tyvar _ => []
  | tyapp ts tl => ts :: symsList tl

def symsList : List Ty → List TySymbol
  | [] => []
  | ty :: tl => syms ty ++ symsList tl

end

mutual

/-- Every symbol of the type is applied to as many arguments as it has
parameters, as `ty_app` checks. -/
def saturated : Ty → Bool
  | tyvar _ => true
  | tyapp ts tl => tl.length == ts.tsArgs.length && saturatedList tl

def saturatedList : List Ty → Bool
  | [] => true
  | ty :: tl => saturated ty && saturatedList tl

end

theorem vMapList_eq_map (fn : TvSymbol → Ty) (tl : List Ty) :
    vMapList fn tl = tl.map (vMap fn) := by
  induction tl with
  | nil => rfl
  | cons ty tl ih => rw [vMapList, ih, map_cons]

theorem mem_freevarsList (tl : List Ty) (v : TvSymbol) :
    v ∈ freevarsList tl ↔ ∃ ty ∈ tl, v ∈ freevars ty := by
  induction tl with
  | nil => simp [freevarsList]
  | cons ty tl ih => simp [freevarsList, ih]

theorem mem_symsList (tl : List Ty) (ts : TySymbol) :
    ts ∈ symsList tl ↔ ∃ ty ∈ tl, ts ∈ syms ty := by
  induction tl with
  | nil => simp [symsList]
  | cons ty tl ih => simp [symsList, ih]

theorem saturatedList_iff (tl : List Ty) :
    saturatedList tl = true ↔ ∀ ty ∈ tl, saturated ty = true := by
  induction tl with
  | nil => simp [saturatedList]
  | cons ty tl ih => simp [saturatedList, ih]

@[simp] theorem vMap_tyvar (fn : TvSymbol → Ty) (v : TvSymbol) : vMap fn (tyvar v) = fn v := rfl

@[simp] theorem vMap_tyapp (fn : TvSymbol → Ty) (ts : TySymbol) (tl : List Ty) :
    vMap fn (tyapp ts tl) = tyapp ts (tl.map (vMap fn)) := by
  rw [vMap, vMapList_eq_map]

@[simp] theorem freevars_tyvar (v : TvSymbol) : freevars (tyvar v) = [v] := rfl

@[simp] theorem mem_freevars_tyapp (ts : TySymbol) (tl : List Ty) (v : TvSymbol) :
    v ∈ freevars (tyapp ts tl) ↔ ∃ ty ∈ tl, v ∈ freevars ty :=
  mem_freevarsList tl v

@[simp] theorem syms_tyvar (v : TvSymbol) : syms (tyvar v) = [] := rfl

@[simp] theorem mem_syms_tyapp (ts : TySymbol) (tl : List Ty) (ts' : TySymbol) :
    ts' ∈ syms (tyapp ts tl) ↔ ts' = ts ∨ ∃ ty ∈ tl, ts' ∈ syms ty := by
  rw [syms, mem_cons, mem_symsList]

@[simp] theorem saturated_tyapp (ts : TySymbol) (tl : List Ty) :
    saturated (tyapp ts tl) = true ↔
      tl.length = ts.tsArgs.length ∧ ∀ ty ∈ tl, saturated ty = true := by
  rw [saturated, Bool.and_eq_true, saturatedList_iff, beq_iff_eq]

theorem vMap_congr (ty : Ty) (h : ∀ v ∈ freevars ty, fn v = fn' v) : vMap fn ty = vMap fn' ty := by
  induction ty using inductionOn with
  | hvar v => exact h v (by simp)
  | happ ts tl ih =>
    rw [vMap_tyapp, vMap_tyapp]
    congr 1
    apply map_congr_left
    intro ty hty
    exact ih ty hty fun v hv => h v ((mem_freevars_tyapp ts tl v).mpr ⟨ty, hty, hv⟩)

theorem eq_of_vMap_eq (ty : Ty) (h : vMap fn ty = vMap fn' ty) :
    ∀ v ∈ freevars ty, fn v = fn' v := by
  induction ty using inductionOn with
  | hvar v => exact fun w hw => mem_singleton.mp hw ▸ h
  | happ ts tl ih =>
    rw [vMap_tyapp, vMap_tyapp, tyapp.injEq, map_inj_left] at h
    intro v hv
    obtain ⟨ty, hty, hv⟩ := (mem_freevars_tyapp ts tl v).mp hv
    exact ih ty hty (h.2 ty hty) v hv

theorem vMap_tyvar_eq_self (ty : Ty) : vMap tyvar ty = ty := by
  induction ty using inductionOn with
  | hvar v => rfl
  | happ ts tl ih =>
    rw [vMap_tyapp]
    congr 1
    rw [map_congr_left ih, map_id']

theorem vMap_vMap (fn fn' : TvSymbol → Ty) (ty : Ty) :
    vMap fn (vMap fn' ty) = vMap (fun v => vMap fn (fn' v)) ty := by
  induction ty using inductionOn with
  | hvar v => rfl
  | happ ts tl ih =>
    rw [vMap_tyapp, vMap_tyapp, vMap_tyapp, map_map]
    congr 1
    apply map_congr_left
    intro ty hty
    exact ih ty hty

theorem mem_freevars_vMap (fn : TvSymbol → Ty) (ty : Ty) (v : TvSymbol) :
    v ∈ freevars (vMap fn ty) ↔ ∃ w ∈ freevars ty, v ∈ freevars (fn w) := by
  induction ty using inductionOn with
  | hvar w => simp
  | happ ts tl ih =>
    simp only [vMap_tyapp, mem_freevars_tyapp, mem_map, exists_exists_and_eq_and]
    constructor
    · rintro ⟨ty, hty, hv⟩
      obtain ⟨w, hw, hvw⟩ := (ih ty hty).mp hv
      exact ⟨w, ⟨ty, hty, hw⟩, hvw⟩
    · rintro ⟨w, ⟨ty, hty, hw⟩, hvw⟩
      exact ⟨ty, hty, (ih ty hty).mpr ⟨w, hw, hvw⟩⟩

theorem mem_syms_vMap (fn : TvSymbol → Ty) (ty : Ty) (ts : TySymbol) :
    ts ∈ syms (vMap fn ty) ↔ ts ∈ syms ty ∨ ∃ w ∈ freevars ty, ts ∈ syms (fn w) := by
  induction ty using inductionOn with
  | hvar w => simp
  | happ ts' tl ih =>
    simp only [vMap_tyapp, mem_syms_tyapp, mem_freevars_tyapp, mem_map, exists_exists_and_eq_and]
    constructor
    · rintro (heq | ⟨ty, hty, hts⟩)
      · exact .inl (.inl heq)
      · rcases (ih ty hty).mp hts with h | ⟨w, hw, h⟩
        · exact .inl (.inr ⟨ty, hty, h⟩)
        · exact .inr ⟨w, ⟨ty, hty, hw⟩, h⟩
    · rintro ((heq | ⟨ty, hty, h⟩) | ⟨w, ⟨ty, hty, hw⟩, h⟩)
      · exact .inl heq
      · exact .inr ⟨ty, hty, (ih ty hty).mpr (.inl h)⟩
      · exact .inr ⟨ty, hty, (ih ty hty).mpr (.inr ⟨w, hw, h⟩)⟩

theorem saturated_vMap (hty : saturated ty = true) (h : ∀ v ∈ freevars ty, saturated (fn v) = true) :
    saturated (vMap fn ty) = true := by
  induction ty using inductionOn with
  | hvar v => exact h v (by simp)
  | happ ts tl ih =>
    obtain ⟨hl, htl⟩ := (saturated_tyapp ts tl).mp hty
    rw [vMap_tyapp, saturated_tyapp, length_map]
    refine ⟨hl, ?_⟩
    intro ty' hty'
    obtain ⟨ty, hmem, rfl⟩ := mem_map.mp hty'
    exact ih ty hmem (htl ty hmem) fun v hv =>
      h v ((mem_freevars_tyapp ts tl v).mpr ⟨ty, hmem, hv⟩)

end Ty

/-! ## Instantiation and matching -/

/-- The instance of a type under a map of its variables; a variable that is not
bound stays. -/
def tyInst (s : TagMap TvSymbol Ty) (ty : Ty) : Ty :=
  ty.vMap fun v => s.findDef (.tyvar v) v

mutual

/-- The smallest extension of `s` under which the first type becomes the second,
`none` being the exception `TypeMismatch`. -/
def tyMatch (s : TagMap TvSymbol Ty) : Ty → Ty → Option (TagMap TvSymbol Ty)
  | .tyapp f1 l1, .tyapp f2 l2 => if f1 = f2 then tyMatchList s l1 l2 else none
  | .tyvar n1, ty2 =>
    match s.find? n1 with
    | none => some (s.add n1 ty2)
    | some ty1 => if ty1 = ty2 then some s else none
  | .tyapp _ _, .tyvar _ => none

def tyMatchList (s : TagMap TvSymbol Ty) : List Ty → List Ty → Option (TagMap TvSymbol Ty)
  | [], [] => some s
  | ty1 :: l1, ty2 :: l2 =>
    match tyMatch s ty1 ty2 with
    | some s' => tyMatchList s' l1 l2
    | none => none
  | [], _ :: _ => none
  | _ :: _, [] => none

end

theorem mem_of_lookup [DecidableEq α] {l : List (α × β)} (h : l.lookup a = some b) :
    (a, b) ∈ l := by
  induction l with
  | nil => simp at h
  | cons p l ih =>
    obtain ⟨a', b'⟩ := p
    by_cases ha : a = a'
    · subst ha
      simp only [lookup_cons, beq_self_eq_true, Option.some.injEq] at h
      rw [h]
      exact mem_cons_self
    · have hne : (a == a') = false := by simp [ha]
      rw [lookup_cons, hne] at h
      exact mem_cons_of_mem _ (ih h)

/-! ## Instantiation of the parameters -/

def paramMap (ts : TySymbol) (tl : List Ty) (v : TvSymbol) : Ty :=
  ((ts.tsArgs.zip tl).lookup v).getD (.tyvar v)

theorem lookup_zip_eq_some [DecidableEq α] {l : List α} (hl : l.Nodup) {l' : List β}
    (ha : l[j]? = some a) (hb : l'[j]? = some b) : (l.zip l').lookup a = some b := by
  induction l generalizing l' j with
  | nil => simp at ha
  | cons x l ih =>
    rw [nodup_cons] at hl
    cases l' with
    | nil => simp at hb
    | cons y l' =>
      cases j with
      | zero =>
        simp only [getElem?_cons_zero, Option.some.injEq] at ha hb
        simp [ha, hb]
      | succ j =>
        simp only [getElem?_cons_succ] at ha hb
        have hne : (a == x) = false := by
          rw [beq_eq_false_iff_ne]
          rintro rfl
          exact hl.1 (mem_of_getElem? ha)
        rw [zip_cons_cons, lookup_cons, hne]
        exact ih hl.2 ha hb

theorem paramMap_eq (hv : ts.tsArgs[j]? = some v) (hty : tl[j]? = some ty) :
    paramMap ts tl v = ty := by
  rw [paramMap, lookup_zip_eq_some ts.argsNodup hv hty, Option.getD_some]

theorem exists_paramMap_eq (hl : tl.length = ts.tsArgs.length) (hv : v ∈ ts.tsArgs) :
    ∃ j : ℕ, ts.tsArgs[j]? = some v ∧ tl[j]? = some (paramMap ts tl v) := by
  obtain ⟨j, hj, hjv⟩ := mem_iff_getElem.mp hv
  have hv' : ts.tsArgs[j]? = some v := by rw [getElem?_eq_getElem hj, hjv]
  have hty : tl[j]? = some tl[j] := getElem?_eq_getElem (hl ▸ hj)
  exact ⟨j, hv', by rw [paramMap_eq hv' hty, hty]⟩

theorem paramMap_map (hl : tl.length = ts.tsArgs.length) (hv : v ∈ ts.tsArgs) (f : Ty → Ty) :
    paramMap ts (tl.map f) v = f (paramMap ts tl v) := by
  obtain ⟨j, hj, hty⟩ := exists_paramMap_eq hl hv
  exact paramMap_eq hj (by rw [getElem?_map, hty, Option.map_some])

theorem vMap_paramMap_tyvar (ts : TySymbol) (ty : Ty) :
    ty.vMap (paramMap ts (ts.tsArgs.map .tyvar)) = ty := by
  have hmap : ∀ v ∈ ty.freevars, paramMap ts (ts.tsArgs.map .tyvar) v = .tyvar v := by
    intro v _
    unfold paramMap
    cases hf : (ts.tsArgs.zip (ts.tsArgs.map Ty.tyvar)).lookup v with
    | none => rfl
    | some a =>
      have hmem := mem_of_lookup hf
      rw [← map_prod_left_eq_zip] at hmem
      simp only [mem_map, Prod.mk.injEq] at hmem
      obtain ⟨w, _, rfl, rfl⟩ := hmem
      rfl
  rw [Ty.vMap_congr ty hmap, Ty.vMap_tyvar_eq_self]

/-! ## Built-in symbols -/

def tsInt : TySymbol := ⟨⟨0⟩, [], .noDef, nodup_nil⟩

def tsReal : TySymbol := ⟨⟨1⟩, [], .noDef, nodup_nil⟩

def tsBool : TySymbol := ⟨⟨2⟩, [], .noDef, nodup_nil⟩

/-- The type symbol of mappings, whose first parameter is the type of the
arguments. -/
def tsFunc : TySymbol :=
  { tsName := ⟨6⟩, tsArgs := [⟨⟨4⟩⟩, ⟨⟨5⟩⟩], tsDef := .noDef }

def tyInt : Ty := .tyapp tsInt []

def tyReal : Ty := .tyapp tsReal []

def tyBool : Ty := .tyapp tsBool []

def tyFunc (tyA tyB : Ty) : Ty := .tyapp tsFunc [tyA, tyB]

end Why3
