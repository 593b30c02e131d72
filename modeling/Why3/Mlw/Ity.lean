import Why3.Core.Term

/-!
# Types with regions and program variables

The types of program values, after `src/mlw/ity.ml`. A region names a mutable
record, so that two variables whose types mention the same region share it. The
regions that a type symbol declares and the fields of its records are kept in its
definition and not in the symbol.
-/

namespace Why3

open Lib

/-- What is known of a type argument or of a region of a type symbol. -/
structure ItsFlag where
  itsFrozen : Bool
  itsExposed : Bool
  itsLiable : Bool
  deriving DecidableEq, Repr

structure ItySymbol where
  itsTs : TySymbol
  itsNonfree : Bool
  itsMutable : Bool
  itsFragile : Bool
  itsArgFlg : List ItsFlag
  itsRegFlg : List ItsFlag
  deriving DecidableEq, Repr

mutual

inductive Ity where
  | ityreg (r : Region)
  | ityapp (s : ItySymbol) (tl rl : List Ity)
  | ityvar (tv : TvSymbol)

inductive Region where
  | mk (regName : Ident) (regIts : ItySymbol) (regArgs regRegs : List Ity)

end

namespace Region

def regName : Region → Ident
  | mk n _ _ _ => n

def regIts : Region → ItySymbol
  | mk _ s _ _ => s

def regArgs : Region → List Ity
  | mk _ _ tl _ => tl

def regRegs : Region → List Ity
  | mk _ _ _ rl => rl

end Region

mutual

def Ity.decEq : (a b : Ity) → Decidable (a = b)
  | .ityreg r, .ityreg r' =>
    match Region.decEq r r' with
    | isTrue h => isTrue (by rw [h])
    | isFalse h => isFalse (by simp [h])
  | .ityapp s tl rl, .ityapp s' tl' rl' =>
    if h : s = s' then
      match Ity.decEqList tl tl' with
      | isTrue h' =>
        match Ity.decEqList rl rl' with
        | isTrue h'' => isTrue (by rw [h, h', h''])
        | isFalse h'' => isFalse (by simp [h''])
      | isFalse h' => isFalse (by simp [h'])
    else isFalse (by simp [h])
  | .ityvar v, .ityvar v' =>
    if h : v = v' then isTrue (by rw [h]) else isFalse (by simp [h])
  | .ityreg _, .ityapp _ _ _ => isFalse (by simp)
  | .ityreg _, .ityvar _ => isFalse (by simp)
  | .ityapp _ _ _, .ityreg _ => isFalse (by simp)
  | .ityapp _ _ _, .ityvar _ => isFalse (by simp)
  | .ityvar _, .ityreg _ => isFalse (by simp)
  | .ityvar _, .ityapp _ _ _ => isFalse (by simp)

def Region.decEq : (a b : Region) → Decidable (a = b)
  | .mk n s tl rl, .mk n' s' tl' rl' =>
    if h : n = n' ∧ s = s' then
      match Ity.decEqList tl tl' with
      | isTrue h' =>
        match Ity.decEqList rl rl' with
        | isTrue h'' => isTrue (by rw [h.1, h.2, h', h''])
        | isFalse h'' => isFalse (by simp [h''])
      | isFalse h' => isFalse (by simp [h'])
    else isFalse (by
      intro heq
      cases heq
      exact h ⟨rfl, rfl⟩)

def Ity.decEqList : (l l' : List Ity) → Decidable (l = l')
  | [], [] => isTrue rfl
  | a :: l, b :: l' =>
    match Ity.decEq a b with
    | isTrue h =>
      match Ity.decEqList l l' with
      | isTrue h' => isTrue (by rw [h, h'])
      | isFalse h' => isFalse (by simp [h'])
    | isFalse h => isFalse (by simp [h])
  | [], _ :: _ => isFalse (by simp)
  | _ :: _, [] => isFalse (by simp)

end

instance : DecidableEq Ity := Ity.decEq

instance : DecidableEq Region := Region.decEq

instance : Tagged Region := ⟨fun r => r.regName.idTag⟩

mutual

def Ity.ityPure : Ity → Bool
  | .ityreg _ => false
  | .ityapp _ tl rl => Ity.ityPureList tl && Ity.ityPureList rl
  | .ityvar _ => true

def Ity.ityPureList : List Ity → Bool
  | [] => true
  | ity :: l => Ity.ityPure ity && Ity.ityPureList l

end

mutual

def Ity.ityPurify : Ity → Ity
  | .ityreg (.mk _ s tl rl) => .ityapp s (Ity.ityPurifyList tl) (Ity.ityPurifyList rl)
  | .ityapp s tl rl => .ityapp s (Ity.ityPurifyList tl) (Ity.ityPurifyList rl)
  | .ityvar v => .ityvar v

def Ity.ityPurifyList : List Ity → List Ity
  | [] => []
  | ity :: l => Ity.ityPurify ity :: Ity.ityPurifyList l

end

structure PVSymbol where
  pvVs : VSymbol
  pvIty : Ity
  pvGhost : Bool
  deriving DecidableEq

instance : Tagged PVSymbol := ⟨fun v => v.pvVs.vsName.idTag⟩

/-- Written fields of regions, with the variables that hold the new values where
they are known. -/
abbrev Writes := TagMap Region (TagMap PVSymbol (Option PVSymbol))

end Why3
