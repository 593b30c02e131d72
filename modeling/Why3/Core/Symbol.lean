import Why3.Core.Ty

/-!
# Variable symbols and logic symbols

The symbols that terms and patterns are built from, after the first sections of
`src/core/term.ml`. A logic symbol without a value type is a predicate; the field
`lsConstr` is positive exactly for constructors, where it counts the
constructors of the type.
-/

namespace Why3

open Lib

structure VSymbol where
  vsName : Ident
  vsTy : Ty
  deriving DecidableEq, Repr

instance : Tagged VSymbol := ⟨fun vs => vs.vsName.idTag⟩

structure LSymbol where
  lsName : Ident
  lsArgs : List Ty
  lsValue : Option Ty
  lsConstr : ℕ
  deriving DecidableEq, Repr

instance : Tagged LSymbol := ⟨fun ls => ls.lsName.idTag⟩

/-! ## Built-in symbols -/

def psEqu : LSymbol := ⟨⟨8⟩, [.tyvar ⟨⟨7⟩⟩, .tyvar ⟨⟨7⟩⟩], none, 0⟩

def fsFuncApp : LSymbol :=
  ⟨⟨9⟩, [tyFunc (.tyvar ⟨⟨4⟩⟩) (.tyvar ⟨⟨5⟩⟩), .tyvar ⟨⟨4⟩⟩], some (.tyvar ⟨⟨5⟩⟩), 0⟩

def fsBoolTrue : LSymbol := ⟨⟨10⟩, [], some tyBool, 2⟩

def fsBoolFalse : LSymbol := ⟨⟨11⟩, [], some tyBool, 2⟩

end Why3
