import Why3.Core.Symbol
import Why3.Lib.ExceptFold

/-!
# Coercions

The set of coercions of a theory, after `src/core/coercion.ml`. A coercion is
either a function symbol from one type to another or the composition of two
coercions. The map keeps, for every pair of type symbols, at most one coercion,
and `addCrc` closes it under composition each time a coercion is added.
-/

namespace Why3

namespace Coercion

open Lib

inductive CoercionKind where
  | crcLeaf (ls : LSymbol)
  | crcComp (k₁ k₂ : CoercionKind)
  deriving DecidableEq, Repr

structure Crc where
  crcKind : CoercionKind
  crcSrcTs : TySymbol
  crcSrcTl : List Ty
  crcTarTs : TySymbol
  crcTarTl : List Ty
  deriving DecidableEq, Repr

abbrev CrcMap := TagMap TySymbol (TagMap TySymbol Crc)

/-- The exceptions of the module, and the two that the standard library raises
on its behalf. -/
inductive Exn where
  | notACoercion (ls : LSymbol)
  | coercionCycle (crc : Crc)
  | coercionAlreadyDefined (crc : Crc)
  | notFound
  | invalidArgument
  deriving DecidableEq, Repr

def createCrc (ls : LSymbol) : Except Exn Crc :=
  match ls.lsArgs, ls.lsValue with
  | [.tyapp ts₁ tl₁], some (.tyapp ts₂ tl₂) =>
    if ts₁ = ts₂ then .error (.notACoercion ls)
    else .ok ⟨.crcLeaf ls, ts₁, tl₁, ts₂, tl₂⟩
  | _, _ => .error (.notACoercion ls)

def mem (crcmap : CrcMap) (ts₁ ts₂ : TySymbol) : Bool :=
  match crcmap.find? ts₁ with
  | some m => m.mem ts₂
  | none => false

def findCrc (crcmap : CrcMap) (ts₁ ts₂ : TySymbol) : Option Crc :=
  (crcmap.find? ts₁).bind fun m => m.find? ts₂

mutual

/-- Two types may match when no pair of type symbols stands in the way. -/
def mayMatch : Ty → Ty → Except Exn Unit
  | .tyapp ts₁ tl₁, .tyapp ts₂ tl₂ =>
    if ts₁ = ts₂ then mayMatchList tl₁ tl₂ else .error .notFound
  | .tyapp _ _, .tyvar _ => .ok ()
  | .tyvar _, _ => .ok ()

def mayMatchList : List Ty → List Ty → Except Exn Unit
  | [], [] => .ok ()
  | ty₁ :: tl₁, ty₂ :: tl₂ => do
    mayMatch ty₁ ty₂
    mayMatchList tl₁ tl₂
  | _, _ => .error .invalidArgument

end

def lsListOf (acc : List LSymbol) : CoercionKind → List LSymbol
  | .crcLeaf ls => ls :: acc
  | .crcComp k₁ k₂ => lsListOf (lsListOf acc k₂) k₁

def find (crcmap : CrcMap) : Ty → Ty → Except Exn (List LSymbol)
  | .tyapp ts₁ tl₁, .tyapp ts₂ tl₂ =>
    match findCrc crcmap ts₁ ts₂ with
    | some crc => do
      mayMatchList tl₁ crc.crcSrcTl
      mayMatchList tl₂ crc.crcTarTl
      .ok (lsListOf [] crc.crcKind)
    | none => .error .notFound
  | _, _ => .error .notFound

def ckEq : CoercionKind → CoercionKind → Bool
  | .crcLeaf lsOld, .crcLeaf lsNew => lsOld = lsNew
  | .crcComp old₁ old₂, .crcComp new₁ new₂ => ckEq old₁ new₁ && ckEq old₂ new₂
  | _, _ => false

/-- Keep an old coercion when the new one is obtained in the same way, or fail. -/
def replace (cOld cNew : Crc) (m : CrcMap) : Except Exn CrcMap :=
  if ckEq cOld.crcKind cNew.crcKind then .ok m
  else .error (.coercionAlreadyDefined cOld)

def put (crc : Crc) (m₁ : TagMap TySymbol Crc) (m : CrcMap) : CrcMap :=
  m.add crc.crcSrcTs (m₁.add crc.crcTarTs crc)

def insert (crc : Crc) (m : CrcMap) : Except Exn CrcMap :=
  match findCrc m crc.crcTarTs crc.crcSrcTs with
  | some c => .error (.coercionCycle c)
  | none =>
    let m₁ := m.findDef .empty crc.crcSrcTs
    match m₁.find? crc.crcTarTs with
    | some cOld => replace cOld crc m
    | none => .ok (put crc m₁ m)

def compose (crc₁ crc₂ : Crc) : Crc where
  crcKind := .crcComp crc₁.crcKind crc₂.crcKind
  crcSrcTs := crc₁.crcSrcTs
  crcSrcTl := crc₁.crcSrcTl
  crcTarTs := crc₂.crcTarTs
  crcTarTl := crc₂.crcTarTl

def closeRight (c₁ : Crc) (_ty : TySymbol) (c₂ : Crc) (macc : CrcMap) : Except Exn CrcMap :=
  insert (compose c₁ c₂) macc

def closeLeftRight (crc : Crc) (_ty₁ : TySymbol) (m₁ : TagMap TySymbol Crc)
    (macc : CrcMap) : Except Exn CrcMap :=
  match m₁.find? crc.crcSrcTs with
  | some c₁ =>
    let m₂ := macc.findDef .empty crc.crcTarTs
    (m₂.add crc.crcTarTs crc).foldM (closeRight c₁) macc
  | none => .ok macc

def addCrc (crcmap : CrcMap) (crc : Crc) : Except Exn CrcMap := do
  let crcmapUc1 ← insert crc crcmap
  let m₁ := crcmapUc1.findDef .empty crc.crcTarTs
  let crcmapUc2 ← m₁.foldM (closeRight crc) crcmapUc1
  crcmapUc2.foldM (closeLeftRight crc) crcmapUc2

def add (crcmap : CrcMap) (ls : LSymbol) : Except Exn CrcMap := do
  let crc ← createCrc ls
  addCrc crcmap crc

def unionAdd (_ty₂ : TySymbol) (crc : Crc) (crcmap : CrcMap) : Except Exn CrcMap :=
  match crc.crcKind with
  | .crcLeaf _ => addCrc crcmap crc
  | .crcComp _ _ => .ok crcmap

def union (crcmap₁ crcmap₂ : CrcMap) : Except Exn CrcMap :=
  crcmap₂.foldM (fun _ty₁ m₁ crcmap => m₁.foldM unionAdd crcmap) crcmap₁

end Coercion

end Why3
