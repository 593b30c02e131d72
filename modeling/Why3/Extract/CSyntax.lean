import Why3.Core.NumberText

/-!
# Syntax of generated C

After the module `C` of `src/extract/c.ml`. A syntax template is given by the places where its
arguments are put, in the order of the text, since nothing else of it holds an identifier.
-/

namespace Why3.C

inductive BinOp where
  | band | bor | beq | bne | bassign | blt | ble | bgt | bge
  deriving DecidableEq, Repr

inductive UnOp where
  | unot | ustar | uaddr | upreincr | upostincr | upredecr | upostdecr
  deriving DecidableEq, Repr

inductive Constant where
  | cint (s : Text) (ic : ℤ)
  | cfloat (s : Text)
  | cchar (s : Text)
  | cstring (s : Text)
  deriving DecidableEq

/-- A place of a syntax template, with the number that is written in it: `%1` for an argument,
`%t1` for the type of one (of the result, for `%t0`), `%v0` for a type argument, `%d1` for what
an argument points to, and any other letter, which is an error. -/
inductive Place where
  | arg (i : ℕ)
  | ty (i : ℕ)
  | tyArg (i : ℕ)
  | deref (i : ℕ)
  | bad
  deriving DecidableEq, Repr

mutual

inductive Ty where
  | tvoid
  | tsyntax (s : List Place) (tl : List Ty)
  | tptr (ty : Ty)
  | tarray (ty : Ty) (e : Expr)
  | tstruct (s : Text)
  | tunion (id : Ident)
  | tnamed (id : Ident)
  | tmutable (ty : Ty)
  | tnosyntax

inductive Expr where
  | enothing
  | eunop (u : UnOp) (e : Expr)
  | ebinop (b : BinOp) (e₁ e₂ : Expr)
  | equestion (c t e : Expr)
  | ecast (ty : Ty) (e : Expr)
  | ecall (f : Expr) (l : List Expr)
  | econst (c : Constant)
  | evar (id : Ident)
  | elikely (e : Expr)
  | eunlikely (e : Expr)
  | esizeExpr (e : Expr)
  | esizeType (ty : Ty)
  | eindex (e₁ e₂ : Expr)
  | edot (e : Expr) (s : Text)
  | earrow (e : Expr) (s : Text)
  | esyntaxrename (s : Text) (l : List Expr)
  | esyntax (s : List Place) (t : Ty) (args : List Ty) (el : List Expr) (tl : List Ty)

end

mutual

inductive Stmt where
  | snop
  | sexpr (e : Expr)
  | sblock (defs : List Definition) (s : Stmt)
  | sseq (s₁ s₂ : Stmt)
  | sif (c : Expr) (t e : Stmt)
  | swhile (c : Expr) (b : Stmt)
  | sfor (init test incr : Expr) (b : Stmt)
  | sbreak
  | sreturn (e : Expr)

inductive Definition where
  | dfun (id : Ident) (rt : Ty) (args : List (Ty × Ident)) (defs : List Definition) (s : Stmt)
  | dinclude (id : Ident)
  | dproto (id : Ident) (rt : Ty) (args : List (Ty × Ident))
  | ddecl (ty : Ty) (lie : List (Ident × Expr))
  | dextern (ty : Ty) (id : Ident)
  | dstruct (s : Text) (fields : List (Text × Ty))
  | dstructDecl (s : Text)
  | dtypedef (ty : Ty) (id : Ident)

end

def isNop : Stmt → Bool
  | .snop => true
  | .sexpr .enothing => true
  | .sblock [] s => isNop s
  | .sseq s₁ s₂ => isNop s₁ && isNop s₂
  | _ => false

end Why3.C
