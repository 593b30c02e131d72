import Why3.Core.IdentPrinter
import Why3.Extract.CSyntax
import Why3.Lib.Scoping

/-!
# Names in printed C

After the module `Print` of `src/extract/c.ml`, reduced to the identifiers that are printed. Which
of the two printers an identifier is given to depends on its place only. So a definition is first
taken to the sequence of its identifiers, in the order in which they are printed, together with
the scopes of C, and this sequence is then given to the printers.

The exception `Unprinted` leaves a definition out, and any other one ends the printing.
-/

namespace Why3.C

open Lib

/-! ## The identifiers of a definition -/

inductive PrinterName where
  | localPrinter
  | globalPrinter
  deriving DecidableEq, Repr

inductive Item where
  /-- The identifier of a declarator is printed. -/
  | write (p : PrinterName) (id : Ident)
  /-- The declarator ends, and its scope begins. -/
  | bind (p : PrinterName) (id : Ident)
  | use (p : PrinterName) (id : Ident)
  | opened
  | closed
  | unprinted
  | failed

def nthArg (l : List (List Item)) (i : ℕ) : List Item :=
  if i = 0 then [.failed] else (l[i - 1]?).getD [.failed]

def tyPlace (tl : List (List Item)) : Place → List Item
  | .arg i => nthArg tl i
  | _ => [.failed]

def exprPlace (t : List Item) (args el tl : List (List Item)) : Place → List Item
  | .arg i => nthArg el i
  | .ty i => if i = 0 then t else nthArg tl i
  | .tyArg i => (args[i]?).getD [.failed]
  -- the address operator is taken away or a star is added
  | .deref i => nthArg el i
  | .bad => [.failed]

mutual

def printTy : Ty → List Item
  | .tvoid => []
  | Ty.tsyntax s tl => s.flatMap (tyPlace (printTys tl))
  | .tptr ty => printTy ty
  | .tarray ty e => printTy ty ++ printExpr e
  | .tstruct _ => []
  | .tunion _ => [.unprinted]
  | .tnamed id => [.use .globalPrinter id]
  | .tmutable ty => printTy ty
  | Ty.tnosyntax => [.unprinted]

def printTys : List Ty → List (List Item)
  | [] => []
  | ty :: tl => printTy ty :: printTys tl

def printExpr : Expr → List Item
  | .enothing => []
  | .eunop _ e => printExpr e
  | .ebinop _ e₁ e₂ => printExpr e₁ ++ printExpr e₂
  | .equestion c t e => printExpr c ++ printExpr t ++ printExpr e
  | .ecast ty e => printTy ty ++ printExpr e
  | Expr.esyntaxrename _ l => (printExprs l).flatten
  | .ecall f l =>
    match f with
    | .evar id => .use .globalPrinter id :: (printExprs l).flatten
    | Expr.esyntax .. => printExpr f ++ (printExprs l).flatten
    | _ => [.failed]
  | .econst _ => []
  | .evar id => [.use .localPrinter id]
  | .elikely e => printExpr e
  | .eunlikely e => printExpr e
  | .esizeExpr e => printExpr e
  | .esizeType ty => printTy ty
  | .edot e _ => printExpr e
  | .eindex e₁ e₂ => printExpr e₁ ++ printExpr e₂
  | .earrow e _ => printExpr e
  | Expr.esyntax s t args el tl =>
    s.flatMap (exprPlace (printTy t) (printTys args) (printExprs el) (printTys tl))

def printExprs : List Expr → List (List Item)
  | [] => []
  | e :: l => printExpr e :: printExprs l

end

def printIdInit (size : Option Expr) (id : Ident) (e : Expr) : List Item :=
  match size, e with
  | none, e => [.write .localPrinter id, .bind .localPrinter id] ++ printExpr e
  | some size, .enothing =>
    .write .localPrinter id :: printExpr size ++ [.bind .localPrinter id]
  | some _, _ => [.failed]

def printArg (arg : Ty × Ident) : List Item :=
  printTy arg.1 ++ [.write .localPrinter arg.2, .bind .localPrinter arg.2]

mutual

def printStmt (braces : Bool) : Stmt → List Item
  | .snop => []
  | .sexpr e => printExpr e
  | .sblock [] s =>
    if braces then .opened :: printStmt true s ++ [.closed] else printStmt false s
  | .sblock defs s => .opened :: (printDefs defs).flatten ++ printStmt true s ++ [.closed]
  | .sseq s₁ s₂ => printStmt false s₁ ++ printStmt false s₂
  | .sif c t e =>
    printExpr c ++ .opened :: printStmt false t ++ [.closed] ++
      if isNop e then [] else .opened :: printStmt false e ++ [.closed]
  | .swhile c b => printExpr c ++ .opened :: printStmt false b ++ [.closed]
  | .sfor init test incr b =>
    printExpr init ++ printExpr test ++ printExpr incr ++ .opened :: printStmt false b ++ [.closed]
  | .sbreak => []
  | .sreturn e => printExpr e

def printDef : Definition → List Item
  | .dfun id rt args defs s =>
    printTy rt ++ [.write .globalPrinter id, .bind .globalPrinter id, .opened] ++
      args.flatMap printArg ++ (printDefs defs).flatten ++ printStmt true s ++ [.closed]
  | .dproto id rt args =>
    printTy rt ++ [.write .globalPrinter id, .bind .globalPrinter id, .opened] ++
      args.flatMap printArg ++ [.closed]
  | .ddecl (.tarray ty e) lie =>
    printTy ty ++ lie.flatMap fun ie => printIdInit (some e) ie.1 ie.2
  -- the assertion that there are no stars
  | .ddecl (.tptr _) _ => [.failed]
  | .ddecl ty lie => printTy ty ++ lie.flatMap fun ie => printIdInit none ie.1 ie.2
  | Definition.dextern ty id => printTy ty ++ [.write .localPrinter id, .bind .localPrinter id]
  | .dstruct _ fields => fields.flatMap fun field => printTy field.2
  | .dstructDecl _ => []
  | .dinclude _ => []
  | .dtypedef ty id => printTy ty ++ [.write .globalPrinter id, .bind .globalPrinter id]

def printDefs : List Definition → List (List Item)
  | [] => []
  | d :: defs => printDef d :: printDefs defs

end

/-! ## Naming -/

/-- What gives names to identifiers. -/
structure Namer (σ ν : Type) where
  request : σ → PrinterName → Ident → Option (σ × ν)
  clearLocal : σ → Option σ

inductive Ending where
  | printed
  | unprinted
  | failed
  deriving DecidableEq, Repr

namespace Namer

variable {σ ν : Type} (namer : Namer σ ν)

def items : σ → List Item → Option (σ × List (ScopeEvent ν Ident) × Ending)
  | s, [] => some (s, [], .printed)
  | s, .write p id :: l => do
    let (s, _) ← namer.request s p id
    items s l
  | s, .bind p id :: l => do
    let (s, name) ← namer.request s p id
    let (s, events, ending) ← items s l
    some (s, .bind name id :: events, ending)
  | s, .use p id :: l => do
    let (s, name) ← namer.request s p id
    let (s, events, ending) ← items s l
    some (s, .use name id :: events, ending)
  | s, .opened :: l => do
    let (s, events, ending) ← items s l
    some (s, .opened :: events, ending)
  | s, .closed :: l => do
    let (s, events, ending) ← items s l
    some (s, .closed :: events, ending)
  | s, .unprinted :: _ => some (s, [], .unprinted)
  | s, .failed :: _ => some (s, [], .failed)

def globalDef (s : σ) (d : Definition) : Option (σ × List (ScopeEvent ν Ident) × Ending) := do
  let s ← namer.clearLocal s
  namer.items s (printDef d)

def globalDefs : σ → List Definition → Option (List (ScopeEvent ν Ident))
  | _, [] => some []
  | s, d :: defs => do
    let (s, events, ending) ← namer.globalDef s d
    match ending with
    | .printed => do
      let rest ← globalDefs s defs
      some (events ++ rest)
    | .unprinted => globalDefs s defs
    | .failed => some []

end Namer

/-! ## The printers -/

def cKeywords : List Text :=
  ["auto", "break", "case", "char", "const", "continue", "default", "do", "double", "else",
    "enum", "extern", "float", "for", "goto", "if", "int", "long", "register", "return", "short",
    "signed", "sizeof", "static", "struct", "switch", "typedef", "union", "unsigned", "void",
    "volatile", "while"].map String.toList

def charToAlpha (c : Char) : Text :=
  if c.isAlpha then [c]
  else
    match c with
    | ' ' => "sp".toList | '_' => "us".toList | '#' => "sh".toList
    | '\x60' => "bq".toList | '~' => "tl".toList | '!' => "ex".toList
    | '@' => "at".toList | '$' => "dl".toList | '%' => "pc".toList
    | '^' => "cf".toList | '&' => "et".toList | '*' => "as".toList
    | '(' => "lp".toList | ')' => "rp".toList | '-' => "mn".toList
    | '+' => "pl".toList | '=' => "eq".toList | '[' => "lb".toList
    | ']' => "rb".toList | '\x7b' => "lc".toList | '\x7d' => "rc".toList
    | ':' => "cl".toList | '\x27' => "qt".toList | '\x22' => "dq".toList
    | '<' => "ls".toList | '>' => "gt".toList | '/' => "sl".toList
    | '?' => "qu".toList | '\x5c' => "bs".toList | '|' => "br".toList
    | ';' => "sc".toList | ',' => "cm".toList | '.' => "dt".toList
    | '0' => "zr".toList | '1' => "un".toList | '2' => "du".toList
    | '3' => "tr".toList | '4' => "qr".toList | '5' => "qn".toList
    | '6' => "sx".toList | '7' => "st".toList | '8' => "oc".toList
    | '9' => "nn".toList | '\n' => "nl".toList | _ => "zz".toList

def uncapitalize : Text → Text
  | [] => []
  | c :: s => c.toLower :: s

def charToLalpha (c : Char) : Text := uncapitalize (charToAlpha c)

def charToAlnumus (c : Char) : Text :=
  if c = '_' ∨ c = ' ' then ['_'] else if c.isDigit then [c] else charToAlpha c

/-- The name of an identifier in C, before it is told apart from others. -/
def sanitizer (s : Text) : Text :=
  let sane := match s with
    | [] => "zilch".toList
    | c :: rest => charToLalpha c ++ rest.flatMap charToAlnumus
  sane.map Char.toLower

structure Printers where
  localPrinter : IdentPrinter
  globalPrinter : IdentPrinter

def initPrinters (blacklist : List Text) : Option Printers := do
  let printer ← createIdentPrinter sanitizer (cKeywords ++ blacklist)
  some ⟨printer, printer⟩

def printers (idString : Ident → Text) : Namer Printers Text where
  request
    | s, .localPrinter, id => do
      let (printer, name) ← s.localPrinter.idUnique idString (fun name => name) id
      some ({ s with localPrinter := printer }, name)
    | s, .globalPrinter, id => do
      let (printer, name) ← s.globalPrinter.idUnique idString (fun name => name) id
      some ({ s with globalPrinter := printer }, name)
  clearLocal s := do
    let printer ← s.localPrinter.forgetAll
    some { s with localPrinter := printer }

def printGlobalDefs (idString : Ident → Text) (blacklist : List Text) (defs : List Definition) :
    Option (List (ScopeEvent Text Ident)) := do
  let s ← initPrinters blacklist
  (printers idString).globalDefs s defs

end Why3.C
