import Why3.Core.Map

/-!
# Simplification of formulas

The simplifications of `src/transform/simplify_formula.ml`: with the simplifying
constructors, of quantifiers over a variable that an equation determines, and of the other
conjuncts or disjuncts by an equation.
-/

namespace Why3

open Lib

namespace Term

variable {p : Term × Bool}

/-! ## Simplifying constructors -/

mutual

def fmlaSimpl (n : ℕ) (f : Term) : Except Exn Term :=
  let f' := f.attrRemove .asymSplit
  tMapSimp n f' fun n u _ => if u.tTy.isNone then fmlaSimpl n u else tFmlaSimpl n u
termination_by f.size
decreasing_by
  all_goals
    rename_i h _
    have hlt := h.size_lt
    simpa only [f', attrRemove, size_withAttrs] using hlt

def tFmlaSimpl (n : ℕ) (t : Term) : Except Exn Term :=
  tMap n t fun n u _ => if u.tTy.isNone then fmlaSimpl n u else tFmlaSimpl n u
termination_by t.size
decreasing_by
  all_goals
    rename_i h _
    exact h.size_lt

end

/-! ## Quantifiers -/

def tBoundvarsIn (fvars : List VSymbol) (t : Term) : Bool := t.freeVars.any (· ∈ fvars)

/-- The second term is the variable, and the first one can be its value. -/
def isSubst (boundvars : List VSymbol) (var : VSymbol) (sign : Bool) (ls : LSymbol) (t : Term) :
    Term → Bool
  | tvar a vs => sign && decide (ls = psEqu) && decide (vs = var) && !tEqual t (tvar a vs) &&
      !tBoundvarsIn boundvars t
  | _ => false

def equSubst (boundvars : List VSymbol) (var : VSymbol) (sign : Bool) (ls : LSymbol) :
    List Term → Option Term
  | [t1, t2] =>
    if isSubst boundvars var sign ls t2 t1 then some t2
    else if isSubst boundvars var sign ls t1 t2 then some t1
    else none
  | _ => none

def orFound (r1 r2 : Except Exn (Option Term)) : Except Exn (Option Term) := do
  match ← r1 with
  | some t => .ok (some t)
  | none => r2

/-- A term that the variable is equal to when the formula is true, or false without the
sign. -/
def fmlaFindSubst (var : VSymbol) (n : ℕ) (boundvars : List VSymbol) (sign : Bool) :
    Term → Except Exn (Option Term)
  | tapp _ ls tl _ => .ok (equSubst boundvars var sign ls tl)
  | tbinop _ .tor f1 f2 =>
    if sign then .ok none
    else orFound (fmlaFindSubst var n boundvars sign f1) (fmlaFindSubst var n boundvars sign f2)
  | tbinop _ .tand f1 f2 =>
    if sign then
      orFound (fmlaFindSubst var n boundvars sign f1) (fmlaFindSubst var n boundvars sign f2)
    else .ok none
  | tbinop _ .timplies f1 f2 =>
    if sign then .ok none
    else orFound (fmlaFindSubst var n boundvars (!sign) f1)
      (fmlaFindSubst var n boundvars sign f2)
  | tbinop _ .tiff _ _ => .ok none
  | tnot _ f1 => fmlaFindSubst var n boundvars (!sign) f1
  | tquant _ _ vl trl f1 =>
    if trl.isEmpty then
      let ul := freshLike n vl
      fmlaFindSubst var (n + vl.length) (ul ++ boundvars) sign (openVars ul f1)
    else .ok none
  | tlet _ _ v f1 =>
    let u := boundVar n v
    fmlaFindSubst var (n + 1) (u :: boundvars) sign (openVars [u] f1)
  | tif _ _ _ _ | tcase _ _ _ | tfalse _ | ttrue _ => .ok none
  | f => .error (.fmlaExpected f)
termination_by f => f.size
decreasing_by
  all_goals first
    | exact Part.left.size_lt
    | exact Part.right.size_lt
    | exact Part.neg.size_lt
    | exact (Part.quant _).size_lt
    | exact (Part.letBody _).size_lt

def equSimpBinop : Binop → Term → Term → Except Exn Term
  | .tor, tfalse _, f => .ok f
  | .tor, f, tfalse _ => .ok f
  | .tand, ttrue _, f => .ok f
  | .tand, f, ttrue _ => .ok f
  | .timplies, ttrue _, f => .ok f
  | op, f1, f2 => tBinary op f1 f2

def equSimpNode (n : ℕ) : (f : Term) → (ℕ → (u : Term) → Part u f → Except Exn Term) →
    Except Exn Term
  | tbinop _ op f1 f2, fn => do
    let g1 ← fn n f1 .left
    let g2 ← fn n f2 .right
    equSimpBinop op g1 g2
  | tapp a p [f1, f2] ty, fn =>
    if p = psEqu then do
      let g1 ← fn n f1 .fst
      let g2 ← fn n f2 .snd
      tEquSimp g1 g2
    else tMap n (tapp a p [f1, f2] ty) fn
  | f, fn => tMap n f fn

def equSimp (n : ℕ) (f : Term) : Except Exn Term := do
  .ok (attrCopy f.tAttrs (← equSimpNode n f fun n u _ => equSimp n u))
termination_by f.size
decreasing_by
  rename_i h
  exact h.size_lt

/-- The variables that stay quantified, and the formula in which the others are replaced.
The last variables are removed first. -/
def fmlaQuant (keep : VSymbol → Bool) (n : ℕ) (sign : Bool) (f : Term) :
    List VSymbol → Except Exn (List VSymbol × Term)
  | [] => .ok ([], f)
  | vs :: l => do
    let (vsl, f) ← fmlaQuant keep n sign f l
    if keep vs then .ok (vs :: vsl, f)
    else if tVOccurs vs f = 0 then .ok (vsl, f)
    else match ← fmlaFindSubst vs n [vs] sign f with
      | none => .ok (vs :: vsl, f)
      | some t => do
        let f ← tSubstSingle vs t f
        .ok (vsl, ← equSimp n f)

/-- The quantifiers of a formula, from the outside, whose variables are determined by
equations. The formulas that take the place of the bodies are smaller, which the recursion
rests on. -/
def fmlaRemoveQuant (hasAModelAttr : Ident → Bool) (keepModelVars : Bool) (n : ℕ) :
    Term → Except Exn Term
  | tquant a k vl trl f1 =>
    if trl.isEmpty then
      let ul := freshLike n vl
      -- an opened variable has the attributes of the variable that it stands for
      let keep := fun u => keepModelVars && hasAModelAttr (Pattern.freshVar ul vl u).vsName
      match fmlaQuant keep (n + vl.length) (k == .texists) (openVars ul f1) ul with
      | .error e => .error e
      | .ok (vsl, f2) =>
        if f2.size < (tquant a k vl trl f1).size then do
          let g ← fmlaRemoveQuant hasAModelAttr keepModelVars (n + vl.length) f2
          .ok (attrCopy a (tQuantClose k vsl [] (← tProp g)))
        else .error .outOfFuel
    else .ok (tquant a k vl trl f1)
  | f => tMap n f fun n u _ => fmlaRemoveQuant hasAModelAttr keepModelVars n u
termination_by f => f.size
decreasing_by
  · assumption
  · rename_i h
    exact h.size_lt

/-! ## Conditional substitution -/

/-- The operands of the connective, with their signs, in front of `terms`. -/
def flattenAux (conj : Bool) : Bool → Term → List (Term × Bool) → List (Term × Bool)
  | sign, tnot _ f, terms => flattenAux conj (!sign) f terms
  | sign, tbinop a .tor f1 f2, terms =>
    if sign != conj then flattenAux conj sign f1 (flattenAux conj sign f2 terms)
    else (tbinop a .tor f1 f2, sign) :: terms
  | sign, tbinop a .tand f1 f2, terms =>
    if sign == conj then flattenAux conj sign f1 (flattenAux conj sign f2 terms)
    else (tbinop a .tand f1 f2, sign) :: terms
  | sign, tbinop a .timplies f1 f2, terms =>
    if sign != conj then flattenAux conj (!sign) f1 (flattenAux conj sign f2 terms)
    else (tbinop a .timplies f1 f2, sign) :: terms
  | sign, f, terms => (f, sign) :: terms

def fmlaFlatten (conj : Bool) (f : Term) : List (Term × Bool) := flattenAux conj true f []

def unflattenAux (conj : Bool) :
    Bool → Term → List (Term × Bool) → Except Exn (Term × List (Term × Bool))
  | sign, tnot a f, formulas => do
    let (g, formulas) ← unflattenAux conj (!sign) f formulas
    .ok (attrCopy a (← tNot g), formulas)
  | sign, tbinop a .tor f1 f2, formulas =>
    if sign != conj then do
      let (g1, formulas) ← unflattenAux conj sign f1 formulas
      let (g2, formulas) ← unflattenAux conj sign f2 formulas
      .ok (attrCopy a (← tOr g1 g2), formulas)
    else unflattenLeaf sign a formulas
  | sign, tbinop a .tand f1 f2, formulas =>
    if sign == conj then do
      let (g1, formulas) ← unflattenAux conj sign f1 formulas
      let (g2, formulas) ← unflattenAux conj sign f2 formulas
      .ok (attrCopy a (← tAnd g1 g2), formulas)
    else unflattenLeaf sign a formulas
  | sign, tbinop a .timplies f1 f2, formulas =>
    if sign != conj then do
      let (g1, formulas) ← unflattenAux conj (!sign) f1 formulas
      let (g2, formulas) ← unflattenAux conj sign f2 formulas
      .ok (attrCopy a (← tImplies g1 g2), formulas)
    else unflattenLeaf sign a formulas
  | sign, f, formulas => unflattenLeaf sign f.tAttrs formulas
where
  /-- The next operand, whose sign is the expected one. -/
  unflattenLeaf (sign : Bool) (a : List Attr) :
      List (Term × Bool) → Except Exn (Term × List (Term × Bool))
    | (t, s) :: formulas =>
      if sign = s then .ok (attrCopy a t, formulas) else .error .assertFailure
    | [] => .error .invalidArgument

def fmlaUnflatten (conj : Bool) (f : Term) (formulas : List (Term × Bool)) : Except Exn Term := do
  .ok (← unflattenAux conj true f formulas).1

def doSubst (n i : ℕ) (t1 t2 : Term) (subf : List (Term × Bool)) :
    Except Exn (List (Term × Bool)) :=
  subf.zipIdx.mapM fun (p, j) =>
    if j ≠ i then do .ok (← tReplace t1 t2 n p.1, p.2) else .ok p

/-- Use the `i`-th operand to rewrite the others, if it is an equation with the right sign. -/
def substStep (filter : Term → Term → Bool) (conj : Bool) (n : ℕ) (subf : List (Term × Bool))
    (i : ℕ) : Except Exn (List (Term × Bool)) :=
  match subf[i]? with
  | some (tapp _ ls [t1, t2] _, s) =>
    if ls = psEqu ∧ s = conj then
      if filter t1 t2 then doSubst n i t1 t2 subf
      else if filter t2 t1 then doSubst n i t2 t1 subf
      else .ok subf
    else .ok subf
  | _ => .ok subf

theorem size_le_of_mem_flattenAux {conj sign : Bool} {f : Term} {terms : List (Term × Bool)}
    (h : p ∈ flattenAux conj sign f terms) : p ∈ terms ∨ p.1.size ≤ f.size := by
  fun_induction flattenAux with
  | case1 sign terms a f ih => exact (ih h).imp_right fun h => le_trans h Part.neg.size_lt.le
  | case2 sign terms a f1 f2 hs ih2 ih1 | case4 sign terms a f1 f2 hs ih2 ih1
  | case6 sign terms a f1 f2 hs ih2 ih1 =>
    rcases ih1 h with h | h
    · exact (ih2 h).imp_right fun h => le_trans h Part.right.size_lt.le
    · exact .inr (le_trans h Part.left.size_lt.le)
  | case3 | case5 | case7 | case8 =>
    rcases List.mem_cons.mp h with rfl | h
    · exact .inr (le_refl _)
    · exact .inl h

theorem size_lt_of_mem_fmlaFlatten {a : List Attr} {op : Binop} {f1 f2 : Term} (hop : op ≠ .tiff)
    (h : p ∈ fmlaFlatten (op == .tand) (tbinop a op f1 f2)) :
    p.1.size < (tbinop a op f1 f2).size := by
  have hnil : p ∉ ([] : List (Term × Bool)) := List.not_mem_nil
  have hmem : ∃ s1, p ∈ flattenAux (op == .tand) s1 f1 (flattenAux (op == .tand) true f2 []) := by
    cases op with
    | tand | tor => exact ⟨true, h⟩
    | timplies => exact ⟨false, h⟩
    | tiff => exact absurd rfl hop
  obtain ⟨s1, hmem⟩ := hmem
  rcases size_le_of_mem_flattenAux hmem with h | h
  · exact Nat.lt_of_le_of_lt ((size_le_of_mem_flattenAux h).resolve_left hnil) Part.right.size_lt
  · exact Nat.lt_of_le_of_lt h Part.left.size_lt

/-- The terms that the filter selects are replaced by the other side of an equation. Equal
terms are replaced in the surrounding conjunction, and different ones in the surrounding
disjunction. -/
def fmlaCondSubst (filter : Term → Term → Bool) (n : ℕ) : Term → Except Exn Term
  | tbinop a op f1 f2 =>
    if op = .tiff then
      tMap n (tbinop a op f1 f2) fun n u _ => fmlaCondSubst filter n u
    else do
      let conj := op == .tand
      let subf ← mapMem (fmlaFlatten conj (tbinop a op f1 f2)) fun p _ => do
        .ok (← fmlaCondSubst filter n p.1, p.2)
      let subf ← (List.range subf.length).foldlM (substStep filter conj n) subf
      fmlaUnflatten conj (tbinop a op f1 f2) subf
  | f => tMap n f fun n u _ => fmlaCondSubst filter n u
termination_by f => f.size
decreasing_by
  · rename_i h
    exact h.size_lt
  · rename_i hop h
    exact size_lt_of_mem_fmlaFlatten hop h
  · rename_i h
    exact h.size_lt

end Term

end Why3
