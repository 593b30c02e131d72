import Why3.Core.Lambda
import Why3.Core.Rank
import Why3.Core.Termination

/-!
# Maps over the parts of a term

The traversals of `src/core/term.ml` that open the binders of a term. The variables that a
binder is opened with are numbered from `n` on, which is above those at hand. A function
that is mapped over the parts of a term is given that they are parts, so that it can be
defined by recursion on the measure of terms.
-/

namespace Lib

open List

def mapMem {ε α β : Type} : (l : List α) → ((x : α) → x ∈ l → Except ε β) → Except ε (List β)
  | [], _ => .ok []
  | x :: l, fn => do
    let y ← fn x mem_cons_self
    .ok (y :: (← mapMem l fun z h => fn z (mem_cons_of_mem x h)))

theorem mapMem_ok {ε α β : Type} {P : α → β → Prop} : ∀ {l : List α}
    {fn : (x : α) → x ∈ l → Except ε β}, (∀ x h, ∃ y, fn x h = .ok y ∧ P x y) →
      ∃ ys, mapMem l fn = .ok ys ∧ Forall₂ P l ys
  | [], _, _ => ⟨[], rfl, .nil⟩
  | x :: l, fn, h => by
    obtain ⟨y, hy, hxy⟩ := h x mem_cons_self
    obtain ⟨ys, hys, hl⟩ := mapMem_ok fun z hz => h z (mem_cons_of_mem x hz)
    refine ⟨y :: ys, ?_, .cons hxy hl⟩
    rw [mapMem, hy]
    exact bind₂_eq_ok.mpr ⟨y, rfl, ys, hys, rfl⟩

theorem forall₂_of_mapMem {ε α β : Type} : ∀ {l : List α} {fn : (x : α) → x ∈ l → Except ε β}
    {ys : List β}, mapMem l fn = .ok ys → Forall₂ (fun x y => ∃ h, fn x h = .ok y) l ys
  | [], _, _, h => by
    cases h
    exact .nil
  | x :: l, fn, _, h => by
    obtain ⟨y, hy, ys, hys, h⟩ := bind₂_eq_ok.mp h
    cases h
    exact .cons ⟨_, hy⟩ ((forall₂_of_mapMem hys).imp fun z _ ⟨hz, h⟩ => ⟨.tail x hz, h⟩)

end Lib

namespace Why3

open Lib List

namespace Term

/-! ## Parts -/

/-- The parts of a term, with variables in place of the indices of its binders. -/
inductive Part : Term → Term → Prop where
  | app {a ls tl ty u} (h : u ∈ tl) : Part u (tapp a ls tl ty)
  | ifCond {a f t e} : Part f (tif a f t e)
  | ifThen {a f t e} : Part t (tif a f t e)
  | ifElse {a f t e} : Part e (tif a f t e)
  | letTerm {a t v e} : Part t (tlet a t v e)
  | letBody {a t v e} (u : VSymbol) : Part (openVars [u] e) (tlet a t v e)
  | caseTerm {a t bl} : Part t (tcase a t bl)
  | branch {a t bl b} (h : b ∈ bl) (ul : List VSymbol) : Part (openVars ul b.2) (tcase a t bl)
  | eps {a v f} (u : VSymbol) : Part (openVars [u] f) (teps a v f)
  | trigger {a q vl trl f tl t} (h : tl ∈ trl) (ht : t ∈ tl) (ul : List VSymbol) :
      Part (openVars ul t) (tquant a q vl trl f)
  | quant {a q vl trl f} (ul : List VSymbol) : Part (openVars ul f) (tquant a q vl trl f)
  | left {a op f g} : Part f (tbinop a op f g)
  | right {a op f g} : Part g (tbinop a op f g)
  | neg {a f} : Part f (tnot a f)

theorem Part.fst {a ls t u ty} : Part t (tapp a ls [t, u] ty) := .app mem_cons_self

theorem Part.snd {a ls t u ty} : Part u (tapp a ls [t, u] ty) := .app (by simp)

def size (t : Term) : ℕ := rank (fun _ => 0) [] t

@[simp] theorem size_withAttrs (a : List Attr) (t : Term) : (t.withAttrs a).size = t.size :=
  rank_withAttrs a [] t

theorem rank_le_rankList {ρ : VSymbol → ℕ} {b : List ℕ} {t : Term} {tl : List Term} (h : t ∈ tl) :
    rank ρ b t ≤ rankList ρ b tl := by
  rw [rankList_eq]
  exact le_sum_of_mem (mem_map_of_mem h)

/-- An opened body measures no more than with indices that do not count. -/
theorem size_openVars_le (ul : List VSymbol) (t : Term) (b : List ℕ) :
    (openVars ul t).size ≤ rank (fun _ => 0) b t := by
  rw [size, rank_openVars]
  refine rank_mono t (fun _ _ => le_refl _) fun i => ?_
  have hzero : ul.map (fun _ => 0) ++ [] = replicate ul.length 0 := by simp
  rw [hzero]
  exact dominated_zero _ b i

theorem size_lt_of_quant {q : Quant} {a : List Attr} {vl : List VSymbol} {trl : List (List Term)}
    {f : Term} {m : ℕ} (h : ∀ b, m ≤ rankTriggers (fun _ => 0) b trl + rank (fun _ => 0) b f) :
    m < (tquant a q vl trl f).size := by
  rw [size, rank]
  refine Nat.lt_succ_of_le (le_trans (h (replicate vl.length 0 ++ [])) ?_)
  refine le_gain (F := fun ds => rankTriggers (fun _ => 0) (ds ++ []) trl +
    rank (fun _ => 0) (ds ++ []) f) fun ds es hds hes hle => ?_
  have hle := hle.append (hds.trans hes.symm) fun _ => le_refl (List.getD [] _ 0)
  exact rank_body_mono trl f hle

theorem Part.size_lt {u t : Term} (h : Part u t) : u.size < t.size := by
  cases h with
  | app h => exact Nat.lt_succ_of_le (rank_le_rankList h)
  | letBody u =>
    rename_i t v e
    have := size_openVars_le [u] e [0]
    rw [size, size, rank] at *
    omega
  | branch h ul =>
    rename_i t bl b
    have h₁ := size_openVars_le ul b.2 (replicate b.1.vars.length 0 ++ [])
    rw [size, size, rank, rankBranches_eq] at *
    exact Nat.lt_succ_of_le (le_add_left (h₁.trans (le_sum_of_mem (mem_map_of_mem h))))
  | eps u => exact Nat.lt_succ_of_le (size_openVars_le [u] _ [0])
  | trigger h ht ul =>
    rename_i t
    refine size_lt_of_quant fun b => ?_
    rw [rankTriggers_eq]
    exact le_add_right ((size_openVars_le ul t b).trans ((rank_le_rankList ht).trans
      (le_sum_of_mem (mem_map_of_mem h))))
  | quant ul =>
    exact size_lt_of_quant fun b => le_trans (size_openVars_le ul _ b) (Nat.le_add_left _ _)
  | ifCond | ifThen | ifElse | letTerm | caseTerm | left | right | neg =>
    rw [size, size, rank]
    omega

/-! ## Maps -/

def checkTy (t : Term) (r : Except Exn Term) : Except Exn Term := do
  let u ← r
  tTyCheck u t.tTy
  .ok u

abbrev boundVar (n : ℕ) (v : VSymbol) : VSymbol := ⟨⟨n⟩, v.vsTy⟩

def tMap (n : ℕ) : (t : Term) → (ℕ → (u : Term) → Part u t → Except Exn Term) → Except Exn Term
  | tapp a ls tl ty, fn => do
    let sl ← mapMem tl fun u h => checkTy u (fn n u (.app h))
    .ok (attrCopy a (tapp [] ls sl ty))
  | tif a f t e, fn => do
    let g ← checkTy f (fn n f .ifCond)
    let s1 ← checkTy t (fn n t .ifThen)
    let s2 ← checkTy e (fn n e .ifElse)
    .ok (attrCopy a (tif [] g s1 s2))
  | tlet a t v e, fn => do
    let u := boundVar n v
    let s1 ← checkTy t (fn n t .letTerm)
    let s2 ← checkTy (openVars [u] e) (fn (n + 1) (openVars [u] e) (.letBody u))
    vsCheck u s1
    .ok (attrCopy a (tLetClose u s1 s2))
  | tcase a t bl, fn => do
    let s1 ← checkTy t (fn n t .caseTerm)
    let bl ← mapMem bl fun b h => do
      let ul := freshLike n b.1.vars
      let s ← checkTy (openVars ul b.2)
        (fn (n + b.1.vars.length) (openVars ul b.2) (.branch h ul))
      .ok (tCloseBranch (b.1.fresh n) s)
    .ok (attrCopy a (← tCase s1 bl))
  | teps a v f, fn => do
    let u := boundVar n v
    let s1 ← checkTy (openVars [u] f) (fn (n + 1) (openVars [u] f) (.eps u))
    .ok (attrCopy a (tEpsClose u (← tProp s1)))
  | tquant a q vl trl f, fn => do
    let ul := freshLike n vl
    let g ← checkTy (openVars ul f) (fn (n + vl.length) (openVars ul f) (.quant ul))
    let sl ← mapMem trl fun tl h => mapMem tl fun t ht =>
      checkTy (openVars ul t) (fn (n + vl.length) (openVars ul t) (.trigger h ht ul))
    .ok (attrCopy a (tQuantClose q ul sl (← tProp g)))
  | tbinop a op f g, fn => do
    let f' ← checkTy f (fn n f .left)
    let g' ← checkTy g (fn n g .right)
    .ok (attrCopy a (tbinop [] op f' g'))
  | tnot a f, fn => do
    let f' ← checkTy f (fn n f .neg)
    .ok (attrCopy a (tnot [] f'))
  | t, _ => .ok t

/-- The map over the parts of a formula by their polarity: a part that stands on the left of
an implication is given with the other sign, and one that stands on both sides is given with
both. -/
def tMapSign (n : ℕ) (sign : Bool) : (f : Term) →
    (Bool → ℕ → (u : Term) → Part u f → Except Exn Term) → Except Exn Term
  | tbinop a .timplies f1 f2, fn => do
    let g2 ← fn sign n f2 .right
    let g1 ← fn (!sign) n f1 .left
    .ok (attrCopy a (← tImplies g1 g2))
  | tbinop a .tiff f1 f2, fn => do
    let f1p ← fn sign n f1 .left
    let f1n ← fn (!sign) n f1 .left
    let f2p ← fn sign n f2 .right
    let f2n ← fn (!sign) n f2 .right
    if tEqual f1p f1n && tEqual f2p f2n then .ok (attrCopy a (← tIff f1p f2p))
    else if sign then .ok (attrCopy a (← tAnd (← tImplies f1n f2p) (← tImplies f2n f1p)))
    else .ok (attrCopy a (← tImplies (← tOr f1n f2n) (← tAnd f1p f2p)))
  | tnot a f1, fn => do .ok (attrCopy a (← tNot (← fn (!sign) n f1 .neg)))
  | tif a f1 f2 f3, fn =>
    if (tif a f1 f2 f3).tTy = none then do
      let f1p ← fn sign n f1 .ifCond
      let f1n ← fn (!sign) n f1 .ifCond
      let f2 ← fn sign n f2 .ifThen
      let f3 ← fn sign n f3 .ifElse
      if tEqual f1p f1n then .ok (attrCopy a (← tIf f1p f2 f3))
      else if sign then
        .ok (attrCopy a (← tAnd (← tImplies f1n f2) (← tImplies (← tNot f1p) f3)))
      else .ok (attrCopy a (← tOr (← tAnd f1p f2) (← tAnd (← tNot f1n) f3)))
    else .error (.errorm "t_map_sign: cannot determine polarity")
  | teps _ _ _, _ => .error (.errorm "t_map_sign: cannot determine polarity")
  | f, fn => do .ok (attrCopy f.tAttrs (← tMap n f (fn sign)))

/-- The simplifying constructors for the results on the parts of a formula. -/
def tMapSimpNode (n : ℕ) : (f : Term) → (ℕ → (u : Term) → Part u f → Except Exn Term) →
    Except Exn Term
  | tapp a ls [t1, t2] ty, fn =>
    if ls = psEqu then do
      let s1 ← checkTy t1 (fn n t1 .fst)
      let s2 ← checkTy t2 (fn n t2 .snd)
      tEquSimp s1 s2
    else tMap n (tapp a ls [t1, t2] ty) fn
  | tif _ f1 f2 f3, fn => do
    let g1 ← checkTy f1 (fn n f1 .ifCond)
    let g2 ← checkTy f2 (fn n f2 .ifThen)
    let g3 ← checkTy f3 (fn n f3 .ifElse)
    tIfSimp g1 g2 g3
  | tlet _ t v e, fn => do
    let u := boundVar n v
    let s1 ← checkTy t (fn n t .letTerm)
    let s2 ← checkTy (openVars [u] e) (fn (n + 1) (openVars [u] e) (.letBody u))
    tLetCloseSimp u s1 s2
  | tquant _ q vl trl f1, fn => do
    let ul := freshLike n vl
    let sl ← mapMem trl fun tl h => mapMem tl fun t ht =>
      checkTy (openVars ul t) (fn (n + vl.length) (openVars ul t) (.trigger h ht ul))
    let g1 ← checkTy (openVars ul f1) (fn (n + vl.length) (openVars ul f1) (.quant ul))
    tQuantCloseSimp q ul sl g1
  | tbinop _ op f1 f2, fn => do
    let g1 ← checkTy f1 (fn n f1 .left)
    let g2 ← checkTy f2 (fn n f2 .right)
    tBinarySimp op g1 g2
  | tnot _ f1, fn => do tNotSimp (← checkTy f1 (fn n f1 .neg))
  | f, fn => tMap n f fn

def tMapSimp (n : ℕ) (f : Term) (fn : ℕ → (u : Term) → Part u f → Except Exn Term) :
    Except Exn Term := do
  .ok (attrCopy f.tAttrs (← tMapSimpNode n f fn))

/-- Replace the occurrences of a term by another one, without the check of their types. -/
def tReplaceRec (t1 t2 : Term) (n : ℕ) (t : Term) : Except Exn Term :=
  if tEqual t t1 then .ok t2 else tMap n t fun n u _ => tReplaceRec t1 t2 n u
termination_by t.size
decreasing_by
  rename_i h
  exact h.size_lt

def tReplace (t1 t2 : Term) (n : ℕ) (t : Term) : Except Exn Term := do
  tTyCheck t2 t1.tTy
  tReplaceRec t1 t2 n t

end Term

end Why3
