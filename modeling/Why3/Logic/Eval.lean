import Why3.Logic.Interp

/-!
# The meaning of open, closed and substituted terms

One lemma on traversals of variables gives the meaning of all the operations on
binders.
-/

namespace Why3

open Term List

def assign {D : Type} (ρ : VSymbol → D) (β : List (VSymbol × D)) (v : VSymbol) : D :=
  (β.lookup v).getD (ρ v)

@[simp] theorem assign_nil {D : Type} (ρ : VSymbol → D) : assign ρ [] = ρ := rfl

theorem assign_cons {D : Type} (ρ : VSymbol → D) (v : VSymbol) (d : D) (β : List (VSymbol × D))
    (u : VSymbol) : assign ρ ((v, d) :: β) u = if u = v then d else assign ρ β u := by
  unfold assign
  by_cases h : u = v
  · simp [h]
  · have hne : (u == v) = false := by simpa using h
    simp [lookup_cons, hne, h]

namespace Interp

open Classical in
/-- What is done with chosen arguments depends on the condition that they meet. -/
theorem dite_choose_congr {α β : Type} {P P' : α → Prop} (h : P = P') {g g' : α → Option β}
    (hg : g = g') : (if hp : ∃ x, P x then g hp.choose else none) =
      if hp : ∃ x, P' x then g' hp.choose else none := by
  subst h hg
  rfl

variable {D : Type} (I : Interp D) (τ : TyVal)

/-! ## Equations -/

section Equations

variable (ρ : VSymbol → D) (b : List D) (a : List Attr)

@[simp] theorem eval_tvar (v : VSymbol) : I.eval τ ρ b (tvar a v) = (ρ v, False) := rfl

@[simp] theorem eval_tbnd (i : ℕ) (ty : Ty) :
    I.eval τ ρ b (tbnd a i ty) = (b.getD i I.dflt, False) := rfl

@[simp] theorem eval_tconst (c : Constant) (ty : Ty) :
    I.eval τ ρ b (tconst a c ty) = (I.lit c (ty.vMap τ), False) := rfl

@[simp] theorem evalList_eq_map (tl : List Term) :
    I.evalList τ ρ b tl = tl.map fun t => (I.eval τ ρ b t).1 := by
  induction tl with
  | nil => rfl
  | cons t tl ih =>
    rw [map_cons, ← ih]
    rfl

@[simp] theorem eval_tapp_some (ls : LSymbol) (tl : List Term) (ty : Ty) :
    I.eval τ ρ b (tapp a ls tl (some ty)) =
      (I.fn ls (ty.vMap τ) (tl.map fun t => (I.eval τ ρ b t).1), False) := by
  rw [← evalList_eq_map]
  rfl

@[simp] theorem eval_tapp_none (ls : LSymbol) (tl : List Term) :
    I.eval τ ρ b (tapp a ls tl none) = (I.dflt, I.pr ls (tl.map fun t => (I.eval τ ρ b t).1)) := by
  rw [← evalList_eq_map]
  rfl

open Classical in
@[simp] theorem eval_tif (f t e : Term) :
    I.eval τ ρ b (tif a f t e) =
      if (I.eval τ ρ b f).2 then I.eval τ ρ b t else I.eval τ ρ b e := rfl

@[simp] theorem eval_tlet (t : Term) (v : VSymbol) (e : Term) :
    I.eval τ ρ b (tlet a t v e) = I.eval τ ρ ((I.eval τ ρ b t).1 :: b) e := rfl

@[simp] theorem eval_tcase (t : Term) (bl : List (Pattern × Term)) :
    I.eval τ ρ b (tcase a t bl) = I.evalBranches τ ρ b (I.eval τ ρ b t).1 bl := rfl

@[simp] theorem eval_teps (v : VSymbol) (f : Term) :
    I.eval τ ρ b (teps a v f) =
      (I.eps (v.vsTy.vMap τ) {d | (I.eval τ ρ (d :: b) f).2}, False) := rfl

@[simp] theorem eval_forall (vl : List VSymbol) (trl : List (List Term)) (f : Term) :
    I.eval τ ρ b (tquant a .tforall vl trl f) =
      (I.dflt, ∀ ds, I.Typed τ (vl.map VSymbol.vsTy) ds → (I.eval τ ρ (ds ++ b) f).2) := rfl

@[simp] theorem eval_exists (vl : List VSymbol) (trl : List (List Term)) (f : Term) :
    I.eval τ ρ b (tquant a .texists vl trl f) =
      (I.dflt, ∃ ds, I.Typed τ (vl.map VSymbol.vsTy) ds ∧ (I.eval τ ρ (ds ++ b) f).2) := rfl

@[simp] theorem eval_tand (f g : Term) :
    I.eval τ ρ b (tbinop a .tand f g) = (I.dflt, (I.eval τ ρ b f).2 ∧ (I.eval τ ρ b g).2) := rfl

@[simp] theorem eval_tor (f g : Term) :
    I.eval τ ρ b (tbinop a .tor f g) = (I.dflt, (I.eval τ ρ b f).2 ∨ (I.eval τ ρ b g).2) := rfl

@[simp] theorem eval_timplies (f g : Term) :
    I.eval τ ρ b (tbinop a .timplies f g) = (I.dflt, (I.eval τ ρ b f).2 → (I.eval τ ρ b g).2) := rfl

@[simp] theorem eval_tiff (f g : Term) :
    I.eval τ ρ b (tbinop a .tiff f g) = (I.dflt, ((I.eval τ ρ b f).2 ↔ (I.eval τ ρ b g).2)) := rfl

@[simp] theorem eval_tnot (f : Term) :
    I.eval τ ρ b (tnot a f) = (I.dflt, ¬ (I.eval τ ρ b f).2) := rfl

@[simp] theorem eval_ttrue : I.eval τ ρ b (ttrue a) = (I.dflt, True) := rfl

@[simp] theorem eval_tfalse : I.eval τ ρ b (tfalse a) = (I.dflt, False) := rfl

theorem evalBranches_singleton (d : D) (p : Pattern) (t : Term) :
    I.evalBranches τ ρ b d [(p, t)] =
      I.eval τ ρ (I.values τ ((I.matchPat τ p d).getD []) p.vars ++ b) t := rfl

theorem evalBranches_cons_cons (d : D) (p : Pattern) (t : Term) (c : Pattern × Term)
    (bl : List (Pattern × Term)) :
    I.evalBranches τ ρ b d ((p, t) :: c :: bl) =
      match I.matchPat τ p d with
      | some β => I.eval τ ρ (I.values τ β p.vars ++ b) t
      | none => I.evalBranches τ ρ b d (c :: bl) := rfl

@[simp] theorem eval_withAttrs (t : Term) : I.eval τ ρ b (t.withAttrs a) = I.eval τ ρ b t := by
  cases t with
  | tapp _ ls tl ty => cases ty <;> simp [withAttrs]
  | tquant _ q vl trl f => cases q <;> simp [withAttrs]
  | tbinop _ op f g => cases op <;> simp [withAttrs]
  | _ => simp [withAttrs]

@[simp] theorem eval_attrCopy (t : Term) : I.eval τ ρ b (t.attrCopy a) = I.eval τ ρ b t :=
  eval_withAttrs I τ ρ b _ t

end Equations

theorem Typed.length_eq {I : Interp D} {τ : TyVal} {tyl : List Ty} {ds : List D}
    (h : I.Typed τ tyl ds) : tyl.length = ds.length :=
  Forall₂.length_eq h

theorem length_values (β : List (VSymbol × D)) (vl : List VSymbol) :
    (I.values τ β vl).length = vl.length :=
  length_map _

/-! ## Branches -/

theorem evalBranches_cases {I : Interp D} {τ : TyVal} {ρ : VSymbol → D} {b : List D} {d : D} :
    ∀ {bl : List (Pattern × Term)}, bl ≠ [] → ∃ c ∈ bl, ∃ β,
      (I.matchPat τ c.1 d = some β ∨ β = [] ∧ ∀ c ∈ bl, I.matchPat τ c.1 d = none) ∧
        I.evalBranches τ ρ b d bl = I.eval τ ρ (I.values τ β c.1.vars ++ b) c.2
  | [], hne => absurd rfl hne
  | [(p, t)], _ => by
    refine ⟨(p, t), mem_singleton_self _, _, ?_, evalBranches_singleton I τ ρ b d p t⟩
    cases hp : I.matchPat τ p d with
    | none => exact .inr ⟨rfl, by simpa using hp⟩
    | some β => exact .inl rfl
  | (p, t) :: c :: bl, _ => by
    rw [evalBranches_cons_cons]
    cases hp : I.matchPat τ p d with
    | some β => exact ⟨(p, t), mem_cons_self, β, .inl hp, rfl⟩
    | none =>
      obtain ⟨c', hc', β, hβ, heq⟩ := evalBranches_cases (cons_ne_nil c bl)
      refine ⟨c', mem_cons_of_mem _ hc', β, hβ.imp_right fun h => ⟨h.1, ?_⟩, heq⟩
      exact forall_mem_cons.mpr ⟨hp, h.2⟩

/-- Branches are compared one by one: the patterns of two of them match the same values, and
their bodies are related. -/
theorem evalBranches_rel {I I' : Interp D} {τ τ' : TyVal} {ρ ρ' : VSymbol → D} {b c : List D}
    {d e : D} {R : D × Prop → D × Prop → Prop} (hR : R (I.dflt, False) (I'.dflt, False))
    {bl cl : List (Pattern × Term)}
    (h : Forall₂ (fun x y => (I.matchPat τ x.1 d).isSome = (I'.matchPat τ' y.1 e).isSome ∧
      R (I.eval τ ρ (I.values τ ((I.matchPat τ x.1 d).getD []) x.1.vars ++ b) x.2)
        (I'.eval τ' ρ' (I'.values τ' ((I'.matchPat τ' y.1 e).getD []) y.1.vars ++ c) y.2)) bl cl) :
    R (I.evalBranches τ ρ b d bl) (I'.evalBranches τ' ρ' c e cl) := by
  induction h with
  | nil => exact hR
  | @cons x y bl cl hxy hrest ih =>
    obtain ⟨hsome, hbody⟩ := hxy
    cases hrest with
    | nil => exact hbody
    | cons _ _ =>
      rw [evalBranches_cons_cons, evalBranches_cons_cons]
      cases hx : I.matchPat τ x.1 d <;> cases hy : I'.matchPat τ' y.1 e <;>
        simp only [hx, hy, Option.isSome, reduceCtorEq] at hsome
      · exact ih
      · simpa only [hx, hy, Option.getD_some] using hbody

theorem evalBranches_congr {τ' : TyVal} {ρ ρ' : VSymbol → D} {b c : List D} {d : D} {I' : Interp D}
    (hd : I.dflt = I'.dflt) {bl : List (Pattern × Term)} {F : Pattern × Term → Pattern × Term}
    (h : ∀ p t, (p, t) ∈ bl →
      (I.matchPat τ (F (p, t)).1 d).isSome = (I'.matchPat τ' p d).isSome ∧
      I.eval τ ρ (I.values τ ((I.matchPat τ (F (p, t)).1 d).getD []) (F (p, t)).1.vars ++ b)
        (F (p, t)).2 =
      I'.eval τ' ρ' (I'.values τ' ((I'.matchPat τ' p d).getD []) p.vars ++ c) t) :
    I.evalBranches τ ρ b d (bl.map F) = I'.evalBranches τ' ρ' c d bl :=
  evalBranches_rel (R := Eq) (by rw [hd])
    (forall₂_map_left_iff.mpr (forall₂_same.mpr fun (p, t) => h p t))

/-! ## Traversals of the variables -/

section MapVars

variable {I τ} {free : ℕ → List Attr → VSymbol → Term} {bound : ℕ → List Attr → ℕ → Ty → Term}
  {ρ r : VSymbol → D} {b c : List D}

/-- A traversal translates between two environments as soon as it does so on the
variables. The binders passed so far have the values `e`. -/
theorem eval_mapVars (hfree : ∀ e a v, I.eval τ ρ (e ++ b) (free e.length a v) = (r v, False))
    (hbound : ∀ e a i ty, I.eval τ ρ (e ++ b) (bound e.length a i ty) =
      ((e ++ c).getD i I.dflt, False)) (t : Term) (k : ℕ) (e : List D) (hk : e.length = k) :
    I.eval τ ρ (e ++ b) (mapVars free bound k t) = I.eval τ r (e ++ c) t := by
  induction t using inductionOn generalizing k e with
  | tvar a v =>
    subst hk
    rw [mapVars, hfree, eval_tvar]
  | tbnd a i ty =>
    subst hk
    rw [mapVars, hbound, eval_tbnd]
  | tapp a ls tl ty ih =>
    have htl : ((tl.map (mapVars free bound k)).map fun t => (I.eval τ ρ (e ++ b) t).1) =
        tl.map fun t => (I.eval τ r (e ++ c) t).1 := by
      rw [map_map]
      exact map_congr_left fun t ht => congrArg Prod.fst (ih t ht k e hk)
    cases ty with
    | none => rw [mapVars, mapVarsList_eq_map, eval_tapp_none, eval_tapp_none, htl]
    | some ty => rw [mapVars, mapVarsList_eq_map, eval_tapp_some, eval_tapp_some, htl]
  | tif a f t u ihf iht ihu =>
    rw [mapVars, eval_tif, eval_tif, ihf k e hk, iht k e hk, ihu k e hk]
  | tlet a t v u iht ihu =>
    rw [mapVars, eval_tlet, eval_tlet, iht k e hk, ← cons_append, ← cons_append]
    exact ihu (k + 1) (_ :: e) (by simp [hk])
  | tcase a t bl iht ihb =>
    rw [mapVars, eval_tcase, eval_tcase, iht k e hk, mapVarsBranches_eq_map]
    refine evalBranches_congr I τ rfl fun p u hb => ⟨rfl, ?_⟩
    rw [← append_assoc, ← append_assoc]
    exact ihb p u hb _ _ (by rw [length_append, hk, length_values, Nat.add_comm])
  | teps a v f ih =>
    rw [mapVars, eval_teps, eval_teps]
    congr 2
    ext d
    rw [Set.mem_ofPred_eq, Set.mem_ofPred_eq, ← cons_append, ← cons_append,
      ih (k + 1) (d :: e) (by simp [hk])]
  | tquant a q vl trl f _ ih =>
    have hbody : ∀ ds, I.Typed τ (vl.map VSymbol.vsTy) ds →
        I.eval τ ρ (ds ++ (e ++ b)) (mapVars free bound (k + vl.length) f) =
          I.eval τ r (ds ++ (e ++ c)) f := by
      intro ds hds
      have hlen := hds.length_eq
      rw [length_map] at hlen
      rw [← append_assoc, ← append_assoc]
      exact ih _ (ds ++ e) (by rw [length_append, hk, hlen, Nat.add_comm])
    cases q with
    | tforall =>
      rw [mapVars, eval_forall, eval_forall]
      congr 1
      exact propext (forall₂_congr fun ds hds => by rw [hbody ds hds])
    | texists =>
      rw [mapVars, eval_exists, eval_exists]
      congr 1
      exact propext (exists_congr fun ds => and_congr_right fun hds => by rw [hbody ds hds])
  | tbinop a op f g ihf ihg => cases op <;> simp [mapVars, ihf k e hk, ihg k e hk]
  | tnot a f ih => rw [mapVars, eval_tnot, eval_tnot, ih k e hk]
  | _ => rfl

end MapVars

/-! ## Operations on binders -/

section Binders

variable {I τ} {ρ : VSymbol → D}

theorem eval_shift (ds b : List D) (t : Term) :
    I.eval τ ρ (ds ++ b) (shift ds.length t) = I.eval τ ρ b t := by
  refine eval_mapVars (b := ds ++ b) (c := b) (r := ρ) ?_ ?_ t 0 [] rfl
  · exact fun e a v => eval_tvar I τ ρ _ a v
  · intro e a i ty
    rw [eval_tbnd, getD_append_shift]

def AreTerms (I : Interp D) (τ : TyVal) (ρ : VSymbol → D) (b : List D) (ul : List Term) : Prop :=
  ∀ u ∈ ul, (I.eval τ ρ b u).2 = False

theorem eval_instantiate {b : List D} {ul : List Term} (hul : AreTerms I τ ρ b ul) (t : Term) :
    I.eval τ ρ b (instantiate ul t) = I.eval τ ρ ((ul.map fun u => (I.eval τ ρ b u).1) ++ b) t := by
  refine eval_mapVars (b := b) (c := (ul.map fun u => (I.eval τ ρ b u).1) ++ b) (r := ρ)
    ?_ ?_ t 0 [] rfl
  · exact fun e a v => eval_tvar I τ ρ _ a v
  · intro e a i ty
    by_cases hi : i < e.length
    · rw [if_pos hi, eval_tbnd, getD_append _ _ _ _ hi, getD_append _ _ _ _ hi]
    · rw [if_neg hi, getD_append_right _ _ _ _ (by omega)]
      cases hu : ul[i - e.length]? with
      | some u =>
        have hmem := mem_of_getElem? hu
        have hlt := (List.getElem?_eq_some_iff.mp hu).1
        simp only [eval_attrCopy, eval_shift]
        rw [getD_append _ _ _ _ (by simpa using hlt), getD_eq_getElem?_getD,
          getElem?_map, hu, ← hul u hmem]
        rfl
      | none =>
        have hge := getElem?_eq_none_iff.mp hu
        simp only [eval_tbnd]
        rw [getD_append_right _ _ _ _ (by omega),
          getD_append_right _ _ _ _ (by simpa using hge), length_map]
        congr 2
        omega

theorem eval_openVars (b : List D) (vl : List VSymbol) (t : Term) :
    I.eval τ ρ b (openVars vl t) = I.eval τ ρ (vl.map ρ ++ b) t := by
  have hvl : AreTerms I τ ρ b (vl.map (tvar [])) := by
    intro u hu
    obtain ⟨v, _, rfl⟩ := mem_map.mp hu
    rw [eval_tvar]
  rw [openVars, eval_instantiate hvl, map_map]
  simp only [Function.comp_def, eval_tvar]

theorem lookup_zip {α β : Type} [DecidableEq α] {l : List α} {l' : List β}
    (hl : l.length = l'.length) (a : α) (b : β) :
    ((l.zip l').lookup a).getD b = if a ∈ l then l'.getD (l.idxOf a) b else b := by
  induction l generalizing l' with
  | nil => simp
  | cons x l ih =>
    cases l' with
    | nil => simp at hl
    | cons y l' =>
      have hl' : l.length = l'.length := by simpa using hl
      by_cases ha : a = x
      · simp [ha]
      · have hne : (a == x) = false := by simp [ha]
        have hne' : ¬ x = a := fun h => ha h.symm
        rw [zip_cons_cons, lookup_cons, hne]
        simp only [ih hl', mem_cons, ha, false_or, idxOf_cons_ne _ hne', getD_cons_succ]

theorem eval_closeVars {vl : List VSymbol} {ds : List D} (hl : vl.length = ds.length)
    (b : List D) (t : Term) :
    I.eval τ ρ (ds ++ b) (closeVars vl t) = I.eval τ (assign ρ (vl.zip ds)) b t := by
  refine eval_mapVars (b := ds ++ b) (c := b) (r := assign ρ (vl.zip ds)) ?_ ?_ t 0 [] rfl
  · intro e a v
    unfold assign
    rw [lookup_zip hl]
    by_cases hv : v ∈ vl
    · have hlt : vl.idxOf v < ds.length := hl ▸ idxOf_lt_length_of_mem hv
      rw [if_pos hv, if_pos hv, eval_tbnd, getD_append_right _ _ _ _ (by omega),
        Nat.add_sub_cancel_left, getD_append _ _ _ _ hlt, getD_eq_getElem _ _ hlt,
        getD_eq_getElem _ _ hlt]
    · rw [if_neg hv, if_neg hv, eval_tvar]
  · intro e a i ty
    rw [eval_tbnd, hl, getD_append_shift]

/-- The valuation under which the variables have the values of the terms. -/
noncomputable def substVal (I : Interp D) (τ : TyVal) (ρ : VSymbol → D) (b : List D)
    (s : VSymbol → Option Term) (v : VSymbol) : D :=
  match s v with
  | some u => (I.eval τ ρ b u).1
  | none => ρ v

theorem eval_tSubst {b : List D} {s : VSymbol → Option Term}
    (hs : ∀ v u, s v = some u → (I.eval τ ρ b u).2 = False) (t : Term) :
    I.eval τ ρ b (tSubst s t) = I.eval τ (substVal I τ ρ b s) b t := by
  refine eval_mapVars (b := b) (c := b) (r := substVal I τ ρ b s) ?_ ?_ t 0 [] rfl
  · intro e a v
    unfold substVal
    cases hv : s v with
    | none => rw [eval_tvar]
    | some u =>
      simp only [eval_attrCopy, eval_shift]
      rw [← hs v u hv]
  · exact fun e a i ty => eval_tbnd I τ ρ _ a i ty

end Binders

end Interp

end Why3
