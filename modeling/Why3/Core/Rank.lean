import Why3.Core.FreeVars
import Mathlib.Algebra.Order.BigOperators.Group.List
import Mathlib.Algebra.Order.Ring.Nat

/-!
# A measure of terms

The number of nodes of a term, where a variable that a quantifier binds counts as much as
the body of the quantifier. The measure is that of the term in which the variable is
replaced by a part of the body, or less, so it decreases when a quantifier is removed by
such a replacement.
-/

namespace Why3

open List

namespace Term

variable {b c ds : List ℕ} {F G : List ℕ → ℕ} {n : ℕ}

/-! ## Measures of binders -/

/-- The measure of `n` variables over a body that measures `F`: each variable counts as much
as the body does without it. -/
def gain : ℕ → (List ℕ → ℕ) → ℕ
  | 0, F => F []
  | n + 1, F => gain n fun ds => F (gain n (fun ds => F (0 :: ds)) :: ds)

attribute [local simp] gain

theorem gain_congr (h : ∀ ds, ds.length = n → F ds = G ds) : gain n F = gain n G := by
  induction n generalizing F G with
  | zero => exact h [] rfl
  | succ n ih =>
    have hcons : ∀ d, gain n (fun ds => F (d :: ds)) = gain n fun ds => G (d :: ds) := fun d =>
      ih fun ds hds => h (d :: ds) (by rw [length_cons, hds])
    rw [gain, gain, hcons, hcons]

abbrev Dominated (b c : List ℕ) : Prop := ∀ i, b.getD i 0 ≤ c.getD i 0

theorem Dominated.cons {d d' : ℕ} (hd : d ≤ d') (h : Dominated b c) : Dominated (d :: b) (d' :: c)
  | 0 => hd
  | i + 1 => h i

theorem Dominated.append {es : List ℕ} (hl : ds.length = es.length) (hd : Dominated ds es)
    (h : Dominated b c) : Dominated (ds ++ b) (es ++ c) := by
  intro i
  by_cases hi : i < ds.length
  · rw [getD_append _ _ _ _ hi, getD_append _ _ _ _ (hl ▸ hi)]
    exact hd i
  · rw [getD_append_right _ _ _ _ (by omega), getD_append_right _ _ _ _ (by omega), hl]
    exact h _

theorem dominated_zero (n : ℕ) (ds : List ℕ) : Dominated (replicate n 0) ds := by
  intro i
  rw [getD_eq_getElem?_getD, getElem?_replicate]
  split <;> exact Nat.zero_le _

theorem gain_mono (h : ∀ ds es, ds.length = n → es.length = n → Dominated ds es → F ds ≤ G es) :
    gain n F ≤ gain n G := by
  induction n generalizing F G with
  | zero => exact h [] [] rfl rfl fun _ => le_refl _
  | succ n ih =>
    have hcons : ∀ d e, d ≤ e →
        gain n (fun ds => F (d :: ds)) ≤ gain n fun ds => G (e :: ds) := fun d e hde =>
      ih fun ds es hds hes hle => h (d :: ds) (e :: es) (by rw [length_cons, hds])
        (by rw [length_cons, hes]) (hle.cons hde)
    exact hcons _ _ (hcons 0 0 (le_refl 0))

/-- The measure is at least that of the body without the variables. -/
theorem le_gain (h : ∀ ds es, ds.length = n → es.length = n → Dominated ds es → F ds ≤ F es) :
    F (replicate n 0) ≤ gain n F := by
  induction n generalizing F with
  | zero => exact le_refl _
  | succ n ih =>
    rw [gain, replicate_succ]
    have hmono : ∀ ds es, ds.length = n → es.length = n → Dominated ds es →
        F (gain n (fun ds => F (0 :: ds)) :: ds) ≤ F (gain n (fun ds => F (0 :: ds)) :: es) :=
      fun ds es hds hes hle => h _ _ (by rw [length_cons, hds])
        (by rw [length_cons, hes]) (hle.cons (le_refl _))
    refine le_trans ?_ (ih hmono)
    exact h _ _ (by simp) (by simp)
      (Dominated.cons (Nat.zero_le _) fun _ => le_refl _)

/-! ## Measures of terms -/

mutual

/-- The measure of a term, that of its free variables being `ρ` and that of its indices being
`b`. -/
def rank (ρ : VSymbol → ℕ) : List ℕ → Term → ℕ
  | _, tvar _ v => ρ v
  | b, tbnd _ i _ => b.getD i 0
  | _, tconst _ _ _ => 0
  | b, tapp _ _ tl _ => rankList ρ b tl + 1
  | b, tif _ f t e => rank ρ b f + rank ρ b t + rank ρ b e + 1
  | b, tlet _ t _ e => rank ρ b t + rank ρ (0 :: b) e + 1
  | b, tcase _ t bl => rank ρ b t + rankBranches ρ b bl + 1
  | b, teps _ _ f => rank ρ (0 :: b) f + 1
  | b, tquant _ _ vl trl f =>
    gain vl.length (fun ds => rankTriggers ρ (ds ++ b) trl + rank ρ (ds ++ b) f) + 1
  | b, tbinop _ _ f g => rank ρ b f + rank ρ b g + 1
  | b, tnot _ f => rank ρ b f + 1
  | _, ttrue _ => 0
  | _, tfalse _ => 0

def rankList (ρ : VSymbol → ℕ) : List ℕ → List Term → ℕ
  | _, [] => 0
  | b, t :: tl => rank ρ b t + rankList ρ b tl

def rankBranches (ρ : VSymbol → ℕ) : List ℕ → List (Pattern × Term) → ℕ
  | _, [] => 0
  | b, (p, t) :: bl => rank ρ (replicate p.vars.length 0 ++ b) t + rankBranches ρ b bl

def rankTriggers (ρ : VSymbol → ℕ) : List ℕ → List (List Term) → ℕ
  | _, [] => 0
  | b, tl :: trl => rankList ρ b tl + rankTriggers ρ b trl

end

attribute [local simp] rank

theorem rankList_eq (ρ : VSymbol → ℕ) (b : List ℕ) (tl : List Term) :
    rankList ρ b tl = (tl.map (rank ρ b)).sum := by
  induction tl with
  | nil => rfl
  | cons t tl ih => rw [rankList, ih, map_cons, sum_cons]

theorem rankBranches_eq (ρ : VSymbol → ℕ) (b : List ℕ) (bl : List (Pattern × Term)) :
    rankBranches ρ b bl = (bl.map fun c => rank ρ (replicate c.1.vars.length 0 ++ b) c.2).sum := by
  induction bl with
  | nil => rfl
  | cons c bl ih => rw [rankBranches, ih, map_cons, sum_cons]

theorem rankTriggers_eq (ρ : VSymbol → ℕ) (b : List ℕ) (trl : List (List Term)) :
    rankTriggers ρ b trl = (trl.map (rankList ρ b)).sum := by
  induction trl with
  | nil => rfl
  | cons tl trl ih => rw [rankTriggers, ih, map_cons, sum_cons]

/-- A traversal keeps the measure as soon as it does so on the variables. The binders passed
so far have the measures `e`. -/
theorem rank_mapVars {free : ℕ → List Attr → VSymbol → Term} {bound : ℕ → List Attr → ℕ → Ty → Term}
    {ρ r : VSymbol → ℕ} {b c : List ℕ} (hfree : ∀ e a v, rank ρ (e ++ b) (free e.length a v) = r v)
    (hbound : ∀ e a i ty, rank ρ (e ++ b) (bound e.length a i ty) = (e ++ c).getD i 0) (t : Term)
    (k : ℕ) (e : List ℕ) (hk : e.length = k) :
    rank ρ (e ++ b) (mapVars free bound k t) = rank r (e ++ c) t := by
  induction t using inductionOn generalizing k e with
  | tvar a v => exact hk ▸ hfree e a v
  | tbnd a i ty => exact hk ▸ hbound e a i ty
  | tapp _ _ tl _ ih =>
    rw [mapVars, rank, rank, mapVarsList_eq_map, rankList_eq, rankList_eq, map_map]
    exact congrArg (sum · + 1) (map_congr_left fun t ht => ih t ht k e hk)
  | tlet _ t _ u iht ihu =>
    have hu := ihu (k + 1) (0 :: e) (by rw [length_cons, hk])
    rw [mapVars, rank, rank, iht k e hk]
    exact congrArg (_ + · + 1) hu
  | tcase _ t bl iht ihbl =>
    rw [mapVars, rank, rank, iht k e hk, mapVarsBranches_eq_map, rankBranches_eq, rankBranches_eq,
      map_map]
    refine congrArg (_ + sum · + 1) (map_congr_left ?_)
    rintro ⟨p, u⟩ hu
    have hu := ihbl p u hu (k + p.vars.length) (replicate p.vars.length 0 ++ e) (by
      rw [length_append, length_replicate, hk, Nat.add_comm])
    rwa [append_assoc, append_assoc] at hu
  | teps _ _ f ih =>
    have hf := ih (k + 1) (0 :: e) (by rw [length_cons, hk])
    rw [mapVars, rank, rank]
    exact congrArg (· + 1) hf
  | tquant _ _ vl trl f ihtrl ihf =>
    rw [mapVars, rank, rank]
    refine congrArg (· + 1) (gain_congr fun ds hds => ?_)
    have hlen : (ds ++ e).length = k + vl.length := by
      rw [length_append, hk, hds, Nat.add_comm]
    rw [← append_assoc, ← append_assoc, ihf _ _ hlen, mapVarsTriggers_eq_map, rankTriggers_eq,
      rankTriggers_eq, map_map]
    refine congrArg (sum · + _) (map_congr_left fun tl htl => ?_)
    rw [Function.comp_apply, rankList_eq, rankList_eq, map_map]
    exact congrArg sum (map_congr_left fun t ht => ihtrl tl htl t ht _ _ hlen)
  | tif _ _ _ _ ihf iht ihe => rw [mapVars, rank, rank, ihf k e hk, iht k e hk, ihe k e hk]
  | tbinop _ _ _ _ ihf ihg => rw [mapVars, rank, rank, ihf k e hk, ihg k e hk]
  | tnot _ _ ih => rw [mapVars, rank, rank, ih k e hk]
  | _ => rfl

/-! ## Monotonicity -/

section Mono

variable {ρ ρ' : VSymbol → ℕ}

theorem rankTriggers_mono {trl : List (List Term)}
    (h : ∀ tl ∈ trl, ∀ t ∈ tl, rank ρ b t ≤ rank ρ' c t) :
    rankTriggers ρ b trl ≤ rankTriggers ρ' c trl := by
  rw [rankTriggers_eq, rankTriggers_eq]
  refine sum_le_sum fun tl htl => ?_
  rw [rankList_eq, rankList_eq]
  exact sum_le_sum (h tl htl)

/-- The measure grows with those of the free variables and of the indices. -/
theorem rank_mono (t : Term) {b c : List ℕ} (hρ : ∀ v ∈ t.freeVars, ρ v ≤ ρ' v)
    (h : Dominated b c) : rank ρ b t ≤ rank ρ' c t := by
  induction t using inductionOn generalizing b c with
  | tvar _ v => exact hρ v (mem_singleton_self v)
  | tbnd _ i _ => exact h i
  | tapp _ _ tl _ ih =>
    rw [freeVars, freeVarsList_eq, forall_mem_flatMap] at hρ
    rw [rank, rank, rankList_eq, rankList_eq]
    exact Nat.succ_le_succ (sum_le_sum fun t ht => ih t ht (hρ t ht) h)
  | tlet _ t _ e iht ihe =>
    rw [freeVars, forall_mem_append] at hρ
    have ht := iht hρ.1 h
    have he := ihe hρ.2 (h.cons (le_refl 0))
    rw [rank, rank]
    omega
  | tcase _ t bl iht ihbl =>
    rw [freeVars, forall_mem_append, freeVarsBranches_eq, forall_mem_flatMap] at hρ
    rw [rank, rank, rankBranches_eq, rankBranches_eq]
    exact Nat.succ_le_succ (Nat.add_le_add (iht hρ.1 h) (sum_le_sum fun b hb =>
      ihbl b.1 b.2 hb (hρ.2 _ hb) (Dominated.append rfl (fun _ => le_refl _) h)))
  | teps _ _ f ih => exact Nat.succ_le_succ (ih hρ (h.cons (le_refl 0)))
  | tquant _ _ vl trl f ihtrl ihf =>
    rw [freeVars, forall_mem_append, freeVarsTriggers_eq] at hρ
    simp only [forall_mem_flatMap] at hρ
    refine Nat.succ_le_succ (gain_mono fun ds es hds hes hle => ?_)
    have hle := hle.append (hds.trans hes.symm) h
    exact Nat.add_le_add (rankTriggers_mono fun tl htl t ht =>
      ihtrl tl htl t ht (hρ.1 tl htl t ht) hle) (ihf hρ.2 hle)
  | tif _ f t e ihf iht ihe =>
    simp only [freeVars, forall_mem_append] at hρ
    have hf := ihf hρ.1.1 h
    have ht := iht hρ.1.2 h
    have he := ihe hρ.2 h
    rw [rank, rank]
    omega
  | tbinop _ _ f g ihf ihg =>
    rw [freeVars, forall_mem_append] at hρ
    have hf := ihf hρ.1 h
    have hg := ihg hρ.2 h
    rw [rank, rank]
    omega
  | tnot _ f ih => exact Nat.succ_le_succ (ih hρ h)
  | _ => exact le_refl _

/-- The measure that a quantifier takes that of its variables from. -/
theorem rank_body_mono (trl : List (List Term)) (f : Term) (h : Dominated b c) :
    rankTriggers ρ b trl + rank ρ b f ≤ rankTriggers ρ c trl + rank ρ c f :=
  Nat.add_le_add (rankTriggers_mono fun _ _ t _ => rank_mono t (fun _ _ => le_refl _) h)
    (rank_mono f (fun _ _ => le_refl _) h)

theorem rank_congr (t : Term) (b : List ℕ) (h : ∀ v ∈ t.freeVars, ρ v = ρ' v) :
    rank ρ b t = rank ρ' b t :=
  Nat.le_antisymm (rank_mono t (fun v hv => (h v hv).le) fun _ => le_refl _)
    (rank_mono t (fun v hv => (h v hv).ge) fun _ => le_refl _)

end Mono

/-! ## Operations on binders -/

section Binders

variable {ρ : VSymbol → ℕ}

@[simp] theorem rank_withAttrs (a : List Attr) (b : List ℕ) (t : Term) :
    rank ρ b (t.withAttrs a) = rank ρ b t := by
  cases t <;> rfl

@[simp] theorem rank_attrCopy (a : List Attr) (b : List ℕ) (t : Term) :
    rank ρ b (t.attrCopy a) = rank ρ b t :=
  rank_withAttrs _ b t

theorem rank_shift (ds b : List ℕ) (t : Term) :
    rank ρ (ds ++ b) (shift ds.length t) = rank ρ b t := by
  refine rank_mapVars (b := ds ++ b) (c := b) (r := ρ) (fun _ _ _ => rfl) ?_ t 0 [] rfl
  intro e a i ty
  rw [rank, getD_append_shift]

/-- The measure of a term does not depend on measures of indices that are its own. -/
theorem rank_openVars (b : List ℕ) (vl : List VSymbol) (t : Term) :
    rank ρ b (openVars vl t) = rank ρ (vl.map ρ ++ b) t := by
  refine rank_mapVars (b := b) (c := vl.map ρ ++ b) (r := ρ) (fun _ _ _ => rfl) ?_ t 0 [] rfl
  intro e a i ty
  by_cases hi : i < e.length
  · rw [if_pos hi, rank, getD_append _ _ _ _ hi, getD_append _ _ _ _ hi]
  · rw [if_neg hi, getD_append_right _ _ _ _ (by omega), getElem?_map]
    cases hu : vl[i - e.length]? with
    | some u =>
      have hlt := (List.getElem?_eq_some_iff.mp hu).1
      simp only [Option.map_some, rank_attrCopy, rank_shift]
      rw [getD_append _ _ _ _ (by simpa using hlt), getD_eq_getElem?_getD, getElem?_map, hu]
      rfl
    | none =>
      have hge := getElem?_eq_none_iff.mp hu
      simp only [Option.map_none, rank, length_map]
      rw [getD_append_right _ _ _ _ (by omega),
        getD_append_right _ _ _ _ (by simpa using hge), length_map]
      congr 1
      omega

theorem rank_closeVars {vl : List VSymbol} (hlen : ds.length = vl.length) (b : List ℕ) (t : Term) :
    rank ρ (ds ++ b) (closeVars vl t) =
      rank (fun v => if v ∈ vl then ds.getD (vl.idxOf v) 0 else ρ v) b t := by
  refine rank_mapVars (b := ds ++ b) (c := b) ?_ ?_ t 0 [] rfl
  · intro e a v
    split
    · next hv =>
        have hi : vl.idxOf v < ds.length := hlen ▸ idxOf_lt_length_iff.mpr hv
        rw [rank, getD_append_right _ _ _ _ (by omega), Nat.add_sub_cancel_left,
          getD_append _ _ _ _ hi]
    · rfl
  · intro e a i ty
    rw [rank, ← hlen, getD_append_shift]

theorem rank_tSubst (s : VSymbol → Option Term) (t : Term) :
    rank ρ [] (tSubst s t) = rank (fun v => (s v).elim (ρ v) (rank ρ [])) [] t := by
  refine rank_mapVars (b := []) (c := []) (fun e a v => ?_) (fun _ _ _ _ => rfl) t 0 [] rfl
  cases hv : s v with
  | none => rfl
  | some u => exact (rank_attrCopy a _ _).trans (rank_shift e [] u)

end Binders

end Term

end Why3
