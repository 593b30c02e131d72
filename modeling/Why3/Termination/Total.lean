import Why3.Termination.Ways
import Mathlib.Data.List.MinMax

/-!
# The search for a variant ends

No vector is looked at twice for the same symbol, and there are finitely many
vectors. Each round of the choice of positions sets aside at least one way.
-/

namespace Why3

open Lib List

variable {htb work : List (LSymbol × List Descent)} {v : List Descent} {fuel m : ℕ}

/-! ## Finitely many vectors -/

def descents (m : ℕ) : List Descent :=
  .unknown :: ((List.range m).map .less ++ (List.range m).map .equal)

def vectors (m : ℕ) : ℕ → List (List Descent)
  | 0 => [[]]
  | k + 1 => [] :: (descents m).flatMap fun d => (vectors m k).map (d :: ·)

theorem length_descents (m : ℕ) : (descents m).length = 2 * m + 1 := by
  rw [descents, length_cons, length_append, length_map, length_map, length_range]
  omega

theorem mem_descents {d : Descent} (h : d.bound ≤ m) : d ∈ descents m := by
  cases d with
  | unknown => exact mem_cons_self
  | less i | equal i => simpa [descents] using Nat.lt_of_succ_le h

theorem mem_vectors {k : ℕ} (hk : v.length ≤ k) (hv : ∀ d ∈ v, d.bound ≤ m) : v ∈ vectors m k := by
  induction k generalizing v with
  | zero =>
    rw [length_eq_zero_iff.mp (Nat.le_zero.mp hk)]
    exact mem_singleton_self []
  | succ k ih =>
    cases v with
    | nil => exact mem_cons_self
    | cons d v =>
      rw [forall_mem_cons] at hv
      refine mem_cons_of_mem _ (mem_flatMap.mpr ⟨d, mem_descents hv.1, ?_⟩)
      exact mem_map_of_mem (ih (Nat.le_of_succ_le_succ hk) hv.2)

theorem length_vectors_le (m k : ℕ) :
    0 < (vectors m k).length ∧ (vectors m k).length ≤ (2 * m + 2) ^ k := by
  induction k with
  | zero => simp [vectors]
  | succ k ih =>
    have hlen : (vectors m (k + 1)).length = (2 * m + 1) * (vectors m k).length + 1 := by
      simp [vectors, length_descents]
    have hsucc : (2 * m + 2) * (vectors m k).length =
        (2 * m + 1) * (vectors m k).length + (vectors m k).length := Nat.succ_mul _ _
    have hle : (2 * m + 2) * (vectors m k).length ≤ (2 * m + 2) ^ (k + 1) := by
      rw [pow_succ, Nat.mul_comm ((2 * m + 2) ^ k)]
      exact Nat.mul_le_mul_left _ ih.2
    omega

/-! ## The list of calls -/

theorem bound_toLess (d : Descent) : d.toLess.bound = d.bound := by
  cases d <;> rfl

theorem bound_getD_le (h : ∀ d ∈ v, d.bound ≤ m) (i : ℕ) : (v.getD i .unknown).bound ≤ m := by
  rw [getD_eq_getElem?_getD]
  cases hd : v[i]? with
  | none => exact Nat.zero_le m
  | some d => exact h d (mem_of_getElem? hd)

theorem bound_multiply_le {v2 : List Descent} (h : ∀ d ∈ v2, d.bound ≤ m) (v1 : List Descent) :
    ∀ d ∈ multiply v1 v2, d.bound ≤ m := by
  intro d hd
  obtain ⟨d1, _, rfl⟩ := mem_map.mp hd
  cases d1 with
  | unknown => exact Nat.zero_le m
  | equal i => exact bound_getD_le h i
  | less i =>
    rw [bound_toLess]
    exact bound_getD_le h i

theorem length_findAll_le {κ α : Type} [DecidableEq κ] (m : List (κ × α)) (k : κ) :
    (findAll m k).length ≤ m.length :=
  length_filterMap_le _ _

section AddCall

variable {cgr : CallSet} {id : LSymbol} {m k : ℕ}

/-- The calls that may be met: a caller of the set with one of finitely many vectors. -/
def possibleCalls (cgr : CallSet) (m k : ℕ) : List (LSymbol × List Descent) :=
  (cgr.map fun c => c.2.1) ×ˢ vectors m k

theorem mem_possibleCalls {s : LSymbol} {c : List Descent} (hs : ∃ x ∈ cgr, x.2.1 = s)
    (hk : c.length ≤ k) (hc : ∀ d ∈ c, d.bound ≤ m) : (s, c) ∈ possibleCalls cgr m k :=
  mem_product.mpr ⟨mem_map.mpr hs, mem_vectors hk hc⟩

theorem addCall_total (hcgr : ∀ c ∈ cgr, ∀ d ∈ c.2.2, d.bound ≤ m) (lc : List (List Descent))
    (hnodup : htb.Nodup) (hhtb : htb ⊆ possibleCalls cgr m k) (hwork : work ⊆ possibleCalls cgr m k)
    (hk : ∀ x ∈ work, x.2.length ≤ k)
    (hfuel : ((possibleCalls cgr m k).length - htb.length) * (cgr.length + 1) + work.length < fuel) :
    ∃ lc', addCall cgr id fuel htb lc work = .ok lc' := by
  induction fuel generalizing htb lc work with
  | zero => exact absurd hfuel (Nat.not_lt_zero _)
  | succ fuel ih =>
    cases work with
    | nil => exact ⟨lc, rfl⟩
    | cons x work =>
      obtain ⟨s, c⟩ := x
      rw [length_cons] at hfuel
      rw [cons_subset] at hwork
      rw [forall_mem_cons] at hk
      rw [addCall]
      split
      · exact ih _ hnodup hhtb hwork.2 hk.2 (by omega)
      · split
        · exact ih _ hnodup hhtb hwork.2 hk.2 (by omega)
        · next hsub =>
            have hnew : (s, c) ∉ htb := by
              intro hmem
              exact hsub (any_eq_true.mpr ⟨c, mem_findAll.mpr hmem, subsumes_refl c⟩)
            have hnodup' : ((s, c) :: htb).Nodup := nodup_cons.mpr ⟨hnew, hnodup⟩
            have hhtb' : (s, c) :: htb ⊆ possibleCalls cgr m k :=
              cons_subset.mpr ⟨hwork.1, hhtb⟩
            have hlen := (subperm_of_subset hnodup' hhtb').length_le
            rw [length_cons] at hlen
            have hres : ∀ x ∈ (resolve cgr s c).reverse,
                x ∈ possibleCalls cgr m k ∧ x.2.length ≤ k := by
              intro x hx
              rw [mem_reverse, resolve, mem_reverse] at hx
              obtain ⟨y, hy, rfl⟩ := mem_map.mp hx
              have hy' := mem_findAll.mp hy
              have hlen : (multiply c y.2).length ≤ k := (length_multiply c y.2).symm ▸ hk.1
              exact ⟨mem_possibleCalls ⟨_, hy', rfl⟩ hlen (bound_multiply_le (hcgr _ hy') c), hlen⟩
            refine ih _ hnodup' hhtb' ?_ ?_ ?_
            · exact append_subset.mpr ⟨fun x hx => (hres x hx).1, hwork.2⟩
            · exact forall_mem_append.mpr ⟨fun x hx => (hres x hx).2, hk.2⟩
            · have hle : (resolve cgr s c).length ≤ cgr.length := by
                rw [resolve, length_reverse, length_map]
                exact length_findAll_le cgr s
              obtain ⟨r, hr⟩ := Nat.exists_eq_add_of_le hlen
              have h₁ : (possibleCalls cgr m k).length - htb.length = r + 1 := by omega
              have h₂ : (possibleCalls cgr m k).length - ((s, c) :: htb).length = r := by
                rw [length_cons]
                omega
              rw [h₁, Nat.succ_mul] at hfuel
              rw [h₂, length_append, length_reverse]
              omega

theorem buildCallList_total (cgr : CallSet) (id : LSymbol) :
    ∃ lc, buildCallList cgr id = .ok lc := by
  have hbound : ∀ c ∈ cgr, ∀ d ∈ c.2.2, d.bound ≤
      (cgr.map fun c => (c.2.2.map Descent.bound).foldr max 0).foldr max 0 :=
    fun c hc d hd => (le_max_of_le (mem_map_of_mem hd) le_rfl).trans
      (le_max_of_le (mem_map_of_mem hc) le_rfl)
  have hlength : ∀ c ∈ cgr, c.2.2.length ≤ (cgr.map fun c => c.2.2.length).foldr max 0 :=
    fun c hc => le_max_of_le (mem_map_of_mem hc) le_rfl
  unfold buildCallList callFuel
  dsimp only
  generalize (cgr.map fun c => (c.2.2.map Descent.bound).foldr max 0).foldr max 0 = m at hbound ⊢
  generalize (cgr.map fun c => c.2.2.length).foldr max 0 = k at hlength ⊢
  have hall : ∀ x ∈ findAll cgr id, x ∈ possibleCalls cgr m k ∧ x.2.length ≤ k := by
    intro x hx
    have hx' := mem_findAll.mp hx
    exact ⟨mem_possibleCalls ⟨_, hx', rfl⟩ (hlength _ hx') (hbound _ hx'), hlength _ hx'⟩
  refine addCall_total hbound [] nodup_nil (nil_subset _) (fun x hx => (hall x hx).1)
    (fun x hx => (hall x hx).2) ?_
  have hU : (possibleCalls cgr m k).length ≤ cgr.length * (2 * m + 2) ^ k := by
    rw [possibleCalls, length_product, length_map]
    exact Nat.mul_le_mul_left _ (length_vectors_le m k).2
  have hmul := Nat.mul_le_mul_right (cgr.length + 1) hU
  have hfind := length_findAll_le cgr id
  rw [length_nil, Nat.sub_zero]
  omega

/-- The list is computed. Its vectors are those of ways back to the symbol, and for each way one
of them says no more than the way. -/
theorem buildCallList_ways (cgr : CallSet) (id : LSymbol) :
    (∃ lc, buildCallList cgr id = .ok lc ∧
      (∀ v ∈ lc, ∃ c, CallPath cgr id id c ∧ v = localVec c) ∧
      ∀ c, CallPath cgr id id c → ∃ v ∈ lc, ∀ i < c.length,
        (v.getD i .unknown = .equal i →
          c.getD i .unknown = .equal i ∨ c.getD i .unknown = .less i) ∧
        (v.getD i .unknown = .less i → c.getD i .unknown = .less i)) ∧
      (∀ v i, (localVec v).getD i .unknown = if v.getD i .unknown ∈ [.equal i, .less i]
        then v.getD i .unknown else .unknown) ∧
      ∀ v1 v2 i, (multiply v1 v2).getD i .unknown = match v1.getD i .unknown with
        | .unknown => .unknown
        | .equal j => v2.getD j .unknown
        | .less j => match v2.getD j .unknown with
          | .unknown => .unknown
          | .equal k | .less k => .less k := by
  obtain ⟨lc, h⟩ := buildCallList_total cgr id
  refine ⟨⟨lc, h, buildCallList_sound h, fun c hpath => ?_⟩, fun v i => ?_, fun v1 v2 i => ?_⟩
  rotate_left
  · rw [getD_localVec]
    generalize v.getD i .unknown = d
    cases d with
    | unknown => rfl
    | equal j | less j => simp [Descent.localAt, eq_comm]
  · rw [getD_multiply]
    rfl
  obtain ⟨c', hmem, hsub⟩ := buildCallList_complete h hpath
  refine ⟨_, hmem, fun i hi => ?_⟩
  have hd := (subsumes_iff.mp hsub).2 i hi
  rw [getD_localVec]
  rw [Descent.sbs_iff] at hd
  generalize c'.getD i .unknown = d at hd
  cases d with
  | unknown => simp [Descent.localAt]
  | equal j | less j =>
    rw [Descent.localAt]
    split
    · next hij => simpa [hij, Descent.toLess] using hd
    · simp

end AddCall

/-! ## The choice of positions -/

theorem checkVariant_total {exn : Exn} {cl : List (List Descent)} (acc : List ℕ)
    (hl : ∀ v ∈ cl, IsLocal v) (hfuel : cl.length ≤ fuel) :
    (∃ pl, checkVariant exn fuel acc cl = .ok pl) ∨ checkVariant exn fuel acc cl = .error exn := by
  induction fuel generalizing acc cl with
  | zero =>
    rw [length_eq_zero_iff.mp (Nat.le_zero.mp hfuel)]
    exact .inl ⟨_, rfl⟩
  | succ fuel ih =>
    cases cl with
    | nil => exact .inl ⟨_, rfl⟩
    | cons a r =>
      rw [checkVariant]
      generalize hres : decreasing (r.foldl addVec a) = res
      cases res with
      | nil => exact .inr rfl
      | cons i res =>
        refine ih _ (fun v hv => hl v (mem_filter.mp hv).1) ?_
        obtain ⟨_, v, hv, hless⟩ := decreasing_spec hl (hres ▸ mem_cons_self)
        have hlt : ((a :: r).filter (keeps (i :: res))).length < (a :: r).length := by
          refine length_filter_lt_length_iff_exists.mpr ⟨v, hv, ?_⟩
          rw [keeps, all_cons, hless]
          simp
        omega

theorem findVariant_total (exn : Exn) (cgr : CallSet) (id : LSymbol) :
    (∃ pl, findVariant exn cgr id = .ok pl) ∨ findVariant exn cgr id = .error exn := by
  obtain ⟨cl, hcl⟩ := buildCallList_total cgr id
  rw [findVariant, hcl]
  exact checkVariant_total [] (isLocal_of_mem hcl) le_rfl

end Why3
