import Why3.Core.Subst

/-!
# Free variables under the operations on binders

What happens to the free variables of a term when its variables are replaced. Closing
a binder removes its variables, and a substitution puts the variables of the terms in
the place of those that they replace.
-/

namespace Why3

open List

namespace Term

variable {vl : List VSymbol} {t : Term} {v : VSymbol}
variable {trl : List (List Term)} {tl : List Term}

@[simp] theorem freeVars_withAttrs (a : List Attr) (t : Term) :
    (t.withAttrs a).freeVars = t.freeVars := by
  cases t <;> rfl

@[simp] theorem freeVars_attrCopy (a : List Attr) (t : Term) :
    (attrCopy a t).freeVars = t.freeVars :=
  freeVars_withAttrs _ t

/-! ## Lists of terms -/

theorem freeVarsList_eq (tl : List Term) : freeVarsList tl = tl.flatMap freeVars := by
  induction tl with
  | nil => rfl
  | cons t tl ih => rw [freeVarsList, ih, flatMap_cons]

theorem freeVarsBranches_eq (bl : List (Pattern × Term)) :
    freeVarsBranches bl = bl.flatMap fun (_, t) => t.freeVars := by
  induction bl with
  | nil => rfl
  | cons b bl ih => rw [freeVarsBranches, ih, flatMap_cons]

theorem freeVarsTriggers_eq (trl : List (List Term)) :
    freeVarsTriggers trl = trl.flatMap (·.flatMap freeVars) := by
  induction trl with
  | nil => rfl
  | cons tl trl ih => rw [freeVarsTriggers, ih, freeVarsList_eq, flatMap_cons]

theorem mem_freeVarsList : v ∈ freeVarsList tl ↔ ∃ t ∈ tl, v ∈ t.freeVars := by
  rw [freeVarsList_eq, mem_flatMap]

theorem mem_freeVarsTriggers : v ∈ freeVarsTriggers trl ↔ ∃ tl ∈ trl, ∃ t ∈ tl, v ∈ t.freeVars := by
  simp only [freeVarsTriggers_eq, mem_flatMap]

/-! ## Traversals -/

section MapVars

variable {free : ℕ → List Attr → VSymbol → Term} {bound : ℕ → List Attr → ℕ → Ty → Term}

/-- The free variables are replaced one by one if no index becomes one. -/
theorem freeVars_mapVars {F : VSymbol → List VSymbol} (hfree : ∀ k a v, (free k a v).freeVars = F v)
    (hbound : ∀ k a i ty, (bound k a i ty).freeVars = []) (t : Term) (k : ℕ) :
    (mapVars free bound k t).freeVars = t.freeVars.flatMap F := by
  induction t using inductionOn generalizing k with
  | tapp _ _ tl _ ih =>
    simp only [mapVars, freeVars, mapVarsList_eq_map, freeVarsList_eq, flatMap_map, flatMap_assoc]
    exact flatMap_congr fun t ht => ih t ht k
  | tcase _ t bl iht ihb =>
    simp only [mapVars, freeVars, iht, mapVarsBranches_eq_map, freeVarsBranches_eq,
      flatMap_map, flatMap_append, flatMap_assoc]
    exact congrArg _ (flatMap_congr fun b h => ihb b.1 b.2 h _)
  | tquant _ _ vl trl f iht ihf =>
    simp only [mapVars, freeVars, ihf, mapVarsTriggers_eq_map, freeVarsTriggers_eq,
      flatMap_map, flatMap_append, flatMap_assoc]
    exact congrArg (· ++ _) (flatMap_congr fun tl htl =>
      flatMap_congr fun t ht => iht tl htl t ht _)
  | _ => simp_all [mapVars, freeVars]

/-- What holds of the variables that take the place of variables and of indices holds of
the free variables. -/
theorem forall_freeVars_mapVars {P : VSymbol → Prop}
    (hbound : ∀ k a i ty, ∀ v ∈ (bound k a i ty).freeVars, P v) (t : Term) (k : ℕ)
    (h : ∀ u ∈ t.freeVars, ∀ k a, ∀ v ∈ (free k a u).freeVars, P v) :
    ∀ v ∈ (mapVars free bound k t).freeVars, P v := by
  induction t using inductionOn generalizing k with
  | tvar a v => exact h v (mem_singleton_self v) k a
  | tbnd a i ty => exact hbound k a i ty
  | _ =>
    simp only [freeVars, mapVars, mapVarsList_eq_map, mapVarsBranches_eq_map,
      mapVarsTriggers_eq_map, freeVarsList_eq, freeVarsBranches_eq, freeVarsTriggers_eq,
      forall_mem_append, forall_mem_flatMap, forall_mem_map, Prod.forall] at h ⊢
    grind

end MapVars

/-! ## The operations -/

@[simp] theorem freeVars_shift (n : ℕ) (t : Term) : (shift n t).freeVars = t.freeVars := by
  rw [shift, freeVars_mapVars (F := fun v => [v]) (fun _ _ _ => rfl) (fun _ _ _ _ => rfl),
    flatMap_singleton']

theorem mem_freeVars_closeVars : v ∈ (closeVars vl t).freeVars ↔ v ∈ t.freeVars ∧ v ∉ vl := by
  rw [closeVars, freeVars_mapVars (F := fun v => if v ∈ vl then [] else [v]) _
    (fun _ _ _ _ => rfl), mem_flatMap]
  · constructor
    · rintro ⟨u, hu, hv⟩
      split at hv
      · simp at hv
      · next hmem =>
          rw [mem_singleton] at hv
          exact hv ▸ ⟨hu, hmem⟩
    · rintro ⟨hv, hmem⟩
      exact ⟨v, hv, by simp [hmem]⟩
  · intro k a u
    split <;> rfl

/-- The variables of the terms take the place of those that are replaced. -/
theorem mem_freeVars_tSubst {s : VSymbol → Option Term} :
    v ∈ (tSubst s t).freeVars ↔
      (∃ u ∈ t.freeVars, ∃ r, s u = some r ∧ v ∈ r.freeVars) ∨ v ∈ t.freeVars ∧ s v = none := by
  rw [tSubst, freeVars_mapVars (F := fun u => (s u).elim [u] freeVars) _
    (fun _ _ _ _ => rfl), mem_flatMap]
  · constructor
    · rintro ⟨u, hu, hv⟩
      cases hs : s u with
      | none =>
        rw [hs, Option.elim_none, mem_singleton] at hv
        exact .inr ⟨hv ▸ hu, hv ▸ hs⟩
      | some r => exact .inl ⟨u, hu, r, hs, by simpa [hs] using hv⟩
    · rintro (⟨u, hu, r, hs, hv⟩ | ⟨hv, hs⟩)
      · exact ⟨u, hu, by simpa [hs] using hv⟩
      · exact ⟨v, hv, by simp [hs]⟩
  · intro k a u
    cases hs : s u with
    | none => rfl
    | some r => simp

/-- Opening a binder may add the variables that it is opened with. -/
theorem mem_freeVars_openVars (h : v ∈ (openVars vl t).freeVars) : v ∈ t.freeVars ∨ v ∈ vl := by
  refine forall_freeVars_mapVars (P := fun v => v ∈ t.freeVars ∨ v ∈ vl) ?_ t 0 ?_ v h
  · intro k a i ty v hv
    split at hv
    · simp [freeVars] at hv
    · split at hv
      · next u hu =>
          obtain ⟨w, hw, rfl⟩ := mem_map.mp (mem_of_getElem? hu)
          rw [freeVars_attrCopy, freeVars_shift, freeVars, mem_singleton] at hv
          exact .inr (hv ▸ hw)
      · simp [freeVars] at hv
  · intro u hu k a v hv
    rw [freeVars, mem_singleton] at hv
    exact .inl (hv ▸ hu)

theorem mem_freeVars_tQuantClose {q : Quant} {f : Term} (h : v ∈ (tQuantClose q vl trl f).freeVars) :
    (∃ tl ∈ trl, ∃ t ∈ tl, v ∈ t.freeVars) ∨ v ∈ f.freeVars := by
  unfold tQuantClose at h
  split at h
  · exact .inr h
  · rw [freeVars, mem_append] at h
    rcases h with h | h
    · obtain ⟨tl', htl', t', ht', hv⟩ := mem_freeVarsTriggers.mp h
      obtain ⟨tl, htl, rfl⟩ := mem_map.mp htl'
      obtain ⟨t, ht, rfl⟩ := mem_map.mp ht'
      exact .inl ⟨tl, htl, t, ht, (mem_freeVars_closeVars.mp hv).1⟩
    · exact .inr (mem_freeVars_closeVars.mp h).1

theorem freeVars_eq_nil_of_mem (h : freeVarsList tl = []) : ∀ t ∈ tl, t.freeVars = [] := by
  induction tl with
  | nil => simp
  | cons t tl ih =>
    rw [freeVarsList, append_eq_nil_iff] at h
    rw [forall_mem_cons]
    exact ⟨h.1, ih h.2⟩

end Term

end Why3
