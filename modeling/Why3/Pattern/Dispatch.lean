import Why3.Core.Pattern
import Why3.Lib.ExceptFold

/-!
# One column of a pattern matrix

What `populate` and `dispatch` compute, as functions of single rows: the
constructors at the head of a pattern, the rows that a row gives for one
constructor, and those it gives for any other value.
-/

namespace Why3

open Lib List

namespace Pattern

variable {p : Pattern}

/-- Induction over the head of a pattern: its disjunctions and names. -/
theorem headInduction {P : Pattern → Prop} (pwild : ∀ ty, P (.pwild ty))
    (pvar : ∀ v, P (.pvar v)) (papp : ∀ fs pl ty, P (.papp fs pl ty))
    (por : ∀ p q, P p → P q → P (.por p q)) (pas : ∀ p v, P p → P (.pas p v)) : ∀ p, P p
  | .pwild ty => pwild ty
  | .pvar v => pvar v
  | .papp fs pl ty => papp fs pl ty
  | .por p q =>
    por p q (headInduction pwild pvar papp por pas p) (headInduction pwild pvar papp por pas q)
  | .pas p v => pas p v (headInduction pwild pvar papp por pas p)

def heads : Pattern → List (LSymbol × List Pattern)
  | pwild _ => []
  | pvar _ => []
  | papp fs pl _ => [(fs, pl)]
  | por p q => heads p ++ heads q
  | pas p _ => heads p

/-- A wildcard for each pattern of a list, in reverse. -/
def wildsFor (ql : List Pattern) : List Pattern := (ql.map fun q => pwild q.patTy).reverse

section Rows

variable {α : Type} (mkLet : VSymbol → Term → α → α) (t : Term)

/-- The rows for the arguments of `cs`, the argument patterns of which were first
found to be `ql`. -/
def specialise (cs : LSymbol) (ql : List Pattern) : Pattern → List Pattern → α → List (Row α)
  | papp fs pl' _, pl, a => if fs = cs then [(pl'.reverse ++ pl, a)] else []
  | por p q, pl, a => specialise cs ql p pl a ++ specialise cs ql q pl a
  | pas p x, pl, a => specialise cs ql p pl (mkLet x t a)
  | pvar x, pl, a => [(wildsFor ql ++ pl, mkLet x t a)]
  | pwild _, pl, a => [(wildsFor ql ++ pl, a)]

/-- The rows for values that no constructor at the head of a row builds. -/
def defaults : Pattern → List Pattern → α → List (Row α)
  | papp _ _ _, _, _ => []
  | por p q, pl, a => defaults p pl a ++ defaults q pl a
  | pas p x, pl, a => defaults p pl (mkLet x t a)
  | pvar x, pl, a => [(pl, mkLet x t a)]
  | pwild _, pl, a => [(pl, a)]

def onRow (f : Pattern → List Pattern → α → List (Row α)) : Row α → List (Row α)
  | ([], _) => []
  | (p :: pl, a) => f p pl a

/-- What a pattern is at its head, one alternative after the other: a constructor with its
arguments, or anything. Each alternative has the action under its variables. -/
def alts : Pattern → α → List (Option (LSymbol × List Pattern) × α)
  | papp fs pl _, a => [(some (fs, pl), a)]
  | por p q, a => alts p a ++ alts q a
  | pas p x, a => alts p (mkLet x t a)
  | pvar x, a => [(none, mkLet x t a)]
  | pwild _, a => [(none, a)]

def specialiseAlt (cs : LSymbol) (ql pl : List Pattern) :
    Option (LSymbol × List Pattern) × α → List (Row α)
  | (some (fs, pl'), a) => if fs = cs then [(pl'.reverse ++ pl, a)] else []
  | (none, a) => [(wildsFor ql ++ pl, a)]

def defaultsAlt (pl : List Pattern) : Option (LSymbol × List Pattern) × α → List (Row α)
  | (some _, _) => []
  | (none, a) => [(pl, a)]

theorem specialise_eq_alts (cs : LSymbol) (ql pl : List Pattern) (p : Pattern) (a : α) :
    specialise mkLet t cs ql p pl a = (alts mkLet t p a).flatMap (specialiseAlt cs ql pl) := by
  induction p using headInduction generalizing a with
  | por p q ihp ihq => rw [specialise, alts, ihp, ihq, flatMap_append]
  | pas p x ih => exact ih _
  | _ => simp [specialise, alts, specialiseAlt]

theorem defaults_eq_alts (pl : List Pattern) (p : Pattern) (a : α) :
    defaults mkLet t p pl a = (alts mkLet t p a).flatMap (defaultsAlt pl) := by
  induction p using headInduction generalizing a with
  | por p q ihp ihq => rw [defaults, alts, ihp, ihq, flatMap_append]
  | pas p x ih => exact ih _
  | _ => simp [defaults, alts, defaultsAlt]

variable {mkLet t} in
theorem mem_heads_of_mem_alts {c : LSymbol × List Pattern} {a a' : α}
    (h : (some c, a') ∈ alts mkLet t p a) : c ∈ heads p := by
  induction p using headInduction generalizing a with
  | por p q ihp ihq => exact mem_append.mpr ((mem_append.mp h).imp ihp ihq)
  | pas p x ih => exact ih h
  | _ => simp_all [alts, heads]

variable {mkLet t} in
theorem alts_action {P : α → Prop} (hlet : ∀ x t a, P a → P (mkLet x t a)) {a : α} (ha : P a) :
    ∀ b ∈ alts mkLet t p a, P b.2 := by
  induction p using headInduction generalizing a with
  | por p q ihp ihq => exact forall_mem_append.mpr ⟨ihp ha, ihq ha⟩
  | pas p x ih => exact ih (hlet x t a ha)
  | _ => simp_all [alts]

/-! ## Dispatching -/

theorem foldl_wild (ql pl : List Pattern) :
    ql.foldl (fun pl q => pwild q.patTy :: pl) pl = wildsFor ql ++ pl := by
  induction ql generalizing pl with
  | nil => rfl
  | cons q ql ih =>
    rw [foldl_cons, ih]
    simp [wildsFor]

theorem find?_addCase (fs cs : LSymbol) (pl : List Pattern) (a : α) (cases : Cases α) :
    ((addCase fs pl a cases).find? cs).getD [] =
      if fs = cs then (pl, a) :: (cases.find? cs).getD [] else (cases.find? cs).getD [] := by
  unfold addCase
  rw [TagMap.find?_add]
  by_cases h : fs = cs
  · subst h
    cases cases.find? fs <;> simp
  · have h' : ¬ cs = fs := fun heq => h heq.symm
    simp [h, h']

variable (types : TagMap LSymbol (List Pattern))

theorem find?_unionCases {cs : LSymbol} {ql : List Pattern} (hcs : types.find? cs = some ql)
    (pl : List Pattern) (a : α) (cases : Cases α) :
    ((unionCases types pl a cases).find? cs).getD [] =
      (wildsFor ql ++ pl, a) :: (cases.find? cs).getD [] := by
  unfold unionCases
  rw [TagMap.find?_unionWith, TagMap.find?_map, hcs]
  simp only [foldl_wild, Option.map_some]
  cases cases.find? cs <;> rfl

theorem dispatch_spec (p : Pattern) : ∀ (pl : List Pattern) (a : α) (acc : Cases α × List (Row α)),
    (dispatch mkLet t types p pl a acc).2 = defaults mkLet t p pl a ++ acc.2 ∧
      ∀ cs ql, types.find? cs = some ql →
        ((dispatch mkLet t types p pl a acc).1.find? cs).getD [] =
          specialise mkLet t cs ql p pl a ++ (acc.1.find? cs).getD [] := by
  induction p using headInduction with
  | pwild ty =>
    rintro pl a ⟨cases, wilds⟩
    exact ⟨rfl, fun cs ql hcs => find?_unionCases types hcs pl a cases⟩
  | pvar x =>
    rintro pl a ⟨cases, wilds⟩
    exact ⟨rfl, fun cs ql hcs => find?_unionCases types hcs pl (mkLet x t a) cases⟩
  | papp fs pl' ty =>
    rintro pl a ⟨cases, wilds⟩
    refine ⟨rfl, fun cs ql _ => ?_⟩
    simp only [dispatch, specialise, find?_addCase]
    split <;> rfl
  | por p q ihp ihq =>
    intro pl a acc
    obtain ⟨hq₂, hq₁⟩ := ihq pl a acc
    obtain ⟨hp₂, hp₁⟩ := ihp pl a (dispatch mkLet t types q pl a acc)
    refine ⟨?_, fun cs ql hcs => ?_⟩
    · simp only [dispatch, defaults, hp₂, hq₂, append_assoc]
    · simp only [dispatch, specialise, hp₁ cs ql hcs, hq₁ cs ql hcs, append_assoc]
  | pas p x ih =>
    intro pl a acc
    exact ih pl (mkLet x t a) acc

theorem foldrM_cons_eq_ok {ε β σ : Type} {f : β → σ → Except ε σ} {b : β} {l : List β} {s s' : σ} :
    (b :: l).foldrM f s = .ok s' ↔ ∃ s₁, l.foldrM f s = .ok s₁ ∧ f b s₁ = .ok s' := by
  rw [foldrM_cons, bind_eq_ok]

theorem dispatchRows_spec {rl : List (Row α)} {cases : Cases α} {wilds : List (Row α)}
    (h : dispatchRows mkLet t types rl = .ok (cases, wilds)) :
    wilds = rl.flatMap (onRow (defaults mkLet t)) ∧
      ∀ cs ql, types.find? cs = some ql →
        (cases.find? cs).getD [] = rl.flatMap (onRow (specialise mkLet t cs ql)) := by
  unfold dispatchRows at h
  induction rl generalizing cases wilds with
  | nil =>
    simp only [foldrM_nil, pure, Except.pure, Except.ok.injEq, Prod.mk.injEq] at h
    obtain ⟨rfl, rfl⟩ := h
    simp
  | cons row rl ih =>
    obtain ⟨⟨cases₁, wilds₁⟩, h₁, h₂⟩ := foldrM_cons_eq_ok.mp h
    obtain ⟨hw, hc⟩ := ih h₁
    obtain ⟨pl, a⟩ := row
    cases pl with
    | nil => simp at h₂
    | cons p pl =>
      simp only [Except.ok.injEq] at h₂
      obtain ⟨hd, hs⟩ := dispatch_spec mkLet t types p pl a (cases₁, wilds₁)
      rw [h₂] at hd hs
      refine ⟨?_, fun cs ql hcs => ?_⟩
      · change wilds = defaults mkLet t p pl a ++ rl.flatMap (onRow (defaults mkLet t))
        rw [← hw]
        exact hd
      · change _ = specialise mkLet t cs ql p pl a ++ rl.flatMap (onRow (specialise mkLet t cs ql))
        rw [← hc cs ql hcs]
        exact hs cs ql hcs

theorem dispatchRows_total {rl : List (Row α)} (h : ∀ row ∈ rl, row.1 ≠ []) :
    ∃ r, dispatchRows mkLet t types rl = .ok r := by
  unfold dispatchRows
  induction rl with
  | nil => exact ⟨_, rfl⟩
  | cons row rl ih =>
    rw [forall_mem_cons] at h
    obtain ⟨s, hs⟩ := ih h.2
    obtain ⟨pl, a⟩ := row
    cases pl with
    | nil => exact absurd rfl h.1
    | cons p pl => exact ⟨_, foldrM_cons_eq_ok.mpr ⟨s, hs, rfl⟩⟩

end Rows

/-! ## The constructors of a column -/

/-- The list of constructors lists the bindings of the map, each once. -/
structure Populated (acc : TagMap LSymbol (List Pattern) × List (LSymbol × List Pattern)) :
    Prop where
  nodup : (acc.2.map Prod.fst).Nodup
  mem_iff : ∀ cs ql, (cs, ql) ∈ acc.2 ↔ acc.1.find? cs = some ql

theorem Populated.empty : Populated (.empty, []) := ⟨by simp, by simp⟩

section Populate

variable {isC : LSymbol → Bool} {ty : Ty}

/-- The constructors of a pattern are added; one that is there stays as it is. -/
theorem populate_spec (p : Pattern)
    {acc acc' : TagMap LSymbol (List Pattern) × List (LSymbol × List Pattern)}
    (hacc : Populated acc) (h : populate isC ty acc p = .ok acc') :
    Populated acc' ∧ (∀ cs ql, acc.1.find? cs = some ql → acc'.1.find? cs = some ql) ∧
      (∀ cs ql, acc'.1.find? cs = some ql → acc.1.find? cs = some ql ∨ (cs, ql) ∈ heads p) ∧
      ∀ c ∈ heads p, isC c.1 = true ∧ acc'.1.mem c.1 = true := by
  induction p using headInduction generalizing acc acc' with
  | pwild _ | pvar _ =>
    cases h
    exact ⟨hacc, fun _ _ h => h, fun _ _ h => .inl h, by simp [heads]⟩
  | papp fs pl ty' =>
    obtain ⟨css, csl⟩ := acc
    unfold populate at h
    split at h
    · next hC =>
        split at h
        · next hmem =>
            simp only [Except.ok.injEq] at h
            subst h
            exact ⟨hacc, fun _ _ h => h, fun _ _ h => .inl h, by simp [heads, hC, hmem]⟩
        · next hmem =>
            simp only [Except.ok.injEq] at h
            subst h
            have hnone : css.find? fs = none := by
              rw [TagMap.mem] at hmem
              simpa using hmem
            have hnot : ∀ ql, (fs, ql) ∉ csl := by
              intro ql hql
              have hsome := (hacc.mem_iff fs ql).mp hql
              rw [hnone] at hsome
              cases hsome
            refine ⟨⟨?_, ?_⟩, ?_, ?_, ?_⟩
            · rw [map_cons, nodup_cons]
              refine ⟨?_, hacc.nodup⟩
              intro hin
              obtain ⟨⟨cs, ql⟩, hql, rfl⟩ := mem_map.mp hin
              exact hnot ql hql
            · intro cs ql
              rw [TagMap.find?_add, mem_cons, Prod.mk.injEq]
              by_cases hcs : cs = fs
              · subst hcs
                simp [hnot ql, eq_comm]
              · simp only [hcs, false_and, false_or, if_false]
                exact hacc.mem_iff cs ql
            · intro cs ql hcs
              rw [TagMap.find?_add_of_ne]
              · exact hcs
              · rintro rfl
                rw [hnone] at hcs
                cases hcs
            · intro cs ql hcs
              rw [TagMap.find?_add] at hcs
              split at hcs
              · next heq =>
                  simp only [Option.some.injEq] at hcs
                  exact .inr (by simp [heads, heq, hcs])
              · exact .inl hcs
            · simp [heads, hC, TagMap.mem]
    · simp at h
  | por p q ihp ihq =>
    obtain ⟨acc₁, h₁, h₂⟩ := bind_eq_ok.mp h
    obtain ⟨hacc₁, hkeep₁, hnew₁, hheads₁⟩ := ihp hacc h₁
    obtain ⟨hacc₂, hkeep₂, hnew₂, hheads₂⟩ := ihq hacc₁ h₂
    refine ⟨hacc₂, fun cs ql hcs => hkeep₂ cs ql (hkeep₁ cs ql hcs), ?_, ?_⟩
    · intro cs ql hcs
      simp only [heads, mem_append]
      rcases hnew₂ cs ql hcs with h | h
      · rcases hnew₁ cs ql h with h | h
        · exact .inl h
        · exact .inr (.inl h)
      · exact .inr (.inr h)
    · intro c hc
      simp only [heads, mem_append] at hc
      rcases hc with hc | hc
      · obtain ⟨hC, hmem⟩ := hheads₁ c hc
        obtain ⟨ql, hql⟩ := (TagMap.mem_eq_true_iff _ _).mp hmem
        exact ⟨hC, (TagMap.mem_eq_true_iff _ _).mpr ⟨ql, hkeep₂ _ ql hql⟩⟩
      · exact hheads₂ c hc
  | pas p x ih =>
    exact ih hacc h

def HeadOf {α : Type} (p : Pattern) (rl : List (Row α)) : Prop := ∃ row ∈ rl, ∃ pl, row.1 = p :: pl

theorem foldlM_populate_spec {α : Type} {rl : List (Row α)}
    {f : TagMap LSymbol (List Pattern) × List (LSymbol × List Pattern) → Row α →
      Except Exn (TagMap LSymbol (List Pattern) × List (LSymbol × List Pattern))}
    (hnil : ∀ acc a, f acc ([], a) = .error .assertFailure)
    (hcons : ∀ acc p pl a, f acc (p :: pl, a) = populate isC ty acc p)
    {acc acc' : TagMap LSymbol (List Pattern) × List (LSymbol × List Pattern)}
    (hacc : Populated acc) (h : rl.foldlM f acc = .ok acc') :
    Populated acc' ∧
      (∀ cs ql, acc.1.find? cs = some ql → acc'.1.find? cs = some ql) ∧
      (∀ cs ql, acc'.1.find? cs = some ql →
        acc.1.find? cs = some ql ∨ ∃ p, HeadOf p rl ∧ (cs, ql) ∈ heads p) ∧
      ∀ p, HeadOf p rl → ∀ c ∈ heads p, isC c.1 = true ∧ acc'.1.mem c.1 = true := by
  induction rl generalizing acc with
  | nil =>
    rw [foldlM_nil_eq_ok] at h
    subst h
    refine ⟨hacc, fun _ _ h => h, fun _ _ h => .inl h, ?_⟩
    rintro p ⟨row, hrow, _⟩
    simp at hrow
  | cons row rl ih =>
    obtain ⟨acc₁, h₁, h₂⟩ := foldlM_cons_eq_ok.mp h
    obtain ⟨pl, a⟩ := row
    cases pl with
    | nil => simp [hnil] at h₁
    | cons q pl =>
      obtain ⟨hacc₁, hkeep₁, hnew₁, hheads₁⟩ := populate_spec q hacc (hcons _ _ _ _ ▸ h₁)
      obtain ⟨hacc₂, hkeep₂, hnew₂, hheads₂⟩ := ih hacc₁ h₂
      refine ⟨hacc₂, fun cs ql hcs => hkeep₂ cs ql (hkeep₁ cs ql hcs), ?_, ?_⟩
      · intro cs ql hcs
        rcases hnew₂ cs ql hcs with h | ⟨p, ⟨row, hrow, hp⟩, hmem⟩
        · rcases hnew₁ cs ql h with h | h
          · exact .inl h
          · exact .inr ⟨q, ⟨_, mem_cons_self, pl, rfl⟩, h⟩
        · exact .inr ⟨p, ⟨row, mem_cons_of_mem _ hrow, hp⟩, hmem⟩
      · rintro p ⟨row, hrow, pl', hp⟩ c hc
        rcases mem_cons.mp hrow with rfl | hrow
        · simp only [cons.injEq] at hp
          obtain ⟨rfl, _⟩ := hp
          obtain ⟨hC, hmem⟩ := hheads₁ c hc
          obtain ⟨ql, hql⟩ := (TagMap.mem_eq_true_iff _ _).mp hmem
          exact ⟨hC, (TagMap.mem_eq_true_iff _ _).mpr ⟨ql, hkeep₂ _ ql hql⟩⟩
        · exact hheads₂ p ⟨row, hrow, pl', hp⟩ c hc

/-- The constructors that `populateRows` finds are those at the head of the rows. -/
theorem populateRows_spec {α : Type} {rl : List (Row α)}
    {types : TagMap LSymbol (List Pattern)} {cslist : List (LSymbol × List Pattern)}
    (h : populateRows isC ty rl = .ok (types, cslist)) :
    Populated (types, cslist) ∧
      (∀ cs ql, types.find? cs = some ql → ∃ p, HeadOf p rl ∧ (cs, ql) ∈ heads p) ∧
      ∀ p, HeadOf p rl → ∀ c ∈ heads p, isC c.1 = true ∧ types.mem c.1 = true := by
  obtain ⟨hpop, _, hnew, hheads⟩ :=
    foldlM_populate_spec (fun _ _ => rfl) (fun _ _ _ _ => rfl) Populated.empty h
  refine ⟨hpop, fun cs ql hcs => ?_, hheads⟩
  rcases hnew cs ql hcs with h | h
  · simp at h
  · exact h

end Populate

end Pattern

end Why3
