import Why3.Pattern.Dispatch
import Why3.Logic.Match

/-!
# The meaning of a pattern matrix

The value of a matrix on a list of values is the value of the action of the first
row that matches, with the variables of the row bound. Splitting off the first
column keeps it: on a value built by a constructor the matrix is worth its
specialisation to that constructor, and on a value that no constructor at the head
of a row builds it is worth its default rows.
-/

namespace Why3

open Lib Interp List

namespace Pattern

variable {α D R : Type} {I : Interp D} {τ : TyVal} {S : DataSig}
variable {cs : LSymbol} {ds dtl : List D} {pl ql : List Pattern} {tl : List Ty} {p : Pattern}
variable {ts : TySymbol} {a : α}
variable {β δ : Type} {pl' : List Pattern} {vl vl' : List VSymbol} {x : VSymbol}

noncomputable def evalRow (I : Interp D) (τ : TyVal) (ev : α → (VSymbol → D) → R)
    (ρ : VSymbol → D) (ds : List D) (row : Row α) : Option R :=
  (I.matchPatList τ row.1 ds).map fun β => ev row.2 (assign ρ β)

noncomputable def evalRows (I : Interp D) (τ : TyVal) (ev : α → (VSymbol → D) → R)
    (ρ : VSymbol → D) (ds : List D) (rl : List (Row α)) : Option R :=
  rl.findSome? (evalRow I τ ev ρ ds)

theorem findSome?_flatMap {γ : Type} (f : β → List γ) (g : γ → Option δ) (l : List β) :
    (l.flatMap f).findSome? g = l.findSome? fun b => (f b).findSome? g := by
  induction l with
  | nil => rfl
  | cons b l ih =>
    rw [flatMap_cons, findSome?_append, findSome?_cons, ih]
    cases (f b).findSome? g <;> rfl

theorem findSome?_congr {f g : β → Option δ} {l : List β} (h : ∀ b ∈ l, f b = g b) :
    l.findSome? f = l.findSome? g := by
  induction l with
  | nil => rfl
  | cons b l ih =>
    rw [forall_mem_cons] at h
    rw [findSome?_cons, findSome?_cons, h.1, ih h.2]

/-! ## Lists of patterns -/

def joinMatch (m m' : Option (List (VSymbol × D))) : Option (List (VSymbol × D)) :=
  match m, m' with
  | some β, some β' => some (β ++ β')
  | _, _ => none

theorem matchPatList_append {ds' : List D} (hl : pl.length = ds.length) :
    I.matchPatList τ (pl ++ pl') (ds ++ ds') =
      joinMatch (I.matchPatList τ pl ds) (I.matchPatList τ pl' ds') := by
  induction pl generalizing ds with
  | nil =>
    rw [length_nil, eq_comm, length_eq_zero_iff] at hl
    subst hl
    cases h : I.matchPatList τ pl' ds' <;> simp [matchPatList, joinMatch, h]
  | cons p pl ih =>
    cases ds with
    | nil => simp at hl
    | cons d ds =>
      rw [cons_append, cons_append, matchPatList_cons, matchPatList_cons, ih (by simpa using hl)]
      cases I.matchPat τ p d with
      | none => rfl
      | some β =>
        cases I.matchPatList τ pl ds with
        | none => rfl
        | some β₁ =>
          cases I.matchPatList τ pl' ds' with
          | none => rfl
          | some β₂ => simp [joinMatch]

theorem matchPatList_reverse (pl : List Pattern) (ds : List D) :
    Option.Rel Perm (I.matchPatList τ pl.reverse ds.reverse) (I.matchPatList τ pl ds) := by
  by_cases hl : pl.length = ds.length
  · induction pl generalizing ds with
    | nil =>
      rw [length_nil, eq_comm, length_eq_zero_iff] at hl
      subst hl
      exact .some (.refl _)
    | cons p pl ih =>
      cases ds with
      | nil => simp at hl
      | cons d ds =>
        have hl' : pl.length = ds.length := by simpa using hl
        have hrev := ih ds hl'
        rw [reverse_cons, reverse_cons, matchPatList_append (by simpa using hl'),
          matchPatList_cons, matchPatList_cons]
        generalize I.matchPatList τ pl.reverse ds.reverse = m at hrev ⊢
        generalize I.matchPatList τ pl ds = m' at hrev ⊢
        cases I.matchPat τ p d with
        | none => cases m <;> exact .none
        | some β =>
          cases hrev with
          | none => exact .none
          | some hperm =>
            refine .some ?_
            simp only [append_nil]
            exact perm_append_comm.trans (hperm.append_left β)
  · have hnone : ∀ {pl : List Pattern} {ds : List D}, pl.length ≠ ds.length →
        I.matchPatList τ pl ds = none := by
      intro pl ds hne
      cases hm : I.matchPatList τ pl ds with
      | none => rfl
      | some β => exact absurd (matchPatList_length hm) hne
    rw [hnone hl, hnone (by simpa using hl)]
    exact .none

theorem matchPatList_wildsFor (hl : ql.length = ds.length) :
    I.matchPatList τ (wildsFor ql) ds.reverse = some [] := by
  have hwild : ∀ (ql : List Pattern) (ds : List D), ql.length = ds.length →
      I.matchPatList τ (ql.map fun q => pwild q.patTy) ds = some [] := by
    intro ql
    induction ql with
    | nil =>
      intro ds hl
      rw [length_nil, eq_comm, length_eq_zero_iff] at hl
      subst hl
      rfl
    | cons q ql ih =>
      intro ds hl
      cases ds with
      | nil => simp at hl
      | cons d ds =>
        rw [map_cons, matchPatList_cons, ih ds (by simpa using hl)]
        rfl
  have hrev := matchPatList_reverse (I := I) (τ := τ) (ql.map fun q => pwild q.patTy) ds
  rw [hwild ql ds hl] at hrev
  unfold wildsFor
  cases hm : I.matchPatList τ (ql.map fun q => pwild q.patTy).reverse ds.reverse with
  | none =>
    rw [hm] at hrev
    cases hrev
  | some β =>
    rw [hm] at hrev
    cases hrev with
    | some hperm => rw [perm_nil.mp hperm]

/-- Matches that bind the same variables, each once, give an action the same
value. -/
theorem map_assign_congr {ev : α → (VSymbol → D) → R} {ρ : VSymbol → D}
    {m m' : Option (List (VSymbol × D))} (h : Option.Rel Perm m m')
    (hm : ∀ β, m = some β → (β.map Prod.fst).Nodup) :
    (m.map fun β => ev a (assign ρ β)) = m'.map fun β => ev a (assign ρ β) := by
  cases h with
  | none => rfl
  | some hperm => rw [Option.map_some, Option.map_some, assign_perm hperm (hm _ rfl)]

/-! ## The first column -/

section Column

variable {mkLet : VSymbol → Term → α → α} {t : Term} {ev : α → (VSymbol → D) → R}
  {ρ : VSymbol → D} {d : D}

/-- `mkLet` binds a variable of the row to the value of the first column. -/
def LetsRow (mkLet : VSymbol → Term → α → α) (t : Term) (ev : α → (VSymbol → D) → R)
    (ρ : VSymbol → D) (d : D) (vl : List VSymbol) : Prop :=
  ∀ x ∈ vl, ∀ a β, (∀ v ∈ β.map Prod.fst, v ∈ vl) →
    ev (mkLet x t a) (assign ρ β) = ev a (assign (assign ρ β) [(x, d)])

theorem evalRow_pwild (ty : Ty) (pl : List Pattern) (a : α) (ds : List D) :
    evalRow I τ ev ρ (d :: ds) (pwild ty :: pl, a) = evalRow I τ ev ρ ds (pl, a) := by
  unfold evalRow
  simp only [matchPatList_cons, matchPat]
  cases I.matchPatList τ pl ds <;> rfl

theorem evalRow_por (p q : Pattern) (pl : List Pattern) (a : α) (ds : List D) :
    evalRow I τ ev ρ (d :: ds) (por p q :: pl, a) =
      (evalRow I τ ev ρ (d :: ds) (p :: pl, a)).or (evalRow I τ ev ρ (d :: ds) (q :: pl, a)) := by
  unfold evalRow
  simp only [matchPatList_cons, matchPat]
  cases I.matchPat τ p d with
  | none => simp
  | some β =>
    cases I.matchPatList τ pl ds with
    | none => cases I.matchPat τ q d <;> rfl
    | some β' => rfl

theorem evalRow_pvar (hpl : ∀ p ∈ pl, PatTyped S p)
    (hlet : LetsRow mkLet t ev ρ d (x :: varsList pl)) :
    evalRow I τ ev ρ (d :: ds) (pvar x :: pl, a) = evalRow I τ ev ρ ds (pl, mkLet x t a) := by
  unfold evalRow
  simp only [matchPatList_cons, matchPat]
  cases hm : I.matchPatList τ pl ds with
  | none => rfl
  | some β =>
    have hkeys := matchPatList_keys hpl hm
    simp only [Option.map_some]
    rw [hlet x mem_cons_self a β fun v hv => mem_cons_of_mem x (hkeys.mem_iff.mp hv),
      ← assign_append]

theorem evalRow_pas (hp : PatTyped S p) (hpl : ∀ p ∈ pl, PatTyped S p)
    (hnodup : ((pas p x).vars ++ varsList pl).Nodup)
    (hlet : LetsRow mkLet t ev ρ d ((pas p x).vars ++ varsList pl)) :
    evalRow I τ ev ρ (d :: ds) (pas p x :: pl, a) =
      evalRow I τ ev ρ (d :: ds) (p :: pl, mkLet x t a) := by
  unfold evalRow
  simp only [matchPatList_cons, matchPat]
  cases hm : I.matchPat τ p d with
  | none => rfl
  | some β =>
    cases hm' : I.matchPatList τ pl ds with
    | none => rfl
    | some β' =>
      have hkeys := matchPat_keys hp hm
      have hkeys' := matchPatList_keys hpl hm'
      have hperm : (((β ++ [(x, d)]) ++ β').map Prod.fst).Perm
          ((pas p x).vars ++ varsList pl) := by
        rw [map_append, map_append]
        exact (hkeys.append (.refl [x])).append hkeys'
      have hmid : ((β ++ [(x, d)]) ++ β').Perm ([(x, d)] ++ (β ++ β')) := by
        rw [append_assoc]
        exact perm_middle
      have hsub : ∀ v ∈ (β ++ β').map Prod.fst, v ∈ (pas p x).vars ++ varsList pl := by
        intro v hv
        rw [map_append, mem_append, hkeys.mem_iff, hkeys'.mem_iff] at hv
        simp only [vars, mem_append]
        tauto
      simp only [Option.map_some]
      rw [hlet x (by simp [vars]) a (β ++ β') hsub, ← assign_append,
        assign_perm hmid ((hperm.nodup_iff).mpr hnodup)]

variable {ts : TySymbol} {tl : List Ty} {cs : LSymbol} {ds : List D}

theorem LetsRow.mono (h : LetsRow mkLet t ev ρ d vl) (hsub : ∀ v ∈ vl', v ∈ vl) :
    LetsRow mkLet t ev ρ d vl' :=
  fun x hx a β hβ => h x (hsub x hx) a β fun v hv => hsub v (hβ v hv)

/-- The variables of the right-hand side of a disjunction, next to those of the
rest of the row. -/
theorem nodup_por {q : Pattern} (hq : PatTyped S q) (hvars : ∀ v, v ∈ p.vars ↔ v ∈ q.vars)
    (hnodup : (p.vars ++ varsList pl).Nodup) : (q.vars ++ varsList pl).Nodup := by
  rw [nodup_append] at hnodup ⊢
  exact ⟨hq.nodup, hnodup.2.1, fun v hv => hnodup.2.2 v ((hvars v).mpr hv)⟩

theorem varsList_reverse_append (pl pl' : List Pattern) :
    (varsList (pl.reverse ++ pl')).Perm (varsList pl ++ varsList pl') := by
  rw [varsList_eq_flatMap, varsList_eq_flatMap, varsList_eq_flatMap, flatMap_append]
  exact ((reverse_perm pl).flatMap_right vars).append_right _

structure AltTyped (S : DataSig) (mkLet : VSymbol → Term → α → α) (t : Term) (vl : List VSymbol)
    (ty : Ty) (a : α) (b : Option (LSymbol × List Pattern) × α) : Prop where
  typed : ∀ fs pl, b.1 = some (fs, pl) → PatTyped S (papp fs pl ty) ∧ ∀ v ∈ varsList pl, v ∈ vl
  action : ∀ P : α → Prop, (∀ x ∈ vl, ∀ a, P a → P (mkLet x t a)) → P a → P b.2

theorem AltTyped.mono {ty : Ty} {b : Option (LSymbol × List Pattern) × α}
    (h : AltTyped S mkLet t vl ty a b) (hsub : ∀ v ∈ vl, v ∈ vl') :
    AltTyped S mkLet t vl' ty a b where
  typed fs pl hb := (h.typed fs pl hb).imp_right fun hpl v hv => hsub v (hpl v hv)
  action P hP := h.action P fun x hx => hP x (hsub x hx)

theorem alts_typed (hp : PatTyped S p) (a : α) :
    ∀ b ∈ alts mkLet t p a, AltTyped S mkLet t p.vars p.patTy a b := by
  induction p using headInduction generalizing a with
  | pwild _ =>
    rw [alts, forall_mem_singleton]
    exact ⟨by simp, fun P _ ha => ha⟩
  | pvar x =>
    rw [alts, forall_mem_singleton]
    exact ⟨by simp, fun P hP ha => hP x (mem_singleton_self x) a ha⟩
  | papp fs pl ty =>
    rw [alts, forall_mem_singleton]
    refine ⟨fun fs' pl' hb => ?_, fun P _ ha => ha⟩
    cases hb
    exact ⟨hp, fun v hv => hv⟩
  | por p q ihp ihq =>
    cases hp with
    | por hp hq hpq hvars =>
      refine forall_mem_append.mpr ⟨ihp hp a, fun b hb => ?_⟩
      change AltTyped S mkLet t p.vars p.patTy a b
      rw [hpq]
      exact (ihq hq a b hb).mono fun v => (hvars v).mpr
  | pas p x ih =>
    cases hp with
    | pas hp hpx hx =>
      intro b hb
      change AltTyped S mkLet t (p.vars ++ [x]) x.vsTy a b
      rw [← hpx]
      have h := (ih hp _ b hb).mono fun v => mem_append_left [x]
      exact ⟨h.typed, fun P hP ha => h.action P hP (hP x (by simp) a ha)⟩

def altPattern (ty : Ty) : Option (LSymbol × List Pattern) → Pattern
  | some (fs, pl) => papp fs pl ty
  | none => pwild ty

variable (hpl : ∀ p ∈ pl, PatTyped S p) (hp : PatTyped S p) (hnodup : (p.vars ++ varsList pl).Nodup)
variable (hlet : LetsRow mkLet t ev ρ d (p.vars ++ varsList pl))
include hpl hp hnodup hlet

theorem evalRow_alts (a : α) :
    evalRow I τ ev ρ (d :: dtl) (p :: pl, a) = (alts mkLet t p a).findSome? fun b =>
      evalRow I τ ev ρ (d :: dtl) (altPattern p.patTy b.1 :: pl, b.2) := by
  induction p using headInduction generalizing a with
  | pwild _ | papp _ _ _ => exact findSome?_singleton.symm
  | pvar x =>
    rw [evalRow_pvar hpl hlet, alts, findSome?_singleton]
    exact (evalRow_pwild _ pl _ dtl).symm
  | por p q ihp ihq =>
    cases hp with
    | por hp hq hpq hvars =>
      have hsub : ∀ v ∈ q.vars ++ varsList pl, v ∈ p.vars ++ varsList pl := by
        intro v hv
        rw [mem_append] at hv ⊢
        exact hv.imp_left (hvars v).mpr
      rw [evalRow_por, ihp hp hnodup hlet, ihq hq (nodup_por hq hvars hnodup) (hlet.mono hsub),
        alts, findSome?_append, ← hpq]
      rfl
  | pas p x ih =>
    cases hp with
    | pas hp hpx hx =>
      have hsub : ∀ v ∈ p.vars ++ varsList pl, v ∈ (pas p x).vars ++ varsList pl := by
        intro v hv
        simp only [vars, mem_append] at hv ⊢
        tauto
      have hnodup' : (p.vars ++ varsList pl).Nodup :=
        hnodup.sublist (Sublist.append (sublist_append_left _ _) (.refl _))
      rw [evalRow_pas hp hpl hnodup hlet, ih hp hnodup' (hlet.mono hsub), hpx]
      rfl

/-- On a value built by `cs`, a row is worth the rows it gives for `cs`. -/
theorem evalRows_specialise (hI : I.Free S) (hl : tl.length = ts.tsArgs.length)
    (hcs : cs ∈ S.constrs ts) (hds : I.Typed (paramMap ts (tl.map (Ty.vMap τ))) cs.lsArgs ds)
    (hd : d = I.fn cs (.tyapp ts (tl.map (Ty.vMap τ))) ds) (hql : ql.length = ds.length) (a : α)
    (hty : p.patTy = .tyapp ts tl) :
    evalRows I τ ev ρ (ds.reverse ++ dtl) (specialise mkLet t cs ql p pl a) =
      evalRow I τ ev ρ (d :: dtl) (p :: pl, a) := by
  rw [specialise_eq_alts, evalRows, findSome?_flatMap, evalRow_alts hpl hp hnodup hlet]
  refine findSome?_congr fun b hb => ?_
  obtain ⟨_ | ⟨fs, pl'⟩, a'⟩ := b
  · rw [altPattern, evalRow_pwild, specialiseAlt, findSome?_singleton, evalRow, evalRow,
      matchPatList_append (by simp [wildsFor, hql]), matchPatList_wildsFor hql]
    cases I.matchPatList τ pl dtl <;> rfl
  obtain ⟨htyped, hsub⟩ := (alts_typed hp a _ hb).typed fs pl' rfl
  rw [hty] at htyped
  cases htyped with
  | papp hl' hfs hargs hvars hpl' =>
    have hnodup' : (varsList pl' ++ varsList pl).Nodup := by
      rw [nodup_append] at hnodup ⊢
      exact ⟨hvars, hnodup.2.1, fun v hv => hnodup.2.2 v (hsub v hv)⟩
    rw [specialiseAlt, hty]
    by_cases heq : fs = cs
    · subst heq
      have hlen : pl'.length = ds.length := by
        have h₁ := congrArg List.length hargs
        rw [length_map, length_map] at h₁
        rw [h₁, hds.length_eq]
      simp only [if_true, findSome?_singleton, altPattern, evalRow]
      rw [matchPatList_append (by simp [hlen]), matchPatList_cons, hd,
        matchPat_papp hl hI hfs hargs hds]
      apply map_assign_congr
      · have hrev := matchPatList_reverse (I := I) (τ := τ) pl' ds
        generalize I.matchPatList τ pl'.reverse ds.reverse = m at hrev ⊢
        generalize I.matchPatList τ pl' ds = m' at hrev ⊢
        cases hrev with
        | none => exact .none
        | some hperm =>
          cases I.matchPatList τ pl dtl with
          | none => exact .none
          | some β' => exact .some (hperm.append_right β')
      · intro β hβ
        have hmatch : I.matchPatList τ (pl'.reverse ++ pl) (ds.reverse ++ dtl) = some β := by
          rw [matchPatList_append (by simp [hlen])]
          exact hβ
        have htyped : ∀ q ∈ pl'.reverse ++ pl, PatTyped S q :=
          forall_mem_append.mpr ⟨fun q hq => hpl' q (mem_reverse.mp hq), hpl⟩
        have hperm := (matchPatList_keys htyped hmatch).trans (varsList_reverse_append pl' pl)
        exact (hperm.nodup_iff).mpr hnodup'
    · simp only [heq, if_false, findSome?_nil, altPattern, evalRow]
      rw [matchPatList_cons, hd, matchPat_papp_of_ne hl hI hfs hcs heq hargs hds]
      rfl

/-- On a value that no constructor at the head of a row builds, a row is worth its
default rows. -/
theorem evalRows_defaults (a : α)
    (hno : ∀ c ∈ heads p, I.matchPat τ (papp c.1 c.2 p.patTy) d = none) :
    evalRows I τ ev ρ dtl (defaults mkLet t p pl a) = evalRow I τ ev ρ (d :: dtl) (p :: pl, a) := by
  rw [defaults_eq_alts, evalRows, findSome?_flatMap, evalRow_alts hpl hp hnodup hlet]
  refine findSome?_congr fun b hb => ?_
  obtain ⟨_ | c, a'⟩ := b
  · exact findSome?_singleton.trans (evalRow_pwild _ pl a' dtl).symm
  · rw [evalRow, altPattern, matchPatList_cons, hno c (mem_heads_of_mem_alts hb)]
    rfl

end Column

/-! ## Well-typed rows -/

/-- The patterns of a row have the types of the columns and bind distinct
variables. -/
structure RowTyped (S : DataSig) (tyl : List Ty) (row : Row α) : Prop where
  types : row.1.map patTy = tyl
  typed : ∀ p ∈ row.1, PatTyped S p
  nodup : (varsList row.1).Nodup

/-- A row that was made from another one: it has no other variables, and its action
is the other one under bindings of variables of the first column. -/
structure RowFrom (mkLet : VSymbol → Term → α → α) (t : Term) (vl : List VSymbol) (a : α)
    (row : Row α) : Prop where
  vars : ∀ v ∈ varsList row.1, v ∈ vl
  action : ∀ P : α → Prop, (∀ x ∈ vl, ∀ a, P a → P (mkLet x t a)) → P a → P row.2

section RowTyped

variable {mkLet : VSymbol → Term → α → α} {t : Term} {tyl : List Ty}

theorem RowTyped.append {tyl₁ : List Ty} {a' : α} (htypes : pl.map patTy = tyl₁)
    (htyped : ∀ p ∈ pl, PatTyped S p) (h : RowTyped S tyl (pl', a'))
    (hnodup : (varsList (pl ++ pl')).Nodup) : RowTyped S (tyl₁ ++ tyl) (pl ++ pl', a) where
  types := by rw [map_append, htypes, h.types]
  typed := forall_mem_append.mpr ⟨htyped, h.typed⟩
  nodup := hnodup

theorem varsList_wildsFor_append (ql pl : List Pattern) :
    varsList (wildsFor ql ++ pl) = varsList pl := by
  have hnil : (wildsFor ql).flatMap vars = [] := by
    rw [flatMap_eq_nil_iff]
    intro p hp
    rw [wildsFor, mem_reverse] at hp
    obtain ⟨q, _, rfl⟩ := mem_map.mp hp
    rfl
  rw [varsList_eq_flatMap, flatMap_append, hnil, nil_append, varsList_eq_flatMap]

theorem specialise_rowTyped (hql : ql.map patTy = cs.lsArgs.map (Ty.vMap (paramMap ts tl)))
    (hp : PatTyped S p) (hty : p.patTy = .tyapp ts tl) (hrow : RowTyped S tyl (pl, a))
    (hnodup : (p.vars ++ varsList pl).Nodup) :
    ∀ row ∈ specialise mkLet t cs ql p pl a,
      RowTyped S ((cs.lsArgs.map (Ty.vMap (paramMap ts tl))).reverse ++ tyl) row ∧
        RowFrom mkLet t (p.vars ++ varsList pl) a row := by
  rw [specialise_eq_alts]
  intro row hrows
  obtain ⟨⟨_ | ⟨fs, pl'⟩, a'⟩, hb, hmem⟩ := mem_flatMap.mp hrows
  · have halt := (alts_typed hp a _ hb).mono fun v => mem_append_left (varsList pl)
    obtain rfl := mem_singleton.mp hmem
    refine ⟨RowTyped.append ?_ ?_ hrow ?_, ?_, halt.action⟩
    · rw [wildsFor, map_reverse, map_map, ← hql]
      rfl
    · intro q hq
      rw [wildsFor, mem_reverse] at hq
      obtain ⟨q', _, rfl⟩ := mem_map.mp hq
      exact .pwild _
    · rw [varsList_wildsFor_append]
      exact hrow.nodup
    · rw [varsList_wildsFor_append]
      exact fun v => mem_append_right _
  · have halt := alts_typed hp a _ hb
    obtain ⟨htyped, hsub⟩ := halt.typed fs pl' rfl
    rw [hty] at htyped
    rw [specialiseAlt] at hmem
    split at hmem
    · next heq =>
        subst heq
        obtain rfl := mem_singleton.mp hmem
        have hperm := varsList_reverse_append pl' pl
        cases htyped with
        | papp _ _ hargs hvars hpl' =>
          refine ⟨RowTyped.append ?_ ?_ hrow ((hperm.nodup_iff).mpr ?_), ?_,
            (halt.mono fun v => mem_append_left (varsList pl)).action⟩
          · rw [map_reverse, hargs]
          · exact fun q hq => hpl' q (mem_reverse.mp hq)
          · rw [nodup_append] at hnodup ⊢
            exact ⟨hvars, hnodup.2.1, fun v hv => hnodup.2.2 v (hsub v hv)⟩
          · intro v hv
            exact mem_append.mpr ((mem_append.mp (hperm.mem_iff.mp hv)).imp_left (hsub v))
    · cases hmem

theorem defaults_rowTyped (hp : PatTyped S p) (hrow : RowTyped S tyl (pl, a)) :
    ∀ row ∈ defaults mkLet t p pl a,
      RowTyped S tyl row ∧ RowFrom mkLet t (p.vars ++ varsList pl) a row := by
  rw [defaults_eq_alts]
  intro row hmem
  obtain ⟨⟨_ | c, a'⟩, hb, hmem⟩ := mem_flatMap.mp hmem
  · obtain rfl := mem_singleton.mp hmem
    exact ⟨⟨hrow.types, hrow.typed, hrow.nodup⟩, fun v => mem_append_right _,
      ((alts_typed hp a _ hb).mono fun v => mem_append_left (varsList pl)).action⟩
  · cases hmem

end RowTyped

/-! ## Matrices -/

section Matrix

variable {mkLet : VSymbol → Term → α → α} {t : Term} {ev : α → (VSymbol → D) → R}
  {ρ : VSymbol → D} {d : D} {ty : Ty} {tyl : List Ty} {rl : List (Row α)}

theorem RowTyped.cons {row : Row α} (h : RowTyped S (ty :: tyl) row) :
    ∃ p pl, row = (p :: pl, row.2) ∧ p.patTy = ty ∧ PatTyped S p ∧
      (∀ q ∈ pl, PatTyped S q) ∧ pl.map patTy = tyl ∧ (p.vars ++ varsList pl).Nodup := by
  obtain ⟨pl, a⟩ := row
  have htypes := h.types
  cases pl with
  | nil => simp at htypes
  | cons p pl =>
    simp only [map_cons, cons.injEq] at htypes
    have htyped := forall_mem_cons.mp h.typed
    exact ⟨p, pl, rfl, htypes.1, htyped.1, htyped.2, htypes.2, h.nodup⟩

theorem evalRows_specialise_matrix (hI : I.Free S) (hl : tl.length = ts.tsArgs.length)
    (hcs : cs ∈ S.constrs ts) (hds : I.Typed (paramMap ts (tl.map (Ty.vMap τ))) cs.lsArgs ds)
    (hd : d = I.fn cs (.tyapp ts (tl.map (Ty.vMap τ))) ds) (hql : ql.length = ds.length)
    (hrl : ∀ row ∈ rl, RowTyped S (.tyapp ts tl :: tyl) row)
    (hlet : ∀ row ∈ rl, LetsRow mkLet t ev ρ d (varsList row.1)) :
    evalRows I τ ev ρ (d :: dtl) rl =
      evalRows I τ ev ρ (ds.reverse ++ dtl) (rl.flatMap (onRow (specialise mkLet t cs ql))) := by
  rw [evalRows, evalRows, findSome?_flatMap]
  apply findSome?_congr
  intro row hrow
  obtain ⟨p, pl, heq, hty, hp, hpl, _, hnodup⟩ := (hrl row hrow).cons
  have hlet' := hlet row hrow
  rw [heq] at hlet' ⊢
  exact (evalRows_specialise hpl hp hnodup hlet' hI hl hcs hds hd hql row.2 hty).symm

theorem evalRows_defaults_matrix (hrl : ∀ row ∈ rl, RowTyped S (ty :: tyl) row)
    (hlet : ∀ row ∈ rl, LetsRow mkLet t ev ρ d (varsList row.1))
    (hno : ∀ p, HeadOf p rl → ∀ c ∈ heads p, I.matchPat τ (papp c.1 c.2 ty) d = none) :
    evalRows I τ ev ρ (d :: dtl) rl =
      evalRows I τ ev ρ dtl (rl.flatMap (onRow (defaults mkLet t))) := by
  rw [evalRows, evalRows, findSome?_flatMap]
  apply findSome?_congr
  intro row hrow
  obtain ⟨p, pl, heq, hty, hp, hpl, _, hnodup⟩ := (hrl row hrow).cons
  have hlet' := hlet row hrow
  rw [heq] at hlet' ⊢
  exact (evalRows_defaults hpl hp hnodup hlet' row.2 fun c hc =>
    hty ▸ hno p ⟨row, hrow, pl, by rw [heq]⟩ c hc).symm

theorem matrix_rowTyped {F : Pattern → List Pattern → α → List (Row α)} {tyl' : List Ty}
    (hrl : ∀ row ∈ rl, RowTyped S (ty :: tyl) row)
    (hF : ∀ {p pl a}, PatTyped S p → p.patTy = ty → RowTyped S tyl (pl, a) →
      (p.vars ++ varsList pl).Nodup → ∀ row' ∈ F p pl a,
        RowTyped S tyl' row' ∧ RowFrom mkLet t (p.vars ++ varsList pl) a row') :
    ∀ row' ∈ rl.flatMap (onRow F),
      RowTyped S tyl' row' ∧ ∃ row ∈ rl, RowFrom mkLet t (varsList row.1) row.2 row' := by
  intro row' hrow'
  obtain ⟨row, hrow, hmem⟩ := mem_flatMap.mp hrow'
  obtain ⟨p, pl, heq, hty, hp, hpl, htypes, hnodup⟩ := (hrl row hrow).cons
  have hvl : varsList row.1 = p.vars ++ varsList pl := by
    rw [heq]
    rfl
  rw [heq] at hmem
  obtain ⟨htyped, hfrom⟩ := hF hp hty
    ⟨htypes, hpl, hnodup.sublist (sublist_append_right _ _)⟩ hnodup row' hmem
  exact ⟨htyped, row, hrow, hvl ▸ hfrom⟩

variable (mkLet t) in
theorem specialise_matrix_rowTyped (hql : ql.map patTy = cs.lsArgs.map (Ty.vMap (paramMap ts tl)))
    (hrl : ∀ row ∈ rl, RowTyped S (.tyapp ts tl :: tyl) row) :
    ∀ row' ∈ rl.flatMap (onRow (specialise mkLet t cs ql)),
      RowTyped S ((cs.lsArgs.map (Ty.vMap (paramMap ts tl))).reverse ++ tyl) row' ∧
        ∃ row ∈ rl, RowFrom mkLet t (varsList row.1) row.2 row' :=
  matrix_rowTyped hrl (specialise_rowTyped hql)

theorem defaults_matrix_rowTyped (hrl : ∀ row ∈ rl, RowTyped S (ty :: tyl) row) :
    ∀ row' ∈ rl.flatMap (onRow (defaults mkLet t)),
      RowTyped S tyl row' ∧ ∃ row ∈ rl, RowFrom mkLet t (varsList row.1) row.2 row' :=
  matrix_rowTyped hrl fun hp _ hrest _ => defaults_rowTyped hp hrest

end Matrix

end Pattern

end Why3
