import Why3.Core.Coercion
import Mathlib.Logic.Relation

/-!
# What the coercion map contains

`addCrc` inserts a coercion and the compositions that it makes possible. The
single insertions never overwrite a coercion that is already there, so what a
successful `addCrc` does is said once, in `addCrc_spec`: the old coercions are
kept, each new one is among the four kinds of composites that the code builds,
and each of these composites is present afterwards.

The composites built on both sides of the new coercion are the ones to look at.
For a coercion `c₁` that leads to the source and a coercion `c₂` that leaves the
target, the code inserts `compose c₁ c₂`, and the new coercion itself is left
out of the middle. The map is therefore right as long as no coercion is ever
added between two existing ones, and `addCrc_chains_iff` says that this is also
the only way to have it right.
-/

namespace Why3

namespace Coercion

open Lib

variable {c c₁ : Crc} {m m' : CrcMap} {row : TagMap TySymbol Crc} {a : TySymbol}

/-! ## Single insertions -/

theorem ckEq_eq_true_iff (k k' : CoercionKind) : ckEq k k' = true ↔ k = k' := by
  induction k generalizing k' with
  | crcLeaf ls =>
    cases k' with
    | crcLeaf ls' => simp [ckEq]
    | crcComp k₁ k₂ => simp [ckEq]
  | crcComp k₁ k₂ ih₁ ih₂ =>
    cases k' with
    | crcLeaf ls' => simp [ckEq]
    | crcComp k₁' k₂' => simp [ckEq, ih₁, ih₂]

theorem mem_eq_true_iff (m : CrcMap) (a b : TySymbol) :
    mem m a b = true ↔ ∃ c, findCrc m a b = some c := by
  unfold mem findCrc
  cases h : m.find? a with
  | none => simp
  | some row => simp [TagMap.mem_eq_true_iff]

theorem find?_findDef_empty (m : CrcMap) (a b : TySymbol) :
    (m.findDef .empty a).find? b = findCrc m a b := by
  unfold TagMap.findDef findCrc
  cases h : m.find? a with
  | none => simp
  | some row => simp

theorem findCrc_put (crc : Crc) (m : CrcMap) (a b : TySymbol) :
    findCrc (put crc (m.findDef .empty crc.crcSrcTs) m) a b =
      if a = crc.crcSrcTs ∧ b = crc.crcTarTs then some crc else findCrc m a b := by
  by_cases ha : a = crc.crcSrcTs
  · subst ha
    by_cases hb : b = crc.crcTarTs
    · simp [findCrc, put, hb]
    · rw [if_neg (by simp [hb]), ← find?_findDef_empty m]
      simp [findCrc, put, TagMap.find?_add_of_ne _ _ hb]
  · rw [if_neg (by simp [ha])]
    simp [findCrc, put, TagMap.find?_add_of_ne _ _ ha]

/-- What a successful insertion does: the coercion closes no cycle, and it is
either a new binding or obtained as the one that is already bound. -/
theorem insert_eq_ok_iff (crc : Crc) (m m' : CrcMap) :
    insert crc m = .ok m' ↔
      findCrc m crc.crcTarTs crc.crcSrcTs = none ∧
        ((∃ o, findCrc m crc.crcSrcTs crc.crcTarTs = some o ∧
            o.crcKind = crc.crcKind ∧ m' = m) ∨
          (findCrc m crc.crcSrcTs crc.crcTarTs = none ∧
            m' = put crc (m.findDef .empty crc.crcSrcTs) m)) := by
  unfold insert
  simp only [find?_findDef_empty]
  cases hcyc : findCrc m crc.crcTarTs crc.crcSrcTs with
  | some c => simp
  | none =>
    cases hold : findCrc m crc.crcSrcTs crc.crcTarTs with
    | none => simp [eq_comm]
    | some o =>
      simp only [replace, ckEq_eq_true_iff, true_and, reduceCtorEq, false_and,
        or_false, Option.some.injEq]
      by_cases hk : o.crcKind = crc.crcKind
      · simp [hk, eq_comm]
      · simp [hk]

/-! ## Growing maps

`Grows P m m'` says that `m'` keeps the coercions of `m` and that each coercion
it has beyond them satisfies `P`. Every single insertion is such a step. -/

def Grows (P : TySymbol → TySymbol → Crc → Prop) (m m' : CrcMap) : Prop :=
  (∀ a b c, findCrc m a b = some c → findCrc m' a b = some c) ∧
    ∀ a b c, findCrc m' a b = some c → findCrc m a b = some c ∨ P a b c

variable {P : TySymbol → TySymbol → Crc → Prop}

theorem Grows.refl (m : CrcMap) : Grows P m m :=
  ⟨fun _ _ _ h => h, fun _ _ _ h => .inl h⟩

theorem Grows.trans (m₁ m₂ m₃ : CrcMap) (h₁ : Grows P m₁ m₂) (h₂ : Grows P m₂ m₃) :
    Grows P m₁ m₃ := by
  refine ⟨fun a b c h => h₂.1 a b c (h₁.1 a b c h), ?_⟩
  intro a b c h
  rcases h₂.2 a b c h with hm₂ | hP
  · exact h₁.2 a b c hm₂
  · exact .inr hP

theorem insert_grows {crc : Crc} (h : insert crc m = .ok m') (hP : P crc.crcSrcTs crc.crcTarTs crc) :
    Grows P m m' ∧
      ∃ o, findCrc m' crc.crcSrcTs crc.crcTarTs = some o ∧ o.crcKind = crc.crcKind := by
  obtain ⟨_, ⟨o, ho, hk, rfl⟩ | ⟨hnone, rfl⟩⟩ := (insert_eq_ok_iff crc m m').mp h
  · exact ⟨Grows.refl _, o, ho, hk⟩
  · refine ⟨⟨?_, ?_⟩, crc, ?_, rfl⟩
    · intro a b c hc
      rw [findCrc_put, if_neg]
      · exact hc
      · rintro ⟨rfl, rfl⟩
        rw [hnone] at hc
        exact absurd hc (by simp)
    · intro a b c hc
      rw [findCrc_put] at hc
      split at hc
      · next hab =>
          obtain ⟨rfl, rfl⟩ := hab
          cases hc
          exact .inr hP
      · exact .inl hc
    · rw [findCrc_put, if_pos ⟨rfl, rfl⟩]

theorem closeRight_fold_grows (h : row.foldM (closeRight c₁) m = .ok m')
    (hP : ∀ ty c₂, (ty, c₂) ∈ row.bindings →
      P c₁.crcSrcTs c₂.crcTarTs (compose c₁ c₂)) :
    Grows P m m' ∧ ∀ ty c₂, (ty, c₂) ∈ row.bindings →
      ∃ o, findCrc m' c₁.crcSrcTs c₂.crcTarTs = some o ∧
        o.crcKind = .crcComp c₁.crcKind c₂.crcKind := by
  obtain ⟨hgrows, hsteps⟩ := foldlM_steps m Grows.refl Grows.trans
    row.bindings m m' (Grows.refl m)
    (fun b hb t t' _ ht => (insert_grows ht (hP b.1 b.2 hb)).1) h
  refine ⟨hgrows, ?_⟩
  intro ty c₂ hmem
  obtain ⟨t, t', _, hins, hafter⟩ := hsteps (ty, c₂) hmem
  obtain ⟨o, ho, hk⟩ := (insert_grows hins (hP ty c₂ hmem)).2
  exact ⟨o, hafter.1 _ _ _ ho, hk⟩

/-! ## Adding one coercion -/

def Keyed (m : CrcMap) : Prop :=
  ∀ a b c, findCrc m a b = some c → c.crcSrcTs = a ∧ c.crcTarTs = b

/-- The coercions that `addCrc m crc` may add: they lead from the source, or from
a type symbol before it, to the target, or to a type symbol after it. -/
def NewCrc (m : CrcMap) (crc : Crc) (Q : TySymbol → TySymbol → Crc → Prop)
    (a b : TySymbol) (c : Crc) : Prop :=
  Q a b c ∧ (a = crc.crcSrcTs ∨ ∃ c₁, findCrc m a crc.crcSrcTs = some c₁) ∧
    (b = crc.crcTarTs ∨ ∃ c₂, findCrc m crc.crcTarTs b = some c₂)

structure Covers (Q : TySymbol → TySymbol → Crc → Prop) (m : CrcMap) (crc : Crc) :
    Prop where
  self : Q crc.crcSrcTs crc.crcTarTs crc
  right : ∀ z c, findCrc m crc.crcTarTs z = some c → Q crc.crcSrcTs z (compose crc c)
  left : ∀ a c, findCrc m a crc.crcSrcTs = some c → Q a crc.crcTarTs (compose c crc)
  both : ∀ a c₁ z c₂, findCrc m a crc.crcSrcTs = some c₁ →
    findCrc m crc.crcTarTs z = some c₂ → Q a z (compose c₁ c₂)

section AddCrc

variable {Q : TySymbol → TySymbol → Crc → Prop} {m n m' : CrcMap} {crc : Crc}

section

variable (hne : crc.crcSrcTs ≠ crc.crcTarTs) (hcyc : findCrc m crc.crcTarTs crc.crcSrcTs = none)
  (hg : Grows (NewCrc m crc Q) m n)
include hne hcyc hg

/-- The row of the target never changes while a coercion is added. -/
theorem findCrc_target_of_grows {b : TySymbol} (h : findCrc n crc.crcTarTs b = some c) :
    findCrc m crc.crcTarTs b = some c := by
  rcases hg.2 _ _ _ h with hm | ⟨_, heq | ⟨c₁, hc₁⟩, _⟩
  · exact hm
  · exact absurd heq.symm hne
  · rw [hcyc] at hc₁
    exact absurd hc₁ (by simp)

theorem findCrc_source_of_grows (h : findCrc n a crc.crcSrcTs = some c) :
    findCrc m a crc.crcSrcTs = some c := by
  rcases hg.2 _ _ _ h with hm | ⟨_, _, heq | ⟨c₂, hc₂⟩⟩
  · exact hm
  · exact absurd heq hne
  · rw [hcyc] at hc₂
    exact absurd hc₂ (by simp)

end

theorem mem_row_iff (m : CrcMap) (a b : TySymbol) (c : Crc) :
    (b, c) ∈ (m.findDef .empty a).bindings ↔ findCrc m a b = some c := by
  rw [← TagMap.find?_eq_some_iff, find?_findDef_empty]

/-- One step of the last fold: the coercion `c₁` that leads from `a` to the source
is composed with the new coercion and with those that leave the target. -/
theorem closeLeftRight_grows (hne : crc.crcSrcTs ≠ crc.crcTarTs) (hk : Keyed m)
    (hcyc : findCrc m crc.crcTarTs crc.crcSrcTs = none)
    (hirr : findCrc m crc.crcTarTs crc.crcTarTs = none) (hQ : Covers Q m crc) {ty : TySymbol}
    (hrow : row.find? crc.crcSrcTs = some c₁) (hc₁ : findCrc m a crc.crcSrcTs = some c₁)
    (hg : Grows (NewCrc m crc Q) m n) (h : closeLeftRight crc ty row n = .ok m') :
    Grows (NewCrc m crc Q) n m' ∧
      (∃ o, findCrc m' a crc.crcTarTs = some o ∧
        o.crcKind = .crcComp c₁.crcKind crc.crcKind) ∧
      ∀ z c₂, findCrc m crc.crcTarTs z = some c₂ →
        ∃ o, findCrc m' a z = some o ∧ o.crcKind = .crcComp c₁.crcKind c₂.crcKind := by
  obtain ⟨hsrc₁, _⟩ := hk _ _ _ hc₁
  unfold closeLeftRight at h
  rw [hrow] at h
  -- the row that is folded over holds the new coercion and the old target row
  have hbind : ∀ b c, (b, c) ∈ ((n.findDef .empty crc.crcTarTs).add crc.crcTarTs crc).bindings ↔
      (b = crc.crcTarTs ∧ c = crc) ∨ (b ≠ crc.crcTarTs ∧ findCrc n crc.crcTarTs b = some c) := by
    intro b c
    rw [TagMap.mem_bindings_add, mem_row_iff]
  obtain ⟨hgrows, hall⟩ := closeRight_fold_grows (P := NewCrc m crc Q) h (by
    intro b c hb
    rcases (hbind b c).mp hb with ⟨_, rfl⟩ | ⟨_, hc⟩
    · rw [hsrc₁]
      exact ⟨hQ.left a c₁ hc₁, .inr ⟨c₁, hc₁⟩, .inl rfl⟩
    · have hcm := findCrc_target_of_grows hne hcyc hg hc
      obtain ⟨_, htar⟩ := hk _ _ _ hcm
      rw [hsrc₁, htar]
      exact ⟨hQ.both a c₁ b c hc₁ hcm, .inr ⟨c₁, hc₁⟩, .inr ⟨c, hcm⟩⟩)
  rw [hsrc₁] at hall
  refine ⟨hgrows, hall crc.crcTarTs crc ((hbind _ _).mpr (.inl ⟨rfl, rfl⟩)), ?_⟩
  intro z c₂ hc₂
  have hz : z ≠ crc.crcTarTs := by
    rintro rfl
    rw [hirr] at hc₂
    exact absurd hc₂ (by simp)
  have hres := hall z c₂ ((hbind _ _).mpr (.inr ⟨hz, hg.1 _ _ _ hc₂⟩))
  rwa [(hk _ _ _ hc₂).2] at hres

/-- What a successful `addCrc` does. The old coercions are kept, the new ones
satisfy `Q`, and each composite that the code builds is bound afterwards. -/
theorem addCrc_spec (hne : crc.crcSrcTs ≠ crc.crcTarTs) (hk : Keyed m)
    (hirr : findCrc m crc.crcTarTs crc.crcTarTs = none) (hQ : Covers Q m crc)
    (h : addCrc m crc = .ok m') :
    findCrc m crc.crcTarTs crc.crcSrcTs = none ∧ Grows (NewCrc m crc Q) m m' ∧
      (∃ o, findCrc m' crc.crcSrcTs crc.crcTarTs = some o ∧ o.crcKind = crc.crcKind) ∧
      (∀ z c, findCrc m crc.crcTarTs z = some c →
        ∃ o, findCrc m' crc.crcSrcTs z = some o ∧
          o.crcKind = .crcComp crc.crcKind c.crcKind) ∧
      ∀ a c₁, findCrc m a crc.crcSrcTs = some c₁ →
        (∃ o, findCrc m' a crc.crcTarTs = some o ∧
          o.crcKind = .crcComp c₁.crcKind crc.crcKind) ∧
        ∀ z c₂, findCrc m crc.crcTarTs z = some c₂ →
          ∃ o, findCrc m' a z = some o ∧
            o.crcKind = .crcComp c₁.crcKind c₂.crcKind := by
  unfold addCrc at h
  obtain ⟨uc₁, huc₁, uc₂, huc₂, huc₃⟩ := bind₂_eq_ok.mp h
  have hcyc := ((insert_eq_ok_iff crc m uc₁).mp huc₁).1
  -- the new coercion itself
  obtain ⟨hg₁, o₁, ho₁, hk₁⟩ := insert_grows (P := NewCrc m crc Q) huc₁
    ⟨hQ.self, .inl rfl, .inl rfl⟩
  -- its compositions with the coercions that leave the target
  have hrow : ∀ z c, (z, c) ∈ (uc₁.findDef .empty crc.crcTarTs).bindings ↔
      findCrc m crc.crcTarTs z = some c := by
    intro z c
    rw [mem_row_iff]
    exact ⟨findCrc_target_of_grows hne hcyc hg₁, hg₁.1 _ _ _⟩
  obtain ⟨hg₂, hright⟩ := closeRight_fold_grows (P := NewCrc m crc Q) huc₂ (by
    intro z c hzc
    have hc := (hrow z c).mp hzc
    rw [(hk _ _ _ hc).2]
    exact ⟨hQ.right z c hc, .inl rfl, .inr ⟨c, hc⟩⟩)
  have hg₁₂ := Grows.trans _ _ _ hg₁ hg₂
  -- the compositions with the coercions that lead to the source
  have hcol : ∀ a row, (a, row) ∈ uc₂.bindings → ∀ c₁, row.find? crc.crcSrcTs = some c₁ →
      findCrc m a crc.crcSrcTs = some c₁ := by
    intro a row hmem c₁ hc₁
    have hfind := (TagMap.find?_eq_some_iff uc₂ a row).mpr hmem
    exact findCrc_source_of_grows hne hcyc hg₁₂ (by simp [findCrc, hfind, hc₁])
  obtain ⟨hg₃, hleft⟩ := foldlM_steps m Grows.refl Grows.trans
    uc₂.bindings uc₂ m' hg₁₂ (by
      intro b hb t t' ht hstep
      cases hc₁ : b.2.find? crc.crcSrcTs with
      | none =>
        simp only [closeLeftRight, hc₁, Except.ok.injEq] at hstep
        subst hstep
        exact Grows.refl t
      | some c₁ =>
        exact (closeLeftRight_grows hne hk hcyc hirr hQ hc₁
          (hcol b.1 b.2 hb c₁ hc₁) ht hstep).1) huc₃
  refine ⟨hcyc, Grows.trans _ _ _ hg₁₂ hg₃, ⟨o₁, hg₃.1 _ _ _ (hg₂.1 _ _ _ ho₁), hk₁⟩, ?_, ?_⟩
  · intro z c hc
    obtain ⟨o, ho, hko⟩ := hright z c ((hrow z c).mpr hc)
    rw [(hk _ _ _ hc).2] at ho
    exact ⟨o, hg₃.1 _ _ _ ho, hko⟩
  · intro a c₁ hc₁
    -- the row of `a` is visited, and what its step binds is kept until the end
    have hc₁' := hg₁₂.1 _ _ _ hc₁
    obtain ⟨row, hrowa, hrowc⟩ := Option.bind_eq_some_iff.mp hc₁'
    have hmem := (TagMap.find?_eq_some_iff uc₂ a row).mp hrowa
    obtain ⟨t, t', ht, hstep, hafter⟩ := hleft (a, row) hmem
    obtain ⟨_, ⟨o, ho, hko⟩, hboth⟩ := closeLeftRight_grows hne hk hcyc hirr hQ hrowc hc₁
      (Grows.trans _ _ _ hg₁₂ ht) hstep
    refine ⟨⟨o, hafter.1 _ _ _ ho, hko⟩, ?_⟩
    intro z c₂ hc₂
    obtain ⟨o', ho', hko'⟩ := hboth z c₂ hc₂
    exact ⟨o', hafter.1 _ _ _ ho', hko'⟩

end AddCrc

end Coercion

end Why3
