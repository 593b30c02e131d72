import Why3.Logic.Tagged

/-!
# Booleans as the only algebraic type

The signature in which the booleans are the only algebraic type, and an
interpretation of it in which every type has two values.
-/

namespace Why3

open Interp List

def boolSig : DataSig where
  constrs ts := if ts = tsBool then [fsBoolTrue, fsBoolFalse] else []
  value := by
    intro ts cs h
    split at h
    · next hts =>
        subst hts
        simp only [mem_cons, not_mem_nil, or_false] at h
        rcases h with rfl | rfl <;> rfl
    · simp at h
  freevars := by
    intro ts cs h
    split at h
    · simp only [mem_cons, not_mem_nil, or_false] at h
      rcases h with rfl | rfl <;> simp [fsBoolTrue, fsBoolFalse]
    · simp at h
  saturated := by
    intro ts cs h
    split at h
    · simp only [mem_cons, not_mem_nil, or_false] at h
      rcases h with rfl | rfl <;> simp [fsBoolTrue, fsBoolFalse]
    · simp at h
  count := by
    intro ts cs h
    split at h
    · simp only [mem_cons, not_mem_nil, or_false] at h
      rcases h with rfl | rfl <;> simp_all [fsBoolTrue, fsBoolFalse]
    · simp at h
  nodup := by
    intro ts
    split
    · decide
    · exact nodup_nil

theorem mem_constrs_boolSig {ts : TySymbol} {cs : LSymbol} (h : cs ∈ boolSig.constrs ts) :
    ts = tsBool ∧ (cs = fsBoolTrue ∨ cs = fsBoolFalse) := by
  change cs ∈ (if ts = tsBool then [fsBoolTrue, fsBoolFalse] else []) at h
  split at h
  · next hts => exact ⟨hts, by simpa using h⟩
  · simp at h

/-- Every type has two values; constants other than `True` have the value false. -/
noncomputable def twoValued : Interp (Ty × Bool) :=
  taggedInterp (fun ls _ => decide (ls = fsBoolTrue)) (fun _ _ => False) fun _ => false

theorem twoValued_sound : twoValued.Sound := taggedInterp_sound _ _ _

theorem twoValued_free : twoValued.Free boolSig where
  inj := by
    intro ts tl cs ds ds' _ hcs hds hds' _
    obtain ⟨rfl, rfl | rfl⟩ := mem_constrs_boolSig hcs
    · cases hds
      cases hds'
      rfl
    · cases hds
      cases hds'
      rfl
  disjoint := by
    intro ts tl cs cs' ds ds' _ hcs hcs' hne _ _ heq
    obtain ⟨rfl, rfl | rfl⟩ := mem_constrs_boolSig hcs <;>
      obtain ⟨_, rfl | rfl⟩ := mem_constrs_boolSig hcs'
    · exact hne rfl
    · exact absurd (congrArg Prod.snd heq) (by simp [twoValued, taggedInterp, fsBoolTrue,
      fsBoolFalse])
    · exact absurd (congrArg Prod.snd heq) (by simp [twoValued, taggedInterp, fsBoolTrue,
      fsBoolFalse])
    · exact hne rfl
  cover := by
    rintro ts tl ⟨ty, b⟩ hl hne rfl
    have hts : ts = tsBool := by
      obtain ⟨cs, hcs⟩ := exists_mem_of_ne_nil _ hne
      exact (mem_constrs_boolSig hcs).1
    subst hts
    cases b with
    | false =>
      refine ⟨fsBoolFalse, by simp [boolSig], [], .nil, ?_⟩
      simp [twoValued, taggedInterp, fsBoolTrue, fsBoolFalse]
    | true => exact ⟨fsBoolTrue, by simp [boolSig], [], .nil, by simp [twoValued, taggedInterp]⟩

end Why3
