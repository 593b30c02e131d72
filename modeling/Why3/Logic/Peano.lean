import Why3.Logic.Tagged

/-!
# Natural numbers as the only algebraic type

The signature of the natural numbers built by zero and successor, and the
interpretation of it by natural numbers.
-/

namespace Why3

open Interp List

def tsNat : TySymbol := ⟨⟨30⟩, [], .noDef, nodup_nil⟩

def tyNat : Ty := .tyapp tsNat []

def fsZero : LSymbol := ⟨⟨31⟩, [], some tyNat, 2⟩

def fsSucc : LSymbol := ⟨⟨32⟩, [tyNat], some tyNat, 2⟩

def peanoSig : DataSig where
  constrs ts := if ts = tsNat then [fsZero, fsSucc] else []
  value := by
    intro ts cs h
    split at h
    · next hts =>
        subst hts
        simp only [mem_cons, not_mem_nil, or_false] at h
        rcases h with rfl | rfl <;> rfl
    · simp at h
  freevars := by
    intro ts cs h
    split at h
    · simp only [mem_cons, not_mem_nil, or_false] at h
      rcases h with rfl | rfl <;> simp [fsZero, fsSucc, tyNat, Ty.freevars, Ty.freevarsList]
    · simp at h
  saturated := by
    intro ts cs h
    split at h
    · simp only [mem_cons, not_mem_nil, or_false] at h
      rcases h with rfl | rfl <;> decide
    · simp at h
  count := by
    intro ts cs h
    split at h
    · next hts =>
        simp only [mem_cons, not_mem_nil, or_false] at h
        rcases h with rfl | rfl <;> simp [hts, fsZero, fsSucc]
    · simp at h
  nodup := by
    intro ts
    split
    · decide
    · exact nodup_nil

theorem mem_constrs_peanoSig {ts : TySymbol} {cs : LSymbol} (h : cs ∈ peanoSig.constrs ts) :
    ts = tsNat ∧ (cs = fsZero ∨ cs = fsSucc) := by
  change cs ∈ (if ts = tsNat then [fsZero, fsSucc] else []) at h
  split at h
  · next hts => exact ⟨hts, by simpa using h⟩
  · simp at h

noncomputable def peano : Interp (Ty × ℕ) :=
  taggedInterp (fun ls ds => if ls = fsSucc then ds.getD 0 0 + 1 else 0) (fun _ _ => False)
    fun _ => 0

theorem peano_sound : peano.Sound := taggedInterp_sound _ _ _

theorem typed_fsSucc {tl : List Ty} {ds : List (Ty × ℕ)}
    (h : peano.Typed (paramMap tsNat tl) fsSucc.lsArgs ds) : ∃ n, ds = [(tyNat, n)] := by
  cases h with
  | cons hd hds =>
    cases hds
    exact ⟨_, congrArg (fun d => [d]) (Prod.ext hd rfl)⟩

theorem peano_free : peano.Free peanoSig where
  inj := by
    intro ts tl cs ds ds' _ hcs hds hds' heq
    obtain ⟨rfl, rfl | rfl⟩ := mem_constrs_peanoSig hcs
    · cases hds
      cases hds'
      rfl
    · obtain ⟨n, rfl⟩ := typed_fsSucc hds
      obtain ⟨n', rfl⟩ := typed_fsSucc hds'
      have hn : n + 1 = n' + 1 := by simpa [peano, taggedInterp] using congrArg Prod.snd heq
      rw [Nat.succ.inj hn]
  disjoint := by
    intro ts tl cs cs' ds ds' _ hcs hcs' hne _ _ heq
    have hn := congrArg Prod.snd heq
    obtain ⟨rfl, rfl | rfl⟩ := mem_constrs_peanoSig hcs <;>
      obtain ⟨_, rfl | rfl⟩ := mem_constrs_peanoSig hcs'
    · exact hne rfl
    · simp [peano, taggedInterp, fsZero, fsSucc] at hn
    · simp [peano, taggedInterp, fsZero, fsSucc] at hn
    · exact hne rfl
  cover := by
    rintro ts tl ⟨ty, n⟩ hl hne rfl
    have hts : ts = tsNat := by
      obtain ⟨cs, hcs⟩ := exists_mem_of_ne_nil _ hne
      exact (mem_constrs_peanoSig hcs).1
    subst hts
    cases n with
    | zero =>
      exact ⟨fsZero, by simp [peanoSig], [], .nil, by
        simp [peano, taggedInterp, fsZero, fsSucc]⟩
    | succ n =>
      exact ⟨fsSucc, by simp [peanoSig], [(tyNat, n)], .cons rfl .nil, by
        simp [peano, taggedInterp]⟩

end Why3
