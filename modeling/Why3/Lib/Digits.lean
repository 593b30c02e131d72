import Mathlib.Data.List.Basic
import Mathlib.Algebra.Order.Ring.Nat
import Mathlib.Tactic.Ring

/-!
# Positional notation

The value of a list of digits in a base, the most significant digit first. The digits are
of any type: `val` gives the value of a digit, and is undefined for what is not one.
-/

namespace Lib

open List

variable {α : Type*} (val : α → Option ℕ) (b : ℕ)

def digitsValueFrom (acc : ℕ) : List α → Option ℕ
  | [] => some acc
  | a :: s => (val a).bind fun v => digitsValueFrom (v + b * acc) s

def digitsValue (s : List α) : Option ℕ := digitsValueFrom val b 0 s

variable {val b}
variable {s t : List α} {n : ℕ}

theorem digitsValueFrom_eq (acc : ℕ) (s : List α) :
    digitsValueFrom val b acc s = (digitsValue val b s).map fun n => acc * b ^ s.length + n := by
  rw [digitsValue]
  induction s generalizing acc with
  | nil => simp [digitsValueFrom]
  | cons a s ih =>
    rw [digitsValueFrom, digitsValueFrom]
    cases val a with
    | none => rfl
    | some v =>
      rw [Option.bind_some, Option.bind_some, ih, ih (v + b * 0), Option.map_map]
      congr 1
      funext n
      rw [Function.comp_apply, length_cons]
      ring

theorem digitsValueFrom_append (acc : ℕ) (s t : List α) :
    digitsValueFrom val b acc (s ++ t) =
      (digitsValueFrom val b acc s).bind fun n => digitsValueFrom val b n t := by
  induction s generalizing acc with
  | nil => rfl
  | cons a s ih =>
    rw [cons_append, digitsValueFrom, digitsValueFrom]
    cases val a with
    | none => rfl
    | some v => exact ih _

theorem digitsValue_append_eq_some :
    digitsValue val b (s ++ t) = some n ↔
      ∃ m k, digitsValue val b s = some m ∧ digitsValue val b t = some k ∧
        m * b ^ t.length + k = n := by
  rw [digitsValue, digitsValueFrom_append, Option.bind_eq_some_iff]
  simp only [digitsValueFrom_eq _ t, Option.map_eq_some_iff]
  constructor
  · rintro ⟨m, hm, k, hk, rfl⟩
    exact ⟨m, k, hm, hk, rfl⟩
  · rintro ⟨m, k, hm, hk, rfl⟩
    exact ⟨m, hm, k, hk, rfl⟩

theorem digitsValue_zeros {z : α} (hz : val z = some 0) (k : ℕ) (s : List α) :
    digitsValue val b (replicate k z ++ s) = digitsValue val b s := by
  rw [digitsValue, digitsValueFrom_append]
  have hzero : digitsValueFrom val b 0 (replicate k z) = some 0 := by
    induction k with
    | zero => rfl
    | succ k ih =>
      rw [replicate_succ, digitsValueFrom, hz, Option.bind_some]
      simpa using ih
  rw [hzero]
  rfl

theorem digitsValue_singleton {a : α} {v : ℕ} (h : val a = some v) :
    digitsValue val b [a] = some v := by
  rw [digitsValue, digitsValueFrom, h, Option.bind_some]
  simp [digitsValueFrom]

theorem isSome_of_digitsValue (h : digitsValue val b s = some n) :
    ∀ a ∈ s, ∃ v, val a = some v := by
  induction s generalizing n with
  | nil => simp
  | cons a s ih =>
    rw [← singleton_append, digitsValue_append_eq_some] at h
    obtain ⟨m, k, hm, hk, -⟩ := h
    rw [forall_mem_cons]
    refine ⟨?_, ih hk⟩
    rw [digitsValue, digitsValueFrom, Option.bind_eq_some_iff] at hm
    obtain ⟨v, hv, -⟩ := hm
    exact ⟨v, hv⟩

end Lib
