import Why3.Core.Known
import Why3.Logic.Typing

/-!
# The signature of a known map

The checks that are made on declarations of algebraic types give the constructors
of a known map the properties of a signature.
-/

namespace Why3

open Lib List

variable {kn : KnownMap} {cl : List Constructor} {ts : TySymbol}

theorem Known.constrs (h : Known kn) (hcl : findConstructors kn ts = .ok cl) :
    (cl.map Prod.fst).Nodup ∧ ∀ c ∈ cl,
      c.1.lsValue = some (.tyapp ts (ts.tsArgs.map .tyvar)) ∧ c.1.lsConstr = cl.length := by
  induction h with
  | empty => simp [findConstructors] at hcl
  | @add kn kn' d hkn hd h ih =>
    have hadd := knownAddDecl_added h
    by_cases hts : Sym.ts ts.embed ∈ declNews d
    · rcases ts_mem_declNews hts with rfl | ⟨tdl, rfl, hmem⟩
      · simp only [findConstructors, hadd.find, declNews, mem_singleton, if_true,
          Except.ok.injEq] at hcl
        subst hcl
        simp
      · rw [findConstructors_ddata hadd.toAddedBase hmem, assq_eq_ok] at hcl
        obtain ⟨tss, hnodup, hall⟩ := createDataDecl_spec hd.1 (mem_of_lookup hcl)
        exact ⟨hnodup, fun c hc => ⟨(hall c hc).value, (hall c hc).count⟩⟩
    · rw [findConstructors_of_not_mem hadd.toAddedBase hts] at hcl
      exact ih hcl

def constrsOf (kn : KnownMap) (ts : TySymbol) : List LSymbol :=
  match findConstructors kn ts with
  | .ok cl => cl.map Prod.fst
  | .error _ => []

theorem mem_constrsOf {cs : LSymbol} (h : cs ∈ constrsOf kn ts) :
    ∃ cl, findConstructors kn ts = .ok cl ∧ constrsOf kn ts = cl.map Prod.fst ∧
      ∃ c ∈ cl, c.1 = cs := by
  unfold constrsOf at h ⊢
  cases hf : findConstructors kn ts with
  | error e => simp [hf] at h
  | ok cl =>
    simp only [hf] at h
    exact ⟨cl, rfl, rfl, mem_map.mp h⟩

def knownSig {kn : KnownMap} (hkn : Known kn) : DataSig where
  constrs := constrsOf kn
  value := by
    intro ts cs h
    obtain ⟨cl, hcl, _, c, hc, rfl⟩ := mem_constrsOf h
    exact ((hkn.constrs hcl).2 c hc).1
  freevars := by
    intro ts cs h ty hty
    obtain ⟨cl, hcl, _, c, hc, rfl⟩ := mem_constrsOf h
    exact (hkn.argOf ⟨cl, hcl, c, hc, hty⟩).freevars
  saturated := by
    intro ts cs h ty hty
    obtain ⟨cl, hcl, _, c, hc, rfl⟩ := mem_constrsOf h
    exact (hkn.argOf ⟨cl, hcl, c, hc, hty⟩).saturated
  count := by
    intro ts cs h
    obtain ⟨cl, hcl, heq, c, hc, rfl⟩ := mem_constrsOf h
    rw [((hkn.constrs hcl).2 c hc).2, heq, length_map]
  nodup := by
    intro ts
    unfold constrsOf
    cases hf : findConstructors kn ts with
    | error e => exact nodup_nil
    | ok cl => exact (hkn.constrs hf).1

theorem getConstructors_eq (hts : TypeKnown kn ts) :
    getConstructors kn ts = .ok (some (constrsOf kn ts)) := by
  obtain ⟨cl, hcl⟩ := hts
  simp only [getConstructors, constrsOf, hcl, bind, Except.bind]

theorem constrsOf_closed (hkn : Known kn) :
    ∀ cs ∈ constrsOf kn ts, ∀ ty ∈ cs.lsArgs, ∀ ts' ∈ ty.syms, TypeKnown kn ts' := by
  intro cs h ty hty
  obtain ⟨cl, hcl, _, c, hc, rfl⟩ := mem_constrsOf h
  exact (hkn.argOf ⟨cl, hcl, c, hc, hty⟩).known

end Why3
