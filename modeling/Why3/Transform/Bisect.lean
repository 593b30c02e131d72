import Mathlib.Data.Finset.Lattice.Lemmas
import Why3.Core.Task

/-!
# Bisection

The search of `src/transform/eliminate_definition.ml` for a set of declarations that can be
removed from a task. It submits sets, one by one, and goes on with the answers.

The naming table that comes with each set is left out. It is built before the search, by
`build_naming_tables`, which raises an exception if the coercion metas of the task are in conflict.
-/

namespace Why3

open Lib List

abbrev Rem := Finset PrSymbol × Finset LSymbol × Finset (TySym Ty)

def Rem.removeLs (rem : Rem) (ls : LSymbol) : Rem := (rem.1, insert ls rem.2.1, rem.2.2)

def Rem.removePr (rem : Rem) (pr : PrSymbol) : Rem := (insert pr rem.1, rem.2)

def addRem (rem : Rem) : Decl → Rem
  | .dtype _ | .dparam _ | .ddata _ => rem
  | .dlogic l => l.foldl (fun rem ld => rem.removeLs ld.1) rem
  | .dind _ l => l.foldl (fun rem ld => rem.removeLs ld.1) rem
  | .dprop _ pr _ => rem.removePr pr

/-- The search is done, or goes on with the answer for a set. An exception ends it. -/
inductive BisectStep where
  | bsDone (rem : Rem)
  | bsStep (rem : Rem) (next : Bool → BisectStep)
  | raised (e : Exn)

variable {a : List Decl} {d : Decl} {rem rem' rem1 found : Rem} {i1 m i2 : ℕ}
  {trace trace' : List (Rem × Bool)} {P : List (Rem × Bool) → Rem → Prop}

namespace BisectStep

def ofExcept (r : Except Exn Rem) (next : Rem → BisectStep) : BisectStep :=
  match r with
  | .ok rem => next rem
  | .error e => .raised e

/-- The submitted sets with their answers, and the set that is found in the end. -/
def run : BisectStep → (ℕ → Bool) → Except Exn (List (Rem × Bool) × Rem)
  | bsDone rem, _ => .ok ([], rem)
  | bsStep rem next, answers => do
    let (trace, found) ← (next (answers 0)).run fun k => answers (k + 1)
    .ok ((rem, answers 0) :: trace, found)
  | raised e, _ => .error e

end BisectStep

def arrayGet (a : List Decl) (i : ℕ) : Except Exn Decl :=
  match a[i]? with
  | some d => .ok d
  | none => .error .invalidArgument

def foldSub (f : Rem → Decl → Rem) (acc : Rem) (a : List Decl) (i1 i2 : ℕ) : Except Exn Rem :=
  (List.range' i1 (i2 - i1)).foldlM (fun acc i => do .ok (f acc (← arrayGet a i))) acc

def bisectAux (a : List Decl) (i1 i2 : ℕ) (rem : Rem) (cont : Rem → BisectStep) : BisectStep :=
  if i2 - i1 < 2 then
    .ofExcept (do .ok (addRem rem (← arrayGet a i1))) fun rem1 =>
      .bsStep rem1 fun b =>
        if b then if i2 - i1 = 1 then cont rem1 else .raised .assertFailure
        else cont rem
  else
    let m := (i1 + i2) / 2
    .ofExcept (foldSub addRem rem a i1 m) fun rem1 =>
      .bsStep rem1 fun b =>
        if b then bisectAux a m i2 rem1 cont
        else bisectAux a i1 m rem fun rem1 =>
          .ofExcept (foldSub addRem rem1 a m i2) fun rem2 =>
            .bsStep rem2 fun b => if b then cont rem2 else bisectAux a m i2 rem1 cont
termination_by i2 - i1

def TDecl.removable? : TDecl → Option Decl
  | .decl (.dlogic l) => some (.dlogic l)
  | .decl (.dind s l) => some (.dind s l)
  | .decl (.dprop k pr f) => some (.dprop k pr f)
  | _ => none

def removables (task : Task) : List Decl := task.taskTdecls.dropLast.filterMap TDecl.removable?

def bisectStep (task : Task) : BisectStep :=
  match task.findGoal with
  | none => .raised .goalNotFound
  | some _ =>
    let a := removables task
    bisectAux a 0 a.length ⊥ .bsDone

/-! ## Sets to be removed -/

theorem foldl_removeLs {α : Type} (ls : α → LSymbol) (l : List α) (rem : Rem) :
    l.foldl (fun rem x => rem.removeLs (ls x)) rem =
      rem ⊔ l.foldl (fun rem x => rem.removeLs (ls x)) ⊥ := by
  induction l using List.reverseRecOn with
  | nil => simp
  | append_singleton l x ih =>
    rw [foldl_append, foldl_append, ih]
    simp [Rem.removeLs, Prod.ext_iff, Finset.union_insert]

theorem addRem_eq (rem : Rem) (d : Decl) : addRem rem d = rem ⊔ addRem ⊥ d := by
  cases d with
  | dtype | dparam | ddata => simp [addRem]
  | dlogic l | dind _ l => exact foldl_removeLs (fun ld => ld.1) l rem
  | dprop _ pr _ => simp [addRem, Rem.removePr, Prod.ext_iff]

/-- The symbols that the declaration defines, or its proposition, are removed. -/
def Rem.Removes (rem : Rem) : Decl → Prop
  | .dtype _ | .dparam _ | .ddata _ => True
  | .dlogic l => ∀ ld ∈ l, ld.1 ∈ rem.2.1
  | .dind _ l => ∀ ld ∈ l, ld.1 ∈ rem.2.1
  | .dprop _ pr _ => pr ∈ rem.1

theorem foldl_removeLs_le {α : Type} {ls : α → LSymbol} {l : List α} :
    l.foldl (fun rem x => rem.removeLs (ls x)) ⊥ ≤ rem ↔ ∀ x ∈ l, ls x ∈ rem.2.1 := by
  induction l using List.reverseRecOn with
  | nil => simp
  | append_singleton l x ih =>
    rw [foldl_append, forall_mem_append, ← ih, forall_mem_singleton]
    simp only [foldl_cons, foldl_nil, Rem.removeLs, Prod.le_def, Finset.insert_subset_iff]
    tauto

theorem addRem_le : addRem ⊥ d ≤ rem ↔ rem.Removes d := by
  cases d with
  | dtype | dparam | ddata => simp [addRem, Rem.Removes]
  | dlogic l | dind _ l => exact foldl_removeLs_le
  | dprop _ pr _ => simp [addRem, Rem.removePr, Rem.Removes, Prod.le_def]

theorem addRem_le_iff : addRem rem d ≤ rem' ↔ rem ≤ rem' ∧ rem'.Removes d := by
  rw [addRem_eq, sup_le_iff, addRem_le]

theorem le_addRem (rem : Rem) (d : Decl) : rem ≤ addRem rem d := by
  rw [addRem_eq]
  exact le_sup_left

theorem addRem_mono (h : rem ≤ rem') (d : Decl) : addRem rem d ≤ addRem rem' d := by
  rw [addRem_eq rem, addRem_eq rem']
  exact sup_le_sup_right h _

theorem addRem_of_le (h : addRem rem d ≤ rem') : addRem rem' d = rem' := by
  rw [addRem_eq] at h ⊢
  exact sup_eq_left.mpr (le_sup_right.trans h)

theorem foldSub_ok (i1 : ℕ) (h : i2 ≤ a.length) (rem : Rem) :
    ∃ rem1, foldSub addRem rem a i1 i2 = .ok rem1 ∧ rem ≤ rem1 ∧
      ∀ i d, i1 ≤ i → i < i2 → a[i]? = some d → addRem rem d ≤ rem1 := by
  induction hn : i2 - i1 generalizing i1 rem with
  | zero => exact ⟨rem, by rw [foldSub, hn]; rfl, le_rfl, fun i d h1 h2 => by omega⟩
  | succ n ih =>
    have hlt : i1 < a.length := by omega
    have hget : arrayGet a i1 = .ok a[i1] := by
      rw [arrayGet, getElem?_eq_getElem hlt]
    obtain ⟨rem1, hrem1, hle, hall⟩ := ih (i1 + 1) (addRem rem a[i1]) (by omega)
    refine ⟨rem1, ?_, (le_addRem _ _).trans hle, fun i d h1 h2 hd => ?_⟩
    · rw [foldSub, show i2 - (i1 + 1) = n by omega] at hrem1
      rw [foldSub, hn, range'_succ, foldlM_cons_eq_ok]
      exact ⟨_, bind_eq_ok.mpr ⟨_, hget, rfl⟩, hrem1⟩
    · rcases Nat.eq_or_lt_of_le h1 with rfl | h1
      · rw [getElem?_eq_getElem hlt, Option.some.injEq] at hd
        exact hd ▸ hle
      · exact (addRem_mono (le_addRem _ _) d).trans (hall i d h1 h2 hd)

/-! ## The search -/

def BisectStep.Ends (P : List (Rem × Bool) → Rem → Prop) (step : BisectStep) : Prop :=
  ∀ answers, ∃ trace found, step.run answers = .ok (trace, found) ∧ P trace found

theorem BisectStep.Ends.bsStep {next : Bool → BisectStep}
    (h : ∀ b, Ends (fun trace => P ((rem, b) :: trace)) (next b)) : Ends P (.bsStep rem next) := by
  intro answers
  obtain ⟨trace, found, hrun, hP⟩ := h (answers 0) fun k => answers (k + 1)
  refine ⟨(rem, answers 0) :: trace, found, ?_, hP⟩
  rw [run, hrun]
  rfl

/-- What the part of the array between two indices contributes: a larger set, that is
confirmed, and each declaration that is not in it was rejected together with less. -/
structure Bisected (a : List Decl) (i1 i2 : ℕ) (rem : Rem) (trace : List (Rem × Bool))
    (found : Rem) : Prop where
  le : rem ≤ found
  confirmed : found = rem ∨ (found, true) ∈ trace
  settled : ∀ i d, i1 ≤ i → i < i2 → a[i]? = some d →
    addRem found d = found ∨ ∃ rem' ≤ found, (addRem rem' d, false) ∈ trace

namespace Bisected

theorem append (h : Bisected a i1 m rem trace rem1) (h' : Bisected a m i2 rem1 trace' found) :
    Bisected a i1 i2 rem (trace ++ trace') found := by
  refine ⟨h.le.trans h'.le, ?_, fun i d h1 h2 hd => ?_⟩
  · rcases h'.confirmed with rfl | hmem
    · exact h.confirmed.imp_right (mem_append_left _)
    · exact .inr (mem_append_right _ hmem)
  · rcases Nat.lt_or_ge i m with hlt | hge
    · rcases h.settled i d h1 hlt hd with heq | ⟨rem', hle, hmem⟩
      · exact .inl (addRem_of_le (heq.le.trans h'.le))
      · exact .inr ⟨rem', hle.trans h'.le, mem_append_left _ hmem⟩
    · exact (h'.settled i d hge h2 hd).imp_right fun ⟨rem', hle, hmem⟩ =>
        ⟨rem', hle, mem_append_right _ hmem⟩

theorem cons (x : Rem × Bool) (h : Bisected a i1 i2 rem trace found) :
    Bisected a i1 i2 rem (x :: trace) found :=
  ⟨h.le, h.confirmed.imp_right (mem_cons_of_mem x), fun i d h1 h2 hd =>
    (h.settled i d h1 h2 hd).imp_right fun ⟨rem', hle, hmem⟩ =>
      ⟨rem', hle, mem_cons_of_mem x hmem⟩⟩

theorem all (hle : rem ≤ found)
    (h : ∀ i d, i1 ≤ i → i < i2 → a[i]? = some d → addRem rem d ≤ found) :
    Bisected a i1 i2 rem [(found, true)] found :=
  ⟨hle, .inr (mem_singleton_self _), fun i d h1 h2 hd =>
    .inl (addRem_of_le (h i d h1 h2 hd))⟩

end Bisected

open BisectStep in
theorem bisectAux_ends (hlt : i1 < i2) (hlen : i2 ≤ a.length) {cont : Rem → BisectStep}
    (hcont : ∀ trace found, Bisected a i1 i2 rem trace found →
      Ends (fun trace' => P (trace ++ trace')) (cont found)) :
    Ends P (bisectAux a i1 i2 rem cont) := by
  induction hn : i2 - i1 using Nat.strong_induction_on generalizing i1 i2 rem cont P with
  | _ n ih =>
    by_cases hone : i2 - i1 < 2
    · have hget : arrayGet a i1 = .ok a[i1] := by
        rw [arrayGet, getElem?_eq_getElem (by omega)]
      rw [bisectAux, if_pos hone, hget]
      refine .bsStep fun b => ?_
      cases b with
      | true =>
        rw [if_pos rfl, if_pos (by omega)]
        refine hcont [(addRem rem a[i1], true)] _ (.all (le_addRem _ _) fun i d h1 h2 hd => ?_)
        obtain rfl : i1 = i := by omega
        rw [getElem?_eq_getElem (by omega), Option.some.injEq] at hd
        exact hd ▸ le_rfl
      | false =>
        refine hcont [(addRem rem a[i1], false)] rem ⟨le_rfl, .inl rfl, fun i d h1 h2 hd => ?_⟩
        obtain rfl : i1 = i := by omega
        rw [getElem?_eq_getElem (by omega), Option.some.injEq] at hd
        exact .inr ⟨rem, le_rfl, by simp [hd]⟩
    · have hm : i1 < (i1 + i2) / 2 ∧ (i1 + i2) / 2 < i2 := by omega
      obtain ⟨rem1, hrem1, hle1, hall1⟩ := foldSub_ok i1 (hm.2.le.trans hlen) rem
      rw [bisectAux, if_neg hone]
      simp only [hrem1, BisectStep.ofExcept]
      refine .bsStep fun b => ?_
      cases b with
      | true =>
        refine ih _ (by omega) hm.2 hlen (fun trace found h => ?_) rfl
        exact hcont _ _ ((Bisected.all hle1 hall1).append h)
      | false =>
        refine ih _ (by omega) hm.1 (hm.2.le.trans hlen) (fun trace found h => ?_) rfl
        obtain ⟨rem2, hrem2, hle2, hall2⟩ := foldSub_ok ((i1 + i2) / 2) hlen found
        simp only [hrem2]
        refine .bsStep fun b => ?_
        cases b with
        | true =>
          have := hcont _ _ ((h.cons (rem1, false)).append (.all hle2 hall2))
          simpa using this
        | false =>
          refine ih _ (by omega) hm.2 hlen (fun trace' found' h' => ?_) rfl
          have := hcont _ _ ((h.cons (rem1, false)).append (h'.cons (rem2, false)))
          simpa using this

/-- The search ends, with a set that was confirmed, and no declaration can be added to it where
the answers are those for sets that get smaller. -/
def BisectsMinimal (task : Task) : Prop :=
  ∀ answers, ∃ trace found, (bisectStep task).run answers = .ok (trace, found) ∧
    (found = ⊥ ∨ (found, true) ∈ trace) ∧
    ∀ oracle : Rem → Bool, (∀ rem rem', rem ≤ rem' → oracle rem' = true → oracle rem = true) →
      (∀ x ∈ trace, oracle x.1 = x.2) →
      ∀ d ∈ removables task, addRem found d ≠ found → oracle (addRem found d) = false

theorem Bisected.rejects (h : Bisected a 0 a.length rem trace found) {oracle : Rem → Bool}
    (hmono : ∀ rem rem', rem ≤ rem' → oracle rem' = true → oracle rem = true)
    (horacle : ∀ x ∈ trace, oracle x.1 = x.2) (hd : d ∈ a) (hne : addRem found d ≠ found) :
    oracle (addRem found d) = false := by
  obtain ⟨i, hi⟩ := mem_iff_getElem?.mp hd
  obtain ⟨rem', hle, hmem⟩ :=
    (h.settled i d (Nat.zero_le i) (List.getElem?_eq_some_iff.mp hi).1 hi).resolve_left hne
  rw [Bool.eq_false_iff]
  intro htrue
  have hfalse := horacle _ hmem
  rw [hmono _ _ (addRem_mono hle d) htrue] at hfalse
  cases hfalse

theorem bisectStep_of_nil {task : Task} (hgoal : task.findGoal.isSome = true)
    (h : removables task = []) : bisectStep task = .raised .invalidArgument := by
  obtain ⟨goal, hgoal⟩ := Option.isSome_iff_exists.mp hgoal
  rw [bisectStep, hgoal]
  simp [h, bisectAux, arrayGet, BisectStep.ofExcept, bind, Except.bind]

/-- The search is right unless there is nothing to search through. A set is extended by what the
declaration defines. -/
theorem bisectsMinimal_iff {task : Task} (hgoal : task.findGoal.isSome = true) :
    (∀ rem rem' d, addRem rem d ≤ rem' ↔ rem ≤ rem' ∧ rem'.Removes d) ∧
      (BisectsMinimal task ↔ removables task ≠ []) := by
  refine ⟨fun _ _ _ => addRem_le_iff, ?_⟩
  constructor
  · intro h hnil
    obtain ⟨trace, found, hrun, _⟩ := h fun _ => true
    rw [bisectStep_of_nil hgoal hnil] at hrun
    cases hrun
  · intro hne answers
    obtain ⟨goal, hgoal⟩ := Option.isSome_iff_exists.mp hgoal
    have hends : BisectStep.Ends (Bisected (removables task) 0 (removables task).length ⊥)
        (bisectAux (removables task) 0 (removables task).length ⊥ .bsDone) := by
      refine bisectAux_ends (length_pos_iff.mpr hne) le_rfl fun trace found h _ => ?_
      exact ⟨[], found, rfl, by simpa using h⟩
    obtain ⟨trace, found, hrun, h⟩ := hends answers
    refine ⟨trace, found, by rwa [bisectStep, hgoal], h.confirmed, ?_⟩
    exact fun oracle hmono horacle d hd => h.rejects hmono horacle hd

/-- Two axioms that may be removed. -/
def twoAxioms : Task :=
  taskOf [.dprop PropKind.paxiom ⟨⟨0⟩⟩ (.ttrue []), .dprop PropKind.paxiom ⟨⟨1⟩⟩ (.ttrue []),
    .dprop .pgoal ⟨⟨2⟩⟩ (.ttrue [])]

theorem bisectsMinimal_iff_twoAxioms : twoAxioms.Built ∧ twoAxioms.findGoal.isSome = true ∧
    (removables twoAxioms).length = 2 ∧ BisectsMinimal twoAxioms :=
  ⟨built_taskOf (by simp [Decl.WellFormed]), rfl, rfl, (bisectsMinimal_iff rfl).2.mpr (cons_ne_nil _ _)⟩

/-- A task that is nothing but its goal has no declaration to be removed. -/
theorem bisectStep_goal_only :
    ∃ task, Task.empty.addDecl (.dprop .pgoal ⟨⟨0⟩⟩ (.ttrue [])) = .ok task ∧
      task.findGoal.isSome = true ∧
      (bisectStep task).run (fun _ => true) = .error .invalidArgument ∧ ¬ BisectsMinimal task := by
  refine ⟨_, rfl, rfl, ?_, fun h => ?_⟩
  · rw [bisectStep_of_nil rfl rfl]
    rfl
  · obtain ⟨trace, found, hrun, _⟩ := h fun _ => true
    rw [bisectStep_of_nil rfl rfl] at hrun
    cases hrun

end Why3
