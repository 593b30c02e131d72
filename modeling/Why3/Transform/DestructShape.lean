import Why3.Transform.DestructCase

/-!
# The shape of what a formula is split into

Goals arise at the top of the formula only, where implications are taken apart, so that a
new goal is alone in its list.
-/

namespace Why3

open Lib Term List

variable {recursive : Bool} {n n' : ℕ}
variable {l : Parallel} {t t1 t2 : Term}
variable {e : Expansion Term} {acc acc' : ℕ × Parallel}

/-! ## New goals -/

def NoGoal (l : Parallel) : Prop := ∀ x ∈ l, ∀ t, .goalTerm t ∉ x

structure GoalSpec (toplevel : Bool) (l : Parallel) : Prop where
  alone : ∀ x ∈ l, ∀ t, .goalTerm t ∈ x → x = [.goalTerm t]
  noGoal : toplevel = false → NoGoal l

theorem NoGoal.goalSpec (h : NoGoal l) (toplevel : Bool) : GoalSpec toplevel l :=
  ⟨fun x hx t ht => absurd ht (h x hx t), fun _ => h⟩

theorem noGoal_axiomTerm (t : Term) : NoGoal [[.axiomTerm t]] := by simp [NoGoal]

theorem noGoal_map (h : NoGoal l) (hyps : List IsDestructed) (hhyps : ∀ t, .goalTerm t ∉ hyps) :
    NoGoal (l.map (hyps ++ ·)) := by
  refine forall_mem_map.mpr fun x hx t => ?_
  rw [mem_append, not_or]
  exact ⟨hhyps t, h x hx t⟩

theorem noGoal_append {l' : Parallel} (h : NoGoal l) (h' : NoGoal l') : NoGoal (l ++ l') :=
  forall_mem_append.mpr ⟨h, h'⟩

def RecGoals (rec : ℕ → Bool → Term → Except Exn (ℕ × Parallel)) : Prop :=
  ∀ ⦃n n' : ℕ⦄ ⦃toplevel : Bool⦄ ⦃t : Term⦄ ⦃l : Parallel⦄,
    rec n toplevel t = .ok (n', l) → GoalSpec toplevel l

theorem argEquations_noGoal {l1 l2 : List Term} {l : List IsDestructed}
    (h : argEquations l1 l2 = .ok l) : ∀ t, .goalTerm t ∉ l := by
  induction l1 generalizing l2 l with
  | nil =>
    cases l2 with
    | nil =>
      cases h
      simp
    | cons => cases h
  | cons x1 l1 ih =>
    cases l2 with
    | nil => cases h
    | cons x2 l2 =>
      obtain ⟨f, _, l', hl', h⟩ := bind₂_eq_ok.mp h
      cases h
      intro t
      simpa using ih hl' t

theorem destructEquation_noGoal (t : Term) (c1 c2 : LSymbol × List Term) :
    NoGoal (destructEquation t c1 c2) := by
  unfold destructEquation
  split
  · split
    · next l hl => exact forall_mem_singleton.mpr (argEquations_noGoal hl)
    · exact noGoal_axiomTerm t
  · exact noGoal_axiomTerm _

theorem expansionHyps_noGoal {hyps : List IsDestructed} (h : expansionHyps t e = .ok hyps) :
    ∀ u, .goalTerm u ∉ hyps := by
  obtain ⟨eqs, heqs, f, _, h⟩ := bind₂_eq_ok.mp h
  cases h
  have heqs' : ∀ u, .goalTerm u ∉ eqs := by
    intro u hu
    obtain ⟨q, _, hq⟩ := forall₂_mem_right (mapM_eq_ok.mp heqs) hu
    obtain ⟨ld, _, d, _, hq⟩ := bind₂_eq_ok.mp hq
    cases hq
  intro u
  simp [heqs' u]

section Goals

variable {rec : ℕ → Bool → Term → Except Exn (ℕ × Parallel)} (hrec : RecGoals rec)

include hrec

theorem destructFmlaException_goals {toplevel : Bool}
    (h : destructFmlaException recursive rec n toplevel t = .ok (n', l)) : GoalSpec toplevel l := by
  unfold destructFmlaException orAxiom at h
  split at h
  · split at h
    · cases h
    · cases h
      exact (noGoal_axiomTerm t).goalSpec toplevel
    · next r hr =>
        cases h
        exact hrec hr
  · cases h
    exact (noGoal_axiomTerm t).goalSpec toplevel

theorem destructAnd_noGoal (h : destructAnd recursive rec n t1 t2 = .ok (n', l)) : NoGoal l := by
  obtain ⟨⟨n₁, l1⟩, hl1, ⟨n₂, l2⟩, hl2, h⟩ := bind₂_eq_ok.mp h
  cases h
  have h1 := (destructFmlaException_goals hrec hl1).noGoal rfl
  have h2 := (destructFmlaException_goals hrec hl2).noGoal rfl
  intro x hx
  obtain ⟨seq1, hseq1, hx⟩ := mem_flatMap.mp hx
  exact noGoal_map h2 seq1 (h1 seq1 hseq1) x hx

theorem destructOr_noGoal (h : destructOr recursive rec n t1 t2 = .ok (n', l)) : NoGoal l := by
  obtain ⟨⟨n₁, l1⟩, hl1, ⟨n₂, l2⟩, hl2, h⟩ := bind₂_eq_ok.mp h
  cases h
  exact noGoal_append ((destructFmlaException_goals hrec hl1).noGoal rfl)
    ((destructFmlaException_goals hrec hl2).noGoal rfl)

theorem destructImplies_goals (h : destructImplies recursive rec n t1 t2 = .ok (n', l)) :
    GoalSpec true l := by
  obtain ⟨⟨n₁, l2⟩, hl2, h⟩ := bind_eq_ok.mp h
  cases h
  refine ⟨forall_mem_cons.mpr ⟨?_, (destructFmlaException_goals hrec hl2).alone⟩, by simp⟩
  intro t ht
  rw [mem_singleton] at ht
  rw [ht]

theorem destructIf_noGoal {t3 : Term} (h : destructIf recursive rec n t1 t2 t3 = .ok (n', l)) :
    NoGoal l := by
  obtain ⟨⟨n₁, l2⟩, hl2, ⟨n₂, l3⟩, hl3, t1', _, h⟩ := bind₃_eq_ok.mp h
  cases h
  exact noGoal_append
    (noGoal_map ((destructFmlaException_goals hrec hl2).noGoal rfl) [_] (by simp))
    (noGoal_map ((destructFmlaException_goals hrec hl3).noGoal rfl) [_] (by simp))

theorem destructExists_noGoal {vl : List VSymbol} {trl : List (List Term)} {f : Term}
    (h : destructExists recursive rec n vl trl f = .ok (n', l)) : NoGoal l := by
  obtain ⟨⟨ls, newT⟩, _, ⟨n₁, l'⟩, hl', h⟩ := bind₂_eq_ok.mp h
  cases h
  exact noGoal_map ((destructFmlaException_goals hrec hl').noGoal rfl) [_] (by simp)

theorem destructExpansion_noGoal {rhs : Term} (hacc : NoGoal acc.2)
    (h : destructExpansion recursive rec t rhs acc e = .ok acc') : NoGoal acc'.2 := by
  obtain ⟨mp, _, rhs', _, ⟨m', l⟩, hl, h⟩ := bind₃_eq_ok.mp h
  have hgoal := (destructFmlaException_goals hrec hl).noGoal rfl
  cases l with
  | nil =>
    cases h
    exact noGoal_append hacc hgoal
  | cons x l =>
    obtain ⟨hyps, hhyps, h⟩ := bind_eq_ok.mp h
    cases h
    exact noGoal_append hacc (noGoal_map hgoal hyps (expansionHyps_noGoal hhyps))

theorem destructBranch_noGoal {b : Pattern × Term} (hacc : NoGoal acc.2)
    (h : destructBranch recursive rec t acc b = .ok acc') : NoGoal acc'.2 := by
  obtain ⟨⟨m, es⟩, _, h⟩ := bind_eq_ok.mp h
  dsimp only at h
  refine foldlM_invariant (P := fun acc : ℕ × Parallel => NoGoal acc.2) ?_ (by exact hacc) h
  exact fun _ _ _ hacc hstep => destructExpansion_noGoal hrec hacc hstep

end Goals

theorem destructFmla_goals (recursive : Bool) : ∀ fuel, RecGoals (destructFmla recursive fuel)
  | 0 => fun _ _ _ _ _ h => by cases h
  | fuel + 1 => by
    have hrec := destructFmla_goals recursive fuel
    intro n n' toplevel t l h
    cases t with
    | tfalse a | ttrue a =>
      cases h
      exact ⟨by simp, by simp [NoGoal]⟩
    | tapp a ls tl ty =>
      rw [destructFmla] at h
      split at h
      · cases h
        exact (destructEquation_noGoal _ _ _).goalSpec toplevel
      · cases h
    | tif a t1 t2 t3 => exact (destructIf_noGoal hrec h).goalSpec toplevel
    | tcase a t tbs =>
      rw [destructFmla] at h
      split at h
      · refine NoGoal.goalSpec ?_ toplevel
        refine foldlM_invariant (P := fun acc : ℕ × Parallel => NoGoal acc.2) ?_
          (by simp [NoGoal]) h
        exact fun _ _ _ hacc hstep => destructBranch_noGoal hrec hacc hstep
      · cases h
    | tquant a q vl trl f =>
      cases q with
      | texists => exact (destructExists_noGoal hrec h).goalSpec toplevel
      | tforall => cases h
    | tbinop a op t1 t2 =>
      cases op with
      | tand => exact (destructAnd_noGoal hrec h).goalSpec toplevel
      | tor => exact (destructOr_noGoal hrec h).goalSpec toplevel
      | timplies =>
        rw [destructFmla] at h
        split at h
        · next htop =>
            rw [htop]
            exact destructImplies_goals hrec h
        · cases h
      | tiff => cases h
    | tnot a t1 =>
      rw [destructFmla] at h
      split at h
      · cases h
        refine NoGoal.goalSpec ?_ toplevel
        split
        · exact noGoal_axiomTerm _
        · simp [NoGoal]
      · obtain ⟨f, _, h⟩ := bind_eq_ok.mp h
        exact destructFmlaException_goals hrec h
    | _ => cases h

end Why3
