import Mathlib.Data.Set.Basic

/-!
# Nondeterministic computations with numbered outcomes

A computation is the set of the ways in which it can end: it fails, it halts, or it
ends with a numbered outcome in some state. Computations are composed by `bind`,
which goes on from every outcome and keeps failures and halts.
-/

namespace Lib

inductive Outcome (σ : Type*) where
  | fail
  | halt
  | done (i : ℕ) (s : σ)

abbrev Comp (σ : Type*) := Set (Outcome σ)

namespace Comp

variable {σ : Type*}
variable {c : Comp σ} {o : Outcome σ} {i j : ℕ} {f : ℕ → σ → Comp σ}

def pure (i : ℕ) (s : σ) : Comp σ := {.done i s}

def bind (c : Comp σ) (f : ℕ → σ → Comp σ) : Comp σ :=
  {o | (o ∈ c ∧ ∀ i s, o ≠ .done i s) ∨ ∃ i s, .done i s ∈ c ∧ o ∈ f i s}

def handle (i : ℕ) (f : σ → Comp σ) (j : ℕ) (s : σ) : Comp σ :=
  if j = i then f s else pure j s

def Avoids (c : Comp σ) (i : ℕ) : Prop := ∀ s, Outcome.done i s ∉ c

@[simp] theorem mem_pure {s : σ} : o ∈ pure i s ↔ o = .done i s := Iff.rfl

@[simp] theorem fail_mem_bind :
    .fail ∈ bind c f ↔ .fail ∈ c ∨ ∃ i s, .done i s ∈ c ∧ .fail ∈ f i s := by
  simp [bind]

@[simp] theorem halt_mem_bind :
    .halt ∈ bind c f ↔ .halt ∈ c ∨ ∃ i s, .done i s ∈ c ∧ .halt ∈ f i s := by
  simp [bind]

@[simp] theorem done_mem_bind {t : σ} :
    .done j t ∈ bind c f ↔ ∃ i s, .done i s ∈ c ∧ .done j t ∈ f i s := by
  simp [bind]

@[simp] theorem handle_self (i : ℕ) (f : σ → Comp σ) (s : σ) : handle i f i s = f s := by
  simp [handle]

theorem handle_of_ne (h : j ≠ i) (f : σ → Comp σ) (s : σ) : handle i f j s = pure j s := by
  simp [handle, h]

@[ext] theorem ext {d : Comp σ} (hfail : .fail ∈ c ↔ .fail ∈ d) (hhalt : .halt ∈ c ↔ .halt ∈ d)
    (hdone : ∀ i s, .done i s ∈ c ↔ .done i s ∈ d) : c = d := by
  apply Set.ext
  intro o
  cases o with
  | fail => exact hfail
  | halt => exact hhalt
  | done i s => exact hdone i s

@[simp] theorem pure_bind (i : ℕ) (s : σ) (f : ℕ → σ → Comp σ) : bind (pure i s) f = f i s := by
  apply Set.ext
  intro o
  constructor
  · rintro (⟨rfl, hne⟩ | ⟨j, t, h, h'⟩)
    · exact absurd rfl (hne i s)
    · cases h
      exact h'
  · exact fun h => .inr ⟨i, s, rfl, h⟩

@[simp] theorem bind_pure (c : Comp σ) : bind c pure = c := by
  apply ext
  · simp
  · simp
  · intro i s
    rw [done_mem_bind]
    constructor
    · rintro ⟨j, t, h, heq⟩
      cases heq
      exact h
    · exact fun h => ⟨i, s, h, rfl⟩

theorem bind_assoc (c : Comp σ) (f g : ℕ → σ → Comp σ) :
    bind (bind c f) g = bind c fun i s => bind (f i s) g := by
  apply Set.ext
  intro o
  constructor
  · rintro (⟨⟨h, _⟩ | ⟨i, s, h, h'⟩, hne⟩ | ⟨j, t, ⟨_, hne⟩ | ⟨i, s, h, h'⟩, h''⟩)
    · exact .inl ⟨h, hne⟩
    · exact .inr ⟨i, s, h, .inl ⟨h', hne⟩⟩
    · exact absurd rfl (hne j t)
    · exact .inr ⟨i, s, h, .inr ⟨j, t, h', h''⟩⟩
  · rintro (⟨h, hne⟩ | ⟨i, s, h, ⟨h', hne⟩ | ⟨j, t, h', h''⟩⟩)
    · exact .inl ⟨.inl ⟨h, hne⟩, hne⟩
    · exact .inl ⟨.inr ⟨i, s, h, h'⟩, hne⟩
    · exact .inr ⟨j, t, .inr ⟨i, s, h, h'⟩, h''⟩

theorem bind_congr {g : ℕ → σ → Comp σ} (h : ∀ i s, .done i s ∈ c → f i s = g i s) :
    bind c f = bind c g := by
  apply Set.ext
  intro o
  refine or_congr Iff.rfl ?_
  refine exists_congr fun i => exists_congr fun s => and_congr_right fun hmem => ?_
  rw [h i s hmem]

theorem bind_union (c d : Comp σ) (f : ℕ → σ → Comp σ) : bind (c ∪ d) f = bind c f ∪ bind d f := by
  ext <;> simp only [fail_mem_bind, halt_mem_bind, done_mem_bind, Set.mem_union] <;> grind

theorem bind_eq_self (h : ∀ i s, .done i s ∈ c → f i s = pure i s) : bind c f = c := by
  rw [bind_congr h, bind_pure]

theorem bind_handle_of_avoids (h : c.Avoids i) (f : σ → Comp σ) : bind c (handle i f) = c := by
  apply bind_eq_self
  intro j s hj
  apply handle_of_ne
  rintro rfl
  exact h s hj

/-- An end of a computation that is not handled is an end of the whole. -/
theorem mem_bind_handle_of_ne {f : σ → Comp σ} (h : o ∈ c) (hne : ∀ s, o ≠ .done i s) :
    o ∈ bind c (handle i f) := by
  cases o with
  | fail => exact fail_mem_bind.mpr (.inl h)
  | halt => exact halt_mem_bind.mpr (.inl h)
  | done j s =>
    refine done_mem_bind.mpr ⟨j, s, h, ?_⟩
    rw [handle_of_ne (fun hj => hne s (by rw [hj]))]
    exact rfl

theorem mem_bind_handle_imp {f g : σ → Comp σ} (h : o ∈ bind c (handle i f))
    (hfg : ∀ s, .done i s ∈ c → o ∈ f s → o ∈ g s) : o ∈ bind c (handle i g) := by
  rcases h with h | ⟨j, s, hs, h⟩
  · exact .inl h
  · refine .inr ⟨j, s, hs, ?_⟩
    by_cases hj : j = i
    · subst hj
      rw [handle_self] at h ⊢
      exact hfg s hs h
    · rw [handle_of_ne hj] at h ⊢
      exact h

theorem done_mem_bind_handle {f : σ → Comp σ} {t : σ} (h : .done i t ∈ bind c (handle i f)) :
    ∃ s, .done i s ∈ c ∧ .done i t ∈ f s := by
  obtain ⟨j, s, hs, h⟩ := done_mem_bind.mp h
  by_cases hj : j = i
  · subst hj
    rw [handle_self] at h
    exact ⟨s, hs, h⟩
  · rw [handle_of_ne hj] at h
    cases h
    exact absurd rfl hj

theorem Avoids.pure (h : j ≠ i) (s : σ) : (pure j s).Avoids i := by
  intro t ht
  cases ht
  exact h rfl

theorem Avoids.bind (h : ∀ j s, .done j s ∈ c → (f j s).Avoids i) : (c.bind f).Avoids i := by
  intro t ht
  obtain ⟨j, s, hj, ht⟩ := done_mem_bind.mp ht
  exact h j s hj t ht

/-! ## Loops

A loop visits heads. From a head it can leave by one of the exits, or run an
iteration; an iteration that ends normally leads to the next head, and every other
end of an iteration is an end of the loop. -/

section Loop

variable {α : Type*} (iter exit : α → Comp σ) (next : α → σ → α)

inductive Heads (a : α) : α → Prop where
  | start : Heads a a
  | step {b : α} {s : σ} (hb : Heads a b) (hs : .done 0 s ∈ iter b) : Heads a (next b s)

def loop (a : α) : Comp σ :=
  {o | ∃ b, Heads iter next a b ∧ (o ∈ exit b ∨ o ∈ iter b ∧ ∀ s, o ≠ .done 0 s)}

variable {iter exit next}

/-- What holds at the first head and is kept by iterations holds at every head. -/
theorem Heads.invariant {J : α → Prop} {a b : α} (hb : Heads iter next a b) (ha : J a)
    (hstep : ∀ b s, J b → .done 0 s ∈ iter b → J (next b s)) : J b := by
  induction hb with
  | start => exact ha
  | step _ hs ih => exact hstep _ _ ih hs

/-- A computation that has all the ends of exits and iterations has those of the loop. -/
theorem loop_subset {J : α → Prop} {a : α} (ha : J a)
    (hstep : ∀ b s, J b → .done 0 s ∈ iter b → J (next b s)) (hexit : ∀ b, J b → exit b ⊆ c)
    (hiter : ∀ b, J b → ∀ o ∈ iter b, (∀ s, o ≠ .done 0 s) → o ∈ c) :
    loop iter exit next a ⊆ c := by
  rintro o ⟨b, hb, h⟩
  have hJ := hb.invariant ha hstep
  rcases h with h | ⟨h, hne⟩
  · exact hexit b hJ h
  · exact hiter b hJ o h hne

end Loop

end Comp

end Lib
