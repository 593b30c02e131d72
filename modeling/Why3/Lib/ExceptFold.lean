import Mathlib.Data.List.Forall2

/-!
# Folds that may fail

Facts about `List.foldlM` in the exception monad. A fold that succeeds has taken
one successful step for every element of its list, and every relation that is
kept by the single steps relates the states before and after each of them.
-/

namespace Lib

open List

universe u

variable {ε : Type*}

section

variable {α β γ δ : Type u} {x : Except ε α} {f : α → Except ε β} {g : α → β → Except ε γ}
variable {k : α → β → γ → Except ε δ} {e : ε}

theorem bind_eq_ok {b : β} : (x >>= f) = .ok b ↔ ∃ a, x = .ok a ∧ f a = .ok b := by
  cases x with
  | error e | ok a => simp [bind, Except.bind]

theorem bind₂_eq_ok {c : γ} : (x >>= fun a => f a >>= g a) = .ok c ↔
    ∃ a, x = .ok a ∧ ∃ b, f a = .ok b ∧ g a b = .ok c := by
  simp only [bind_eq_ok]

theorem bind₃_eq_ok {d : δ} : (x >>= fun a => f a >>= fun b => g a b >>= k a b) = .ok d ↔
    ∃ a, x = .ok a ∧ ∃ b, f a = .ok b ∧ ∃ c, g a b = .ok c ∧ k a b c = .ok d := by
  simp only [bind_eq_ok]

theorem bind_eq_error : x >>= f = .error e ↔ x = .error e ∨ ∃ a, x = .ok a ∧ f a = .error e := by
  cases x with
  | error e' | ok a => simp [bind, Except.bind]

theorem error_of_bind (h : x >>= f = .error e) (hf : ∀ a, f a ≠ .error e) : x = .error e :=
  (bind_eq_error.mp h).resolve_right fun ⟨a, _, ha⟩ => hf a ha

theorem except_bind_congr {f' : α → Except ε β} (h : ∀ a, x = .ok a → f a = f' a) :
    (x >>= f) = (x >>= f') := by
  cases x with
  | error e => rfl
  | ok a => exact h a rfl

end

variable {σ β : Type*} {l : List β}

section

variable {f : σ → β → Except ε σ} {b : β} {s s' : σ}

theorem foldlM_nil_eq_ok : ([] : List β).foldlM f s = .ok s' ↔ s = s' := by
  simp [pure, Except.pure]

theorem foldlM_cons_eq_ok :
    (b :: l).foldlM f s = .ok s' ↔ ∃ t, f s b = .ok t ∧ l.foldlM f t = .ok s' := by
  rw [foldlM_cons, bind_eq_ok]

theorem foldlM_append_eq_ok {l' : List β} :
    (l ++ l').foldlM f s = .ok s' ↔ ∃ t, l.foldlM f s = .ok t ∧ l'.foldlM f t = .ok s' := by
  rw [foldlM_append, bind_eq_ok]

theorem foldlM_concat_eq_ok :
    (l ++ [b]).foldlM f s = .ok s' ↔ ∃ t, l.foldlM f s = .ok t ∧ f t b = .ok s' := by
  simp only [foldlM_append_eq_ok, foldlM_cons_eq_ok, foldlM_nil_eq_ok, exists_eq_right]

/-- A relation that every step keeps is kept by the whole fold, and the step
taken at each element of the list lies between the first and the last state. -/
theorem foldlM_steps {R : σ → σ → Prop} (s₀ : σ) (hrefl : ∀ s, R s s)
    (htrans : ∀ s t u, R s t → R t u → R s u) :
    ∀ (l : List β) (s s' : σ), R s₀ s →
      (∀ b ∈ l, ∀ t t', R s₀ t → f t b = .ok t' → R t t') →
      l.foldlM f s = .ok s' →
      R s s' ∧ ∀ b ∈ l, ∃ t t', R s t ∧ f t b = .ok t' ∧ R t' s'
  | [], s, s', _, _, h => by
    rw [foldlM_nil_eq_ok] at h
    subst h
    exact ⟨hrefl s, fun b hb => absurd hb (by simp)⟩
  | b :: l, s, s', h₀, hstep, h => by
    obtain ⟨t, ht, hl⟩ := foldlM_cons_eq_ok.mp h
    have hst : R s t := hstep b (by simp) s t h₀ ht
    have h₀t : R s₀ t := htrans s₀ s t h₀ hst
    have hstep' : ∀ b ∈ l, ∀ t t', R s₀ t → f t b = .ok t' → R t t' :=
      fun b' hb' => hstep b' (mem_cons_of_mem b hb')
    obtain ⟨hts', hall⟩ := foldlM_steps s₀ hrefl htrans l t s' h₀t hstep' hl
    refine ⟨htrans s t s' hst hts', ?_⟩
    intro b' hb'
    rcases mem_cons.mp hb' with rfl | hmem
    · exact ⟨s, t, hrefl s, ht, hts'⟩
    · obtain ⟨u, u', hu, hf, hu'⟩ := hall b' hmem
      exact ⟨u, u', htrans s t u hst hu, hf, hu'⟩

theorem foldlM_invariant {P : σ → Prop} (hstep : ∀ s b s', P s → f s b = .ok s' → P s')
    (hs : P s) (h : l.foldlM f s = .ok s') : P s' := by
  induction l generalizing s with
  | nil =>
    rw [foldlM_nil_eq_ok] at h
    exact h ▸ hs
  | cons b l ih =>
    obtain ⟨s₁, hb, hl⟩ := foldlM_cons_eq_ok.mp h
    exact ih (hstep s b s₁ hs hb) hl

theorem foldlM_ok {P : σ → Prop} (hstep : ∀ s, P s → ∀ b ∈ l, ∃ s', f s b = .ok s' ∧ P s')
    (hs : P s) : ∃ s', l.foldlM f s = .ok s' ∧ P s' := by
  induction l generalizing s with
  | nil => exact ⟨s, foldlM_nil_eq_ok.mpr rfl, hs⟩
  | cons b l ih =>
    obtain ⟨t, ht, hPt⟩ := hstep s hs b mem_cons_self
    obtain ⟨s', hs', hP⟩ := ih (fun s hs b hb => hstep s hs b (mem_cons_of_mem _ hb)) hPt
    exact ⟨s', foldlM_cons_eq_ok.mpr ⟨t, ht, hs'⟩, hP⟩

theorem foldlM_congr {g : σ → β → Except ε σ} (h : ∀ b ∈ l, ∀ s, f s b = g s b) (s : σ) :
    l.foldlM f s = l.foldlM g s := by
  induction l generalizing s with
  | nil => rfl
  | cons b l ih =>
    rw [forall_mem_cons] at h
    rw [foldlM_cons, foldlM_cons, h.1 s]
    exact congrArg _ (funext fun s' => ih h.2 s')

/-- What every successful step says about its element holds of the whole list. -/
theorem foldlM_forall {P : β → Prop} (hstep : ∀ t b t', f t b = .ok t' → P b)
    (h : l.foldlM f s = .ok s') : ∀ b ∈ l, P b := by
  have hsteps := foldlM_steps (R := fun _ _ => True) s (fun _ => trivial)
    (fun _ _ _ _ _ => trivial) l s s' trivial (fun _ _ _ _ _ _ => trivial) h
  intro b hb
  obtain ⟨t, t', _, hf, _⟩ := hsteps.2 b hb
  exact hstep t b t' hf

end

theorem forM_cons_eq (f : β → Except ε PUnit) (b : β) (l : List β) :
    (b :: l).forM f = (f b >>= fun _ => l.forM f) := by
  rw [forM_eq_forM, forM_cons]

theorem forM_append_eq (f : β → Except ε PUnit) (l l' : List β) :
    (l ++ l').forM f = (l.forM f >>= fun _ => l'.forM f) := by
  rw [forM_eq_forM, forM_append]

theorem forM_flatMap {γ : Type*} (f : γ → Except ε PUnit) (g : β → List γ) (l : List β) :
    (l.flatMap g).forM f = l.forM fun b => (g b).forM f := by
  induction l with
  | nil => rfl
  | cons b l ih => rw [flatMap_cons, forM_append_eq, ih, forM_cons_eq]

theorem forM_congr {f g : β → Except ε PUnit} (h : ∀ b ∈ l, f b = g b) : l.forM f = l.forM g := by
  induction l with
  | nil => rfl
  | cons b l ih =>
    rw [forall_mem_cons] at h
    rw [forM_cons_eq, forM_cons_eq, h.1, ih h.2]

/-- A sequence of checks fails with the error of one of them, or none fails. -/
theorem forM_cases (f : β → Except ε PUnit) (l : List β) :
    (l.forM f = .ok ⟨⟩ ∧ ∀ b ∈ l, f b = .ok ⟨⟩) ∨
      ∃ b ∈ l, ∃ e, f b = .error e ∧ l.forM f = .error e := by
  induction l with
  | nil => exact .inl ⟨rfl, by simp⟩
  | cons b l ih =>
    rw [forM_cons_eq]
    cases hb : f b with
    | error e => exact .inr ⟨b, mem_cons_self, e, hb, rfl⟩
    | ok u =>
      rcases ih with ⟨hok, hall⟩ | ⟨b', hb', e, he, hl⟩
      · exact .inl ⟨hok, forall_mem_cons.mpr ⟨hb, hall⟩⟩
      · exact .inr ⟨b', mem_cons_of_mem b hb', e, he, hl⟩

theorem forM_eq_ok {f : β → Except ε PUnit} : l.forM f = .ok ⟨⟩ ↔ ∀ b ∈ l, f b = .ok ⟨⟩ := by
  induction l with
  | nil => simp [pure, Except.pure]
  | cons b l ih =>
    rw [forM_eq_forM, forM_cons, bind_eq_ok]
    rw [forM_eq_forM] at ih
    rw [forall_mem_cons, ← ih]
    exact ⟨fun ⟨⟨⟩, hb, hl⟩ => ⟨hb, hl⟩, fun ⟨hb, hl⟩ => ⟨⟨⟩, hb, hl⟩⟩

section

variable {γ : Type u} {f : β → Except ε γ}

theorem mapM_eq_ok {l' : List γ} : l.mapM f = .ok l' ↔ Forall₂ (fun b c => f b = .ok c) l l' := by
  induction l generalizing l' with
  | nil =>
    rw [mapM_nil, forall₂_nil_left_iff]
    exact ⟨fun h => (Except.ok.inj h).symm, fun h => h ▸ rfl⟩
  | cons b l ih =>
    rw [mapM_cons, bind_eq_ok, forall₂_cons_left_iff]
    constructor
    · rintro ⟨c, hc, h⟩
      obtain ⟨l'', hl, h⟩ := bind_eq_ok.mp h
      exact ⟨c, l'', hc, ih.mp hl, (Except.ok.inj h).symm⟩
    · rintro ⟨c, l'', hc, hl, rfl⟩
      exact ⟨c, hc, bind_eq_ok.mpr ⟨l'', ih.mpr hl, rfl⟩⟩

theorem mapM_total (h : ∀ b ∈ l, ∃ c, f b = .ok c) : ∃ l', l.mapM f = .ok l' := by
  induction l with
  | nil => exact ⟨[], rfl⟩
  | cons b l ih =>
    rw [forall_mem_cons] at h
    obtain ⟨c, hc⟩ := h.1
    obtain ⟨l', hl'⟩ := ih h.2
    exact ⟨c :: l', mapM_eq_ok.mpr (.cons hc (mapM_eq_ok.mp hl'))⟩

theorem mapM_ok {R : β → γ → Prop} (h : ∀ b ∈ l, ∃ c, f b = .ok c ∧ R b c) :
    ∃ l', l.mapM f = .ok l' ∧ Forall₂ R l l' := by
  obtain ⟨l', hl'⟩ := mapM_total fun b hb => (h b hb).imp fun _ hc => hc.1
  refine ⟨l', hl', forall₂_iff_get.mpr ⟨(mapM_eq_ok.mp hl').length_eq, fun i hi hi' => ?_⟩⟩
  obtain ⟨c, hc, hR⟩ := h (l.get ⟨i, hi⟩) (get_mem ..)
  have hget := (forall₂_iff_get.mp (mapM_eq_ok.mp hl')).2 i hi hi'
  rw [hc] at hget
  exact Except.ok.inj hget ▸ hR

end

variable {γ : Type*} {R : β → γ → Prop} {l' : List γ}

theorem forall₂_mem_left (h : Forall₂ R l l') {b : β} (hb : b ∈ l) : ∃ c ∈ l', R b c := by
  induction h with
  | nil => exact absurd hb not_mem_nil
  | cons hhead _ ih =>
    rcases mem_cons.mp hb with rfl | hb
    · exact ⟨_, mem_cons_self, hhead⟩
    · obtain ⟨c, hc, hR⟩ := ih hb
      exact ⟨c, mem_cons_of_mem _ hc, hR⟩

theorem forall₂_mem_right (h : Forall₂ R l l') {c : γ} (hc : c ∈ l') : ∃ b ∈ l, R b c :=
  forall₂_mem_left h.flip hc

theorem forall₂_and_mem (h : Forall₂ R l l') :
    Forall₂ (fun b c => b ∈ l ∧ c ∈ l' ∧ R b c) l l' := by
  induction h with
  | nil => exact .nil
  | cons hhead _ ih =>
    exact .cons ⟨mem_cons_self, mem_cons_self, hhead⟩
      (ih.imp fun _ _ h => ⟨.tail _ h.1, .tail _ h.2.1, h.2.2⟩)

theorem forall₂_comp {δ : Type*} {R' : γ → δ → Prop} {R'' : β → δ → Prop}
    (h : ∀ b c d, R b c → R' c d → R'' b d) {l'' : List δ} (hl : Forall₂ R l l') (hl' : Forall₂ R' l' l'') : Forall₂ R'' l l'' := by
  induction hl generalizing l'' with
  | nil =>
    cases hl'
    exact .nil
  | cons hhead _ ih =>
    cases hl' with
    | cons hhead' htail => exact .cons (h _ _ _ hhead hhead') (ih htail)

end Lib
