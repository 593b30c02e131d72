import Mathlib.Data.Nat.Notation
import Mathlib.Data.List.Basic

/-!
# Resolution of names in nested scopes

A text with block scopes, reduced to the places where it declares or uses a name. A name
stands for what the innermost scope that declares it declares under it. The entity that is
meant by a declaration or a use is written next to the name.

When names are replaced by others, a use resolves if the new name tells the entity apart from
what is declared between the use and the innermost declaration of the entity.
-/

namespace Lib

open List

variable {ν ν' ι : Type}
variable {id : ι} {name : ν}

inductive ScopeEvent (ν ι : Type) where
  | bind (name : ν) (id : ι)
  | use (name : ν) (id : ι)
  | opened
  | closed

/-- The declarations that are visible, innermost scope first. -/
abbrev Scopes (ν ι : Type) := List (List (ν × ι))

def ScopeEvent.map (f : ν → ν') : ScopeEvent ν ι → ScopeEvent ν' ι
  | .bind name id => .bind (f name) id
  | .use name id => .use (f name) id
  | .opened => .opened
  | .closed => .closed

def ScopeEvent.entries : ScopeEvent ν ι → List (ν × ι)
  | .bind name id => [(name, id)]
  | .use name id => [(name, id)]
  | .opened => []
  | .closed => []

namespace Scopes

def bind (scopes : Scopes ν ι) (name : ν) (id : ι) : Scopes ν ι :=
  match scopes with
  | [] => [[(name, id)]]
  | scope :: scopes => ((name, id) :: scope) :: scopes

def declared [DecidableEq ν] (name : ν) : Scopes ν ι → List ι
  | [] => []
  | scope :: scopes =>
    match scope.filter (·.1 = name) with
    | [] => declared name scopes
    | entries => entries.map Prod.snd

def Refers [DecidableEq ν] (scopes : Scopes ν ι) (name : ν) (id : ι) : Prop :=
  scopes.declared name ≠ [] ∧ ∀ id' ∈ scopes.declared name, id' = id

/-- What is declared in the scopes up to the innermost one that declares `id`. -/
def near [DecidableEq ι] (id : ι) : Scopes ν ι → List (ν × ι)
  | [] => []
  | scope :: scopes => if id ∈ scope.map Prod.snd then scope else scope ++ near id scopes

/-- A condition on the visible declarations that holds at each use. -/
def Each (P : Scopes ν ι → ν → ι → Prop) : Scopes ν ι → List (ScopeEvent ν ι) → Prop
  | _, [] => True
  | scopes, .bind name id :: events => Each P (scopes.bind name id) events
  | scopes, .use name id :: events => P scopes name id ∧ Each P scopes events
  | scopes, .opened :: events => Each P ([] :: scopes) events
  | scopes, .closed :: events => Each P scopes.tail events

def Resolves [DecidableEq ν] : Scopes ν ι → List (ScopeEvent ν ι) → Prop := Each Refers

instance [DecidableEq ν] [DecidableEq ι] (scopes : Scopes ν ι) (name : ν) (id : ι) :
    Decidable (scopes.Refers name id) := by
  unfold Refers
  infer_instance

instance decidableEach {P : Scopes ν ι → ν → ι → Prop}
    [∀ scopes name id, Decidable (P scopes name id)] : ∀ (scopes : Scopes ν ι)
    (events : List (ScopeEvent ν ι)), Decidable (Each P scopes events)
  | _, [] => .isTrue trivial
  | scopes, .bind name id :: events => decidableEach (scopes.bind name id) events
  | scopes, .use name id :: events =>
    have := decidableEach (P := P) scopes events
    inferInstanceAs (Decidable (P scopes name id ∧ Each P scopes events))
  | scopes, .opened :: events => decidableEach ([] :: scopes) events
  | scopes, .closed :: events => decidableEach scopes.tail events

instance [DecidableEq ν] [DecidableEq ι] (scopes : Scopes ν ι) (events : List (ScopeEvent ν ι)) :
    Decidable (Resolves scopes events) :=
  inferInstanceAs (Decidable (Each Refers scopes events))

/-! ## Other names -/

def mapNames (f : ν → ν') (scopes : Scopes ν ι) : Scopes ν' ι :=
  scopes.map fun scope => scope.map fun entry => (f entry.1, entry.2)

variable {f : ν → ν'}

theorem mapNames_bind (scopes : Scopes ν ι) (name : ν) (id : ι) :
    (scopes.bind name id).mapNames f = (scopes.mapNames f).bind (f name) id := by
  cases scopes <;> rfl

theorem mapNames_tail (scopes : Scopes ν ι) :
    Scopes.mapNames f scopes.tail = (scopes.mapNames f).tail := by
  cases scopes <;> rfl

theorem mem_flatten_bind {scopes : Scopes ν ι} {entry : ν × ι}
    (h : entry ∈ (scopes.bind name id).flatten) : entry = (name, id) ∨ entry ∈ scopes.flatten := by
  cases scopes with
  | nil => simpa [bind] using h
  | cons scope scopes => simpa [bind, or_assoc] using h

theorem mem_flatten_tail {scopes : Scopes ν ι} {entry : ν × ι}
    (h : entry ∈ (List.tail scopes).flatten) : entry ∈ scopes.flatten := by
  cases scopes with
  | nil => exact h
  | cons scope scopes => exact mem_append_right _ h

theorem mem_flatten_of_mem_near [DecidableEq ι] {scopes : Scopes ν ι} {entry : ν × ι}
    (h : entry ∈ scopes.near id) : entry ∈ scopes.flatten := by
  induction scopes with
  | nil => exact h
  | cons scope scopes ih =>
    rw [near] at h
    rw [flatten_cons, mem_append]
    split at h
    · exact .inl h
    · exact (mem_append.mp h).imp_right ih

/-- The new name stands for `id` if it is that of the near declarations of `id` and of no other
one. -/
theorem refers_mapNames [DecidableEq ν'] [DecidableEq ι] {scopes : Scopes ν ι}
    (hmem : id ∈ (scopes.near id).map Prod.snd)
    (hnear : ∀ entry ∈ scopes.near id, f entry.1 = f name ↔ entry.2 = id) :
    (scopes.mapNames f).Refers (f name) id := by
  induction scopes with
  | nil => cases hmem
  | cons scope scopes ih =>
    have hfilter : (scope.map fun entry => (f entry.1, entry.2)).filter (·.1 = f name) =
        (scope.filter fun entry => f entry.1 = f name).map fun entry => (f entry.1, entry.2) := by
      rw [filter_map]
      rfl
    rw [Refers, mapNames, map_cons, declared, hfilter]
    rw [near] at hmem hnear
    split at hmem
    · next hscope =>
        rw [if_pos hscope] at hnear
        obtain ⟨entry, hentry, hid⟩ := mem_map.mp hscope
        have hin : entry ∈ scope.filter fun entry => f entry.1 = f name := by
          rw [mem_filter, decide_eq_true_eq]
          exact ⟨hentry, (hnear entry hentry).mpr hid⟩
        have hall : ∀ entry ∈ scope.filter fun entry => f entry.1 = f name, entry.2 = id := by
          intro entry h
          rw [mem_filter, decide_eq_true_eq] at h
          exact (hnear entry h.1).mp h.2
        cases hentries : scope.filter fun entry => f entry.1 = f name with
        | nil => simp [hentries] at hin
        | cons entry' entries =>
          rw [hentries] at hall
          refine ⟨by simp, fun id' hid' => ?_⟩
          obtain ⟨x, hx, rfl⟩ := mem_map.mp hid'
          obtain ⟨y, hy, rfl⟩ := mem_map.mp hx
          exact hall y hy
    · next hscope =>
        rw [if_neg hscope] at hnear
        have hnil : scope.filter (fun entry => f entry.1 = f name) = [] := by
          rw [filter_eq_nil_iff]
          intro entry hentry
          rw [decide_eq_true_eq, hnear entry (mem_append_left _ hentry)]
          exact fun hid => hscope (hid ▸ mem_map_of_mem hentry)
        rw [hnil]
        refine ih ?_ fun entry hentry => hnear entry (mem_append_right _ hentry)
        rw [map_append, mem_append] at hmem
        exact hmem.resolve_left hscope

/-- A condition at each use under which the new names resolve. All names that occur are of the kind
`S`. -/
theorem resolves_mapNames [DecidableEq ν'] {P : Scopes ν ι → ν → ι → Prop} {S : ν × ι → Prop}
    (hP : ∀ (scopes : Scopes ν ι) name id, (∀ entry ∈ scopes.flatten, S entry) → S (name, id) →
      P scopes name id → (scopes.mapNames f).Refers (f name) id)
    {events : List (ScopeEvent ν ι)} (hevents : ∀ event ∈ events, ∀ entry ∈ event.entries, S entry)
    (scopes : Scopes ν ι) (hscopes : ∀ entry ∈ scopes.flatten, S entry)
    (h : Each P scopes events) : Resolves (scopes.mapNames f) (events.map (ScopeEvent.map f)) := by
  induction events generalizing scopes with
  | nil => trivial
  | cons event events ih =>
    rw [forall_mem_cons] at hevents
    cases event with
    | bind name id =>
      have hname : S (name, id) := hevents.1 _ (mem_singleton.mpr rfl)
      have hrest := ih hevents.2 (scopes.bind name id)
        (fun entry he => (mem_flatten_bind he).elim (fun heq => heq ▸ hname) (hscopes entry)) h
      rw [mapNames_bind] at hrest
      exact hrest
    | use name id =>
      exact ⟨hP scopes name id hscopes (hevents.1 _ (mem_singleton.mpr rfl)) h.1,
        ih hevents.2 scopes hscopes h.2⟩
    | opened => exact ih hevents.2 ([] :: scopes) hscopes h
    | closed =>
      have hrest := ih hevents.2 scopes.tail
        (fun entry he => hscopes entry (mem_flatten_tail he)) h
      rw [mapNames_tail] at hrest
      exact hrest

end Scopes

end Lib
