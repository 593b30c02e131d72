import Why3.Extract.CPrint

/-!
# When names in printed C resolve

There is one table of names for functions and types, and another one for variables and constants,
which is new in each definition. A table gives an identifier the wanted name with the first number
that is free, so the name depends on the identifiers that the table has named before. Names of one
table are different. So the names resolve if, between a use and the declaration that is meant, no
identifier of another table may be given the name.
-/

namespace Why3

open List

/-! ## The first free number -/

section First

variable {indices indices' : Indices} {name given : Text}

/-- All numbers up to the last one that was appended to a name are in use. -/
def Full (indices : Indices) : Prop :=
  ∀ name v, indices.lookup name = some v → ∀ j ≤ v, specname name j ∈ indices

theorem advance_used {fuel ind ind' : ℕ} (h : advance indices name fuel ind = some ind') {j : ℕ}
    (hj : ind ≤ j) (hj' : j < ind') : specname name j ∈ indices := by
  induction fuel generalizing ind with
  | zero => cases h
  | succ fuel ih =>
    rw [advance] at h
    split at h
    · next hused =>
        rcases hj.eq_or_lt with rfl | hj
        · exact testname_iff.mp hused
        · exact ih h hj
    · cases h
      exact absurd hj' hj.not_gt

theorem fetch_used {v ind : ℕ} (hv : ∀ j ≤ v, specname name j ∈ indices)
    (h : fetch indices name (v + 1) = some ind) : ∀ j < ind, specname name j ∈ indices := by
  rw [fetch] at h
  split at h
  · next hused =>
      intro j hj
      rcases lt_trichotomy j (v + 1) with hlt | rfl | hgt
      · exact hv j (Nat.le_of_lt_succ hlt)
      · exact testname_iff.mp hused
      · exact advance_used h hgt hj
  · have hretreat : retreat indices name (v + 1) = v + 1 := by
      cases v with
      | zero => rfl
      | succ v => rw [retreat, if_pos (testname_iff.mpr (hv (v + 1) le_rfl))]
    rw [hretreat] at h
    cases h
    exact fun j hj => hv j (Nat.le_of_lt_succ hj)

theorem Full.insert_zero (hfull : Full indices) (hname : name ∉ indices) :
    Full (indices.insert name 0) := by
  intro s v hv j hj
  by_cases hs : s = name
  · subst hs
    rw [AList.lookup_insert] at hv
    cases hv
    rw [Nat.le_zero.mp hj, specname_zero, AList.mem_insert]
    exact .inl rfl
  · rw [AList.lookup_insert_ne hs] at hv
    rw [AList.mem_insert]
    exact .inr (hfull s v hv j hj)

/-- A table gives the wanted name with the first number that is free. -/
theorem Full.findUnique (hfull : Full indices)
    (h : findUnique indices name = some (indices', given)) :
    Full indices' ∧ ∃ i, given = specname name i ∧ ∀ j < i, specname name j ∈ indices := by
  obtain ⟨indices₁, name₁, h₁, hfree, -, hmem⟩ := findUnique_spec indices name
  rw [h] at h₁
  obtain ⟨rfl, rfl⟩ := Prod.mk.inj (Option.some.inj h₁)
  rw [Why3.findUnique] at h
  split at h
  · cases h
    exact ⟨hfull.insert_zero hfree, 0, (specname_zero _).symm, by simp⟩
  · next v hv =>
      obtain ⟨ind, hind, h⟩ := Option.bind_eq_some_iff.mp h
      cases h
      have hused := fetch_used (hfull name v hv) hind
      refine ⟨fun s v' hv' j hj => ?_, ind, rfl, hused⟩
      rw [hmem]
      by_cases hs : s = specname name ind
      · subst hs
        rw [AList.lookup_insert] at hv'
        cases hv'
        rw [Nat.le_zero.mp hj, specname_zero]
        exact .inr rfl
      · rw [AList.lookup_insert_ne hs] at hv'
        by_cases hs' : s = name
        · subst hs'
          rw [AList.lookup_insert] at hv'
          cases hv'
          rcases hj.lt_or_eq with hlt | rfl
          · exact .inl (hused j hlt)
          · exact .inr rfl
        · rw [AList.lookup_insert_ne hs'] at hv'
          exact .inl (hfull s v' hv' j hj)

theorem Full.reserve {l : List Text} (hfull : Full indices)
    (h : l.foldlM reserve indices = some indices') : Full indices' := by
  induction l generalizing indices with
  | nil =>
    cases h
    exact hfull
  | cons name l ih =>
    rw [foldlM_cons] at h
    obtain ⟨indices₁, hfind, h⟩ := Option.bind_eq_some_iff.mp h
    obtain ⟨p, hp, rfl⟩ := Option.map_eq_some_iff.mp hfind
    exact ih (hfull.findUnique hp).1 h

end First

namespace C

open Lib

def wanted (idString : Ident → Text) (id : Ident) : Text := sanitizer (idString id)

/-! ## The names of a table -/

section Table

variable (start : Indices) (want : Ident → Text)

/-- The table after it has named the identifiers of a list, the last one first. -/
def tableAfter : List Ident → Indices
  | [] => start
  | id :: l =>
    match findUnique (tableAfter l) (want id) with
    | some (indices, _) => indices
    | none => tableAfter l

def nameAfter (l : List Ident) (id : Ident) : Text :=
  match findUnique (tableAfter start want l) (want id) with
  | some (_, name) => name
  | none => want id

theorem findUnique_tableAfter (l : List Ident) (id : Ident) :
    findUnique (tableAfter start want l) (want id) =
      some (tableAfter start want (id :: l), nameAfter start want l id) := by
  obtain ⟨indices, name, h, -⟩ := findUnique_spec (tableAfter start want l) (want id)
  rw [tableAfter, nameAfter, h]

theorem nameAfter_notMem (l : List Ident) (id : Ident) :
    nameAfter start want l id ∉ tableAfter start want l := by
  obtain ⟨indices, name, h, hfree, -⟩ := findUnique_spec (tableAfter start want l) (want id)
  rw [findUnique_tableAfter] at h
  cases h
  exact hfree

theorem nameAfter_mem {l l' : List Ident} {id : Ident} (h : (id :: l) <:+ l') :
    nameAfter start want l id ∈ tableAfter start want l' := by
  induction l' with
  | nil => simp at h
  | cons x l' ih =>
    obtain ⟨indices, name, hfind, -, -, hmem⟩ := findUnique_spec (tableAfter start want l') (want x)
    rw [findUnique_tableAfter] at hfind
    cases hfind
    rw [hmem]
    rcases suffix_cons_iff.mp h with heq | h
    · cases heq
      exact .inr rfl
    · exact .inl (ih h)

def MayUse : List Ident → Text → Prop
  | [], name => name ∈ start
  | id :: l, name => MayUse l name ∨
    ∃ i, name = specname (want id) i ∧ ∀ j < i, MayUse l (specname (want id) j)

variable {start want}

theorem full_tableAfter (hfull : Full start) : ∀ l, Full (tableAfter start want l)
  | [] => hfull
  | id :: l => ((full_tableAfter hfull l).findUnique (findUnique_tableAfter start want l id)).1

theorem mayUse_of_mem (hfull : Full start) {l : List Ident} {name : Text}
    (h : name ∈ tableAfter start want l) : MayUse start want l name := by
  induction l generalizing name with
  | nil => exact h
  | cons id l ih =>
    obtain ⟨indices, given, hfind, -, -, hmem⟩ :=
      findUnique_spec (tableAfter start want l) (want id)
    obtain ⟨-, i, hi, hused⟩ := (full_tableAfter hfull l).findUnique hfind
    rw [findUnique_tableAfter] at hfind
    cases hfind
    rw [hmem, hi] at h
    exact h.imp ih fun hname => ⟨i, hname, fun j hj => ih (hused j hj)⟩

theorem mem_tableAfter_of_start {l : List Ident} {name : Text} (h : name ∈ start) :
    name ∈ tableAfter start want l := by
  induction l with
  | nil => exact h
  | cons id l ih =>
    obtain ⟨indices, given, hfind, -, -, hmem⟩ :=
      findUnique_spec (tableAfter start want l) (want id)
    rw [findUnique_tableAfter] at hfind
    cases hfind
    exact (hmem name).mpr (.inl ih)

end Table

/-! ## Which table names what -/

/-- A request: the table, which is that of a definition or the common one, the identifier, and those
that the table has named before, the last one first. -/
structure Given where
  table : Option ℕ
  id : Ident
  before : List Ident
  deriving DecidableEq, Repr

structure Tables where
  current : ℕ
  named : Option ℕ → List Ident

def Tables.request (t : Tables) (table : Option ℕ) (id : Ident) : Tables × Given :=
  if id ∈ t.named table then (t, ⟨table, id, ((t.named table).dropWhile (· ≠ id)).tail⟩)
  else ({ t with named := Function.update t.named table (id :: t.named table) },
    ⟨table, id, t.named table⟩)

def givens : Namer Tables Given where
  request
    | t, .localPrinter, id => some (t.request (some t.current) id)
    | t, .globalPrinter, id => some (t.request none id)
  clearLocal t := some { t with current := t.current + 1 }

def newTables : Tables := ⟨0, fun _ => []⟩

def Tables.Has (t : Tables) (g : Given) : Prop :=
  g.id :: g.before <:+ t.named g.table ∧ g.id ∉ g.before

theorem dropWhile_tail {l : List Ident} {id : Ident} (h : id ∈ l) :
    id :: (l.dropWhile (· ≠ id)).tail <:+ l := by
  induction l with
  | nil => cases h
  | cons x l ih =>
    by_cases hx : x = id
    · simp [hx]
    · rw [dropWhile_cons_of_pos (by simpa using hx)]
      exact (ih ((mem_cons.mp h).resolve_left (Ne.symm hx))).trans (suffix_cons x l)

theorem Tables.request_spec (t : Tables) (table : Option ℕ) (id : Ident)
    (hnodup : ∀ table, (t.named table).Nodup) :
    (t.request table id).1.Has (t.request table id).2 ∧ (t.request table id).2.id = id ∧
      (t.request table id).1.current = t.current ∧
      (∀ table', ((t.request table id).1.named table').Nodup) ∧
      (∀ table', t.named table' <:+ (t.request table id).1.named table') ∧
      ∀ table' ≠ table, (t.request table id).1.named table' = t.named table' := by
  unfold Tables.request
  split
  · next h =>
      have hsuffix := dropWhile_tail h
      exact ⟨⟨hsuffix, (nodup_cons.mp ((hnodup table).sublist hsuffix.sublist)).1⟩, rfl, rfl,
        hnodup, fun _ => suffix_rfl, fun _ _ => rfl⟩
  · next h =>
      refine ⟨⟨by simp, h⟩, rfl, rfl, fun table' => ?_, fun table' => ?_, fun table' hne => ?_⟩
      · by_cases heq : table' = table
        · simpa [heq] using ⟨h, hnodup table⟩
        · simpa [heq] using hnodup table'
      · by_cases heq : table' = table
        · subst heq
          simp
        · simp [heq]
      · simp [hne]

section Names

variable {start : Indices} {want : Ident → Text} {t t' : Tables} {g g' : Given}

variable (start want) in
def nameOf (g : Given) : Text := nameAfter start want g.before g.id

theorem nameOf_eq_iff (h : t.Has g) (h' : t.Has g') (htable : g'.table = g.table) :
    nameOf start want g' = nameOf start want g ↔ g'.id = g.id := by
  -- the later one of two requests knows the other name
  have hlater : ∀ {g g' : Given}, g.id ∉ g.before → g'.id :: g'.before <:+ g.id :: g.before →
      (nameOf start want g' = nameOf start want g ↔ g'.id = g.id) := by
    intro g g' hnot hsuffix
    rcases suffix_cons_iff.mp hsuffix with heq | hsuffix
    · obtain ⟨hid, hbefore⟩ := List.cons.inj heq
      exact iff_of_true (by rw [nameOf, nameOf, hid, hbefore]) hid
    · refine iff_of_false (fun heq => ?_) fun hid => hnot (hid ▸ hsuffix.subset mem_cons_self)
      refine nameAfter_notMem start want g.before g.id ?_
      rw [nameOf, nameOf] at heq
      rw [← heq]
      exact nameAfter_mem start want hsuffix
  obtain ⟨hg, hnot⟩ := h
  obtain ⟨hg', hnot'⟩ := h'
  rw [htable] at hg'
  rcases suffix_or_suffix_of_suffix hg hg' with h | h
  · rw [eq_comm, hlater hnot' h, eq_comm]
  · exact hlater hnot h

variable (start want) in
/-- A name that may be given in answer to a request: the wanted one with a number, if all smaller
numbers may be in use. -/
def MayBe (g : Given) (name : Text) : Prop :=
  name ∉ start ∧ ∃ i, name = specname (want g.id) i ∧
    ∀ j < i, MayUse start want g.before (specname (want g.id) j)

variable (want) in
theorem mayBe_nameOf (hfull : Full start) (g : Given) :
    MayBe start want g (nameOf start want g) := by
  obtain ⟨-, i, hi, hused⟩ := (full_tableAfter hfull g.before).findUnique
    (findUnique_tableAfter start want g.before g.id)
  exact ⟨fun h => nameAfter_notMem start want g.before g.id (mem_tableAfter_of_start h), i, hi,
    fun j hj => mayUse_of_mem hfull (hused j hj)⟩

variable (start want) in
/-- A declaration that is no obstacle to a use: it is of the same table, or, whatever names may be
given, they are the same for the same identifier only. -/
def Compatible (g g' : Given) : Prop :=
  g'.table = g.table ∨ ∀ name name', MayBe start want g name → MayBe start want g' name' →
    (name' = name ↔ g'.id = g.id)

theorem Compatible.nameOf_eq_iff (hc : Compatible start want g g') (hfull : Full start)
    (h : t.Has g) (h' : t.Has g') : nameOf start want g' = nameOf start want g ↔ g'.id = g.id := by
  rcases hc with htable | hname
  · exact C.nameOf_eq_iff h h' htable
  · exact hname _ _ (mayBe_nameOf want hfull g) (mayBe_nameOf want hfull g')

def Apart (want : Ident → Text) (id id' : Ident) : Prop :=
  ∀ i j, specname (want id) i ≠ specname (want id') j

theorem compatible_of_apart (h : Apart want g.id g'.id) : Compatible start want g g' := by
  refine .inr fun name name' hg hg' => iff_of_false ?_ fun hid => h 0 0 (by rw [hid])
  obtain ⟨-, i, rfl, -⟩ := hg
  obtain ⟨-, j, rfl, -⟩ := hg'
  exact (h i j).symm

theorem mem_start_of_mayUse {l : List Ident} {id : Ident} (h : ∀ x ∈ l, Apart want id x) {i : ℕ}
    (huse : MayUse start want l (specname (want id) i)) : specname (want id) i ∈ start := by
  induction l with
  | nil => exact huse
  | cons x l ih =>
    rw [forall_mem_cons] at h
    rcases huse with huse | ⟨j, hj, -⟩
    · exact ih h.2 huse
    · exact absurd hj (h.1 i j)

/-- An identifier has one name in tables that have named nothing else of this name before. -/
theorem compatible_of_unnumbered (hid : g'.id = g.id) (h : ∀ x ∈ g.before, Apart want g.id x)
    (h' : ∀ x ∈ g'.before, Apart want g.id x) : Compatible start want g g' := by
  refine .inr fun name name' hg hg' => iff_of_true ?_ hid
  obtain ⟨hfree, i, rfl, hi⟩ := hg
  obtain ⟨hfree', j, rfl, hj⟩ := hg'
  rw [hid] at hfree' hj ⊢
  rcases lt_trichotomy i j with hlt | rfl | hlt
  · exact absurd (mem_start_of_mayUse h' (hj i hlt)) hfree
  · rfl
  · exact absurd (mem_start_of_mayUse h (hi j hlt)) hfree'

end Names

/-! ## Printers answer requests -/

/-- The names that `con` gives are the images of those that `abs` gives, which grows along `le`. -/
structure Namer.Follows {σ τ ν μ : Type} (abs : Namer τ μ) (con : Namer σ ν) (φ : μ → ν)
    (R : τ → σ → Prop) (le : τ → τ → Prop) (V : τ → μ × Ident → Prop) : Prop where
  request : ∀ t s p id, R t s → ∃ t' k s', abs.request t p id = some (t', k) ∧
    con.request s p id = some (s', φ k) ∧ R t' s' ∧ le t t' ∧ V t' (k, id)
  clearLocal : ∀ t s, R t s → ∃ t' s', abs.clearLocal t = some t' ∧
    con.clearLocal s = some s' ∧ R t' s' ∧ le t t'
  refl : ∀ t, le t t
  trans : ∀ t t' t'', le t t' → le t' t'' → le t t''
  mono : ∀ t t' entry, V t entry → le t t' → V t' entry

namespace Namer.Follows

variable {σ τ ν μ : Type} {abs : Namer τ μ} {con : Namer σ ν} {φ : μ → ν} {R : τ → σ → Prop}
  {le : τ → τ → Prop} {V : τ → μ × Ident → Prop}

theorem items (h : abs.Follows con φ R le V) {l : List Item} {t : τ} {s : σ} (hR : R t s) :
    ∃ t' s' events ending, abs.items t l = some (t', events, ending) ∧
      con.items s l = some (s', events.map (ScopeEvent.map φ), ending) ∧ R t' s' ∧ le t t' ∧
      ∀ event ∈ events, ∀ entry ∈ event.entries, V t' entry := by
  induction l generalizing t s with
  | nil => exact ⟨t, s, [], .printed, rfl, rfl, hR, h.refl t, by simp⟩
  | cons item l ih =>
    cases item with
    | write p id =>
      obtain ⟨t₁, k, s₁, ht, hs, hR₁, hle, -⟩ := h.request t s p id hR
      obtain ⟨t', s', events, ending, ht', hs', hR', hle', hV⟩ := ih hR₁
      refine ⟨t', s', events, ending, ?_, ?_, hR', h.trans _ _ _ hle hle', hV⟩
      · simp [Namer.items, ht, ht']
      · simp [Namer.items, hs, hs']
    | bind p id =>
      obtain ⟨t₁, k, s₁, ht, hs, hR₁, hle, hk⟩ := h.request t s p id hR
      obtain ⟨t', s', events, ending, ht', hs', hR', hle', hV⟩ := ih hR₁
      refine ⟨t', s', .bind k id :: events, ending, ?_, ?_, hR', h.trans _ _ _ hle hle', ?_⟩
      · simp [Namer.items, ht, ht']
      · simp [Namer.items, hs, hs', ScopeEvent.map]
      · exact forall_mem_cons.mpr ⟨by simpa [ScopeEvent.entries] using h.mono _ _ _ hk hle', hV⟩
    | use p id =>
      obtain ⟨t₁, k, s₁, ht, hs, hR₁, hle, hk⟩ := h.request t s p id hR
      obtain ⟨t', s', events, ending, ht', hs', hR', hle', hV⟩ := ih hR₁
      refine ⟨t', s', .use k id :: events, ending, ?_, ?_, hR', h.trans _ _ _ hle hle', ?_⟩
      · simp [Namer.items, ht, ht']
      · simp [Namer.items, hs, hs', ScopeEvent.map]
      · exact forall_mem_cons.mpr ⟨by simpa [ScopeEvent.entries] using h.mono _ _ _ hk hle', hV⟩
    | opened =>
      obtain ⟨t', s', events, ending, ht', hs', hR', hle, hV⟩ := ih hR
      refine ⟨t', s', .opened :: events, ending, ?_, ?_, hR', hle, ?_⟩
      · simp [Namer.items, ht']
      · simp [Namer.items, hs', ScopeEvent.map]
      · exact forall_mem_cons.mpr ⟨by simp [ScopeEvent.entries], hV⟩
    | closed =>
      obtain ⟨t', s', events, ending, ht', hs', hR', hle, hV⟩ := ih hR
      refine ⟨t', s', .closed :: events, ending, ?_, ?_, hR', hle, ?_⟩
      · simp [Namer.items, ht']
      · simp [Namer.items, hs', ScopeEvent.map]
      · exact forall_mem_cons.mpr ⟨by simp [ScopeEvent.entries], hV⟩
    | unprinted => exact ⟨t, s, [], .unprinted, rfl, rfl, hR, h.refl t, by simp⟩
    | failed => exact ⟨t, s, [], .failed, rfl, rfl, hR, h.refl t, by simp⟩

theorem globalDefs (h : abs.Follows con φ R le V) (defs : List Definition) {t : τ} {s : σ}
    (hR : R t s) : ∃ t' events, abs.globalDefs t defs = some events ∧
      con.globalDefs s defs = some (events.map (ScopeEvent.map φ)) ∧ le t t' ∧
      ∀ event ∈ events, ∀ entry ∈ event.entries, V t' entry := by
  induction defs generalizing t s with
  | nil => exact ⟨t, [], rfl, rfl, h.refl t, by simp⟩
  | cons d defs ih =>
    obtain ⟨t₁, s₁, ht₁, hs₁, hR₁, hle₁⟩ := h.clearLocal t s hR
    obtain ⟨t₂, s₂, events, ending, ht₂, hs₂, hR₂, hle₂, hV⟩ := h.items (l := printDef d) hR₁
    obtain ⟨t₃, rest, ht₃, hs₃, hle₃, hV'⟩ := ih hR₂
    have hle := h.trans _ _ _ (h.trans _ _ _ hle₁ hle₂) hle₃
    have ht : abs.globalDef t d = some (t₂, events, ending) := by
      simp [Namer.globalDef, ht₁, ht₂]
    have hs : con.globalDef s d = some (s₂, events.map (ScopeEvent.map φ), ending) := by
      simp [Namer.globalDef, hs₁, hs₂]
    cases ending with
    | printed =>
      refine ⟨t₃, events ++ rest, ?_, ?_, hle, forall_mem_append.mpr ⟨?_, hV'⟩⟩
      · simp [Namer.globalDefs, ht, ht₃]
      · simp [Namer.globalDefs, hs, hs₃]
      · exact fun event hevent entry hentry => h.mono _ _ _ (hV event hevent entry hentry) hle₃
    | unprinted =>
      refine ⟨t₃, rest, ?_, ?_, hle, hV'⟩
      · simp [Namer.globalDefs, ht, ht₃]
      · simp [Namer.globalDefs, hs, hs₃]
    | failed =>
      refine ⟨t₃, [], ?_, ?_, hle, by simp⟩
      · simp [Namer.globalDefs, ht]
      · simp [Namer.globalDefs, hs]

end Namer.Follows

section Answers

variable {idString : Ident → Text} {start : Indices} {blacklist : List Text}

/-- The printer has named the identifiers of the list, the last one first. -/
structure Answers (idString : Ident → Text) (start : Indices) (blacklist : List Text)
    (l : List Ident) (printer : IdentPrinter) : Prop where
  sane : printer.sanitizer = sanitizer
  blacklist : printer.blacklist = blacklist
  indices : printer.indices = tableAfter start (wanted idString) l
  values : ∀ id, printer.values.lookup id = if id ∈ l then
    some (nameAfter start (wanted idString) (l.dropWhile (· ≠ id)).tail id) else none

theorem Answers.request {t : Tables} {table : Option ℕ} {printer : IdentPrinter}
    (h : Answers idString start blacklist (t.named table) printer) (id : Ident) :
    ∃ printer', printer.idUnique idString (fun name => name) id =
        some (printer', nameOf start (wanted idString) (t.request table id).2) ∧
      Answers idString start blacklist ((t.request table id).1.named table) printer' := by
  have hval := h.values id
  by_cases hid : id ∈ t.named table
  · rw [if_pos hid] at hval
    refine ⟨printer, ?_, ?_⟩
    · rw [IdentPrinter.idUnique, hval, Tables.request, if_pos hid]
      rfl
    · rw [Tables.request, if_pos hid]
      exact h
  · rw [if_neg hid] at hval
    have hfind := findUnique_tableAfter start (wanted idString) (t.named table) id
    refine ⟨⟨tableAfter start (wanted idString) (id :: t.named table),
      printer.values.insert id (nameAfter start (wanted idString) (t.named table) id),
      printer.sanitizer, printer.blacklist⟩, ?_, ?_⟩
    · rw [IdentPrinter.idUnique, hval, h.sane, h.indices, Tables.request, if_neg hid]
      simp only [show sanitizer (idString id) = wanted idString id from rfl, hfind]
      rfl
    · rw [Tables.request, if_neg hid]
      refine ⟨h.sane, h.blacklist, ?_, fun id' => ?_⟩
      · simp
      · by_cases heq : id' = id
        · subst heq
          simp
        · simp [AList.lookup_insert_ne heq, h.values id', heq, Ne.symm heq]

theorem answers_nil {printer : IdentPrinter} (hsane : printer.sanitizer = sanitizer)
    (hblack : printer.blacklist = blacklist) (hvalues : printer.values = ∅)
    (hindices : printer.indices = start) : Answers idString start blacklist [] printer where
  sane := hsane
  blacklist := hblack
  indices := hindices
  values := fun id => by rw [hvalues]; rfl

structure BothAnswer (idString : Ident → Text) (start : Indices) (blacklist : List Text)
    (t : Tables) (s : Printers) : Prop where
  localPrinter : Answers idString start blacklist (t.named (some t.current)) s.localPrinter
  globalPrinter : Answers idString start blacklist (t.named none) s.globalPrinter
  nodup : ∀ table, (t.named table).Nodup
  new : ∀ k, t.current < k → t.named (some k) = []

theorem givens_follows (hstart : blacklist.foldlM reserve ∅ = some start) :
    givens.Follows (printers idString) (nameOf start (wanted idString))
      (BothAnswer idString start blacklist) (fun t t' => ∀ table, t.named table <:+ t'.named table)
      (fun t entry => t.Has entry.1 ∧ entry.1.id = entry.2) where
  request := by
    rintro t s (_ | _) id ⟨hl, hg, hnodup, hnew⟩
    · obtain ⟨hhas, hid, hcur, hnodup', hle, hother⟩ := t.request_spec (some t.current) id hnodup
      obtain ⟨printer', hprinter, hl'⟩ := hl.request id
      refine ⟨(t.request (some t.current) id).1, (t.request (some t.current) id).2,
        { s with localPrinter := printer' }, rfl, ?_, ⟨?_, ?_, hnodup', ?_⟩, hle, hhas, hid⟩
      · simp [printers, hprinter]
      · rw [hcur]
        exact hl'
      · rw [hother none (by simp)]
        exact hg
      · intro k hk
        rw [hcur] at hk
        rw [hother (some k) (by simpa using hk.ne')]
        exact hnew k hk
    · obtain ⟨hhas, hid, hcur, hnodup', hle, hother⟩ := t.request_spec none id hnodup
      obtain ⟨printer', hprinter, hg'⟩ := hg.request id
      refine ⟨(t.request none id).1, (t.request none id).2, { s with globalPrinter := printer' },
        rfl, ?_, ⟨?_, hg', hnodup', ?_⟩, hle, hhas, hid⟩
      · simp [printers, hprinter]
      · rw [hcur, hother _ (by simp)]
        exact hl
      · intro k hk
        rw [hcur] at hk
        rw [hother (some k) (by simp)]
        exact hnew k hk
  clearLocal := by
    rintro t s ⟨hl, hg, hnodup, hnew⟩
    refine ⟨_, { s with localPrinter := { s.localPrinter with indices := start, values := ∅ } },
      rfl, ?_, ⟨?_, hg, hnodup, fun k hk => hnew k (Nat.lt_of_succ_lt hk)⟩, fun _ => suffix_rfl⟩
    · simp [printers, IdentPrinter.forgetAll, hl.blacklist, hstart]
    · change Answers _ _ _ (t.named (some (t.current + 1))) _
      rw [hnew _ (Nat.lt_succ_self _)]
      exact answers_nil hl.sane hl.blacklist rfl rfl
  refl _ _ := suffix_rfl
  trans _ _ _ h h' table := (h table).trans (h' table)
  mono _ _ _ h hle := ⟨⟨h.1.1.trans (hle _), h.1.2⟩, h.2⟩

end Answers

/-! ## The theorem -/

def initialTable (blacklist : List Text) : Indices :=
  ((cKeywords ++ blacklist).foldlM reserve ∅).getD ∅

theorem full_initialTable (blacklist : List Text) : Full (initialTable blacklist) := by
  obtain ⟨start, hstart, -⟩ := reserve_foldlM (cKeywords ++ blacklist) ∅
  rw [initialTable, hstart]
  exact Full.reserve (by intro name v hv; cases hv) hstart

variable (idString : Ident → Text) (blacklist : List Text) (defs : List Definition)

/-- The printed names are those that are given in answer to the requests. -/
theorem printGlobalDefs_eq :
    ∃ (t : Tables) (events : List (ScopeEvent Given Ident)),
      givens.globalDefs newTables defs = some events ∧
      printGlobalDefs idString blacklist defs = some (events.map
        (ScopeEvent.map (nameOf (initialTable blacklist) (wanted idString)))) ∧
      ∀ event ∈ events, ∀ entry ∈ event.entries, t.Has entry.1 ∧ entry.1.id = entry.2 := by
  obtain ⟨start, hstart, -⟩ := reserve_foldlM (cKeywords ++ blacklist) ∅
  let printer : IdentPrinter := ⟨start, ∅, sanitizer, cKeywords ++ blacklist⟩
  have hinit : initPrinters blacklist = some ⟨printer, printer⟩ := by
    simp [initPrinters, createIdentPrinter, hstart, printer]
  have hnew : BothAnswer idString start (cKeywords ++ blacklist) newTables ⟨printer, printer⟩ :=
    ⟨answers_nil rfl rfl rfl rfl, answers_nil rfl rfl rfl rfl, fun _ => nodup_nil, fun _ _ => rfl⟩
  obtain ⟨t, events, hgivens, hnames, -, hV⟩ := (givens_follows hstart).globalDefs defs hnew
  refine ⟨t, events, hgivens, ?_, hV⟩
  rw [printGlobalDefs, hinit, initialTable, hstart]
  exact hnames

/-- At each use of an identifier, it is declared in a visible scope, and what is declared up to the
innermost one is no obstacle. -/
def NamesApart : Prop :=
  ∃ events, givens.globalDefs newTables defs = some events ∧ Scopes.Each (fun scopes g id =>
    id ∈ (scopes.near id).map Prod.snd ∧ ∀ entry ∈ scopes.near id,
      Compatible (initialTable blacklist) (wanted idString) g entry.1) [[]] events

theorem specname_cons (c : Char) (s : Text) (i : ℕ) : ∃ t, specname (c :: s) i = c :: t := by
  cases i with
  | zero => exact ⟨s, specname_zero _⟩
  | succ i =>
    obtain ⟨f, -, -, hf⟩ := specname_succ (c :: s)
    exact ⟨s ++ f i, hf i⟩

theorem apart_of_head {want : Ident → Text} {id id' : Ident} {c c' : Char} {s s' : Text}
    (h : want id = c :: s) (h' : want id' = c' :: s') (hne : c ≠ c') : Apart want id id' := by
  intro i j heq
  obtain ⟨t, ht⟩ := specname_cons c s i
  obtain ⟨t', ht'⟩ := specname_cons c' s' j
  rw [h, h', ht, ht'] at heq
  exact hne (List.cons.inj heq).1

def identities : Namer Unit Ident where
  request s _ id := some (s, id)
  clearLocal s := some s

/-- Each identifier is used in the scope of one of its declarations. -/
def WellScoped (defs : List Definition) : Prop :=
  ∃ events, identities.globalDefs () defs = some events ∧ Scopes.Resolves [[]] events

end C

end Why3
