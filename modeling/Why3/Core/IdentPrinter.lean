import Mathlib.Data.List.AList
import Why3.Core.NumberText

/-!
# Unique names for printing

After the printers of `src/core/ident.ml`. A printer gives a name to each identifier. The
table `indices` holds the names in use: a name that is asked for again gets a number or
quotes at its end, and the table holds the last number that was tried.

The search for a free name goes through as many candidates as there are names in use, and
one more: this is the fuel of `advance`, and it never runs out. The strings of identifiers
are a parameter, since identifiers are their tags elsewhere.
-/

namespace Why3

open List

variable {id : Ident} {name : Text} {ind : ℕ}
variable {α β : Type} {m : AList fun _ : α => β} {a : α} {fuel : ℕ}

/-! ## Names of operators -/

/-- How a name is written. The operator itself is left out. -/
inductive SnKind where
  | word
  | infixOp
  | tightOp
  | prefixOp
  | getOp
  | setOp
  | updateOp
  | cutOp
  | lcutOp
  | rcutOp
  deriving DecidableEq, Repr

def opchars : Text := "@!^$=%>#.<-&/+?:*~|\\".toList

def skipOpchar (s : Text) (i : ℕ) : ℕ := i + ((s.drop i).takeWhile (· ∈ opchars)).length

/-- The first place after the quotes that start at `l`, one of which may belong to what
follows. -/
def skipQuote (s : Text) (l : ℕ) : ℕ :=
  let i := l + ((s.drop l).takeWhile (· = '\'')).length
  if i = s.length then i else if i = l ∨ s[i]? = some '_' then i else i - 1

def snStart (s : Text) : ℕ :=
  if s.take 6 = "infix ".toList then 6
  else if s.take 6 = "prefix".toList then 7
  else if s.take 6 = "mixfix".toList then
    match (s.drop 7).idxOf? ']' with
    | some i => 7 + i + 1
    | none => 0
  else 0

def prefixKind (o : Text) (l : ℕ) : SnKind :=
  if o[0]? ≠ some '!' ∧ o[0]? ≠ some '?' then .prefixOp
  else if ((o.drop 1).take (l - 8)).all (· ∈ "!$&?@^.:|#".toList) then .tightOp
  else .prefixOp

def mixfixKind (o : Text) : SnKind :=
  if o = "]".toList then .getOp
  else if o = "]<-".toList then .setOp
  else if o = "<-]".toList then .updateOp
  else if o = "..]".toList then .cutOp
  else if o = ".._]".toList then .lcutOp
  else if o = "_..]".toList then .rcutOp
  else .word

def snDecode (s : Text) : SnKind :=
  if s.length ≤ 6 then .word
  else if s[5]? ≠ some ' ' ∧ s[6]? ≠ some ' ' then .word
  else
    let k := snStart s
    if k = 0 then .word
    else
      let l := skipOpchar s k
      let m := skipQuote s l
      if l = k ∧ k < 8 then .word
      else if m ≠ s.length then .word
      else if k = 6 then .infixOp
      else if k = 7 then prefixKind (s.drop 7) l
      else mixfixKind ((s.drop 8).take (l - 8))

/-! ## Free names -/

abbrev Indices := AList fun _ : Text => ℕ

def specname (name : Text) (ind : ℕ) : Text :=
  if ind = 0 then name
  else if snDecode name = .word then name ++ bigIntToString ind
  else name ++ replicate ind '\''

section FindUnique

variable (indices : Indices) (name : Text)

def testname (ind : ℕ) : Bool := specname name ind ∈ indices

def advance : ℕ → ℕ → Option ℕ
  | 0, _ => none
  | fuel + 1, ind => if testname indices name ind then advance fuel (ind + 1) else some ind

/-- The first index, down to one, before which there is none that is free. -/
def retreat : ℕ → ℕ
  | 0 => 0
  | 1 => 1
  | ind + 2 => if testname indices name (ind + 1) then ind + 2 else retreat (ind + 1)

def fetch (ind : ℕ) : Option ℕ :=
  if testname indices name ind then advance indices name (indices.keys.length + 1) (ind + 1)
  else some (retreat indices name ind)

def findUnique : Option (Indices × Text) :=
  match indices.lookup name with
  | none => some (indices.insert name 0, name)
  | some v => do
    let ind ← fetch indices name (v + 1)
    let name' := specname name ind
    some ((indices.insert name ind).insert name' 0, name')

def reserve : Option Indices := (findUnique indices name).map Prod.fst

end FindUnique

/-! ## Printers -/

structure IdentPrinter where
  indices : Indices
  values : AList fun _ : Ident => Text
  sanitizer : Text → Text
  blacklist : List Text

def createIdentPrinter (sanitizer : Text → Text) (sl : List Text) : Option IdentPrinter := do
  let indices ← sl.foldlM reserve ∅
  some ⟨indices, ∅, sanitizer, sl⟩

namespace IdentPrinter

variable (idString : Ident → Text)

def idUnique (printer : IdentPrinter) (sanitizer : Text → Text) (id : Ident) :
    Option (IdentPrinter × Text) :=
  match printer.values.lookup id with
  | some name => some (printer, name)
  | none => do
    let (indices, name) ←
      findUnique printer.indices (sanitizer (printer.sanitizer (idString id)))
    some ({ printer with indices := indices, values := printer.values.insert id name }, name)

def stringUnique (printer : IdentPrinter) (s : Text) : Option (IdentPrinter × Text) := do
  let (indices, name) ← findUnique printer.indices (printer.sanitizer s)
  some ({ printer with indices := indices }, name)

def forgetId (printer : IdentPrinter) (id : Ident) : IdentPrinter :=
  match printer.values.lookup id with
  | some name =>
    { printer with indices := printer.indices.erase name, values := printer.values.erase id }
  | none => printer

def forgetAll (printer : IdentPrinter) : Option IdentPrinter := do
  let indices ← printer.blacklist.foldlM reserve ∅
  some { printer with indices := indices, values := ∅ }

end IdentPrinter

/-! ## Histories of a printer -/

inductive PrinterOp where
  | idUnique (sanitizer : Text → Text) (id : Ident)
  | stringUnique (s : Text)
  | forgetId (id : Ident)
  | forgetAll

structure PrinterState where
  printer : IdentPrinter
  strings : List Text

namespace PrinterState

def names (s : PrinterState) : List Text :=
  s.printer.values.entries.map Sigma.snd ++ s.strings

variable (idString : Ident → Text)

def step (s : PrinterState) : PrinterOp → Option PrinterState
  | .idUnique sanitizer id => do
    let (printer, _) ← s.printer.idUnique idString sanitizer id
    some ⟨printer, s.strings⟩
  | .stringUnique str => do
    let (printer, name) ← s.printer.stringUnique str
    some ⟨printer, name :: s.strings⟩
  | .forgetId id => some ⟨s.printer.forgetId id, s.strings⟩
  | .forgetAll => do
    let printer ← s.printer.forgetAll
    some ⟨printer, []⟩

def run (s : PrinterState) (ops : List PrinterOp) : Option PrinterState :=
  ops.foldlM (step idString) s

end PrinterState

/-! ## Free names are found -/

theorem bigIntToString_injective {i j : ℕ} (h : bigIntToString i = bigIntToString j) : i = j := by
  have hi := (digits_bigIntToString i).2
  rw [h, (digits_bigIntToString j).2] at hi
  exact (Option.some.inj hi).symm

theorem specname_zero (name : Text) : specname name 0 = name := if_pos rfl

theorem specname_succ (name : Text) : ∃ f : ℕ → Text, Function.Injective f ∧
    (∀ i, f i ≠ []) ∧ ∀ i, specname name (i + 1) = name ++ f i := by
  by_cases hword : snDecode name = .word
  · refine ⟨fun i => bigIntToString (i + 1 : ℕ), fun i j h => ?_, fun i => ?_, fun i => ?_⟩
    · exact Nat.succ_injective (bigIntToString_injective h)
    · exact (digits_bigIntToString (i + 1)).1
    · rw [specname, if_neg (Nat.succ_ne_zero i), if_pos hword]
  · refine ⟨fun i => replicate (i + 1) '\'', fun i j h => ?_, fun i => ?_, fun i => ?_⟩
    · simpa using congrArg List.length h
    · simp
    · rw [specname, if_neg (Nat.succ_ne_zero i), if_neg hword]

theorem specname_injective (name : Text) : Function.Injective (specname name) := by
  obtain ⟨f, hinj, hne, hf⟩ := specname_succ name
  intro i j h
  cases i with
  | zero =>
    cases j with
    | zero => rfl
    | succ j =>
      rw [specname_zero, hf, self_eq_append_right] at h
      exact absurd h (hne j)
  | succ i =>
    cases j with
    | zero =>
      rw [specname_zero, hf, append_right_eq_self] at h
      exact absurd h (hne i)
    | succ j =>
      rw [hf, hf, append_cancel_left_eq] at h
      exact congrArg Nat.succ (hinj h)

section FindUnique

variable {indices : Indices} {name : Text}

theorem testname_iff : testname indices name ind = true ↔ specname name ind ∈ indices := by
  simp [testname]

theorem advance_eq_some {ind' : ℕ} (h : advance indices name fuel ind = some ind') :
    specname name ind' ∉ indices := by
  induction fuel generalizing ind with
  | zero => cases h
  | succ fuel ih =>
    rw [advance] at h
    split at h
    · exact ih h
    · next hfree =>
        cases h
        rwa [testname_iff] at hfree

theorem advance_eq_none (h : advance indices name fuel ind = none) :
    ∀ j < fuel, specname name (ind + j) ∈ indices := by
  induction fuel generalizing ind with
  | zero => simp
  | succ fuel ih =>
    rw [advance] at h
    split at h
    · next hused =>
        intro j hj
        cases j with
        | zero => exact testname_iff.mp hused
        | succ j =>
          have := ih h j (Nat.lt_of_succ_lt_succ hj)
          rwa [Nat.add_right_comm, Nat.add_assoc] at this
    · cases h

variable (indices name) in
theorem advance_total (ind : ℕ) :
    ∃ ind', advance indices name (indices.keys.length + 1) ind = some ind' := by
  rw [← Option.ne_none_iff_exists']
  intro h
  have hmem := advance_eq_none h
  have hsub : (List.range (indices.keys.length + 1)).map (fun j => specname name (ind + j)) ⊆
      indices.keys := by
    intro s hs
    obtain ⟨j, hj, rfl⟩ := mem_map.mp hs
    exact AList.mem_keys.mp (hmem j (mem_range.mp hj))
  have hnodup : ((List.range (indices.keys.length + 1)).map
      fun j => specname name (ind + j)).Nodup :=
    nodup_range.map fun i j hij => Nat.add_left_cancel (specname_injective name hij)
  have hle := (hnodup.subperm hsub).length_le
  rw [length_map, length_range] at hle
  exact absurd hle (Nat.not_succ_le_self _)

theorem retreat_free : ∀ {ind : ℕ}, specname name ind ∉ indices →
    specname name (retreat indices name ind) ∉ indices
  | 0, h => h
  | 1, h => h
  | ind + 2, h => by
    rw [retreat]
    split
    · exact h
    · next hfree =>
        rw [testname_iff] at hfree
        exact retreat_free hfree

variable (indices name) in
theorem fetch_spec (ind : ℕ) :
    ∃ ind', fetch indices name ind = some ind' ∧ specname name ind' ∉ indices := by
  rw [fetch]
  split
  · obtain ⟨ind', h⟩ := advance_total indices name (ind + 1)
    exact ⟨ind', h, advance_eq_some h⟩
  · next hfree =>
      rw [testname_iff] at hfree
      exact ⟨_, rfl, retreat_free hfree⟩

/-- A name is found that was not in use, and it is the only one that comes into use. -/
theorem findUnique_spec (indices : Indices) (name : Text) : ∃ indices' name',
    findUnique indices name = some (indices', name') ∧ name' ∉ indices ∧ name ∈ indices' ∧
      ∀ s, s ∈ indices' ↔ s ∈ indices ∨ s = name' := by
  rw [findUnique]
  cases hv : indices.lookup name with
  | none =>
    have hmem : ∀ s, s ∈ indices.insert name 0 ↔ s ∈ indices ∨ s = name := by
      intro s
      rw [AList.mem_insert, or_comm]
    exact ⟨_, name, rfl, AList.lookup_eq_none.mp hv, (hmem name).mpr (.inr rfl), hmem⟩
  | some v =>
    obtain ⟨ind, hind, hfree⟩ := fetch_spec indices name (v + 1)
    have hname : name ∈ indices := AList.lookup_isSome.mp (by rw [hv]; rfl)
    have hmem : ∀ s, s ∈ (indices.insert name ind).insert (specname name ind) 0 ↔
        s ∈ indices ∨ s = specname name ind := by
      intro s
      rw [AList.mem_insert, AList.mem_insert]
      constructor
      · rintro (h | rfl | h)
        · exact .inr h
        · exact .inl hname
        · exact .inl h
      · rintro (h | h)
        · exact .inr (.inr h)
        · exact .inl h
    refine ⟨_, specname name ind, ?_, hfree, (hmem name).mpr (.inl hname), hmem⟩
    simp only [hind, Option.bind_eq_bind, Option.bind_some]

theorem reserve_foldlM (sl : List Text) (indices : Indices) : ∃ indices',
    sl.foldlM reserve indices = some indices' ∧ (∀ s ∈ indices, s ∈ indices') ∧
      ∀ s ∈ sl, s ∈ indices' := by
  induction sl generalizing indices with
  | nil => exact ⟨indices, rfl, fun s hs => hs, by simp⟩
  | cons name sl ih =>
    obtain ⟨indices₁, name', hfind, _, hname, hmem⟩ := findUnique_spec indices name
    obtain ⟨indices', hrun, hold, hnew⟩ := ih indices₁
    refine ⟨indices', ?_, fun s hs => hold s ((hmem s).mpr (.inl hs)), ?_⟩
    · rw [foldlM_cons, reserve, hfind]
      exact hrun
    · exact forall_mem_cons.mpr ⟨hold name hname, hnew⟩

end FindUnique

/-! ## Invariants of a printer -/

structure PrinterState.Valid (s : PrinterState) : Prop where
  nodup : s.names.Nodup
  used : ∀ name ∈ s.names, name ∈ s.printer.indices
  allowed : ∀ name ∈ s.names, name ∉ s.printer.blacklist
  reserved : ∀ name ∈ s.printer.blacklist, name ∈ s.printer.indices

namespace PrinterState

variable {idString : Ident → Text} {s s' : PrinterState}

theorem Valid.add (h : s.Valid) {indices : Indices} (hfree : name ∉ s.printer.indices)
    (hmem : ∀ t, t ∈ indices ↔ t ∈ s.printer.indices ∨ t = name)
    (hindices : s'.printer.indices = indices) (hblack : s'.printer.blacklist = s.printer.blacklist)
    (hnames : s'.names.Perm (name :: s.names)) : s'.Valid where
  nodup := by
    rw [hnames.nodup_iff, nodup_cons]
    exact ⟨fun hname => hfree (h.used name hname), h.nodup⟩
  used := by
    intro t ht
    rw [hindices, hmem]
    rcases mem_cons.mp (hnames.mem_iff.mp ht) with rfl | ht
    · exact .inr rfl
    · exact .inl (h.used t ht)
  allowed := by
    intro t ht
    rw [hblack]
    rcases mem_cons.mp (hnames.mem_iff.mp ht) with rfl | ht
    · exact fun hmem => hfree (h.reserved _ hmem)
    · exact h.allowed t ht
  reserved := by
    intro t ht
    rw [hindices, hmem]
    exact .inl (h.reserved t (hblack ▸ ht))

theorem valid_empty {indices : Indices} (sanitizer : Text → Text) {sl : List Text}
    (hsl : ∀ name ∈ sl, name ∈ indices) : Valid ⟨⟨indices, ∅, sanitizer, sl⟩, []⟩ where
  nodup := nodup_nil
  used := by simp [names]
  allowed := by simp [names]
  reserved := hsl

theorem map_snd_insert [DecidableEq α] (ha : a ∉ m) (b : β) :
    (m.insert a b).entries.map Sigma.snd = b :: m.entries.map Sigma.snd := by
  rw [AList.entries_insert_of_notMem ha, map_cons]

theorem map_snd_erase [DecidableEq α] {b : β} (h : m.lookup a = some b) :
    (m.entries.map Sigma.snd).Perm (b :: (m.erase a).entries.map Sigma.snd) := by
  have hmem : a ∈ m.entries.keys := AList.mem_keys.mp (AList.lookup_isSome.mp (by rw [h]; rfl))
  obtain ⟨b', l₁, l₂, hl₁, heq, herase⟩ := exists_of_kerase hmem
  have hb : b' = b := by
    have hlookup : m.entries.dlookup a = some b := h
    rw [heq, dlookup_append, dlookup_eq_none.mpr hl₁, Option.none_or, dlookup_cons_eq] at hlookup
    exact Option.some.inj hlookup
  change Perm _ (b :: (m.entries.kerase a).map Sigma.snd)
  rw [herase, heq, map_append, map_append, map_cons, hb]
  exact perm_middle

theorem Valid.forgetId (h : s.Valid) (id : Ident) : Valid ⟨s.printer.forgetId id, s.strings⟩ ∧
    (s.printer.forgetId id).blacklist = s.printer.blacklist := by
  cases hid : s.printer.values.lookup id with
  | none =>
    rw [IdentPrinter.forgetId, hid]
    exact ⟨h, rfl⟩
  | some name =>
    rw [IdentPrinter.forgetId, hid]
    have hnames : s.names.Perm (name :: names ⟨{ s.printer with
        indices := s.printer.indices.erase name, values := s.printer.values.erase id },
          s.strings⟩) :=
      (map_snd_erase hid).append_right s.strings
    have hnodup := hnames.nodup_iff.mp h.nodup
    rw [nodup_cons] at hnodup
    have hmem : ∀ t ∈ names _, t ∈ s.names := fun t ht =>
      hnames.mem_iff.mpr (mem_cons_of_mem name ht)
    refine ⟨⟨hnodup.2, fun t ht => ?_, fun t ht => h.allowed t (hmem t ht), fun t ht => ?_⟩, rfl⟩
    · refine AList.mem_erase.mpr ⟨?_, h.used t (hmem t ht)⟩
      rintro rfl
      exact hnodup.1 ht
    · refine AList.mem_erase.mpr ⟨?_, h.reserved t ht⟩
      rintro rfl
      exact h.allowed t (hnames.mem_iff.mpr mem_cons_self) ht

theorem Valid.step (h : s.Valid) (idString : Ident → Text) (op : PrinterOp) :
    ∃ s', s.step idString op = some s' ∧
    s'.Valid ∧ s'.printer.blacklist = s.printer.blacklist := by
  cases op with
  | idUnique sanitizer id =>
    cases hid : s.printer.values.lookup id with
    | some name => exact ⟨s, by simp [PrinterState.step, IdentPrinter.idUnique, hid], h, rfl⟩
    | none =>
      obtain ⟨indices, name, hfind, hfree, _, hmem⟩ :=
        findUnique_spec s.printer.indices (sanitizer (s.printer.sanitizer (idString id)))
      have hnew : id ∉ s.printer.values := AList.lookup_eq_none.mp hid
      let printer : IdentPrinter :=
        { s.printer with indices := indices, values := s.printer.values.insert id name }
      refine ⟨⟨printer, s.strings⟩, ?_, h.add hfree hmem rfl rfl ?_, rfl⟩
      · simp [PrinterState.step, IdentPrinter.idUnique, hid, hfind, printer]
      · rw [names, map_snd_insert hnew]
        exact .refl _
  | stringUnique str =>
    obtain ⟨indices, name, hfind, hfree, _, hmem⟩ :=
      findUnique_spec s.printer.indices (s.printer.sanitizer str)
    refine ⟨⟨{ s.printer with indices := indices }, name :: s.strings⟩, ?_,
      h.add hfree hmem rfl rfl ?_, rfl⟩
    · simp [PrinterState.step, IdentPrinter.stringUnique, hfind]
    · exact perm_middle
  | forgetId id => exact ⟨_, rfl, h.forgetId id⟩
  | forgetAll =>
    obtain ⟨indices, hrun, _, hmem⟩ := reserve_foldlM s.printer.blacklist ∅
    refine ⟨⟨{ s.printer with indices := indices, values := ∅ }, []⟩, ?_, valid_empty _ hmem, rfl⟩
    simp [PrinterState.step, IdentPrinter.forgetAll, hrun]

/-- Each sequence of operations succeeds and keeps the names apart. -/
theorem Valid.run (h : s.Valid) (idString : Ident → Text) (ops : List PrinterOp) :
    ∃ s', s.run idString ops = some s' ∧
    s'.Valid ∧ s'.printer.blacklist = s.printer.blacklist := by
  induction ops generalizing s with
  | nil => exact ⟨s, rfl, h, rfl⟩
  | cons op ops ih =>
    obtain ⟨s₁, hstep, hvalid, hblack⟩ := h.step idString op
    obtain ⟨s', hrun, hvalid', hblack'⟩ := ih hvalid
    refine ⟨s', ?_, hvalid', hblack'.trans hblack⟩
    rw [PrinterState.run, foldlM_cons, hstep]
    exact hrun

/-! ## The name of an identifier -/

def Forgets (id : Ident) : PrinterOp → Prop
  | .forgetId id' => id' = id
  | .forgetAll => True
  | _ => False

theorem step_lookup {op : PrinterOp} (hop : ¬ Forgets id op)
    (hname : s.printer.values.lookup id = some name) (h : s.step idString op = some s') :
    s'.printer.values.lookup id = some name := by
  cases op with
  | idUnique sanitizer id' =>
    obtain ⟨⟨printer, name'⟩, hunique, h⟩ := Option.bind_eq_some_iff.mp h
    cases h
    rw [IdentPrinter.idUnique] at hunique
    split at hunique
    · cases hunique
      exact hname
    · next hid =>
        obtain ⟨⟨indices, _⟩, _, hunique⟩ := Option.bind_eq_some_iff.mp hunique
        cases hunique
        have hne : id ≠ id' := by
          rintro rfl
          rw [hname] at hid
          cases hid
        rw [AList.lookup_insert_ne hne]
        exact hname
  | stringUnique str =>
    obtain ⟨⟨printer, name'⟩, hunique, h⟩ := Option.bind_eq_some_iff.mp h
    cases h
    obtain ⟨⟨indices, _⟩, _, hunique⟩ := Option.bind_eq_some_iff.mp hunique
    cases hunique
    exact hname
  | forgetId id' =>
    cases h
    rw [IdentPrinter.forgetId]
    split
    · exact (AList.lookup_erase_ne fun heq => hop heq.symm).trans hname
    · exact hname
  | forgetAll => exact absurd trivial hop

theorem run_lookup {ops : List PrinterOp} (hops : ∀ op ∈ ops, ¬ Forgets id op)
    (hname : s.printer.values.lookup id = some name) (h : s.run idString ops = some s') :
    s'.printer.values.lookup id = some name := by
  induction ops generalizing s with
  | nil =>
    cases h
    exact hname
  | cons op ops ih =>
    rw [forall_mem_cons] at hops
    rw [run, foldlM_cons] at h
    obtain ⟨s₁, hstep, hrun⟩ := Option.bind_eq_some_iff.mp h
    exact ih hops.2 (step_lookup hops.1 hname hstep) hrun

end PrinterState

theorem idUnique_lookup {idString : Ident → Text} {printer printer' : IdentPrinter}
    {sanitizer : Text → Text} (h : printer.idUnique idString sanitizer id = some (printer', name)) :
    printer'.values.lookup id = some name := by
  rw [IdentPrinter.idUnique] at h
  split at h
  · next hid =>
      cases h
      exact hid
  · obtain ⟨⟨indices, _⟩, _, h⟩ := Option.bind_eq_some_iff.mp h
    cases h
    exact AList.lookup_insert _

/-- A printer can be created for every black list and every operation on it ends. After any
history, the names of identifiers and the names given to strings are distinct and not on
the black list, and an identifier keeps its name until it is forgotten. -/
theorem identPrinter_unique (idString : Ident → Text) (sanitizer : Text → Text)
    (blacklist : List Text) (ops : List PrinterOp) :
    ∃ printer s, createIdentPrinter sanitizer blacklist = some printer ∧
      PrinterState.run idString ⟨printer, []⟩ ops = some s ∧
      s.names.Nodup ∧ (∀ name ∈ s.names, name ∉ blacklist) ∧
      ∀ sanitizer' id, ∃ printer' name,
        s.printer.idUnique idString sanitizer' id = some (printer', name) ∧
        printer'.values.lookup id = some name ∧
        ∀ ops' sanitizer'', (∀ op ∈ ops', ¬ PrinterState.Forgets id op) →
          ∃ s', PrinterState.run idString ⟨printer', s.strings⟩ ops' = some s' ∧
            s'.printer.idUnique idString sanitizer'' id = some (s'.printer, name) := by
  obtain ⟨indices, hcreate, _, hmem⟩ := reserve_foldlM blacklist ∅
  have hvalid₀ := PrinterState.valid_empty sanitizer hmem
  obtain ⟨s, hrun, hvalid, hblack⟩ := hvalid₀.run idString ops
  have hallowed : ∀ name ∈ s.names, name ∉ blacklist := fun name hname =>
    (show s.printer.blacklist = blacklist from hblack) ▸ hvalid.allowed name hname
  refine ⟨_, s, by simp [createIdentPrinter, hcreate], hrun, hvalid.nodup, hallowed, ?_⟩
  intro sanitizer' id
  obtain ⟨s₁, hstep, hvalid₁, _⟩ := hvalid.step idString (.idUnique sanitizer' id)
  obtain ⟨⟨printer', name⟩, hunique, hs₁⟩ := Option.bind_eq_some_iff.mp hstep
  cases hs₁
  have hlookup := idUnique_lookup hunique
  refine ⟨printer', name, hunique, hlookup, fun ops' sanitizer'' hops => ?_⟩
  obtain ⟨s', hrun', _, _⟩ := hvalid₁.run idString ops'
  refine ⟨s', hrun', ?_⟩
  rw [IdentPrinter.idUnique, PrinterState.run_lookup hops hlookup hrun']

end Why3
