import Mathlib.Data.List.Perm.Subperm
import Why3.Lib.TagMap

/-!
# Versioned maps

After `MakeOfMap` of `src/util/diffmap.ml`. A version is a cell with a map, or with the difference
to another version. Reading a version puts its map into its cell and turns the differences around
on the way.

Versions are numbered, and the cells stand in a list. What users of versions see is compared with a
list of maps that never change.
-/

namespace Why3.Diffmap

open Lib List

/-- What is used of the module of maps: `union` is the one with a function that raises an exception
on a common key. -/
class Extmap (M : Type) (κ α : outParam Type) where
  find? : M → κ → Option α
  empty : M
  isEmpty : M → Bool
  union : M → M → Option M
  setDiff : M → M → M
  find?_empty : ∀ k, find? empty k = none
  isEmpty_iff : ∀ m, isEmpty m = true ↔ ∀ k, find? m k = none
  union_eq_none : ∀ m d, union m d = none ↔ ∃ k, (find? m k).isSome ∧ (find? d k).isSome
  find?_union : ∀ m d m', union m d = some m' → ∀ k, find? m' k = (find? m k).or (find? d k)
  find?_setDiff : ∀ m d k, find? (setDiff m d) k = if (find? d k).isSome then none else find? m k

instance {κ α : Type} [DecidableEq κ] [Tagged κ] : Extmap (TagMap κ α) κ α where
  find? := TagMap.find?
  empty := .empty
  isEmpty := TagMap.isEmpty
  union m d :=
    if d.bindings.any fun b => m.mem b.1 then none else some (.unionWith (fun a _ => a) m d)
  setDiff m d := m.setDiff (d.bindings.map Prod.fst)
  find?_empty k := TagMap.find?_empty k
  isEmpty_iff m := by
    refine ⟨fun hm k => ?_, fun hm => ?_⟩
    · simp [TagMap.find?, List.isEmpty_iff.mp hm]
    · refine List.isEmpty_iff.mpr (eq_nil_iff_forall_not_mem.mpr fun b hb => ?_)
      cases (hm b.1).symm.trans ((TagMap.find?_eq_some_iff m b.1 b.2).mpr hb)
  union_eq_none m d := by
    rw [ite_eq_left_iff]
    simp [TagMap.mem, Option.isSome_iff_exists, TagMap.find?_eq_some_iff, and_comm]
  find?_union m d m' hm k := by
    simp only [Option.ite_none_left_eq_some, Option.some.injEq] at hm
    rw [← hm.2, TagMap.find?_unionWith]
    cases m.find? k <;> cases d.find? k <;> rfl
  find?_setDiff m d k := by
    rw [TagMap.find?_setDiff]
    exact if_congr (TagMap.mem_keys_iff k d.bindings) rfl rfl

inductive Exn where
  | duplicate
  | noVersion
  | outOfFuel

inductive Diff (M : Type) where
  | madd (d : M) (y : ℕ)
  | msub (d : M) (y : ℕ)
  | mmap (m : M)

abbrev Heap (M : Type) := List (Diff M)

variable {κ α M : Type} [Extmap M κ α]

/-- The map of a version. There are no more versions on the way than cells. -/
def get : ℕ → ℕ → Heap M → Except Exn (M × Heap M)
  | 0, _, _ => .error .outOfFuel
  | fuel + 1, x, h =>
    match h[x]? with
    | none => .error .noVersion
    | some (.madd d y) => do
      let (my, h) ← get fuel y h
      match Extmap.union my d with
      | none => .error .duplicate
      | some mx => .ok (mx, (h.set y (.msub d x)).set x (.mmap mx))
    | some (.msub d y) => do
      let (my, h) ← get fuel y h
      let mx := Extmap.setDiff my d
      .ok (mx, (h.set y (.madd d x)).set x (.mmap mx))
    | some (.mmap mx) => .ok (mx, h)

inductive Op (M : Type) where
  | empty
  | create (m : M)
  | union (x : ℕ) (d : M)
  | get (x : ℕ)

/-- What an operation gives: a version, a map of the kind `M`, or the exception `Duplicate`. -/
inductive Reply (M : Type) where
  | version (x : ℕ)
  | map (m : M)
  | duplicate

def newVersion (c : Diff M) (h : Heap M) : Reply M × Heap M := (.version h.length, h ++ [c])

def union (x : ℕ) (d : M) (h : Heap M) : Except Exn (Reply M × Heap M) :=
  if x < h.length ∧ Extmap.isEmpty d then .ok (.version x, h)
  else do
    let (mx, h) ← get h.length x h
    match Extmap.union mx d with
    | none => .ok (.duplicate, h)
    | some my => .ok (newVersion (.mmap my) (h.set x (.msub d h.length)))

def step (h : Heap M) : Op M → Except Exn (Reply M × Heap M)
  | .empty => .ok (newVersion (.mmap Extmap.empty) h)
  | .create m => .ok (newVersion (.mmap m) h)
  | .union x d => union x d h
  | .get x => do
    let (m, h) ← get h.length x h
    .ok (.map m, h)

def run (h : Heap M) : List (Op M) → Except Exn (List (Reply M))
  | [] => .ok []
  | op :: ops => do
    let (r, h) ← step h op
    .ok (r :: (← run h ops))

/-! ## Versions that never change -/

def glue (f : κ → Option α) (d : M) : κ → Option α := fun k => (f k).or (Extmap.find? d k)

def Apart (f : κ → Option α) (d : M) : Prop := ∀ k, f k = none ∨ Extmap.find? d k = none

open Classical in
noncomputable def specStep (vs : List (κ → Option α)) :
    Op M → Option (Reply (κ → Option α) × List (κ → Option α))
  | .empty => some (.version vs.length, vs ++ [fun _ : κ => (none : Option α)])
  | .create m => some (.version vs.length, vs ++ [Extmap.find? m])
  | .union x d => vs[x]?.map fun f =>
    if Extmap.isEmpty d then (.version x, vs)
    else if Apart f d then (.version vs.length, vs ++ [glue f d])
    else (.duplicate, vs)
  | .get x => vs[x]?.map fun f => (.map f, vs)

noncomputable def specRun (vs : List (κ → Option α)) :
    List (Op M) → Option (List (Reply (κ → Option α)))
  | [] => some []
  | op :: ops => do
    let (r, vs) ← specStep vs op
    return r :: (← specRun vs ops)

def Reply.read : Reply M → Reply (κ → Option α)
  | .version x => .version x
  | .map m => .map (Extmap.find? m)
  | .duplicate => .duplicate

/-! ## Cells -/

variable {h h' : Heap M} {x y : ℕ} {l : List ℕ} {vs : List (κ → Option α)} {d m : M}
variable {f g : κ → Option α}
variable {c : Diff M}

def Diff.target : Diff M → Option ℕ
  | .madd _ y | .msub _ y => some y
  | .mmap _ => none

inductive Path (h : Heap M) : ℕ → List ℕ → Prop where
  | root {x : ℕ} {c : Diff M} (hx : h[x]? = some c) (hc : c.target = none) : Path h x [x]
  | edge {x y : ℕ} {c : Diff M} {l : List ℕ} (hx : h[x]? = some c) (hc : c.target = some y)
      (hl : Path h y l) : Path h x (x :: l)

theorem Path.unique {l' : List ℕ} (p : Path h x l) (p' : Path h x l') : l = l' := by
  induction p generalizing l' with
  | root hx hc =>
    cases p' with
    | root => rfl
    | edge hx' hc' _ =>
      cases hx.symm.trans hx'
      cases hc.symm.trans hc'
  | edge hx hc _ ih =>
    cases p' with
    | root hx' hc' =>
      cases hx.symm.trans hx'
      cases hc.symm.trans hc'
    | edge hx' hc' p' =>
      cases hx.symm.trans hx'
      cases hc.symm.trans hc'
      rw [ih p']

theorem Path.suffix (p : Path h x l) (hy : y ∈ l) : ∃ l', Path h y l' ∧ l'.length ≤ l.length := by
  induction p with
  | root hx hc =>
    cases mem_singleton.mp hy
    exact ⟨_, .root hx hc, Nat.le_refl _⟩
  | edge hx hc p ih =>
    rcases mem_cons.mp hy with rfl | hy
    · exact ⟨_, .edge hx hc p, Nat.le_refl _⟩
    · obtain ⟨l', p', hle⟩ := ih hy
      exact ⟨l', p', Nat.le_succ_of_le hle⟩

theorem Path.length_le (p : Path h x l) : l.length ≤ h.length := by
  have hnodup : l.Nodup := by
    induction p with
    | root => exact nodup_singleton _
    | edge hx hc p ih =>
      refine nodup_cons.mpr ⟨fun hmem => ?_, ih⟩
      obtain ⟨l', p', hle⟩ := p.suffix hmem
      have := congrArg List.length ((Path.edge hx hc p).unique p')
      simp at this
      omega
  have hsub : l ⊆ List.range h.length := by
    intro y hy
    obtain ⟨l', p', -⟩ := p.suffix hy
    have hlt : ∀ {c : Diff M}, h[y]? = some c → y ∈ List.range h.length := fun hc =>
      mem_range.mpr (List.getElem?_eq_some_iff.mp hc).1
    cases p' with
    | root hx _ => exact hlt hx
    | edge hx _ _ => exact hlt hx
  simpa using (hnodup.subperm hsub).length_le

theorem Path.mono (p : Path h x l)
    (hcells : ∀ z c, h[z]? = some c → h'[z]? = some c ∨ ∃ l', Path h' z l') :
    ∃ l', Path h' x l' := by
  induction p with
  | root hx hc =>
    rcases hcells _ _ hx with hx' | hl
    · exact ⟨_, .root hx' hc⟩
    · exact hl
  | edge hx hc _ ih =>
    obtain ⟨l', p'⟩ := ih
    rcases hcells _ _ hx with hx' | hl
    · exact ⟨_, .edge hx' hc p'⟩
    · exact hl

/-- `f` is `g` with the difference. -/
def Glued (g : κ → Option α) (d : M) (f : κ → Option α) : Prop := Apart g d ∧ f = glue g d

def Fits (vs : List (κ → Option α)) (f : κ → Option α) : Diff M → Prop
  | .mmap m => Extmap.find? m = f
  | .madd d y => ∃ g, vs[y]? = some g ∧ Glued g d f
  | .msub d y => ∃ g, vs[y]? = some g ∧ Glued f d g

structure Inv (h : Heap M) (vs : List (κ → Option α)) : Prop where
  length : h.length = vs.length
  fits : ∀ (x : ℕ) (c : Diff M) (f : κ → Option α), h[x]? = some c → vs[x]? = some f → Fits vs f c
  path : ∀ x < h.length, ∃ l, Path h x l

theorem Glued.union (hg : Glued (Extmap.find? m) d f) :
    ∃ m', Extmap.union m d = some m' ∧ Extmap.find? m' = f := by
  cases hm : Extmap.union m d with
  | none =>
    obtain ⟨k, hk, hk'⟩ := (Extmap.union_eq_none m d).mp hm
    rcases hg.1 k with h | h
    · simp [h] at hk
    · simp [h] at hk'
  | some m' =>
    refine ⟨m', rfl, ?_⟩
    rw [hg.2]
    exact funext (Extmap.find?_union m d m' hm)

theorem Glued.setDiff (hg : Glued f d (Extmap.find? m)) :
    Extmap.find? (Extmap.setDiff m d) = f := by
  funext k
  rw [Extmap.find?_setDiff, hg.2, glue]
  rcases hg.1 k with h | h
  · cases hd : Extmap.find? d k <;> simp [h]
  · simp [h]

section

variable (hinv : Inv h vs) (hf : vs[x]? = some f)
include hinv hf

theorem Inv.turn (hg : vs[y]? = some g) (hm : Extmap.find? m = f) (hc : c.target = some x)
    (hfits : Fits vs g c) : Inv ((h.set y c).set x (.mmap m)) vs := by
  have hx : x < h.length := hinv.length ▸ (List.getElem?_eq_some_iff.mp hf).1
  have hroot : Path ((h.set y c).set x (.mmap m)) x [x] :=
    .root (by rw [getElem?_set_self (by simpa using hx)]) rfl
  have hcell : ∀ z c', h[z]? = some c' → ((h.set y c).set x (.mmap m))[z]? = some c' ∨
      ∃ l', Path ((h.set y c).set x (.mmap m)) z l' := by
    intro z c' hz
    by_cases hzx : z = x
    · rw [hzx]
      exact .inr ⟨_, hroot⟩
    · rw [getElem?_set_ne (Ne.symm hzx)]
      by_cases hzy : z = y
      · subst hzy
        refine .inr ⟨_, .edge (c := c) ?_ hc hroot⟩
        rw [getElem?_set_ne (Ne.symm hzx), getElem?_set_self (List.getElem?_eq_some_iff.mp hz).1]
      · exact .inl (by rw [getElem?_set_ne (Ne.symm hzy), hz])
  refine ⟨by simpa using hinv.length, fun z c' f' hz hf' => ?_, fun z hz => ?_⟩
  · grind [Fits, Inv]
  · obtain ⟨l, p⟩ := hinv.path z (by simpa using hz)
    exact p.mono hcell

theorem get_spec {fuel : ℕ} (p : Path h x l) (hl : l.length ≤ fuel) :
    ∃ m h', get fuel x h = .ok (m, h') ∧ Extmap.find? m = f ∧ Inv h' vs := by
  induction fuel generalizing x l f with
  | zero => cases p <;> simp at hl
  | succ fuel ih =>
    cases p with
    | @root _ c hx hc =>
      cases c with
      | mmap m => exact ⟨m, h, by simp [get, hx], hinv.fits x _ f hx hf, hinv⟩
      | _ => cases hc
    | @edge _ y c l hx hc p =>
      have hfits := hinv.fits x c f hx hf
      cases c with
      | mmap m => cases hc
      | madd d y' =>
        cases hc
        obtain ⟨g, hg, hglued⟩ := hfits
        obtain ⟨my, h₁, hget, rfl, hinv₁⟩ := ih hg p (by simpa using hl)
        obtain ⟨mx, hunion, hmx⟩ := hglued.union
        refine ⟨mx, _, ?_, hmx, hinv₁.turn (c := .msub d x) hf hg hmx rfl ⟨f, hf, hglued⟩⟩
        simp [get, hx, hget, hunion, bind, Except.bind]
      | msub d y' =>
        cases hc
        obtain ⟨g, hg, hglued⟩ := hfits
        obtain ⟨my, h₁, hget, rfl, hinv₁⟩ := ih hg p (by simpa using hl)
        have hmx := hglued.setDiff
        refine ⟨_, _, ?_, hmx, hinv₁.turn (c := .madd d x) hf hg hmx rfl ⟨f, hf, hglued⟩⟩
        simp [get, hx, hget, bind, Except.bind]

theorem Inv.get_eq : ∃ m h', get h.length x h = .ok (m, h') ∧ Extmap.find? m = f ∧ Inv h' vs := by
  obtain ⟨l, p⟩ := hinv.path x (hinv.length ▸ (List.getElem?_eq_some_iff.mp hf).1)
  exact get_spec hinv hf p p.length_le

end

theorem get_error (hx : h[x]? = none) (fuel : ℕ) : ∃ e, get fuel x h = .error e := by
  cases fuel with
  | zero => exact ⟨_, rfl⟩
  | succ fuel => exact ⟨.noVersion, by simp [get, hx]⟩

theorem Fits.append (hc : Fits vs f c) : Fits (vs ++ [g]) f c := by
  have hold : ∀ {y : ℕ} {f' : κ → Option α}, vs[y]? = some f' → (vs ++ [g])[y]? = some f' :=
    fun hy => by rw [getElem?_append_left (List.getElem?_eq_some_iff.mp hy).1, hy]
  cases c with
  | mmap m => exact hc
  | madd d y | msub d y => exact hc.imp fun _ hg => ⟨hold hg.1, hg.2⟩

theorem Inv.newVersion (hinv : Inv h vs) (m : M) :
    Inv (h ++ [.mmap m]) (vs ++ [Extmap.find? m]) := by
  have hold : ∀ {z : ℕ} {c : Diff M}, h[z]? = some c → (h ++ [Diff.mmap m])[z]? = some c :=
    fun hz => by rw [getElem?_append_left (List.getElem?_eq_some_iff.mp hz).1, hz]
  have hlen := hinv.length
  refine ⟨by simp [hlen], fun z c f' hz hf' => ?_, fun z hz => ?_⟩
  · by_cases hlt : z < h.length
    · rw [getElem?_append_left hlt] at hz
      rw [getElem?_append_left (hlen ▸ hlt)] at hf'
      exact (hinv.fits z c f' hz hf').append
    · have heq : z = h.length := by
        have := (List.getElem?_eq_some_iff.mp hz).1
        simp at this
        omega
      rw [heq, getElem?_concat_length] at hz
      rw [heq, hlen, getElem?_concat_length] at hf'
      cases hz
      exact Option.some.inj hf'
  · by_cases hlt : z < h.length
    · obtain ⟨l, p⟩ := hinv.path z hlt
      exact p.mono fun _ _ hz => .inl (hold hz)
    · have heq : z = h.length := by
        simp at hz
        omega
      exact ⟨_, .root (heq ▸ getElem?_concat_length) rfl⟩

theorem Inv.derive (hinv : Inv h vs) (hf : vs[x]? = some f) (hm : Glued f d (Extmap.find? m)) :
    Inv (h.set x (.msub d h.length) ++ [.mmap m]) (vs ++ [Extmap.find? m]) := by
  have hx := (List.getElem?_eq_some_iff.mp hf).1
  have hnew : (vs ++ [Extmap.find? m])[h.length]? = some (Extmap.find? m) := by
    rw [hinv.length, getElem?_concat_length]
  have hturn := (hinv.newVersion m).turn (c := .msub d h.length) hnew
    (by rw [getElem?_append_left hx, hf]) rfl rfl ⟨_, hnew, hm⟩
  rwa [set_append_left _ _ (hinv.length ▸ hx), set_append_right _ _ (by simp),
    length_set, Nat.sub_self] at hturn

theorem union_eq_none_iff : Extmap.union m d = none ↔ ¬ Apart (Extmap.find? m) d := by
  rw [Extmap.union_eq_none, Apart, not_forall]
  refine exists_congr fun k => ?_
  rw [not_or, ← ne_eq, ← ne_eq, Option.isSome_iff_ne_none, Option.isSome_iff_ne_none]

theorem step_spec (hinv : Inv h vs) (op : Op M) :
    match specStep vs op with
    | some (r, vs') => ∃ r' h', step h op = .ok (r', h') ∧ r'.read = r ∧ Inv h' vs'
    | none => ∃ e, step h op = .error e := by
  have hlen := hinv.length
  cases op with
  | empty =>
    refine ⟨_, _, rfl, congrArg _ hlen, ?_⟩
    rw [← funext (Extmap.find?_empty (M := M))]
    exact hinv.newVersion _
  | create m => exact ⟨_, _, rfl, congrArg _ hlen, hinv.newVersion m⟩
  | get x =>
    cases hf : vs[x]? with
    | none =>
      obtain ⟨e, he⟩ := get_error (h := h) (by simpa [hlen] using hf) h.length
      simp only [specStep, hf, Option.map_none]
      exact ⟨e, by rw [step, he]; rfl⟩
    | some f =>
      obtain ⟨m, h', hget, hm, hinv'⟩ := hinv.get_eq hf
      simp only [specStep, hf, Option.map_some]
      exact ⟨.map m, h', by rw [step, hget]; rfl, by rw [Reply.read, hm], hinv'⟩
  | union x d =>
    cases hf : vs[x]? with
    | none =>
      obtain ⟨e, he⟩ := get_error (h := h) (by simpa [hlen] using hf) h.length
      have hx : ¬ x < h.length := by simpa [hlen] using hf
      simp only [specStep, hf, Option.map_none]
      exact ⟨e, by rw [step, union, if_neg (fun hc => hx hc.1), he]; rfl⟩
    | some f =>
      have hx : x < h.length := hlen ▸ (List.getElem?_eq_some_iff.mp hf).1
      obtain ⟨m, h', hget, rfl, hinv'⟩ := hinv.get_eq hf
      simp only [specStep, hf, Option.map_some]
      by_cases hd : Extmap.isEmpty d
      · rw [if_pos hd]
        exact ⟨_, h, if_pos ⟨hx, hd⟩, rfl, hinv⟩
      rw [if_neg hd]
      have hstep : step h (.union x d) = _ := if_neg (fun hc => hd hc.2)
      rw [hstep, hget]
      cases hm : Extmap.union m d with
      | none =>
        rw [if_neg (union_eq_none_iff.mp hm)]
        exact ⟨.duplicate, h', by simp [hm, bind, Except.bind], rfl, hinv'⟩
      | some m' =>
        have hapart : Apart (Extmap.find? m) d :=
          not_not.mp fun hn => by simp [union_eq_none_iff.mpr hn] at hm
        have hglue := funext (Extmap.find?_union m d m' hm)
        rw [if_pos hapart]
        refine ⟨_, _, by simp [hm, bind, Except.bind]; rfl, ?_, ?_⟩
        · simp [Reply.read, hinv'.length]
        · have hderive := hinv'.derive hf ⟨hapart, hglue⟩
          rwa [hglue] at hderive

theorem run_spec (ops : List (Op M)) (hinv : Inv h vs) :
    (run h ops).toOption.map (map Reply.read) = specRun vs ops := by
  induction ops generalizing h vs with
  | nil => rfl
  | cons op ops ih =>
    have hstep := step_spec hinv op
    cases hs : specStep vs op with
    | none =>
      rw [hs] at hstep
      obtain ⟨e, he⟩ := hstep
      simp [run, specRun, hs, he, bind, Except.bind, Except.toOption]
    | some p =>
      obtain ⟨r, vs'⟩ := p
      rw [hs] at hstep
      obtain ⟨r', h', he, hr, hinv'⟩ := hstep
      have hrest := ih hinv'
      simp only [run, specRun, hs, he, bind, Except.bind, Option.bind]
      rw [← hrest]
      cases run h' ops <;> simp [Except.toOption, hr]

/-- Every version keeps its map, whatever happens to the cells. -/
theorem run_persistent (ops : List (Op M)) :
    (run ([] : Heap M) ops).toOption.map (map Reply.read) = specRun [] ops :=
  run_spec ops ⟨rfl, fun _ _ _ hx => by simp at hx, fun _ hx => by simp at hx⟩

end Why3.Diffmap
