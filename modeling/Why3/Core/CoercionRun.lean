import Why3.Core.CoercionClosure
import Why3.Lib.Reach
import Mathlib.Data.Set.Insert

/-!
# Runs of the coercion map

A coercion map is obtained from the empty one by successful calls of `add` and
`union`. Along every such run it relates exactly the type symbols that are
reachable through the symbols added so far, and no type symbol is reachable
from itself. Whether the lists that `find` returns are composable depends on the
run: they are as long as no coercion is added between two existing ones.
-/

namespace Why3

open List

namespace Coercion

open Lib Relation

variable {crc : Crc} {m : CrcMap} {guard : CrcMap → Crc → Prop} {l : List LSymbol} {s : Set LSymbol}
variable {a b b' : TySymbol}
variable {P : CrcMap → Set LSymbol → Prop} {ls : LSymbol} {a' : TySymbol}

/-- The function symbol `f` takes a type headed by `a` to a type headed by `b`. -/
def Arrow (f : LSymbol) (a b : TySymbol) : Prop :=
  ∃ tl₁ tl₂, f.lsArgs = [.tyapp a tl₁] ∧ f.lsValue = some (.tyapp b tl₂)

def Edge (s : Set LSymbol) (a b : TySymbol) : Prop := ∃ ls ∈ s, Arrow ls a b

/-- A composable list of function symbols: the first one takes a type headed by
`a`, each result is the argument of the next one, and the last result is headed
by `b`. -/
def Chain : TySymbol → List LSymbol → TySymbol → Prop
  | a, [], b => a = b
  | a, f :: l, b => ∃ c, Arrow f a c ∧ Chain c l b

theorem Arrow.unique {f : LSymbol} (h : Arrow f a b) (h' : Arrow f a' b') : a = a' ∧ b = b' := by
  obtain ⟨tl₁, tl₂, hargs, hval⟩ := h
  obtain ⟨tl₁', tl₂', hargs', hval'⟩ := h'
  rw [hargs] at hargs'
  rw [hval] at hval'
  simp only [cons.injEq, Ty.tyapp.injEq, and_true] at hargs'
  simp only [Option.some.injEq, Ty.tyapp.injEq] at hval'
  exact ⟨hargs'.1, hval'.1⟩

theorem chain_append {l' : List LSymbol} :
    Chain a (l ++ l') b ↔ ∃ c, Chain a l c ∧ Chain c l' b := by
  induction l generalizing a with
  | nil => simp [Chain]
  | cons f l ih =>
    simp only [cons_append, Chain, ih]
    constructor
    · rintro ⟨c, hf, d, hl, hl'⟩
      exact ⟨d, ⟨c, hf, hl⟩, hl'⟩
    · rintro ⟨d, ⟨c, hf, hl⟩, hl'⟩
      exact ⟨c, hf, d, hl, hl'⟩

theorem chain_target_unique (h : Chain a l b) (h' : Chain a l b') : b = b' := by
  induction l generalizing a with
  | nil => exact h.symm.trans h'
  | cons f l ih =>
    obtain ⟨c, hf, hl⟩ := h
    obtain ⟨c', hf', hl'⟩ := h'
    obtain ⟨_, rfl⟩ := hf.unique hf'
    exact ih hl hl'

theorem chain_source_unique (hl : l ≠ []) (h : Chain a l b) (h' : Chain a' l b') : a = a' := by
  cases l with
  | nil => exact absurd rfl hl
  | cons f l =>
    obtain ⟨c, hf, _⟩ := h
    obtain ⟨c', hf', _⟩ := h'
    exact (hf.unique hf').1

theorem lsListOf_append (acc : List LSymbol) (k : CoercionKind) :
    lsListOf acc k = lsListOf [] k ++ acc := by
  induction k generalizing acc with
  | crcLeaf ls => simp [lsListOf]
  | crcComp k₁ k₂ ih₁ ih₂ =>
    simp only [lsListOf]
    rw [ih₁, ih₂, ih₁ (lsListOf [] k₂), append_assoc]

theorem lsListOf_comp (k₁ k₂ : CoercionKind) :
    lsListOf [] (.crcComp k₁ k₂) = lsListOf [] k₁ ++ lsListOf [] k₂ := by
  simp only [lsListOf]
  exact lsListOf_append _ _

theorem lsListOf_ne_nil (k : CoercionKind) : lsListOf [] k ≠ [] := by
  induction k with
  | crcLeaf ls => simp [lsListOf]
  | crcComp k₁ k₂ ih₁ _ =>
    rw [lsListOf_comp]
    simp [ih₁]

theorem createCrc_eq_ok_iff (ls : LSymbol) (crc : Crc) :
    createCrc ls = .ok crc ↔
      crc.crcKind = .crcLeaf ls ∧ crc.crcSrcTs ≠ crc.crcTarTs ∧
        ls.lsArgs = [.tyapp crc.crcSrcTs crc.crcSrcTl] ∧
        ls.lsValue = some (.tyapp crc.crcTarTs crc.crcTarTl) := by
  unfold createCrc
  split
  · next ts₁ tl₁ ts₂ tl₂ hargs hval =>
      obtain ⟨kind, src, srcTl, tar, tarTl⟩ := crc
      by_cases hts : ts₁ = ts₂
      · simp only [hts, if_true, hargs, hval, reduceCtorEq, false_iff, cons.injEq,
          Ty.tyapp.injEq, Option.some.injEq]
        rintro ⟨_, hne, ⟨⟨rfl, _⟩, _⟩, rfl, _⟩
        exact hne rfl
      · simp only [hts, if_false, Except.ok.injEq, Crc.mk.injEq, hargs, hval,
          cons.injEq, Ty.tyapp.injEq, Option.some.injEq, and_true]
        constructor
        · rintro ⟨rfl, rfl, rfl, rfl, rfl⟩
          exact ⟨rfl, hts, ⟨rfl, rfl⟩, rfl, rfl⟩
        · rintro ⟨rfl, _, ⟨rfl, rfl⟩, rfl, rfl⟩
          exact ⟨rfl, rfl, rfl, rfl, rfl⟩
  · next hno =>
      simp only [reduceCtorEq, false_iff]
      rintro ⟨_, _, hargs, hval⟩
      exact hno _ _ _ _ hargs hval

/-! ## What every run keeps -/

/-- The map `m` has been built from the symbols of `s`: it relates what they make
reachable, it closes no cycle, and its leaves are the coercions of `s`. -/
structure Built (m : CrcMap) (s : Set LSymbol) : Prop where
  keyed : Keyed m
  reach : ∀ a b, (∃ c, findCrc m a b = some c) ↔ TransGen (Edge s) a b
  acyclic : ∀ a, ¬ TransGen (Edge s) a a
  leaf_mem : ∀ a b c ls, findCrc m a b = some c → c.crcKind = .crcLeaf ls →
    ls ∈ s ∧ createCrc ls = .ok c
  leaf_bound : ∀ ls ∈ s, ∃ a b c, findCrc m a b = some c ∧ c.crcKind = .crcLeaf ls

theorem built_empty : Built .empty ∅ where
  keyed := fun _ _ _ h => absurd h (by simp [findCrc])
  reach := by
    intro a b
    constructor
    · rintro ⟨c, hc⟩
      exact absurd hc (by simp [findCrc])
    · intro h
      obtain ⟨_, ⟨ls, hls, _⟩, _⟩ := TransGen.head'_iff.mp h
      exact absurd hls (by simp)
  acyclic := by
    intro a h
    obtain ⟨_, ⟨ls, hls, _⟩, _⟩ := TransGen.head'_iff.mp h
    exact absurd hls (by simp)
  leaf_mem := fun _ _ _ _ h => absurd h (by simp [findCrc])
  leaf_bound := fun _ h => absurd h (by simp)

theorem edge_insert (hcrc : createCrc ls = .ok crc) (s : Set LSymbol) :
    Edge (Insert.insert ls s) = AddEdge (Edge s) crc.crcSrcTs crc.crcTarTs := by
  obtain ⟨_, _, hargs, hval⟩ := (createCrc_eq_ok_iff ls crc).mp hcrc
  have harrow : Arrow ls crc.crcSrcTs crc.crcTarTs := ⟨_, _, hargs, hval⟩
  funext a b
  apply propext
  constructor
  · rintro ⟨f, hf, hab⟩
    rcases hf with rfl | hf
    · exact .inr (hab.unique harrow)
    · exact .inl ⟨f, hf, hab⟩
  · rintro (⟨f, hf, hab⟩ | ⟨rfl, rfl⟩)
    · exact ⟨f, .inr hf, hab⟩
    · exact ⟨ls, .inl rfl, harrow⟩

section Step

variable {m m' : CrcMap} {s : Set LSymbol} {ls : LSymbol} {crc : Crc}

/-- A coercion that is bound in the map is not bound from a type symbol to
itself. -/
theorem Built.findCrc_self (hm : Built m s) (a : TySymbol) : findCrc m a a = none := by
  cases h : findCrc m a a with
  | none => rfl
  | some c => exact absurd ((hm.reach a a).mp ⟨c, h⟩) (hm.acyclic a)

/-- The step lemma: one successful `addCrc` keeps what has been built. -/
theorem addCrc_built (hm : Built m s) (hcrc : createCrc ls = .ok crc)
    (h : addCrc m crc = .ok m') : Built m' (Insert.insert ls s) := by
  obtain ⟨hkind, hne, _, _⟩ := (createCrc_eq_ok_iff ls crc).mp hcrc
  let Q : TySymbol → TySymbol → Crc → Prop := fun a b c =>
    (c.crcSrcTs = a ∧ c.crcTarTs = b) ∧
      ∀ ls', c.crcKind = .crcLeaf ls' → ls' ∈ Insert.insert ls s ∧ createCrc ls' = .ok c
  have hQ : Covers Q m crc := by
    refine ⟨⟨⟨rfl, rfl⟩, ?_⟩, ?_, ?_, ?_⟩
    · intro ls' hk
      rw [hkind] at hk
      cases hk
      exact ⟨.inl rfl, hcrc⟩
    · intro z c hc
      exact ⟨⟨rfl, (hm.keyed _ _ _ hc).2⟩, fun ls' hk => absurd hk (by simp [compose])⟩
    · intro a c hc
      exact ⟨⟨(hm.keyed _ _ _ hc).1, rfl⟩, fun ls' hk => absurd hk (by simp [compose])⟩
    · intro a c₁ z c₂ hc₁ hc₂
      exact ⟨⟨(hm.keyed _ _ _ hc₁).1, (hm.keyed _ _ _ hc₂).2⟩,
        fun ls' hk => absurd hk (by simp [compose])⟩
  obtain ⟨hcyc, hg, ⟨o, ho, hko⟩, hright, hleft⟩ :=
    addCrc_spec hne hm.keyed (hm.findCrc_self _) hQ h
  have hts : ¬ TransGen (Edge s) crc.crcTarTs crc.crcSrcTs := by
    rw [← hm.reach, hcyc]
    simp
  refine ⟨?_, ?_, ?_, ?_, ?_⟩
  · intro a b c hc
    rcases hg.2 a b c hc with hcm | ⟨hq, _⟩
    · exact hm.keyed a b c hcm
    · exact hq.1
  · -- the pairs that are bound are the old ones and those around the new edge
    intro a b
    rw [edge_insert hcrc, transGen_addEdge_iff, reflTransGen_iff_eq_or_transGen,
      reflTransGen_iff_eq_or_transGen, ← hm.reach, ← hm.reach, ← hm.reach]
    constructor
    · rintro ⟨c, hc⟩
      rcases hg.2 a b c hc with hcm | ⟨_, ha, hb⟩
      · exact .inl ⟨c, hcm⟩
      · exact .inr ⟨ha.imp_left Eq.symm, hb⟩
    · rintro (⟨c, hc⟩ | ⟨rfl | ⟨c₁, hc₁⟩, rfl | ⟨c₂, hc₂⟩⟩)
      · exact ⟨c, hg.1 _ _ _ hc⟩
      · exact ⟨o, ho⟩
      · obtain ⟨o', ho', _⟩ := hright b c₂ hc₂
        exact ⟨o', ho'⟩
      · obtain ⟨⟨o', ho', _⟩, _⟩ := hleft a c₁ hc₁
        exact ⟨o', ho'⟩
      · obtain ⟨o', ho', _⟩ := (hleft a c₁ hc₁).2 b c₂ hc₂
        exact ⟨o', ho'⟩
  · intro a
    rw [edge_insert hcrc]
    exact transGen_addEdge_irrefl hm.acyclic hne hts a
  · intro a b c ls' hc hk
    rcases hg.2 a b c hc with hcm | ⟨hq, _⟩
    · obtain ⟨hmem, hok⟩ := hm.leaf_mem a b c ls' hcm hk
      exact ⟨.inr hmem, hok⟩
    · exact hq.2 ls' hk
  · rintro ls' (rfl | hmem)
    · exact ⟨_, _, o, ho, hko.trans hkind⟩
    · obtain ⟨a, b, c, hc, hk⟩ := hm.leaf_bound ls' hmem
      exact ⟨a, b, c, hg.1 _ _ _ hc, hk⟩

def Chains (m : CrcMap) : Prop :=
  ∀ a b c, findCrc m a b = some c → Chain a (lsListOf [] c.crcKind) b

/-- The coercion `crc` is not added between two existing ones: no coercion leads
to its source, or none leaves its target. -/
def NotBetween (m : CrcMap) (crc : Crc) : Prop :=
  ¬ ((∃ a, mem m a crc.crcSrcTs = true) ∧ ∃ b, mem m crc.crcTarTs b = true)

theorem chain_compose {c : TySymbol} {c₁ c₂ : Crc} (h₁ : Chain a (lsListOf [] c₁.crcKind) b)
    (h₂ : Chain b (lsListOf [] c₂.crcKind) c) :
    Chain a (lsListOf [] (compose c₁ c₂).crcKind) c := by
  change Chain a (lsListOf [] (.crcComp c₁.crcKind c₂.crcKind)) c
  rw [lsListOf_comp, chain_append]
  exact ⟨b, h₁, h₂⟩

/-- After a successful `addCrc`, the lists are composable exactly when the
coercion was not added between two existing ones. -/
theorem addCrc_chains_iff (hm : Built m s) (hch : Chains m)
    (hcrc : createCrc ls = .ok crc) (h : addCrc m crc = .ok m') : Chains m' ↔ NotBetween m crc := by
  obtain ⟨hkind, hne, hargs, hval⟩ := (createCrc_eq_ok_iff ls crc).mp hcrc
  have hself : Chain crc.crcSrcTs (lsListOf [] crc.crcKind) crc.crcTarTs := by
    rw [hkind]
    exact ⟨_, ⟨_, _, hargs, hval⟩, rfl⟩
  constructor
  · -- the composite on both sides skips the new coercion
    rintro hch' ⟨⟨a, ha⟩, z, hz⟩
    obtain ⟨c₁, hc₁⟩ := (mem_eq_true_iff _ _ _).mp ha
    obtain ⟨c₂, hc₂⟩ := (mem_eq_true_iff _ _ _).mp hz
    obtain ⟨_, _, _, _, hleft⟩ := addCrc_spec (Q := fun _ _ _ => True) hne hm.keyed
      (hm.findCrc_self _) ⟨trivial, fun _ _ _ => trivial, fun _ _ _ => trivial,
        fun _ _ _ _ _ _ => trivial⟩ h
    obtain ⟨o, ho, hko⟩ := (hleft a c₁ hc₁).2 z c₂ hc₂
    have hchain := hch' a z o ho
    rw [hko, lsListOf_comp, chain_append] at hchain
    obtain ⟨b, hb₁, hb₂⟩ := hchain
    have hsrc : crc.crcSrcTs = b := chain_target_unique (hch _ _ _ hc₁) hb₁
    have htar : crc.crcTarTs = b :=
      chain_source_unique (lsListOf_ne_nil _) (hch _ _ _ hc₂) hb₂
    exact hne (hsrc.trans htar.symm)
  · intro hnot
    have hQ : Covers (fun a b c => Chain a (lsListOf [] c.crcKind) b) m crc := by
      refine ⟨hself, ?_, ?_, ?_⟩
      · intro z c hc
        exact chain_compose hself (hch _ _ _ hc)
      · intro a c hc
        exact chain_compose (hch _ _ _ hc) hself
      · intro a c₁ z c₂ hc₁ hc₂
        exact absurd ⟨⟨a, (mem_eq_true_iff _ _ _).mpr ⟨c₁, hc₁⟩⟩, z,
          (mem_eq_true_iff _ _ _).mpr ⟨c₂, hc₂⟩⟩ hnot
    obtain ⟨_, hg, _⟩ := addCrc_spec hne hm.keyed (hm.findCrc_self _) hQ h
    intro a b c hc
    rcases hg.2 a b c hc with hcm | ⟨hq, _⟩
    · exact hch a b c hcm
    · exact hq

end Step

/-! ## Runs -/

def isLeaf (crc : Crc) : Bool :=
  match crc.crcKind with
  | .crcLeaf _ => true
  | .crcComp _ _ => false

theorem isLeaf_eq_true_iff (crc : Crc) : isLeaf crc = true ↔ ∃ ls, crc.crcKind = .crcLeaf ls := by
  unfold isLeaf
  cases crc.crcKind with
  | crcLeaf ls => simp
  | crcComp k₁ k₂ => simp

/-- The coercions of a map that are function symbols, in the order in which
`union` visits them. -/
def leaves (m : CrcMap) : List Crc :=
  m.bindings.flatMap fun row => (row.2.bindings.map Prod.snd).filter isLeaf

theorem foldlM_unionAdd (l : List (TySymbol × Crc)) (m : CrcMap) :
    l.foldlM (fun acc b => unionAdd b.1 b.2 acc) m =
      ((l.map Prod.snd).filter isLeaf).foldlM addCrc m := by
  induction l generalizing m with
  | nil => rfl
  | cons b l ih =>
    obtain ⟨ty, crc⟩ := b
    cases hk : crc.crcKind with
    | crcLeaf ls =>
      simp only [map_cons, foldlM_cons, unionAdd, hk, filter_cons, isLeaf, if_true]
      congr 1
      funext m'
      exact ih m'
    | crcComp k₁ k₂ =>
      simp only [map_cons, foldlM_cons, unionAdd, hk, filter_cons, isLeaf]
      exact ih m

theorem union_eq_foldlM (m₁ m₂ : CrcMap) : union m₁ m₂ = (leaves m₂).foldlM addCrc m₁ := by
  unfold union leaves TagMap.foldM
  generalize m₂.bindings = l
  induction l generalizing m₁ with
  | nil => rfl
  | cons row l ih =>
    rw [foldlM_cons, flatMap_cons, foldlM_append, ← foldlM_unionAdd]
    congr 1
    funext m'
    exact ih m'

theorem mem_leaves_iff (m : CrcMap) (crc : Crc) :
    crc ∈ leaves m ↔ (∃ a b, findCrc m a b = some crc) ∧ ∃ ls, crc.crcKind = .crcLeaf ls := by
  simp only [leaves, mem_flatMap, mem_filter, mem_map, isLeaf_eq_true_iff]
  constructor
  · rintro ⟨⟨a, row⟩, hrow, ⟨⟨b, c⟩, hc, rfl⟩, hls⟩
    refine ⟨⟨a, b, ?_⟩, hls⟩
    rw [← TagMap.find?_eq_some_iff] at hrow hc
    simp [findCrc, hrow, hc]
  · rintro ⟨⟨a, b, hab⟩, hls⟩
    obtain ⟨row, hrow, hc⟩ := Option.bind_eq_some_iff.mp hab
    rw [TagMap.find?_eq_some_iff] at hrow hc
    exact ⟨(a, row), hrow, ⟨(b, crc), hc, rfl⟩, hls⟩

def GuardAll (guard : CrcMap → Crc → Prop) : CrcMap → List Crc → Prop
  | _, [] => True
  | m, crc :: l => guard m crc ∧ ∀ m', addCrc m crc = .ok m' → GuardAll guard m' l

/-- The maps that are obtained from the empty one by successful calls of `add` and
`union`, with the symbols that have been added, the guard being true before each
coercion that is added. -/
inductive Run (guard : CrcMap → Crc → Prop) : CrcMap → Set LSymbol → Prop
  | empty : Run guard .empty ∅
  | add {m m' : CrcMap} {s : Set LSymbol} {ls : LSymbol} :
      Run guard m s → (∀ crc, createCrc ls = .ok crc → guard m crc) →
      add m ls = .ok m' → Run guard m' (Insert.insert ls s)
  | union {m₁ m₂ m' : CrcMap} {s₁ s₂ : Set LSymbol} :
      Run guard m₁ s₁ → Run guard m₂ s₂ → GuardAll guard m₁ (leaves m₂) →
      union m₁ m₂ = .ok m' → Run guard m' (s₁ ∪ s₂)

theorem add_eq_ok_iff (m m' : CrcMap) (ls : LSymbol) :
    add m ls = .ok m' ↔ ∃ crc, createCrc ls = .ok crc ∧ addCrc m crc = .ok m' :=
  bind_eq_ok

def symbolsOf (l : List Crc) : Set LSymbol := {ls | ∃ crc ∈ l, createCrc ls = .ok crc}

theorem symbolsOf_cons (hcrc : createCrc ls = .ok crc) (l : List Crc) :
    symbolsOf (crc :: l) = Insert.insert ls (symbolsOf l) := by
  ext ls'
  simp only [symbolsOf, Set.mem_ofPred_eq, mem_cons, exists_eq_or_imp, Set.mem_insert_iff]
  apply or_congr_left
  constructor
  · intro h
    have hk := ((createCrc_eq_ok_iff ls crc).mp hcrc).1
    have hk' := ((createCrc_eq_ok_iff ls' crc).mp h).1
    rw [hk] at hk'
    cases hk'
    rfl
  · rintro rfl
    exact hcrc

/-- What each coercion that is added keeps is kept along a list of them. -/
theorem foldlM_addCrc_keeps
    (hstep : ∀ {m m' s ls crc}, P m s → guard m crc → createCrc ls = .ok crc →
      addCrc m crc = .ok m' → P m' (Insert.insert ls s)) {l : List Crc} {m' : CrcMap} (hm : P m s)
    (hl : ∀ crc ∈ l, ∃ ls, createCrc ls = .ok crc) (hguard : GuardAll guard m l)
    (h : l.foldlM addCrc m = .ok m') : P m' (symbolsOf l ∪ s) := by
  induction l generalizing m s with
  | nil =>
    rw [foldlM_nil_eq_ok] at h
    subst h
    simpa [symbolsOf] using hm
  | cons crc l ih =>
    obtain ⟨t, ht, hrest⟩ := foldlM_cons_eq_ok.mp h
    obtain ⟨ls, hcrc⟩ := hl crc (by simp)
    have hres := ih (hstep hm hguard.1 hcrc ht) (fun c hc => hl c (by simp [hc]))
      (hguard.2 t ht) hrest
    rw [symbolsOf_cons hcrc, Set.insert_union, ← Set.union_insert]
    exact hres

theorem Built.leaves_createCrc (hm : Built m s) :
    ∀ crc ∈ leaves m, ∃ ls, createCrc ls = .ok crc := by
  intro crc hcrc
  obtain ⟨⟨a, b, hab⟩, ls, hk⟩ := (mem_leaves_iff m crc).mp hcrc
  exact ⟨ls, (hm.leaf_mem a b crc ls hab hk).2⟩

theorem Built.symbolsOf_leaves (hm : Built m s) : symbolsOf (leaves m) = s := by
  ext ls
  constructor
  · rintro ⟨crc, hcrc, hls⟩
    obtain ⟨⟨a, b, hab⟩, _⟩ := (mem_leaves_iff m crc).mp hcrc
    exact (hm.leaf_mem a b crc ls hab ((createCrc_eq_ok_iff ls crc).mp hls).1).1
  · intro hls
    obtain ⟨a, b, crc, hab, hk⟩ := hm.leaf_bound ls hls
    exact ⟨crc, (mem_leaves_iff m crc).mpr ⟨⟨a, b, hab⟩, ls, hk⟩, (hm.leaf_mem a b crc ls hab hk).2⟩

/-- The run lemma: what each coercion that is added keeps holds of every map that is built. -/
theorem Run.keeps (hempty : P .empty ∅)
    (hstep : ∀ {m m' s ls crc}, Built m s → P m s → guard m crc → createCrc ls = .ok crc →
      addCrc m crc = .ok m' → P m' (Insert.insert ls s)) (h : Run guard m s) :
    Built m s ∧ P m s := by
  have hboth : ∀ {m m' s ls crc}, Built m s ∧ P m s → guard m crc → createCrc ls = .ok crc →
      addCrc m crc = .ok m' → Built m' (Insert.insert ls s) ∧ P m' (Insert.insert ls s) :=
    fun hm hguard hcrc h => ⟨addCrc_built hm.1 hcrc h, hstep hm.1 hm.2 hguard hcrc h⟩
  induction h with
  | empty => exact ⟨built_empty, hempty⟩
  | add _ hguard hadd ih =>
    obtain ⟨crc, hcrc, hm'⟩ := (add_eq_ok_iff _ _ _).mp hadd
    exact hboth ih (hguard crc hcrc) hcrc hm'
  | union _ _ hguard hunion ih₁ ih₂ =>
    rw [union_eq_foldlM] at hunion
    have hres := foldlM_addCrc_keeps (P := fun m s => Built m s ∧ P m s) hboth ih₁
      ih₂.1.leaves_createCrc hguard hunion
    rwa [ih₂.1.symbolsOf_leaves, Set.union_comm] at hres

theorem Run.built (h : Run guard m s) : Built m s :=
  (h.keeps (P := fun _ _ => True) trivial fun _ _ _ _ _ => trivial).1

theorem Run.chains (h : Run NotBetween m s) : Chains m :=
  (h.keeps (P := fun m _ => Chains m) (fun _ _ _ h => absurd h (by simp [findCrc]))
    fun hm hch hnot hcrc hadd => (addCrc_chains_iff hm hch hcrc hadd).mpr hnot).2

/-! ## What `find` returns -/

mutual

theorem mayMatch_self : ∀ ty, mayMatch ty ty = .ok ()
  | .tyvar tv => by rw [mayMatch]
  | .tyapp ts tl => by
    rw [mayMatch, if_pos rfl]
    exact mayMatchList_self tl

theorem mayMatchList_self : ∀ tl, mayMatchList tl tl = .ok ()
  | [] => by rw [mayMatchList]
  | ty :: tl => by
    rw [mayMatchList, mayMatch_self ty]
    exact mayMatchList_self tl

end

theorem find_eq_ok_iff (m : CrcMap) (ts₁ ts₂ : TySymbol) (tl₁ tl₂ : List Ty) (l : List LSymbol) :
    find m (.tyapp ts₁ tl₁) (.tyapp ts₂ tl₂) = .ok l ↔
      ∃ crc, findCrc m ts₁ ts₂ = some crc ∧ mayMatchList tl₁ crc.crcSrcTl = .ok () ∧
        mayMatchList tl₂ crc.crcTarTl = .ok () ∧ lsListOf [] crc.crcKind = l := by
  cases hf : findCrc m ts₁ ts₂ with
  | none => simp [find, hf]
  | some crc =>
    simp only [find, hf, bind_eq_ok, Option.some.injEq, Except.ok.injEq]
    constructor
    · rintro ⟨⟨⟩, hsrc, ⟨⟩, htar, hl⟩
      exact ⟨crc, rfl, hsrc, htar, hl⟩
    · rintro ⟨_, rfl, hsrc, htar, hl⟩
      exact ⟨(), hsrc, (), htar, hl⟩

/-- The map is the transitive closure of the symbols of `s`: `find` is defined, at
arguments that are compatible, exactly between the type symbols that are
reachable from each other, the lists that it returns are composable, and no type
symbol is reachable from itself. -/
structure Correct (m : CrcMap) (s : Set LSymbol) : Prop where
  defined_iff : ∀ ts₁ ts₂,
    (∃ tl₁ tl₂ l, find m (.tyapp ts₁ tl₁) (.tyapp ts₂ tl₂) = .ok l) ↔
      TransGen (Edge s) ts₁ ts₂
  composable : ∀ ts₁ tl₁ ts₂ tl₂ l,
    find m (.tyapp ts₁ tl₁) (.tyapp ts₂ tl₂) = .ok l → l ≠ [] ∧ Chain ts₁ l ts₂
  acyclic : ∀ ts, ¬ TransGen (Edge s) ts ts

theorem Built.correct_iff_chains (hm : Built m s) : Correct m s ↔ Chains m := by
  constructor
  · intro hc a b c hab
    have hfind := (find_eq_ok_iff m a b c.crcSrcTl c.crcTarTl _).mpr
      ⟨c, hab, mayMatchList_self _, mayMatchList_self _, rfl⟩
    exact (hc.composable _ _ _ _ _ hfind).2
  · intro hch
    refine ⟨?_, ?_, hm.acyclic⟩
    · intro ts₁ ts₂
      rw [← hm.reach]
      constructor
      · rintro ⟨tl₁, tl₂, l, hl⟩
        obtain ⟨crc, hcrc, _⟩ := (find_eq_ok_iff _ _ _ _ _ _).mp hl
        exact ⟨crc, hcrc⟩
      · rintro ⟨crc, hcrc⟩
        exact ⟨crc.crcSrcTl, crc.crcTarTl, _, (find_eq_ok_iff _ _ _ _ _ _).mpr
          ⟨crc, hcrc, mayMatchList_self _, mayMatchList_self _, rfl⟩⟩
    · intro ts₁ tl₁ ts₂ tl₂ l hl
      obtain ⟨crc, hcrc, _, _, rfl⟩ := (find_eq_ok_iff _ _ _ _ _ _).mp hl
      exact ⟨lsListOf_ne_nil _, hch _ _ _ hcrc⟩

/-- In every run that never adds a coercion between two existing ones, the map is
the transitive closure of the symbols added; and the next coercion keeps it so
exactly when it is not added between two existing ones either. -/
theorem run_correct {m : CrcMap} {s : Set LSymbol} (h : Run NotBetween m s) :
    Correct m s ∧ ∀ ls crc m', createCrc ls = .ok crc → addCrc m crc = .ok m' →
      (Correct m' (Insert.insert ls s) ↔ NotBetween m crc) := by
  refine ⟨h.built.correct_iff_chains.mpr h.chains, ?_⟩
  intro ls crc m' hcrc hm'
  rw [(addCrc_built h.built hcrc hm').correct_iff_chains]
  exact addCrc_chains_iff h.built h.chains hcrc hm'

/-! ## Four types in a row -/

def plainTs (n : ℕ) : TySymbol := ⟨⟨n⟩, [], .noDef, nodup_nil⟩

def plainLs (n a b : ℕ) : LSymbol :=
  ⟨⟨n⟩, [.tyapp (plainTs a) []], some (.tyapp (plainTs b) []), 0⟩

theorem notBetween_of_find?_eq_none (h : (m.find? crc.crcTarTs).isNone = true) :
    NotBetween m crc := by
  rintro ⟨_, b, hb⟩
  rw [Option.isNone_iff_eq_none] at h
  simp [mem, h] at hb

/-- Adding `1 → 2` and then `2 → 3` meets the guard, and the map returns the two
symbols in order. -/
theorem run_correct_two_steps :
    ∃ m, Run NotBetween m {plainLs 12 2 3, plainLs 11 1 2} ∧
      find m (.tyapp (plainTs 1) []) (.tyapp (plainTs 3) []) =
        .ok [plainLs 11 1 2, plainLs 12 2 3] ∧
      Correct m {plainLs 12 2 3, plainLs 11 1 2} := by
  have hrun : ((add .empty (plainLs 11 1 2)) >>= fun m => add m (plainLs 12 2 3)) >>=
      (fun m => find m (.tyapp (plainTs 1) []) (.tyapp (plainTs 3) [])) =
        .ok [plainLs 11 1 2, plainLs 12 2 3] := by rfl
  obtain ⟨m, hm, hfind⟩ := bind_eq_ok.mp hrun
  obtain ⟨m₁, hm₁, hm₂⟩ := bind_eq_ok.mp hm
  have hrun₁ : Run NotBetween m₁ (Insert.insert (plainLs 11 1 2) ∅) := by
    refine Run.add Run.empty ?_ hm₁
    intro crc _
    exact notBetween_of_find?_eq_none rfl
  have hnone : (add .empty (plainLs 11 1 2)).map (fun m => (m.find? (plainTs 3)).isNone) =
      .ok true := by rfl
  have hrun₂ : Run NotBetween m
      (Insert.insert (plainLs 12 2 3) (Insert.insert (plainLs 11 1 2) ∅)) := by
    refine Run.add hrun₁ ?_ hm₂
    intro crc hcrc
    cases hcrc
    rw [hm₁] at hnone
    exact notBetween_of_find?_eq_none (Except.ok.inj hnone)
  rw [insert_empty_eq] at hrun₂
  exact ⟨m, hrun₂, hfind, (run_correct hrun₂).1⟩

/-- Adding `1 → 2`, then `3 → 4`, then `2 → 3` in between: the list returned from
`1` to `4` is the first symbol followed by the second one, and the third, which
leads from the result of one to the argument of the other, is missing. -/
theorem run_not_correct :
    ∃ m s, Run (fun _ _ => True) m s ∧
      find m (.tyapp (plainTs 1) []) (.tyapp (plainTs 4) []) =
        .ok [plainLs 11 1 2, plainLs 12 3 4] ∧ ¬ Correct m s := by
  have hrun : (((add .empty (plainLs 11 1 2)) >>= fun m => add m (plainLs 12 3 4)) >>=
      fun m => add m (plainLs 13 2 3)) >>=
      (fun m => find m (.tyapp (plainTs 1) []) (.tyapp (plainTs 4) [])) =
        .ok [plainLs 11 1 2, plainLs 12 3 4] := by rfl
  obtain ⟨m, hm, hfind⟩ := bind_eq_ok.mp hrun
  obtain ⟨m₂, hm₂, hm₃⟩ := bind_eq_ok.mp hm
  obtain ⟨m₁, hm₁, hm₂⟩ := bind_eq_ok.mp hm₂
  have hrun₁ := Run.add (@Run.empty fun _ _ => True) (fun _ _ => trivial) hm₁
  have hrun₂ := Run.add hrun₁ (fun _ _ => trivial) hm₂
  have hrun₃ := Run.add hrun₂ (fun _ _ => trivial) hm₃
  refine ⟨m, _, hrun₃, hfind, ?_⟩
  intro hc
  obtain ⟨_, b, ⟨_, _, _, hval⟩, c, ⟨_, _, hargs, _⟩, _⟩ := hc.composable _ _ _ _ _ hfind
  simp only [plainLs, Option.some.injEq, Ty.tyapp.injEq, cons.injEq, and_true] at hval hargs
  exact absurd (hval.1.trans hargs.1.symm) (by decide)

/-- The types that are related depend on the symbols, not on the order in which they were added
and maps were joined, and no type is related to itself. -/
theorem run_order_irrelevant {m m' : CrcMap} {s : Set LSymbol} (h : Run (fun _ _ => True) m s)
    (h' : Run (fun _ _ => True) m' s) (a b : TySymbol) :
    ((∃ c, findCrc m a b = some c) ↔ ∃ c, findCrc m' a b = some c) ∧ findCrc m a a = none := by
  refine ⟨(h.built.reach a b).trans (h'.built.reach a b).symm, ?_⟩
  rw [Option.eq_none_iff_forall_ne_some]
  exact fun c hc => h.built.acyclic a ((h.built.reach a a).mp ⟨c, hc⟩)

theorem run_order_irrelevant_swap : ∃ m m' s, Run (fun _ _ => True) m s ∧
    Run (fun _ _ => True) m' s ∧ ((∃ c, findCrc m (plainTs 1) (plainTs 3) = some c) ↔
      ∃ c, findCrc m' (plainTs 1) (plainTs 3) = some c) := by
  have h := @Run.empty fun _ _ => True
  have h₁ := (h.add (fun _ _ => trivial) (rfl : add _ (plainLs 11 1 2) = .ok _)).add
    (fun _ _ => trivial) (rfl : add _ (plainLs 12 2 3) = .ok _)
  have h₂ := (h.add (fun _ _ => trivial) (rfl : add _ (plainLs 12 2 3) = .ok _)).add
    (fun _ _ => trivial) (rfl : add _ (plainLs 11 1 2) = .ok _)
  rw [Set.insert_comm] at h₂
  exact ⟨_, _, _, h₁, h₂, (run_order_irrelevant h₁ h₂ _ _).1⟩

end Coercion

end Why3
