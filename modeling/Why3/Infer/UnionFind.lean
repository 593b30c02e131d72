import Mathlib.Data.Finset.Sort
import Mathlib.Data.List.Nodup
import Mathlib.Logic.Relation

/-!
# Partitions of the inference of invariants

After `src/infer/union_find.ml`. A partition is the list of its classes, and an element of no class
is alone. The classes of a partition have no element in common, so two of them are physically equal
when they are equal.
-/

namespace Why3.UnionFind

open List

abbrev PartSet := List (List ℤ)

def getClass (t : ℤ) (s : PartSet) : Option (List ℤ) := s.find? (t ∈ ·)

/-- `List.sort_uniq compare`. -/
def sortUniq (l : List ℤ) : List ℤ := l.toFinset.sort

def replaceClass (l nl : List ℤ) (s : PartSet) : PartSet := s.map fun k => if k = l then nl else k

def union (a b : ℤ) (c : PartSet) : PartSet :=
  match getClass a c, getClass b c with
  | none, some l => replaceClass l (a :: l) c
  | some l, none => replaceClass l (b :: l) c
  | none, none => if a = b then [a] :: c else [a, b] :: c
  | some l, some l' =>
    if l = l' then c else replaceClass l (sortUniq (l ++ l')) (c.filter (· ≠ l'))

def doInter (t' : ℤ) (l1 : List ℤ) : List ℤ → List ℤ
  | [] => []
  | t :: q =>
    if t = t' then t :: doInter t l1 q
    else if t < t' then doInter t' l1 q
    else doInter t q l1
termination_by l2 => l1.length + l2.length

def intersect (l1 l2 : List ℤ) : List ℤ :=
  match sortUniq l1 with
  | t :: q => doInter t q (sortUniq l2)
  | [] => []

def joinStep (k : List ℤ) (l : PartSet) (k' : List ℤ) : PartSet :=
  if intersect k k' ≠ [] then intersect k k' :: l else l

def meets (a b : PartSet) : PartSet := b.foldl (fun l k => a.foldl (joinStep k) l) []

def join (a b : PartSet) : PartSet :=
  meets a b ++ ((a ++ b).flatten.filter (· ∉ (meets a b).flatten)).map ([·])

def isLeq (a b : PartSet) : Bool :=
  b.all fun cb =>
    (match cb with
      | [_] => true
      | _ => false) ||
    a.any fun ca => (sortUniq (ca ++ cb)).length == ca.length

def forget (t : ℤ) (s : PartSet) : Option ℤ × PartSet :=
  match getClass t s with
  | none => (none, s)
  | some l =>
    match l.filter (· ≠ t) with
    | [] => (none, s.filter (· ≠ l))
    | t' :: nl => (some t', replaceClass l (t' :: nl) s)

/-! ## Partitions and equivalences -/

structure IsPartition (s : PartSet) : Prop where
  ne_nil : ∀ k ∈ s, k ≠ []
  nodup : ∀ k ∈ s, k.Nodup
  disjoint : s.Pairwise Disjoint

def Rel (s : PartSet) (x y : ℤ) : Prop := x = y ∨ ∃ k ∈ s, x ∈ k ∧ y ∈ k

variable {s s' p q r : PartSet} {k k' l nl m : List ℤ} {a b t x y : ℤ}

theorem IsPartition.perm (h : IsPartition s) (hs : s ~ s') : IsPartition s' :=
  ⟨fun k hk => h.ne_nil k (hs.mem_iff.mpr hk), fun k hk => h.nodup k (hs.mem_iff.mpr hk),
    (hs.pairwise_iff fun hd => hd.symm).mp h.disjoint⟩

theorem IsPartition.sublist (h : IsPartition s) (hs : s' <+ s) : IsPartition s' :=
  ⟨fun k hk => h.ne_nil k (hs.subset hk), fun k hk => h.nodup k (hs.subset hk),
    h.disjoint.sublist hs⟩

theorem IsPartition.eq_of_mem (h : IsPartition s) (hk : k ∈ s) (hk' : k' ∈ s) (hx : x ∈ k)
    (hx' : x ∈ k') : k = k' := by
  by_contra hne
  have : Std.Symm (Disjoint (α := ℤ)) := ⟨fun _ _ hd => hd.symm⟩
  exact h.disjoint.forall hk hk' hne hx hx'

theorem rel_perm (hs : s ~ s') : Rel s x y ↔ Rel s' x y := by
  simp only [Rel, hs.mem_iff]

theorem rel_cons : Rel (k :: s) x y ↔ (x ∈ k ∧ y ∈ k) ∨ Rel s x y := by
  simp only [Rel, mem_cons, exists_eq_or_imp]
  tauto

theorem IsPartition.equivalence (h : IsPartition s) : Equivalence (Rel s) where
  refl _ := .inl rfl
  symm := by
    rintro x y (rfl | ⟨k, hk, hx, hy⟩)
    · exact .inl rfl
    · exact .inr ⟨k, hk, hy, hx⟩
  trans := by
    rintro x y z (rfl | ⟨k, hk, hx, hy⟩) hyz
    · exact hyz
    rcases hyz with rfl | ⟨k', hk', hy', hz⟩
    · exact .inr ⟨k, hk, hx, hy⟩
    · exact .inr ⟨k, hk, hx, h.eq_of_mem hk' hk hy' hy ▸ hz⟩

theorem IsPartition.perm_filter (h : IsPartition s) (hl : l ∈ s) : s ~ l :: s.filter (· ≠ l) := by
  have hnodup : s.Nodup := h.disjoint.imp_of_mem fun {k k'} hk _ hd heq => by
    subst heq
    obtain ⟨x, hx⟩ := exists_mem_of_ne_nil k (h.ne_nil k hk)
    exact hd hx hx
  refine (perm_cons_erase hl).trans (.cons _ (.of_eq ?_))
  rw [hnodup.erase_eq_filter]
  exact filter_congr fun k _ => Bool.eq_iff_iff.mpr (by simp)

theorem IsPartition.replaceClass (h : IsPartition s) (hl : l ∈ s) :
    replaceClass l nl s ~ nl :: s.filter (· ≠ l) := by
  have hmap := (h.perm_filter hl).map fun k => if k = l then nl else k
  rw [map_cons, if_pos rfl] at hmap
  refine hmap.trans (.cons _ (.of_eq ?_))
  refine (map_congr_left fun k hk => if_neg ?_).trans (map_id _)
  simpa using (mem_filter.mp hk).2

theorem getClass_eq_some (h : getClass t s = some l) : l ∈ s ∧ t ∈ l :=
  ⟨mem_of_find?_eq_some h, by simpa using find?_some h⟩

theorem getClass_eq_none (h : getClass t s = none) (hk : k ∈ s) : t ∉ k := by
  simpa using find?_eq_none.mp h k hk

theorem rel_of_getClass_none (h : getClass t s = none) : Rel s t x ↔ t = x :=
  or_iff_left fun ⟨_, hk, ht, _⟩ => getClass_eq_none h hk ht

theorem IsPartition.rel_of_mem (h : IsPartition s) (hl : l ∈ s) (ht : t ∈ l) :
    Rel s t x ↔ x ∈ l := by
  refine ⟨?_, fun hx => .inr ⟨l, hl, ht, hx⟩⟩
  rintro (rfl | ⟨k, hk, ht', hx⟩)
  · exact ht
  · exact h.eq_of_mem hk hl ht' ht ▸ hx

@[simp] theorem mem_sortUniq : x ∈ sortUniq l ↔ x ∈ l := by simp [sortUniq]

/-! ## Union -/

/-- The classes of `a` and of `b` are one class, and the others stay. -/
theorem union_perm (h : IsPartition s) : ∃ m, m.Nodup ∧ (∀ x, x ∈ m ↔ Rel s a x ∨ Rel s b x) ∧
    union a b s ~ m :: s.filter fun k => a ∉ k ∧ b ∉ k := by
  have hmem : ∀ {t l k}, l ∈ s → t ∈ l → k ∈ s → (t ∉ k ↔ k ≠ l) := fun hl ht hk =>
    not_congr ⟨fun ht' => h.eq_of_mem hk hl ht' ht, fun heq => heq ▸ ht⟩
  unfold union
  cases ha : getClass a s with
  | none =>
    cases hb : getClass b s with
    | none =>
      have hrest : (s.filter fun k => a ∉ k ∧ b ∉ k) = s := filter_eq_self.mpr fun k hk => by
        simp [getClass_eq_none ha hk, getClass_eq_none hb hk]
      rw [hrest]
      by_cases hab : a = b
      · refine ⟨[a], nodup_singleton a, fun x => ?_, by simp [hab]⟩
        simp [rel_of_getClass_none ha, ← hab, eq_comm]
      · refine ⟨[a, b], by simpa using hab, fun x => ?_, by simp [hab]⟩
        simp [rel_of_getClass_none ha, rel_of_getClass_none hb, eq_comm]
    | some l =>
      obtain ⟨hl, hbl⟩ := getClass_eq_some hb
      have hrest : (s.filter fun k => a ∉ k ∧ b ∉ k) = s.filter (· ≠ l) :=
        filter_congr fun k hk => by simp [getClass_eq_none ha hk, hmem hl hbl hk]
      refine ⟨a :: l, nodup_cons.mpr ⟨getClass_eq_none ha hl, h.nodup l hl⟩, fun x => ?_, ?_⟩
      · rw [rel_of_getClass_none ha, h.rel_of_mem hl hbl, mem_cons, eq_comm]
      · exact hrest ▸ h.replaceClass hl
  | some l =>
    obtain ⟨hl, hal⟩ := getClass_eq_some ha
    cases hb : getClass b s with
    | none =>
      have hrest : (s.filter fun k => a ∉ k ∧ b ∉ k) = s.filter (· ≠ l) :=
        filter_congr fun k hk => by simp [getClass_eq_none hb hk, hmem hl hal hk]
      refine ⟨b :: l, nodup_cons.mpr ⟨getClass_eq_none hb hl, h.nodup l hl⟩, fun x => ?_, ?_⟩
      · rw [rel_of_getClass_none hb, h.rel_of_mem hl hal, mem_cons, or_comm, eq_comm]
      · exact hrest ▸ h.replaceClass hl
    | some l' =>
      obtain ⟨hl', hbl⟩ := getClass_eq_some hb
      by_cases heq : l = l'
      · subst heq
        have hrest : (s.filter fun k => a ∉ k ∧ b ∉ k) = s.filter (· ≠ l) :=
          filter_congr fun k hk => by simp [hmem hl hal hk, hmem hl hbl hk]
        refine ⟨l, h.nodup l hl, fun x => ?_, by simpa only [if_pos, hrest] using h.perm_filter hl⟩
        rw [h.rel_of_mem hl hal, h.rel_of_mem hl hbl, or_self]
      · have hrest : (s.filter fun k => a ∉ k ∧ b ∉ k) = (s.filter (· ≠ l')).filter (· ≠ l) := by
          rw [filter_filter]
          exact filter_congr fun k hk => by simp [hmem hl hal hk, hmem hl' hbl hk]
        refine ⟨sortUniq (l ++ l'), Finset.sort_nodup _ _, fun x => ?_, ?_⟩
        · rw [h.rel_of_mem hl hal, h.rel_of_mem hl' hbl, mem_sortUniq, mem_append]
        · simp only [if_neg heq, hrest]
          exact (h.sublist filter_sublist).replaceClass (mem_filter.mpr ⟨hl, by simpa using heq⟩)

theorem IsPartition.union (h : IsPartition s) : IsPartition (union a b s) := by
  obtain ⟨m, hm, hmem, hperm⟩ := union_perm h (a := a) (b := b)
  have hrest := h.sublist (filter_sublist (p := fun k => a ∉ k ∧ b ∉ k))
  refine .perm ⟨forall_mem_cons.mpr ⟨ne_nil_of_mem ((hmem a).mpr (.inl (.inl rfl))), hrest.ne_nil⟩,
    forall_mem_cons.mpr ⟨hm, hrest.nodup⟩, pairwise_cons.mpr ⟨fun k hk x hx hxk => ?_,
      hrest.disjoint⟩⟩ hperm.symm
  obtain ⟨hk, hab⟩ := mem_filter.mp hk
  have hab : a ∉ k ∧ b ∉ k := by simpa using hab
  rcases (hmem x).mp hx with hr | hr
  · exact hab.1 ((h.rel_of_mem hk hxk).mp (h.equivalence.symm hr))
  · exact hab.2 ((h.rel_of_mem hk hxk).mp (h.equivalence.symm hr))

theorem rel_union (h : IsPartition s) : Rel (union a b s) x y ↔
    Relation.EqvGen (fun x y => Rel s x y ∨ x = a ∧ y = b) x y := by
  obtain ⟨m, -, hmem, hperm⟩ := union_perm h (a := a) (b := b)
  have hequiv := (h.union (a := a) (b := b)).equivalence
  constructor
  · have hgen : ∀ x ∈ m, Relation.EqvGen (fun x y => Rel s x y ∨ x = a ∧ y = b) a x := by
      intro x hx
      rcases (hmem x).mp hx with hr | hr
      · exact .rel _ _ (.inl hr)
      · exact .trans _ b _ (.rel _ _ (.inr ⟨rfl, rfl⟩)) (.rel _ _ (.inl hr))
    rw [rel_perm hperm, rel_cons]
    rintro (⟨hx, hy⟩ | rfl | ⟨k, hk, hxy⟩)
    · exact .trans _ a _ (.symm _ _ (hgen x hx)) (hgen y hy)
    · exact .refl _
    · exact .rel _ _ (.inl (.inr ⟨k, (mem_filter.mp hk).1, hxy⟩))
  · intro hgen
    induction hgen with
    | refl => exact hequiv.refl _
    | symm _ _ _ ih => exact hequiv.symm ih
    | trans _ _ _ _ _ ih ih' => exact hequiv.trans ih ih'
    | rel x y hr =>
      rw [rel_perm hperm, rel_cons, hmem, hmem]
      rcases hr with hr | ⟨rfl, rfl⟩
      · by_cases ha : Rel s a x
        · exact .inl ⟨.inl ha, .inl (h.equivalence.trans ha hr)⟩
        by_cases hb : Rel s b x
        · exact .inl ⟨.inr hb, .inr (h.equivalence.trans hb hr)⟩
        refine .inr (hr.imp_right fun ⟨k, hk, hx, hy⟩ => ⟨k, mem_filter.mpr ⟨hk, ?_⟩, hx, hy⟩)
        simpa using ⟨fun hak => ha (.inr ⟨k, hk, hak, hx⟩), fun hbk => hb (.inr ⟨k, hk, hbk, hx⟩)⟩
      · exact .inl ⟨.inl (.inl rfl), .inr (.inl rfl)⟩

/-! ## Join -/

theorem doInter_spec {t' : ℤ} {l1 l2 : List ℤ} (h1 : (t' :: l1).Pairwise (· < ·))
    (h2 : l2.Pairwise (· < ·)) : (∀ x, x ∈ doInter t' l1 l2 ↔ x ∈ t' :: l1 ∧ x ∈ l2) ∧
      (doInter t' l1 l2).Nodup := by
  fun_induction doInter t' l1 l2 with
  | case1 => simp
  | case2 l1 t q ih =>
    obtain ⟨hmem, hnodup⟩ := ih h1 h2.of_cons
    have ht : t ∉ doInter t l1 q := fun ht =>
      (rel_of_pairwise_cons h2 ((hmem t).mp ht).2).false
    refine ⟨fun x => ?_, nodup_cons.mpr ⟨ht, hnodup⟩⟩
    rw [mem_cons, hmem, mem_cons, mem_cons]
    tauto
  | case3 t' l1 t q hne hlt ih =>
    obtain ⟨hmem, hnodup⟩ := ih h1 h2.of_cons
    refine ⟨fun x => ?_, hnodup⟩
    rw [hmem, mem_cons (a := x) (b := t)]
    refine and_congr_right fun hx => (or_iff_right fun heq => ?_).symm
    rcases mem_cons.mp hx with hx | hx
    · exact hne (heq ▸ hx)
    · exact (hlt.trans (rel_of_pairwise_cons h1 (heq ▸ hx))).false
  | case4 t' l1 t q hne hge ih =>
    obtain ⟨hmem, hnodup⟩ := ih h2 h1.of_cons
    refine ⟨fun x => ?_, hnodup⟩
    rw [hmem, and_comm, mem_cons (a := x) (b := t')]
    refine and_congr_left fun hx => (or_iff_right fun heq => ?_).symm
    have hlt : t' < t := lt_of_le_of_ne (not_lt.mp hge) (Ne.symm hne)
    rcases mem_cons.mp hx with hx | hx
    · exact hne (hx ▸ heq)
    · exact (hlt.trans (rel_of_pairwise_cons h2 (heq ▸ hx))).false

theorem intersect_spec (k k' : List ℤ) :
    (∀ x, x ∈ intersect k k' ↔ x ∈ k ∧ x ∈ k') ∧ (intersect k k').Nodup := by
  have hsort : ∀ l : List ℤ, (sortUniq l).Pairwise (· < ·) := fun l =>
    (Finset.sortedLT_sort _).pairwise
  have hmem : ∀ x, x ∈ sortUniq k ↔ x ∈ k := fun _ => mem_sortUniq
  have hk := hsort k
  unfold intersect
  cases hl : sortUniq k with
  | nil =>
    rw [hl] at hmem
    exact ⟨fun x => by simp [← hmem], nodup_nil⟩
  | cons t q =>
    rw [hl] at hmem hk
    have hspec := doInter_spec hk (hsort k')
    exact ⟨fun x => by rw [hspec.1, hmem, mem_sortUniq], hspec.2⟩

theorem meets_perm (a b : PartSet) :
    meets a b ~ (b.flatMap fun k => a.map (intersect k)).filter (· ≠ []) := by
  have hstep : ∀ (k : List ℤ) (a l : PartSet),
      a.foldl (joinStep k) l ~ (a.map (intersect k)).filter (· ≠ []) ++ l := by
    intro k a
    induction a with
    | nil => exact fun l => .refl l
    | cons k' a ih =>
      intro l
      rw [foldl_cons]
      refine (ih _).trans ?_
      by_cases hi : intersect k k' = []
      · simp [joinStep, hi]
      · simp [joinStep, hi]
  have hfold : ∀ (b l : PartSet), b.foldl (fun l k => a.foldl (joinStep k) l) l ~
      (b.flatMap fun k => a.map (intersect k)).filter (· ≠ []) ++ l := by
    intro b
    induction b with
    | nil => exact fun l => .refl l
    | cons k b ih =>
      intro l
      rw [foldl_cons, flatMap_cons, filter_append]
      refine (ih _).trans (((hstep k a l).append_left _).trans ?_)
      rw [← append_assoc]
      exact perm_append_comm.append_right l
  simpa [meets] using hfold b []

theorem mem_meets : k ∈ meets p q ↔ k ≠ [] ∧ ∃ l ∈ q, ∃ l' ∈ p, intersect l l' = k := by
  rw [(meets_perm p q).mem_iff]
  simp [and_comm]

theorem mem_flatten_meets : x ∈ (meets p q).flatten ↔ x ∈ p.flatten ∧ x ∈ q.flatten := by
  simp only [mem_flatten, mem_meets]
  constructor
  · rintro ⟨_, ⟨-, l, hl, l', hl', rfl⟩, hx⟩
    have hx := ((intersect_spec l l').1 x).mp hx
    exact ⟨⟨l', hl', hx.2⟩, l, hl, hx.1⟩
  · rintro ⟨⟨l', hl', hx'⟩, l, hl, hx⟩
    have hx := ((intersect_spec l l').1 x).mpr ⟨hx, hx'⟩
    exact ⟨_, ⟨ne_nil_of_mem hx, l, hl, l', hl', rfl⟩, hx⟩

theorem IsPartition.meets (hp : IsPartition p) (hq : IsPartition q) : IsPartition (meets p q) := by
  refine .perm ⟨fun k hk => ?_, fun k hk => ?_, ?_⟩ (meets_perm p q).symm
  · simpa using (mem_filter.mp hk).2
  · obtain ⟨l, -, l', -, rfl⟩ : ∃ l ∈ q, ∃ l' ∈ p, intersect l l' = k := by
      simpa using (mem_filter.mp hk).1
    exact (intersect_spec l l').2
  · refine Pairwise.filter _ (pairwise_flatMap.mpr ⟨fun l _ => ?_, ?_⟩)
    · refine pairwise_map.mpr (hp.disjoint.imp fun hd x hx hx' => ?_)
      exact hd (((intersect_spec _ _).1 x).mp hx).2 (((intersect_spec _ _).1 x).mp hx').2
    · refine hq.disjoint.imp fun hd k hk k' hk' x hx hx' => ?_
      obtain ⟨l, -, rfl⟩ := mem_map.mp hk
      obtain ⟨l', -, rfl⟩ := mem_map.mp hk'
      exact hd (((intersect_spec _ _).1 x).mp hx).1 (((intersect_spec _ _).1 x).mp hx').1

theorem isPartition_iff : IsPartition s ↔ (∀ k ∈ s, k ≠ []) ∧ s.flatten.Nodup :=
  ⟨fun h => ⟨h.ne_nil, nodup_flatten.mpr ⟨h.nodup, h.disjoint⟩⟩,
    fun h => ⟨h.1, (nodup_flatten.mp h.2).1, (nodup_flatten.mp h.2).2⟩⟩

theorem IsPartition.join (hp : IsPartition p) (hq : IsPartition q) : IsPartition (join p q) := by
  have hm := isPartition_iff.mp (hp.meets hq)
  refine isPartition_iff.mpr ⟨forall_mem_append.mpr ⟨hm.1, fun k hk => ?_⟩, ?_⟩
  · obtain ⟨z, -, rfl⟩ := mem_map.mp hk
    exact cons_ne_nil _ _
  have hrest : ∀ l : List ℤ, (l.map ([·])).flatten = l := fun l => by
    rw [← flatMap_def]
    exact flatMap_singleton' l
  rw [UnionFind.join, flatten_append, hrest]
  refine hm.2.append ?_ fun x hx hx' => by simpa [hx] using (mem_filter.mp hx').2
  rw [flatten_append, filter_append]
  refine (((isPartition_iff.mp hp).2.filter _).append ((isPartition_iff.mp hq).2.filter _)) ?_
  intro x hx hx'
  have hnot := (mem_filter.mp hx).2
  simp only [decide_eq_true_eq] at hnot
  exact hnot (mem_flatten_meets.mpr ⟨(mem_filter.mp hx).1, (mem_filter.mp hx').1⟩)

theorem rel_join : Rel (join p q) x y ↔ Rel p x y ∧ Rel q x y := by
  constructor
  · rintro (rfl | ⟨k, hk, hx, hy⟩)
    · exact ⟨.inl rfl, .inl rfl⟩
    rcases mem_append.mp hk with hk | hk
    · obtain ⟨-, l, hl, l', hl', rfl⟩ := mem_meets.mp hk
      have hx := ((intersect_spec l l').1 x).mp hx
      have hy := ((intersect_spec l l').1 y).mp hy
      exact ⟨.inr ⟨l', hl', hx.2, hy.2⟩, .inr ⟨l, hl, hx.1, hy.1⟩⟩
    · obtain ⟨z, -, rfl⟩ := mem_map.mp hk
      cases mem_singleton.mp hx
      cases mem_singleton.mp hy
      exact ⟨.inl rfl, .inl rfl⟩
  · rintro ⟨heq | ⟨l', hl', hx', hy'⟩, heq' | ⟨l, hl, hx, hy⟩⟩
    · exact .inl heq
    · exact .inl heq
    · exact .inl heq'
    · have hx := ((intersect_spec l l').1 x).mpr ⟨hx, hx'⟩
      have hy := ((intersect_spec l l').1 y).mpr ⟨hy, hy'⟩
      exact .inr ⟨_, mem_append_left _ (mem_meets.mpr ⟨ne_nil_of_mem hx, l, hl, l', hl', rfl⟩),
        hx, hy⟩

/-! ## Order -/

theorem length_sortUniq_append (hk : k.Nodup) :
    (sortUniq (k ++ k')).length = k.length ↔ ∀ x ∈ k', x ∈ k := by
  rw [sortUniq, Finset.length_sort, ← toFinset_card_of_nodup hk, toFinset_append]
  refine ⟨fun hcard x hx => ?_, fun hsub => congrArg _ (Finset.union_eq_left.mpr fun x hx => ?_)⟩
  · have heq := Finset.eq_of_subset_of_card_le Finset.subset_union_left hcard.le
    rw [← mem_toFinset, heq]
    simp [hx]
  · exact mem_toFinset.mpr (hsub x (mem_toFinset.mp hx))

theorem isLeq_iff (hp : IsPartition p) (hq : IsPartition q) :
    isLeq p q = true ↔ ∀ x y, Rel q x y → Rel p x y := by
  have hclass : ∀ cb ∈ q, ((match cb with
      | [_] => true
      | _ => false) || p.any fun ca => (sortUniq (ca ++ cb)).length == ca.length) = true ↔
      ∀ x ∈ cb, ∀ y ∈ cb, Rel p x y := by
    intro cb hcb
    have hany : (p.any fun ca => (sortUniq (ca ++ cb)).length == ca.length) = true ↔
        ∃ ca ∈ p, ∀ x ∈ cb, x ∈ ca := by
      rw [any_eq_true]
      refine exists_congr fun ca => and_congr_right fun hca => ?_
      rw [beq_iff_eq, length_sortUniq_append (hp.nodup ca hca)]
    rw [Bool.or_eq_true, hany]
    match cb, hq.ne_nil cb hcb, hq.nodup cb hcb with
    | [z], _, _ => simp [Rel]
    | z :: z' :: l, _, hnodup =>
      refine ⟨fun h x hx y hy => ?_, fun h => ?_⟩
      · obtain ⟨ca, hca, hsub⟩ := h.resolve_left (by simp)
        exact .inr ⟨ca, hca, hsub x hx, hsub y hy⟩
      · have hne : z ≠ z' := fun heq => by simp [heq] at hnodup
        obtain ⟨ca, hca, hz, -⟩ := (h z (by simp) z' (by simp)).resolve_left hne
        exact .inr ⟨ca, hca, fun x hx => (hp.rel_of_mem hca hz).mp (h z (by simp) x hx)⟩
  rw [isLeq, all_eq_true]
  constructor
  · rintro h x y (rfl | ⟨cb, hcb, hx, hy⟩)
    · exact .inl rfl
    · exact (hclass cb hcb).mp (h cb hcb) x hx y hy
  · exact fun h cb hcb => (hclass cb hcb).mpr fun x hx y hy => h x y (.inr ⟨cb, hcb, hx, hy⟩)

/-! ## Forgetting an element -/

theorem forget_spec (h : IsPartition s) : IsPartition (forget t s).2 ∧
    (∀ x y, Rel (forget t s).2 x y ↔ x = y ∨ x ≠ t ∧ y ≠ t ∧ Rel s x y) ∧
    match (forget t s).1 with
    | some u => u ≠ t ∧ Rel s t u
    | none => ∀ u, Rel s t u → u = t := by
  unfold forget
  cases ht : getClass t s with
  | none =>
    refine ⟨h, fun x y => ?_, fun u hu => ((rel_of_getClass_none ht).mp hu).symm⟩
    refine ⟨?_, fun hr => hr.elim .inl fun hr => hr.2.2⟩
    rintro (heq | ⟨k, hk, hx, hy⟩)
    · exact .inl heq
    · have hnot := getClass_eq_none ht hk
      exact .inr ⟨fun heq => hnot (heq ▸ hx), fun heq => hnot (heq ▸ hy), .inr ⟨k, hk, hx, hy⟩⟩
  | some l =>
    obtain ⟨hl, htl⟩ := getClass_eq_some ht
    have hrest := h.sublist (filter_sublist (p := fun k => decide (k ≠ l)))
    have hperm := (h.perm_filter hl)
    have hother : ∀ k ∈ s.filter (· ≠ l), Disjoint l k := fun k hk =>
      rel_of_pairwise_cons (h.perm hperm).disjoint hk
    -- the class without the element, and the other classes
    have hrel : ∀ x y, ((x ∈ l.filter (· ≠ t) ∧ y ∈ l.filter (· ≠ t)) ∨
        Rel (s.filter (· ≠ l)) x y) ↔ x = y ∨ x ≠ t ∧ y ≠ t ∧ Rel s x y := by
      intro x y
      rw [rel_perm hperm, rel_cons]
      have hnot : (∃ k ∈ s.filter (· ≠ l), x ∈ k ∧ y ∈ k) → x ≠ t ∧ y ≠ t :=
        fun ⟨k, hk, hx, hy⟩ =>
          ⟨fun heq => hother k hk htl (heq ▸ hx), fun heq => hother k hk htl (heq ▸ hy)⟩
      simp only [mem_filter, decide_eq_true_eq, Rel] at hnot ⊢
      grind
    cases hnl : l.filter (· ≠ t) with
    | nil =>
      simp only [hnl]
      rw [hnl] at hrel
      refine ⟨hrest, fun x y => ?_, fun u hu => ?_⟩
      · simpa using hrel x y
      · have := filter_eq_nil_iff.mp hnl u ((h.rel_of_mem hl htl).mp hu)
        simpa using this
    | cons t' nl =>
      simp only [hnl]
      have hsub : ∀ u ∈ t' :: nl, u ∈ l ∧ u ≠ t := fun u hu => by simpa [← hnl] using hu
      have hreplace : UnionFind.replaceClass l (t' :: nl) s ~ _ := h.replaceClass hl
      refine ⟨.perm ⟨?_, ?_, ?_⟩ hreplace.symm, fun x y => ?_, ?_⟩
      · exact forall_mem_cons.mpr ⟨cons_ne_nil _ _, hrest.ne_nil⟩
      · exact forall_mem_cons.mpr ⟨hnl ▸ (h.nodup l hl).filter _, hrest.nodup⟩
      · exact pairwise_cons.mpr ⟨fun k hk u hu => hother k hk (hsub u hu).1, hrest.disjoint⟩
      · rw [rel_perm hreplace, rel_cons, ← hrel x y, hnl]
      · have := hsub t' mem_cons_self
        exact ⟨this.2, (h.rel_of_mem hl htl).mpr this.1⟩

/-! ## Reachable partitions -/

inductive Reachable : PartSet → Prop where
  | empty : Reachable []
  | union {p : PartSet} (a b : ℤ) (hp : Reachable p) : Reachable (union a b p)
  | join {p q : PartSet} (hp : Reachable p) (hq : Reachable q) : Reachable (join p q)
  | forget {p : PartSet} (t : ℤ) (hp : Reachable p) : Reachable (forget t p).2

theorem Reachable.isPartition (hp : Reachable p) : IsPartition p := by
  induction hp with
  | empty => exact ⟨fun _ hk => (by cases hk), fun _ hk => (by cases hk), .nil⟩
  | union _ _ _ ih => exact ih.union
  | join _ _ ihp ihq => exact ihp.join ihq
  | forget _ _ ih => exact (forget_spec ih).1

/-- The operations are those of the lattice of equivalences. -/
theorem reachable_lattice (hp : Reachable p) (hq : Reachable q) :
    IsPartition p ∧ Equivalence (Rel p) ∧
    (∀ a b x y, Rel (union a b p) x y ↔
      Relation.EqvGen (fun x y => Rel p x y ∨ x = a ∧ y = b) x y) ∧
    (∀ x y, Rel (join p q) x y ↔ Rel p x y ∧ Rel q x y) ∧
    (isLeq p q = true ↔ ∀ x y, Rel q x y → Rel p x y) ∧
    (isLeq p (join p q) = true ∧ isLeq q (join p q) = true ∧
      ∀ r, Reachable r → isLeq p r = true → isLeq q r = true → isLeq (join p q) r = true) ∧
    ∀ t, (∀ x y, Rel (forget t p).2 x y ↔ x = y ∨ x ≠ t ∧ y ≠ t ∧ Rel p x y) ∧
      match (forget t p).1 with
      | some u => u ≠ t ∧ Rel p t u
      | none => ∀ u, Rel p t u → u = t := by
  have hp' := hp.isPartition
  have hq' := hq.isPartition
  have hj := hp'.join hq'
  refine ⟨hp', hp'.equivalence, fun _ _ _ _ => rel_union hp', fun _ _ => rel_join,
    isLeq_iff hp' hq', ⟨?_, ?_, fun r hr hpr hqr => ?_⟩, fun t => (forget_spec hp').2⟩
  · exact (isLeq_iff hp' hj).mpr fun x y h => (rel_join.mp h).1
  · exact (isLeq_iff hq' hj).mpr fun x y h => (rel_join.mp h).2
  · have hr' := hr.isPartition
    exact (isLeq_iff hj hr').mpr fun x y h =>
      rel_join.mpr ⟨(isLeq_iff hp' hr').mp hpr x y h, (isLeq_iff hq' hr').mp hqr x y h⟩

theorem reachable_lattice_two : Rel (join (union 1 2 []) (union 2 3 [])) 1 2 ↔
    Rel (union 1 2 []) 1 2 ∧ Rel (union 2 3 []) 1 2 :=
  (reachable_lattice (.union 1 2 .empty) (.union 2 3 .empty)).2.2.2.1 1 2

end Why3.UnionFind
