import Why3.Termination.Calls
import Why3.Lib.Descent

/-!
# Ways back to a symbol

The vectors that are computed for a symbol describe all ways that lead from it back
to itself for the first time. The positions that are chosen from them are those of a
lexicographic order in which every such way decreases.
-/

namespace Why3

open Lib Relation List

variable {D : Type} {S : DataSig} {I : Interp D} {xs ys zs : List (Ty × D)}
variable {d1 d2 : Descent} {lc : List (List Descent)} {v1 v2 : List Descent} {fuel i : ℕ}
variable {htb work : List (LSymbol × List Descent)} {lc' : List (List Descent)} {v : List Descent}
variable {k : ℕ}

/-! ## Operations on vectors -/

theorem Descent.sbs_iff : d1.sbs d2 = true ↔ d2 = .unknown ∨ d1 = d2 ∨ d1 = d2.toLess := by
  cases d1 <;> cases d2 <;> simp [Descent.sbs, Descent.toLess]

theorem Descent.sbs_refl (d : Descent) : d.sbs d = true := Descent.sbs_iff.mpr (.inr (.inl rfl))

theorem Descent.sbs_trans {d3 : Descent} (h12 : d1.sbs d2 = true) (h23 : d2.sbs d3 = true) :
    d1.sbs d3 = true := by
  cases d1 <;> cases d2 <;> cases d3 <;> simp_all [Descent.sbs]

theorem Descr.sbs {y : Ty × D} (h : d1.sbs d2 = true) (hd : Descr S I xs d1 y) :
    Descr S I xs d2 y := by
  rcases Descent.sbs_iff.mp h with rfl | rfl | rfl
  · exact trivial
  · exact hd
  · cases d2 with
    | equal j =>
      obtain ⟨x, hx, hy⟩ := hd
      exact ⟨x, hx, hy.to_reflTransGen⟩
    | _ => exact hd

theorem subsumes_iff : subsumes v1 v2 = true ↔ v1.length ≤ v2.length ∧
    ∀ i < v1.length, (v1.getD i .unknown).sbs (v2.getD i .unknown) = true := by
  induction v1 generalizing v2 with
  | nil => simp [subsumes]
  | cons d1 v1 ih =>
    cases v2 with
    | nil => simp [subsumes]
    | cons d2 v2 =>
      rw [subsumes, Bool.and_eq_true, ih, length_cons, length_cons, Nat.forall_lt_succ_left,
        Nat.succ_le_succ_iff, and_left_comm]
      rfl

theorem subsumes_refl (v : List Descent) : subsumes v v = true :=
  subsumes_iff.mpr ⟨le_refl _, fun _ _ => Descent.sbs_refl _⟩

theorem subsumes_trans {v3 : List Descent} (h12 : subsumes v1 v2 = true)
    (h23 : subsumes v2 v3 = true) : subsumes v1 v3 = true := by
  obtain ⟨hlen12, hsbs12⟩ := subsumes_iff.mp h12
  obtain ⟨hlen23, hsbs23⟩ := subsumes_iff.mp h23
  exact subsumes_iff.mpr ⟨hlen12.trans hlen23,
    fun i hi => Descent.sbs_trans (hsbs12 i hi) (hsbs23 i (hi.trans_le hlen12))⟩

theorem Describes.subsumes (hv : Describes S I xs v1 ys) (h : subsumes v1 v2 = true) :
    Describes S I xs v2 ys := by
  obtain ⟨hlen, hsbs⟩ := subsumes_iff.mp h
  refine ⟨hv.length.trans hlen, fun i y hy => ?_⟩
  have hi : i < v1.length := (List.getElem?_eq_some_iff.mp hy).1.trans_le hv.length
  exact (hv.descr i y hy).sbs (hsbs i hi)

theorem length_multiply (v1 v2 : List Descent) : (multiply v1 v2).length = v1.length :=
  length_map _

theorem getD_multiply (v1 v2 : List Descent) (i : ℕ) :
    (multiply v1 v2).getD i .unknown =
      match v1.getD i .unknown with
      | .unknown => .unknown
      | .equal i => v2.getD i .unknown
      | .less i => (v2.getD i .unknown).toLess := by
  rw [multiply, getD_eq_getElem?_getD, getElem?_map, getD_eq_getElem?_getD]
  cases v1[i]? <;> rfl

theorem subsumes_multiply (h : subsumes v1 v2 = true) (v : List Descent) :
    subsumes (multiply v1 v) (multiply v2 v) = true := by
  obtain ⟨hlen, hsbs⟩ := subsumes_iff.mp h
  refine subsumes_iff.mpr ⟨by rwa [length_multiply, length_multiply], fun i hi => ?_⟩
  rw [length_multiply] at hi
  have hd := hsbs i hi
  rw [getD_multiply, getD_multiply]
  rcases Descent.sbs_iff.mp hd with hd | hd | hd
  · rw [hd]
    exact Descent.sbs_iff.mpr (.inl rfl)
  · rw [hd]
    exact Descent.sbs_refl _
  · rw [hd]
    cases v2.getD i .unknown with
    | equal j => exact Descent.sbs_iff.mpr (.inr (.inr rfl))
    | _ => exact Descent.sbs_refl _

/-- The product describes the arguments of two calls, one in the other. -/
theorem Describes.multiply (h1 : Describes S I ys v1 zs) (h2 : Describes S I xs v2 ys) :
    Describes S I xs (multiply v1 v2) zs := by
  refine ⟨(length_multiply v1 v2).symm ▸ h1.length, fun i z hz => ?_⟩
  have hd := h1.descr i z hz
  rw [getD_multiply]
  cases hv : v1.getD i .unknown with
  | unknown => exact trivial
  | equal j =>
    rw [hv] at hd
    obtain ⟨y, hy, hle⟩ := hd
    exact (h2.descr j y hy).below hle
  | less j =>
    rw [hv] at hd
    obtain ⟨y, hy, hlt⟩ := hd
    exact (h2.descr j y hy).toLess hlt

def IsLocal (v : List Descent) : Prop :=
  ∀ i, v.getD i .unknown = .unknown ∨ v.getD i .unknown = .equal i ∨ v.getD i .unknown = .less i

theorem getD_localVec (v : List Descent) (i : ℕ) :
    (localVec v).getD i .unknown = (v.getD i .unknown).localAt i := by
  rw [localVec, getD_eq_getElem?_getD, getElem?_mapIdx, getD_eq_getElem?_getD]
  cases v[i]? <;> rfl

theorem isLocal_localVec (v : List Descent) : IsLocal (localVec v) := by
  intro i
  rw [getD_localVec]
  cases v.getD i .unknown with
  | unknown => exact .inl rfl
  | equal j =>
    rw [Descent.localAt]
    split
    · next h => exact .inr (.inl (h ▸ rfl))
    · exact .inl rfl
  | less j =>
    rw [Descent.localAt]
    split
    · next h => exact .inr (.inr (h ▸ rfl))
    · exact .inl rfl

theorem Describes.localVec (h : Describes S I xs v ys) : Describes S I xs (localVec v) ys := by
  refine ⟨by rw [Why3.localVec, length_mapIdx]; exact h.length, fun i y hy => ?_⟩
  have hd := h.descr i y hy
  rw [getD_localVec]
  cases hv : v.getD i .unknown with
  | unknown => exact trivial
  | _ =>
    rw [hv] at hd
    rw [Descent.localAt]
    split
    · exact hd
    · exact trivial

/-! ## All first returns are described -/

theorem mem_findAll {κ α : Type} [DecidableEq κ] {m : List (κ × α)} {k : κ} {a : α} :
    a ∈ findAll m k ↔ (k, a) ∈ m := by
  unfold findAll
  rw [mem_filterMap]
  constructor
  · rintro ⟨⟨k', a'⟩, hmem, h⟩
    split at h
    · next heq =>
        cases h
        exact heq ▸ hmem
    · cases h
  · exact fun h => ⟨(k, a), h, if_pos rfl⟩

variable {cgr : CallSet} {id : LSymbol}

/-- A call that was completed to ways from `id` in the vectors `lc`, the calls of the
other symbols that were looked at being `htb`. -/
def Settled (id : LSymbol) (htb : List (LSymbol × List Descent)) (lc : List (List Descent))
    (s : LSymbol) (c : List Descent) : Prop :=
  (s = id ∧ localVec c ∈ lc) ∨ (s ≠ id ∧ ∃ c', (s, c') ∈ htb ∧ subsumes c c' = true)

theorem addCall_settled (h : addCall cgr id fuel htb lc work = .ok lc') :
    ∃ H, (∀ x ∈ htb, x ∈ H) ∧ (∀ c ∈ lc, c ∈ lc') ∧ (∀ x ∈ work, Settled id H lc' x.1 x.2) ∧
      (∀ x ∈ H, x ∈ htb ∨ ∀ y ∈ findAll cgr x.1, Settled id H lc' y.1 (multiply x.2 y.2)) := by
  induction fuel generalizing htb lc work with
  | zero => cases h
  | succ fuel ih =>
    cases work with
    | nil =>
      cases h
      exact ⟨htb, fun _ hx => hx, fun _ hc => hc, by simp, fun _ hx => .inl hx⟩
    | cons x work =>
      obtain ⟨s, c⟩ := x
      rw [addCall] at h
      split at h
      · next hs =>
          obtain ⟨H, hH, hlc, hwork, hclosed⟩ := ih h
          refine ⟨H, hH, fun c' hc' => hlc c' (mem_cons_of_mem _ hc'), ?_, hclosed⟩
          rw [forall_mem_cons]
          exact ⟨.inl ⟨hs, hlc _ mem_cons_self⟩, hwork⟩
      · next hs =>
          split at h
          · next hsub =>
              obtain ⟨H, hH, hlc, hwork, hclosed⟩ := ih h
              refine ⟨H, hH, hlc, ?_, hclosed⟩
              rw [forall_mem_cons]
              obtain ⟨c', hc', hle⟩ := any_eq_true.mp hsub
              exact ⟨.inr ⟨hs, c', hH _ (mem_findAll.mp hc'), hle⟩, hwork⟩
          · obtain ⟨H, hH, hlc, hwork, hclosed⟩ := ih h
            rw [forall_mem_append] at hwork
            rw [forall_mem_cons] at hH
            refine ⟨H, hH.2, hlc, ?_, ?_⟩
            · rw [forall_mem_cons]
              exact ⟨.inr ⟨hs, c, hH.1, subsumes_refl c⟩, hwork.2⟩
            · intro x hx
              rcases hclosed x hx with hmem | hx
              · rcases mem_cons.mp hmem with rfl | hmem
                · refine .inr fun y hy => hwork.1 (y.1, multiply c y.2) ?_
                  rw [mem_reverse, resolve, mem_reverse]
                  exact mem_map.mpr ⟨y, hy, rfl⟩
                · exact .inl hmem
              · exact .inr hx

/-- The calls on a way from a symbol to `id` that does not pass through `id`, and the product of
their descriptions. -/
inductive CallPath (cgr : CallSet) (id : LSymbol) : LSymbol → List Descent → Prop where
  | call {s : LSymbol} {v : List Descent} (h : (id, s, v) ∈ cgr) : CallPath cgr id s v
  | cons {s s' : LSymbol} {c v : List Descent} (hpath : CallPath cgr id s c) (hs : s ≠ id)
      (h : (s, s', v) ∈ cgr) : CallPath cgr id s' (multiply c v)

theorem addCall_paths (h : addCall cgr id fuel htb lc work = .ok lc')
    (hwork : ∀ x ∈ work, CallPath cgr id x.1 x.2)
    (hlc : ∀ v ∈ lc, ∃ c, CallPath cgr id id c ∧ v = localVec c) :
    ∀ v ∈ lc', ∃ c, CallPath cgr id id c ∧ v = localVec c := by
  induction fuel generalizing htb lc work with
  | zero => cases h
  | succ fuel ih =>
    cases work with
    | nil =>
      cases h
      exact hlc
    | cons x work =>
      obtain ⟨s, c⟩ := x
      rw [forall_mem_cons] at hwork
      rw [addCall] at h
      split at h
      · next hs => exact ih h hwork.2 (forall_mem_cons.mpr ⟨⟨c, hs ▸ hwork.1, rfl⟩, hlc⟩)
      · next hs =>
        split at h
        · exact ih h hwork.2 hlc
        · refine ih h (forall_mem_append.mpr ⟨?_, hwork.2⟩) hlc
          intro x hx
          rw [mem_reverse, resolve, mem_reverse] at hx
          obtain ⟨y, hy, rfl⟩ := mem_map.mp hx
          exact hwork.1.cons hs (mem_findAll.mp hy)

theorem buildCallList_sound (h : buildCallList cgr id = .ok lc) :
    ∀ v ∈ lc, ∃ c, CallPath cgr id id c ∧ v = localVec c :=
  addCall_paths h (fun _ hx => .call (mem_findAll.mp hx)) (by simp)

theorem buildCallList_complete (h : buildCallList cgr id = .ok lc) {c : List Descent}
    (hpath : CallPath cgr id id c) : ∃ c', localVec c' ∈ lc ∧ subsumes c c' = true := by
  obtain ⟨H, _, _, hwork, hclosed⟩ := addCall_settled h
  have hsettled : ∀ {s c}, CallPath cgr id s c →
      ∃ c', Settled id H lc s c' ∧ subsumes c c' = true := by
    intro s c hpath
    induction hpath with
    | call hv => exact ⟨_, hwork _ (mem_findAll.mpr hv), subsumes_refl _⟩
    | cons _ hs hv ih =>
      obtain ⟨c', hc', hsub⟩ := ih
      obtain ⟨c'', hc'', hsub'⟩ := (hc'.resolve_left fun h => hs h.1).2
      exact ⟨_, (hclosed _ hc'').resolve_left not_mem_nil _ (mem_findAll.mpr hv),
        subsumes_multiply (subsumes_trans hsub hsub') _⟩
  obtain ⟨c', hc', hsub⟩ := hsettled hpath
  exact ⟨c', (hc'.resolve_right fun h => h.1 rfl).2, hsub⟩

theorem isLocal_of_mem (h : buildCallList cgr id = .ok lc) : ∀ v ∈ lc, IsLocal v := by
  intro v hv
  obtain ⟨c, _, rfl⟩ := buildCallList_sound h v hv
  exact isLocal_localVec c

/-- The calls of a relation are in the call set with right descriptions. -/
def Registered (S : DataSig) (I : Interp D) (cgr : CallSet)
    (R : LSymbol × List (Ty × D) → LSymbol × List (Ty × D) → Prop) : Prop :=
  ∀ x y, R x y → ∃ v, (y.1, x.1, v) ∈ cgr ∧ v.length = y.2.length ∧ Describes S I x.2 v y.2

/-- The vectors that are computed for a symbol describe all its first returns. -/
theorem buildCallList_spec {R : LSymbol × List (Ty × D) → LSymbol × List (Ty × D) → Prop}
    (hR : Registered S I cgr R) (h : buildCallList cgr id = .ok lc) {x z : LSymbol × List (Ty × D)}
    (hx : x.1 = id) (hz : z.1 = id) (hway : Way R (fun y => y.1 = id) z x) :
    ∃ v ∈ lc, Describes S I x.2 v z.2 := by
  have hcall : ∃ c, CallPath cgr id x.1 c ∧ Describes S I x.2 c z.2 := by
    clear hx
    induction hway with
    | @single x hxz =>
      obtain ⟨v, hv, _, hdescr⟩ := hR x z hxz
      exact ⟨v, .call (hz ▸ hv), hdescr⟩
    | @cons x y hxy hy _ ih =>
      obtain ⟨c, hc, hdescr⟩ := ih
      obtain ⟨v, hv, _, hdescr'⟩ := hR x y hxy
      exact ⟨_, hc.cons hy hv, hdescr.multiply hdescr'⟩
  obtain ⟨c, hc, hdescr⟩ := hcall
  obtain ⟨c', hmem, hsub⟩ := buildCallList_complete h (hx ▸ hc)
  exact ⟨_, hmem, (hdescr.subsumes hsub).localVec⟩

def Sized (cgr : CallSet) : Prop := ∀ c ∈ cgr, c.2.2.length = c.1.lsArgs.length

theorem Sized.length_path {s : LSymbol} {c : List Descent} (hcgr : Sized cgr)
    (hpath : CallPath cgr id s c) : c.length = id.lsArgs.length := by
  induction hpath with
  | call hv => exact hcgr _ hv
  | cons _ _ _ ih => rw [length_multiply, ih]

theorem Sized.buildCallList (hcgr : Sized cgr) (h : buildCallList cgr id = .ok lc) :
    ∀ v ∈ lc, v.length = id.lsArgs.length := by
  intro v hv
  obtain ⟨c, hpath, rfl⟩ := buildCallList_sound h v hv
  rw [localVec, length_mapIdx, hcgr.length_path hpath]

/-! ## Variants -/

theorem add_eq_less (h : d1.add d2 = .less i) : d1 = .less i ∨ d2 = .less i := by
  cases d1 <;> cases d2 <;> simp_all [Descent.add]

theorem add_ne_unknown (h : d1.add d2 ≠ .unknown) : d1 ≠ .unknown ∧ d2 ≠ .unknown := by
  cases d1 <;> cases d2 <;> simp_all [Descent.add]

theorem getD_addVec (v1 v2 : List Descent) (i : ℕ) :
    (addVec v1 v2).getD i .unknown = (v1.getD i .unknown).add (v2.getD i .unknown) := by
  rw [addVec, getD_eq_getElem?_getD, getElem?_mapIdx, getD_eq_getElem?_getD (l := v1)]
  cases v1[i]? <;> rfl

theorem getD_foldl_addVec {j : ℕ} (r : List (List Descent)) (a : List Descent)
    (h : (r.foldl addVec a).getD i .unknown = .less j) :
    (∀ v ∈ a :: r, v.getD i .unknown ≠ .unknown) ∧ ∃ v ∈ a :: r, v.getD i .unknown = .less j := by
  induction r generalizing a with
  | nil =>
    refine ⟨?_, a, mem_singleton_self a, h⟩
    rw [forall_mem_singleton]
    intro hne
    rw [foldl_nil, hne] at h
    cases h
  | cons v r ih =>
    obtain ⟨hne, w, hw, hless⟩ := ih (addVec a v) h
    rw [forall_mem_cons] at hne
    rw [getD_addVec] at hne
    obtain ⟨hne₁, hne₂⟩ := add_ne_unknown hne.1
    refine ⟨forall_mem_cons.mpr ⟨hne₁, forall_mem_cons.mpr ⟨hne₂, hne.2⟩⟩, ?_⟩
    rcases mem_cons.mp hw with rfl | hw
    · rw [getD_addVec] at hless
      rcases add_eq_less hless with h₁ | h₂
      · exact ⟨a, mem_cons_self, h₁⟩
      · exact ⟨v, by simp, h₂⟩
    · exact ⟨w, by simp [hw], hless⟩

theorem mem_decreasing {p : List Descent} : i ∈ decreasing p ↔ .less i ∈ p := by
  have hfold : ∀ l : List ℕ, i ∈ p.foldl findLess l ↔ i ∈ l ∨ .less i ∈ p := by
    induction p with
    | nil => simp
    | cons d p ih =>
      intro l
      rw [foldl_cons, ih, mem_cons]
      cases d <;> simp [findLess, or_assoc, or_left_comm]
  rw [decreasing, hfold]
  simp

/-- The chosen positions: none increases, and each decreases in one of the ways. -/
theorem decreasing_spec {a : List Descent} {r : List (List Descent)} (hl : ∀ v ∈ a :: r, IsLocal v)
    (hi : i ∈ decreasing (r.foldl addVec a)) :
    (∀ v ∈ a :: r, v.getD i .unknown = .equal i ∨ v.getD i .unknown = .less i) ∧
      ∃ v ∈ a :: r, v.getD i .unknown = .less i := by
  obtain ⟨j, hj⟩ := mem_iff_getElem?.mp (mem_decreasing.mp hi)
  have hget : (r.foldl addVec a).getD j .unknown = .less i := by
    rw [getD_eq_getElem?_getD, hj, Option.getD_some]
  obtain ⟨hne, v, hv, hless⟩ := getD_foldl_addVec r a hget
  obtain rfl : j = i := by
    rcases hl v hv j with h | h | h <;> simp_all
  exact ⟨fun w hw => (hl w hw j).resolve_left (hne w hw), v, hv, hless⟩

theorem Describes.position (h : Describes S I xs v ys) (hlen : v.length = ys.length)
    (hv : v.getD i .unknown = .equal i ∨ v.getD i .unknown = .less i) :
    OptLess (TransGen (SubValue S I)) ys[i]? xs[i]? ∨
      v.getD i .unknown ≠ .less i ∧ ys[i]? = xs[i]? := by
  have hi : i < ys.length := by
    rw [← hlen]
    by_contra hge
    rw [getD_eq_default _ _ (Nat.not_lt.mp hge)] at hv
    simp at hv
  have hy : ys[i]? = some ys[i] := getElem?_eq_getElem hi
  have hd := h.descr i _ hy
  rcases hv with hv | hv
  · rw [hv] at hd ⊢
    obtain ⟨x, hx, hle⟩ := hd
    rcases reflTransGen_iff_eq_or_transGen.mp hle with heq | hlt
    · exact .inr ⟨by simp, by rw [hx, hy, heq]⟩
    · exact .inl ⟨_, hy, x, hx, hlt⟩
  · rw [hv] at hd
    obtain ⟨x, hx, hlt⟩ := hd
    exact .inl ⟨_, hy, x, hx, hlt⟩

/-- Every way decreases in the lexicographic order of the positions. -/
theorem checkVariant_spec {exn : Exn} {acc pl : List ℕ} {cl : List (List Descent)}
    (h : checkVariant exn fuel acc cl = .ok pl) (hl : ∀ v ∈ cl, IsLocal v)
    (hlen : ∀ v ∈ cl, v.length = k) :
    ∃ pl', pl = acc.reverse ++ pl' ∧
      ∀ v ∈ cl, ∀ xs ys : List (Ty × D), ys.length = k → Describes S I xs v ys →
        LexLess (TransGen (SubValue S I)) pl' ys xs := by
  induction fuel generalizing acc cl with
  | zero =>
    cases cl with
    | nil =>
      cases h
      exact ⟨[], by simp, by simp⟩
    | cons a r => cases h
  | succ fuel ih =>
    cases cl with
    | nil =>
      cases h
      exact ⟨[], by simp, by simp⟩
    | cons a r =>
      rw [checkVariant] at h
      generalize hres : decreasing (r.foldl addVec a) = res at h
      have hspec : ∀ i ∈ res, ∀ v ∈ a :: r,
          v.getD i .unknown = .equal i ∨ v.getD i .unknown = .less i :=
        fun i hi => (decreasing_spec hl (hres ▸ hi)).1
      split at h
      · cases h
      · have hmem : ∀ v ∈ (a :: r).filter (keeps res), v ∈ a :: r :=
          fun v hv => (mem_filter.mp hv).1
        obtain ⟨pl', rfl, hpl⟩ := ih h (fun v hv => hl v (hmem v hv))
          fun v hv => hlen v (hmem v hv)
        refine ⟨res ++ pl', by simp, ?_⟩
        intro v hv xs ys hys hdescr
        have hpos := fun i hi => hdescr.position ((hlen v hv).trans hys.symm) (hspec i hi v hv)
        refine lexLess_append (fun i hi => (hpos i hi).imp_right And.right) ?_
        by_cases hkeep : keeps res v = true
        · exact .inr (hpl v (mem_filter.mpr ⟨hv, hkeep⟩) xs ys hys hdescr)
        · simp only [keeps, all_eq_true, decide_eq_true_eq, not_forall] at hkeep
          obtain ⟨i, hi, hless⟩ := hkeep
          exact .inl ⟨i, hi, (hpos i hi).resolve_right fun h => hless h.1⟩

end Why3
