import Why3.Termination.Fresh

/-!
# Terms that are equal up to the names of bound variables

The comparison of terms ignores the names and the types that binders give to their
variables: the types are compared where the variables occur. Two well-typed terms that
it finds equal have the same meaning, because no type is empty.
-/

namespace Why3

open Lib Term Interp List

variable {S : DataSig}
variable {s : Bool} {Γ : List Ty} {vl : List VSymbol} {o : Option Ty} {t u : Term}
variable {D : Type} {I : Interp D} {d : D} {a : List Attr} {ul : List VSymbol} {ty : Ty} {τ : TyVal}
variable {ρ : VSymbol → D} {f : VSymbol → VSymbol}

/-! ## Patterns -/

section Patterns

open Pattern

section OrEqual

open List

variable {f : VSymbol → VSymbol} {V W : List VSymbol}

theorem eq_of_idxOf_eq (hf : V.map f = W) {v w : VSymbol} (hv : v ∈ V) (hw : w ∈ W)
    (h : V.idxOf v = W.idxOf w) : f v = w := by
  have hlen : V.length = W.length := by rw [← hf, length_map]
  have hlt : V.idxOf v < V.length := idxOf_lt_length_of_mem hv
  have hget : W[V.idxOf v]? = some (f v) := by
    rw [← hf, getElem?_map, getElem?_eq_getElem hlt, Option.map_some, getElem_idxOf]
  have hlt' : W.idxOf w < W.length := idxOf_lt_length_of_mem hw
  rw [h, getElem?_eq_getElem hlt', getElem_idxOf, Option.some.injEq] at hget
  exact hget.symm

mutual

theorem rename_of_orEqual (hf : V.map f = W) : ∀ {p q : Pattern}, orEqual V W p q = true →
    PatTyped S p → PatTyped S q → p.patTy = q.patTy → (∀ v ∈ p.vars, v ∈ V) →
    (∀ w ∈ q.vars, w ∈ W) → p.rename f = q
  | .pwild ty, .pwild ty', _, _, _, hty, _, _ => by
    rw [rename, show ty = ty' from hty]
  | .pvar v, .pvar w, h, _, _, _, hV, hW => by
    rw [rename, eq_of_idxOf_eq hf (hV v (by simp [vars])) (hW w (by simp [vars]))
      (by simpa [orEqual] using h)]
  | .papp _ pl _, .papp _ ql _, h, hp, hq, hty, hV, hW => by
    simp only [orEqual, Bool.and_eq_true, decide_eq_true_eq] at h
    obtain ⟨rfl, h⟩ := h
    cases hp with
    | papp _ _ hpty _ hpl =>
      cases hq with
      | papp _ _ hqty _ hql =>
        simp only [patTy, Ty.tyapp.injEq] at hty
        obtain ⟨rfl, rfl⟩ := hty
        rw [rename, renameList_of_orEqual hf h hpl hql (hpty.trans hqty.symm) hV hW]
  | .por p p', .por q q', h, hp, hq, hty, hV, hW => by
    simp only [orEqual, Bool.and_eq_true] at h
    cases hp with
    | por hp hp' hpty hpv =>
      cases hq with
      | por hq hq' hqty hqv =>
        have hty : p.patTy = q.patTy := hty
        rw [rename, rename_of_orEqual hf h.1 hp hq hty hV hW,
          rename_of_orEqual hf h.2 hp' hq' (hpty.symm.trans (hty.trans hqty))
            (fun v hv => hV v ((hpv v).mpr hv)) (fun w hw => hW w ((hqv w).mpr hw))]
  | .pas p v, .pas q w, h, hp, hq, hty, hV, hW => by
    simp only [orEqual, Bool.and_eq_true, beq_iff_eq] at h
    have hty : v.vsTy = w.vsTy := hty
    simp only [vars, mem_append, mem_singleton] at hV hW
    cases hp with
    | pas hp hpv _ =>
      cases hq with
      | pas hq hqw _ =>
        rw [rename, rename_of_orEqual hf h.1 hp hq (hpv.trans (hty.trans hqw.symm))
          (fun v hv => hV v (.inl hv)) (fun w hw => hW w (.inl hw)),
          eq_of_idxOf_eq hf (hV v (.inr rfl)) (hW w (.inr rfl)) h.2]

theorem renameList_of_orEqual (hf : V.map f = W) : ∀ {pl ql : List Pattern},
    orEqualList V W pl ql = true → (∀ p ∈ pl, PatTyped S p) → (∀ q ∈ ql, PatTyped S q) →
    pl.map patTy = ql.map patTy → (∀ v ∈ varsList pl, v ∈ V) → (∀ w ∈ varsList ql, w ∈ W) →
    renameList f pl = ql
  | [], [], _, _, _, _, _, _ => rfl
  | p :: pl, q :: ql, h, hp, hq, hty, hV, hW => by
    simp only [orEqualList, Bool.and_eq_true] at h
    rw [forall_mem_cons] at hp hq
    rw [map_cons, map_cons, cons.injEq] at hty
    simp only [varsList, mem_append] at hV hW
    rw [renameList, rename_of_orEqual hf h.1 hp.1 hq.1 hty.1 (fun v hv => hV v (.inl hv))
      (fun w hw => hW w (.inl hw)), renameList_of_orEqual hf h.2 hp.2 hq.2 hty.2
      (fun v hv => hV v (.inr hv)) (fun w hw => hW w (.inr hw))]

end

end OrEqual

mutual

/-- Equal patterns of one type bind variables of the same types, and are renamings of each other. -/
theorem patEqual_spec : ∀ {p q : Pattern}, patEqual p q = true → PatTyped S p →
    PatTyped S q → p.patTy = q.patTy → p.vars.map VSymbol.vsTy = q.vars.map VSymbol.vsTy ∧
      ∀ {f}, p.vars.map f = q.vars → p.rename f = q
  | .pwild ty, .pwild ty', _, _, _, hty => by
    refine ⟨rfl, fun _ => ?_⟩
    rw [rename, show ty = ty' from hty]
  | .pvar v, .pvar w, _, _, _, hty => by
    simp only [vars, map_singleton, cons.injEq, and_true]
    exact ⟨hty, fun hf => by rw [rename, hf]⟩
  | .papp _ pl _, .papp _ ql _, h, hp, hq, hty => by
    simp only [patEqual, Bool.and_eq_true, decide_eq_true_eq] at h
    obtain ⟨rfl, h⟩ := h
    cases hp with
    | papp _ _ hpty _ hpl =>
      cases hq with
      | papp _ _ hqty _ hql =>
        simp only [patTy, Ty.tyapp.injEq] at hty
        obtain ⟨rfl, rfl⟩ := hty
        obtain ⟨htys, hren⟩ := patEqualList_spec h hpl hql (hpty.trans hqty.symm)
        exact ⟨htys, fun hf => by rw [rename, hren hf]⟩
  | .por p p', .por q q', h, hp, hq, hty => by
    simp only [patEqual, Bool.and_eq_true] at h
    cases hp with
    | por hp hp' hpty hpv =>
      cases hq with
      | por hq hq' hqty hqv =>
        have hty : p.patTy = q.patTy := hty
        obtain ⟨htys, hren⟩ := patEqual_spec h.1 hp hq hty
        refine ⟨htys, fun hf => ?_⟩
        rw [rename, hren hf, rename_of_orEqual hf h.2 hp' hq' (hpty.symm.trans (hty.trans hqty))
          (fun v hv => (hpv v).mpr hv) (fun w hw => (hqv w).mpr hw)]
  | .pas p v, .pas q w, h, hp, hq, hty => by
    have hty : v.vsTy = w.vsTy := hty
    cases hp with
    | pas hp hpv _ =>
      cases hq with
      | pas hq hqw _ =>
        obtain ⟨htys, hren⟩ :=
          patEqual_spec (p := p) (q := q) h hp hq (hpv.trans (hty.trans hqw.symm))
        simp only [vars, map_append, map_singleton, htys, hty, true_and]
        intro f hf
        obtain ⟨hf, hv⟩ := append_inj hf (by simpa using congrArg List.length htys)
        simp only [cons.injEq, and_true] at hv
        rw [rename, hren hf, hv]

theorem patEqualList_spec : ∀ {pl ql : List Pattern}, patEqualList pl ql = true →
    (∀ p ∈ pl, PatTyped S p) → (∀ q ∈ ql, PatTyped S q) → pl.map patTy = ql.map patTy →
    (varsList pl).map VSymbol.vsTy = (varsList ql).map VSymbol.vsTy ∧
      ∀ {f}, (varsList pl).map f = varsList ql → renameList f pl = ql
  | [], [], _, _, _, _ => ⟨rfl, fun _ => rfl⟩
  | p :: pl, q :: ql, h, hp, hq, hty => by
    simp only [patEqualList, Bool.and_eq_true] at h
    rw [forall_mem_cons] at hp hq
    rw [map_cons, map_cons, cons.injEq] at hty
    obtain ⟨htys, hren⟩ := patEqual_spec h.1 hp.1 hq.1 hty.1
    obtain ⟨htys', hren'⟩ := patEqualList_spec h.2 hp.2 hq.2 hty.2
    simp only [varsList, map_append, htys, htys', true_and]
    intro f hf
    obtain ⟨hf, hf'⟩ := append_inj hf (by simpa using congrArg List.length htys)
    rw [renameList, hren hf, hren' hf']

end

section Match

variable {D : Type} {I : Interp D} {τ : TyVal} {p q : Pattern}

theorem vsTy_freshVar_of_map_eq (h : vl.map VSymbol.vsTy = ul.map VSymbol.vsTy) (v : VSymbol) :
    (freshVar vl ul v).vsTy = v.vsTy := by
  rw [freshVar]
  cases hl : (vl.zip ul).lookup v with
  | none => rfl
  | some u =>
    obtain ⟨i, hi⟩ := mem_iff_getElem?.mp (mem_of_lookup hl)
    obtain ⟨hv, hu⟩ := getElem?_zip_eq_some.mp hi
    have := congrArg (fun l : List Ty => l[i]?) h
    simp only [getElem?_map, hv, hu, Option.map_some, Option.some.injEq] at this
    exact this.symm

theorem values_nil_of_map_eq (h : vl.map VSymbol.vsTy = ul.map VSymbol.vsTy) :
    I.values τ [] vl = I.values τ [] ul := by
  have hval : ∀ l : List VSymbol, I.values τ [] l =
      (l.map VSymbol.vsTy).map fun ty => I.eps (ty.vMap τ) Set.univ := by
    intro l
    rw [values, map_map]
    rfl
  rw [hval, hval, h]

/-- Equal patterns match the same values, with the same values for their variables. -/
theorem matchPat_of_patEqual (h : patEqual p q = true) (hp : PatTyped S p) (hq : PatTyped S q)
    (hty : p.patTy = q.patTy) (d : D) :
    (I.matchPat τ p d).map (fun β => I.values τ β p.vars) =
      (I.matchPat τ q d).map fun β => I.values τ β q.vars := by
  obtain ⟨htys, hren⟩ := patEqual_spec h hp hq hty
  have hmap := map_freshVar (by simpa using congrArg List.length htys) hp.nodup
  have hren := hren hmap
  generalize hf : freshVar p.vars q.vars = f at hmap hren
  have hfty : ∀ v, (f v).vsTy = v.vsTy := hf ▸ vsTy_freshVar_of_map_eq htys
  have hmatch := matchPat_rename (I := I) (τ := τ) hfty p d
  rw [hren] at hmatch
  rw [hmatch]
  cases hm : I.matchPat τ p d with
  | none => rfl
  | some β =>
    rw [hm, Option.map_some] at hmatch
    have hnodup : ((β.map (Prod.map f id)).map Prod.fst).Nodup :=
      (matchPat_keys hq hmatch).nodup_iff.mpr hq.nodup
    rw [Option.map_some, Option.map_some, Option.map_some, ← hmap, values, values, map_map]
    congr 1
    apply map_congr_left
    intro v hv
    obtain ⟨x, hx, hx'⟩ := lookup_of_rename hp hm hnodup hv
    rw [Function.comp_apply, hx', hx]
    rfl

end Match

end Patterns

/-! ## Terms -/

theorem tTy_of_compareEqual (h : compareEqual s t u = true) : t.tTy = u.tTy := by
  have hnode : nodeEqual s t u = true := by
    cases t <;> cases u <;>
      simp only [compareEqual, Bool.and_eq_true, Bool.false_eq_true] at h <;> tauto
  rw [nodeEqual, Bool.and_eq_true, decide_eq_true_eq] at hnode
  exact hnode.1

theorem forall₂_of_compareEqualBranches : ∀ {bl cl : List (Pattern × Term)},
    compareEqualBranches s bl cl = true →
    Forall₂ (fun x y => patEqual x.1 y.1 = true ∧ compareEqual s x.2 y.2 = true) bl cl
  | [], [], _ => .nil
  | [], _ :: _, h | _ :: _, [], h => by simp [compareEqualBranches] at h
  | (_, _) :: bl, (_, _) :: cl, h => by
    simp only [compareEqualBranches, Bool.and_eq_true] at h
    exact .cons h.1 (forall₂_of_compareEqualBranches h.2)

theorem WellTyped.args {ls : LSymbol} {tl : List Term} {oty : Option Ty}
    (h : WellTyped S Γ (.tapp a ls tl oty) o) : ∀ t ∈ tl, ∃ ty, WellTyped S Γ t (some ty) := by
  intro t ht
  cases h with
  | tapp _ σ _ _ hlen htl =>
    obtain ⟨i, hi⟩ := mem_iff_getElem?.mp ht
    have hlt : i < ls.lsArgs.length := hlen ▸ (List.getElem?_eq_some_iff.mp hi).1
    exact ⟨_, htl i t _ hi (getElem?_eq_getElem hlt)⟩

namespace Interp

variable {D : Type} (I : Interp D)

def AgreeAt (Γ Δ : List Ty) (b c : List D) : Prop :=
  ∀ i ty, Γ[i]? = some ty → Δ[i]? = some ty → b.getD i I.dflt = c.getD i I.dflt

variable {I} {τ : TyVal} {ρ : VSymbol → D} {Γ Δ : List Ty} {b c : List D}

theorem AgreeAt.append (h : I.AgreeAt Γ Δ b c) {Γ' Δ' : List Ty} {ds es : List D}
    (hΓ : Γ'.length = ds.length) (hΔ : Δ'.length = es.length) (hlen : ds.length = es.length)
    (h' : I.AgreeAt Γ' Δ' ds es) : I.AgreeAt (Γ' ++ Γ) (Δ' ++ Δ) (ds ++ b) (es ++ c) := by
  intro i ty hi hi'
  by_cases hlt : i < ds.length
  · rw [getElem?_append_left (by omega)] at hi hi'
    rw [getD_append _ _ _ _ hlt, getD_append _ _ _ _ (by omega)]
    exact h' i ty hi hi'
  · rw [getElem?_append_right (by omega)] at hi hi'
    rw [getD_append_right _ _ _ _ (by omega), getD_append_right _ _ _ _ (by omega), ← hlen]
    refine h _ ty ?_ ?_
    · rwa [hΓ] at hi
    · rwa [hΔ, ← hlen] at hi'

theorem AgreeAt.cons (h : I.AgreeAt Γ Δ b c) {ty ty' : Ty} {d e : D} (hd : ty = ty' → d = e) :
    I.AgreeAt (ty :: Γ) (ty' :: Δ) (d :: b) (e :: c) := by
  intro i ty₀ hi hi'
  cases i with
  | zero =>
    simp only [getElem?_cons_zero, Option.some.injEq] at hi hi'
    exact hd (hi.trans hi'.symm)
  | succ i => exact h i ty₀ hi hi'

theorem AgreeAt.refl (Γ Δ : List Ty) (b : List D) : I.AgreeAt Γ Δ b b :=
  fun _ _ _ _ => rfl

/-- Values for variables can be turned into values for variables of other types, and
stay as they are where the types are the same: no type is empty. -/
theorem exists_agreeAt (hI : I.Sound) : ∀ {tyl tyl' : List Ty} {ds : List D},
    tyl.length = tyl'.length → I.Typed τ tyl ds →
    ∃ es, I.Typed τ tyl' es ∧ I.AgreeAt tyl tyl' ds es
  | [], [], _, _, h => ⟨[], .nil, fun i ty hi => by simp at hi⟩
  | ty :: tyl, ty' :: tyl', _, hlen, .cons (b := d) hd hds => by
    obtain ⟨es, hes, hag⟩ := exists_agreeAt hI (Nat.succ.inj hlen) hds
    by_cases hty : ty = ty'
    · exact ⟨d :: es, .cons (hty ▸ hd) hes, hag.cons fun _ => rfl⟩
    · obtain ⟨e, he⟩ := hI.nonempty (ty'.vMap τ)
      exact ⟨e :: es, .cons he hes, hag.cons fun h => absurd h hty⟩

theorem eval_tquant_congr (hI : I.Sound) {a' : List Attr} {q : Quant} {vl' : List VSymbol}
    {trl trl' : List (List Term)} {f f' : Term} (hlen : vl.length = vl'.length)
    (h : ∀ ds es, I.Typed τ (vl.map VSymbol.vsTy) ds → I.Typed τ (vl'.map VSymbol.vsTy) es →
      I.AgreeAt (vl.map VSymbol.vsTy) (vl'.map VSymbol.vsTy) ds es →
      (I.eval τ ρ (ds ++ b) f).2 = (I.eval τ ρ (es ++ c) f').2) :
    I.eval τ ρ b (tquant a q vl trl f) = I.eval τ ρ c (tquant a' q vl' trl' f') := by
  have hlen₁ : (vl.map VSymbol.vsTy).length = (vl'.map VSymbol.vsTy).length := by simp [hlen]
  have hto : ∀ ds, I.Typed τ (vl.map VSymbol.vsTy) ds → ∃ es, I.Typed τ (vl'.map VSymbol.vsTy) es ∧
        (I.eval τ ρ (ds ++ b) f).2 = (I.eval τ ρ (es ++ c) f').2 := by
    intro ds hds
    obtain ⟨es, hes, hag⟩ := exists_agreeAt hI hlen₁ hds
    exact ⟨es, hes, h ds es hds hes hag⟩
  have hfrom : ∀ es, I.Typed τ (vl'.map VSymbol.vsTy) es → ∃ ds,
      I.Typed τ (vl.map VSymbol.vsTy) ds ∧
        (I.eval τ ρ (ds ++ b) f).2 = (I.eval τ ρ (es ++ c) f').2 := by
    intro es hes
    obtain ⟨ds, hds, hag⟩ := exists_agreeAt hI hlen₁.symm hes
    exact ⟨ds, hds, h ds es hds hes fun i ty hi hi' => (hag i ty hi' hi).symm⟩
  cases q with
  | tforall =>
    rw [eval_forall, eval_forall]
    congr 1
    refine propext ⟨fun hall es hes => ?_, fun hall ds hds => ?_⟩
    · obtain ⟨ds, hds, heq⟩ := hfrom es hes
      exact heq ▸ hall ds hds
    · obtain ⟨es, hes, heq⟩ := hto ds hds
      exact heq ▸ hall es hes
  | texists =>
    rw [eval_exists, eval_exists]
    congr 1
    refine propext ⟨fun ⟨ds, hds, hf⟩ => ?_, fun ⟨es, hes, hf⟩ => ?_⟩
    · obtain ⟨es, hes, heq⟩ := hto ds hds
      exact ⟨es, hes, heq ▸ hf⟩
    · obtain ⟨ds, hds, heq⟩ := hfrom es hes
      exact ⟨ds, hds, heq ▸ hf⟩

theorem eval_of_compareEqualList : ∀ {tl ul : List Term},
    compareEqualList s tl ul = true →
    (∀ t ∈ tl, ∀ u ∈ ul, compareEqual s t u = true → I.eval τ ρ b t = I.eval τ ρ c u) →
    (tl.map fun t => (I.eval τ ρ b t).1) = ul.map fun u => (I.eval τ ρ c u).1
  | [], [], _, _ => rfl
  | [], _ :: _, h, _ | _ :: _, [], h, _ => by simp [compareEqualList] at h
  | t :: tl, u :: ul, h, heval => by
    simp only [compareEqualList, Bool.and_eq_true] at h
    rw [map_cons, map_cons, heval t mem_cons_self u mem_cons_self h.1,
      eval_of_compareEqualList h.2 fun t ht u hu =>
        heval t (mem_cons_of_mem _ ht) u (mem_cons_of_mem _ hu)]

theorem eval_of_compareEqualBranches {ty : Ty} {d : D} (hb : I.AgreeAt Γ Δ b c)
    {bl cl : List (Pattern × Term)} (h : compareEqualBranches s bl cl = true)
    (hp : ∀ x ∈ bl, PatTyped S x.1 ∧ x.1.patTy = ty) (hq : ∀ y ∈ cl, PatTyped S y.1 ∧ y.1.patTy = ty)
    (ih : ∀ x ∈ bl, ∀ y ∈ cl, ∀ {b' c' : List D}, compareEqual s x.2 y.2 = true →
      I.AgreeAt (x.1.vars.map VSymbol.vsTy ++ Γ) (y.1.vars.map VSymbol.vsTy ++ Δ) b' c' →
      I.eval τ ρ b' x.2 = I.eval τ ρ c' y.2) :
    I.evalBranches τ ρ b d bl = I.evalBranches τ ρ c d cl := by
  refine evalBranches_rel (R := Eq) rfl
    ((forall₂_and_mem (forall₂_of_compareEqualBranches h)).imp fun x y hxy => ?_)
  obtain ⟨hx, hy, hpat, heq⟩ := hxy
  have hty := (hp x hx).2.trans (hq y hy).2.symm
  have htys := (patEqual_spec hpat (hp x hx).1 (hq y hy).1 hty).1
  have hmatch := matchPat_of_patEqual (I := I) (τ := τ) hpat (hp x hx).1 (hq y hy).1 hty d
  have hnil := values_nil_of_map_eq (I := I) (τ := τ) htys
  have hvals : I.values τ ((I.matchPat τ x.1 d).getD []) x.1.vars =
      I.values τ ((I.matchPat τ y.1 d).getD []) y.1.vars := by
    cases hx : I.matchPat τ x.1 d <;> cases hy : I.matchPat τ y.1 d <;> simp_all
  refine ⟨by simpa using congrArg Option.isSome hmatch, ?_⟩
  rw [hvals]
  refine ih x hx y hy heq (hb.append ?_ ?_ rfl (.refl _ _ _))
  · rw [htys, length_map, length_values]
  · rw [length_map, length_values]

end Interp

theorem WellTyped.eval_of_compareEqual (hI : I.Sound) {Δ : List Ty} {o' : Option Ty} {b c : List D}
    (ht : WellTyped S Γ t o) (h : compareEqual s t u = true) (hu : WellTyped S Δ u o')
    (hb : I.AgreeAt Γ Δ b c) : I.eval τ ρ b t = I.eval τ ρ c u := by
  induction ht generalizing u Δ o' b c with
  | tvar a v =>
    cases u with
    | tvar a' v' =>
      simp only [compareEqual, Bool.and_eq_true, decide_eq_true_eq] at h
      rw [eval_tvar, eval_tvar, h.2]
    | _ => simp [compareEqual] at h
  | @tbnd Γ a i ty hi =>
    have hty := tTy_of_compareEqual h
    cases u with
    | tbnd a' j ty' =>
      simp only [compareEqual, Bool.and_eq_true, beq_iff_eq] at h
      obtain rfl : ty = ty' := Option.some.inj hty
      obtain ⟨_, rfl⟩ := h
      cases hu with
      | tbnd _ hj => rw [eval_tbnd, eval_tbnd, hb i ty hi hj]
    | _ => simp [compareEqual] at h
  | tconst a cst ty =>
    have hty := tTy_of_compareEqual h
    cases u with
    | tconst a' cst' ty' =>
      simp only [compareEqual, Bool.and_eq_true, decide_eq_true_eq] at h
      obtain rfl : ty = ty' := Option.some.inj hty
      rw [eval_tconst, eval_tconst, h.2]
    | _ => simp [compareEqual] at h
  | @tapp Γ a ls tl oty σ hls ho hlen htl ih =>
    have hty := tTy_of_compareEqual h
    cases u with
    | tapp a' ls' ul oty' =>
      simp only [compareEqual, Bool.and_eq_true, decide_eq_true_eq] at h
      obtain ⟨⟨_, rfl⟩, hl⟩ := h
      obtain rfl : oty = oty' := hty
      have hargs := eval_of_compareEqualList (I := I) (τ := τ) (ρ := ρ) (b := b) (c := c) hl
        (by
          intro t ht u' hu' heq
          obtain ⟨i, hi⟩ := mem_iff_getElem?.mp ht
          have hlt : i < ls.lsArgs.length := hlen ▸ (List.getElem?_eq_some_iff.mp hi).1
          obtain ⟨o', hu'⟩ := hu.args u' hu'
          exact ih i t _ hi (getElem?_eq_getElem hlt) heq hu' hb)
      cases oty with
      | none => rw [eval_tapp_none, eval_tapp_none, hargs]
      | some ty => rw [eval_tapp_some, eval_tapp_some, hargs]
    | _ => simp [compareEqual] at h
  | tif a _ _ _ ihf iht ihe =>
    cases u with
    | tif a' f' t' e' =>
      simp only [compareEqual, Bool.and_eq_true] at h
      cases hu with
      | tif _ hf' ht' he' =>
        rw [eval_tif, eval_tif, ihf h.1.1.2 hf' hb, iht h.1.2 ht' hb, ihe h.2 he' hb]
    | _ => simp [compareEqual] at h
  | tlet a _ _ iht ihe =>
    cases u with
    | tlet a' t' v' e' =>
      simp only [compareEqual, Bool.and_eq_true] at h
      cases hu with
      | tlet _ ht' he' =>
        rw [eval_tlet, eval_tlet, iht h.1.2 ht' hb, ihe h.2 he' (hb.cons fun _ => rfl)]
    | _ => simp [compareEqual] at h
  | @tcase Γ a t ty bl o ht _ _ hp _ iht ihbl =>
    cases u with
    | tcase a' t' bl' =>
      simp only [compareEqual, Bool.and_eq_true] at h
      cases hu with
      | tcase _ ht' _ _ hp' hbl' =>
        have hty := tTy_of_compareEqual h.1.2
        rw [ht.tTy_eq, ht'.tTy_eq, Option.some.injEq] at hty
        subst hty
        rw [eval_tcase, eval_tcase, iht h.1.2 ht' hb]
        exact eval_of_compareEqualBranches hb h.2 hp hp'
          fun x hx y hy _ _ heq => ihbl x hx heq (hbl' y hy)
    | _ => simp [compareEqual] at h
  | @teps Γ a v f _ ih =>
    have hty := tTy_of_compareEqual h
    cases u with
    | teps a' v' f' =>
      simp only [compareEqual, Bool.and_eq_true] at h
      have hty : v.vsTy = v'.vsTy := Option.some.inj hty
      cases hu with
      | teps _ hf' =>
        rw [eval_teps, eval_teps, hty]
        congr 3
        funext d
        rw [ih h.2 hf' (hb.cons fun _ => rfl)]
    | _ => simp [compareEqual] at h
  | @tquant Γ a q vl trl f _ _ _ ih =>
    cases u with
    | tquant a' q' vl' trl' f' =>
      simp only [compareEqual, Bool.and_eq_true, decide_eq_true_eq, beq_iff_eq] at h
      obtain ⟨⟨⟨⟨_, rfl⟩, hlen⟩, _⟩, h⟩ := h
      cases hu with
      | tquant _ _ _ hf' =>
        refine eval_tquant_congr hI hlen fun ds es hds hes hag => ?_
        have hds' := Typed.length_eq hds
        have hes' := Typed.length_eq hes
        rw [length_map] at hds' hes'
        rw [ih h hf' (hb.append (by simpa using hds') (by simpa using hes')
          (by omega) hag)]
    | _ => simp [compareEqual] at h
  | tbinop a op _ _ ihf ihg =>
    cases u with
    | tbinop a' op' f' g' =>
      simp only [compareEqual, Bool.and_eq_true, decide_eq_true_eq] at h
      obtain ⟨⟨⟨_, rfl⟩, hg⟩, hf⟩ := h
      cases hu with
      | tbinop _ _ huf hug =>
        cases op <;>
          simp only [eval_tand, eval_tor, eval_timplies, eval_tiff, ihf hf huf hb, ihg hg hug hb]
    | _ => simp [compareEqual] at h
  | tnot a _ ih =>
    cases u with
    | tnot a' f' =>
      simp only [compareEqual, Bool.and_eq_true] at h
      cases hu with
      | tnot _ hu => rw [eval_tnot, eval_tnot, ih h.2 hu hb]
    | _ => simp [compareEqual] at h
  | ttrue a =>
    cases u with
    | ttrue a' => rfl
    | _ => simp [compareEqual] at h
  | tfalse a =>
    cases u with
    | tfalse a' => rfl
    | _ => simp [compareEqual] at h

theorem eval_of_tEqual (hI : I.Sound) {o' : Option Ty} (ht : WellTyped S Γ t o)
    (hu : WellTyped S Γ u o') (h : tEqual t u = true) (b : List D) :
    I.eval τ ρ b t = I.eval τ ρ b u :=
  ht.eval_of_compareEqual hI h hu (.refl Γ Γ b)

end Why3
