import Why3.Core.Inductive
import Why3.Core.MapLs
import Why3.Core.TySubst
import Why3.Lib.Polarity
import Why3.Logic.Agree

/-!
# Positive occurrences

What the checks on clauses of inductive predicates are for: the truth of a formula grows
with the predicates that only have positive occurrences, also when their applications
are replaced by other formulas. The checks are kept under a substitution of types.
-/

namespace Why3

open Lib Term Interp List

variable {D : Type}
variable {t : Term}

theorem tPosPs_eq_ok {sps : List LSymbol} :
    tPosPs sps t = .ok () ↔ ∀ ls ∈ sps, Sym.ls ls ∉ symsTerm t := by
  rw [tPosPs, forM_eq_ok]
  constructor
  · intro h ls hls hmem
    have := h _ hmem
    simp [hls] at this
  · intro h s hs
    cases s with
    | ls ls =>
      have hls : ls ∉ sps := fun hls => h ls hls hs
      simp [hls]
    | ts _ => rfl
    | pr _ => rfl

theorem except_seq_eq_ok {ε : Type} {x y : Except ε PUnit} :
    (do x; y) = .ok () ↔ x = .ok () ∧ y = .ok () := by
  rw [bind_eq_ok]
  exact ⟨fun ⟨_, hx, hy⟩ => ⟨hx, hy⟩, fun ⟨hx, hy⟩ => ⟨_, hx, hy⟩⟩

/-! ## Formulas in which applications are replaced -/

section Mono

variable {I I' : Interp D} {τ : TyVal} {ρ : VSymbol → D} {sps : List LSymbol} {ls : LSymbol}
  {g : Term → List Term → Except Exn Term}

/-- Going from `I` to `I'`, the predicates `sps` only grow, and the closed applications of
`ls` imply what replaces them. -/
structure Grows (I I' : Interp D) (τ : TyVal) (ρ : VSymbol → D) (sps : List LSymbol)
    (ls : LSymbol) (g : Term → List Term → Except Exn Term) : Prop where
  agree : AgreeOn (fun s => s ∉ sps) I I'
  fn : I'.fn = I.fn
  mem : ls ∈ sps
  other : ∀ s ∈ sps, s ≠ ls → ∀ ds, I.pr s ds → I'.pr s ds
  app : ∀ a tl ty u b, freeVarsList tl = [] → (∀ t ∈ tl, tPosPs sps t = .ok ()) →
    g (tapp a ls tl ty) tl = .ok u → (I.eval τ ρ b (tapp a ls tl ty)).2 → (I'.eval τ ρ b u).2

theorem Interp.AgreeOn.eval_term (h : AgreeOn (fun s => s ∉ sps) I I') (ht : tPosPs sps t = .ok ())
    (b : List D) : I'.eval τ ρ b t = I.eval τ ρ b t :=
  h.eval t b fun s hs hmem => tPosPs_eq_ok.mp ht s hmem hs

theorem Interp.AgreeOn.eval_terms (h : AgreeOn (fun s => s ∉ sps) I I') {tl : List Term}
    (htl : ∀ t ∈ tl, tPosPs sps t = .ok ()) (b : List D) :
    (tl.map fun t => (I'.eval τ ρ b t).1) = tl.map fun t => (I.eval τ ρ b t).1 :=
  map_congr_left fun t ht => by rw [h.eval_term (htl t ht) b]

theorem Grows.mapLs_term (h : Grows I I' τ ρ sps ls g) {t' : Term} (ht : tPosPs sps t = .ok ())
    (ht' : mapLs ls g t = .ok t') : t' = t := by
  rw [mapLs_self t fun hls => absurd hls (tPosPs_eq_ok.mp ht ls h.mem)] at ht'
  exact (Except.ok.inj ht').symm

theorem Grows.mapLsList_terms (h : Grows I I' τ ρ sps ls g) : ∀ {tl tl' : List Term},
    (∀ t ∈ tl, tPosPs sps t = .ok ()) → mapLsList ls g tl = .ok tl' → tl' = tl
  | [], _, _, h' => (Except.ok.inj h').symm
  | t :: tl, _, htl, h' => by
    rw [forall_mem_cons] at htl
    obtain ⟨u, hu, h'⟩ := bind_eq_ok.mp h'
    obtain ⟨ul, hul, h'⟩ := bind_eq_ok.mp h'
    rw [← Except.ok.inj h', h.mapLs_term htl.1 hu, h.mapLsList_terms htl.2 hul]

theorem mapLsBranches_eq_ok : ∀ {bl bl' : List (Pattern × Term)}, mapLsBranches ls g bl = .ok bl' →
    Forall₂ (fun b b' => b'.1 = b.1 ∧ mapLs ls g b.2 = .ok b'.2) bl bl'
  | [], _, h => by
    cases h
    exact .nil
  | b :: bl, _, h => by
    obtain ⟨t, ht, bl', hbl', h⟩ := bind₂_eq_ok.mp h
    cases h
    exact .cons ⟨rfl, ht⟩ (mapLsBranches_eq_ok hbl')

theorem fPosPsBranches_eq_ok {pol : Option Bool} {bl : List (Pattern × Term)} :
    fPosPsBranches sps pol bl = .ok () ↔ ∀ b ∈ bl, fPosPs sps pol b.2 = .ok () := by
  induction bl with
  | nil => simp [fPosPsBranches]
  | cons b bl ih => rw [fPosPsBranches, except_seq_eq_ok, ih, forall_mem_cons]

/-- The truth of a closed formula in which the applications of `ls` are replaced changes as
its polarity says. -/
theorem Grows.eval (h : Grows I I' τ ρ sps ls g) (f : Term) {pol : Option Bool} {f' : Term}
    (b : List D) (hfv : f.freeVars = []) (hpos : fPosPs sps pol f = .ok ())
    (h' : mapLs ls g f = .ok f') : Polar pol (I.eval τ ρ b f).2 (I'.eval τ ρ b f').2 := by
  induction f using inductionOn generalizing pol f' b with
  | tapp a s tl ty _ =>
    rw [fPosPs] at hpos
    split at hpos
    · cases hpos
    · next hs =>
        rw [forM_eq_ok] at hpos
        rw [mapLs] at h'
        split at h'
        · next heq =>
            subst heq
            obtain rfl : pol = some true := by
              by_contra hne
              exact hs ⟨hne, h.mem⟩
            exact h.app a tl ty f' b hfv hpos h'
        · next hne =>
            obtain ⟨tl', htl', h'⟩ := bind_eq_ok.mp h'
            rw [← Except.ok.inj h', h.mapLsList_terms hpos htl']
            cases ty with
            | some ty => exact .of_iff (by simp)
            | none =>
              rw [eval_tapp_none, eval_tapp_none, h.agree.eval_terms hpos b]
              by_cases hmem : s ∈ sps
              · obtain rfl : pol = some true := by
                  by_contra hne
                  exact hs ⟨hne, hmem⟩
                exact h.other s hmem (Ne.symm hne) _
              · rw [h.agree.pr s hmem]
                exact .of_iff Iff.rfl
  | tif _ f t e ihf iht ihe =>
    rw [fPosPs, except_seq_eq_ok, except_seq_eq_ok] at hpos
    obtain ⟨f', hf', h'⟩ := bind_eq_ok.mp h'
    obtain ⟨t', ht', h'⟩ := bind_eq_ok.mp h'
    obtain ⟨e', he', h'⟩ := bind_eq_ok.mp h'
    rw [← Except.ok.inj h', eval_tif, eval_tif]
    rw [freeVars, append_eq_nil_iff, append_eq_nil_iff] at hfv
    have hf : (I.eval τ ρ b f).2 ↔ (I'.eval τ ρ b f').2 := ihf b hfv.1.1 hpos.1 hf'
    by_cases hc : (I.eval τ ρ b f).2
    · rw [if_pos hc, if_pos (hf.mp hc)]
      exact iht b hfv.1.2 hpos.2.1 ht'
    · rw [if_neg hc, if_neg fun hc' => hc (hf.mpr hc')]
      exact ihe b hfv.2 hpos.2.2 he'
  | tlet _ t _ e _ ihe =>
    rw [fPosPs, except_seq_eq_ok] at hpos
    obtain ⟨t', ht', h'⟩ := bind_eq_ok.mp h'
    obtain ⟨e', he', h'⟩ := bind_eq_ok.mp h'
    rw [← Except.ok.inj h', eval_tlet, eval_tlet, h.mapLs_term hpos.1 ht',
      h.agree.eval_term hpos.1 b]
    exact ihe _ (append_eq_nil_iff.mp hfv).2 hpos.2 he'
  | tcase _ t bl _ ihbl =>
    rw [fPosPs, except_seq_eq_ok, fPosPsBranches_eq_ok] at hpos
    rw [freeVars, append_eq_nil_iff, freeVarsBranches_eq, flatMap_eq_nil_iff] at hfv
    obtain ⟨t', ht', h'⟩ := bind_eq_ok.mp h'
    obtain ⟨bl', hbl', h'⟩ := bind_eq_ok.mp h'
    rw [← Except.ok.inj h', eval_tcase, eval_tcase, h.mapLs_term hpos.1 ht',
      h.agree.eval_term hpos.1 b]
    refine evalBranches_rel (R := fun x y => Polar pol x.2 y.2) (.of_iff (Iff.refl False))
      ((forall₂_and_mem (mapLsBranches_eq_ok hbl')).imp fun c c' hc => ?_)
    obtain ⟨hmem, -, heq, hu⟩ := hc
    have hmatch : I'.matchPat τ c.1 (I.eval τ ρ b t).1 = I.matchPat τ c.1 (I.eval τ ρ b t).1 :=
      h.agree.matchPat _ _ fun s _ => by rw [h.fn]
    rw [heq, hmatch, h.agree.values]
    exact ⟨rfl, ihbl c.1 c.2 hmem _ (hfv.2 c hmem) (hpos.2 c hmem) hu⟩
  | tquant _ q vl trl f _ ihf =>
    rw [fPosPs, except_seq_eq_ok] at hpos
    obtain ⟨trl', htrl', h'⟩ := bind_eq_ok.mp h'
    obtain ⟨f', hf', h'⟩ := bind_eq_ok.mp h'
    have hf := fun ds => ihf (ds ++ b) (append_eq_nil_iff.mp hfv).2 hpos.1 hf'
    rw [← Except.ok.inj h']
    cases q with
    | tforall =>
      rw [eval_forall, eval_forall]
      simp only [h.agree.typed]
      exact .forall_imp hf
    | texists =>
      rw [eval_exists, eval_exists]
      simp only [h.agree.typed]
      exact .exists_and hf
  | tbinop _ op f₁ f₂ ih₁ ih₂ =>
    obtain ⟨f₁', hf₁', h'⟩ := bind_eq_ok.mp h'
    obtain ⟨f₂', hf₂', h'⟩ := bind_eq_ok.mp h'
    rw [freeVars, append_eq_nil_iff] at hfv
    rw [← Except.ok.inj h']
    cases op <;> rw [fPosPs, except_seq_eq_ok] at hpos
    · exact .and (ih₁ b hfv.1 hpos.1 hf₁') (ih₂ b hfv.2 hpos.2 hf₂')
    · exact .or (ih₁ b hfv.1 hpos.1 hf₁') (ih₂ b hfv.2 hpos.2 hf₂')
    · exact .imp (ih₁ b hfv.1 hpos.1 hf₁') (ih₂ b hfv.2 hpos.2 hf₂')
    · exact .iff (ih₁ b hfv.1 hpos.1 hf₁') (ih₂ b hfv.2 hpos.2 hf₂')
  | tnot _ f ih =>
    rw [fPosPs] at hpos
    obtain ⟨f', hf', h'⟩ := bind_eq_ok.mp h'
    rw [← Except.ok.inj h']
    exact .not (ih b hfv hpos hf')
  | teps =>
    obtain ⟨f', hf', h'⟩ := bind_eq_ok.mp h'
    rw [← Except.ok.inj h', eval_teps, eval_teps]
    exact .of_iff Iff.rfl
  | _ =>
    rw [← Except.ok.inj h']
    exact .of_iff Iff.rfl

end Mono

/-! ## Substitution of types -/

section GenMap

open List

variable {fnT : Ty → Ty} {m : VSymbol → VSymbol} {ls : LSymbol} {sps : List LSymbol}

theorem ls_not_mem_symsTy (ty : Ty) : Sym.ls ls ∉ symsTy ty := by simp [symsTy]

theorem mem_symsPattern_genMap {m : VSymbol → VSymbol} (p : Pattern)
    (h : Sym.ls ls ∈ symsPattern (p.genMap fnT m)) : Sym.ls ls ∈ symsPattern p := by
  induction p using Pattern.inductionOn with
  | _ =>
    simp only [Pattern.genMap, symsPattern, mem_append, mem_cons, ls_not_mem_symsTy,
      Pattern.genMapList_eq_map, mem_symsPatternList] at h ⊢ <;> grind

theorem mem_symsTerm_genMap (t : Term) (h : Sym.ls ls ∈ symsTerm (t.genMap fnT m)) :
    Sym.ls ls ∈ symsTerm t := by
  have hty : ∀ ty : Option Ty, Sym.ls ls ∉ ty.elim [] symsTy := by
    intro ty
    cases ty <;> simp [ls_not_mem_symsTy]
  induction t using inductionOn with
  | _ =>
    simp only [genMap, symsTerm, mem_append, mem_cons, ls_not_mem_symsTy, hty,
      genMapList_eq_map, genMapBranches_eq_map, genMapTriggers_eq_map, mem_symsTermList,
      mem_symsTermBranches, mem_symsTermTriggers, mem_flatMap, Prod.exists] at h ⊢ <;>
      grind [mem_symsPattern_genMap]

theorem tPosPs_genMap (h : tPosPs sps t = .ok ()) : tPosPs sps (t.genMap fnT m) = .ok () := by
  rw [tPosPs_eq_ok] at h ⊢
  exact fun ls hls hmem => h ls hls (mem_symsTerm_genMap t hmem)

theorem tTy_genMap_eq_none (t : Term) : (t.genMap fnT m).tTy = none ↔ t.tTy = none := by
  induction t using inductionOn with
  | tcase _ _ bl _ ih =>
    cases bl with
    | nil => exact Iff.rfl
    | cons b bl => exact ih b.1 b.2 mem_cons_self
  | _ => simp_all [genMap, tTy]

theorem fPosPsTriggers_eq_ok {pol : Option Bool} {trl : List (List Term)} :
    fPosPsTriggers sps pol trl = .ok () ↔ ∀ tl ∈ trl, ∀ t ∈ tl,
      (if t.tTy = none then fPosPs sps pol t else tPosPs sps t) = .ok () := by
  have hlist : ∀ tl, fPosPsList sps pol tl = .ok () ↔ ∀ t ∈ tl,
      (if t.tTy = none then fPosPs sps pol t else tPosPs sps t) = .ok () := by
    intro tl
    induction tl with
    | nil => simp [fPosPsList]
    | cons t tl ih =>
      rw [fPosPsList, forall_mem_cons, ← ih]
      split <;> exact except_seq_eq_ok
  induction trl with
  | nil => simp [fPosPsTriggers]
  | cons tl trl ih =>
    rw [fPosPsTriggers, forall_mem_cons]
    exact except_seq_eq_ok.trans (and_congr (hlist tl) ih)

theorem fPosPs_genMap (f : Term) {pol : Option Bool} (h : fPosPs sps pol f = .ok ()) :
    fPosPs sps pol (f.genMap fnT m) = .ok () := by
  induction f using inductionOn generalizing pol with
  | tapp _ s tl ty _ =>
    rw [genMap]
    rw [fPosPs] at h ⊢
    split at h
    · cases h
    · next hs =>
        rw [forM_eq_ok] at h
        rw [if_neg hs, genMapList_eq_map, forM_eq_ok, forall_mem_map]
        exact fun t ht => tPosPs_genMap (h t ht)
  | tcase _ t bl _ ihbl =>
    rw [fPosPs, except_seq_eq_ok, fPosPsBranches_eq_ok] at h
    rw [genMap, fPosPs, except_seq_eq_ok, genMapBranches_eq_map, fPosPsBranches_eq_ok,
      forall_mem_map]
    exact ⟨tPosPs_genMap h.1, fun b hb => ihbl b.1 b.2 hb (h.2 b hb)⟩
  | tquant _ _ _ trl f ihtrl ihf =>
    rw [fPosPs, except_seq_eq_ok, fPosPsTriggers_eq_ok] at h
    rw [genMap, fPosPs, except_seq_eq_ok, genMapTriggers_eq_map, fPosPsTriggers_eq_ok]
    simp only [forall_mem_map, tTy_genMap_eq_none]
    refine ⟨ihf h.1, fun tl htl t ht => ?_⟩
    have hcheck := h.2 tl htl t ht
    split at hcheck
    · next hty => rw [if_pos hty, ihtrl tl htl t ht hcheck]
    · next hty => rw [if_neg hty, tPosPs_genMap hcheck]
  | tbinop _ op f g ihf ihg =>
    rw [genMap]
    cases op <;>
      · rw [fPosPs, except_seq_eq_ok] at h ⊢
        exact ⟨ihf h.1, ihg h.2⟩
  | _ => simp only [genMap, fPosPs, except_seq_eq_ok] at h ⊢ <;> grind [tPosPs_genMap]

end GenMap

end Why3
