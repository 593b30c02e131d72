import Why3.Logic.Map

/-!
# Maps that do not increase the measure

A map over the parts of a term does not increase the measure of the term if it does not
increase those of the parts.
-/

namespace Why3

open Lib Term List

variable {S : DataSig} {o : Option Ty}
variable {ds : List ℕ} {t u : Term} {ρ : VSymbol → ℕ}
variable {e s : Term} {n : ℕ} {fn : ℕ → (u : Term) → Part u t → Except Exn Term}

/-- The second term measures no more than the first one, whatever the variables measure. -/
def Shrinks (t t' : Term) : Prop := ∀ ρ, rank ρ [] t' ≤ rank ρ [] t

namespace Shrinks

theorem refl (t : Term) : Shrinks t t := fun _ => le_refl _

theorem trans {w : Term} (h : Shrinks t u) (h' : Shrinks u w) : Shrinks t w :=
  fun ρ => le_trans (h' ρ) (h ρ)

theorem attrCopy (a : List Attr) (h : Shrinks t u) : Shrinks t (u.attrCopy a) :=
  fun ρ => by
    rw [rank_attrCopy]
    exact h ρ

theorem body {ul : List VSymbol} (h : Shrinks (openVars ul e) s) (hul : ul.Nodup)
    (hnew : ∀ u ∈ ul, u ∉ e.freeVars) (ρ : VSymbol → ℕ) (hlen : ds.length = ul.length) :
    rank ρ ds (closeVars ul s) ≤ rank ρ ds e := by
  have hclose := rank_closeVars (ρ := ρ) hlen [] s
  rw [append_nil] at hclose
  rw [hclose]
  refine le_trans (h _) (le_of_eq ?_)
  rw [rank_openVars, append_nil]
  have hmap : (ul.map fun v => if v ∈ ul then ds.getD (ul.idxOf v) 0 else ρ v) = ds := by
    refine ext_getElem (by rw [length_map, hlen]) fun i hi hi' => ?_
    have hi'' : i < ul.length := hlen ▸ hi'
    rw [getElem_map, if_pos (getElem_mem hi''), hul.idxOf_getElem, getD_eq_getElem _ _ hi']
  rw [hmap]
  refine rank_congr e ds fun v hv => if_neg fun hmem => hnew v hmem hv

end Shrinks

theorem eq_of_checkTy {r : Except Exn Term} (h : checkTy t r = .ok u) : r = .ok u := by
  obtain ⟨_, hr, _, _, h⟩ := bind₂_eq_ok.mp h
  cases h
  exact hr

def ShrinksParts (S : DataSig) (n : ℕ) (t : Term)
    (fn : ℕ → (u : Term) → Part u t → Except Exn Term) : Prop :=
  ∀ n' ≥ n, ∀ u (h : Part u t) o u', WellTyped S [] u o → u.VarsBelow n' → fn n' u h = .ok u' →
    Shrinks u u'

theorem ShrinksParts.body (hfn : ShrinksParts S n t fn) (vl : List VSymbol)
    {h : Part (openVars (freshLike n vl) e) t} (he : WellTyped S (vl.map VSymbol.vsTy) e o)
    (hn : e.VarsBelow n) (hs : checkTy (openVars (freshLike n vl) e)
      (fn (n + vl.length) (openVars (freshLike n vl) e) h) = .ok s) (ρ : VSymbol → ℕ) (ds : List ℕ)
    (hlen : ds.length = vl.length) : rank ρ ds (closeVars (freshLike n vl) s) ≤ rank ρ ds e := by
  rw [← map_vsTy_freshLike n vl, ← append_nil (List.map _ _)] at he
  have hbody := hfn _ (Nat.le_add_right _ _) _ h _ s (WellTyped.openVars _ he)
    (.openVars hn (Nat.le_add_right _ _) fun u hu => (idTag_of_mem_freshLike hu).2)
    (eq_of_checkTy hs)
  exact hbody.body (nodup_freshLike n vl) (fun u hu hmem => not_mem_freshLike (hn u hmem) hu) ρ
    (by rw [hlen, length_freshLike])

theorem rank_tQuantClose_le (ρ : VSymbol → ℕ) (q : Quant) (vl : List VSymbol)
    (trl : List (List Term)) (f : Term) : rank ρ [] (tQuantClose q vl trl f) ≤
      gain vl.length (fun ds => rankTriggers ρ ds (trl.map fun tl => tl.map (closeVars vl)) +
        rank ρ ds (closeVars vl f)) + 1 := by
  unfold tQuantClose
  split_ifs with hvl
  · obtain rfl := List.isEmpty_iff.mp hvl
    have hclose : rank ρ [] (closeVars [] f) = rank ρ [] f := by
      rw [← nil_append ([] : List ℕ), rank_closeVars rfl]
      simp
    rw [← hclose]
    exact Nat.le_succ_of_le (Nat.le_add_left _ _)
  · rw [rank]
    simp only [append_nil]
    exact le_refl _

theorem rankList_le {tl sl : List Term} (h : Forall₂ (fun t s => rank ρ ds s ≤ rank ρ ds t) tl sl) :
    rankList ρ ds sl ≤ rankList ρ ds tl := by
  induction h with
  | nil => exact le_refl _
  | cons ht _ ih => exact Nat.add_le_add ht ih

theorem rankTriggers_le {trl srl : List (List Term)}
    (h : Forall₂ (Forall₂ fun t s => rank ρ ds s ≤ rank ρ ds t) trl srl) :
    rankTriggers ρ ds srl ≤ rankTriggers ρ ds trl := by
  induction h with
  | nil => exact le_refl _
  | cons ht _ ih => exact Nat.add_le_add (rankList_le ht) ih

theorem rankBranches_le {bl cl : List (Pattern × Term)}
    (h : Forall₂ (fun b c => rank ρ (replicate c.1.vars.length 0) c.2 ≤
      rank ρ (replicate b.1.vars.length 0) b.2) bl cl) :
    rankBranches ρ [] cl ≤ rankBranches ρ [] bl := by
  induction h with
  | nil => exact le_refl _
  | cons hb _ ih =>
    simp only [rankBranches, append_nil]
    exact Nat.add_le_add hb ih

/-- A map that does not increase the measures of the parts does not increase that of the term. -/
theorem tMap_shrinks {t' : Term} (ht : WellTyped S [] t o) (hn : t.VarsBelow n)
    (hfn : ShrinksParts S n t fn) (h : tMap n t fn = .ok t') : Shrinks t t' := by
  have htyped := ht
  cases ht with
  | tvar a v | tconst a c ty | ttrue a | tfalse a => cases h; exact .refl _
  | tbnd a hi => simp at hi
  | @tapp _ a ls tl _ σ hls ho hlen htl =>
    obtain ⟨sl, hsl, h⟩ := bind_eq_ok.mp h
    cases h
    refine Shrinks.attrCopy a fun ρ => Nat.succ_le_succ (rankList_le ?_)
    refine (forall₂_of_mapMem hsl).imp ?_
    rintro u s ⟨hu, hs⟩
    exact hfn n (le_refl n) u (.app hu) _ s (htyped.args u hu).choose_spec
      (hn.tapp u hu) (eq_of_checkTy hs) ρ
  | @tif _ a f t e _ hf ht he =>
    obtain ⟨g, hg, s, hs, r, hr, h⟩ := bind₃_eq_ok.mp h
    cases h
    refine Shrinks.attrCopy a fun ρ => ?_
    have h₁ := hfn n (le_refl n) f .ifCond _ g hf hn.tif.1
      (eq_of_checkTy hg) ρ
    have h₂ := hfn n (le_refl n) t .ifThen _ s ht hn.tif.2.1
      (eq_of_checkTy hs) ρ
    have h₃ := hfn n (le_refl n) e .ifElse _ r he hn.tif.2.2
      (eq_of_checkTy hr) ρ
    rw [rank, rank]
    omega
  | @tbinop _ a op f g hf hg =>
    obtain ⟨f', hf', g', hg', h⟩ := bind₂_eq_ok.mp h
    cases h
    refine Shrinks.attrCopy a fun ρ => ?_
    have h₁ := hfn n (le_refl n) f .left _ f' hf hn.tbinop.1
      (eq_of_checkTy hf') ρ
    have h₂ := hfn n (le_refl n) g .right _ g' hg hn.tbinop.2
      (eq_of_checkTy hg') ρ
    rw [rank, rank]
    omega
  | @tnot _ a f hf =>
    obtain ⟨f', hf', h⟩ := bind_eq_ok.mp h
    cases h
    exact Shrinks.attrCopy a fun ρ => Nat.succ_le_succ
      (hfn n (le_refl n) f .neg _ f' hf hn (eq_of_checkTy hf') ρ)
  | @tlet _ a t e v _ ht he =>
    obtain ⟨s, hs, r, hr, _, _, h⟩ := bind₃_eq_ok.mp h
    cases h
    refine Shrinks.attrCopy a fun ρ => ?_
    have h₁ := hfn n (le_refl n) t .letTerm _ s ht hn.tlet.1
      (eq_of_checkTy hs) ρ
    have h₂ := hfn.body [v] he hn.tlet.2 hr ρ [0] rfl
    rw [tLetClose, rank, rank]
    exact Nat.succ_le_succ (Nat.add_le_add h₁ h₂)
  | @teps _ a v f hf =>
    obtain ⟨g, hg, _, hprop, h⟩ := bind₂_eq_ok.mp h
    cases h
    obtain ⟨_, rfl⟩ := tProp_eq_ok.mp hprop
    exact Shrinks.attrCopy a fun ρ => Nat.succ_le_succ
      (hfn.body [v] hf hn hg ρ [0] rfl)
  | @tquant _ a q vl trl f htr hf =>
    obtain ⟨g, hg, srl, hsrl, _, hprop, h⟩ := bind₃_eq_ok.mp h
    cases h
    obtain ⟨_, rfl⟩ := tProp_eq_ok.mp hprop
    refine Shrinks.attrCopy a fun ρ => le_trans (rank_tQuantClose_le ρ q _ srl _) ?_
    rw [rank, length_freshLike]
    refine Nat.succ_le_succ (gain_mono fun ds es hds hes hle => ?_)
    have hle := hle.append (hds.trans hes.symm) fun _ => le_refl (List.getD [] _ 0)
    rw [append_nil] at hle
    rw [append_nil] at htr hf
    refine le_trans (Nat.add_le_add (rankTriggers_le ?_) ?_) (rank_body_mono trl f hle)
    · refine forall₂_map_right_iff.mpr ((forall₂_of_mapMem hsrl).imp ?_)
      rintro tl sl ⟨htl, hsl⟩
      refine forall₂_map_right_iff.mpr ((forall₂_of_mapMem hsl).imp ?_)
      rintro t s ⟨ht, hs⟩
      exact hfn.body vl (htr tl htl t ht) (hn.tquant.1 tl htl t ht) hs ρ ds hds
    · exact hfn.body vl hf hn.tquant.2 hg ρ ds hds
  | @tcase _ a t ty bl _ ht hsat hne hp hbl =>
    obtain ⟨s, hs, cl, hcl, u, hu, h⟩ := bind₃_eq_ok.mp h
    cases h
    rw [(tCase_spec hu).1]
    refine Shrinks.attrCopy a fun ρ => ?_
    have h₁ := hfn n (le_refl n) t .caseTerm _ s ht hn.tcase.1
      (eq_of_checkTy hs) ρ
    rw [rank, rank]
    refine Nat.succ_le_succ (Nat.add_le_add h₁ (rankBranches_le ?_))
    refine (forall₂_of_mapMem hcl).imp ?_
    rintro b c ⟨hb, hc⟩
    obtain ⟨r, hr, hc⟩ := bind_eq_ok.mp hc
    cases hc
    have hbody := hbl b hb
    rw [append_nil] at hbody
    rw [tCloseBranch, vars_fresh (hp b hb).1, length_freshLike]
    exact hfn.body _ hbody (hn.tcase.2 b hb) hr ρ _ (length_replicate ..)

end Why3
