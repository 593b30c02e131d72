import Why3.Core.FreeVars
import Why3.Core.Occurs
import Why3.Logic.Eval

/-!
# Interpretations that agree on some symbols

The meaning of a term depends on the symbols that occur in it and on its free variables only.
-/

namespace Why3

open Term List

variable {D : Type}

/-- The interpretations have the same values, and agree on the symbols in `L`. -/
structure Interp.AgreeOn (L : LSymbol → Prop) (I I' : Interp D) : Prop where
  carrier : I'.carrier = I.carrier
  fn : ∀ ls, L ls → I'.fn ls = I.fn ls
  pr : ∀ ls, L ls → I'.pr ls = I.pr ls
  lit : I'.lit = I.lit
  eps : I'.eps = I.eps
  dflt : I'.dflt = I.dflt

namespace Interp

variable {L : LSymbol → Prop} {I I' : Interp D} {τ : TyVal} {ρ : VSymbol → D}

theorem AgreeOn.refl (L : LSymbol → Prop) (I : Interp D) : AgreeOn L I I :=
  ⟨rfl, fun _ _ => rfl, fun _ _ => rfl, rfl, rfl, rfl⟩

theorem AgreeOn.typed (h : AgreeOn L I I') (tyl : List Ty) (ds : List D) :
    I'.Typed τ tyl ds ↔ I.Typed τ tyl ds := by
  rw [Typed, Typed, h.carrier]

theorem AgreeOn.values (h : AgreeOn L I I') (β : List (VSymbol × D)) (vl : List VSymbol) :
    I'.values τ β vl = I.values τ β vl := by
  rw [Interp.values, Interp.values, h.eps]

mutual

theorem AgreeOn.matchPat (h : AgreeOn L I I') : ∀ (p : Pattern) (d : D),
    (∀ ls, Sym.ls ls ∈ symsPattern p → I'.fn ls = I.fn ls) →
      I'.matchPat τ p d = I.matchPat τ p d
  | .pwild _, d, _ => rfl
  | .pvar v, d, _ => rfl
  | .papp fs pl ty, d, hp => by
    simp only [Interp.matchPat]
    refine dite_choose_congr (funext fun ds => ?_) (funext fun ds => ?_)
    · rw [h.typed, hp fs (by simp [symsPattern])]
    · exact AgreeOn.matchPatList h pl ds fun ls hls => hp ls (by simp [symsPattern, hls])
  | .por p q, d, hp => by
    simp only [Interp.matchPat]
    rw [AgreeOn.matchPat h p d fun ls hls => hp ls (by simp [symsPattern, hls]),
      AgreeOn.matchPat h q d fun ls hls => hp ls (by simp [symsPattern, hls])]
  | .pas p v, d, hp => by
    simp only [Interp.matchPat]
    rw [AgreeOn.matchPat h p d fun ls hls => hp ls (by simp [symsPattern, hls])]

theorem AgreeOn.matchPatList (h : AgreeOn L I I') : ∀ (pl : List Pattern) (ds : List D),
    (∀ ls, Sym.ls ls ∈ symsPatternList pl → I'.fn ls = I.fn ls) →
      I'.matchPatList τ pl ds = I.matchPatList τ pl ds
  | [], [], _ => rfl
  | [], _ :: _, _ => rfl
  | _ :: _, [], _ => rfl
  | p :: pl, d :: ds, hp => by
    simp only [Interp.matchPatList]
    rw [AgreeOn.matchPat h p d fun ls hls => hp ls (by simp [symsPatternList, hls]),
      AgreeOn.matchPatList h pl ds fun ls hls => hp ls (by simp [symsPatternList, hls])]

end

section

variable (h : AgreeOn L I I') (t : Term) (b : List D) (ht : ∀ ls, Sym.ls ls ∈ symsTerm t → L ls)
include h t b ht

/-- The meaning of a term depends on its symbols and on its free variables. -/
theorem AgreeOn.eval_congr {ρ' : VSymbol → D} (hρ : ∀ v ∈ t.freeVars, ρ v = ρ' v) :
    I'.eval τ ρ b t = I.eval τ ρ' b t := by
  induction t using inductionOn generalizing b with
  | tvar a v => rw [eval_tvar, eval_tvar, hρ v (mem_singleton_self v)]
  | tbnd a i ty => rw [eval_tbnd, eval_tbnd, h.dflt]
  | tconst a c ty => rw [eval_tconst, eval_tconst, h.lit]
  | tapp a ls tl ty ih =>
    simp only [symsTerm, mem_append, mem_cons, mem_symsTermList] at ht
    have hls : L ls := ht ls (.inr (.inl rfl))
    have htl : (tl.map fun t => (I'.eval τ ρ b t).1) = tl.map fun t => (I.eval τ ρ' b t).1 :=
      map_congr_left fun t hmem => congrArg Prod.fst (ih t hmem b
        (fun s hs => ht s (.inr (.inr ⟨t, hmem, hs⟩)))
        fun v hv => hρ v (mem_freeVarsList.mpr ⟨t, hmem, hv⟩))
    cases ty with
    | none => rw [eval_tapp_none, eval_tapp_none, h.dflt, h.pr ls hls, htl]
    | some ty => rw [eval_tapp_some, eval_tapp_some, h.fn ls hls, htl]
  | tif a f t e ihf iht ihe =>
    simp only [symsTerm, freeVars, mem_append, or_imp, forall_and] at ht hρ
    rw [eval_tif, eval_tif, ihf b ht.1.1 hρ.1.1, iht b ht.1.2 hρ.1.2, ihe b ht.2 hρ.2]
  | tlet a t v e iht ihe =>
    simp only [symsTerm, freeVars, mem_append, or_imp, forall_and] at ht hρ
    rw [eval_tlet, eval_tlet, iht b ht.1 hρ.1, ihe _ ht.2 hρ.2]
  | tcase a t bl iht ihb =>
    simp only [symsTerm, freeVars, mem_append, or_imp, forall_and] at ht hρ
    rw [eval_tcase, eval_tcase, iht b ht.1 hρ.1]
    refine evalBranches_rel (R := Eq) (by rw [h.dflt]) (forall₂_same.mpr ?_)
    rintro ⟨p, u⟩ hb
    simp only [mem_symsTermBranches, freeVarsBranches_eq, mem_flatMap] at ht hρ
    have hp := h.matchPat (τ := τ) p (I.eval τ ρ' b t).1 fun ls hls =>
      h.fn ls (ht.2 ls ⟨_, hb, .inl hls⟩)
    rw [hp, h.values, ihb p u hb _ (fun ls hls => ht.2 ls ⟨_, hb, .inr hls⟩)
      fun v hv => hρ.2 v ⟨_, hb, hv⟩]
    exact ⟨rfl, rfl⟩
  | teps a v f ih =>
    have hf := fun d => ih (d :: b) (fun ls hls => ht ls (by simp [symsTerm, hls])) hρ
    simp only [eval_teps, hf, h.eps]
  | tquant a q vl trl f _ ih =>
    simp only [symsTerm, freeVars, mem_append, or_imp, forall_and] at ht hρ
    have hf := fun ds => ih (ds ++ b) ht.2 hρ.2
    cases q with
    | tforall => simp only [eval_forall, hf, h.typed, h.dflt]
    | texists => simp only [eval_exists, hf, h.typed, h.dflt]
  | tbinop a op f g ihf ihg =>
    simp only [symsTerm, freeVars, mem_append, or_imp, forall_and] at ht hρ
    cases op <;> simp [ihf b ht.1 hρ.1, ihg b ht.2 hρ.2, h.dflt]
  | tnot a f ih => rw [eval_tnot, eval_tnot, ih b ht hρ, h.dflt]
  | ttrue a => rw [eval_ttrue, eval_ttrue, h.dflt]
  | tfalse a => rw [eval_tfalse, eval_tfalse, h.dflt]

theorem AgreeOn.eval : I'.eval τ ρ b t = I.eval τ ρ b t :=
  h.eval_congr t b ht fun _ _ => rfl

end

theorem eval_congr {ρ ρ' : VSymbol → D} (t : Term) (b : List D)
    (h : ∀ v ∈ t.freeVars, ρ v = ρ' v) : I.eval τ ρ b t = I.eval τ ρ' b t :=
  (AgreeOn.refl (fun _ => True) I).eval_congr t b (fun _ _ => trivial) h

end Interp

end Why3
