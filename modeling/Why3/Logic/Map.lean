import Why3.Core.Map
import Why3.Logic.Valid

/-!
# Rewriting of terms

A term is rewritten to another one of the same type and the same meaning, without new free
variables. Rewriting the parts of a term rewrites the term, binders being opened with new
variables.
-/

namespace Why3

open Lib Term Interp List

/-- Under which condition on the values of the variables terms are rewritten, and the
variables that may be added. -/
structure RewriteCtx (D : Type) where
  cond : TyVal → (VSymbol → D) → Prop
  vars : VSymbol → Prop

variable {S : DataSig} {D : Type} {I : Interp D} {Φ : RewriteCtx D} {τ : TyVal} {ρ : VSymbol → D}
  {a a' : List Attr} {n : ℕ} {o : Option Ty} {ty : Ty} {u v : VSymbol} {ul vl : List VSymbol}
  {q : Quant} {e f g r s t t1 t2 : Term} {trl : List (List Term)} {bl cl : List (Pattern × Term)}

namespace RewriteCtx

def free : RewriteCtx D := ⟨fun _ _ => True, fun _ => False⟩

/-- The condition does not depend on variables that are numbered from `n` on. -/
def Stable (Φ : RewriteCtx D) (n : ℕ) : Prop :=
  ∀ τ ρ ρ', (∀ v : VSymbol, v.vsName.idTag < n → ρ v = ρ' v) → Φ.cond τ ρ → Φ.cond τ ρ'

theorem stable_free (n : ℕ) : (free : RewriteCtx D).Stable n := fun _ _ _ _ h => h

def Admits (Φ : RewriteCtx D) (I : Interp D) (τ : TyVal) (ρ : VSymbol → D) : Prop :=
  I.TypedVal τ ρ ∧ Φ.cond τ ρ

end RewriteCtx

theorem WellTyped.eval_fst {Γ : List Ty} (h : WellTyped S Γ f none) (b : List D) :
    (I.eval τ ρ b f).1 = I.dflt := by
  suffices ∀ {o}, WellTyped S Γ f o → o = none → ∀ b, (I.eval τ ρ b f).1 = I.dflt from this h rfl b
  clear h b
  intro o h
  induction h with
  | tapp a _ _ _ _ _ _ =>
    rintro rfl b
    rfl
  | tif a _ _ _ _ iht ihe =>
    intro ho b
    rw [eval_tif]
    split
    · exact iht ho b
    · exact ihe ho b
  | tlet a _ _ _ ihe => exact fun ho b => ihe ho _
  | tcase a _ _ hne _ _ _ ihbl =>
    intro ho b
    obtain ⟨c, hc, β, -, heq⟩ := evalBranches_cases hne
    rw [eval_tcase, heq]
    exact ihbl c hc ho _
  | tquant a q _ _ _ _ =>
    intro _ b
    cases q <;> rfl
  | tbinop a op _ _ _ _ =>
    intro _ b
    cases op <;> rfl
  | tnot | ttrue | tfalse => exact fun _ _ => rfl
  | tvar | tbnd | tconst | teps =>
    intro ho
    cases ho

def Term.VarsBelow (n : ℕ) (t : Term) : Prop := ∀ v ∈ t.freeVars, v.vsName.idTag < n

/-- The second term has the meaning of the first one, under all values for the variables that
meet the condition. -/
structure Rewrites (S : DataSig) (I : Interp D) (Φ : RewriteCtx D) (o : Option Ty) (t t' : Term) :
    Prop where
  typed : WellTyped S [] t' o
  vars : ∀ {v}, v ∈ t'.freeVars → v ∈ t.freeVars ∨ Φ.vars v
  eval : ∀ {τ ρ}, Φ.Admits I τ ρ → I.eval τ ρ [] t' = I.eval τ ρ [] t

namespace Rewrites

theorem refl (h : WellTyped S [] t o) : Rewrites S I Φ o t t :=
  ⟨h, .inl, fun _ => rfl⟩

theorem trans (h : Rewrites S I Φ o t s) (h' : Rewrites S I Φ o s r) : Rewrites S I Φ o t r :=
  ⟨h'.typed, fun hv => (h'.vars hv).elim (fun hv => h.vars hv) .inr,
    fun hρ => (h'.eval hρ).trans (h.eval hρ)⟩

theorem attrCopy (a : List Attr) (h : Rewrites S I Φ o t s) : Rewrites S I Φ o t (s.attrCopy a) :=
  ⟨h.typed.attrCopy a, by rw [freeVars_attrCopy]; exact h.vars, fun hρ => by
    rw [eval_attrCopy, h.eval hρ]⟩

end Rewrites

/-! ## Bodies of binders -/

/-- The body is opened with new variables, that the condition does not depend on. -/
structure Opens (Φ : RewriteCtx D) (ul : List VSymbol) (e : Term) : Prop where
  nodup : ul.Nodup
  new : ∀ u ∈ ul, u ∉ e.freeVars
  stable : ∀ {τ ρ} (ds : List D), Φ.cond τ ρ → Φ.cond τ (assign ρ (ul.zip ds))

theorem Opens.of_le (hΦ : Φ.Stable n) (he : e.VarsBelow n) (hul : ul.Nodup)
    (hge : ∀ u ∈ ul, n ≤ u.vsName.idTag) : Opens Φ ul e := by
  refine ⟨hul, fun u hu hmem => absurd (he u hmem) (Nat.not_lt.mpr (hge u hu)), fun ds hc => ?_⟩
  refine hΦ _ _ _ (fun v hv => (assign_of_not_mem fun hmem => ?_).symm) hc
  exact absurd hv (Nat.not_lt.mpr (hge v (map_fst_zip_subset _ _ hmem)))

theorem Opens.eval_open (hopen : Opens Φ ul e) {ds : List D}
    (hds : I.Typed τ (ul.map VSymbol.vsTy) ds) :
    I.eval τ (assign ρ (ul.zip ds)) [] (openVars ul e) = I.eval τ ρ ds e := by
  rw [eval_openVars, append_nil, map_assign_zip hopen.nodup (typed_length hds)]
  refine eval_congr e ds fun v hv => assign_of_not_mem fun hmem => ?_
  exact hopen.new v (map_fst_zip_subset _ _ hmem) hv

theorem eval_close {ds : List D} (hds : I.Typed τ (ul.map VSymbol.vsTy) ds) :
    I.eval τ ρ ds (closeVars ul s) = I.eval τ (assign ρ (ul.zip ds)) [] s := by
  rw [← eval_closeVars (typed_length hds), append_nil]

theorem Opens.admits (hopen : Opens Φ ul e) (hρ : Φ.Admits I τ ρ) {ds : List D}
    (hds : I.Typed τ (ul.map VSymbol.vsTy) ds) : Φ.Admits I τ (assign ρ (ul.zip ds)) :=
  ⟨hρ.1.assign_zip hds, hopen.stable ds hρ.2⟩

section

variable (h : Rewrites S I Φ o (openVars ul e) s)
include h

theorem Rewrites.eval_body (hopen : Opens Φ ul e) (hρ : Φ.Admits I τ ρ) {ds : List D}
    (hds : I.Typed τ (ul.map VSymbol.vsTy) ds) :
    I.eval τ ρ ds (closeVars ul s) = I.eval τ ρ ds e := by
  rw [eval_close hds, h.eval (hopen.admits hρ hds), hopen.eval_open hds]

theorem Rewrites.vars_body (hv : v ∈ (closeVars ul s).freeVars) : v ∈ e.freeVars ∨ Φ.vars v := by
  obtain ⟨hv, hnot⟩ := mem_freeVars_closeVars.mp hv
  exact (h.vars hv).imp_left fun hv => (mem_freeVars_openVars hv).resolve_right hnot

theorem Rewrites.typed_body : WellTyped S (ul.map VSymbol.vsTy) (closeVars ul s) o := by
  have := h.typed.closeVars ul
  rwa [append_nil] at this

end

/-! ## Parts -/

namespace Rewrites

theorem tapp {ls : LSymbol} {tl sl : List Term} (ht : WellTyped S [] (.tapp a ls tl o) o)
    (h : Forall₂ (fun t s => Rewrites S I Φ t.tTy t s) tl sl) :
    Rewrites S I Φ o (.tapp a ls tl o) (.tapp a' ls sl o) := by
  cases ht with
  | tapp _ σ hls ho hlen htl =>
    have hget := forall₂_iff_get.mp h
    refine ⟨.tapp a' σ hls ho (h.length_eq.symm.trans hlen) ?_, ?_, ?_⟩
    · intro i s ty hs hty
      obtain ⟨hi, rfl⟩ := List.getElem?_eq_some_iff.mp hs
      have hi' : i < tl.length := h.length_eq ▸ hi
      have hti := htl i tl[i] ty (getElem?_eq_getElem hi') hty
      have hrw := (hget.2 i hi' hi).typed
      simp only [get_eq_getElem] at hrw
      rwa [hti.tTy_eq] at hrw
    · intro v hv
      obtain ⟨s, hs, hv⟩ := mem_freeVarsList.mp hv
      obtain ⟨t, ht, hts⟩ := forall₂_mem_right h hs
      exact (hts.vars hv).imp_left fun hv => mem_freeVarsList.mpr ⟨t, ht, hv⟩
    · intro τ ρ hρ
      have hargs : (sl.map fun t => (I.eval τ ρ [] t).1) = tl.map fun t => (I.eval τ ρ [] t).1 := by
        clear hget hlen htl
        induction h with
        | nil => rfl
        | cons hts _ ih => rw [map_cons, map_cons, hts.eval hρ, ih]
      cases o with
      | none => rw [eval_tapp_none, eval_tapp_none, hargs]
      | some ty => rw [eval_tapp_some, eval_tapp_some, hargs]

theorem tif (hf : Rewrites S I Φ none f g) (ht : Rewrites S I Φ o t s)
    (he : Rewrites S I Φ o e r) : Rewrites S I Φ o (.tif a f t e) (.tif a' g s r) := by
  refine ⟨.tif a' hf.typed ht.typed he.typed, ?_, ?_⟩
  · intro v hv
    simp only [freeVars, mem_append] at hv ⊢
    rcases hv with (hv | hv) | hv
    · exact (hf.vars hv).imp_left fun hv => .inl (.inl hv)
    · exact (ht.vars hv).imp_left fun hv => .inl (.inr hv)
    · exact (he.vars hv).imp_left .inr
  · intro τ ρ hρ
    rw [eval_tif, eval_tif, hf.eval hρ, ht.eval hρ, he.eval hρ]

theorem tbinop {op : Binop} {f' g' : Term} (hf : Rewrites S I Φ none f f')
    (hg : Rewrites S I Φ none g g') :
    Rewrites S I Φ none (.tbinop a op f g) (.tbinop a' op f' g') := by
  refine ⟨.tbinop a' op hf.typed hg.typed, ?_, ?_⟩
  · intro v hv
    simp only [freeVars, mem_append] at hv ⊢
    rcases hv with hv | hv
    · exact (hf.vars hv).imp_left .inl
    · exact (hg.vars hv).imp_left .inr
  · intro τ ρ hρ
    cases op <;> simp only [eval_tand, eval_tor, eval_timplies, eval_tiff, hf.eval hρ, hg.eval hρ]

theorem tnot (hf : Rewrites S I Φ none f g) : Rewrites S I Φ none (.tnot a f) (.tnot a' g) := by
  refine ⟨.tnot a' hf.typed, hf.vars, ?_⟩
  intro τ ρ hρ
  rw [eval_tnot, eval_tnot, hf.eval hρ]

theorem tlet (hI : I.Sound) (huv : u.vsTy = v.vsTy) (hopen : Opens Φ [u] e)
    (ht : Rewrites S I Φ (some v.vsTy) t s) (he : Rewrites S I Φ o (openVars [u] e) r) :
    Rewrites S I Φ o (.tlet a t v e) (.tlet a' s u (closeVars [u] r)) := by
  refine ⟨.tlet a' (huv ▸ ht.typed) he.typed_body, ?_, ?_⟩
  · intro w hw
    simp only [freeVars, mem_append] at hw ⊢
    rcases hw with hw | hw
    · exact (ht.vars hw).imp_left .inl
    · exact (he.vars_body hw).imp_left .inr
  · intro τ ρ hρ
    have hmem := (ht.typed.eval_mem hI hρ.1 .nil _ rfl).1
    rw [eval_tlet, eval_tlet, ← ht.eval hρ]
    exact he.eval_body hopen hρ (.cons (huv ▸ hmem) .nil)

theorem teps (hI : I.Sound) (huv : u.vsTy = v.vsTy) (hopen : Opens Φ [u] f)
    (hf : Rewrites S I Φ none (openVars [u] f) g) :
    Rewrites S I Φ (some v.vsTy) (.teps a v f) (.teps a' u (closeVars [u] g)) := by
  refine ⟨huv ▸ .teps a' hf.typed_body, hf.vars_body, ?_⟩
  intro τ ρ hρ
  rw [eval_teps, eval_teps, huv]
  congr 1
  refine hI.eps_congr fun d hd => ?_
  have hd' : I.Typed τ ([u].map VSymbol.vsTy) [d] := .cons (huv ▸ hd) .nil
  have hbody := hf.eval_body hopen hρ hd'
  rw [Set.mem_ofPred_eq, Set.mem_ofPred_eq, hbody]

theorem tquant {srl : List (List Term)} (htys : ul.map VSymbol.vsTy = vl.map VSymbol.vsTy)
    (hopen : Opens Φ ul f)
    (htrl : Forall₂ (Forall₂ fun t s => Rewrites S I Φ t.tTy (openVars ul t) s) trl srl)
    (hf : Rewrites S I Φ none (openVars ul f) g) : Rewrites S I Φ none (.tquant a q vl trl f)
      (.tquant a' q ul (srl.map fun sl => sl.map (closeVars ul)) (closeVars ul g)) := by
  have htr : ∀ sl ∈ srl, ∀ s ∈ sl, ∃ tl ∈ trl, ∃ t ∈ tl,
      Rewrites S I Φ t.tTy (openVars ul t) s := by
    intro sl hsl s hs
    obtain ⟨tl, htl, hts⟩ := forall₂_mem_right htrl hsl
    obtain ⟨t, ht, hts⟩ := forall₂_mem_right hts hs
    exact ⟨tl, htl, t, ht, hts⟩
  refine ⟨.tquant a' q ?_ ?_, ?_, ?_⟩
  · rw [forall_mem_map]
    intro sl hsl
    rw [forall_mem_map]
    intro s hs
    obtain ⟨tl, htl, t, ht, hts⟩ := htr sl hsl s hs
    have hs := hts.typed_body
    rw [append_nil]
    rwa [hs.tTy_eq]
  · rw [append_nil]
    exact hf.typed_body
  · intro v hv
    rw [freeVars, mem_append] at hv ⊢
    rcases hv with hv | hv
    · obtain ⟨sl', hsl', s', hs', hv⟩ := mem_freeVarsTriggers.mp hv
      obtain ⟨sl, hsl, rfl⟩ := mem_map.mp hsl'
      obtain ⟨s, hs, rfl⟩ := mem_map.mp hs'
      obtain ⟨tl, htl, t, ht, hts⟩ := htr sl hsl s hs
      exact (hts.vars_body hv).imp_left fun hv =>
        .inl (mem_freeVarsTriggers.mpr ⟨tl, htl, t, ht, hv⟩)
    · exact (hf.vars_body hv).imp_left .inr
  · intro τ ρ hρ
    have hbody : ∀ ds, I.Typed τ (vl.map VSymbol.vsTy) ds →
        I.eval τ ρ (ds ++ []) (closeVars ul g) = I.eval τ ρ (ds ++ []) f := by
      intro ds hds
      rw [append_nil]
      exact hf.eval_body hopen hρ (htys ▸ hds)
    cases q with
    | tforall =>
      rw [eval_forall, eval_forall, htys]
      congr 1
      exact propext (forall₂_congr fun ds hds => by rw [hbody ds hds])
    | texists =>
      rw [eval_exists, eval_exists, htys]
      congr 1
      exact propext (exists_congr fun ds => and_congr_right fun hds => by rw [hbody ds hds])

theorem tQuantClose {srl : List (List Term)} (htys : ul.map VSymbol.vsTy = vl.map VSymbol.vsTy)
    (hopen : Opens Φ ul f)
    (htrl : Forall₂ (Forall₂ fun t s => Rewrites S I Φ t.tTy (openVars ul t) s) trl srl)
    (hf : Rewrites S I Φ none (openVars ul f) g) :
    Rewrites S I Φ none (.tquant a q vl trl f) (Term.tQuantClose q ul srl g) := by
  unfold Term.tQuantClose
  split
  · next hnil =>
      obtain rfl := List.isEmpty_iff.mp hnil
      obtain rfl : vl = [] := map_eq_nil_iff.mp htys.symm
      refine ⟨hf.typed, ?_, ?_⟩
      · intro v hv
        rw [freeVars, mem_append]
        exact (hf.vars hv).imp_left fun hv =>
          .inr ((mem_freeVars_openVars hv).resolve_right not_mem_nil)
      · intro τ ρ hρ
        refine Prod.ext ?_ (propext ?_)
        · rw [hf.typed.eval_fst]
          cases q <;> rfl
        · rw [hf.eval hρ, eval_openVars]
          cases q with
          | tforall =>
            rw [eval_forall]
            exact ⟨fun h ds hds => by cases hds; exact h, fun h => h [] .nil⟩
          | texists =>
            rw [eval_exists]
            exact ⟨fun h => ⟨[], .nil, h⟩, by rintro ⟨_, ⟨⟩, h⟩; exact h⟩
  · exact tquant htys hopen htrl hf

end Rewrites

/-! ## Branches -/

/-- A pattern with new variables matches the same values, with the same values for its
variables. -/
theorem matchPat_fresh_values {p : Pattern} (hp : PatTyped S p) (n : ℕ) (d : D) :
    (I.matchPat τ (p.fresh n) d).map (fun β => I.values τ β (p.fresh n).vars) =
      (I.matchPat τ p d).map fun β => I.values τ β p.vars := by
  cases hm : I.matchPat τ p d with
  | none =>
    have hfresh := matchPat_rename (I := I) (τ := τ) (Pattern.vsTy_freshVar n p.vars) p d
    rw [hm] at hfresh
    rw [Pattern.fresh, hfresh]
    rfl
  | some β =>
    obtain ⟨β', hβ', hval⟩ := matchPat_fresh (n := n) hp hm
      fun v => I.eps (v.vsTy.vMap τ) Set.univ
    rw [hβ', Option.map_some, Option.map_some, vars_fresh hp, ← hval]
    rfl

theorem values_nil_fresh {p : Pattern} (hp : PatTyped S p) (n : ℕ) :
    I.values τ [] (p.fresh n).vars = I.values τ [] p.vars := by
  refine values_nil_of_map_eq ?_
  rw [vars_fresh hp, map_vsTy_freshLike]

structure RewritesBranch (S : DataSig) (I : Interp D) (Φ : RewriteCtx D) (ty : Ty) (o : Option Ty)
    (n : ℕ) (b c : Pattern × Term) : Prop where
  pattern : PatTyped S b.1
  patTy : b.1.patTy = ty
  opens : Opens Φ (freshLike n b.1.vars) b.2
  body : ∃ s, c = tCloseBranch (b.1.fresh n) s ∧
    Rewrites S I Φ o (openVars (freshLike n b.1.vars) b.2) s

namespace RewritesBranch

variable {b c : Pattern × Term}

theorem typed (h : RewritesBranch S I Φ ty o n b c) : (PatTyped S c.1 ∧ c.1.patTy = ty) ∧
    WellTyped S (c.1.vars.map VSymbol.vsTy) c.2 o := by
  obtain ⟨s, rfl, hs⟩ := h.body
  rw [tCloseBranch]
  refine ⟨⟨h.pattern.fresh, patTy_fresh.trans h.patTy⟩, ?_⟩
  rw [vars_fresh h.pattern]
  exact hs.typed_body

theorem vars (h : RewritesBranch S I Φ ty o n b c) (hv : v ∈ c.2.freeVars) :
    v ∈ b.2.freeVars ∨ Φ.vars v := by
  obtain ⟨s, rfl, hs⟩ := h.body
  rw [tCloseBranch, vars_fresh h.pattern] at hv
  exact hs.vars_body hv

theorem eval_body (h : RewritesBranch S I Φ ty o n b c) (hρ : Φ.Admits I τ ρ) {ds : List D}
    (hds : I.Typed τ (b.1.vars.map VSymbol.vsTy) ds) : I.eval τ ρ ds c.2 = I.eval τ ρ ds b.2 := by
  obtain ⟨s, rfl, hs⟩ := h.body
  rw [tCloseBranch, vars_fresh h.pattern]
  exact hs.eval_body h.opens hρ (by rwa [map_vsTy_freshLike])

end RewritesBranch

/-- Branches are compared by their bodies, under the same values for the variables. -/
theorem evalBranches_fresh (hI : I.Sound) {R : D × Prop → D × Prop → Prop} (hR : ∀ x, R x x) {d : D}
    (hd : d ∈ I.carrier (ty.vMap τ))
    (h : Forall₂ (fun b c => (PatTyped S b.1 ∧ b.1.patTy = ty) ∧ c.1 = b.1.fresh n ∧
      ∀ ds, I.Typed τ (b.1.vars.map VSymbol.vsTy) ds →
        R (I.eval τ ρ ds c.2) (I.eval τ ρ ds b.2)) bl cl) :
    R (I.evalBranches τ ρ [] d cl) (I.evalBranches τ ρ [] d bl) := by
  refine evalBranches_rel (hR _) (Forall₂.flip (h.imp fun b c hbc => ?_))
  obtain ⟨⟨hp, hty⟩, hc, hbody⟩ := hbc
  have hmatch := matchPat_fresh_values (I := I) (τ := τ) hp n d
  rw [flip, hc, append_nil, append_nil]
  cases hβ : I.matchPat τ b.1 d <;> cases hβ' : I.matchPat τ (b.1.fresh n) d <;>
    simp only [hβ, hβ', Option.map_some, Option.map_none, reduceCtorEq, Option.some.injEq] at hmatch
  · rw [Option.getD_none, values_nil_fresh hp]
    exact ⟨rfl, hbody _ (typed_values hI (by simp) _)⟩
  · rw [Option.getD_some, Option.getD_some, hmatch]
    exact ⟨rfl, hbody _ (typed_values hI (matchPat_typed hp hβ (by rwa [hty])) _)⟩

theorem eval_branches (hI : I.Sound) {d : D} (hρ : Φ.Admits I τ ρ) (hd : d ∈ I.carrier (ty.vMap τ))
    (h : Forall₂ (RewritesBranch S I Φ ty o n) bl cl) :
    I.evalBranches τ ρ [] d cl = I.evalBranches τ ρ [] d bl := by
  refine evalBranches_fresh (S := S) (n := n) hI (fun _ => rfl) hd (h.imp fun b c hbc => ?_)
  refine ⟨⟨hbc.pattern, hbc.patTy⟩, ?_, fun ds hds => hbc.eval_body hρ hds⟩
  obtain ⟨s, rfl, _⟩ := hbc.body
  rfl

theorem mem_freeVarsBranches : v ∈ freeVarsBranches bl ↔ ∃ b ∈ bl, v ∈ b.2.freeVars := by
  induction bl with
  | nil => simp [freeVarsBranches]
  | cons b bl ih => simp [freeVarsBranches, ih]

theorem Rewrites.tcase (hI : I.Sound) (hsat : ty.saturated = true) (hne : bl ≠ [])
    (ht : Rewrites S I Φ (some ty) t s) (hbl : Forall₂ (RewritesBranch S I Φ ty o n) bl cl) :
    Rewrites S I Φ o (.tcase a t bl) (.tcase a' s cl) := by
  have hcl : ∀ c ∈ cl, (PatTyped S c.1 ∧ c.1.patTy = ty) ∧
      WellTyped S (c.1.vars.map VSymbol.vsTy) c.2 o := by
    intro c hc
    obtain ⟨b, _, hbc⟩ := forall₂_mem_right hbl hc
    exact hbc.typed
  refine ⟨.tcase a' ht.typed hsat ?_ (fun c hc => (hcl c hc).1) fun c hc => ?_, ?_, ?_⟩
  · rintro rfl
    cases hbl
    exact hne rfl
  · rw [append_nil]
    exact (hcl c hc).2
  · intro v hv
    rw [freeVars, mem_append] at hv ⊢
    rcases hv with hv | hv
    · exact (ht.vars hv).imp_left .inl
    · obtain ⟨c, hc, hv⟩ := mem_freeVarsBranches.mp hv
      obtain ⟨b, hb, hbc⟩ := forall₂_mem_right hbl hc
      exact (hbc.vars hv).imp_left fun hv => .inr (mem_freeVarsBranches.mpr ⟨b, hb, hv⟩)
  · intro τ ρ hρ
    have hmem := (ht.typed.eval_mem hI hρ.1 .nil _ rfl).1
    rw [eval_tcase, eval_tcase, ← ht.eval hρ]
    exact eval_branches hI hρ hmem hbl

/-! ## Maps over the parts -/

theorem tTyCheck_self (t : Term) : tTyCheck t t.tTy = .ok () := by
  unfold tTyCheck
  cases t.tTy <;> simp

theorem WellTyped.self {Γ : List Ty} (h : WellTyped S Γ t o) : WellTyped S Γ t t.tTy := by
  rwa [h.tTy_eq]

theorem checkTy_ok {x : Except Exn Term} (hx : x = .ok s) (hty : s.tTy = t.tTy) :
    checkTy t x = .ok s := by
  rw [checkTy, hx]
  refine bind₂_eq_ok.mpr ⟨s, rfl, (), ?_, rfl⟩
  rw [← hty]
  exact tTyCheck_self s

theorem tCase_ok (h : WellTyped S [] (.tcase [] t bl) o) : tCase t bl = .ok (.tcase [] t bl) := by
  cases h with
  | @tcase _ _ _ ty _ _ ht _ hne hp hbl =>
    refine bind_eq_ok.mpr ⟨ty, tType_eq_ok.mpr ht.tTy_eq, ?_⟩
    cases bl with
    | nil => exact absurd rfl hne
    | cons b bl =>
      refine bind_eq_ok.mpr ⟨(), forM_eq_ok.mpr fun c hc => ?_, rfl⟩
      have hty : c.2.tTy = b.2.tTy :=
        (hbl c hc).tTy_eq.trans (hbl b mem_cons_self).tTy_eq.symm
      rw [if_pos (hp c hc).2.symm, ← hty]
      exact tTyCheck_self c.2

section

variable {Γ : List Ty} (hf : WellTyped S Γ f none)
include hf

theorem tProp_of_wellTyped : tProp f = .ok f :=
  tProp_eq_ok.mpr ⟨hf.tTy_eq, rfl⟩

theorem tNot_of_wellTyped : tNot f = .ok (tnot [] f) := by
  rw [tNot, tProp_of_wellTyped hf]
  rfl

theorem tBinary_of_wellTyped (hg : WellTyped S Γ g none) (op : Binop) :
    tBinary op f g = .ok (.tbinop [] op f g) := by
  rw [tBinary, tProp_of_wellTyped hf, tProp_of_wellTyped hg]
  rfl

end

theorem vsCheck_ok (h : t.tTy = some v.vsTy) : vsCheck v t = .ok () := by
  refine bind_eq_ok.mpr ⟨v.vsTy, tType_eq_ok.mpr h, ?_⟩
  rw [if_pos rfl]

theorem Term.VarsBelow.mono {n' : ℕ} (h : t.VarsBelow n) (hle : n ≤ n') : t.VarsBelow n' :=
  fun v hv => Nat.lt_of_lt_of_le (h v hv) hle

theorem Term.VarsBelow.openVars (he : e.VarsBelow n) {n' : ℕ} (hle : n ≤ n')
    (hul : ∀ u ∈ ul, u.vsName.idTag < n') : (Term.openVars ul e).VarsBelow n' := by
  intro v hv
  rcases mem_freeVars_openVars hv with hv | hv
  · exact Nat.lt_of_lt_of_le (he v hv) hle
  · exact hul v hv

theorem Term.VarsBelow.tapp (h : VarsBelow n (.tapp a ls tl o)) : ∀ t ∈ tl, t.VarsBelow n :=
  fun t ht v hv => h v (mem_freeVarsList.mpr ⟨t, ht, hv⟩)

theorem Term.VarsBelow.tif (h : VarsBelow n (.tif a f t e)) :
    f.VarsBelow n ∧ t.VarsBelow n ∧ e.VarsBelow n := by
  simpa [VarsBelow, freeVars, or_imp, forall_and] using h

theorem Term.VarsBelow.tbinop {op : Binop} (h : VarsBelow n (.tbinop a op f g)) :
    f.VarsBelow n ∧ g.VarsBelow n := by
  simpa [VarsBelow, freeVars, or_imp, forall_and] using h

theorem Term.VarsBelow.tlet (h : VarsBelow n (.tlet a t v e)) : t.VarsBelow n ∧ e.VarsBelow n := by
  simpa [VarsBelow, freeVars, or_imp, forall_and] using h

theorem Term.VarsBelow.tquant (h : VarsBelow n (.tquant a q vl trl f)) :
    (∀ tl ∈ trl, ∀ t ∈ tl, t.VarsBelow n) ∧ f.VarsBelow n := by
  refine ⟨fun tl htl t ht v hv => h v ?_, fun v hv => h v (mem_append.mpr (.inr hv))⟩
  exact mem_append.mpr (.inl (mem_freeVarsTriggers.mpr ⟨tl, htl, t, ht, hv⟩))

theorem Term.VarsBelow.tcase (h : VarsBelow n (.tcase a t bl)) :
    t.VarsBelow n ∧ ∀ b ∈ bl, b.2.VarsBelow n := by
  refine ⟨fun v hv => h v (mem_append.mpr (.inl hv)), fun b hb v hv => h v ?_⟩
  exact mem_append.mpr (.inr (mem_freeVarsBranches.mpr ⟨b, hb, hv⟩))

theorem opens_boundVar (hΦ : Φ.Stable n) (he : e.VarsBelow n) (v : VSymbol) :
    Opens Φ [boundVar n v] e :=
  .of_le hΦ he (nodup_singleton _) (by simp)

theorem opens_freshLike (hΦ : Φ.Stable n) (he : e.VarsBelow n) (vl : List VSymbol) :
    Opens Φ (freshLike n vl) e :=
  .of_le hΦ he (nodup_freshLike n vl) fun _ hu => (idTag_of_mem_freshLike hu).1

/-- The function rewrites the parts of the term, opened with variables that are numbered
from `n` on. -/
def RewritesParts (S : DataSig) (I : Interp D) (Φ : RewriteCtx D) (n : ℕ) (t : Term)
    (fn : ℕ → (u : Term) → Part u t → Except Exn Term) : Prop :=
  ∀ n' ≥ n, ∀ u (h : Part u t) o, WellTyped S [] u o → u.VarsBelow n' →
    ∃ u', fn n' u h = .ok u' ∧ Rewrites S I Φ o u u'

namespace RewritesParts

theorem check {fn : ℕ → (u : Term) → Part u t → Except Exn Term} (h : RewritesParts S I Φ n t fn)
    (n' : ℕ) (hn' : n ≤ n') (hs : Part s t) (hst : WellTyped S [] s o) (hbelow : s.VarsBelow n') :
    ∃ s', checkTy s (fn n' s hs) = .ok s' ∧ Rewrites S I Φ o s s' := by
  obtain ⟨s', hs', hrw⟩ := h n' hn' s hs o hst hbelow
  exact ⟨s', checkTy_ok hs' (hrw.typed.tTy_eq.trans hst.tTy_eq.symm), hrw⟩

theorem tlet (hI : I.Sound) (hΦ : Φ.Stable n)
    {fn : ℕ → (u : Term) → Part u (.tlet a t v e) → Except Exn Term}
    (h : RewritesParts S I Φ n (.tlet a t v e) fn) (ht : WellTyped S [] t (some v.vsTy))
    (he : WellTyped S [v.vsTy] e o) (hn : VarsBelow n (.tlet a t v e)) :
    ∃ s r, checkTy t (fn n t .letTerm) = .ok s ∧
      checkTy (openVars [boundVar n v] e)
        (fn (n + 1) (openVars [boundVar n v] e) (.letBody (boundVar n v))) = .ok r ∧
      WellTyped S [] s (some v.vsTy) ∧ WellTyped S [] r o ∧
      Rewrites S I Φ o (.tlet a t v e) (tLetClose (boundVar n v) s r) := by
  have he' : e.VarsBelow n := hn.tlet.2
  obtain ⟨s, hs, hts⟩ := h.check n (le_refl n) .letTerm ht hn.tlet.1
  obtain ⟨r, hr, her⟩ := h.check (n + 1) (by omega) (.letBody (boundVar n v))
    (WellTyped.openVars [boundVar n v] he) (.openVars he' (by omega) (by simp))
  exact ⟨s, r, hs, hr, hts.typed, her.typed, .tlet hI rfl (opens_boundVar hΦ he' v) hts her⟩

theorem tquant (hΦ : Φ.Stable n)
    {fn : ℕ → (u : Term) → Part u (.tquant a q vl trl f) → Except Exn Term}
    (h : RewritesParts S I Φ n (.tquant a q vl trl f) fn)
    (ht : WellTyped S [] (.tquant a q vl trl f) none) (hn : VarsBelow n (.tquant a q vl trl f)) :
    ∃ srl g, (mapMem trl fun tl htl => mapMem tl fun t ht =>
        checkTy (openVars (freshLike n vl) t) (fn (n + vl.length) (openVars (freshLike n vl) t)
          (.trigger htl ht (freshLike n vl)))) = .ok srl ∧
      checkTy (openVars (freshLike n vl) f)
        (fn (n + vl.length) (openVars (freshLike n vl) f) (.quant (freshLike n vl))) = .ok g ∧
      (∀ sl ∈ srl, ∀ s ∈ sl, WellTyped S [] s s.tTy) ∧ WellTyped S [] g none ∧
      Rewrites S I Φ none (.tquant a q vl trl f) (tQuantClose q (freshLike n vl) srl g) := by
  cases ht with
  | tquant _ _ htr hf =>
    have htys := map_vsTy_freshLike n vl
    have hf' : f.VarsBelow n := hn.tquant.2
    have hul : ∀ u ∈ freshLike n vl, u.vsName.idTag < n + vl.length :=
      fun u hu => (idTag_of_mem_freshLike hu).2
    rw [← htys] at hf htr
    obtain ⟨g, hg, hfg⟩ := h.check (n + vl.length) (by omega) (.quant (freshLike n vl))
      (WellTyped.openVars _ hf) (.openVars hf' (by omega) hul)
    obtain ⟨srl, hsrl, htrl⟩ := mapMem_ok
      (P := Forall₂ fun t s => Rewrites S I Φ t.tTy (openVars (freshLike n vl) t) s)
      fun tl htl => mapMem_ok fun t ht =>
        h.check (n + vl.length) (by omega) (.trigger htl ht (freshLike n vl))
          (WellTyped.openVars _ (htr tl htl t ht))
          (.openVars (hn.tquant.1 tl htl t ht) (by omega) hul)
    refine ⟨srl, g, hsrl, hg, fun sl hsl s hs => ?_, hfg.typed, .tQuantClose htys
      (opens_freshLike hΦ hf' vl) htrl hfg⟩
    obtain ⟨tl, _, hts⟩ := forall₂_mem_right htrl hsl
    obtain ⟨t, _, hts⟩ := forall₂_mem_right hts hs
    exact hts.typed.self

end RewritesParts

theorem tMap_spec (hI : I.Sound) (hΦ : Φ.Stable n)
    {fn : ℕ → (u : Term) → Part u t → Except Exn Term} (ht : WellTyped S [] t o)
    (hn : t.VarsBelow n) (hfn : RewritesParts S I Φ n t fn) :
    ∃ t', tMap n t fn = .ok t' ∧ Rewrites S I Φ o t t' := by
  have htyped := ht
  cases ht with
  | tvar a v => exact ⟨_, rfl, .refl (.tvar a v)⟩
  | tbnd a hi => simp at hi
  | tconst a c ty => exact ⟨_, rfl, .refl (.tconst a c ty)⟩
  | ttrue a => exact ⟨_, rfl, .refl (.ttrue a)⟩
  | tfalse a => exact ⟨_, rfl, .refl (.tfalse a)⟩
  | @tapp _ a ls tl _ σ hls ho hlen htl =>
    obtain ⟨sl, hsl, hall⟩ := mapMem_ok (P := fun t s => Rewrites S I Φ t.tTy t s)
      fun u h => hfn.check n (le_refl n) (.app h) (htyped.args u h).choose_spec.self
        (hn.tapp u h)
    exact ⟨_, bind_eq_ok.mpr ⟨sl, hsl, rfl⟩, (Rewrites.tapp htyped hall).attrCopy a⟩
  | @tif _ a f t e _ hf ht he =>
    obtain ⟨g, hg, hfg⟩ := hfn.check n (le_refl n) .ifCond hf hn.tif.1
    obtain ⟨s, hs, hts⟩ := hfn.check n (le_refl n) .ifThen ht hn.tif.2.1
    obtain ⟨r, hr, her⟩ := hfn.check n (le_refl n) .ifElse he hn.tif.2.2
    exact ⟨_, bind₃_eq_ok.mpr ⟨g, hg, s, hs, r, hr, rfl⟩, (hfg.tif hts her).attrCopy a⟩
  | @tbinop _ a op f g hf hg =>
    obtain ⟨f', hf', hff⟩ := hfn.check n (le_refl n) .left hf hn.tbinop.1
    obtain ⟨g', hg', hgg⟩ := hfn.check n (le_refl n) .right hg hn.tbinop.2
    exact ⟨_, bind₂_eq_ok.mpr ⟨f', hf', g', hg', rfl⟩, (hff.tbinop hgg).attrCopy a⟩
  | @tnot _ a f hf =>
    obtain ⟨f', hf', hff⟩ := hfn.check n (le_refl n) .neg hf hn
    exact ⟨_, bind_eq_ok.mpr ⟨f', hf', rfl⟩, hff.tnot.attrCopy a⟩
  | @tlet _ a t e v _ ht he =>
    obtain ⟨s, r, hs, hr, hst, _, hlet⟩ := hfn.tlet hI hΦ ht he hn
    exact ⟨_, bind₃_eq_ok.mpr ⟨s, hs, r, hr, (), vsCheck_ok hst.tTy_eq, rfl⟩, hlet.attrCopy a⟩
  | @teps _ a v f hf =>
    obtain ⟨g, hg, hfg⟩ := hfn.check (n + 1) (by omega) (.eps (boundVar n v))
      (WellTyped.openVars [boundVar n v] hf)
      (VarsBelow.openVars (e := f) hn (Nat.le_add_right n 1) (by simp))
    refine ⟨_, bind₂_eq_ok.mpr ⟨g, hg, g, tProp_eq_ok.mpr ⟨hfg.typed.tTy_eq, rfl⟩, rfl⟩, ?_⟩
    exact (Rewrites.teps (v := v) (u := boundVar n v) hI rfl (opens_boundVar (e := f) hΦ hn v)
      hfg).attrCopy a
  | @tquant _ a q vl trl f htr hf =>
    obtain ⟨srl, g, hsrl, hg, _, hgt, hquant⟩ := hfn.tquant hΦ htyped hn
    exact ⟨_, bind₃_eq_ok.mpr ⟨g, hg, srl, hsrl, g, tProp_eq_ok.mpr ⟨hgt.tTy_eq, rfl⟩, rfl⟩,
      hquant.attrCopy a⟩
  | @tcase _ a t ty bl _ ht hsat hne hp hbl =>
    obtain ⟨s, hs, hts⟩ := hfn.check n (le_refl n) .caseTerm ht hn.tcase.1
    obtain ⟨cl, hcl, hbl'⟩ := mapMem_ok (P := RewritesBranch S I Φ ty o n) fun b h => by
      have hb' := hn.tcase.2 b h
      have hb := hbl b h
      rw [← map_vsTy_freshLike n b.1.vars] at hb
      obtain ⟨r, hr, hbr⟩ := hfn.check (n + b.1.vars.length) (by omega)
        (.branch h (freshLike n b.1.vars)) (WellTyped.openVars _ hb)
        (.openVars hb' (by omega) fun u hu => (idTag_of_mem_freshLike hu).2)
      exact ⟨_, bind_eq_ok.mpr ⟨r, hr, rfl⟩, (hp b h).1, (hp b h).2,
        opens_freshLike hΦ hb' _, r, rfl, hbr⟩
    have hcase : Rewrites S I Φ o (.tcase a t bl) (.tcase [] s cl) :=
      .tcase hI hsat hne hts hbl'
    exact ⟨_, bind₃_eq_ok.mpr ⟨s, hs, cl, hcl, _, tCase_ok hcase.typed, rfl⟩, hcase.attrCopy a⟩

/-! ## Replacing a term -/

def RewriteCtx.replace (I : Interp D) (t1 t2 : Term) : RewriteCtx D :=
  ⟨fun τ ρ => I.val τ ρ t1 = I.val τ ρ t2, fun v => v ∈ t2.freeVars⟩

theorem RewriteCtx.stable_replace (h1 : t1.VarsBelow n) (h2 : t2.VarsBelow n) :
    (RewriteCtx.replace I t1 t2).Stable n := by
  intro τ ρ ρ' hρ h
  have hval : ∀ {t : Term}, t.VarsBelow n → I.val τ ρ' t = I.val τ ρ t := fun {t} ht =>
    congrArg Prod.fst (eval_congr t [] fun v hv => (hρ v (ht v hv)).symm)
  exact (hval h1).trans (h.trans (hval h2).symm)

section

variable (hI : I.Sound) (h1 : WellTyped S [] t1 (some ty)) (h2 : WellTyped S [] t2 (some ty))
  (hn1 : t1.VarsBelow n) (hn2 : t2.VarsBelow n) (ht : WellTyped S [] t o) (hn : t.VarsBelow n)
include hI h1 h2 hn1 hn2 ht hn

theorem tReplaceRec_spec :
    ∃ t', tReplaceRec t1 t2 n t = .ok t' ∧ Rewrites S I (.replace I t1 t2) o t t' := by
  induction hm : t.size using Nat.strong_induction_on generalizing t o n with
  | _ m ih =>
    rw [tReplaceRec]
    split_ifs with heq
    · have ho : o = some ty := by
        rw [← ht.tTy_eq, tTy_of_compareEqual heq, h1.tTy_eq]
      subst ho
      refine ⟨t2, rfl, h2, .inr, fun {τ ρ} hρ => ?_⟩
      rw [eval_of_tEqual hI ht h1 heq]
      refine Prod.ext hρ.2.symm ?_
      rw [(h1.eval_mem hI hρ.1 .nil ty rfl).2, (h2.eval_mem hI hρ.1 .nil ty rfl).2]
    · refine tMap_spec hI (RewriteCtx.stable_replace hn1 hn2) ht hn
        fun n' hn' u hu o hut hbelow => ?_
      exact ih u.size (hm ▸ hu.size_lt) (hn1.mono hn') (hn2.mono hn') hut hbelow rfl

theorem tReplace_spec :
    ∃ t', tReplace t1 t2 n t = .ok t' ∧ Rewrites S I (.replace I t1 t2) o t t' := by
  obtain ⟨t', ht', hrw⟩ := tReplaceRec_spec hI h1 h2 hn1 hn2 ht hn
  refine ⟨t', bind_eq_ok.mpr ⟨(), ?_, ht'⟩, hrw⟩
  rw [h1.tTy_eq, ← h2.tTy_eq]
  exact tTyCheck_self t2

end

end Why3
