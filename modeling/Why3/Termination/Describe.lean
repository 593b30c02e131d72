import Why3.Core.Termination
import Why3.Logic.Match
import Why3.Pattern.Column
import Mathlib.Logic.Relation

/-!
# What the descriptions of arguments say

The arguments of a constructor are parts of the value that it builds. A description
relates a value to the arguments of a definition in the order of parts. The
descriptions that are kept for the variables remain true of their values when a
pattern is matched.
-/

namespace Why3

open Lib Relation Interp List

variable {D : Type}

/-- A value with its type is one of the arguments from which a constructor builds
another one. -/
def SubValue (S : DataSig) (I : Interp D) (x y : Ty × D) : Prop :=
  ∃ ts tl, ∃ cs ∈ S.constrs ts, tl.length = ts.tsArgs.length ∧
    ∃ ds, I.Typed (paramMap ts tl) cs.lsArgs ds ∧
      y = (.tyapp ts tl, I.fn cs (.tyapp ts tl) ds) ∧
      x ∈ (cs.lsArgs.map (Ty.vMap (paramMap ts tl))).zip ds

def Descr (S : DataSig) (I : Interp D) (xs : List (Ty × D)) : Descent → Ty × D → Prop
  | .unknown, _ => True
  | .equal i, y => ∃ x, xs[i]? = some x ∧ ReflTransGen (SubValue S I) y x
  | .less i, y => ∃ x, xs[i]? = some x ∧ TransGen (SubValue S I) y x

variable {S : DataSig} {I : Interp D} {τ : TyVal} {xs : List (Ty × D)}
variable {link : Descent} {fs : LSymbol} {β : List (VSymbol × D)} {pl : List Pattern} {p : Pattern}
variable {u v : VSymbol}
variable {d : Descent} {vl : List VSymbol} {ty : Ty} {y z : Ty × D} {ts : TySymbol} {n' : ℕ}

theorem Descr.below (h : Descr S I xs d y) (hz : ReflTransGen (SubValue S I) z y) :
    Descr S I xs d z := by
  cases d with
  | unknown => exact trivial
  | equal i =>
    obtain ⟨x, hx, hy⟩ := h
    exact ⟨x, hx, hz.trans hy⟩
  | less i =>
    obtain ⟨x, hx, hy⟩ := h
    exact ⟨x, hx, TransGen.trans_right hz hy⟩

theorem Descr.toLess (h : Descr S I xs d y) (hz : TransGen (SubValue S I) z y) :
    Descr S I xs d.toLess z := by
  cases d with
  | unknown => exact trivial
  | equal i =>
    obtain ⟨x, hx, hy⟩ := h
    exact ⟨x, hx, hz.trans_left hy⟩
  | less i =>
    obtain ⟨x, hx, hy⟩ := h
    exact ⟨x, hx, hz.trans hy⟩

/-! ## The parts that a pattern binds -/

theorem map_patTy_vMap {tl : List Ty} (hl : tl.length = ts.tsArgs.length) (hfs : fs ∈ S.constrs ts)
    (hty : pl.map Pattern.patTy = fs.lsArgs.map (Ty.vMap (paramMap ts tl))) :
    (pl.map fun p => p.patTy.vMap τ) =
      fs.lsArgs.map (Ty.vMap (paramMap ts (tl.map (Ty.vMap τ)))) := by
  change pl.map (Ty.vMap τ ∘ Pattern.patTy) = _
  rw [← List.map_map, hty, List.map_map]
  apply map_congr_left
  intro ty hmem
  rw [Function.comp_apply, Ty.vMap_vMap]
  apply Ty.vMap_congr
  intro v hv
  exact (paramMap_map hl (S.freevars hfs ty hmem v hv) _).symm

theorem subValue_of_typed {ds : List D} (hp : PatTyped S (.papp fs pl ty))
    (hds : I.Typed τ (pl.map Pattern.patTy) ds) :
    ∀ y ∈ (pl.map fun p => p.patTy.vMap τ).zip ds,
      SubValue S I y (ty.vMap τ, I.fn fs (ty.vMap τ) ds) := by
  cases hp with
  | @papp _ _ ts tl hl hfs hty hvars hpl =>
    refine fun y hy => ⟨ts, tl.map (Ty.vMap τ), fs, hfs, ?_, ds, ?_, ?_, ?_⟩
    · rw [length_map, hl]
    · rwa [← typed_patTy_iff hl hfs hty]
    · rw [← Ty.vMap_tyapp]
    · rwa [← map_patTy_vMap hl hfs hty]

/-- A pattern binds parts of the value, and proper parts below a constructor. -/
theorem belowRule : MatchRule S I τ
    (fun p d β => ∀ x ∈ β, ReflTransGen (SubValue S I) (x.1.vsTy.vMap τ, x.2) (p.patTy.vMap τ, d) ∧
      ∀ fs pl ty, p = .papp fs pl ty →
        TransGen (SubValue S I) (x.1.vsTy.vMap τ, x.2) (ty.vMap τ, d))
    fun pl ds β => ∀ x ∈ β, ∃ y ∈ (pl.map fun p => p.patTy.vMap τ).zip ds,
      ReflTransGen (SubValue S I) (x.1.vsTy.vMap τ, x.2) y where
  wild _ _ x hx := by simp at hx
  var v d := forall_mem_singleton.mpr ⟨.refl, nofun⟩
  app hp hds h x hx := by
    obtain ⟨y, hy, hle⟩ := h x hx
    have hsub := subValue_of_typed hp hds y hy
    refine ⟨hle.tail hsub, ?_⟩
    rintro _ _ _ ⟨⟩
    exact .tail' hle hsub
  left _ h x hx := ⟨(h x hx).1, nofun⟩
  right hp h x hx := by
    cases hp with
    | por _ _ hty _ =>
      refine ⟨?_, nofun⟩
      rw [Pattern.patTy, hty]
      exact (h x hx).1
  as hp h := by
    cases hp with
    | pas _ hty _ =>
      refine forall_mem_append.mpr ⟨fun x hx => ⟨?_, nofun⟩, forall_mem_singleton.mpr ⟨.refl, nofun⟩⟩
      rw [Pattern.patTy, ← hty]
      exact (h x hx).1
  nil x hx := by simp at hx
  cons h h' := by
    refine forall_mem_append.mpr ⟨fun x hx => ⟨_, mem_cons_self, (h x hx).1⟩, fun x hx => ?_⟩
    obtain ⟨y, hy, hle⟩ := h' x hx
    exact ⟨y, mem_cons_of_mem _ hy, hle⟩

theorem matchPat_below {d : D} (hp : PatTyped S p) (h : I.matchPat τ p d = some β)
    (x : VSymbol × D) (hx : x ∈ β) :
    ReflTransGen (SubValue S I) (x.1.vsTy.vMap τ, x.2) (p.patTy.vMap τ, d) :=
  (belowRule.pat hp h x hx).1

theorem matchPat_papp_below {d : D} (hp : PatTyped S (.papp fs pl ty))
    (h : I.matchPat τ (.papp fs pl ty) d = some β) (x : VSymbol × D) (hx : x ∈ β) :
    TransGen (SubValue S I) (x.1.vsTy.vMap τ, x.2) (ty.vMap τ, d) :=
  (belowRule.pat hp h x hx).2 fs pl ty rfl

/-! ## Descriptions of variables -/

/-- What is kept of the variables is true of their values. The variables are numbered
below `n`. -/
def Valid (S : DataSig) (I : Interp D) (τ : TyVal) (xs : List (Ty × D)) (n : ℕ) (η : VSymbol → D)
    (vm : TagMap VSymbol Descent) : Prop :=
  ∀ v d, vm.find? v = some d → v.vsName.idTag < n ∧ Descr S I xs d (v.vsTy.vMap τ, η v)

def SomeValid (S : DataSig) (I : Interp D) (τ : TyVal) (xs : List (Ty × D)) (n : ℕ)
    (η : VSymbol → D) (vsg : VsGraph) : Prop :=
  ∃ vm ∈ vsg, Valid S I τ xs n η vm

variable {n : ℕ} {η η' : VSymbol → D} {vm : TagMap VSymbol Descent} {vsg acc : VsGraph}

theorem find?_foldl_add (link : Descent) (vl : List VSymbol) (v : VSymbol) :
    (vl.foldl (fun vm u => vm.add u link) vm).find? v =
      if v ∈ vl then some link else vm.find? v := by
  induction vl generalizing vm with
  | nil => simp
  | cons u vl ih =>
    rw [foldl_cons, ih]
    by_cases hv : v ∈ vl
    · simp [hv]
    · rw [if_neg hv, TagMap.find?_add]
      by_cases hu : v = u
      · simp [hu]
      · simp [hu, hv]

theorem Valid.addAll (h : Valid S I τ xs n η vm) (vl : List VSymbol)
    (htags : ∀ v ∈ vl, v.vsName.idTag < n) (heq : ∀ v ∉ vl, η' v = η v)
    (hlink : ∀ v ∈ vl, Descr S I xs link (v.vsTy.vMap τ, η' v)) :
    Valid S I τ xs n η' (vl.foldl (fun vm u => vm.add u link) vm) := by
  intro v d hv
  rw [find?_foldl_add] at hv
  by_cases hmem : v ∈ vl
  · rw [if_pos hmem, Option.some.injEq] at hv
    exact ⟨htags v hmem, hv ▸ hlink v hmem⟩
  · rw [if_neg hmem] at hv
    rw [heq v hmem]
    exact h v d hv

theorem Valid.setDiff (h : Valid S I τ xs n η vm) (heq : ∀ v ∉ vl, η' v = η v) :
    Valid S I τ xs n η' (vm.setDiff vl) := by
  intro v d hv
  rw [TagMap.find?_setDiff] at hv
  by_cases hmem : v ∈ vl
  · simp [hmem] at hv
  · rw [if_neg hmem] at hv
    rw [heq v hmem]
    exact h v d hv

section

variable (h : SomeValid S I τ xs n η acc)
include h

theorem SomeValid.map {f : TagMap VSymbol Descent → TagMap VSymbol Descent}
    (hf : ∀ vm, Valid S I τ xs n η vm → Valid S I τ xs n η' (f vm)) :
    SomeValid S I τ xs n η' (acc.map f).reverse := by
  obtain ⟨vm, hvm, hvalid⟩ := h
  exact ⟨f vm, mem_reverse.mpr (mem_map_of_mem hvm), hf vm hvalid⟩

theorem SomeValid.dropVars (heq : ∀ v ∉ vl, η' v = η v) :
    SomeValid S I τ xs n η' (dropVars acc vl) :=
  h.map fun _ hvm => hvm.setDiff heq

theorem SomeValid.vsGraphDrop (heq : ∀ v, v ≠ u → η' v = η v) :
    SomeValid S I τ xs n η' (vsGraphDrop acc u) :=
  h.map fun _ hvm => hvm.setDiff fun v hv => heq v (ne_of_not_mem_cons hv)

end

theorem SomeValid.append_reverse {acc' : VsGraph}
    (h : SomeValid S I τ xs n η acc ∨ SomeValid S I τ xs n η acc') :
    SomeValid S I τ xs n η (acc.reverse ++ acc') := by
  rcases h with ⟨vm, hvm, hvalid⟩ | ⟨vm, hvm, hvalid⟩
  · exact ⟨vm, mem_append_left _ (mem_reverse.mpr hvm), hvalid⟩
  · exact ⟨vm, mem_append_right _ hvm, hvalid⟩

/-! ## Matching a variable -/

section Assign

open List

variable {p : Pattern} {d : D} {β : List (VSymbol × D)}

theorem assign_eq_of_not_mem_vars (hp : PatTyped S p) (h : I.matchPat τ p d = some β)
    (hv : v ∉ p.vars) : assign η β v = η v :=
  assign_of_not_mem fun hmem => hv ((matchPat_keys hp h).mem_iff.mp hmem)

theorem assign_mem_of_mem_vars (hp : PatTyped S p) (h : I.matchPat τ p d = some β) (hv : v ∈ p.vars) :
    (v, assign η β v) ∈ β := by
  have hkey := (matchPat_keys hp h).mem_iff.mpr hv
  obtain ⟨x, hx⟩ := Option.isSome_iff_exists.mp ((TagMap.mem_keys_iff v β).mp hkey)
  rw [assign, hx]
  exact mem_of_lookup hx

theorem assign_singleton_of_ne (h : v ≠ u) : assign η [(u, d)] v = η v :=
  assign_of_not_mem (by simpa using h)

end Assign

/-- What is known of a value gives what is known of the variables of a pattern that
it matches. -/
theorem matchVar_valid (p : Pattern) {d : D} {acc : VsGraph} (hp : PatTyped S p)
    (hm : I.matchPat τ p d = some β) (htags : ∀ v ∈ p.vars, v.vsName.idTag < n)
    (hlink : Descr S I xs link (p.patTy.vMap τ, d)) (hacc : SomeValid S I τ xs n η acc) :
    SomeValid S I τ xs n (assign η β) (matchVar link acc p) := by
  induction p using Pattern.headInduction generalizing d β acc with
  | pwild ty =>
    simp only [matchPat, Option.some.injEq] at hm
    rw [← hm, assign_nil]
    exact hacc
  | pvar u =>
    refine hacc.map fun vm hvm => ?_
    refine hvm.addAll [u] htags ?_ ?_
    · exact fun v hv => assign_eq_of_not_mem_vars hp hm hv
    · intro v hv
      exact hlink.below (matchPat_below hp hm _ (assign_mem_of_mem_vars hp hm hv))
  | papp fs pl ty =>
    refine hacc.map fun vm hvm => hvm.addAll _ htags ?_ ?_
    · exact fun v hv => assign_eq_of_not_mem_vars hp hm hv
    · intro v hv
      exact hlink.toLess (matchPat_papp_below hp hm _ (assign_mem_of_mem_vars hp hm hv))
  | por p q ihp ihq =>
    cases hp with
    | por hp hq hty hvars =>
      change Descr S I xs link (p.patTy.vMap τ, d) at hlink
      apply SomeValid.append_reverse
      unfold matchPat at hm
      cases hm' : I.matchPat τ p d with
      | some β' =>
        rw [hm'] at hm
        cases hm
        exact .inl (ihp hp hm' htags hlink hacc)
      | none =>
        rw [hm'] at hm
        rw [hty] at hlink
        exact .inr (ihq hq hm (fun v hv => htags v ((hvars v).mpr hv)) hlink hacc)
  | pas p u ih =>
    have hval : (u, assign η β u) ∈ β := assign_mem_of_mem_vars hp hm (by simp [Pattern.vars])
    have hbelow := matchPat_below hp hm _ hval
    cases hp with
    | pas hp hty hu =>
      unfold matchPat at hm
      obtain ⟨β', hm', rfl⟩ := Option.map_eq_some_iff.mp hm
      have hlink' : Descr S I xs link (p.patTy.vMap τ, d) := hty ▸ hlink
      have hp' := ih hp hm' (fun v hv => htags v (by simp [Pattern.vars, hv])) hlink' hacc
      refine hp'.map fun vm hvm => hvm.addAll [u] ?_ ?_ ?_
      · exact fun v hv => htags v (by simp_all [Pattern.vars])
      · intro v hv
        rw [assign, lookup_append, assign]
        have hne : ([(u, d)] : List (VSymbol × D)).lookup v = none :=
          lookup_eq_none_of_not_mem (by simpa using hv)
        rw [hne, Option.or_none]
      · intro v hv
        rw [mem_singleton.mp hv]
        exact hlink.below hbelow

/-! ## Matching a term -/

/-- The opened variables `b` are numbered below `n` and have values of their types. -/
structure Opened (I : Interp D) (τ : TyVal) (n : ℕ) (b : List VSymbol) (η : VSymbol → D) :
    Prop where
  tags : ∀ v ∈ b, v.vsName.idTag < n
  typed : I.Typed τ (b.map VSymbol.vsTy) (b.map η)

/-- A term with no variables but the opened ones has the type `ty` and the value `d`. -/
structure HasValue (S : DataSig) (I : Interp D) (τ : TyVal) (ρ : VSymbol → D) (b : List VSymbol)
    (η : VSymbol → D) (t : Term) (ty : Ty) (d : D) : Prop where
  typed : WellTyped S (b.map VSymbol.vsTy) t (some ty)
  closed : t.freeVars = []
  value : (I.eval τ ρ (b.map η) t).1 = d

variable {ρ η₀ : VSymbol → D} {b : List VSymbol} {t : Term} {ty : Ty} {d : D}

theorem HasValue.termVar (h : HasValue S I τ ρ b η t ty d) (hv : termVar b t = some v) :
    v.vsTy = ty ∧ η v = d := by
  obtain ⟨htyped, hclosed, rfl⟩ := h
  cases htyped with
  | tvar a u => simp [Term.freeVars] at hclosed
  | @tbnd _ a i ty hi =>
    change b[i]? = some v at hv
    rw [getElem?_map, hv] at hi
    refine ⟨Option.some.inj hi, ?_⟩
    rw [eval_tbnd, getD_eq_getElem?_getD, getElem?_map, hv]
    rfl
  | _ => exact absurd hv (by simp [Why3.termVar])

theorem HasValue.descr (h : HasValue S I τ ρ b η t ty d) (hvm : Valid S I τ xs n η vm)
    (hlink : termLink b vm t = some link) : Descr S I xs link (ty.vMap τ, d) := by
  obtain ⟨v, hv, hfind⟩ := Option.bind_eq_some_iff.mp hlink
  obtain ⟨rfl, rfl⟩ := h.termVar hv
  exact (hvm v link hfind).2

theorem freeVars_eq_nil_of_mem_branches {bl : List (Pattern × Term)}
    (h : Term.freeVarsBranches bl = []) : ∀ br ∈ bl, br.2.freeVars = [] := by
  induction bl with
  | nil => simp
  | cons br bl ih =>
    obtain ⟨p, e⟩ := br
    rw [Term.freeVarsBranches, append_eq_nil_iff] at h
    rw [forall_mem_cons]
    exact ⟨h.1, ih h.2⟩

/-- The arguments of a constructor application are parts of its value. -/
theorem HasValue.constr (hI : I.Sound) (hρ : I.TypedVal τ ρ) (hb : Opened I τ n b η) {a : List Attr}
    {c : LSymbol} {tl : List Term} {o : Option Ty} {tys : List Ty} (hc : c ∈ S.constrs ts)
    (h : HasValue S I τ ρ b η (.tapp a c tl o) (.tyapp ts tys) d) :
    ∃ ds, I.Typed (paramMap ts (tys.map (Ty.vMap τ))) c.lsArgs ds ∧
      d = I.fn c (.tyapp ts (tys.map (Ty.vMap τ))) ds ∧
      Forall₂ (fun t x => HasValue S I τ ρ b η t x.1 x.2) tl
        ((c.lsArgs.map (Ty.vMap (paramMap ts tys))).zip ds) := by
  obtain ⟨htyped, hclosed, hvalue⟩ := h
  obtain ⟨ts', tys', heq, hl, hc', rfl, hargs⟩ := htyped.constr (Pattern.constr_pos hc)
  cases heq
  rw [eval_tapp_some, Ty.vMap_tyapp] at hvalue
  have htl : ∀ t ∈ tl, t.freeVars = [] := Term.freeVars_eq_nil_of_mem hclosed
  refine ⟨_, ?_, hvalue.symm, ?_⟩
  · rw [← typed_args_iff hl hc, Typed, forall₂_map_right_iff]
    exact Forall₂.flip (hargs.imp fun t ty ht => (ht.eval_mem hI hρ hb.typed ty rfl).1)
  · clear hclosed hvalue htyped
    generalize c.lsArgs.map (Ty.vMap (paramMap ts tys)) = tyl at hargs
    induction hargs with
    | nil => exact .nil
    | cons ht _ ih =>
      rw [forall_mem_cons] at htl
      exact .cons ⟨ht, htl.1, rfl⟩ (ih htl.2)

theorem matchTerm_of_link (h : termLink b vm t = some link) (p : Pattern) :
    matchTerm b vm t acc p = matchVar link acc p := by
  cases p <;> simp [matchTerm, matchVar, h]

/-- Nothing is known of the variables of a pattern that is matched with something
that is neither a variable nor an application. -/
theorem SomeValid.matchTerm_other (h : SomeValid S I τ xs n η acc) (hlink : termLink b vm t = none)
    (ht : ∀ a c tl o, t ≠ .tapp a c tl o) (heq : ∀ v ∉ p.vars, η' v = η v) :
    SomeValid S I τ xs n η' (matchTerm b vm t acc p) := by
  cases p with
  | pwild ty =>
    have : η' = η := funext fun v => heq v (by simp [Pattern.vars])
    rw [this]
    exact h
  | _ =>
    cases t with
    | tapp a c tl o => exact absurd rfl (ht a c tl o)
    | _ =>
      simp only [matchTerm, hlink]
      exact h.dropVars heq

/-- It is enough to look at a pattern that is matched with an application. -/
theorem SomeValid.matchTerm (h : SomeValid S I τ xs n η acc) (hvm : Valid S I τ xs n η₀ vm)
    (hp : PatTyped S p) (hm : I.matchPat τ p d = some β) (htags : ∀ v ∈ p.vars, v.vsName.idTag < n)
    (ht : HasValue S I τ ρ b η₀ t p.patTy d) (happ : ∀ a c tl o, t = .tapp a c tl o →
      SomeValid S I τ xs n (assign η β) (matchTerm b vm (.tapp a c tl o) acc p)) :
    SomeValid S I τ xs n (assign η β) (Why3.matchTerm b vm t acc p) := by
  cases hlink : termLink b vm t with
  | some link =>
    rw [matchTerm_of_link hlink]
    exact matchVar_valid p hp hm htags (ht.descr hvm hlink) h
  | none =>
    by_cases hex : ∃ a c tl o, t = .tapp a c tl o
    · obtain ⟨a, c, tl, o, rfl⟩ := hex
      exact happ a c tl o rfl
    · push Not at hex
      exact h.matchTerm_other hlink hex fun v hv => assign_eq_of_not_mem_vars hp hm hv

mutual

/-- One of the alternatives is right of the variables of a pattern after it was
matched with the value of a term. -/
theorem matchTerm_valid (hI : I.Sound) (hfree : I.Free S) (hρ : I.TypedVal τ ρ)
    (hb : Opened I τ n b η₀) (hvm : Valid S I τ xs n η₀ vm) :
    ∀ (p : Pattern) {t : Term} {d : D} {β : List (VSymbol × D)} {η : VSymbol → D} {acc : VsGraph},
      PatTyped S p → I.matchPat τ p d = some β → (∀ v ∈ p.vars, v.vsName.idTag < n) →
      HasValue S I τ ρ b η₀ t p.patTy d → SomeValid S I τ xs n η acc →
      SomeValid S I τ xs n (assign η β) (matchTerm b vm t acc p)
  | .pwild _, t, d, β, η, acc, _, hm, _, _, hacc => by
    simp only [matchPat, Option.some.injEq] at hm
    rw [← hm, assign_nil]
    exact hacc
  | .pvar u, t, d, β, η, acc, hp, hm, htags, ht, hacc => by
    refine hacc.matchTerm hvm hp hm htags ht ?_
    rintro a c tl o rfl
    exact hacc.vsGraphDrop fun v hv => assign_eq_of_not_mem_vars hp hm (by simpa [Pattern.vars])
  | .pas p u, t, d, β, η, acc, hp, hm, htags, ht, hacc => by
    refine hacc.matchTerm hvm hp hm htags ht ?_
    rintro a c tl o rfl
    cases hp with
    | pas hp hty hu =>
      unfold matchPat at hm
      obtain ⟨β', hm', rfl⟩ := Option.map_eq_some_iff.mp hm
      rw [assign_append]
      have hdrop : SomeValid S I τ xs n (assign η [(u, d)]) (vsGraphDrop acc u) :=
        hacc.vsGraphDrop fun v hv => assign_singleton_of_ne hv
      exact matchTerm_valid hI hfree hρ hb hvm p hp hm'
        (fun v hv => htags v (by simp [Pattern.vars, hv])) (hty ▸ ht) hdrop
  | .por p q, t, d, β, η, acc, hp, hm, htags, ht, hacc => by
    refine hacc.matchTerm hvm hp hm htags ht ?_
    rintro a c tl o rfl
    cases hp with
    | por hp hq hty hvars =>
      change HasValue S I τ ρ b η₀ _ p.patTy d at ht
      unfold matchPat at hm
      apply SomeValid.append_reverse
      cases hm' : I.matchPat τ p d with
      | some β' =>
        rw [hm'] at hm
        cases hm
        exact .inl (matchTerm_valid hI hfree hρ hb hvm p hp hm' htags ht hacc)
      | none =>
        rw [hm'] at hm
        exact .inr (matchTerm_valid hI hfree hρ hb hvm q hq hm
          (fun v hv => htags v ((hvars v).mpr hv)) (hty ▸ ht) hacc)
  | .papp c2 pl ty, t, d, β, η, acc, hp, hm, htags, ht, hacc => by
    refine hacc.matchTerm hvm hp hm htags ht ?_
    rintro a c tl o rfl
    have hother : ∀ v ∉ (Pattern.papp c2 pl ty).vars, assign η β v = η v :=
      fun v hv => assign_eq_of_not_mem_vars hp hm hv
    cases hp with
    | papp hl hfs hty hvars hpl =>
      simp only [matchTerm, termLink, termVar, Option.bind_none]
      split
      · next heq =>
          subst heq
          obtain ⟨ds, hds, rfl, hargs⟩ := ht.constr hI hρ hb hfs
          rw [matchPat_papp hl hfree hfs hty hds] at hm
          rw [← hty] at hargs
          exact matchTerms_valid hI hfree hρ hb hvm pl hpl hvars hm htags hargs hacc
      · exact hacc.dropVars hother

theorem matchTerms_valid (hI : I.Sound) (hfree : I.Free S) (hρ : I.TypedVal τ ρ)
    (hb : Opened I τ n b η₀) (hvm : Valid S I τ xs n η₀ vm) :
    ∀ (pl : List Pattern) {tl : List Term} {ds : List D} {β : List (VSymbol × D)}
      {η : VSymbol → D} {acc : VsGraph}, (∀ p ∈ pl, PatTyped S p) →
      (Pattern.varsList pl).Nodup → I.matchPatList τ pl ds = some β →
      (∀ v ∈ Pattern.varsList pl, v.vsName.idTag < n) →
      Forall₂ (fun t x => HasValue S I τ ρ b η₀ t x.1 x.2) tl
        ((pl.map Pattern.patTy).zip ds) →
      SomeValid S I τ xs n η acc → SomeValid S I τ xs n (assign η β) (matchTerms b vm tl acc pl)
  | [], tl, ds, β, η, acc, _, _, hm, _, _, hacc => by
    cases ds with
    | cons d ds => simp [matchPatList] at hm
    | nil =>
      simp only [matchPatList, Option.some.injEq] at hm
      rw [← hm, assign_nil]
      cases tl <;> exact hacc
  | p :: pl, tl, ds, β, η, acc, hpl, hnodup, hm, htags, htl, hacc => by
    cases ds with
    | nil => simp [matchPatList] at hm
    | cons d ds =>
      cases htl with
      | @cons t _ tl _ ht htl =>
        have hkeys := matchPatList_keys hpl hm
        rw [forall_mem_cons] at hpl
        obtain ⟨β₁, β₂, h₁, h₂, rfl⟩ := matchPatList_cons_eq_some.mp hm
        rw [Pattern.varsList] at hnodup htags
        have hhead := matchTerm_valid hI hfree hρ hb hvm p hpl.1 h₁
          (fun v hv => htags v (mem_append_left _ hv)) ht hacc
        -- the bindings of the first pattern are made first
        rw [assign_perm perm_append_comm ((hkeys.nodup_iff).mpr hnodup), assign_append]
        exact matchTerms_valid hI hfree hρ hb hvm pl hpl.2 hnodup.of_append_right h₂
          (fun v hv => htags v (mem_append_right _ hv)) htl hhead

end

/-! ## Branches and local definitions -/

theorem mem_vsGraphPat {vm' : TagMap VSymbol Descent} :
    vm' ∈ vsGraphPat b vsg t p ↔ ∃ vm ∈ vsg, vm' ∈ matchTerm b vm t [vm] p := by
  have hfold : ∀ acc, vm' ∈ vsg.foldl
      (fun acc vm => (matchTerm b vm t [vm] p).reverse ++ acc) acc ↔
        vm' ∈ acc ∨ ∃ vm ∈ vsg, vm' ∈ matchTerm b vm t [vm] p := by
    induction vsg with
    | nil => simp
    | cons vm vsg ih =>
      intro acc
      rw [foldl_cons, ih, mem_append, mem_reverse, exists_mem_cons_iff]
      tauto
  rw [vsGraphPat, hfold]
  simp

theorem SomeValid.vsGraphPat (hI : I.Sound) (hfree : I.Free S) (hρ : I.TypedVal τ ρ)
    (hb : Opened I τ n b η) (h : SomeValid S I τ xs n η vsg) (hp : PatTyped S p)
    (hm : I.matchPat τ p d = some β) (htags : ∀ v ∈ p.vars, v.vsName.idTag < n)
    (ht : HasValue S I τ ρ b η t p.patTy d) :
    SomeValid S I τ xs n (assign η β) (vsGraphPat b vsg t p) := by
  obtain ⟨vm, hvm, hvalid⟩ := h
  obtain ⟨vm', hvm', hvalid'⟩ := matchTerm_valid hI hfree hρ hb hvalid p hp hm htags ht
    ⟨vm, mem_singleton_self vm, hvalid⟩
  exact ⟨vm', mem_vsGraphPat.mpr ⟨vm, hvm, hvm'⟩, hvalid'⟩

theorem SomeValid.vsGraphLet (h : SomeValid S I τ xs n η vsg)
    (ht : HasValue S I τ ρ b η t u.vsTy (η' u)) (hu : u.vsName.idTag < n)
    (heq : ∀ v, v ≠ u → η' v = η v) : SomeValid S I τ xs n η' (vsGraphLet b vsg t u) := by
  unfold Why3.vsGraphLet
  cases hv : termVar b t with
  | none => exact h.vsGraphDrop heq
  | some v =>
    refine h.map fun vm hvm => ?_
    cases hfind : vm.find? v with
    | none => exact hvm.setDiff fun w hw => heq w (ne_of_not_mem_cons hw)
    | some link =>
      refine hvm.addAll [u] ?_ (fun w hw => heq w (ne_of_not_mem_cons hw)) ?_
      · exact fun w hw => mem_singleton.mp hw ▸ hu
      · intro w hw
        rw [mem_singleton.mp hw]
        exact ht.descr hvm (Option.bind_eq_some_iff.mpr ⟨v, hv, hfind⟩)

theorem Valid.mono (h : Valid S I τ xs n η vm) (hn : n ≤ n')
    (heq : ∀ v : VSymbol, v.vsName.idTag < n → η' v = η v) : Valid S I τ xs n' η' vm := by
  intro v d hv
  obtain ⟨hlt, hd⟩ := h v d hv
  exact ⟨hlt.trans_le hn, (heq v hlt).symm ▸ hd⟩

theorem SomeValid.mono (h : SomeValid S I τ xs n η vsg) (hn : n ≤ n')
    (heq : ∀ v : VSymbol, v.vsName.idTag < n → η' v = η v) : SomeValid S I τ xs n' η' vsg := by
  obtain ⟨vm, hvm, hvalid⟩ := h
  exact ⟨vm, hvm, hvalid.mono hn heq⟩

end Why3
