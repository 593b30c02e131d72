import Why3.Pattern.DeclMatch
import Why3.Transform.DestructExpand

/-!
# Splitting a formula is complete

When a formula is true, all parts of one of the lists it is split into are, for suitable values of
the new constants: the hypotheses and definitions of the list are true, and its new goal is false.
There is a lemma for each connective, about what one step makes of results for smaller formulas.

A formula with type variables is looked at for all types at once. Both parts of a conjunction are
true for all types then, and a premise is, or it is not valid as a goal. But which case of a
disjunction, a conditional or a match is true, and what witnesses an existential formula, is another
matter for each type. So what is split in this way must not have type variables, and is looked at
for one type.
-/

namespace Why3

open Lib Term Interp List

variable {D : Type} {S : DataSig} {one : Prop} {n n' m : ℕ}
variable {I : Interp D} {ls : LSymbol} {c1 c2 : LSymbol × List Term} {trl : List (List Term)}
variable {a : List Attr} {vl vsl : List VSymbol} {l : Parallel} {f t t1 t2 u : Term} {ty : Ty}
variable {τ : TyVal} {ρ : VSymbol → D}
variable {y : IsDestructed} {tl : List Term} {newT : Term}

/-- What is split into cases has no type variables. Parts are split if `recursive` is set. -/
def CasesClosed (recursive : Bool) : Bool → Term → Prop
  | _, tbinop _ .tand t1 t2 =>
    recursive = true → CasesClosed recursive false t1 ∧ CasesClosed recursive false t2
  | toplevel, tbinop _ .timplies _ t2 =>
    toplevel = true → recursive = true → CasesClosed recursive true t2
  | _, tbinop a .tor t1 t2 => (tbinop a .tor t1 t2).tyFreevars = []
  | _, tif a t1 t2 t3 => (tif a t1 t2 t3).tyFreevars = []
  | _, tquant a .texists vl trl f => (tquant a .texists vl trl f).tyFreevars = []
  | toplevel, tcase a t tbs => toplevel = true → (tcase a t tbs).tyFreevars = []
  | _, _ => True

/-! ## Worlds -/

/-- An interpretation, with the valuations for which formulas are looked at. There is only one of
them if `one` holds. -/
structure World (D : Type) (S : DataSig) (one : Prop) where
  I : Interp D
  points : Set (TyVal × (VSymbol → D))
  sound : I.Sound
  free : I.Free S
  typed : ∀ p ∈ points, I.TypedVal p.1 p.2
  nonempty : points.Nonempty
  single : one → points.Subsingleton

namespace World

variable {w w' w'' : World D S one}

def Holds (w : World D S one) (t : Term) : Prop := ∀ p ∈ w.points, w.I.Holds p.1 p.2 t

structure Agree (n : ℕ) (w w' : World D S one) : Prop where
  interp : AgreeBelow n w.I w'.I
  points : w'.points = w.points

theorem Agree.refl (n : ℕ) (w : World D S one) : w.Agree n w := ⟨.refl n w.I, rfl⟩

theorem Agree.trans (h : w.Agree n w') (h' : w'.Agree n' w'') (hn : n ≤ n') : w.Agree n w'' :=
  ⟨h.interp.trans h'.interp hn, h'.points.trans h.points⟩

theorem Agree.mono (h : w.Agree n' w') (hn : n ≤ n') : w.Agree n w' :=
  ⟨h.interp.mono hn, h.points⟩

theorem Agree.holds (h : w.Agree n w') (ht : t.Below n) : w'.Holds t ↔ w.Holds t := by
  rw [Holds, Holds, h.points]
  exact forall₂_congr fun p _ => h.interp.holds ht

/-- Symbols that do not belong to the constructors get another meaning. -/
def change (w : World D S one) {I' : Interp D} (hagree : AgreeBelow n w.I I') (hsound : I'.Sound)
    (hS : S.Below n) : World D S one where
  I := I'
  points := w.points
  sound := hsound
  free := hagree.free hS w.free
  typed p hp := hagree.typedVal.mpr (w.typed p hp)
  nonempty := w.nonempty
  single := w.single

def ofInterp (hI : I.Sound) (hfree : I.Free S) : World D S False where
  I := I
  points := {p | I.TypedVal p.1 p.2}
  sound := hI
  free := hfree
  typed _ hp := hp
  nonempty := (hI.exists_typedVal .tyvar).elim fun ρ hρ => ⟨(.tyvar, ρ), hρ⟩
  single h := h.elim

def atPoint (w : World D S one) {p : TyVal × (VSymbol → D)} (hp : p ∈ w.points) : World D S True where
  I := w.I
  points := {p}
  sound := w.sound
  free := w.free
  typed _ hq := (Set.mem_singleton_iff.mp hq) ▸ w.typed p hp
  nonempty := Set.singleton_nonempty p
  single _ := Set.subsingleton_singleton

theorem exists_point (w : World D S True) : ∃ τ ρ, w.points = {(τ, ρ)} ∧ w.I.TypedVal τ ρ := by
  obtain ⟨p, hp⟩ := w.nonempty
  exact ⟨p.1, p.2, (w.single trivial).eq_singleton_of_mem hp, w.typed p hp⟩

theorem holds_iff (h : w.points = {(τ, ρ)}) : w.Holds t ↔ w.I.Holds τ ρ t := by
  simp [Holds, h]

end World

/-! ## What the parts say -/

def IsDestructed.Settled (one : Prop) (n : ℕ) : IsDestructed → Prop
  | .axiomTerm t => t.Below n ∧ (one → t.tyFreevars = [])
  | .param d => d.Below n ∧ d.isGoal = false
  | .goalTerm t => t.Below n

def World.Accepts (w : World D S one) : IsDestructed → Prop
  | .axiomTerm t => t.freeVars = [] → w.Holds t
  | .param d => w.I.Satisfies d
  | .goalTerm t => ¬ w.Holds t

theorem IsDestructed.Settled.mono (hy : y.Settled one n) (hn : n ≤ n') : y.Settled one n' := by
  cases y with
  | axiomTerm t => exact ⟨hy.1.mono hn, hy.2⟩
  | param d => exact ⟨hy.1.mono hn, hy.2⟩
  | goalTerm t => exact Term.Below.mono hy hn

theorem settled_dparam (n : ℕ) (ls : LSymbol) : (IsDestructed.param (.dparam ls)).Settled one n :=
  ⟨fun _ hs => absurd hs not_mem_nil, rfl⟩

theorem World.Accepts.agree {w w' : World D S one} (h : w.Accepts y) (hy : y.Settled one n)
    (hw : w.Agree n w') : w'.Accepts y := by
  cases y with
  | axiomTerm t => exact fun hclosed => (hw.holds hy.1).mpr (h hclosed)
  | param d => exact hw.interp.satisfies hy.1 h
  | goalTerm t => exact fun ht => h ((hw.holds hy).mp ht)

/-- Some list is accepted when suitable values are given to the constants that were created from
`n` on. -/
def World.AcceptsSome (w : World D S one) (n : ℕ) (l : Parallel) : Prop :=
  ∃ x ∈ l, ∃ w', w.Agree n w' ∧ ∀ y ∈ x, w'.Accepts y

abbrev Condition (S : DataSig) (one : Prop) := (D : Type) → World D S one → Prop

/-- One of the lists that are built while the counter goes from `n` to `n'` is accepted whenever the
condition is true. -/
structure SplitSpec (C : Condition S one) (n n' : ℕ) (l : Parallel) : Prop where
  le : n ≤ n'
  settled : ∀ x ∈ l, ∀ y ∈ x, y.Settled one n'
  complete : ∀ {D : Type} (w : World D S one), C D w → w.AcceptsSome n l

abbrev DestructSpec (S : DataSig) (one : Prop) (t : Term) (n n' : ℕ) (l : Parallel) : Prop :=
  SplitSpec (fun D (w : World D S one) => w.Holds t) n n' l

/-- The formulas that can be split: well-typed, made of symbols and variables that exist, and
without type variables if they are looked at for one type. -/
structure Ready (S : DataSig) (one : Prop) (n : ℕ) (t : Term) : Prop where
  sig : S.Below n
  equ : (Sym.ls psEqu).Below n
  typed : WellTyped S [] t none
  syms : t.Below n
  vars : ∀ v ∈ t.freeVars, v.vsName.idTag < n
  closed : one → t.tyFreevars = []

/-- The matches of the formula are exhaustive. -/
def Covered (S : DataSig) (t : Term) : Prop :=
  ∀ s ∈ caseStmts t, ∀ {D : Type} {I : Interp D} {τ : TyVal}, I.Sound → I.Free S →
    ∀ d, Pattern.Instance I τ s.1 d → ∃ b ∈ s.2, I.matchPat τ b.1 d ≠ none

def RecSpec (S : DataSig) (one : Prop) (recursive : Bool)
    (rec : ℕ → Bool → Term → Except Exn (ℕ × Parallel)) : Prop :=
  ∀ ⦃n n' : ℕ⦄ ⦃toplevel : Bool⦄ ⦃t : Term⦄ ⦃l : Parallel⦄, Ready S one n t →
    (toplevel = true → Covered S t) → (¬ one → CasesClosed recursive toplevel t) →
    rec n toplevel t = .ok (n', l) → DestructSpec S one t n n' l

theorem Ready.mono (h : Ready S one n t) (hn : n ≤ n') : Ready S one n' t :=
  ⟨h.sig.mono hn, h.equ.mono hn, h.typed, h.syms.mono hn, fun v hv => (h.vars v hv).trans_le hn,
    h.closed⟩

theorem Ready.made (h : Ready S True n t) : t.Made n := ⟨⟨h.syms, h.closed trivial⟩, h.vars⟩

theorem Ready.part (h : Ready S one n t) (hu : WellTyped S [] u none)
    (hsyms : ∀ s ∈ symsTerm u, s ∈ symsTerm t) (hty : ∀ x ∈ u.tyFreevars, x ∈ t.tyFreevars)
    (hvars : ∀ v ∈ u.freeVars, v ∈ t.freeVars) : Ready S one n u where
  sig := h.sig
  equ := h.equ
  typed := hu
  syms s hs := h.syms s (hsyms s hs)
  vars v hv := h.vars v (hvars v hv)
  closed ho := eq_nil_iff_forall_not_mem.mpr fun x hx =>
    not_mem_nil (h.closed ho ▸ hty x hx)

theorem Ready.of_made (hS : S.Below n) (hequ : (Sym.ls psEqu).Below n) (ht : WellTyped S [] t none)
    (hmade : t.Made n) : Ready S one n t :=
  ⟨hS, hequ, ht, hmade.settled.1, hmade.vars, fun _ => hmade.settled.2⟩

theorem Ready.binop {op : Binop} {g : Term} (h : Ready S one n (tbinop a op f g)) :
    Ready S one n f ∧ Ready S one n g := by
  cases h.typed with
  | tbinop _ _ hf hg =>
    constructor
    · refine h.part hf ?_ ?_ ?_ <;> intro x hx <;> exact mem_append_left _ hx
    · refine h.part hg ?_ ?_ ?_ <;> intro x hx <;> exact mem_append_right _ hx

theorem Ready.ite {e : Term} (h : Ready S one n (tif a f t e)) :
    Ready S one n f ∧ Ready S one n t ∧ Ready S one n e := by
  cases h.typed with
  | tif _ hf ht he =>
    refine ⟨?_, ?_, ?_⟩
    · refine h.part hf ?_ ?_ ?_ <;> intro x hx <;>
        exact mem_append_left _ (mem_append_left _ hx)
    · refine h.part ht ?_ ?_ ?_ <;> intro x hx <;>
        exact mem_append_left _ (mem_append_right _ hx)
    · refine h.part he ?_ ?_ ?_ <;> intro x hx <;> exact mem_append_right _ hx

structure Follows (S : DataSig) (n : ℕ) (t u : Term) : Prop where
  syms : u.Below n
  tyFreevars : ∀ v ∈ u.tyFreevars, v ∈ t.tyFreevars
  holds : ∀ {D : Type} {I : Interp D} {τ : TyVal} {ρ : VSymbol → D}, I.Sound → I.Free S →
    I.TypedVal τ ρ → I.Holds τ ρ t → I.Holds τ ρ u

theorem follows_self (ht : t.Below n) : Follows S n t t := ⟨ht, fun _ hv => hv, fun _ _ _ h => h⟩

/-- A formula may be replaced by formulas that follow from it, for example by itself. -/
theorem destructSpec_follows (ht : Ready S one n t) (us : List Term)
    (h : ∀ u ∈ us, Follows S n t u) : DestructSpec S one t n n [us.map .axiomTerm] where
  le := le_refl n
  settled := by
    rw [forall_mem_singleton, forall_mem_map]
    exact fun u hu => ⟨(h u hu).syms, fun ho => eq_nil_iff_forall_not_mem.mpr fun v hv =>
      not_mem_nil (ht.closed ho ▸ (h u hu).tyFreevars v hv)⟩
  complete w hw := by
    refine ⟨_, mem_singleton_self _, w, .refl n w, ?_⟩
    rw [forall_mem_map]
    exact fun u hu _ p hp => (h u hu).holds w.sound w.free (w.typed p hp) (hw p hp)

theorem destructSpec_self (ht : Ready S one n t) : DestructSpec S one t n n [[.axiomTerm t]] :=
  destructSpec_follows ht [t] (forall_mem_singleton.mpr (follows_self ht.syms))

/-- Parts without type variables that are true for one type are true for all. -/
theorem SplitSpec.all (h : DestructSpec S True t n n' l) : DestructSpec S one t n n' l where
  le := h.le
  settled x hx y hy := by
    have hset := h.settled x hx y hy
    cases y with
    | axiomTerm u => exact ⟨hset.1, fun _ => hset.2 trivial⟩
    | param d | goalTerm u => exact hset
  complete w hw := by
    obtain ⟨p, hp⟩ := w.nonempty
    obtain ⟨x, hx, w', hagree, hacc⟩ := h.complete (w.atPoint hp) fun q hq =>
      Set.mem_singleton_iff.mp hq ▸ hw p hp
    refine ⟨x, hx, ⟨w'.I, w.points, w'.sound, w'.free,
      fun q hq => hagree.interp.typedVal.mpr (w.typed q hq), w.nonempty, w.single⟩,
      ⟨hagree.interp, rfl⟩, fun y hy => ?_⟩
    have hset := h.settled x hx y hy
    have hp' : p ∈ w'.points := hagree.points ▸ Set.mem_singleton p
    have hy := hacc y hy
    cases y with
    | axiomTerm u =>
      intro hclosed q _
      have hvalid := (valid_iff_holds w'.sound (hset.2 trivial) hclosed p.1 p.2).mpr
        (hy hclosed p hp')
      exact hvalid q.1 q.2 (hagree.interp.typedVal.mpr (w.typed q ‹_›))
    | param d => exact hy
    | goalTerm u => exact fun hall => hy fun q hq =>
        Set.mem_singleton_iff.mp (hagree.points ▸ hq) ▸ hall p hp

theorem World.AcceptsSome.mono {w : World D S one} {l' : Parallel} (h : w.AcceptsSome n' l)
    (hn : n ≤ n') (hl : ∀ x ∈ l, x ∈ l') : w.AcceptsSome n l' := by
  obtain ⟨x, hx, w', hagree, hacc⟩ := h
  exact ⟨x, hl x hx, w', hagree.mono hn, hacc⟩

namespace SplitSpec

variable {C C' : Condition S one} {l l' : Parallel}

theorem imp (h : SplitSpec C n n' l) (hC : ∀ {D : Type} (w : World D S one), C' D w → C D w) :
    SplitSpec C' n n' l where
  le := h.le
  settled := h.settled
  complete w hw := h.complete w (hC w hw)

theorem or (h : SplitSpec C n m l) (h' : SplitSpec C' m n' l') :
    SplitSpec (fun D w => C D w ∨ C' D w) n n' (l ++ l') where
  le := h.le.trans h'.le
  settled := by
    rw [forall_mem_append]
    exact ⟨fun x hx y hy => (h.settled x hx y hy).mono h'.le, h'.settled⟩
  complete := by
    rintro D w (hC | hC)
    · exact (h.complete w hC).mono (le_refl n) fun x => mem_append_left _
    · exact (h'.complete w hC).mono h.le fun x => mem_append_right _

theorem append (h : SplitSpec C n n' l) {hyps : List IsDestructed}
    (hhyps : ∀ y ∈ hyps, y.Settled one n)
    (hacc : ∀ {D : Type} (w : World D S one), C D w → ∀ y ∈ hyps, w.Accepts y) :
    SplitSpec C n n' (l.map (hyps ++ ·)) where
  le := h.le
  settled := by
    rw [forall_mem_map]
    intro x hx
    rw [forall_mem_append]
    exact ⟨fun y hy => (hhyps y hy).mono h.le, h.settled x hx⟩
  complete w hC := by
    obtain ⟨x, hx, w', hagree, hx'⟩ := h.complete w hC
    refine ⟨_, mem_map_of_mem hx, w', hagree, ?_⟩
    rw [forall_mem_append]
    exact ⟨fun y hy => (hacc w hC y hy).agree (hhyps y hy) hagree, hx'⟩

/-- The cases of a list, the results being collected one after the other. -/
theorem foldlM {β : Type} {f : ℕ × Parallel → β → Except Exn (ℕ × Parallel)} (n₀ : ℕ)
    {P : β → Condition S one} {bl : List β}
    (hf : ∀ b ∈ bl, ∀ {k k' : ℕ} {acc acc' : Parallel}, n₀ ≤ k → f (k, acc) b = .ok (k', acc') →
      ∃ l, acc' = acc ++ l ∧ SplitSpec (P b) k k' l) :
    ∀ {k k' : ℕ} {acc acc' : Parallel}, n₀ ≤ k → bl.foldlM f (k, acc) = .ok (k', acc') →
      ∃ l, acc' = acc ++ l ∧ SplitSpec (fun D w => ∃ b ∈ bl, P b D w) k k' l := by
  induction bl with
  | nil =>
    intro k k' acc acc' _ h
    cases foldlM_nil_eq_ok.mp h
    refine ⟨[], (append_nil acc).symm, le_refl k, by simp, ?_⟩
    rintro D w ⟨b, hb, _⟩
    cases hb
  | cons b bl ih =>
    intro k k' acc acc' hk h
    obtain ⟨⟨k₁, acc₁⟩, hb, h⟩ := foldlM_cons_eq_ok.mp h
    obtain ⟨l, rfl, hl⟩ := hf b mem_cons_self hk hb
    obtain ⟨l', rfl, hl'⟩ := ih (fun b hb => hf b (mem_cons_of_mem _ hb)) (hk.trans hl.le) h
    refine ⟨l ++ l', by rw [append_assoc], (hl.or hl').imp ?_⟩
    rintro D w ⟨c, hc, hP⟩
    rcases mem_cons.mp hc with rfl | hc
    · exact .inl hP
    · exact .inr ⟨c, hc, hP⟩

end SplitSpec

/-! ## Equations between values of constructors -/

theorem constrEquation_spec (h : constrEquation t = some (c1, c2)) (ht : WellTyped S [] t none) :
    ∃ a a1 a2 ty, t = tapp a psEqu [tapp a1 c1.1 c1.2 (some ty), tapp a2 c2.1 c2.2 (some ty)] none ∧
      0 < c1.1.lsConstr ∧ 0 < c2.1.lsConstr ∧
      WellTyped S [] (tapp a1 c1.1 c1.2 (some ty)) (some ty) ∧
      WellTyped S [] (tapp a2 c2.1 c2.2 (some ty)) (some ty) := by
  unfold constrEquation at h
  split at h
  · next a ls a1 cs1 l1 o1 a2 cs2 l2 o2 o =>
      split at h
      · next hcond =>
          cases h
          simp only [isConstructor, Bool.and_eq_true, decide_eq_true_eq] at hcond
          obtain ⟨⟨rfl, h1⟩, h2⟩ := hcond
          obtain rfl : o = none := ht.tTy_eq
          cases ht with
          | tapp _ σ _ _ _ htl =>
            have ht1 := htl 0 _ _ rfl rfl
            have ht2 := htl 1 _ _ rfl rfl
            obtain rfl := ht1.tTy_eq
            obtain rfl := ht2.tTy_eq
            exact ⟨a, a1, a2, _, rfl, Nat.pos_of_ne_zero h1, Nat.pos_of_ne_zero h2, ht1, ht2⟩
      · cases h
  · cases h

/-- The arguments of a constructor have the types that it expects. -/
theorem typed_constr_args (hI : I.Sound) (hρ : I.TypedVal τ ρ) {c : LSymbol}
    (h : WellTyped S [] (tapp a c tl (some ty)) (some ty)) (hc : 0 < c.lsConstr) :
    ∃ ts tys, ty = .tyapp ts tys ∧ tys.length = ts.tsArgs.length ∧ c ∈ S.constrs ts ∧
      I.Typed (paramMap ts (tys.map (Ty.vMap τ))) c.lsArgs
        (tl.map fun t => (I.eval τ ρ [] t).1) := by
  obtain ⟨ts, tys, rfl, hl, hmem, _, hargs⟩ := h.constr hc
  refine ⟨ts, tys, rfl, hl, hmem, (typed_args_iff hl hmem).mp ?_⟩
  rw [Typed, forall₂_map_right_iff]
  exact hargs.flip.imp fun ty t ht => (ht.eval_mem hI hρ .nil ty rfl).1

/-- Equal values of constructors have the same constructor and equal arguments. -/
theorem eq_of_constr_eq (hI : I.Sound) (hfree : I.Free S) (hρ : I.TypedVal τ ρ) {a1 a2 : List Attr}
    (h1 : WellTyped S [] (tapp a1 c1.1 c1.2 (some ty)) (some ty))
    (h2 : WellTyped S [] (tapp a2 c2.1 c2.2 (some ty)) (some ty)) (hc1 : 0 < c1.1.lsConstr)
    (hc2 : 0 < c2.1.lsConstr) (heq : (I.eval τ ρ [] (tapp a1 c1.1 c1.2 (some ty))).1 =
      (I.eval τ ρ [] (tapp a2 c2.1 c2.2 (some ty))).1) :
    c1.1 = c2.1 ∧ (c1.2.map fun t => (I.eval τ ρ [] t).1) =
      c2.2.map fun t => (I.eval τ ρ [] t).1 := by
  obtain ⟨ts, tys, rfl, hl, hmem1, hds1⟩ := typed_constr_args (τ := τ) hI hρ h1 hc1
  obtain ⟨ts', tys', hty, _, hmem2, hds2⟩ := typed_constr_args (τ := τ) hI hρ h2 hc2
  cases hty
  have hl' : (tys.map (Ty.vMap τ)).length = ts.tsArgs.length := by rw [length_map, hl]
  rw [eval_tapp_some, eval_tapp_some, Ty.vMap_tyapp] at heq
  by_cases hne : c1.1 = c2.1
  · refine ⟨hne, ?_⟩
    rw [← hne] at heq hds2
    exact hfree.inj hl' hmem1 hds1 hds2 heq
  · exact absurd heq (hfree.disjoint hl' hmem1 hmem2 hne hds1 hds2)

theorem below_of_mem {o : Option Ty} (h : (tapp a ls tl o).Below n) (hu : u ∈ tl) : u.Below n := by
  have hsyms : ∀ l : List Term, u ∈ l → ∀ s ∈ symsTerm u, s ∈ symsTermList l := by
    intro l hl s hs
    induction l with
    | nil => cases hl
    | cons t l ih =>
      rw [symsTermList, mem_append]
      rcases mem_cons.mp hl with rfl | hl
      · exact .inl hs
      · exact .inr (ih hl)
  exact fun s hs => h s (mem_append_right _ (mem_cons_of_mem _ (hsyms tl hu s hs)))

theorem tyFreevars_of_mem {o : Option Ty} (hu : u ∈ tl) {v : TvSymbol} (hv : v ∈ u.tyFreevars) :
    v ∈ (tapp a ls tl o).tyFreevars :=
  mem_append_right _ (mem_tyFreevarsList.mpr ⟨u, hu, hv⟩)

theorem below_equ (hequ : (Sym.ls psEqu).Below n) (ht : t.Below n) (hu : u.Below n) :
    (tapp [] psEqu [t, u] none).Below n := by
  simp only [Term.Below, symsTerm, Option.elim_none, nil_append, symsTermList,
    append_nil, forall_mem_cons, forall_mem_append]
  exact ⟨hequ, ht, hu⟩

theorem settled_equ (hequ : (Sym.ls psEqu).Below n) (ht : t.Settled n) (hu : u.Settled n) :
    (tapp [] psEqu [t, u] none).Settled n :=
  ⟨below_equ hequ ht.1 hu.1, by simp [tyFreevars, tyFreevarsList, ht.2, hu.2]⟩

theorem argEquations_spec {l1 l2 : List Term} {l : List IsDestructed}
    (h : argEquations l1 l2 = .ok l) :
    ∃ us : List Term, l = us.map .axiomTerm ∧
      ∀ u ∈ us, ∃ u1 ∈ l1, ∃ u2 ∈ l2, u = tapp [] psEqu [u1, u2] none ∧
        ∀ {D : Type} {I : Interp D} {τ : TyVal} {ρ : VSymbol → D}, I.Sound →
          ((l1.map fun t => (I.eval τ ρ [] t).1) = l2.map fun t => (I.eval τ ρ [] t).1) →
          I.Holds τ ρ u := by
  induction l1 generalizing l2 l with
  | nil =>
    cases l2 with
    | nil =>
      cases h
      exact ⟨[], rfl, by simp⟩
    | cons => cases h
  | cons x1 l1 ih =>
    cases l2 with
    | nil => cases h
    | cons x2 l2 =>
      obtain ⟨f, hf, l', hl', h⟩ := bind₂_eq_ok.mp h
      cases h
      obtain ⟨s, _, hf⟩ := bind_eq_ok.mp hf
      obtain rfl : f = tapp [] psEqu [x1, x2] none := (Except.ok.inj hf).symm
      obtain ⟨us, rfl, hus⟩ := ih hl'
      refine ⟨_ :: us, rfl, forall_mem_cons.mpr ⟨⟨x1, mem_cons_self, x2, mem_cons_self, rfl, ?_⟩,
        fun u hu => ?_⟩⟩
      · intro D I τ ρ hI heq
        rw [map_cons, map_cons, cons.injEq] at heq
        exact (hI.equ _ _).mpr heq.1
      · obtain ⟨u1, hu1, u2, hu2, heq, hholds⟩ := hus u hu
        refine ⟨u1, mem_cons_of_mem _ hu1, u2, mem_cons_of_mem _ hu2, heq, fun hI hvals => ?_⟩
        rw [map_cons, map_cons, cons.injEq] at hvals
        exact hholds hI hvals.2

theorem destructEquation_spec (h : constrEquation t = some (c1, c2)) (ht : Ready S one n t) :
    DestructSpec S one t n n (destructEquation t c1 c2) := by
  obtain ⟨a, a1, a2, ty, heq, hc1, hc2, h1, h2⟩ := constrEquation_spec h ht.typed
  have hargs : ∀ {D : Type} {I : Interp D} {τ : TyVal} {ρ : VSymbol → D}, I.Sound → I.Free S →
      I.TypedVal τ ρ → I.Holds τ ρ t → c1.1 = c2.1 ∧
        (c1.2.map fun t => (I.eval τ ρ [] t).1) = c2.2.map fun t => (I.eval τ ρ [] t).1 := by
    intro D I τ ρ hI hfree hρ hholds
    refine eq_of_constr_eq hI hfree hρ h1 h2 hc1 hc2 ?_
    rw [heq, Holds, eval_tapp_none] at hholds
    exact (hI.equ _ _).mp hholds
  unfold destructEquation
  split
  · split
    · next l hl =>
        obtain ⟨us, rfl, hus⟩ := argEquations_spec hl
        refine destructSpec_follows ht us fun u hu => ?_
        obtain ⟨u1, hu1, u2, hu2, rfl, hholds⟩ := hus u hu
        have hsyms := ht.syms
        rw [heq] at hsyms
        refine ⟨below_equ ht.equ (below_of_mem (below_of_mem hsyms mem_cons_self) hu1)
          (below_of_mem (below_of_mem hsyms (mem_cons_of_mem _ mem_cons_self)) hu2),
          fun v hv => ?_, fun hI hfree hρ ht => hholds hI (hargs hI hfree hρ ht).2⟩
        rw [heq]
        simp only [tyFreevars, tyFreevarsList, Option.elim_none, nil_append, append_nil,
          mem_append] at hv
        rcases hv with hv | hv
        · exact tyFreevars_of_mem mem_cons_self (tyFreevars_of_mem hu1 hv)
        · exact tyFreevars_of_mem (mem_cons_of_mem _ mem_cons_self) (tyFreevars_of_mem hu2 hv)
    · exact destructSpec_self ht
  · next hne =>
      have hfalse : Follows S n t (tfalse []) :=
        ⟨by simp [Term.Below, symsTerm], by simp [tyFreevars],
          fun hI hfree hρ hholds => absurd (hargs hI hfree hρ hholds).1 hne⟩
      exact destructSpec_follows ht [_] (forall_mem_singleton.mpr hfalse)

/-! ## Existential formulas -/

theorem onTypeMismatch_eq_ok {α : Type} {msg : String} {r : Except Exn α} {a : α}
    (h : onTypeMismatch msg r = .ok a) : r = .ok a := by
  unfold onTypeMismatch at h
  split at h
  · cases h
  · exact h

def constFor (x : VSymbol) (ls : LSymbol) (u : VSymbol) : Option Term :=
  if u = x then some (tapp [] ls [] (some x.vsTy)) else none

theorem openExists_spec {te : Term} (h : openExists n trl te vsl = .ok (ls, newT)) :
    ∃ x tl, vsl = x :: tl ∧ ls = constantOf n x.vsTy ∧
      newT = tQuantClose .texists tl trl (tSubst (constFor x ls) te) := by
  cases vsl with
  | nil => cases h
  | cons x tl =>
    obtain ⟨tx, htx, partT, hpart, h⟩ := bind₂_eq_ok.mp h
    obtain ⟨_, _, hpart⟩ := bind_eq_ok.mp (onTypeMismatch_eq_ok hpart)
    cases hpart
    rw [tApp_eq htx] at h
    refine ⟨x, tl, rfl, ?_⟩
    split at h
    · next hnil =>
        obtain ⟨g, hg, h⟩ := bind_eq_ok.mp h
        cases h
        refine ⟨rfl, ?_⟩
        rw [(tProp_eq_ok.mp hg).2, tQuantClose, if_pos hnil]
        rfl
    · cases h
      exact ⟨rfl, rfl⟩

theorem holds_openExists {x : VSymbol} {tl : List VSymbol} {d : D} {ds : List D}
    (hnodup : (x :: tl).Nodup) (hf : ∀ v ∈ f.freeVars, v ∉ x :: tl)
    (hd : ∀ ty es, I.fn ls ty es = d) (hds : I.Typed τ (tl.map VSymbol.vsTy) ds)
    (h : (I.eval τ ρ (d :: ds) f).2) :
    I.Holds τ ρ (tQuantClose .texists tl trl (tSubst (constFor x ls) (openVars (x :: tl) f))) := by
  rw [nodup_cons] at hnodup
  rw [Holds, eval_exists_close]
  refine ⟨ds, hds, ?_⟩
  rw [eval_tSubst, eval_openVars]
  · generalize hη : substVal I τ (assign ρ (tl.zip ds)) [] (constFor x ls) = η
    have hx : η x = d := by
      rw [← hη]
      simp [substVal, constFor, eval_tapp_some, hd]
    have hother : ∀ v, v ≠ x → η v = assign ρ (tl.zip ds) v := by
      intro v hv
      rw [← hη]
      simp [substVal, constFor, hv]
    have htl : tl.map η = ds := by
      have hlen : tl.length = ds.length := by simpa using Typed.length_eq hds
      rw [← map_assign_zip hnodup.2 hlen ρ]
      refine map_congr_left fun v hv => hother v ?_
      rintro rfl
      exact hnodup.1 hv
    rw [map_cons, hx, htl, append_nil, @eval_congr _ _ _ _ ρ f (d :: ds)]
    · exact h
    · intro v hv
      have hnot := hf v hv
      rw [mem_cons, not_or] at hnot
      rw [hother v hnot.1, assign_of_not_mem]
      intro hmem
      obtain ⟨y, hy, rfl⟩ := mem_map.mp hmem
      exact hnot.2 (of_mem_zip hy).1
  · intro v u hu
    unfold constFor at hu
    split at hu
    · cases hu
      rw [eval_tapp_some]
    · cases hu

theorem NewConst.typed (h : NewConst m n' ty ls) :
    WellTyped S [] (tapp [] ls [] (some ty)) (some ty) := by
  refine .tapp [] .tyvar (.inl h.constr) ?_ (by rw [h.args]; rfl) (by simp)
  rw [h.value, Option.map_some, Ty.vMap_tyvar_eq_self]

theorem NewConst.made (h : NewConst m n' ty ls) : (tapp [] ls [] (some ty)).Made n' :=
  ⟨settled_tapp h.upper h.closed (by simp), by simp [freeVars, freeVarsList]⟩

theorem constFor_spec {x v : VSymbol} (h : constFor x ls v = some u) :
    v = x ∧ u = tapp [] ls [] (some v.vsTy) := by
  unfold constFor at h
  split at h
  · next hv =>
      cases h
      exact ⟨hv, by rw [hv]⟩
  · cases h

theorem Ready.quant {q : Quant} (ht : Ready S True n (tquant a q vl trl f))
    (hvsl : vsl = freshOf n (vl.map VSymbol.vsTy)) :
    (∀ v ∈ vsl, v.Made (n + vl.length)) ∧
      (WellTyped S [] (openVars vsl f) none ∧ (openVars vsl f).Made (n + vl.length)) ∧
      ∀ tl ∈ trl, ∀ t ∈ tl, WellTyped S [] (openVars vsl t) t.tTy ∧
        (openVars vsl t).Made (n + vl.length) := by
  have htys : vsl.map VSymbol.vsTy = vl.map VSymbol.vsTy := hvsl ▸ map_vsTy_freshOf n _
  obtain ⟨⟨hsyms, hclosed⟩, hvars⟩ := ht.made
  simp only [Term.Below, symsTerm, forall_mem_append] at hsyms
  rw [tyFreevars, append_eq_nil_iff, append_eq_nil_iff] at hclosed
  simp only [freeVars, forall_mem_append] at hvars
  have hle : n ≤ n + vl.length := Nat.le_add_right _ _
  have hvl : ∀ v ∈ vsl, v.Made (n + vl.length) := by
    intro v hv
    constructor
    · have := (mem_freshOf (hvsl ▸ hv)).2
      rwa [length_map] at this
    · have hmem : v.vsTy ∈ vl.map VSymbol.vsTy := htys ▸ mem_map_of_mem hv
      obtain ⟨u, hu, heq⟩ := mem_map.mp hmem
      rw [← heq]
      exact flatMap_eq_nil_iff.mp hclosed.1.1 u hu
  cases ht.typed with
  | tquant _ _ htr hf =>
    rw [← htys] at htr hf
    have hmade : f.Made n := ⟨⟨hsyms.2, hclosed.2⟩, hvars.2⟩
    refine ⟨hvl, ⟨hf.openVars vsl, (hmade.mono hle).openVars hvl⟩, ?_⟩
    intro tl htl t ht'
    have hmade : t.Made n := by
      refine .of_forall ?_ ?_ ?_
      · exact fun s hs => hsyms.1.2 s (mem_symsTermTriggers.mpr ⟨tl, htl, t, ht', hs⟩)
      · intro x hx
        have := mem_tyFreevarsTriggers.mpr ⟨tl, htl, t, ht', hx⟩
        rw [hclosed.1.2] at this
        cases this
      · exact fun v hv => hvars.1 v (mem_freeVarsTriggers.mpr ⟨tl, htl, t, ht', hv⟩)
    exact ⟨(htr tl htl t ht').openVars vsl, (hmade.mono hle).openVars hvl⟩

/-- The formula that is left when a constant has taken the place of the first variable. -/
theorem Ready.openExists (ht : Ready S True n (tquant a .texists vl trl f))
    (hvsl : vsl = freshOf n (vl.map VSymbol.vsTy))
    (h : openExists (n + vl.length) (trl.map fun tl => tl.map (openVars vsl)) (openVars vsl f) vsl =
      .ok (ls, newT)) : Ready S True (n + vl.length + 1) newT := by
  obtain ⟨hvl, ⟨hf, hfmade⟩, htrl⟩ := ht.quant hvsl
  obtain ⟨x, tl, hcons, rfl, rfl⟩ := openExists_spec h
  have hle : n + vl.length ≤ n + vl.length + 1 := Nat.le_succ _
  have hnew := newConst_constantOf (hvl x (hcons ▸ mem_cons_self)).2 (n + vl.length)
  have hn : n ≤ n + vl.length + 1 := by omega
  refine Ready.of_made (ht.sig.mono hn) (ht.equ.mono hn) (.tQuantClose _ _ ?_ (hf.tSubst ?_))
    (((hfmade.mono hle).tSubst ?_).tQuantClose ?_ ?_)
  · rw [forall_mem_map]
    intro tl' htl'
    rw [forall_mem_map]
    intro t ht'
    have := (htrl tl' htl' t ht').1
    rwa [this.tTy_eq]
  · intro v u hu
    obtain ⟨rfl, rfl⟩ := constFor_spec hu
    exact hnew.typed
  · intro v u hu
    obtain ⟨rfl, rfl⟩ := constFor_spec hu
    exact hnew.made
  · rw [forall_mem_map]
    intro tl' htl'
    rw [forall_mem_map]
    exact fun t ht' => (htrl tl' htl' t ht').2.mono hle
  · intro v hv
    obtain ⟨htag, hty⟩ := hvl v (hcons ▸ mem_cons_of_mem _ hv)
    exact ⟨htag.trans_le hle, hty⟩

section Cases

variable {recursive toplevel : Bool} {rec : ℕ → Bool → Term → Except Exn (ℕ × Parallel)}
  (hrec : RecSpec S one recursive rec)

include hrec

theorem destructFmlaException_spec (ht : Ready S one n t) (htop : toplevel = true → Covered S t)
    (hcases : ¬ one → recursive = true → CasesClosed recursive toplevel t)
    (h : destructFmlaException recursive rec n toplevel t = .ok (n', l)) :
    DestructSpec S one t n n' l := by
  unfold destructFmlaException orAxiom at h
  split at h
  · next hrecursive =>
      split at h
      · cases h
      · cases h
        exact destructSpec_self ht
      · next r hr =>
          cases h
          exact hrec ht htop (fun ho => hcases ho hrecursive) hr
  · cases h
    exact destructSpec_self ht

/-! ## Connectives -/

theorem destructAnd_spec (ht : Ready S one n (tbinop a .tand t1 t2))
    (hcases : ¬ one → CasesClosed recursive toplevel (tbinop a .tand t1 t2))
    (h : destructAnd recursive rec n t1 t2 = .ok (n', l)) :
    DestructSpec S one (tbinop a .tand t1 t2) n n' l := by
  obtain ⟨h1, h2⟩ := ht.binop
  obtain ⟨⟨m, l1⟩, hl1, ⟨m', l2⟩, hl2, h⟩ := bind₂_eq_ok.mp h
  cases h
  simp only [CasesClosed] at hcases
  have hspec1 := destructFmlaException_spec hrec h1 (by simp) (fun ho hr => (hcases ho hr).1) hl1
  have hspec2 := destructFmlaException_spec hrec (h2.mono hspec1.le) (by simp)
    (fun ho hr => (hcases ho hr).2) hl2
  refine ⟨hspec1.le.trans hspec2.le, ?_, ?_⟩
  · intro x hx
    obtain ⟨seq1, hseq1, hx⟩ := mem_flatMap.mp hx
    obtain ⟨seq2, hseq2, rfl⟩ := mem_map.mp hx
    rw [forall_mem_append]
    exact ⟨fun y hy => (hspec1.settled seq1 hseq1 y hy).mono hspec2.le, hspec2.settled seq2 hseq2⟩
  · intro D w hw
    have hboth : ∀ p ∈ w.points, w.I.Holds p.1 p.2 t1 ∧ w.I.Holds p.1 p.2 t2 := by
      intro p hp
      have := hw p hp
      rwa [Holds, eval_tand] at this
    obtain ⟨seq1, hseq1, w₁, hw₁, hacc₁⟩ := hspec1.complete w fun p hp => (hboth p hp).1
    obtain ⟨seq2, hseq2, w₂, hw₂, hacc₂⟩ := hspec2.complete w₁
      ((hw₁.holds h2.syms).mpr fun p hp => (hboth p hp).2)
    refine ⟨seq1 ++ seq2, mem_flatMap.mpr ⟨seq1, hseq1, mem_map_of_mem hseq2⟩, w₂,
      hw₁.trans hw₂ hspec1.le, ?_⟩
    rw [forall_mem_append]
    exact ⟨fun y hy => (hacc₁ y hy).agree (hspec1.settled seq1 hseq1 y hy) hw₂, hacc₂⟩

/-- A premise is not true everywhere, or the conclusion is. -/
theorem destructImplies_spec (ht : Ready S one n (tbinop a .timplies t1 t2))
    (hcov : Covered S (tbinop a .timplies t1 t2))
    (hcases : ¬ one → CasesClosed recursive true (tbinop a .timplies t1 t2))
    (h : destructImplies recursive rec n t1 t2 = .ok (n', l)) :
    DestructSpec S one (tbinop a .timplies t1 t2) n n' l := by
  obtain ⟨h1, h2⟩ := ht.binop
  obtain ⟨⟨m, l2⟩, hl2, h⟩ := bind_eq_ok.mp h
  cases h
  simp only [CasesClosed] at hcases
  have hcov2 : Covered S t2 := fun s hs => hcov s (mem_append_right _ hs)
  have hspec := destructFmlaException_spec hrec h2 (fun _ => hcov2) (fun ho => hcases ho trivial) hl2
  refine ⟨hspec.le, ?_, ?_⟩
  · rw [forall_mem_cons]
    exact ⟨forall_mem_singleton.mpr (h1.syms.mono hspec.le), hspec.settled⟩
  · intro D w hw
    by_cases hprem : w.Holds t1
    · refine (hspec.complete w fun p hp => ?_).mono (le_refl n) fun x => mem_cons_of_mem _
      have := hw p hp
      rw [Holds, eval_timplies] at this
      exact this (hprem p hp)
    · exact ⟨_, mem_cons_self, w, .refl n w, forall_mem_singleton.mpr hprem⟩

/-- A negation is an implication. -/
theorem destructNot_spec (ht : Ready S one n (tnot a t1))
    (hcov : toplevel = true → Covered S (tnot a t1))
    (h : (do destructFmlaException recursive rec n toplevel (← tImplies t1 (tfalse []))) =
      Except.ok (n', l)) : DestructSpec S one (tnot a t1) n n' l := by
  obtain ⟨f, hf, h⟩ := bind_eq_ok.mp h
  obtain rfl := tBinary_eq hf
  have hready : Ready S one n (tbinop [] .timplies t1 (tfalse [])) := by
    cases ht.typed with
    | tnot _ htyped =>
      refine ht.part (.tbinop [] _ htyped (.tfalse [])) ?_ ?_ ?_ <;> intro x hx <;>
        exact (mem_append.mp hx).resolve_right not_mem_nil
  have hcov' : toplevel = true → Covered S (tbinop [] .timplies t1 (tfalse [])) := by
    intro htop s hs
    exact hcov htop s ((mem_append.mp hs).resolve_right not_mem_nil)
  refine (destructFmlaException_spec hrec hready hcov' (fun _ _ => by simp [CasesClosed]) h).imp ?_
  intro D w hw p hp
  have := hw p hp
  rwa [Holds, eval_tnot] at this

end Cases

/-! ## Cases -/

section OneType

variable {recursive : Bool} {rec : ℕ → Bool → Term → Except Exn (ℕ × Parallel)}
  (hrec : RecSpec S True recursive rec)

include hrec

theorem destructOr_spec (ht : Ready S True n (tbinop a .tor t1 t2))
    (h : destructOr recursive rec n t1 t2 = .ok (n', l)) :
    DestructSpec S True (tbinop a .tor t1 t2) n n' l := by
  obtain ⟨h1, h2⟩ := ht.binop
  obtain ⟨⟨m, l1⟩, hl1, ⟨m', l2⟩, hl2, h⟩ := bind₂_eq_ok.mp h
  cases h
  have hspec1 := destructFmlaException_spec hrec h1 (by simp) (by simp) hl1
  have hspec2 := destructFmlaException_spec hrec (h2.mono hspec1.le) (by simp) (by simp) hl2
  refine (hspec1.or hspec2).imp fun w hw => ?_
  obtain ⟨τ, ρ, hp, -⟩ := w.exists_point
  simp only [World.holds_iff hp] at hw ⊢
  rwa [Holds, eval_tor] at hw

theorem destructIf_spec {t3 : Term} (ht : Ready S True n (tif a t1 t2 t3))
    (h : destructIf recursive rec n t1 t2 t3 = .ok (n', l)) :
    DestructSpec S True (tif a t1 t2 t3) n n' l := by
  obtain ⟨h1, h2, h3⟩ := ht.ite
  obtain ⟨⟨m, l2⟩, hl2, ⟨m', l3⟩, hl3, h⟩ := bind₂_eq_ok.mp h
  obtain ⟨t1', ht1', h⟩ := bind_eq_ok.mp h
  cases h
  obtain rfl : t1' = tnot [] t1 := by
    obtain ⟨f, hf, hnot⟩ := bind_eq_ok.mp ht1'
    rw [← (tProp_eq_ok.mp hf).2]
    exact (Except.ok.inj hnot).symm
  have hspec2 := destructFmlaException_spec hrec h2 (by simp) (by simp) hl2
  have hspec3 := destructFmlaException_spec hrec (h3.mono hspec2.le) (by simp) (by simp) hl3
  have hpos : SplitSpec (fun D (w : World D S True) => w.Holds t2 ∧ w.Holds t1) n m
      (l2.map ([.axiomTerm t1] ++ ·)) :=
    (hspec2.imp fun _ h => h.1).append (forall_mem_singleton.mpr ⟨h1.syms, h1.closed⟩)
      fun _ h => forall_mem_singleton.mpr fun _ => h.2
  have hneg : SplitSpec (fun D (w : World D S True) => w.Holds t3 ∧ w.Holds (tnot [] t1)) m n'
      (l3.map ([.axiomTerm (tnot [] t1)] ++ ·)) :=
    (hspec3.imp fun _ h => h.1).append
      (forall_mem_singleton.mpr ⟨h1.syms.mono hspec2.le, h1.closed⟩)
      fun _ h => forall_mem_singleton.mpr fun _ => h.2
  refine (hpos.or hneg).imp fun w hw => ?_
  obtain ⟨τ, ρ, hp, -⟩ := w.exists_point
  simp only [World.holds_iff hp] at hw ⊢
  rw [Holds, eval_tif] at hw
  by_cases hcond : (w.I.eval τ ρ [] t1).2
  · rw [if_pos hcond] at hw
    exact .inl ⟨hw, hcond⟩
  · rw [if_neg hcond] at hw
    exact .inr ⟨hw, hcond⟩

theorem destructExists_spec (ht : Ready S True n (tquant a .texists vl trl f))
    (h : destructExists recursive rec n vl trl f = .ok (n', l)) :
    DestructSpec S True (tquant a .texists vl trl f) n n' l := by
  obtain ⟨⟨ls, newT⟩, hopen, ⟨m, l'⟩, hl', h⟩ := bind₂_eq_ok.mp h
  cases h
  have hready := ht.openExists rfl hopen
  have hspec := destructFmlaException_spec hrec hready (by simp) (by simp) hl'
  refine ⟨by have := hspec.le; omega, ?_, ?_⟩
  · rw [forall_mem_map]
    intro x hx
    refine forall_mem_cons.mpr ⟨?_, hspec.settled x hx⟩
    exact settled_dparam n' ls
  · intro D w hw
    obtain ⟨τ, ρ, hp, -⟩ := w.exists_point
    rw [World.holds_iff hp] at hw
    have hvl := (ht.quant rfl).1
    have htys := map_vsTy_freshOf n (vl.map VSymbol.vsTy)
    have hnodup := nodup_freshOf n (vl.map VSymbol.vsTy)
    have htags : ∀ v ∈ freshOf n (vl.map VSymbol.vsTy), n ≤ v.vsName.idTag :=
      fun v hv => (mem_freshOf hv).1
    obtain ⟨x, tl, hvsl, rfl, rfl⟩ := openExists_spec hopen
    rw [Holds, eval_exists] at hw
    rw [hvsl] at htys hnodup htags hvl hspec
    rw [← htys] at hw
    obtain ⟨ds, hds, hf⟩ := hw
    cases hds with
    | @cons _ d _ ds hd hds =>
      -- the witness of the first variable is the value of the constant
      have hag : AgreeBelow n w.I (w.I.withConst (constantOf (n + vl.length) x.vsTy) d) :=
        agreeBelow_withConst (Nat.le_add_right n vl.length) d
      have hsound := w.sound.withConst (c := constantOf (n + vl.length) x.vsTy) (τ := τ) rfl
        (hvl x mem_cons_self).2 hd
      have hf₁ : ((w.I.withConst (constantOf (n + vl.length) x.vsTy) d).eval τ ρ (d :: ds) f).2 := by
        rw [append_nil] at hf
        rwa [hag.eval]
        exact fun s hs => ht.syms s (mem_append_right _ hs)
      have hvars : ∀ v ∈ f.freeVars, v ∉ x :: tl := by
        intro v hv hmem
        have hlt := ht.vars v (mem_append_right _ hv)
        exact absurd (htags v hmem) (Nat.not_le.mpr hlt)
      have hp₁ : (w.change hag hsound ht.sig).points = {(τ, ρ)} := hp
      obtain ⟨y, hy, w', hw', hacc⟩ := hspec.complete (w.change hag hsound ht.sig)
        ((World.holds_iff hp₁).mpr (holds_openExists hnodup hvars
          (fun _ _ => withConst_fn_self _ _ _ _) (hag.typed.mpr hds) hf₁))
      have hw₁ : w.Agree n (w.change hag hsound ht.sig) := ⟨hag, rfl⟩
      refine ⟨_, mem_map_of_mem hy, w', hw₁.trans hw' (by omega), ?_⟩
      exact forall_mem_cons.mpr ⟨trivial, hacc⟩

end OneType

end Why3
