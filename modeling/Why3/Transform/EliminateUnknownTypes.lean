import Why3.Transform.Destruct
import Why3.Transform.Removal

/-!
# Removal of the types that a prover does not know

The transformation of `src/transform/eliminate_unknown_types.ml` removes the types that are not
to be kept, with the symbols, the definitions and the propositions that mention them. The
symbols of removed parameters and definitions are recorded, and looked for at the heads of the
immediate subterms of a definition or a proposition.
-/

namespace Why3

open Lib Term List

def Term.immediate : Term → List Term
  | tvar _ _ | tbnd _ _ _ | tconst _ _ _ | ttrue _ | tfalse _ => []
  | tapp _ _ tl _ => tl
  | tif _ f t e => [f, t, e]
  | tlet _ t _ e => [t, e]
  | tcase _ t bl => t :: bl.map Prod.snd
  | teps _ _ f => [f]
  | tquant _ _ _ trl f => f :: trl.flatten
  | tbinop _ _ f g => [f, g]
  | tnot _ f => [f]

namespace EliminateUnknownTypes

variable (keep : TySym Ty → Bool)

def tySAll (ty : Ty) : Bool := ty.syms.all fun ts => keep ts.embed

def keepLs (ls : LSymbol) : Bool := ls.lsArgs.all (tySAll keep) && ls.lsValue.all (tySAll keep)

def keepSym : Sym → Bool
  | .ts ts => keep ts
  | _ => true

def keepTerm (t : Term) : Bool := (symsTerm t).all (keepSym keep) && t.tTy.all (tySAll keep)

def isRemoved (alreadyRemoved : List LSymbol) (t : Term) : Bool :=
  t.immediate.any fun
    | tapp _ ls _ _ => decide (ls ∈ alreadyRemoved)
    | _ => false

def removeTermsDecl (alreadyRemoved : List LSymbol) (d : Decl) :
    Except Exn (List LSymbol × List Decl) :=
  match d with
  | .dtype ts => .ok (alreadyRemoved, if keep ts then [d] else [])
  | .ddata l =>
    .ok (alreadyRemoved, if l.any fun td => !keep td.1.embed then [] else [d])
  | .dparam l =>
    if keepLs keep l then .ok (alreadyRemoved, [d]) else .ok (l :: alreadyRemoved, [])
  | .dlogic l => do
    let removed ← existsM (fun ld =>
      if !keepLs keep ld.1 then .ok true
      else do
        let t ← lsDefnBody ld.2
        .ok (!keepTerm keep t || isRemoved alreadyRemoved t)) l
    if removed then .ok (l.foldl (fun acc ld => ld.1 :: acc) alreadyRemoved, [])
    else .ok (alreadyRemoved, [d])
  | .dprop .pgoal pr t =>
    if !keepTerm keep t || isRemoved alreadyRemoved t then do
      .ok (alreadyRemoved, [← createPropDecl .pgoal pr (tfalse [])])
    else .ok (alreadyRemoved, [d])
  | .dprop _ _ t =>
    .ok (alreadyRemoved, if !keepTerm keep t || isRemoved alreadyRemoved t then [] else [d])
  | .dind _ _ => .ok (alreadyRemoved, [d])

def removeTerms (task : Task) : Except Exn Task := transDecl (removeTermsDecl keep) [] task

/-! ## Which dependencies are caught -/

def NotKept (s : Sym) : Prop := keepSym keep s = false

def IsLogic : Decl → Prop
  | .dparam _ | .dlogic _ => True
  | _ => False

/-- The symbol is introduced by a parameter or a definition, which depends on a type that is
not kept. -/
def Recorded (dl : List Decl) (ls : LSymbol) : Prop :=
  ∃ d ∈ dl, IsLogic d ∧ Sym.ls ls ∈ declNews d ∧ Depends (NotKept keep) dl d

/-- The term has a type that is not kept, or such a symbol of another declaration is applied
right below its top. -/
def TermCaught (dl : List Decl) (d : Decl) (t : Term) : Prop :=
  (∃ s ∈ symsTerm t, NotKept keep s) ∨
    ∃ a ls tl ty, tapp a ls tl ty ∈ t.immediate ∧ Sym.ls ls ∉ declNews d ∧ Recorded keep dl ls

/-- The dependencies on types that are not kept which show where they are looked for. -/
def Caught (dl : List Decl) (d : Decl) : Prop :=
  match d with
  | .dtype ts => keep ts = false
  | .ddata tdl => ∃ td ∈ tdl, keep td.1.embed = false
  | .dparam ls => ∃ s ∈ symsLs ls, NotKept keep s
  | .dlogic ldl => ∃ ld ∈ ldl, (∃ s ∈ symsLs ld.1, NotKept keep s) ∨
      ∃ t, lsDefnBody ld.2 = .ok t ∧ TermCaught keep dl d t
  | .dind _ _ => False
  | .dprop _ _ f => TermCaught keep dl d f

variable {keep} {dl : List Decl}
variable {d : Decl} {t : Term}
variable {ls : LSymbol} {removed : List LSymbol} {l : List LogicDecl} {syms : List Sym}

theorem tySAll_eq_false {ty : Ty} : tySAll keep ty = false ↔ ∃ s ∈ symsTy ty, NotKept keep s := by
  simp [tySAll, symsTy, NotKept, keepSym]

theorem keepLs_eq_false : keepLs keep ls = false ↔ ∃ s ∈ symsLs ls, NotKept keep s := by
  have hargs : ls.lsArgs.all (tySAll keep) = false ↔
      ∃ s ∈ ls.lsArgs.flatMap symsTy, NotKept keep s := by
    rw [all_eq_false]
    simp only [Bool.not_eq_true, tySAll_eq_false, mem_flatMap]
    exact ⟨fun ⟨ty, hty, s, hs, h⟩ => ⟨s, ⟨ty, hty, hs⟩, h⟩,
      fun ⟨s, ⟨ty, hty, hs⟩, h⟩ => ⟨ty, hty, s, hs, h⟩⟩
  have hvalue : ls.lsValue.all (tySAll keep) = false ↔
      ∃ s ∈ ls.lsValue.elim [] symsTy, NotKept keep s := by
    cases ls.lsValue with
    | none => simp
    | some ty => exact tySAll_eq_false
  rw [keepLs, Bool.and_eq_false_iff, hargs, hvalue, symsLs]
  simp only [mem_append, or_and_right, exists_or]

theorem keepTerm_eq_false : keepTerm keep t = false ↔ ∃ s ∈ symsTerm t, NotKept keep s := by
  have hterm : (symsTerm t).all (keepSym keep) = false ↔ ∃ s ∈ symsTerm t, NotKept keep s := by
    simp [NotKept]
  rw [keepTerm, Bool.and_eq_false_iff, hterm, or_iff_left_iff_imp]
  intro h
  -- the type of a term is among those that occur in it
  cases hty : t.tTy with
  | none => simp [hty] at h
  | some ty =>
    rw [hty] at h
    obtain ⟨s, hs, hnot⟩ := tySAll_eq_false.mp h
    exact ⟨s, symsTy_tTy hty hs, hnot⟩

theorem isRemoved_eq_true : isRemoved removed t = true ↔
    ∃ a ls tl ty, tapp a ls tl ty ∈ t.immediate ∧ ls ∈ removed := by
  rw [isRemoved, any_eq_true]
  constructor
  · rintro ⟨u, hu, h⟩
    split at h
    · exact ⟨_, _, _, _, hu, of_decide_eq_true h⟩
    · cases h
  · rintro ⟨a, ls, tl, ty, hu, h⟩
    exact ⟨_, hu, decide_eq_true h⟩

theorem symsTerm_immediate {u : Term} (hu : u ∈ t.immediate) {s : Sym} (hs : s ∈ symsTerm u) :
    s ∈ symsTerm t := by
  cases t with
  | tvar | tbnd | tconst | ttrue | tfalse => cases hu
  | tapp a ls tl ty =>
    exact mem_append_right _ (mem_cons_of_mem _ (mem_symsTermList.mpr ⟨u, hu, hs⟩))
  | tcase a t bl =>
    rw [Term.immediate, mem_cons, mem_map] at hu
    rw [symsTerm, mem_append, mem_symsTermBranches]
    rcases hu with rfl | ⟨b, hb, rfl⟩
    · exact .inl hs
    · exact .inr ⟨b, hb, .inr hs⟩
  | tquant a q vl trl f =>
    rw [Term.immediate, mem_cons, mem_flatten] at hu
    rw [symsTerm, mem_append, mem_append, mem_symsTermTriggers]
    rcases hu with rfl | ⟨tl, htl, hu⟩
    · exact .inr hs
    · exact .inl (.inr ⟨tl, htl, u, hu, hs⟩)
  | tif a f t e =>
    simp only [Term.immediate, mem_cons, not_mem_nil, or_false] at hu
    rcases hu with rfl | rfl | rfl <;> simp [symsTerm, hs]
  | tlet a t v e | tbinop a op f g =>
    simp only [Term.immediate, mem_cons, not_mem_nil, or_false] at hu
    rcases hu with rfl | rfl <;> simp [symsTerm, hs]
  | teps a v f =>
    obtain rfl := mem_singleton.mp hu
    exact mem_append_right _ hs
  | tnot a f =>
    obtain rfl := mem_singleton.mp hu
    exact hs

/-! ## The run -/

/-- The symbols recorded are those of the parameters and definitions that were removed. -/
def Tracks (keep : TySym Ty → Bool) (dl pre : List Decl) (removed : List LSymbol) : Prop :=
  ∀ ls, ls ∈ removed ↔ ∃ d ∈ pre, IsLogic d ∧ Sym.ls ls ∈ declNews d ∧ Depends (NotKept keep) dl d

section Step

variable {pre : List Decl} {d : Decl} {removed : List LSymbol} (honce : DeclaredOnce dl)
  (hpre : ∀ d' ∈ pre, d' ∈ dl) (hscope : InScope pre d) (htracks : Tracks keep dl pre removed)

include honce hpre hscope htracks

theorem termCaught_iff (ht : ∀ s ∈ symsTerm t, s ∈ d.uses) :
    (!keepTerm keep t || isRemoved removed t) = true ↔ TermCaught keep dl d t := by
  rw [Bool.or_eq_true, Bool.not_eq_true', keepTerm_eq_false, isRemoved_eq_true, TermCaught]
  refine or_congr_right ?_
  constructor
  · rintro ⟨a, ls, tl, ty, hmem, hls⟩
    obtain ⟨d', hd', hlogic, hnew, hdep⟩ := (htracks ls).mp hls
    exact ⟨a, ls, tl, ty, hmem, hscope.fresh d' hd' _ hnew, d', hpre d' hd', hlogic, hnew, hdep⟩
  · rintro ⟨a, ls, tl, ty, hmem, hown, d', hd', hlogic, hnew, hdep⟩
    refine ⟨a, ls, tl, ty, hmem, (htracks ls).mpr ⟨d', ?_, hlogic, hnew, hdep⟩⟩
    -- the symbol is used, so it was introduced before
    obtain ⟨syms, hsyms, hall⟩ := hscope.uses
    have huse : Sym.ls ls ∈ syms := by
      rw [← Decl.uses_eq hsyms]
      exact ht _ (symsTerm_immediate hmem (mem_append_right _ mem_cons_self))
    obtain ⟨d₁, hd₁, hnew₁⟩ := (hall _ huse).resolve_left hown
    exact honce d₁ (hpre d₁ hd₁) d' hd' _ hnew₁ hnew ▸ hd₁

end Step

theorem body_uses (h : getDeclSyms (.dlogic l) = .ok syms) {ld : LogicDecl} (hld : ld ∈ l) :
    ∃ t, lsDefnBody ld.2 = .ok t ∧ ∀ s ∈ symsTerm t, s ∈ (Decl.dlogic l).uses := by
  obtain ⟨t, ht, hsyms⟩ := (foldlM_syms h).2 ld hld
  exact ⟨t, ht, Decl.uses_eq h ▸ hsyms⟩

theorem prop_uses (k : PropKind) (pr : PrSymbol) (f : Term) :
    ∀ s ∈ symsTerm f, s ∈ (Decl.dprop k pr f).uses := fun _ hs => hs

theorem TermCaught.depends (h : TermCaught keep dl d t) (ht : ∀ s ∈ symsTerm t, s ∈ d.uses) :
    Depends (NotKept keep) dl d := by
  rcases h with ⟨s, hs, hnot⟩ | ⟨a, ls, tl, ty, hmem, hown, d', hd', -, hnew, hdep⟩
  · exact .inl ⟨s, .inl (ht s hs), hnot⟩
  · have huse := ht _ (symsTerm_immediate hmem (mem_append_right _ mem_cons_self))
    exact .inr ⟨_, huse, hown, hdep.tainted hd' hnew⟩

theorem Caught.depends (h : Caught keep dl d) (hsyms : getDeclSyms d = .ok syms) :
    Depends (NotKept keep) dl d := by
  cases d with
  | dtype ts => exact .inl ⟨.ts ts, .inr (.inl mem_cons_self), h⟩
  | ddata tdl =>
    obtain ⟨td, htd, hnot⟩ := h
    refine .inl ⟨.ts td.1.embed, .inr (.inl ?_), hnot⟩
    exact ts_mem_declNews_ddata.mpr (mem_map_of_mem htd)
  | dparam ls =>
    obtain ⟨s, hs, hnot⟩ := h
    exact .inl ⟨s, .inr (.inr ⟨ls, mem_cons_self, hs⟩), hnot⟩
  | dlogic l =>
    obtain ⟨ld, hld, ⟨s, hs, hnot⟩ | ⟨t, ht, hcaught⟩⟩ := h
    · exact .inl ⟨s, .inr (.inr ⟨ld.1, mem_map_of_mem hld, hs⟩), hnot⟩
    · obtain ⟨t', ht', huses⟩ := body_uses hsyms hld
      cases ht.symm.trans ht'
      exact hcaught.depends huses
  | dind _ _ => exact h.elim
  | dprop k pr f => exact TermCaught.depends h (prop_uses k pr f)

section Tracks

variable {pre : List Decl} {d : Decl} {removed : List LSymbol} (h : Tracks keep dl pre removed)

include h

theorem Tracks.skip (hd : IsLogic d → ¬ Depends (NotKept keep) dl d) :
    Tracks keep dl (pre ++ [d]) removed := by
  intro ls
  rw [h ls]
  constructor
  · rintro ⟨d', hd', hrest⟩
    exact ⟨d', mem_append_left _ hd', hrest⟩
  · rintro ⟨d', hd', hlogic, hnew, hdep⟩
    rcases mem_append.mp hd' with hd' | hd'
    · exact ⟨d', hd', hlogic, hnew, hdep⟩
    · obtain rfl := mem_singleton.mp hd'
      exact absurd hdep (hd hlogic)

theorem Tracks.record {removed' : List LSymbol} (hlogic : IsLogic d)
    (hdep : Depends (NotKept keep) dl d)
    (hnew : ∀ ls, ls ∈ removed' ↔ Sym.ls ls ∈ declNews d ∨ ls ∈ removed) :
    Tracks keep dl (pre ++ [d]) removed' := by
  intro ls
  rw [hnew, h ls]
  constructor
  · rintro (hls | ⟨d', hd', hrest⟩)
    · exact ⟨d, by simp, hlogic, hls, hdep⟩
    · exact ⟨d', mem_append_left _ hd', hrest⟩
  · rintro ⟨d', hd', hrest⟩
    rcases mem_append.mp hd' with hd' | hd'
    · exact .inr ⟨d', hd', hrest⟩
    · obtain rfl := mem_singleton.mp hd'
      exact .inl hrest.2.1

end Tracks

theorem mem_foldl_record :
    ls ∈ l.foldl (fun acc ld => ld.1 :: acc) removed ↔
      Sym.ls ls ∈ declNews (.dlogic l) ∨ ls ∈ removed := by
  induction l generalizing removed with
  | nil => simp [declNews]
  | cons ld l ih =>
    rw [foldl_cons, ih]
    simp only [declNews, map_cons, mem_cons, Sym.ls.injEq]
    tauto

def Step (keep : TySym Ty → Bool) (dl pre : List Decl) (removed : List LSymbol) (d : Decl) : Prop :=
  (Caught keep dl d ∧ ∃ removed', removeTermsDecl keep removed d = .ok (removed', d.weaken) ∧
      Tracks keep dl (pre ++ [d]) removed') ∨
    ¬ Caught keep dl d ∧ removeTermsDecl keep removed d = .ok (removed, [d]) ∧
      (¬ Depends (NotKept keep) dl d → Tracks keep dl (pre ++ [d]) removed)

section Step

variable {pre : List Decl} {removed : List LSymbol}

theorem step_skip {b : Bool} (htracks : Tracks keep dl pre removed) (hlogic : ¬ IsLogic d)
    (hcaught : b = true ↔ Caught keep dl d)
    (heq : removeTermsDecl keep removed d = .ok (removed, if b then d.weaken else [d])) :
    Step keep dl pre removed d := by
  cases b with
  | true => exact .inl ⟨hcaught.mp rfl, removed, heq, htracks.skip fun h => absurd h hlogic⟩
  | false =>
    refine .inr ⟨fun h => ?_, heq, fun _ => htracks.skip fun h => absurd h hlogic⟩
    cases hcaught.mpr h

theorem removeTermsDecl_step (honce : DeclaredOnce dl) (hpre : ∀ d' ∈ pre, d' ∈ dl)
    (hscope : InScope pre d) (htracks : Tracks keep dl pre removed) :
    Step keep dl pre removed d := by
  obtain ⟨syms, hsyms, -⟩ := hscope.uses
  cases d with
  | dtype ts =>
    refine step_skip (b := !keep ts) htracks id (by simp [Caught]) ?_
    cases hk : keep ts <;> simp [removeTermsDecl, hk, Decl.weaken]
  | ddata tdl =>
    refine step_skip (b := tdl.any fun td => !keep td.1.embed) htracks id
      (by simp [Caught]) ?_
    rfl
  | dind s idl => exact step_skip (b := false) htracks id (by simp [Caught]) rfl
  | dprop k pr f =>
    refine step_skip (b := !keepTerm keep f || isRemoved removed f) htracks id
      (termCaught_iff honce hpre hscope htracks (prop_uses k pr f)) ?_
    cases k with
    | pgoal =>
      cases hb : !keepTerm keep f || isRemoved removed f with
      | true => simp [removeTermsDecl, hb, Decl.weaken, createPropDecl]; rfl
      | false => simp [removeTermsDecl, hb]
    | _ => rfl
  | dparam ls =>
    cases hk : keepLs keep ls with
    | false =>
      have hc : Caught keep dl (.dparam ls) := keepLs_eq_false.mp hk
      refine .inl ⟨hc, ls :: removed, by simp [removeTermsDecl, hk, Decl.weaken],
        htracks.record trivial (hc.depends hsyms) fun l => ?_⟩
      simp [declNews]
    | true =>
      refine .inr ⟨fun hc => ?_, by simp [removeTermsDecl, hk],
        fun hdep => htracks.skip fun _ => hdep⟩
      cases hk.symm.trans (keepLs_eq_false.mpr hc)
  | dlogic l =>
    have hdec : Decides (existsM (fun ld : LogicDecl =>
        if !keepLs keep ld.1 then .ok true
        else do
          let t ← lsDefnBody ld.2
          .ok (!keepTerm keep t || isRemoved removed t)) l) (Caught keep dl (.dlogic l)) := by
      refine existsM_decides fun ld hld => ?_
      obtain ⟨t, ht, huses⟩ := body_uses hsyms hld
      have hbody := termCaught_iff honce hpre hscope htracks huses
      cases hk : keepLs keep ld.1 with
      | false => exact ⟨true, rfl, iff_of_true rfl (.inl (keepLs_eq_false.mp hk))⟩
      | true =>
        refine ⟨_, by simp only [ht]; rfl, hbody.trans ⟨fun h => .inr ⟨t, ht, h⟩, ?_⟩⟩
        rintro (hls | ⟨t', ht', h⟩)
        · cases hk.symm.trans (keepLs_eq_false.mpr hls)
        · cases ht.symm.trans ht'
          exact h
    obtain ⟨b, hb, hcaught⟩ := hdec
    cases b with
    | true =>
      have hc := hcaught.mp rfl
      refine .inl ⟨hc, _, ?_, htracks.record trivial (hc.depends hsyms)
        fun ls => mem_foldl_record⟩
      exact bind_eq_ok.mpr ⟨true, hb, rfl⟩
    | false =>
      refine .inr ⟨fun hc => ?_, ?_, fun hdep => htracks.skip fun _ => hdep⟩
      · cases hcaught.mpr hc
      · exact bind_eq_ok.mpr ⟨false, hb, rfl⟩

end Step

theorem removal {task : Task} (h : task.Built) : Removal (NotKept keep) task.taskDecls
    (Caught keep task.taskDecls) (Tracks keep task.taskDecls) (removeTermsDecl keep) where
  bad_pr pr h := by cases h
  depends d hd hc := by
    obtain ⟨kn, kn', -, hadd, -⟩ := h.added d hd
    obtain ⟨syms, hsyms, -⟩ := (knownAddDecl_added hadd).uses
    exact hc.depends hsyms
  step _ _ _ hpre _ hscope htracks := removeTermsDecl_step h.declaredOnce hpre hscope htracks

end EliminateUnknownTypes

end Why3
