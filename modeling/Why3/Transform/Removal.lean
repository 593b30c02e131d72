import Why3.Logic.KnownLocal

/-!
# Removing declarations from a task

A transformation that drops declarations from a task leaves a task only if, with a
declaration, all those are dropped that depend on it. What depends on removed symbols is
described on the whole task. A transformation decides on each declaration when it gets
there, from what it recorded of those before: it removes the right declarations exactly
when no dependency escapes its decision.
-/

namespace Why3

open Lib Term List

/-! ## Dependencies -/

def symsLs (ls : LSymbol) : List Sym := ls.lsArgs.flatMap symsTy ++ ls.lsValue.elim [] symsTy

variable {d : Decl} {kn : KnownMap} {pr : PrSymbol} {s : Sym} {task task' : Task} {f : Term}

namespace Decl

/-- The symbols that a declaration uses, none if they cannot be collected. -/
def uses (d : Decl) : List Sym := (getDeclSyms d).toOption.getD []

/-- The symbol occurs in the declaration: in what it uses, among the symbols that it
introduces, or in the type of one of them. -/
def Mentions (d : Decl) (s : Sym) : Prop :=
  s ∈ d.uses ∨ s ∈ declNews d ∨ ∃ ls, Sym.ls ls ∈ declNews d ∧ s ∈ symsLs ls

theorem uses_eq {syms : List Sym} (h : getDeclSyms d = .ok syms) : d.uses = syms := by
  rw [uses, h]
  rfl

/-- What a removed declaration leaves: the goal becomes false. -/
def weaken : Decl → List Decl
  | .dprop .pgoal pr _ => [.dprop .pgoal pr (tfalse [])]
  | _ => []

theorem weaken_of_ne (h : ∀ pr f, d ≠ .dprop .pgoal pr f) : d.weaken = [] := by
  cases d with
  | dprop k pr f =>
    cases k with
    | pgoal => exact absurd rfl (h pr f)
    | _ => rfl
  | _ => rfl

theorem mem_weaken {d' : Decl} (h : d' ∈ d.weaken) :
    ∃ pr f, d = .dprop .pgoal pr f ∧ d' = .dprop .pgoal pr (tfalse []) := by
  by_cases hgoal : ∃ pr f, d = .dprop .pgoal pr f
  · obtain ⟨pr, f, rfl⟩ := hgoal
    exact ⟨pr, f, rfl, mem_singleton.mp h⟩
  · rw [weaken_of_ne fun pr f heq => hgoal ⟨pr, f, heq⟩] at h
    cases h

end Decl

section Depends

variable (bad : Sym → Prop) (dl : List Decl)

/-- The symbol is introduced by a declaration that mentions a removed symbol, or that uses
another symbol of this kind. -/
inductive Tainted : Sym → Prop where
  | mentions {d : Decl} {s b : Sym} (hd : d ∈ dl) (hs : s ∈ declNews d) (hb : d.Mentions b)
      (hbad : bad b) : Tainted s
  | uses {d : Decl} {s u : Sym} (hd : d ∈ dl) (hs : s ∈ declNews d) (hu : u ∈ d.uses)
      (hnew : u ∉ declNews d) (h : Tainted u) : Tainted s

/-- The declaration mentions a removed symbol, or it uses one that cannot be declared
without. -/
def Depends (d : Decl) : Prop :=
  (∃ b, d.Mentions b ∧ bad b) ∨ ∃ u ∈ d.uses, u ∉ declNews d ∧ Tainted bad dl u

end Depends

variable {bad : Sym → Prop} {dl : List Decl}

/-- A symbol is introduced by one declaration. -/
def DeclaredOnce (dl : List Decl) : Prop :=
  ∀ d ∈ dl, ∀ d' ∈ dl, ∀ s ∈ declNews d, s ∈ declNews d' → d = d'

theorem Depends.tainted (h : Depends bad dl d) (hd : d ∈ dl) (hs : s ∈ declNews d) :
    Tainted bad dl s := by
  rcases h with ⟨b, hb, hbad⟩ | ⟨u, hu, hnew, h⟩
  · exact .mentions hd hs hb hbad
  · exact .uses hd hs hu hnew h

theorem tainted_iff (honce : DeclaredOnce dl) (hd : d ∈ dl) (hs : s ∈ declNews d) :
    Tainted bad dl s ↔ Depends bad dl d := by
  refine ⟨fun h => ?_, fun h => h.tainted hd hs⟩
  cases h with
  | mentions hd' hs' hb hbad =>
    obtain rfl := honce _ hd _ hd' s hs hs'
    exact .inl ⟨_, hb, hbad⟩
  | uses hd' hs' hu hnew h =>
    obtain rfl := honce _ hd _ hd' s hs hs'
    exact .inr ⟨_, hu, hnew, h⟩

/-! ## The declarations of a task -/

namespace Task

theorem Built.declaredOnce (h : task.Built) : DeclaredOnce task.taskDecls := by
  intro d hd d' hd' s hs hs'
  obtain ⟨i, hi, rfl⟩ := mem_iff_getElem.mp hd
  obtain ⟨j, hj, rfl⟩ := mem_iff_getElem.mp hd'
  have hpair := pairwise_iff_getElem.mp h.pairwise
  rcases Nat.lt_trichotomy i j with hij | rfl | hij
  · exact absurd hs (hpair i j hi hj hij s hs').1
  · rfl
  · exact absurd hs' (hpair j i hj hi hij s hs).1

theorem Built.checkDecl_ok (h : task.Built) : ∀ d ∈ task.taskDecls, checkDecl d = .ok () := by
  induction h with
  | empty => exact fun d hd => (not_mem_nil hd).elim
  | @add task task' td htask _ h ih =>
    cases htd : td.decl? with
    | none =>
      rcases addTdecl_eq_ok h htd with rfl | ⟨rfl, _⟩
      · exact ih
      · rwa [taskDecls_element htd]
    | some d =>
      obtain rfl : td = .decl d := by
        cases td <;> cases htd
        rfl
      rcases newDecl_eq_ok h with rfl | ⟨kn, _, hcheck, _, rfl⟩
      · exact ih
      · rw [taskDecls_concat]
        exact forall_mem_append.mpr ⟨ih, forall_mem_singleton.mpr hcheck⟩

theorem newDecl_ok (hd : checkDecl d = .ok ()) (hkn : knownAddDecl task.taskKnown d = .ok kn)
    (hgoal : task.findGoal = none) : task.newDecl d = .ok ⟨task.taskTdecls ++ [.decl d], kn⟩ := by
  have htask : task.checkTask = .ok () := by rw [checkTask, hgoal]
  have h : task.newDeclChecked d = .ok ⟨task.taskTdecls ++ [.decl d], kn⟩ :=
    bind₃_eq_ok.mpr ⟨(), hd, kn, hkn, (), htask, rfl⟩
  rw [newDecl, h]

theorem newDecl_unknown {i : Ident} (hd : checkDecl d = .ok ())
    (hkn : knownAddDecl task.taskKnown d = .error (.unknownIdent i)) :
    task.newDecl d = .error (.unknownIdent i) := by
  rw [newDecl, newDeclChecked, hd, hkn]
  rfl

/-- An element that is no declaration is added to a task without goal. -/
theorem addTdecl_element {td : TDecl} (htd : td.decl? = none) (hgoal : task.findGoal = none) :
    ∃ task', task.addTdecl td = .ok task' ∧
      task'.taskDecls = task.taskDecls ∧ task'.taskKnown = task.taskKnown ∧
      task'.findGoal = none := by
  have hnew : ∀ td : TDecl, td.decl? = none → ∃ task', task.newElement td = .ok task' ∧
      task'.taskDecls = task.taskDecls ∧ task'.taskKnown = task.taskKnown ∧
      task'.findGoal = none := by
    intro td htd
    refine ⟨⟨task.taskTdecls ++ [td], task.taskKnown⟩, ?_, taskDecls_element htd task, rfl, ?_⟩
    · exact bind_eq_ok.mpr ⟨(), by rw [checkTask, hgoal], rfl⟩
    · cases td <;> simp [findGoal, TDecl.decl?] at htd ⊢
  cases td with
  | decl d => cases htd
  | use th =>
    simp only [addTdecl]
    split
    · exact ⟨task, rfl, rfl, rfl, hgoal⟩
    · exact hnew _ rfl
  | clone th sm | metaDecl m al => exact hnew _ rfl

theorem knownAddDecl_false (h : kn.find? (.pr pr) = none) :
    ∃ kn', knownAddDecl kn (.dprop .pgoal pr (tfalse [])) = .ok kn' := by
  refine ⟨kn.add (.pr pr) (.dprop .pgoal pr (tfalse [])), ?_⟩
  simp [knownAddDecl, knownAddDeclBase, declNews, addNew, h, getDeclSyms, symsTerm,
    checkPositivity, checkFoundness, checkMatch, checkMatchTerm, bind, Except.bind, pure,
    Except.pure]

theorem findGoal_append_decl :
    findGoal ⟨task.taskTdecls ++ [.decl d], kn⟩ = some (pr, f) ↔ d = .dprop .pgoal pr f := by
  cases d with
  | dprop k pr' f' => cases k <;> simp [findGoal]
  | _ => simp [findGoal]

end Task

/-! ## Runs -/

/-- The declaration introduces new symbols, and it uses those and symbols of the declarations
before. -/
structure InScope (pre : List Decl) (d : Decl) : Prop where
  fresh : ∀ d' ∈ pre, ∀ s ∈ declNews d', s ∉ declNews d
  uses : ∃ syms, getDeclSyms d = .ok syms ∧
    ∀ s ∈ syms, s ∈ declNews d ∨ ∃ d' ∈ pre, s ∈ declNews d'

section Run

variable {σ : Type} (bad dl)

/-- The function removes the declarations that are `Caught`, on the grounds of a state that
`Tracks` the declarations before. What is caught depends on removed symbols. -/
structure Removal (Caught : Decl → Prop) (Tracks : List Decl → σ → Prop)
    (fn : σ → Decl → Except Exn (σ × List Decl)) : Prop where
  bad_pr : ∀ pr, ¬ bad (.pr pr)
  depends : ∀ d ∈ dl, Caught d → Depends bad dl d
  step : ∀ pre d r, (∀ d' ∈ pre, d' ∈ dl) → d ∈ dl → InScope pre d → Tracks pre r →
    (Caught d ∧ ∃ r', fn r d = .ok (r', d.weaken) ∧ Tracks (pre ++ [d]) r') ∨
      ¬ Caught d ∧ fn r d = .ok (r, [d]) ∧ (¬ Depends bad dl d → Tracks (pre ++ [d]) r)

def FreeOf (task : Task) : Prop := ∀ d ∈ task.taskDecls, ∀ s, d.Mentions s → ¬ bad s

structure RemovedRun (Tracks : List Decl → σ → Prop) (task : Task) (r : σ) (task' : Task) :
    Prop where
  tracks : Tracks task.taskDecls r
  clean : FreeOf bad task'
  built : task'.Built
  origin : ∀ d ∈ task'.taskDecls, d ∈ task.taskDecls ∨ ∃ e ∈ task.taskDecls, d ∈ e.weaken
  goal : ∀ pr f, task.findGoal = some (pr, f) →
    task'.findGoal = some (pr, f) ∨ task'.findGoal = some (pr, tfalse [])
  noGoal : task.findGoal = none → task'.findGoal = none
  known : task.findGoal = none → KnownIn task'.taskKnown task.taskKnown ∧
    ∀ s, task'.taskKnown.mem s = true ↔ task.taskKnown.mem s = true ∧ ¬ Tainted bad dl s

variable {bad dl} {Caught : Decl → Prop} {Tracks : List Decl → σ → Prop}
  {fn : σ → Decl → Except Exn (σ × List Decl)}

theorem inScope_of_added (h : task.Built) (hkn : knownAddDecl task.taskKnown d = .ok kn) :
    InScope task.taskDecls d := by
  have hadd := (knownAddDecl_added hkn).toAddedBase
  obtain ⟨syms, hsyms, hknown⟩ := hadd.uses
  refine ⟨fun d' hd' s hs hnew => ?_, syms, hsyms,
    fun s hs => (hadd.mem_iff.mp (hknown s hs)).imp id fun hmem => ?_⟩
  · obtain ⟨d₀, hd₀⟩ := (TagMap.mem_eq_true_iff _ _).mp ((h.known d' hd').1 s hs)
    cases (hadd.fresh s hnew).symm.trans hd₀
  obtain ⟨d', hd'⟩ := (TagMap.mem_eq_true_iff _ _).mp hmem
  exact ⟨d', h.mem_of_find hd', h.knownMap.mem_declNews hd'⟩

theorem freeOf_concat (h : FreeOf bad task) (hd : ∀ s, d.Mentions s → ¬ bad s) :
    FreeOf bad ⟨task.taskTdecls ++ [.decl d], kn⟩ := by
  intro d' hd'
  rw [Task.taskDecls_concat, mem_append, mem_singleton] at hd'
  rcases hd' with hd' | rfl
  · exact h d' hd'
  · exact hd

section Step

variable (honce : DeclaredOnce dl) {task₁ : Task} {r r' : σ}
  (hrun : RemovedRun bad dl Tracks task r task₁) (hd : d ∈ dl)
  (hkn : knownAddDecl task.taskKnown d = .ok kn) (hgoal : task.findGoal = none)

include hrun in
theorem RemovedRun.origin_concat (d : Decl) (kn : KnownMap) : ∀ d' ∈ task₁.taskDecls,
    d' ∈ Task.taskDecls ⟨task.taskTdecls ++ [.decl d], kn⟩ ∨
      ∃ e ∈ Task.taskDecls ⟨task.taskTdecls ++ [.decl d], kn⟩, d' ∈ e.weaken := by
  intro d' hd'
  rw [Task.taskDecls_concat]
  rcases hrun.origin d' hd' with h | ⟨e, he, h⟩
  · exact .inl (mem_append_left _ h)
  · exact .inr ⟨e, mem_append_left _ he, h⟩

include honce hrun hd hkn hgoal

theorem RemovedRun.drop (hdep : Depends bad dl d)
    (hne : ∀ pr f, d ≠ .dprop .pgoal pr f) (htracks : Tracks (task.taskDecls ++ [d]) r') :
    RemovedRun bad dl Tracks ⟨task.taskTdecls ++ [.decl d], kn⟩ r' task₁ where
  tracks := (Task.taskDecls_concat task d kn).symm ▸ htracks
  clean := hrun.clean
  built := hrun.built
  origin := hrun.origin_concat d kn
  goal pr f h := absurd (Task.findGoal_append_decl.mp h) (hne pr f)
  noGoal _ := hrun.noGoal hgoal
  known _ := by
    have hadd := (knownAddDecl_added hkn).toAddedBase
    refine ⟨(hrun.known hgoal).1.trans hadd.knownIn, fun s => ?_⟩
    rw [(hrun.known hgoal).2, hadd.mem_iff]
    refine and_congr_left fun hnot => ⟨.inr, fun h => h.resolve_left fun hs => ?_⟩
    exact hnot ((tainted_iff honce hd hs).mpr hdep)

omit honce hd in
theorem RemovedRun.falsify (hbad : ∀ pr, ¬ bad (.pr pr)) (hgl : d = .dprop .pgoal pr f)
    (htracks : Tracks (task.taskDecls ++ [d]) r') :
    ∃ task', task₁.addDecl (.dprop .pgoal pr (tfalse [])) = .ok task' ∧
      RemovedRun bad dl Tracks ⟨task.taskTdecls ++ [.decl d], kn⟩ r' task' := by
  have hfresh : task₁.taskKnown.find? (.pr pr) = none := by
    have h := (knownAddDecl_added hkn).fresh (.pr pr) (by simp [hgl, declNews])
    cases hfind : task₁.taskKnown.find? (.pr pr) with
    | none => rfl
    | some d' => cases h.symm.trans ((hrun.known hgoal).1 _ _ hfind)
  obtain ⟨kn', hkn'⟩ := Task.knownAddDecl_false hfresh
  have hadd := Task.newDecl_ok rfl hkn' (hrun.noGoal hgoal)
  refine ⟨_, hadd, ⟨(Task.taskDecls_concat task d kn).symm ▸ htracks, ?_, ?_, ?_, ?_, ?_, ?_⟩⟩
  · refine freeOf_concat hrun.clean fun s hs => ?_
    have : s = .pr pr := by
      simpa [Decl.Mentions, Decl.uses, getDeclSyms, symsTerm, declNews, Except.toOption] using hs
    exact this ▸ hbad pr
  · have hwf : (Decl.dprop .pgoal pr (tfalse [])).WellFormed := trivial
    exact hrun.built.newDecl hwf hadd
  · intro d' hd'
    rw [Task.taskDecls_concat, mem_append, mem_singleton] at hd'
    rcases hd' with hd' | rfl
    · exact hrun.origin_concat d kn d' hd'
    · exact .inr ⟨d, by simp [Task.taskDecls_concat], by simp [hgl, Decl.weaken]⟩
  · intro pr' f' h
    cases hgl.symm.trans (Task.findGoal_append_decl.mp h)
    exact .inr (Task.findGoal_append_decl.mpr rfl)
  · exact fun h => by cases h.symm.trans (Task.findGoal_append_decl.mpr hgl)
  · exact fun h => by cases h.symm.trans (Task.findGoal_append_decl.mpr hgl)

/-- A declaration that does not depend on removed symbols is kept. -/
theorem RemovedRun.keep (hwf : d.WellFormed) (hcheck : Task.checkDecl d = .ok ())
    (hbuilt : task.Built) (hdep : ¬ Depends bad dl d) (htracks : Tracks (task.taskDecls ++ [d]) r) :
    ∃ task', task₁.addDecl d = .ok task' ∧
      RemovedRun bad dl Tracks ⟨task.taskTdecls ++ [.decl d], kn⟩ r task' := by
  have hbase := (knownAddDecl_added hkn).toAddedBase
  obtain ⟨hin, hmem⟩ := hrun.known hgoal
  have hnews : ∀ s ∈ declNews d, ¬ Tainted bad dl s :=
    fun s hs => mt (tainted_iff honce hd hs).mp hdep
  have huses : UsesKnown task₁.taskKnown d := by
    intro syms hsyms s hs
    by_cases hnew : s ∈ declNews d
    · exact .inl hnew
    · obtain ⟨syms', hsyms', hknown⟩ := hbase.uses
      cases hsyms.symm.trans hsyms'
      refine .inr ((hmem s).mpr ⟨(hbase.mem_iff.mp (hknown s hs)).resolve_left hnew, ?_⟩)
      exact fun ht => hdep (.inr ⟨s, Decl.uses_eq hsyms ▸ hs, hnew, ht⟩)
  rcases knownAddDecl_local hbuilt.knownMap hrun.built.knownMap hin hwf hkn with
    ⟨-, kn', hkn', hin'⟩ | ⟨hnot, -⟩
  · have hadd := Task.newDecl_ok hcheck hkn' (hrun.noGoal hgoal)
    refine ⟨_, hadd, ⟨(Task.taskDecls_concat task d kn).symm ▸ htracks, ?_, ?_, ?_, ?_, ?_, ?_⟩⟩
    · exact freeOf_concat hrun.clean fun s hs hbad => hdep (.inl ⟨s, hs, hbad⟩)
    · exact hrun.built.newDecl hwf hadd
    · intro d' hd'
      rw [Task.taskDecls_concat, mem_append, mem_singleton] at hd'
      rcases hd' with hd' | rfl
      · exact hrun.origin_concat d kn d' hd'
      · exact .inl (by simp [Task.taskDecls_concat])
    · exact fun pr f h => .inl (Task.findGoal_append_decl.mpr (Task.findGoal_append_decl.mp h))
    · intro h
      rw [Option.eq_none_iff_forall_ne_some] at h ⊢
      rintro ⟨pr, f⟩ hsome
      exact h (pr, f) (Task.findGoal_append_decl.mpr (Task.findGoal_append_decl.mp hsome))
    · refine fun _ => ⟨hin', fun s => ?_⟩
      rw [(knownAddDecl_added hkn').mem_iff, hbase.mem_iff, hmem, or_and_right]
      exact or_congr_left ⟨fun hs => ⟨hs, hnews s hs⟩, And.left⟩
  · exact absurd huses hnot

end Step

section Runs

variable (hR : Removal bad dl Caught Tracks fn) (honce : DeclaredOnce dl)
  (hcheck : ∀ d ∈ dl, Task.checkDecl d = .ok ()) {s₀ : σ} (h₀ : Tracks [] s₀)

include hR honce hcheck h₀

/-- As long as what depends on removed symbols is caught, the removal goes through. -/
theorem run_of_caught (h : task.Built) :
    (∀ d ∈ task.taskDecls, d ∈ dl ∧ (Depends bad dl d → Caught d)) →
    ∃ r task', task.taskTdecls.foldlM (transStep fn) (s₀, .empty) = .ok (r, task') ∧
      RemovedRun bad dl Tracks task r task' := by
  refine Task.Built.cases_add ?_ ?_ ?_ h
  · refine fun _ => ⟨s₀, .empty, rfl, h₀, ?_, .empty, ?_, ?_, fun _ => rfl, fun _ => ⟨.refl _, ?_⟩⟩
    · exact fun d hd => (not_mem_nil hd).elim
    · exact fun d hd => (not_mem_nil hd).elim
    · exact fun pr f h => by cases h
    · simp [Task.empty, TagMap.mem_eq_true_iff]
  · intro task d kn hbuilt ih hwf hkn hgoal hdl
    rw [Task.taskDecls_concat, forall_mem_append, forall_mem_singleton] at hdl
    obtain ⟨r, task₁, hfold, hrun⟩ := ih hdl.1
    obtain ⟨hd, hcaught⟩ := hdl.2
    rcases hR.step _ d r (fun d' hd' => (hdl.1 d' hd').1) hd (inScope_of_added hbuilt hkn)
      hrun.tracks with ⟨hc, r', hfn, htracks⟩ | ⟨hc, hfn, htracks⟩
    · by_cases hgl : ∃ pr f, d = .dprop .pgoal pr f
      · obtain ⟨pr, f, rfl⟩ := hgl
        obtain ⟨task', hadd, hrun'⟩ := hrun.falsify hkn hgoal hR.bad_pr rfl htracks
        refine ⟨r', task', foldlM_concat_eq_ok.mpr ⟨_, hfold, ?_⟩, hrun'⟩
        exact bind₂_eq_ok.mpr ⟨_, hfn, task', foldlM_cons_eq_ok.mpr ⟨_, hadd, rfl⟩, rfl⟩
      · have hne : ∀ pr f, d ≠ .dprop .pgoal pr f := fun pr f heq => hgl ⟨pr, f, heq⟩
        refine ⟨r', task₁, foldlM_concat_eq_ok.mpr ⟨_, hfold, ?_⟩,
          hrun.drop honce hd hkn hgoal (hR.depends d hd hc) hne htracks⟩
        rw [Decl.weaken_of_ne hne] at hfn
        exact bind_eq_ok.mpr ⟨_, hfn, rfl⟩
    · have hdep := mt hcaught hc
      obtain ⟨task', hadd, hrun'⟩ := hrun.keep honce hd hkn hgoal hwf (hcheck d hd) hbuilt hdep
        (htracks hdep)
      refine ⟨r, task', foldlM_concat_eq_ok.mpr ⟨_, hfold, ?_⟩, hrun'⟩
      exact bind₂_eq_ok.mpr ⟨_, hfn, task', foldlM_cons_eq_ok.mpr ⟨_, hadd, rfl⟩, rfl⟩
  · intro task td hbuilt ih htd hgoal hdl
    have hdecls := Task.taskDecls_element htd task
    rw [hdecls] at hdl
    obtain ⟨r, task₁, hfold, hrun⟩ := ih hdl
    obtain ⟨task', hadd, hdecls', hknown, hgoal'⟩ :=
      Task.addTdecl_element htd (hrun.noGoal hgoal)
    refine ⟨r, task', foldlM_concat_eq_ok.mpr ⟨_, hfold, ?_⟩, hdecls.symm ▸ hrun.tracks, ?_, ?_,
      ?_, ?_, fun _ => hgoal', fun _ => hknown.symm ▸ hrun.known hgoal⟩
    · cases td with
      | decl d => cases htd
      | _ => exact bind_eq_ok.mpr ⟨task', hadd, rfl⟩
    · rw [FreeOf, hdecls']
      exact hrun.clean
    · exact .add hrun.built (by rw [htd]; rintro d hd; cases hd) hadd
    · rw [hdecls, hdecls']
      exact hrun.origin
    · intro pr f hsome
      have hmem : Decl.dprop .pgoal pr f ∈ task.taskDecls := by
        rw [← hdecls]
        obtain ⟨hyps, hyps_eq⟩ := Task.taskDecls_of_findGoal hsome
        rw [hyps_eq]
        simp
      cases hgoal.symm.trans (hbuilt.findGoal_eq hmem)

/-- If the removal goes through and leaves nothing to be removed, then what depends on removed
symbols was caught. -/
theorem caught_of_run (h : task.Built) :
    (∀ d ∈ task.taskDecls, d ∈ dl) → ∀ r task',
      task.taskTdecls.foldlM (transStep fn) (s₀, .empty) = .ok (r, task') → FreeOf bad task' →
      ∀ d ∈ task.taskDecls, Depends bad dl d → Caught d := by
  refine Task.Built.cases_add ?_ ?_ ?_ h
  · exact fun _ _ _ _ _ d hd => (not_mem_nil hd).elim
  · intro task d kn hbuilt ih hwf hkn hgoal hdl r' task' hfold hfree
    rw [Task.taskDecls_concat, forall_mem_append, forall_mem_singleton] at hdl
    obtain ⟨⟨r, task₁⟩, hfold, hstep⟩ := foldlM_concat_eq_ok.mp hfold
    obtain ⟨⟨r₁, out⟩, hfn, hstep⟩ := bind_eq_ok.mp hstep
    obtain ⟨task₂, hadds, hstep⟩ := bind_eq_ok.mp hstep
    cases hstep
    obtain ⟨dl', -, hdecls⟩ := foldlM_addDecl_sublist hadds
    have hfree₁ : FreeOf bad task₁ :=
      fun d' hd' => hfree d' (hdecls.symm ▸ mem_append_left _ hd')
    have hpre := ih hdl.1 r task₁ hfold hfree₁
    obtain ⟨r₂, task₂, hfold₂, hrun⟩ := run_of_caught hR honce hcheck h₀ hbuilt
      fun d' hd' => ⟨hdl.1 d' hd', hpre d' hd'⟩
    cases hfold.symm.trans hfold₂
    rw [Task.taskDecls_concat, forall_mem_append, forall_mem_singleton]
    refine ⟨hpre, fun hdep => ?_⟩
    rcases hR.step _ d r hdl.1 hdl.2 (inScope_of_added hbuilt hkn) hrun.tracks with
      ⟨hc, -⟩ | ⟨-, hfn', -⟩
    · exact hc
    · cases hfn.symm.trans hfn'
      obtain ⟨task₃, hadd, hnil⟩ := foldlM_cons_eq_ok.mp hadds
      obtain rfl := foldlM_nil_eq_ok.mp hnil
      obtain ⟨hin, hmem⟩ := hrun.known hgoal
      exfalso
      rcases knownAddDecl_local hbuilt.knownMap hrun.built.knownMap hin hwf hkn with
        ⟨huses, kn', hkn', -⟩ | ⟨-, i, hkn'⟩
      · cases hadd.symm.trans (Task.newDecl_ok (hcheck d hdl.2) hkn' (hrun.noGoal hgoal))
        rcases hdep with ⟨b, hb, hbad⟩ | ⟨u, hu, hnew, ht⟩
        · exact hfree d (by rw [Task.taskDecls_concat]; simp) b hb hbad
        · obtain ⟨syms, hsyms, -⟩ := (knownAddDecl_added hkn).uses
          rw [Decl.uses_eq hsyms] at hu
          exact ((hmem u).mp ((huses syms hsyms u hu).resolve_left hnew)).2 ht
      · cases hadd.symm.trans (Task.newDecl_unknown (hcheck d hdl.2) hkn')
  · intro task td hbuilt ih htd hgoal hdl r' task' hfold hfree
    have hdecls := Task.taskDecls_element htd task
    rw [hdecls] at hdl ⊢
    obtain ⟨⟨r, task₁⟩, hfold, hstep⟩ := foldlM_concat_eq_ok.mp hfold
    have hadd : task₁.addTdecl td = .ok task' := by
      cases td with
      | decl d => cases htd
      | _ =>
        obtain ⟨task₂, hadd, hstep⟩ := bind_eq_ok.mp hstep
        cases hstep
        exact hadd
    refine ih hdl r task₁ hfold fun d hd => hfree d ?_
    rcases Task.addTdecl_eq_ok hadd htd with rfl | ⟨rfl, -⟩
    · exact hd
    · rwa [Task.taskDecls_element htd]

end Runs

/-! ## What a removal should achieve -/

/-- The result is a task that mentions no removed symbol. Its declarations are some of those of
the task, the goal is the same or false, and the task is valid if the result is. -/
def RemovesFrom (bad : Sym → Prop) (task : Task) (result : Except Exn Task) : Prop :=
  ∃ task', result = .ok task' ∧ task'.Built ∧ FreeOf bad task' ∧
    (∀ d ∈ task'.taskDecls, d ∈ task.taskDecls ∨
      ∃ pr f, task.findGoal = some (pr, f) ∧ d = .dprop .pgoal pr (tfalse [])) ∧
    (∀ pr f, task.findGoal = some (pr, f) →
      task'.findGoal = some (pr, f) ∨ task'.findGoal = some (pr, tfalse [])) ∧
    (task'.Valid → task.Valid)

theorem RemovedRun.origin_eq {r : σ} (h : RemovedRun bad dl Tracks task r task')
    (hbuilt : task.Built) (hd : d ∈ task'.taskDecls) : d ∈ task.taskDecls ∨
      ∃ pr f, task.findGoal = some (pr, f) ∧ d = .dprop .pgoal pr (tfalse []) := by
  refine (h.origin d hd).imp id ?_
  rintro ⟨e, he, hmem⟩
  obtain ⟨pr, f, rfl, rfl⟩ := Decl.mem_weaken hmem
  exact ⟨pr, f, hbuilt.findGoal_eq he, rfl⟩

theorem RemovedRun.valid {r : σ} (h : RemovedRun bad dl Tracks task r task') (hbuilt : task.Built)
    (hvalid : task'.Valid) : task.Valid := by
  obtain ⟨pr', f', hgoal', hmodels⟩ := hvalid
  cases hgoal : task.findGoal with
  | none => cases (h.noGoal hgoal).symm.trans hgoal'
  | some g =>
    obtain ⟨pr, f⟩ := g
    refine ⟨pr, f, hgoal, fun D I hI => ?_⟩
    have hI' : I.Models task'.taskDecls := by
      refine ⟨hI.sound, hI.disjoint, fun d hd => ?_⟩
      rcases h.origin_eq hbuilt hd with hd | ⟨_, _, _, rfl⟩
      · exact hI.decls d hd
      · trivial
    have hf' := hmodels D I hI'
    rcases h.goal pr f hgoal with heq | heq <;> cases hgoal'.symm.trans heq
    · exact hf'
    · exact fun τ ρ hρ => (hf' τ ρ hρ).elim

theorem removesFrom_iff (hbuilt : task.Built) (hR : Removal bad task.taskDecls Caught Tracks fn)
    {s₀ : σ} (h₀ : Tracks [] s₀) :
    RemovesFrom bad task (transDecl fn s₀ task) ↔
      ∀ d ∈ task.taskDecls, Depends bad task.taskDecls d → Caught d := by
  constructor
  · rintro ⟨task', hrun, -, hfree, -⟩
    obtain ⟨⟨r, task₁⟩, hfold, hrun⟩ := bind_eq_ok.mp hrun
    cases hrun
    exact caught_of_run hR hbuilt.declaredOnce hbuilt.checkDecl_ok h₀ hbuilt (fun _ hd => hd) r _
      hfold hfree
  · intro hcaught
    obtain ⟨r, task', hfold, hrun⟩ := run_of_caught hR hbuilt.declaredOnce hbuilt.checkDecl_ok h₀
      hbuilt fun d hd => ⟨hd, hcaught d hd⟩
    exact ⟨task', bind_eq_ok.mpr ⟨_, hfold, rfl⟩, hrun.built, hrun.clean,
      fun d hd => hrun.origin_eq hbuilt hd, hrun.goal, hrun.valid hbuilt⟩

end Run

end Why3
