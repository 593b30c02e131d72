import Why3.Core.Known

/-!
# Tasks

A task is a sequence of declarations that ends with a goal, after
`src/core/task.ml`. Declarations are added one by one, each being checked against
the symbols known so far. A declaration that is known already is passed over in
silence.

The source keeps the uses, the clones and the metas of a task in maps of their own;
here they are read off the sequence.
-/

namespace Why3

open Lib List

structure Theory where
  thName : Ident
  thPath : List String
  deriving DecidableEq, Repr

structure SymbolMap where
  smTy : List (TySym Ty × Ty)
  smTs : List (TySym Ty × TySym Ty)
  smLs : List (LSymbol × LSymbol)
  smPr : List (PrSymbol × PrSymbol)
  deriving DecidableEq

inductive MetaArgType where
  | mtTy
  | mtTysymbol
  | mtLsymbol
  | mtPrsymbol
  | mtString
  | mtInt
  | mtId
  deriving DecidableEq, Repr

inductive MetaArg where
  | maTy (ty : Ty)
  | maTs (ts : TySym Ty)
  | maLs (ls : LSymbol)
  | maPr (pr : PrSymbol)
  | maStr (s : String)
  | maInt (n : ℤ)
  | maId (id : Ident)
  deriving DecidableEq

structure Meta where
  metaName : String
  metaType : List MetaArgType
  metaExcl : Bool
  deriving DecidableEq, Repr

inductive TDecl where
  | decl (d : Decl)
  | use (th : Theory)
  | clone (th : Theory) (sm : SymbolMap)
  | metaDecl (m : Meta) (al : List MetaArg)

def TDecl.decl? : TDecl → Option Decl
  | decl d => some d
  | _ => none

def TDecl.isUse (th : Theory) : TDecl → Bool
  | use th' => decide (th' = th)
  | _ => false

/-- Tasks: the elements, oldest first, and the known symbols. -/
structure Task where
  taskTdecls : List TDecl
  taskKnown : KnownMap

namespace Task

def empty : Task := ⟨[], .empty⟩

def taskDecls (task : Task) : List Decl := task.taskTdecls.filterMap TDecl.decl?

def findGoal (task : Task) : Option (PrSymbol × Term) :=
  match task.taskTdecls.getLast? with
  | some (.decl (.dprop .pgoal pr f)) => some (pr, f)
  | _ => none

def checkTask (task : Task) : Except Exn Unit :=
  match task.findGoal with
  | some _ => .error .goalFound
  | none => .ok ()

def checkDecl : Decl → Except Exn Unit
  | .dprop .plemma _ _ => .error .lemmaFound
  | _ => .ok ()

def newDeclChecked (task : Task) (d : Decl) : Except Exn Task := do
  checkDecl d
  let kn ← knownAddDecl task.taskKnown d
  task.checkTask
  .ok ⟨task.taskTdecls ++ [.decl d], kn⟩

/-- Add a declaration, unless it is known already. -/
def newDecl (task : Task) (d : Decl) : Except Exn Task :=
  match task.newDeclChecked d with
  | .error (.knownIdent _) => .ok task
  | r => r

def newElement (task : Task) (td : TDecl) : Except Exn Task := do
  task.checkTask
  .ok ⟨task.taskTdecls ++ [td], task.taskKnown⟩

def addDecl (task : Task) (d : Decl) : Except Exn Task := task.newDecl d

def addTdecl (task : Task) : TDecl → Except Exn Task
  | .decl d => task.newDecl d
  | .use th =>
    if task.taskTdecls.any (TDecl.isUse th) then .ok task else task.newElement (.use th)
  | .clone th sm => task.newElement (.clone th sm)
  | .metaDecl m al => task.newElement (.metaDecl m al)

end Task

/-! ## Transformations declaration by declaration -/

section TransDecl

variable {σ : Type} (fn : σ → Decl → Except Exn (σ × List Decl))

def transStep (acc : σ × Task) : TDecl → Except Exn (σ × Task)
  | .decl d => do
    let (s, dl) ← fn acc.1 d
    .ok (s, ← dl.foldlM Task.addDecl acc.2)
  | td => do .ok (acc.1, ← acc.2.addTdecl td)

/-- Build a new task from what `fn` makes of each declaration. The references that
the functions of the source update are the state `σ`. -/
def transDecl (s : σ) (task : Task) : Except Exn Task := do
  let (_, task) ← task.taskTdecls.foldlM (transStep fn) (s, Task.empty)
  .ok task

end TransDecl

/-! ## What the addition of an element does -/

variable {task task' : Task} {d : Decl} {pr : PrSymbol} {f : Term}

namespace Task

theorem newDecl_eq_ok (h : task.newDecl d = .ok task') :
    task' = task ∨ ∃ kn, knownAddDecl task.taskKnown d = .ok kn ∧ checkDecl d = .ok () ∧
      task.findGoal = none ∧ task' = ⟨task.taskTdecls ++ [.decl d], kn⟩ := by
  unfold newDecl at h
  split at h
  · exact .inl (Except.ok.inj h).symm
  · obtain ⟨_, hd, kn, hkn, _, htask, h⟩ := bind₃_eq_ok.mp h
    refine .inr ⟨kn, hkn, hd, ?_, (Except.ok.inj h).symm⟩
    unfold checkTask at htask
    split at htask
    · cases htask
    · next hgoal => exact hgoal

theorem addTdecl_eq_ok {td : TDecl} (h : task.addTdecl td = .ok task') (htd : td.decl? = none) :
    task' = task ∨ task' = ⟨task.taskTdecls ++ [td], task.taskKnown⟩ ∧ task.findGoal = none := by
  have hnew : ∀ td : TDecl, task.newElement td = .ok task' →
      task' = ⟨task.taskTdecls ++ [td], task.taskKnown⟩ ∧ task.findGoal = none := by
    intro td h
    obtain ⟨_, htask, h⟩ := bind_eq_ok.mp h
    refine ⟨(Except.ok.inj h).symm, ?_⟩
    unfold checkTask at htask
    split at htask
    · cases htask
    · next hgoal => exact hgoal
  cases td with
  | decl d => cases htd
  | use th =>
    simp only [addTdecl] at h
    split at h
    · exact .inl (Except.ok.inj h).symm
    · exact .inr (hnew _ h)
  | clone th sm | metaDecl m al => exact .inr (hnew _ h)

theorem taskDecls_concat (task : Task) (d : Decl) (kn : KnownMap) :
    taskDecls ⟨task.taskTdecls ++ [.decl d], kn⟩ = task.taskDecls ++ [d] :=
  filterMap_append

theorem taskDecls_element {td : TDecl} (htd : td.decl? = none) (task : Task) :
    taskDecls ⟨task.taskTdecls ++ [td], task.taskKnown⟩ = task.taskDecls := by
  simp [taskDecls, htd]

theorem findGoal_eq_some (h : task.findGoal = some (pr, f)) :
    ∃ tdl, task.taskTdecls = tdl ++ [.decl (.dprop .pgoal pr f)] := by
  unfold findGoal at h
  split at h
  · next pr' f' hlast =>
      simp only [Option.some.injEq, Prod.mk.injEq] at h
      obtain ⟨rfl, rfl⟩ := h
      exact ⟨_, (dropLast_append_getLast? _ hlast).symm⟩
  · cases h

/-! ## Tasks that arise from declarations -/

inductive Built : Task → Prop where
  | empty : Built .empty
  | add {task task' : Task} {td : TDecl} (htask : Built task)
      (hd : ∀ d, td.decl? = some d → d.WellFormed) (h : task.addTdecl td = .ok task') : Built task'

theorem Built.newDecl (h : task.Built) (hd : d.WellFormed) (hadd : task.newDecl d = .ok task') :
    task'.Built := by
  have hd' : ∀ d', (TDecl.decl d).decl? = some d' → d'.WellFormed := by
    intro d' heq
    cases heq
    exact hd
  exact .add h hd' hadd

@[elab_as_elim]
theorem Built.cases_add {P : Task → Prop} (hempty : P .empty)
    (hdecl : ∀ {task : Task} {d : Decl} {kn : KnownMap}, task.Built → P task → d.WellFormed →
      knownAddDecl task.taskKnown d = .ok kn → task.findGoal = none →
      P ⟨task.taskTdecls ++ [.decl d], kn⟩)
    (helement : ∀ {task : Task} {td : TDecl}, task.Built → P task → td.decl? = none →
      task.findGoal = none → P ⟨task.taskTdecls ++ [td], task.taskKnown⟩)
    (h : task.Built) : P task := by
  induction h with
  | empty => exact hempty
  | @add task task' td htask hd h ih =>
    cases htd : td.decl? with
    | some d =>
      obtain rfl : td = .decl d := by
        cases td <;> cases htd
        rfl
      rcases newDecl_eq_ok h with rfl | ⟨kn, hkn, _, hgoal, rfl⟩
      · exact ih
      · exact hdecl htask ih (hd d rfl) hkn hgoal
    | none =>
      rcases addTdecl_eq_ok h htd with rfl | ⟨rfl, hgoal⟩
      · exact ih
      · exact helement htask ih htd hgoal

theorem Built.known (h : task.Built) : ∀ d ∈ task.taskDecls,
    (∀ s ∈ declNews d, task.taskKnown.mem s = true) ∧
      ∀ syms, getDeclSyms d = .ok syms → ∀ s ∈ syms, task.taskKnown.mem s = true := by
  refine Built.cases_add ?_ ?_ ?_ h
  · exact fun d hd => (not_mem_nil hd).elim
  · intro task d kn htask ih hd hkn hgoal
    have hadd := knownAddDecl_added hkn
    have hmono : ∀ s, task.taskKnown.mem s = true → kn.mem s = true := by
      intro s hs
      rw [TagMap.mem_eq_true_iff] at hs ⊢
      rw [hadd.find]
      split
      · exact ⟨d, rfl⟩
      · exact hs
    intro d' hd'
    rw [taskDecls_concat, mem_append] at hd'
    rcases hd' with hd' | hd'
    · exact ⟨fun s hs => hmono s ((ih d' hd').1 s hs),
        fun syms hsyms s hs => hmono s ((ih d' hd').2 syms hsyms s hs)⟩
    · obtain rfl : d' = d := mem_singleton.mp hd'
      refine ⟨?_, ?_⟩
      · intro s hs
        rw [TagMap.mem_eq_true_iff, hadd.find, if_pos hs]
        exact ⟨d', rfl⟩
      · intro syms hsyms s hs
        obtain ⟨syms', hsyms', hall⟩ := hadd.uses
        rw [hsyms] at hsyms'
        exact hall s (Except.ok.inj hsyms' ▸ hs)
  · intro task td htask ih htd hgoal
    rwa [taskDecls_element htd]

end Task

/-- The symbols of `d` are declared after `d'`. -/
def Decl.Before (d' d : Decl) : Prop :=
  ∀ s ∈ declNews d, s ∉ declNews d' ∧ ∀ syms, getDeclSyms d' = .ok syms → s ∉ syms

namespace Task

theorem Built.pairwise (h : task.Built) : task.taskDecls.Pairwise Decl.Before := by
  refine Built.cases_add ?_ ?_ ?_ h
  · exact .nil
  · intro task d kn htask ih hd hkn hgoal
    have hadd := knownAddDecl_added hkn
    have hnew : ∀ s ∈ declNews d, task.taskKnown.mem s = false := by
      intro s hs
      by_contra hne
      obtain ⟨d', hd'⟩ := (TagMap.mem_eq_true_iff _ _).mp (Bool.not_eq_false _ ▸ hne)
      rw [hadd.fresh s hs] at hd'
      cases hd'
    rw [taskDecls_concat, pairwise_append]
    refine ⟨ih, pairwise_singleton _ _, ?_⟩
    intro d' hd' d'' hd''
    obtain rfl : d'' = d := mem_singleton.mp hd''
    obtain ⟨hnews, hsyms⟩ := htask.known d' hd'
    intro s hs
    refine ⟨fun hmem => ?_, fun syms heq hmem => ?_⟩
    · have := hnews s hmem
      rw [hnew s hs] at this
      cases this
    · have := hsyms syms heq s hmem
      rw [hnew s hs] at this
      cases this
  · intro task td htask ih htd hgoal
    rwa [taskDecls_element htd]

theorem Built.findGoal_eq (h : task.Built) (hmem : .dprop .pgoal pr f ∈ task.taskDecls) :
    task.findGoal = some (pr, f) := by
  revert hmem
  refine Built.cases_add ?_ ?_ ?_ h
  · exact fun hmem => (not_mem_nil hmem).elim
  · intro task d kn htask ih hd hkn hgoal hmem
    rw [taskDecls_concat, mem_append] at hmem
    rcases hmem with hmem | hmem
    · cases hgoal.symm.trans (ih hmem)
    · obtain rfl : _ = d := mem_singleton.mp hmem
      simp [findGoal]
  · intro task td htask ih htd hgoal hmem
    rw [taskDecls_element htd] at hmem
    cases hgoal.symm.trans (ih hmem)

theorem taskDecls_of_findGoal (h : task.findGoal = some (pr, f)) :
    ∃ hyps, task.taskDecls = hyps ++ [.dprop .pgoal pr f] := by
  obtain ⟨tdl, htdl⟩ := findGoal_eq_some h
  refine ⟨tdl.filterMap TDecl.decl?, ?_⟩
  rw [taskDecls, htdl, filterMap_append]
  rfl

end Task

/-! ## The declarations of a transformed task -/

section TransDecl

variable {σ : Type} {fn : σ → Decl → Except Exn (σ × List Decl)}

variable (fn) in
def declOutputs : σ → List Decl → Except Exn (List Decl)
  | _, [] => .ok []
  | s, d :: dl => do
    let (s, out) ← fn s d
    .ok (out ++ (← declOutputs s dl))

theorem mem_declOutputs {dl out : List Decl} {s : σ} (h : declOutputs fn s dl = .ok out)
    {d' : Decl} (hd' : d' ∈ out) : ∃ d ∈ dl, ∃ s s' out, fn s d = .ok (s', out) ∧ d' ∈ out := by
  induction dl generalizing s out with
  | nil =>
    cases h
    cases hd'
  | cons d dl ih =>
    obtain ⟨⟨s', o⟩, hfn, o', ho', h⟩ := bind₂_eq_ok.mp h
    cases h
    rcases mem_append.mp hd' with hd' | hd'
    · exact ⟨d, mem_cons_self, s, s', o, hfn, hd'⟩
    · obtain ⟨e, he, hrest⟩ := ih ho' hd'
      exact ⟨e, mem_cons_of_mem d he, hrest⟩

theorem foldlM_addDecl_sublist {dl : List Decl} (h : dl.foldlM Task.addDecl task = .ok task') :
    ∃ dl', dl'.Sublist dl ∧ task'.taskDecls = task.taskDecls ++ dl' := by
  induction dl generalizing task with
  | nil =>
    rw [foldlM_nil_eq_ok] at h
    exact ⟨[], .slnil, by rw [h, append_nil]⟩
  | cons d dl ih =>
    obtain ⟨task₁, hd, hdl⟩ := foldlM_cons_eq_ok.mp h
    obtain ⟨dl', hsub, heq⟩ := ih hdl
    rcases Task.newDecl_eq_ok hd with rfl | ⟨kn, _, _, _, rfl⟩
    · exact ⟨dl', hsub.cons d, heq⟩
    · refine ⟨d :: dl', hsub.cons_cons d, ?_⟩
      rw [heq, Task.taskDecls_concat, append_assoc]
      rfl

theorem foldlM_transStep_sublist {tdl : List TDecl} {s s' : σ}
    (h : tdl.foldlM (transStep fn) (s, task) = .ok (s', task')) :
    ∃ out dl', declOutputs fn s (tdl.filterMap TDecl.decl?) = .ok out ∧ dl'.Sublist out ∧
      task'.taskDecls = task.taskDecls ++ dl' := by
  induction tdl generalizing s task with
  | nil =>
    cases foldlM_nil_eq_ok.mp h
    exact ⟨[], [], rfl, .slnil, (append_nil _).symm⟩
  | cons td tdl ih =>
    obtain ⟨⟨s₁, task₁⟩, htd, htdl⟩ := foldlM_cons_eq_ok.mp h
    obtain ⟨out, dl', hout, hsub, heq⟩ := ih htdl
    cases hd : td.decl? with
    | some d =>
      obtain rfl : td = .decl d := by
        cases td <;> cases hd
        rfl
      obtain ⟨⟨s₂, dl⟩, hfn, task₂, hadd, htd⟩ := bind₂_eq_ok.mp htd
      cases htd
      obtain ⟨dl'', hsub', heq'⟩ := foldlM_addDecl_sublist hadd
      refine ⟨dl ++ out, dl'' ++ dl', ?_, hsub'.append hsub, ?_⟩
      · simp [TDecl.decl?, declOutputs, hfn, hout, bind, Except.bind]
      · rw [heq, heq', append_assoc]
    | none =>
      have hsame : s₁ = s ∧ task₁.taskDecls = task.taskDecls := by
        have htd' : (do .ok (s, ← task.addTdecl td)) = Except.ok (s₁, task₁) := by
          cases td with
          | decl d => cases hd
          | _ => exact htd
        obtain ⟨task₂, hadd, htd'⟩ := bind_eq_ok.mp htd'
        cases htd'
        refine ⟨rfl, ?_⟩
        rcases Task.addTdecl_eq_ok hadd hd with rfl | ⟨rfl, _⟩
        · rfl
        · exact Task.taskDecls_element hd task
      obtain ⟨rfl, htask⟩ := hsame
      exact ⟨out, dl', by simpa [filterMap_cons, hd] using hout, hsub, htask ▸ heq⟩

/-- A transformed task has no other declarations than those that were made. -/
theorem transDecl_sublist {s : σ} (h : transDecl fn s task = .ok task') :
    ∃ out, declOutputs fn s task.taskDecls = .ok out ∧ task'.taskDecls.Sublist out := by
  obtain ⟨⟨s', task₁⟩, hfold, h⟩ := bind_eq_ok.mp h
  cases h
  obtain ⟨out, dl', hout, hsub, heq⟩ := foldlM_transStep_sublist hfold
  refine ⟨out, hout, ?_⟩
  rw [heq]
  exact hsub

end TransDecl

/-! ## Tasks from declarations -/

def taskOf (dl : List Decl) : Task :=
  match dl.foldlM Task.addDecl .empty with
  | .ok task => task
  | .error _ => .empty

theorem built_taskOf {dl : List Decl} (hdl : ∀ d ∈ dl, d.WellFormed) : (taskOf dl).Built := by
  unfold taskOf
  split
  · next task h =>
      have hrun : ∀ (l : List Decl) (task₀ : Task), task₀.Built → (∀ d ∈ l, d.WellFormed) →
          l.foldlM Task.addDecl task₀ = .ok task → task.Built := by
        intro l
        induction l with
        | nil =>
          intro task₀ h₀ _ h
          exact foldlM_nil_eq_ok.mp h ▸ h₀
        | cons d l ih =>
          intro task₀ h₀ hl h
          rw [forall_mem_cons] at hl
          obtain ⟨task₁, hd, h⟩ := foldlM_cons_eq_ok.mp h
          exact ih task₁ (h₀.newDecl hl.1 hd) hl.2 h
      exact hrun dl .empty .empty hdl h
  · exact .empty

/-! ## Declarations in place of others -/

def Decl.isGoal : Decl → Bool
  | .dprop .pgoal _ _ => true
  | _ => false

inductive DiffDecl where
  | goalDecl (d : Decl)
  | normalDecl (d : Decl)

/-- What is made of the goal itself: no new goal may arise here. -/
def goalStep (acc : Option Decl × Task) : DiffDecl → Except Exn (Option Decl × Task)
  | .goalDecl _ => .error .assertFailure
  | .normalDecl d => do .ok (acc.1, ← acc.2.addDecl d)

/-- What is made of another declaration: a new goal is kept until the goal is reached. -/
def diffStep (acc : Option Decl × Task) : DiffDecl → Except Exn (Option Decl × Task)
  | .goalDecl d =>
    if acc.1.isSome then .error .assertFailure
    else if d.isGoal then .ok (some d, acc.2)
    else .error .assertFailure
  | .normalDecl d => do .ok (acc.1, ← acc.2.addDecl d)

end Why3
