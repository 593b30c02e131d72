import Why3.Logic.TaskSig
import Why3.Transform.DestructShape

/-!
# Taking a hypothesis apart is sound

Each list that the hypothesis is split into gives one task: the declarations of the list
take the place of the hypothesis, and a new goal that of the goal. If what is split into
cases has no type variables and all these tasks are valid, so is the task that was split.

A hypothesis with type variables is true for all types. The parts of a disjunction need
not be true for all types then, although one of them is for each type.
-/

namespace Why3

open Lib Term Interp List

variable {d : Decl} {y : IsDestructed} {accs : List (Option Decl × Task)} {x : List DiffDecl}
variable {acc : Option Decl × Task} {pr : PrSymbol} {task : Task} {f : Term} {τ : TyVal} {D : Type}
variable {n : ℕ}
variable {I : Interp D} {recursive : Bool} {goal : Decl} {accs' : List (Option Decl × Task)}
variable {tasks : List Task} {acc' : Option Decl × Task} {gpr : PrSymbol} {td : TDecl} {g : Term}
variable {ρ : VSymbol → D} {n' : ℕ}

/-! ## Transformations with several results -/

section DeclGoalL

variable {fn : Decl → Except Exn (List (List DiffDecl))}

def Enlarged (dl : List Decl) (acc acc' : Option Decl × Task) : Prop :=
  acc'.1 = acc.1 ∧ ∃ dl', dl'.Sublist dl ∧ acc'.2.taskDecls = acc.2.taskDecls ++ dl'

theorem Enlarged.trans {dl dl' : List Decl} {acc'' : Option Decl × Task} (h : Enlarged dl acc acc')
    (h' : Enlarged dl' acc' acc'') : Enlarged (dl ++ dl') acc acc'' := by
  obtain ⟨hgoal, l, hl, heq⟩ := h
  obtain ⟨hgoal', l', hl', heq'⟩ := h'
  exact ⟨hgoal'.trans hgoal, l ++ l', hl.append hl', by rw [heq', heq, append_assoc]⟩

theorem enlarged_addDecl (goal : Option Decl) {task' : Task} (h : task.addDecl d = .ok task') :
    Enlarged [d] (goal, task) (goal, task') := by
  have hrun : [d].foldlM Task.addDecl task = .ok task' :=
    foldlM_cons_eq_ok.mpr ⟨task', h, foldlM_nil_eq_ok.mpr rfl⟩
  obtain ⟨dl', hsub, heq⟩ := foldlM_addDecl_sublist hrun
  exact ⟨rfl, dl', hsub, heq⟩

def Plain (fn : Decl → Except Exn (List (List DiffDecl))) (td : TDecl) : Prop :=
  ∀ d, td.decl? = some d → d.isGoal = false ∧ fn d = .ok [[.normalDecl d]]

theorem declGoalStep_plain (htd : Plain fn td) (h : declGoalStep fn acc td = .ok accs) :
    ∃ acc', accs = [acc'] ∧ Enlarged td.decl?.toList acc acc' := by
  cases hdecl : td.decl? with
  | some d =>
    obtain rfl : td = .decl d := by
      cases td <;> cases hdecl
      rfl
    obtain ⟨hgoal, hfn⟩ := htd d rfl
    rw [declGoalStep, hgoal, if_neg Bool.false_ne_true, hfn] at h
    have hsteps := mapM_eq_ok.mp h
    cases hsteps with
    | cons hstep hnil =>
      cases hnil
      obtain ⟨acc₁, hadd, hstep⟩ := foldlM_cons_eq_ok.mp hstep
      cases foldlM_nil_eq_ok.mp hstep
      obtain ⟨task', hadd', heq⟩ := bind_eq_ok.mp hadd
      cases heq
      exact ⟨_, rfl, enlarged_addDecl _ hadd'⟩
  | none =>
    have h' : (do .ok [(acc.1, ← acc.2.addTdecl td)]) = Except.ok accs := by
      cases td with
      | decl d => cases hdecl
      | _ => exact h
    obtain ⟨task', hadd, heq⟩ := bind_eq_ok.mp h'
    cases heq
    refine ⟨_, rfl, rfl, [], .slnil, ?_⟩
    rcases Task.addTdecl_eq_ok hadd hdecl with rfl | ⟨rfl, _⟩
    · exact (append_nil _).symm
    · simp [Task.taskDecls, hdecl]

/-- When each state has one successor, the states after the step are the successors. -/
theorem declGoalSteps_forall₂ {R : Option Decl × Task → Option Decl × Task → Prop}
    (hstep : ∀ {acc accs}, declGoalStep fn acc td = .ok accs → ∃ acc', accs = [acc'] ∧ R acc acc')
    (h : declGoalSteps fn accs td = .ok accs') : Forall₂ R accs accs' := by
  obtain ⟨ll, hll, heq⟩ := bind_eq_ok.mp h
  cases heq
  have hall := mapM_eq_ok.mp hll
  clear hll h
  induction hall with
  | nil => exact .nil
  | cons hacc _ ih =>
    obtain ⟨acc', rfl, hacc'⟩ := hstep hacc
    exact .cons hacc' ih

theorem foldlM_plain {tdl : List TDecl} (htdl : ∀ td ∈ tdl, Plain fn td)
    (h : tdl.foldlM (declGoalSteps fn) accs = .ok accs') :
    Forall₂ (Enlarged (tdl.filterMap TDecl.decl?)) accs accs' := by
  induction tdl generalizing accs with
  | nil =>
    cases foldlM_nil_eq_ok.mp h
    exact forall₂_same.mpr fun acc _ => ⟨rfl, [], .slnil, (append_nil _).symm⟩
  | cons td tdl ih =>
    rw [forall_mem_cons] at htdl
    obtain ⟨accs₁, hstep, h⟩ := foldlM_cons_eq_ok.mp h
    have hfirst := declGoalSteps_forall₂ (fun hacc => declGoalStep_plain htdl.1 hacc) hstep
    have heq : (td :: tdl).filterMap TDecl.decl? =
        td.decl?.toList ++ tdl.filterMap TDecl.decl? := by
      rw [filterMap_cons]
      cases td.decl? <;> rfl
    rw [heq]
    refine forall₂_comp ?_ hfirst (ih htdl.2 h)
    exact fun _ _ _ => Enlarged.trans

/-! ## The declaration that is replaced -/

def normalDecls (x : List DiffDecl) : List Decl :=
  x.filterMap fun
    | .normalDecl d => some d
    | .goalDecl _ => none

theorem foldlM_diffStep (h : x.foldlM diffStep acc = .ok acc') :
    (acc'.1 = acc.1 ∧ (∀ d, .goalDecl d ∉ x) ∨ ∃ d, .goalDecl d ∈ x ∧ acc'.1 = some d) ∧
      ∃ dl', dl'.Sublist (normalDecls x) ∧ acc'.2.taskDecls = acc.2.taskDecls ++ dl' := by
  induction x generalizing acc with
  | nil =>
    cases foldlM_nil_eq_ok.mp h
    exact ⟨.inl ⟨rfl, by simp⟩, [], .slnil, (append_nil _).symm⟩
  | cons y x ih =>
    obtain ⟨acc₁, hy, hx⟩ := foldlM_cons_eq_ok.mp h
    obtain ⟨hgoal, dl', hsub, heq⟩ := ih hx
    cases y with
    | normalDecl d =>
      obtain ⟨task', hadd, hy⟩ := bind_eq_ok.mp hy
      cases hy
      obtain ⟨_, dl, hdl, heq'⟩ := enlarged_addDecl acc.1 hadd
      refine ⟨?_, dl ++ dl', hdl.append hsub, ?_⟩
      · rcases hgoal with ⟨hgoal, hno⟩ | ⟨g, hg, hgoal⟩
        · exact .inl ⟨hgoal, fun g => by simp [hno g]⟩
        · exact .inr ⟨g, mem_cons_of_mem _ hg, hgoal⟩
      · rw [heq, heq', append_assoc]
    | goalDecl d =>
      rw [diffStep] at hy
      split at hy
      · cases hy
      · split at hy
        · cases hy
          refine ⟨.inr ?_, dl', hsub, heq⟩
          rcases hgoal with ⟨hgoal, _⟩ | ⟨g, hg, hgoal⟩
          · exact ⟨d, mem_cons_self, hgoal⟩
          · exact ⟨g, mem_cons_of_mem _ hg, hgoal⟩
        · cases hy

/-- The task that comes of the declarations before and after the one that is replaced by
`x`, and of the goal or the new one. -/
def ResultOf (pre post : List Decl) (goal : Decl) (x : List DiffDecl) (task : Task) : Prop :=
  ∃ g, (g = goal ∧ (∀ d, .goalDecl d ∉ x) ∨ .goalDecl g ∈ x) ∧
    task.taskDecls.Sublist (pre ++ normalDecls x ++ post ++ [g])

theorem declGoalStep_goal (hgoal : goal.isGoal = true) (hfn : fn goal = .ok [[.normalDecl goal]])
    (h : declGoalStep fn acc (.decl goal) = .ok accs) :
    ∃ acc', accs = [acc'] ∧ Enlarged [acc.1.getD goal] acc acc' := by
  rw [declGoalStep, if_pos hgoal] at h
  obtain ⟨g, task⟩ := acc
  cases g with
  | none =>
    rw [hfn] at h
    have hsteps := mapM_eq_ok.mp h
    cases hsteps with
    | cons hstep hnil =>
      cases hnil
      obtain ⟨acc₁, hadd, hstep⟩ := foldlM_cons_eq_ok.mp hstep
      cases foldlM_nil_eq_ok.mp hstep
      obtain ⟨task', hadd', heq⟩ := bind_eq_ok.mp hadd
      cases heq
      exact ⟨_, rfl, enlarged_addDecl _ hadd'⟩
  | some g =>
    obtain ⟨task', hadd, h⟩ := bind_eq_ok.mp h
    cases h
    exact ⟨_, rfl, enlarged_addDecl _ hadd⟩

/-- When one declaration is replaced, there is a result for each list of declarations that
takes its place. -/
theorem declGoalL_eq_ok {pre post : List TDecl}
    (heq : task.taskTdecls = pre ++ .decl d :: (post ++ [.decl goal]))
    (hpre : ∀ td ∈ pre, Plain fn td) (hpost : ∀ td ∈ post, Plain fn td) (hd : d.isGoal = false)
    (hgoal : goal.isGoal = true) (hfn : fn goal = .ok [[.normalDecl goal]])
    (h : declGoalL fn task = .ok tasks) :
    ∃ xs, fn d = .ok xs ∧ Forall₂ (ResultOf (pre.filterMap TDecl.decl?)
      (post.filterMap TDecl.decl?) goal) xs tasks := by
  obtain ⟨accs, hrun, htasks⟩ := bind_eq_ok.mp h
  cases htasks
  rw [heq, foldlM_append] at hrun
  obtain ⟨accs₁, h₁, h⟩ := bind_eq_ok.mp hrun
  obtain ⟨accs₂, h₂, h⟩ := foldlM_cons_eq_ok.mp h
  rw [foldlM_append] at h
  obtain ⟨accs₃, h₃, h⟩ := bind_eq_ok.mp h
  obtain ⟨accs₄, h₄, h⟩ := foldlM_cons_eq_ok.mp h
  cases foldlM_nil_eq_ok.mp h
  have hpre' := foldlM_plain hpre h₁
  have hpost' := foldlM_plain hpost h₃
  have hgoal' := declGoalSteps_forall₂ (declGoalStep_goal hgoal hfn) h₄
  cases hpre' with
  | cons hacc hnil =>
    cases hnil
    next acc₁ =>
    obtain ⟨hnone, dl₁, hdl₁, hdecls₁⟩ := hacc
    obtain ⟨ll, hll, h₂⟩ := bind_eq_ok.mp h₂
    cases h₂
    cases mapM_eq_ok.mp hll with
    | cons hstep hnil =>
      cases hnil
      rw [declGoalStep, hd, if_neg Bool.false_ne_true] at hstep
      obtain ⟨xs, hxs, hstep⟩ := bind_eq_ok.mp hstep
      refine ⟨xs, hxs, ?_⟩
      rw [forall₂_map_right_iff]
      have hsteps := mapM_eq_ok.mp hstep
      rw [flatten_singleton] at hpost'
      have hend : Forall₂ (fun acc₂ acc₄ => ∃ acc₃ : Option Decl × Task,
          Enlarged (post.filterMap TDecl.decl?) acc₂ acc₃ ∧
            Enlarged [acc₃.1.getD goal] acc₃ acc₄) _ accs :=
        forall₂_comp (fun _ acc₃ _ h h' => ⟨acc₃, h, h'⟩) hpost' hgoal'
      refine forall₂_comp ?_ hsteps hend
      rintro x acc₂ acc₄ hx ⟨acc₃, ⟨hgoal₃, dl₃, hdl₃, hdecls₃⟩, hgoal₄, dl₄, hdl₄, hdecls₄⟩
      obtain ⟨hgoal₂, dl₂, hdl₂, hdecls₂⟩ := foldlM_diffStep hx
      refine ⟨acc₃.1.getD goal, ?_, ?_⟩
      · rw [hgoal₃]
        rcases hgoal₂ with ⟨hgoal₂, hno⟩ | ⟨g, hg, hgoal₂⟩
        · rw [hgoal₂, hnone]
          exact .inl ⟨rfl, hno⟩
        · rw [hgoal₂]
          exact .inr hg
      · rw [hdecls₄, hdecls₃, hdecls₂, hdecls₁]
        exact ((hdl₁.append hdl₂).append hdl₃).append hdl₄

end DeclGoalL

/-! ## The declarations of the parts -/

def IsDestructed.Becomes (y : IsDestructed) (dd : DiffDecl) : Prop :=
  match y with
  | .axiomTerm t => t.freeVars = [] ∧ ∃ pr, dd = .normalDecl (.dprop PropKind.paxiom pr t)
  | .param d => dd = .normalDecl d
  | .goalTerm t => ∃ pr, dd = .goalDecl (.dprop .pgoal pr (t.attrAdd (.expl destructExpl)))

theorem diffDecl_becomes {dd : DiffDecl} (h : diffDecl n y = .ok (n', dd)) : y.Becomes dd := by
  cases y with
  | axiomTerm t =>
    obtain ⟨d, hd, h⟩ := bind_eq_ok.mp h
    obtain ⟨f, hf, hd⟩ := bind_eq_ok.mp hd
    cases hd
    cases h
    obtain ⟨hclosed, rfl⟩ := checkFvs_eq_ok hf
    exact ⟨hclosed, _, rfl⟩
  | param d =>
    cases h
    rfl
  | goalTerm t =>
    obtain ⟨d, hd, h⟩ := bind_eq_ok.mp h
    obtain ⟨f, hf, hd⟩ := bind_eq_ok.mp hd
    cases hd
    cases h
    exact ⟨_, by rw [(checkFvs_eq_ok hf).2]⟩

theorem diffDecls_becomes {l : List IsDestructed} (h : diffDecls n l = .ok (n', x)) :
    Forall₂ IsDestructed.Becomes l x := by
  induction l generalizing n x with
  | nil =>
    cases h
    exact .nil
  | cons y l ih =>
    obtain ⟨⟨n₁, d⟩, hd, ⟨n₂, dl⟩, hdl, h⟩ := bind₂_eq_ok.mp h
    cases h
    exact .cons (diffDecl_becomes hd) (ih hdl)

theorem diffDeclsL_becomes {l : Parallel} {xs : List (List DiffDecl)} (h : diffDeclsL n l = .ok xs) :
    Forall₂ (Forall₂ IsDestructed.Becomes) l xs := by
  induction l generalizing n xs with
  | nil =>
    cases h
    exact .nil
  | cons y l ih =>
    obtain ⟨⟨n₁, d⟩, hd, dl, hdl, h⟩ := bind₂_eq_ok.mp h
    cases h
    exact .cons (diffDecls_becomes hd) (ih hdl)

theorem mem_normalDecls : d ∈ normalDecls x ↔ .normalDecl d ∈ x := by
  rw [normalDecls, mem_filterMap]
  constructor
  · rintro ⟨y, hy, heq⟩
    cases y with
    | normalDecl d' =>
      cases heq
      exact hy
    | goalDecl d' => cases heq
  · exact fun hd => ⟨_, hd, rfl⟩

theorem satisfies_of_becomes {S : DataSig} {one : Prop} {w : World D S one}
    (hw : ∀ t, w.Holds t → w.I.Valid t) (hy : y.Becomes (.normalDecl d)) (hacc : w.Accepts y) :
    w.I.Satisfies d := by
  cases y with
  | axiomTerm t =>
    obtain ⟨hclosed, pr, heq⟩ := hy
    cases heq
    exact hw t (hacc hclosed)
  | param d' =>
    cases hy
    exact hacc
  | goalTerm t =>
    obtain ⟨pr, heq⟩ := hy
    cases heq

theorem isGoal_of_becomes {one : Prop} (hy : y.Becomes (.normalDecl d)) (hset : y.Settled one n) :
    d.isGoal = false := by
  cases y with
  | axiomTerm t =>
    obtain ⟨_, pr, heq⟩ := hy
    cases heq
    rfl
  | param d' =>
    cases hy
    exact hset.2
  | goalTerm t =>
    obtain ⟨pr, heq⟩ := hy
    cases heq

theorem becomes_goal {g : Decl} (hy : y.Becomes (.goalDecl g)) :
    ∃ t pr, y = .goalTerm t ∧ g = .dprop .pgoal pr (t.attrAdd (.expl destructExpl)) := by
  cases y with
  | axiomTerm t =>
    obtain ⟨_, pr, heq⟩ := hy
    cases heq
  | param d' => cases hy
  | goalTerm t =>
    obtain ⟨pr, heq⟩ := hy
    cases heq
    exact ⟨t, pr, rfl, rfl⟩

theorem destructDecl_of_not_mem (h : Sym.pr pr ∉ declNews d) :
    destructDecl recursive n pr d = .ok [[.normalDecl d]] := by
  cases d with
  | dprop k dpr f =>
    cases k with
    | paxiom =>
      refine if_neg ?_
      rintro rfl
      exact h mem_cons_self
    | _ => rfl
  | _ => rfl

/-! ## The task -/

section

variable (htask : task.Built) (hgoal : task.findGoal = some (gpr, g))
  (hmem : .dprop PropKind.paxiom pr f ∈ task.taskDecls)
include htask hgoal hmem

/-- A hypothesis of a task with a goal: the declarations before it, after it, and the goal. -/
theorem Task.Built.split :
    ∃ pre post, task.taskTdecls =
        pre ++ .decl (.dprop PropKind.paxiom pr f) :: (post ++ [.decl (.dprop .pgoal gpr g)]) ∧
      ∀ d ∈ pre.filterMap TDecl.decl? ++ post.filterMap TDecl.decl?,
        d ∈ task.taskDecls ∧ Sym.pr pr ∉ declNews d ∧ d.isGoal = false := by
  obtain ⟨tdl, htdl⟩ := Task.findGoal_eq_some hgoal
  have hmem' : .decl (.dprop PropKind.paxiom pr f) ∈ tdl := by
    obtain ⟨td, htd, hdecl⟩ := mem_filterMap.mp hmem
    rw [htdl, mem_append, mem_singleton] at htd
    rcases htd with htd | rfl
    · cases td <;> cases hdecl
      exact htd
    · cases hdecl
  obtain ⟨pre, post, rfl⟩ := append_of_mem hmem'
  have heq : task.taskTdecls =
      pre ++ .decl (.dprop PropKind.paxiom pr f) :: (post ++ [.decl (.dprop .pgoal gpr g)]) := by
    rw [htdl]
    simp
  refine ⟨pre, post, heq, ?_⟩
  have hdecls : task.taskDecls = pre.filterMap TDecl.decl? ++
      .dprop PropKind.paxiom pr f :: (post.filterMap TDecl.decl? ++ [.dprop .pgoal gpr g]) := by
    simp [Task.taskDecls, heq, TDecl.decl?]
  have hpair := htask.pairwise
  rw [hdecls, pairwise_append, pairwise_cons, pairwise_append] at hpair
  obtain ⟨_, ⟨hafter, _, _, hlast⟩, hbefore⟩ := hpair
  -- neither the hypothesis nor the goal is declared twice
  have hfresh : ∀ d ∈ pre.filterMap TDecl.decl? ++ post.filterMap TDecl.decl?,
      Sym.pr pr ∉ declNews d ∧ Sym.pr gpr ∉ declNews d := by
    rw [forall_mem_append]
    constructor
    · intro d hd
      exact ⟨(hbefore d hd _ mem_cons_self _ mem_cons_self).1,
        (hbefore d hd (.dprop .pgoal gpr g) (by simp) _ mem_cons_self).1⟩
    · intro d hd
      refine ⟨fun hpr => ?_, (hlast d hd _ mem_cons_self _ mem_cons_self).1⟩
      exact (hafter d (mem_append_left _ hd) _ hpr).1 mem_cons_self
  intro d hd
  have hd' : d ∈ task.taskDecls := by
    rw [hdecls]
    rcases mem_append.mp hd with hd | hd <;> simp [hd]
  refine ⟨hd', (hfresh d hd).1, ?_⟩
  by_contra hne
  obtain ⟨pr', f', rfl⟩ : ∃ pr' f', d = .dprop .pgoal pr' f' := by
    cases d with
    | dprop k pr' f' =>
      cases k with
      | pgoal => exact ⟨pr', f', rfl⟩
      | _ => exact absurd rfl hne
    | _ => exact absurd rfl hne
  have hgoal' := htask.findGoal_eq hd'
  rw [hgoal] at hgoal'
  cases hgoal'
  exact (hfresh _ hd).2 mem_cons_self

/-- There is a result for each list that the hypothesis is split into. -/
theorem destruct_results (h : destruct recursive n pr task = .ok tasks) :
    ∃ pre post n' l,
      (∀ d ∈ pre ++ post, d ∈ task.taskDecls ∧ Sym.pr pr ∉ declNews d ∧ d.isGoal = false) ∧
      destructFmla recursive (f.weight + 1) n true f = .ok (n', l) ∧
      Forall₂ (fun items task' => ∃ x, Forall₂ IsDestructed.Becomes items x ∧
        ResultOf pre post (.dprop .pgoal gpr g) x task') l tasks := by
  obtain ⟨pre, post, heq, hothers⟩ := htask.split hgoal hmem
  have hplain : ∀ td, (∀ d, td.decl? = some d →
      d ∈ pre.filterMap TDecl.decl? ++ post.filterMap TDecl.decl?) →
      Plain (destructDecl recursive n pr) td := by
    intro td htd d hd
    obtain ⟨_, hnews, hgoal⟩ := hothers d (htd d hd)
    exact ⟨hgoal, destructDecl_of_not_mem hnews⟩
  obtain ⟨xs, hxs, hres⟩ := declGoalL_eq_ok heq
    (fun td htd => hplain td fun d hd =>
      mem_append_left _ (mem_filterMap.mpr ⟨td, htd, hd⟩))
    (fun td htd => hplain td fun d hd =>
      mem_append_right _ (mem_filterMap.mpr ⟨td, htd, hd⟩)) rfl rfl rfl h
  rw [destructDecl, if_pos rfl] at hxs
  obtain ⟨⟨n', l⟩, hl, hxs⟩ := bind_eq_ok.mp hxs
  exact ⟨_, _, n', l, hothers, hl, forall₂_comp (fun _ x _ hx hres => ⟨x, hx, hres⟩)
    (diffDeclsL_becomes hxs) hres⟩

end

theorem destruct_others {pre post : List Decl} {items : List IsDestructed}
    (hothers : ∀ d ∈ pre ++ post, d ∈ task.taskDecls ∧ Sym.pr pr ∉ declNews d ∧ d.isGoal = false)
    (hx : Forall₂ IsDestructed.Becomes items x) {P : Decl → Prop}
    (hold : ∀ d ∈ task.taskDecls, d ≠ .dprop PropKind.paxiom pr f → d.isGoal = false → P d)
    (hnew : ∀ y ∈ items, ∀ d, y.Becomes (.normalDecl d) → P d) :
    ∀ d ∈ pre ++ normalDecls x ++ post, P d := by
  have hkept : ∀ d ∈ pre ++ post, P d := by
    intro d hd
    obtain ⟨hmem, hnews, hgoal⟩ := hothers d hd
    refine hold d hmem ?_ hgoal
    rintro rfl
    exact hnews mem_cons_self
  rw [forall_mem_append] at hkept
  refine forall_mem_append.mpr ⟨forall_mem_append.mpr ⟨hkept.1, ?_⟩, hkept.2⟩
  intro d hd
  obtain ⟨y, hy, hyd⟩ := forall₂_mem_right hx (mem_normalDecls.mp hd)
  exact hnew y hy d hyd

/-- When all tasks that come of taking apart a hypothesis are valid, so is the task, if what is
split into cases has no type variables. A premise that becomes a goal has to be shown without the
hypothesis. -/
theorem destruct_sound {task : Task} (htask : task.Built) {recursive : Bool} {n : ℕ}
    {pr gpr : PrSymbol} {f g : Term} {tasks : List Task}
    (hgoal : task.findGoal = some (gpr, g)) (hmem : .dprop PropKind.paxiom pr f ∈ task.taskDecls)
    (hf : WellTyped (Task.sig htask) [] f none) (hclosed : f.freeVars = [])
    (hn : ∀ d ∈ task.taskDecls, d.Below n) (hequ : (Sym.ls psEqu).Below n)
    (hcases : CasesClosed recursive true f) (h : destruct recursive n pr task = .ok tasks) :
    ((∀ task' ∈ tasks, task'.Valid) → task.Valid) ∧
      ∀ task' ∈ tasks, (∀ d ∈ task'.taskDecls, d.isGoal = true → d = .dprop .pgoal gpr g) ∨
        ∀ d ∈ task'.taskDecls, d.isGoal = false →
          d ∈ task.taskDecls ∧ d ≠ .dprop PropKind.paxiom pr f := by
  obtain ⟨pre, post, n', l, hothers, hl, hres⟩ := destruct_results htask hgoal hmem h
  have hready : Ready (Task.sig htask) False n f :=
    ⟨htask.sig_below hn, hequ, hf, hn _ hmem, by simp [hclosed], False.elim⟩
  have hcov : Covered (Task.sig htask) f := by
    intro s hs D I τ hI hfree
    refine htask.exhaustive hmem ?_ hI hfree s (mem_flatMap.mpr ⟨f, mem_cons_self, hs⟩)
    exact forall_mem_singleton.mpr ⟨[], none, hf⟩
  have hspec := destructFmla_spec recursive _ False hready (fun _ => hcov) (fun _ => hcases) hl
  refine ⟨fun hvalid => ⟨gpr, g, hgoal, fun D I hI => ?_⟩, fun task' htask' => ?_⟩
  · obtain ⟨items, hitems, w, hagree, hacc⟩ := hspec.complete
      (.ofInterp hI.sound (htask.free hI)) fun p hp => hI.decls _ hmem p.1 p.2 hp
    have hall : ∀ t, w.Holds t → w.I.Valid t := fun t ht τ ρ hρ =>
      ht (τ, ρ) (hagree.points ▸ hagree.interp.typedVal.mp hρ)
    obtain ⟨task', htask', x, hx, g', hg', hsub⟩ := forall₂_mem_left hres hitems
    obtain ⟨pr', f', hfind, hf'⟩ := hvalid task' htask'
    have hsat : ∀ d ∈ pre ++ normalDecls x ++ post, w.I.Satisfies d ∧ d.isGoal = false := by
      refine destruct_others (f := f) hothers hx ?_ ?_
      · exact fun d hd _ hgoal => ⟨hagree.interp.satisfies (hn d hd) (hI.decls d hd), hgoal⟩
      · exact fun y hy d hyd =>
          ⟨satisfies_of_becomes hall hyd (hacc y hy),
            isGoal_of_becomes hyd (hspec.settled items hitems y hy)⟩
    have hgoal' : g' = .dprop .pgoal gpr g ∨ ∃ y ∈ items, y.Becomes (.goalDecl g') :=
      hg'.imp And.left fun hg' => forall₂_mem_right hx hg'
    have hmodels : w.I.Models task'.taskDecls := by
      refine ⟨w.sound, AgreeOn.disjoint hagree.interp hI.disjoint, fun d hd => ?_⟩
      rcases mem_append.mp (hsub.subset hd) with hd | hd
      · exact (hsat d hd).1
      · obtain rfl := mem_singleton.mp hd
        rcases hgoal' with rfl | ⟨y, _, hy⟩
        · trivial
        · obtain ⟨t, pr'', _, rfl⟩ := becomes_goal hy
          trivial
    obtain rfl : .dprop .pgoal pr' f' = g' := by
      obtain ⟨hyps, hhyps⟩ := Task.taskDecls_of_findGoal hfind
      have hlast : .dprop .pgoal pr' f' ∈ task'.taskDecls := by simp [hhyps]
      rcases mem_append.mp (hsub.subset hlast) with hlast | hlast
      · cases (hsat _ hlast).2
      · exact mem_singleton.mp hlast
    have hvalid' := hf' D w.I hmodels
    rcases hgoal' with hgoal' | ⟨y, hy, hyg⟩
    · cases hgoal'
      have hmem' : .dprop .pgoal gpr g ∈ task.taskDecls := by
        obtain ⟨hyps, hhyps⟩ := Task.taskDecls_of_findGoal hgoal
        simp [hhyps]
      exact hagree.interp.symm.valid (hn _ hmem') hvalid'
    · -- the new goal is a premise that is false for some type
      obtain ⟨t, _, rfl, heq⟩ := becomes_goal hyg
      cases heq
      refine absurd (fun p hp => ?_) (hacc _ hy)
      have hholds := hvalid' p.1 p.2 (w.typed p hp)
      rwa [Holds, Term.attrAdd, eval_withAttrs] at hholds
  · obtain ⟨items, hitems, x, hx, g', hg', hsub⟩ := forall₂_mem_right hres htask'
    rcases hg' with ⟨rfl, hno⟩ | hg'
    · left
      intro d hd hisGoal
      rcases mem_append.mp (hsub.subset hd) with hd | hd
      · have := destruct_others (f := f) (P := fun d => d.isGoal = false) hothers hx
          (fun _ _ _ hgoal => hgoal)
          (fun y hy d hyd => isGoal_of_becomes hyd (hspec.settled items hitems y hy)) d hd
        rw [hisGoal] at this
        cases this
      · exact mem_singleton.mp hd
    · right
      obtain ⟨y, hy, hyg⟩ := forall₂_mem_right hx hg'
      obtain ⟨t, _, rfl, rfl⟩ := becomes_goal hyg
      intro d hd hisGoal
      rcases mem_append.mp (hsub.subset hd) with hd | hd
      · refine destruct_others (P := fun d => d ∈ task.taskDecls ∧ d ≠ .dprop PropKind.paxiom pr f)
          hothers hx (fun d hd hne _ => ⟨hd, hne⟩) (fun y hy' d hyd => ?_) d hd
        -- the goal is alone
        rw [(destructFmla_goals recursive _ hl).alone items hitems t hy, mem_singleton] at hy'
        subst hy'
        obtain ⟨_, heq⟩ := hyd
        cases heq
      · obtain rfl := mem_singleton.mp hd
        cases hisGoal

/-! ## Examples -/

def psP : LSymbol := ⟨⟨70⟩, [], none, 0⟩

def psQ : LSymbol := ⟨⟨71⟩, [], none, 0⟩

def atomP : Term := tapp [] psP [] none

def atomQ : Term := tapp [] psQ [] none

def tvPoly : TvSymbol := ⟨⟨74⟩⟩

def polyPred : LSymbol := ⟨⟨75⟩, [.tyvar tvPoly], none, 0⟩

def intConst : LSymbol := ⟨⟨76⟩, [], some tyInt, 0⟩

def realConst : LSymbol := ⟨⟨77⟩, [], some tyReal, 0⟩

def vsPoly : VSymbol := ⟨⟨78⟩, .tyvar tvPoly⟩

/-- `forall x : 'a. p x` -/
def allHold : Term := tquant [] .tforall [vsPoly] [] (tapp [] polyPred [tbnd [] 0 (.tyvar tvPoly)]
    none)

/-- `forall x : 'a. not (p x)` -/
def noneHolds : Term :=
  tquant [] .tforall [vsPoly] [] (tnot [] (tapp [] polyPred [tbnd [] 0 (.tyvar tvPoly)] none))

def splitTask (hyps : List Decl) : Task := taskOf ([.dparam psP, .dparam psQ, .dparam polyPred] ++
  hyps ++ [.dprop .pgoal ⟨⟨73⟩⟩ (tbinop [] .tor atomQ atomP)])

/-- `(forall x : 'a. r x) /\ (p \/ q)` -/
def polyAnd : Term := tbinop [] .tand allHold (tbinop [] .tor atomP atomQ)

def splitHyps (f : Term) (n : ℕ) : List Decl :=
  [.dprop PropKind.paxiom ⟨⟨n⟩⟩ allHold, .dprop PropKind.paxiom ⟨⟨n + 1⟩⟩ f]

theorem splitTask_valid (hf : f = atomP ∨ f = atomQ) (n : ℕ)
    (hdecls : (splitTask (splitHyps f n)).taskDecls =
      [.dparam psP, .dparam psQ, .dparam polyPred] ++ splitHyps f n ++
        [.dprop .pgoal ⟨⟨73⟩⟩ (tbinop [] .tor atomQ atomP)])
    (hgoal : (splitTask (splitHyps f n)).findGoal = some (⟨⟨73⟩⟩, tbinop [] .tor atomQ atomP)) :
    (splitTask (splitHyps f n)).Valid := by
  refine ⟨_, _, hgoal, fun D I hI τ ρ hρ => ?_⟩
  rw [hdecls] at hI
  have hax : I.Holds τ ρ f :=
    hI.decls (.dprop PropKind.paxiom ⟨⟨n + 1⟩⟩ f) (by simp [splitHyps]) τ ρ hρ
  rw [Holds, eval_tor]
  rcases hf with rfl | rfl
  · exact .inr hax
  · exact .inl hax

/-- The part with a type variable is not split into cases. -/
theorem destruct_sound_and :
    destruct true 80 ⟨⟨72⟩⟩ (splitTask [.dprop PropKind.paxiom ⟨⟨72⟩⟩ polyAnd]) =
        .ok [splitTask (splitHyps atomP 80), splitTask (splitHyps atomQ 82)] ∧
      CasesClosed true true polyAnd ∧
      (splitTask [.dprop PropKind.paxiom ⟨⟨72⟩⟩ polyAnd]).Valid := by
  have hrun : destruct true 80 ⟨⟨72⟩⟩ (splitTask [.dprop PropKind.paxiom ⟨⟨72⟩⟩ polyAnd]) =
    .ok [splitTask (splitHyps atomP 80), splitTask (splitHyps atomQ 82)] := rfl
  have hbuilt : (splitTask [.dprop PropKind.paxiom ⟨⟨72⟩⟩ polyAnd]).Built :=
    built_taskOf (by simp [Decl.WellFormed])
  have hcases : CasesClosed true true polyAnd := by
    rw [polyAnd, CasesClosed]
    exact fun _ => ⟨trivial, rfl⟩
  have hdecls : (splitTask [.dprop PropKind.paxiom ⟨⟨72⟩⟩ polyAnd]).taskDecls =
      [.dparam psP, .dparam psQ, .dparam polyPred, .dprop PropKind.paxiom ⟨⟨72⟩⟩ polyAnd,
        .dprop .pgoal ⟨⟨73⟩⟩ (tbinop [] .tor atomQ atomP)] := rfl
  refine ⟨hrun, hcases, (destruct_sound hbuilt (f := polyAnd) rfl ?_ ?_ rfl ?_ ?_ hcases hrun).1 ?_⟩
  · simp [hdecls]
  · refine .tbinop [] _ (.tquant [] _ (by simp) (.tapp [] .tyvar (.inl rfl) rfl rfl ?_))
      (.tbinop [] _ ?_ ?_)
    · intro i t ty ht hty
      cases i with
      | zero =>
        cases ht
        cases hty
        exact .tbnd [] rfl
      | succ i => cases ht
    · exact .tapp [] .tyvar (.inl rfl) rfl rfl (by simp)
    · exact .tapp [] .tyvar (.inl rfl) rfl rfl (by simp)
  · rw [hdecls]
    simp [Decl.Below, Decl.subject, symsTerm, symsTermList, symsTermTriggers, symsTy, Sym.Below,
      polyAnd, allHold, polyPred, vsPoly, atomP, atomQ, psP, psQ]
  · simp [Sym.Below, psEqu]
  · simp only [forall_mem_cons, not_mem_nil, false_imp_iff, implies_true, and_true]
    exact ⟨splitTask_valid (.inl rfl) 80 rfl rfl, splitTask_valid (.inr rfl) 82 rfl rfl⟩

/-! A hypothesis that says of each type that all its values or none of them satisfy a
predicate. Splitting it loses that the answer may be another one for another type. -/

/-- `not (p c)` for an integer and `p d` for a real number -/
def polyContext : List Decl := [.dtype tsInt.embed, .dtype tsReal.embed, .dparam polyPred,
  .dparam intConst, .dparam realConst,
  .dprop PropKind.paxiom ⟨⟨79⟩⟩ (tnot [] (tapp [] polyPred [tapp [] intConst [] (some tyInt)] none)),
  .dprop PropKind.paxiom ⟨⟨80⟩⟩ (tapp [] polyPred [tapp [] realConst [] (some tyReal)] none)]

def polyTask (f : Term) (n : ℕ) : Task :=
  taskOf (polyContext ++ [.dprop PropKind.paxiom ⟨⟨n⟩⟩ f, .dprop .pgoal ⟨⟨82⟩⟩ (tfalse [])])

theorem holds_allHold : I.Holds τ ρ allHold ↔ ∀ d ∈ I.carrier (τ tvPoly), I.pr polyPred [d] := by
  constructor
  · exact fun h d hd => h [d] (.cons hd .nil)
  · rintro h ds (_ | ⟨hd, _ | _⟩)
    exact h _ hd

theorem holds_noneHolds :
    I.Holds τ ρ noneHolds ↔ ∀ d ∈ I.carrier (τ tvPoly), ¬ I.pr polyPred [d] := by
  constructor
  · exact fun h d hd => h [d] (.cons hd .nil)
  · rintro h ds (_ | ⟨hd, _ | _⟩)
    exact h _ hd

theorem polyTask_valid (hf : f = allHold ∨ f = noneHolds) (hdecls : (polyTask f n).taskDecls =
      polyContext ++ [.dprop PropKind.paxiom ⟨⟨n⟩⟩ f, .dprop .pgoal ⟨⟨82⟩⟩ (tfalse [])])
    (hgoal : (polyTask f n).findGoal = some (⟨⟨82⟩⟩, tfalse [])) : (polyTask f n).Valid := by
  refine ⟨_, _, hgoal, fun D I hI τ ρ hρ => ?_⟩
  rw [hdecls] at hI
  have hax : I.Valid f := hI.decls (.dprop PropKind.paxiom ⟨⟨n⟩⟩ f) (by simp)
  have hint : I.Valid (tnot [] (tapp [] polyPred [tapp [] intConst [] (some tyInt)] none)) :=
    hI.decls (.dprop PropKind.paxiom ⟨⟨79⟩⟩ _) (by simp [polyContext])
  have hreal : I.Valid (tapp [] polyPred [tapp [] realConst [] (some tyReal)] none) :=
    hI.decls (.dprop PropKind.paxiom ⟨⟨80⟩⟩ _) (by simp [polyContext])
  have hconst : ∀ ls ty, ls.lsValue = some ty → ls.lsArgs = [] →
      I.fn ls (ty.vMap τ) [] ∈ I.carrier (ty.vMap τ) :=
    fun ls ty hls hargs => hI.sound.fn ls ty τ [] hls (hargs ▸ .nil)
  rcases hf with rfl | rfl
  · obtain ⟨ρ', hρ'⟩ := hI.sound.exists_typedVal fun _ => tyInt
    exact (hint τ ρ hρ).elim (holds_allHold.mp (hax _ ρ' hρ') _ (hconst intConst tyInt rfl rfl))
  · obtain ⟨ρ', hρ'⟩ := hI.sound.exists_typedVal fun _ => tyReal
    exact (holds_noneHolds.mp (hax _ ρ' hρ') _ (hconst realConst tyReal rfl rfl) (hreal τ ρ hρ)).elim

noncomputable def realOnly : Interp (Ty × Unit) :=
  { taggedInterp (fun _ _ => ()) (fun _ _ => True) (fun _ => ()) with
    pr := fun ls ds => if ls = psEqu then ds[0]? = ds[1]? else ∃ d, ds = [d] ∧ d.1 = tyReal }

theorem realOnly_sound : realOnly.Sound := by
  have h := taggedInterp_sound (α := Unit) (fun _ _ => ()) (fun _ _ => True) (fun _ => ())
  exact ⟨h.nonempty, h.fn, h.lit, h.eps_mem, h.eps_spec, h.eps_local, fun d d' => by
    simp [realOnly]⟩

/-- All results are valid, but the task is not. -/
theorem destruct_polymorphic :
    destruct false 90 ⟨⟨81⟩⟩ (polyTask (tbinop [] .tor allHold noneHolds) 81) =
        .ok [polyTask allHold 90, polyTask noneHolds 91] ∧
      (polyTask allHold 90).Valid ∧ (polyTask noneHolds 91).Valid ∧
      ¬ (polyTask (tbinop [] .tor allHold noneHolds) 81).Valid := by
  refine ⟨rfl, polyTask_valid (.inl rfl) rfl rfl, polyTask_valid (.inr rfl) rfl rfl, ?_⟩
  rintro ⟨pr, f, hgoal, hvalid⟩
  have hfind : (polyTask (tbinop [] .tor allHold noneHolds) 81).findGoal =
      some (⟨⟨82⟩⟩, tfalse []) := rfl
  rw [hfind] at hgoal
  cases hgoal
  obtain ⟨ρ, hρ⟩ := realOnly_sound.exists_typedVal .tyvar
  refine hvalid _ realOnly ⟨realOnly_sound, ?_, ?_⟩ _ ρ hρ
  · exact fun d ty ty' hd hd' => hd.symm.trans hd'
  have hpr : ∀ d, realOnly.pr polyPred [d] ↔ d.1 = tyReal := by
    intro d
    constructor
    · rintro ⟨d', hd', htag⟩
      cases hd'
      exact htag
    · exact fun htag => ⟨d, rfl, htag⟩
  change ∀ d ∈ polyContext ++ [.dprop PropKind.paxiom ⟨⟨81⟩⟩ (tbinop [] .tor allHold noneHolds),
    .dprop .pgoal ⟨⟨82⟩⟩ (tfalse [])], realOnly.Satisfies d
  simp only [polyContext, cons_append, nil_append, forall_mem_cons]
  refine ⟨trivial, trivial, trivial, trivial, trivial, ?_, ?_, ?_, trivial, by simp⟩
  · intro τ ρ _ h
    exact absurd (show tyInt = tyReal from (hpr _).mp h) (by decide)
  · exact fun τ ρ _ => (hpr _).mpr rfl
  · intro τ ρ _
    by_cases hτ : τ tvPoly = tyReal
    · exact .inl (holds_allHold.mpr fun d hd => (hpr d).mpr (Eq.trans hd hτ))
    · exact .inr (holds_noneHolds.mpr fun d hd h => hτ (Eq.trans (Eq.symm hd) ((hpr d).mp h)))

end Why3
