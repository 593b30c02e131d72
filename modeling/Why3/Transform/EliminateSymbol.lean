import Why3.Transform.EliminateUnknownTypes

/-!
# Removal of tagged symbols

The transformation of `src/transform/eliminate_symbol.ml` removes the parameters, the
definitions and the propositions that mention a tagged symbol. The symbols of the definitions
that it removes are not looked for in what follows.

Both this transformation and the removal of unknown types leave a task, without what was to be
removed, exactly if each dependency shows where it is looked for.
-/

namespace Why3

open Lib Term List

namespace EliminateSymbol

variable {d : Decl} {syms : List Sym}

section Elim

variable (elimLs : LSymbol → Bool)

mutual

def elim : Term → Bool
  | tvar _ _ | tbnd _ _ _ | tconst _ _ _ | ttrue _ | tfalse _ => false
  | tapp _ ls tl _ => elimLs ls || elimList tl
  | tif _ f t e => elim f || elim t || elim e
  | tlet _ t _ e => elim t || elim e
  | tcase _ t bl => elim t || elimBranches bl
  | teps _ _ f => elim f
  | tquant _ _ _ trl f => elim f || elimTriggers trl
  | tbinop _ _ f g => elim f || elim g
  | tnot _ f => elim f

def elimList : List Term → Bool
  | [] => false
  | t :: tl => elim t || elimList tl

def elimBranches : List (Pattern × Term) → Bool
  | [] => false
  | (_, t) :: bl => elim t || elimBranches bl

def elimTriggers : List (List Term) → Bool
  | [] => false
  | tl :: trl => elimList tl || elimTriggers trl

end

def eliminateSymbolDecl (d : Decl) : Except Exn (List Decl) :=
  match d with
  | .dparam l => .ok (if elimLs l then [] else [d])
  | .dlogic l => do
    let removed ← existsM (fun ld =>
      if elimLs ld.1 then .ok true
      else do
        let t ← lsDefnBody ld.2
        .ok (elim elimLs t)) l
    .ok (if removed then [] else [d])
  | .dprop .pgoal pr t =>
    if elim elimLs t then do .ok [← createPropDecl .pgoal pr (tfalse [])] else .ok [d]
  | .dprop _ _ t => .ok (if elim elimLs t then [] else [d])
  | _ => .ok [d]

def eliminateSymbol (task : Task) : Except Exn Task :=
  transDecl (fun _ d => do .ok ((), ← eliminateSymbolDecl elimLs d)) () task

def Tagged (s : Sym) : Prop := ∃ ls, s = .ls ls ∧ elimLs ls = true

/-- The tagged symbols which show where they are looked for. -/
def Caught : Decl → Prop
  | .dparam ls => elimLs ls = true
  | .dlogic ldl => ∃ ld ∈ ldl, elimLs ld.1 = true ∨
      ∃ t, lsDefnBody ld.2 = .ok t ∧ elim elimLs t = true
  | .dprop _ _ f => elim elimLs f = true
  | _ => False

end Elim

variable {elimLs : LSymbol → Bool} {dl : List Decl}

theorem elimList_eq_any (tl : List Term) : elimList elimLs tl = tl.any (elim elimLs) := by
  induction tl with
  | nil => rfl
  | cons t tl ih => rw [elimList, ih, any_cons]

theorem elimBranches_eq_any (bl : List (Pattern × Term)) :
    elimBranches elimLs bl = bl.any fun (_, t) => elim elimLs t := by
  induction bl with
  | nil => rfl
  | cons b bl ih => rw [elimBranches, ih, any_cons]

theorem elimTriggers_eq_any (trl : List (List Term)) :
    elimTriggers elimLs trl = trl.any (·.any (elim elimLs)) := by
  induction trl with
  | nil => rfl
  | cons tl trl ih => rw [elimTriggers, ih, elimList_eq_any, any_cons]

theorem elim_mentions (t : Term) (h : elim elimLs t = true) :
    ∃ ls, Sym.ls ls ∈ symsTerm t ∧ elimLs ls = true := by
  induction t using inductionOn with
  | _ =>
    simp only [elim, elimList_eq_any, elimBranches_eq_any, elimTriggers_eq_any, Bool.or_eq_true,
      any_eq_true, symsTerm, mem_append, mem_cons, mem_symsTermList,
      mem_symsTermBranches, mem_symsTermTriggers, Prod.exists, reduceCtorEq] at h ⊢ <;> grind

theorem Caught.depends (h : Caught elimLs d) (hsyms : getDeclSyms d = .ok syms) :
    Depends (Tagged elimLs) dl d := by
  cases d with
  | dparam ls => exact .inl ⟨.ls ls, .inr (.inl mem_cons_self), ls, rfl, h⟩
  | dlogic l =>
    obtain ⟨ld, hld, hls | ⟨t, ht, helim⟩⟩ := h
    · exact .inl ⟨.ls ld.1, .inr (.inl (mem_map_of_mem hld)), ld.1, rfl, hls⟩
    · obtain ⟨t', ht', huses⟩ := EliminateUnknownTypes.body_uses hsyms hld
      cases ht.symm.trans ht'
      obtain ⟨ls, hls, hbad⟩ := elim_mentions t helim
      exact .inl ⟨.ls ls, .inl (huses _ hls), ls, rfl, hbad⟩
  | dprop k pr f =>
    obtain ⟨ls, hls, hbad⟩ := elim_mentions f h
    exact .inl ⟨.ls ls, .inl hls, ls, rfl, hbad⟩
  | dtype _ | ddata _ | dind _ _ => exact h.elim

theorem eliminateSymbolDecl_step (elimLs : LSymbol → Bool) (hsyms : getDeclSyms d = .ok syms) :
    ∃ b, eliminateSymbolDecl elimLs d = .ok (if b then d.weaken else [d]) ∧
      (b = true ↔ Caught elimLs d) := by
  cases d with
  | dtype _ | ddata _ | dind _ _ => exact ⟨false, rfl, by simp [Caught]⟩
  | dparam ls => exact ⟨elimLs ls, rfl, Iff.rfl⟩
  | dprop k pr f =>
    refine ⟨elim elimLs f, ?_, Iff.rfl⟩
    cases k with
    | pgoal =>
      cases hb : elim elimLs f with
      | true => simp [eliminateSymbolDecl, hb, Decl.weaken, createPropDecl]; rfl
      | false => simp [eliminateSymbolDecl, hb]
    | _ => rfl
  | dlogic l =>
    have hdec : Decides (existsM (fun ld : LogicDecl =>
        if elimLs ld.1 then .ok true
        else do
          let t ← lsDefnBody ld.2
          .ok (elim elimLs t)) l) (Caught elimLs (.dlogic l)) := by
      refine existsM_decides fun ld hld => ?_
      obtain ⟨t, ht, -⟩ := EliminateUnknownTypes.body_uses hsyms hld
      cases hk : elimLs ld.1 with
      | true => exact ⟨true, rfl, by simp⟩
      | false => exact ⟨elim elimLs t, by simp only [ht]; rfl, by simp [ht]⟩
    obtain ⟨b, hb, hcaught⟩ := hdec
    exact ⟨b, bind_eq_ok.mpr ⟨b, hb, rfl⟩, hcaught⟩

theorem removal {task : Task} (h : task.Built) : Removal (Tagged elimLs) task.taskDecls
    (Caught elimLs) (fun _ _ => True)
    (fun (_ : Unit) d => do .ok ((), ← eliminateSymbolDecl elimLs d)) where
  bad_pr pr h := by
    obtain ⟨ls, heq, -⟩ := h
    cases heq
  depends d hd hc := by
    obtain ⟨kn, kn', -, hadd, -⟩ := h.added d hd
    obtain ⟨syms, hsyms, -⟩ := (knownAddDecl_added hadd).uses
    exact hc.depends hsyms
  step _ d _ _ _ hscope _ := by
    obtain ⟨syms, hsyms, -⟩ := hscope.uses
    obtain ⟨b, heq, hcaught⟩ := eliminateSymbolDecl_step elimLs hsyms
    cases b with
    | true =>
      exact .inl ⟨hcaught.mp rfl, (), bind_eq_ok.mpr ⟨_, heq, rfl⟩, trivial⟩
    | false =>
      refine .inr ⟨fun hc => ?_, bind_eq_ok.mpr ⟨_, heq, rfl⟩, fun _ => trivial⟩
      cases hcaught.mpr hc

end EliminateSymbol

open EliminateUnknownTypes EliminateSymbol

/-- The removals leave a task without the removed types, or without the tagged symbols, if and
only if each declaration of the task that depends on them, directly or through others, shows
it where it is looked for. What is left is then weaker than the task. -/
theorem removal_iff_caught {task : Task} (h : task.Built) :
    (∀ keep, RemovesFrom (NotKept keep) task (removeTerms keep task) ↔
      ∀ d ∈ task.taskDecls, Depends (NotKept keep) task.taskDecls d →
        EliminateUnknownTypes.Caught keep task.taskDecls d) ∧
    ∀ elimLs, RemovesFrom (Tagged elimLs) task (eliminateSymbol elimLs task) ↔
      ∀ d ∈ task.taskDecls, Depends (Tagged elimLs) task.taskDecls d →
        EliminateSymbol.Caught elimLs d := by
  refine ⟨fun keep => removesFrom_iff h (EliminateUnknownTypes.removal h) fun ls => ?_,
    fun elimLs => removesFrom_iff h (EliminateSymbol.removal h) trivial⟩
  simp

/-! ## An example and a dependency that escapes -/

namespace RemovalExample

open List

def tsHidden : TySymbol := ⟨⟨130⟩, [], .noDef, nodup_nil⟩

def tyHidden : Ty := .tyapp tsHidden []

def fsHidden : LSymbol := ⟨⟨131⟩, [], some tyHidden, 0⟩

def psOnHidden : LSymbol := ⟨⟨132⟩, [tyHidden], none, 0⟩

def psUses : LSymbol := ⟨⟨133⟩, [], none, 0⟩

def atomOnHidden : Term := tapp [] psOnHidden [tapp [] fsHidden [] (some tyHidden)] none

def atomUses : Term := tapp [] psUses [] none

def hiddenContext : List Decl := [.dtype tsHidden.embed, .dparam fsHidden, .dparam psOnHidden]

def directTask : Task := taskOf (hiddenContext ++ [.dprop .pgoal ⟨⟨134⟩⟩ atomOnHidden])

/-- The goal is a predicate the definition of which mentions the constant. -/
def indirectTask : Task := taskOf (hiddenContext ++
  [.dlogic [(psUses, psUses, tbinop [] .tiff atomUses atomOnHidden, [])], .dprop .pgoal
    ⟨⟨134⟩⟩ atomUses])

def keepOthers (ts : TySym Ty) : Bool := decide (ts.tsName ≠ tsHidden.tsName)

end RemovalExample

open RemovalExample

theorem removal_iff_caught_direct : directTask.Built ∧
    RemovesFrom (NotKept keepOthers) directTask (removeTerms keepOthers directTask) ∧
    RemovesFrom (Tagged fun _ => true) directTask (eliminateSymbol (fun _ => true) directTask) := by
  have hbuilt : directTask.Built := by
    refine built_taskOf fun d hd => ?_
    simp only [hiddenContext, cons_append, nil_append, mem_cons, not_mem_nil, or_false] at hd
    rcases hd with rfl | rfl | rfl | rfl <;> trivial
  have hdecls : directTask.taskDecls = hiddenContext ++ [.dprop .pgoal ⟨⟨134⟩⟩ atomOnHidden] := rfl
  obtain ⟨hkeep, helim⟩ := removal_iff_caught hbuilt
  refine ⟨hbuilt, (hkeep keepOthers).mpr ?_, (helim fun _ => true).mpr ?_⟩
  · rw [hdecls]
    intro d hd _
    have hT : NotKept keepOthers (.ts tsHidden.embed) := rfl
    simp only [hiddenContext, cons_append, nil_append, mem_cons, not_mem_nil, or_false] at hd
    rcases hd with rfl | rfl | rfl | rfl
    · rfl
    · exact ⟨_, mem_cons_self, hT⟩
    · exact ⟨_, mem_cons_self, hT⟩
    · exact .inl ⟨.ts tsHidden.embed, by decide, hT⟩
  · rw [hdecls]
    intro d hd hdep
    simp only [hiddenContext, cons_append, nil_append, mem_cons, not_mem_nil, or_false] at hd
    rcases hd with rfl | rfl | rfl | rfl
    · -- the type mentions no tagged symbol
      rcases hdep with ⟨b, hb, ls, rfl, -⟩ | ⟨u, hu, -⟩
      · rcases hb with hb | hb | ⟨ls', hb, -⟩
        · cases hb
        · simp [declNews] at hb
        · simp [declNews] at hb
      · cases hu
    · rfl
    · rfl
    · rfl

/-- The definition of the goal is removed, the goal is not: its symbol is unknown then. -/
theorem removal_escapes : indirectTask.Built ∧ indirectTask.taskDecls.length = 5 ∧
    removeTerms keepOthers indirectTask = .error (.unknownIdent psUses.lsName) ∧
    eliminateSymbol (fun ls => decide (ls = fsHidden)) indirectTask =
      .error (.unknownIdent psUses.lsName) := by
  refine ⟨built_taskOf fun d hd => ?_, rfl, rfl, rfl⟩
  simp only [hiddenContext, cons_append, nil_append, mem_cons, not_mem_nil, or_false] at hd
  rcases hd with rfl | rfl | rfl | rfl | rfl <;> trivial

end Why3
