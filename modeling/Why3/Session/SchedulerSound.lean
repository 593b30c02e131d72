import Why3.Session.Scheduler

/-!
# Every scheduled attempt gets one verdict

The scheduler is compared with a ledger of the attempts which have no verdict yet. An attempt
enters it when it is scheduled, is marked when its prover runs, and leaves it with a verdict.
The ledger of a scheduler has the attempts of the queue and of the table. Attempts are counted,
too: those that are scheduled are the ones that events schedule and the ones that callbacks do.
-/

namespace Why3.Session

open Lib List

variable {R : Type}
variable {b : Bool} {rest : List (SchedPa R)} {started : List ℕ} {st : PaStatus R} {spa : SchedPa R}
variable {s : Scheduler R} {a : ℕ}
variable {ptp : ProverTask R} {c : ℕ}

def PaStatus.IsTerminal : PaStatus R → Prop
  | .done _ => True
  | .interrupted => True
  | .internalFailure => True
  | _ => False

def PaStatus.isScheduled : PaStatus R → Bool
  | .scheduled => true
  | _ => false

theorem PaStatus.IsTerminal.isScheduled (h : st.IsTerminal) : st.isScheduled = false := by
  cases st <;> first | rfl | cases h

def SchedulerEvent.isSchedule : SchedulerEvent R → Bool
  | .schedule _ => true
  | _ => false

def pending (started : Bool) : List (PaStatus R) :=
  .scheduled :: if started then [.running] else []

/-- An attempt was scheduled, did perhaps run, and has one verdict. -/
def HasVerdict (told : List (PaStatus R)) : Prop :=
  ∃ (started : Bool) (verdict : PaStatus R),
    verdict.IsTerminal ∧ told = pending started ++ [verdict]

/-! ## The ledger -/

theorem toldTo_append (calls : List (ℕ × PaStatus R)) (a b : ℕ) (st : PaStatus R) :
    toldTo (calls ++ [(a, st)]) b = toldTo calls b ++ if a = b then [st] else [] := by
  by_cases h : a = b
  · simp [toldTo, h]
  · simp [toldTo, h]

/-- The attempts without a verdict, and whether their prover runs. -/
structure Ledger (next : ℕ) (live : List (ℕ × Bool)) (calls : List (ℕ × PaStatus R)) : Prop where
  nodup : (live.map Prod.fst).Nodup
  live_told : ∀ a started, (a, started) ∈ live →
    a < next ∧ toldTo calls a = pending started
  settled : ∀ a < next, a ∉ live.map Prod.fst → HasVerdict (toldTo calls a)
  fresh : ∀ a, next ≤ a → toldTo calls a = []

namespace Ledger

variable {next : ℕ} {live : List (ℕ × Bool)} {calls : List (ℕ × PaStatus R)}

theorem perm {live' : List (ℕ × Bool)} (h : Ledger next live calls) (hp : live.Perm live') :
    Ledger next live' calls where
  nodup := (hp.map Prod.fst).nodup_iff.mp h.nodup
  live_told a started hmem := h.live_told a started (hp.mem_iff.mpr hmem)
  settled a hlt hnot := h.settled a hlt fun hmem => hnot ((hp.map Prod.fst).mem_iff.mp hmem)
  fresh := h.fresh

theorem schedule (h : Ledger next live calls) :
    Ledger (next + 1) ((next, false) :: live) (calls ++ [(next, .scheduled)]) where
  nodup := by
    refine nodup_cons.mpr ⟨?_, h.nodup⟩
    intro hmem
    obtain ⟨⟨a, started⟩, hin, rfl⟩ := mem_map.mp hmem
    exact absurd (h.live_told _ _ hin).1 (Nat.lt_irrefl _)
  live_told a started hmem := by
    rw [toldTo_append]
    cases hmem with
    | head => exact ⟨Nat.lt_succ_self _, by rw [h.fresh next (Nat.le_refl _)]; simp [pending]⟩
    | tail _ hin =>
      obtain ⟨hlt, htold⟩ := h.live_told a started hin
      rw [if_neg (Nat.ne_of_gt hlt), append_nil]
      exact ⟨Nat.lt_succ_of_lt hlt, htold⟩
  settled a hlt hnot := by
    obtain ⟨hne, hnot⟩ := not_or.mp (mt mem_cons.mpr hnot)
    rw [toldTo_append, if_neg (Ne.symm hne), append_nil]
    exact h.settled a (Nat.lt_of_le_of_ne (Nat.le_of_lt_succ hlt) hne) hnot
  fresh a hle := by
    rw [toldTo_append, if_neg (Nat.ne_of_lt hle), append_nil]
    exact h.fresh a (Nat.le_of_succ_le hle)

/-- The calls for other attempts are not seen by an attempt of the ledger. -/
theorem ne_of_mem (h : Ledger next ((a, b) :: live) calls) {a' : ℕ} (hin : a' ∈ live.map Prod.fst) :
    a ≠ a' := by
  rintro rfl
  exact (nodup_cons.mp h.nodup).1 hin

theorem start (h : Ledger next ((a, false) :: live) calls) :
    Ledger next ((a, true) :: live) (calls ++ [(a, .running)]) where
  nodup := h.nodup
  live_told a' started hmem := by
    rw [toldTo_append]
    cases hmem with
    | head =>
      obtain ⟨hlt, htold⟩ := h.live_told a false (mem_cons_self ..)
      exact ⟨hlt, by rw [htold]; simp [pending]⟩
    | tail _ hin =>
      rw [if_neg (h.ne_of_mem (mem_map_of_mem hin)), append_nil]
      exact h.live_told a' started (mem_cons_of_mem _ hin)
  settled a' hlt hnot := by
    rw [toldTo_append, if_neg (Ne.symm (ne_of_not_mem_cons hnot)), append_nil]
    exact h.settled a' hlt hnot
  fresh a' hle := by
    have hlt := (h.live_told a false (mem_cons_self ..)).1
    rw [toldTo_append, if_neg (Nat.ne_of_lt (Nat.lt_of_lt_of_le hlt hle)), append_nil]
    exact h.fresh a' hle

theorem finish (h : Ledger next ((a, b) :: live) calls) (hst : st.IsTerminal) :
    Ledger next live (calls ++ [(a, st)]) where
  nodup := (nodup_cons.mp h.nodup).2
  live_told a' started hin := by
    rw [toldTo_append, if_neg (h.ne_of_mem (mem_map_of_mem hin)), append_nil]
    exact h.live_told a' started (mem_cons_of_mem _ hin)
  settled a' hlt hnot := by
    rw [toldTo_append]
    by_cases ha : a = a'
    · subst ha
      rw [(h.live_told a b (mem_cons_self ..)).2, if_pos rfl]
      exact ⟨b, st, hst, rfl⟩
    · rw [if_neg ha, append_nil]
      exact h.settled a' hlt (not_mem_cons_of_ne_of_not_mem (Ne.symm ha) hnot)
  fresh a' hle := by
    have hlt := (h.live_told a b (mem_cons_self ..)).1
    rw [toldTo_append, if_neg (Nat.ne_of_lt (Nat.lt_of_lt_of_le hlt hle)), append_nil]
    exact h.fresh a' hle

end Ledger

namespace Scheduler

/-! ## The ledger of a scheduler -/

def waiting (s : Scheduler R) : List (ℕ × Bool) :=
  s.scheduledProofAttempts.map fun spa => (spa.attempt, false)

def tasks (s : Scheduler R) : List (ℕ × Bool) :=
  s.proverTasksInProgress.bindings.map fun b => (b.2.attempt, b.2.started)

/-- The number of calls of callbacks that may have scheduled attempts. -/
def answered (s : Scheduler R) : ℕ := s.callbacks.countP fun c => !c.2.isScheduled

/-- There are `n` attempts and those that the callbacks have scheduled which were called. -/
structure Counted (reactions : List (List (Option R))) (n next : ℕ)
    (left : List (List (Option R))) (answered : ℕ) : Prop where
  left : left = reactions.drop answered
  count : next = n + ((reactions.take answered).map length).sum

/-- The ledger has the attempts of the queue and `live`. While a handler works, these are not
those of the table. -/
def Keeps (reactions : List (List (Option R))) (n : ℕ) (s : Scheduler R)
    (live : List (ℕ × Bool)) : Prop :=
  Ledger s.nextAttempt (s.waiting ++ live) s.callbacks ∧
    Counted reactions n s.nextAttempt s.reactions s.answered

structure Frame (s s' : Scheduler R) : Prop where
  table : s'.proverTasksInProgress = s.proverTasksInProgress
  running : s'.numberOfRunningProvers = s.numberOfRunningProvers
  nextCall : s'.nextCall = s.nextCall
  observed : s'.observed = s.observed

namespace Frame

theorem refl (s : Scheduler R) : Frame s s := ⟨rfl, rfl, rfl, rfl⟩

theorem trans {s₁ s₂ s₃ : Scheduler R} (h : Frame s₁ s₂) (h' : Frame s₂ s₃) : Frame s₁ s₃ :=
  ⟨h'.table.trans h.table, h'.running.trans h.running, h'.nextCall.trans h.nextCall,
    h'.observed.trans h.observed⟩

theorem schedules (l : List (Option R)) (s : Scheduler R) :
    Frame s (l.foldl scheduleProofAttempt s) := by
  induction l generalizing s with
  | nil => exact refl s
  | cons o l ih =>
    have hstep : Frame s (s.scheduleProofAttempt o) := ⟨rfl, rfl, rfl, rfl⟩
    exact hstep.trans (ih _)

theorem callback (s : Scheduler R) (a : ℕ) (st : PaStatus R) : Frame s (s.callback a st) := by
  have hrec : Frame s { s.record a st with reactions := s.reactions.tail } :=
    ⟨rfl, rfl, rfl, rfl⟩
  exact hrec.trans (schedules _ _)

theorem callbacks (l : List (ℕ × ProverTask R)) (s : Scheduler R) :
    Frame s (l.foldl (fun s b => s.callback b.2.attempt .interrupted) s) := by
  induction l generalizing s with
  | nil => exact refl s
  | cons b l ih => exact (callback ..).trans (ih _)

theorem queue (s : Scheduler R) (l : List (SchedPa R)) :
    Frame s { s with scheduledProofAttempts := l } := ⟨rfl, rfl, rfl, rfl⟩

end Frame

variable {reactions : List (List (Option R))} {n : ℕ}

namespace Keeps

variable {s : Scheduler R} {live : List (ℕ × Bool)}

theorem perm {live' : List (ℕ × Bool)} (h : s.Keeps reactions n live) (hp : live.Perm live') :
    s.Keeps reactions n live' :=
  ⟨h.1.perm (hp.append_left _), h.2⟩

theorem ledger_schedule (h : Ledger s.nextAttempt (s.waiting ++ live) s.callbacks) (o : Option R) :
    Ledger (s.scheduleProofAttempt o).nextAttempt ((s.scheduleProofAttempt o).waiting ++ live)
      (s.scheduleProofAttempt o).callbacks := by
  refine h.schedule.perm ?_
  have hw : (s.scheduleProofAttempt o).waiting = s.waiting ++ [(s.nextAttempt, false)] := by
    simp [waiting, scheduleProofAttempt, record, runIdleHandler]
  rw [hw, append_assoc]
  exact perm_middle.symm

theorem answered_schedule (s : Scheduler R) (o : Option R) :
    (s.scheduleProofAttempt o).answered = s.answered := by
  simp [answered, scheduleProofAttempt, runIdleHandler, record, PaStatus.isScheduled]

theorem schedule (h : s.Keeps reactions n live) (o : Option R) :
    (s.scheduleProofAttempt o).Keeps reactions (n + 1) live := by
  refine ⟨ledger_schedule h.1 o, ?_, ?_⟩
  · rw [answered_schedule]
    exact h.2.left
  · rw [answered_schedule, Nat.add_right_comm, ← h.2.count]
    rfl

theorem schedules (l : List (Option R)) (h : Ledger s.nextAttempt (s.waiting ++ live) s.callbacks) :
    Ledger (l.foldl scheduleProofAttempt s).nextAttempt
        ((l.foldl scheduleProofAttempt s).waiting ++ live)
        (l.foldl scheduleProofAttempt s).callbacks ∧
      (l.foldl scheduleProofAttempt s).answered = s.answered ∧
      (l.foldl scheduleProofAttempt s).nextAttempt = s.nextAttempt + l.length := by
  induction l generalizing s with
  | nil => exact ⟨h, rfl, rfl⟩
  | cons o l ih =>
    obtain ⟨hledger, hans, hnext⟩ := ih (ledger_schedule h o)
    refine ⟨hledger, hans.trans (answered_schedule s o), hnext.trans ?_⟩
    have hone : (s.scheduleProofAttempt o).nextAttempt = s.nextAttempt + 1 := rfl
    rw [hone, length_cons, Nat.add_right_comm, Nat.add_assoc]

theorem callback (h : Counted reactions n s.nextAttempt s.reactions s.answered)
    (hst : st.isScheduled = false)
    (hledger : Ledger s.nextAttempt (s.waiting ++ live) (s.callbacks ++ [(a, st)])) :
    (s.callback a st).Keeps reactions n live := by
  have hledger' : Ledger (s.record a st).nextAttempt ((s.record a st).waiting ++ live)
    (s.record a st).callbacks := hledger
  obtain ⟨hl, hans, hnext⟩ := schedules (s := { s.record a st with reactions := s.reactions.tail })
    (s.reactions.headD []) hledger'
  have hone : (s.callback a st).answered = s.answered + 1 := by
    refine hans.trans ?_
    simp [answered, record, hst]
  refine ⟨hl, ?_, ?_⟩
  · rw [hone, ← tail_drop, ← h.left]
    exact (length_foldl_scheduleProofAttempt _ _).2
  · rw [hone, take_add, map_append, sum_append, ← Nat.add_assoc, ← h.count, ← h.left]
    refine hnext.trans ?_
    cases hre : s.reactions <;> simp [record]

theorem start (h : s.Keeps reactions n ((a, false) :: live)) :
    (s.callback a .running).Keeps reactions n ((a, true) :: live) :=
  callback h.2 rfl ((Ledger.start (h.1.perm perm_middle)).perm perm_middle.symm)

theorem finish (h : s.Keeps reactions n ((a, b) :: live)) (hst : st.IsTerminal) :
    (s.callback a st).Keeps reactions n live :=
  callback h.2 hst.isScheduled (Ledger.finish (h.1.perm perm_middle) hst)

theorem interruptTasks (l : List (ℕ × ProverTask R))
    (h : s.Keeps reactions n (l.map fun b => (b.2.attempt, b.2.started))) :
    (l.foldl (fun s b => s.callback b.2.attempt .interrupted) s).Keeps reactions n [] := by
  induction l generalizing s with
  | nil => exact h
  | cons b l ih => exact ih (finish h trivial)

theorem interruptScheduled (s : Scheduler R) (h : s.Keeps reactions n []) :
    s.interruptScheduled.Keeps reactions n [] ∧ Frame s s.interruptScheduled := by
  fun_induction Scheduler.interruptScheduled s with
  | case1 s => exact ⟨h, Frame.refl s⟩
  | case2 s spa rest hcons ih =>
    have hk : ({ s with scheduledProofAttempts := rest } : Scheduler R).Keeps reactions n
        [(spa.attempt, false)] := by
      refine ⟨h.1.perm ?_, h.2⟩
      simp only [waiting, hcons, map_cons, append_nil]
      exact (perm_append_singleton ..).symm
    obtain ⟨hkeeps, hframe⟩ := ih (hk.finish trivial)
    exact ⟨hkeeps, ((Frame.queue s rest).trans (Frame.callback ..)).trans hframe⟩

end Keeps

/-! ## The invariant -/

/-- What holds between two handlers, when the starts of some calls have been told. -/
structure Inv (reactions : List (List (Option R))) (n : ℕ) (s : Scheduler R)
    (started : List ℕ) : Prop where
  ledger : s.Keeps reactions n s.tasks
  running : s.numberOfRunningProvers = s.tasks.countP (·.2)
  old : ∀ c ptp, s.proverTasksInProgress.find? c = some ptp → c < s.nextCall
  told : ∀ c ptp, s.proverTasksInProgress.find? c = some ptp → ptp.started = true → c ∈ started
  observed : ∀ o ∈ s.observed, 0 ≤ o.1 ∧ 0 ≤ o.2.1 ∧ 0 ≤ o.2.2

namespace Inv

variable {s : Scheduler R} {started : List ℕ}

theorem init (reactions : List (List (Option R))) : (init reactions).Inv reactions 0 [] where
  ledger :=
    ⟨⟨nodup_nil, fun _ _ hmem => absurd hmem not_mem_nil, fun _ hlt => absurd hlt (Nat.not_lt_zero _),
      fun _ _ => rfl⟩, rfl, rfl⟩
  running := rfl
  old _ _ h := by cases h
  told _ _ h := by cases h
  observed _ hmem := absurd hmem not_mem_nil

section

variable (h : s.Inv reactions n started)
include h

theorem mono {started' : List ℕ} (hsub : started ⊆ started') : s.Inv reactions n started' where
  ledger := h.ledger
  running := h.running
  old := h.old
  told c ptp hf hs := hsub (h.told c ptp hf hs)
  observed := h.observed

theorem frame {s' : Scheduler R} {n' : ℕ} (hf : Frame s s') (hk : s'.Keeps reactions n' s.tasks) :
    s'.Inv reactions n' started where
  ledger := by
    rw [tasks, hf.table]
    exact hk
  running := by
    rw [hf.running, tasks, hf.table]
    exact h.running
  old c ptp := by
    rw [hf.table, hf.nextCall]
    exact h.old c ptp
  told c ptp := by
    rw [hf.table]
    exact h.told c ptp
  observed := by
    rw [hf.observed]
    exact h.observed

theorem observe {scheduled waiting running : ℤ} (h₁ : 0 ≤ scheduled) (h₂ : 0 ≤ waiting)
    (h₃ : 0 ≤ running) : (s.observe scheduled waiting running).Inv reactions n started where
  ledger := h.ledger
  running := h.running
  old := h.old
  told := h.told
  observed o hmem := by
    obtain hmem | hmem := mem_append.mp hmem
    · exact h.observed o hmem
    · rw [mem_singleton.mp hmem]
      exact ⟨h₁, h₂, h₃⟩

theorem updateObserver : s.updateObserver.Inv reactions n started := by
  have hle : s.tasks.countP (·.2) ≤ s.proverTasksInProgress.bindings.length := by
    refine Nat.le_trans countP_le_length ?_
    simp [tasks]
  have hrun := h.running
  exact h.observe (by omega) (by omega) (by omega)

theorem schedule (o : Option R) : (s.scheduleProofAttempt o).Inv reactions (n + 1) started :=
  h.frame ⟨rfl, rfl, rfl, rfl⟩ (h.ledger.schedule o)

/-! ## The handlers -/

theorem pop (hq : s.scheduledProofAttempts = spa :: rest) :
    ({ s with scheduledProofAttempts := rest } : Scheduler R).Keeps reactions n
      ((spa.attempt, false) :: s.tasks) := by
  refine ⟨h.ledger.1.perm ?_, h.ledger.2⟩
  simp only [waiting, hq, map_cons, cons_append]
  exact perm_middle.symm

theorem pop_finish (hq : s.scheduledProofAttempts = spa :: rest) (st : PaStatus R)
    (hst : st.IsTerminal) :
    (({ s with scheduledProofAttempts := rest } : Scheduler R).callback spa.attempt st).Inv
      reactions n started :=
  h.frame ((Frame.queue s rest).trans (Frame.callback ..)) ((h.pop hq).finish hst)

theorem pop_call (hq : s.scheduledProofAttempts = spa :: rest) :
    ({ s with
      scheduledProofAttempts := rest
      proverTasksInProgress :=
        s.proverTasksInProgress.add s.nextCall ⟨spa.attempt, false, spa.ores⟩
      nextCall := s.nextCall + 1 } : Scheduler R).Inv reactions n started := by
  have hnone : s.proverTasksInProgress.find? s.nextCall = none := by
    cases hf : s.proverTasksInProgress.find? s.nextCall with
    | none => rfl
    | some ptp => exact absurd (h.old _ _ hf) (Nat.lt_irrefl _)
  have hperm := (TagMap.bindings_add_perm s.proverTasksInProgress s.nextCall
    ⟨spa.attempt, false, spa.ores⟩).map fun b => (b.2.attempt, b.2.started)
  rw [TagMap.remove_bindings_of_find?_eq_none _ hnone] at hperm
  refine ⟨(h.pop hq).perm hperm.symm, ?_, ?_, ?_, h.observed⟩
  · refine h.running.trans (congrArg Nat.cast ?_)
    exact ((hperm.countP_eq _).trans (countP_cons_of_neg Bool.false_ne_true)).symm
  · intro c ptp hf
    rw [TagMap.find?_add] at hf
    split at hf
    · next hc => exact hc ▸ Nat.lt_succ_self _
    · exact Nat.lt_succ_of_lt (h.old c ptp hf)
  · intro c ptp hf hs
    rw [TagMap.find?_add] at hf
    split at hf
    · cases hf
      cases hs
    · exact h.told c ptp hf hs

end

theorem idleHandler (cfg : SchedulerConfig R) (h : s.Inv reactions n started) (o : BuildOutcome) :
    (cfg.stackTrace = false → ∃ s', s.idleHandler cfg o = some s') ∧
      ∀ s', s.idleHandler cfg o = some s' → s'.Inv reactions n started := by
  rw [Scheduler.idleHandler]
  split
  · split
    · have h' : ({ s with idleHandlerRunning := false } : Scheduler R).Inv reactions n started :=
        h.frame ⟨rfl, rfl, rfl, rfl⟩ h.ledger
      exact ⟨fun _ => ⟨_, rfl⟩, fun s' hs' => Option.some.inj hs' ▸ h'.updateObserver⟩
    · next spa rest hq =>
        cases o with
        | call =>
          exact ⟨fun _ => ⟨_, rfl⟩,
            fun s' hs' => Option.some.inj hs' ▸ (h.pop_call hq).updateObserver⟩
        | sysError =>
          exact ⟨fun _ => ⟨_, rfl⟩,
            fun s' hs' => Option.some.inj hs' ▸ (h.pop_finish hq .internalFailure
              trivial).updateObserver⟩
        | noTask | failure =>
          simp only [buildProverCall]
          split
          · next hst => exact ⟨fun hf => by simp [hf] at hst, fun s' hs' => nomatch hs'⟩
          · exact ⟨fun _ => ⟨_, rfl⟩,
              fun s' hs' => Option.some.inj hs' ▸ (h.pop_finish hq .internalFailure
                trivial).updateObserver⟩
  · exact ⟨fun _ => ⟨_, rfl⟩, fun s' hs' => Option.some.inj hs' ▸ h.updateObserver⟩

section

variable (h : s.Inv reactions n started) (hf : s.proverTasksInProgress.find? c = some ptp)
include h hf

/-- The call of a task is over: the task leaves the table with a verdict. -/
theorem finish (hst : st.IsTerminal) : (s.finish c ptp st).Inv reactions n started := by
  have hperm := (TagMap.bindings_perm_of_find? _ hf).map fun b => (b.2.attempt, b.2.started)
  have hfind : ∀ c' ptp', (s.proverTasksInProgress.remove c).find? c' = some ptp' →
      s.proverTasksInProgress.find? c' = some ptp' := by
    intro c' ptp' hf'
    rw [TagMap.remove, TagMap.find?_setDiff] at hf'
    split at hf'
    · cases hf'
    · exact hf'
  have hrun := h.running
  rw [tasks, hperm.countP_eq, map_cons, countP_cons] at hrun
  have hmid : (s.removeTask c ptp).Keeps reactions n ((ptp.attempt, ptp.started) ::
      (s.proverTasksInProgress.remove c).bindings.map fun b => (b.2.attempt, b.2.started)) :=
    h.ledger.perm hperm
  have hframe := Frame.callback (s.removeTask c ptp) ptp.attempt st
  refine ⟨?_, ?_, ?_, ?_, ?_⟩
  · rw [tasks, Scheduler.finish, hframe.table]
    exact hmid.finish hst
  · rw [tasks, Scheduler.finish, hframe.table, hframe.running]
    cases hs : ptp.started <;> simp_all [removeTask]
  · intro c' ptp' hf'
    rw [Scheduler.finish, hframe.table] at hf'
    rw [Scheduler.finish, hframe.nextCall]
    exact h.old c' ptp' (hfind c' ptp' hf')
  · intro c' ptp' hf'
    rw [Scheduler.finish, hframe.table] at hf'
    exact h.told c' ptp' (hfind c' ptp' hf')
  · rw [Scheduler.finish, hframe.observed]
    exact h.observed

/-- The prover of a task starts: the task is marked, after the callback. -/
theorem start (hs : ptp.started = false) :
    ({ s.callback ptp.attempt .running with
      numberOfRunningProvers := (s.callback ptp.attempt .running).numberOfRunningProvers + 1
      proverTasksInProgress := (s.callback ptp.attempt .running).proverTasksInProgress.add c
        { ptp with started := true } } : Scheduler R).Inv reactions n (started ++ [c]) := by
  have hframe := Frame.callback s ptp.attempt .running
  have hold := (TagMap.bindings_perm_of_find? _ hf).map fun b => (b.2.attempt, b.2.started)
  have hnew := (TagMap.bindings_add_perm s.proverTasksInProgress c
    { ptp with started := true }).map fun b => (b.2.attempt, b.2.started)
  rw [map_cons, hs] at hold
  rw [map_cons] at hnew
  have hrun := h.running
  rw [tasks, hold.countP_eq, countP_cons_of_neg Bool.false_ne_true] at hrun
  rw [hframe.table, hframe.running]
  refine ⟨?_, ?_, ?_, ?_, ?_⟩
  · exact (h.ledger.perm hold).start.perm hnew.symm
  · refine Eq.trans ?_ (congrArg Nat.cast (hnew.countP_eq _)).symm
    rw [countP_cons_of_pos rfl, hrun]
    rfl
  · intro c' ptp' hf'
    rw [TagMap.find?_add] at hf'
    refine lt_of_lt_of_eq ?_ hframe.nextCall.symm
    split at hf'
    · next hc => exact h.old c' ptp (hc ▸ hf)
    · exact h.old c' ptp' hf'
  · intro c' ptp' hf' hs'
    rw [TagMap.find?_add] at hf'
    split at hf'
    · next hc => exact mem_append_right _ (mem_singleton.mpr hc)
    · exact mem_append_left _ (h.told c' ptp' hf' hs')
  · intro o hmem
    exact h.observed o (hframe.observed ▸ hmem)

end

theorem startedCalls_getNewResults (blocking : Bool) (results : List (ℕ × ProverUpdate R)) :
    (startedCalls (getNewResults blocking results)).Sublist (startedCalls results) :=
  filter_sublist.filterMap _

section

variable (cfg : SchedulerConfig R) (h : s.Inv reactions n started)
include h

theorem handleResult (r : ℕ × ProverUpdate R) (hnew : (started ++ startedCalls [r]).Nodup) :
    ∃ s', s.handleResult cfg r = some s' ∧ s'.Inv reactions n (started ++ startedCalls [r]) := by
  have hmono := h.mono (subset_append_left started (startedCalls [r]))
  obtain ⟨c, u⟩ := r
  rw [Scheduler.handleResult]
  cases hf : s.proverTasksInProgress.find? c with
  | none => exact ⟨s, rfl, hmono⟩
  | some ptp =>
    cases u with
    | noUpdates => exact ⟨s, rfl, hmono⟩
    | proverInterrupted | internalFailure
    | proverFinished res => exact ⟨_, rfl, hmono.finish hf trivial⟩
    | proverStarted =>
      -- a marked task has been told the start already
      have hs : ptp.started = false := by
        rw [Bool.eq_false_iff]
        intro hs
        exact (nodup_append.mp hnew).2.2 c (h.told c ptp hf hs) c
          (mem_singleton_self c) rfl
      refine ⟨_, if_neg (ne_true_of_eq_false hs), h.start hf hs⟩

theorem handleResults (results : List (ℕ × ProverUpdate R))
    (hnew : (started ++ startedCalls results).Nodup) :
    ∃ s', results.foldlM (Scheduler.handleResult cfg) s = some s' ∧
      s'.Inv reactions n (started ++ startedCalls results) := by
  induction results generalizing s started with
  | nil => exact ⟨s, rfl, by simpa [startedCalls] using h⟩
  | cons r results ih =>
    have happ : startedCalls (r :: results) = startedCalls [r] ++ startedCalls results :=
      filterMap_append (l := [r])
    rw [happ, ← append_assoc] at hnew ⊢
    obtain ⟨s₁, hs₁, hinv⟩ := h.handleResult cfg r (nodup_append.mp hnew).1
    obtain ⟨s₂, hs₂, hinv'⟩ := ih hinv hnew
    exact ⟨s₂, by rw [foldlM_cons, hs₁]; exact hs₂, hinv'⟩

theorem timeoutHandler (results : List (ℕ × ProverUpdate R))
    (hnew : (started ++ startedCalls results).Nodup) :
    ∃ s', s.timeoutHandler cfg results = some s' ∧
      s'.Inv reactions n (started ++ startedCalls results) := by
  rw [Scheduler.timeoutHandler]
  split
  · have hsub := startedCalls_getNewResults cfg.blocking results
    obtain ⟨s', hs', hinv⟩ := handleResults cfg h (getNewResults cfg.blocking results)
      (hnew.sublist (Sublist.append_left hsub _))
    rw [hs']
    exact ⟨_, rfl, (hinv.mono (Sublist.append_left hsub _).subset).updateObserver⟩
  · exact ⟨_, rfl, (h.mono (subset_append_left ..)).updateObserver⟩

theorem interrupt : s.interrupt.Inv reactions n started := by
  have hk := Keeps.interruptTasks s.proverTasksInProgress.bindings h.ledger
  have hobs := Frame.callbacks s.proverTasksInProgress.bindings s
  rw [Scheduler.interrupt]
  generalize s.proverTasksInProgress.bindings.foldl
    (fun s b => s.callback b.2.attempt .interrupted) s = s₁ at hk hobs
  have hinv : s₁.clearTasks.Inv reactions n started :=
    { ledger := hk
      running := rfl
      old := fun _ _ hf => nomatch hf
      told := fun _ _ hf => nomatch hf
      observed := fun o hmem => h.observed o (hobs.observed ▸ hmem) }
  obtain ⟨hkeeps, hframe⟩ := Keeps.interruptScheduled s₁.clearTasks hk
  exact (hinv.frame hframe hkeeps).observe (by decide) (by decide) (by decide)

/-! ## Runs -/

theorem step (e : SchedulerEvent R) (hnew : (started ++ e.started).Nodup) :
    (cfg.stackTrace = false → ∃ s', s.step cfg e = some s') ∧
      ∀ s', s.step cfg e = some s' →
        s'.Inv reactions (n + [e].countP SchedulerEvent.isSchedule) (started ++ e.started) := by
  cases e with
  | schedule o =>
    refine ⟨fun _ => ⟨_, rfl⟩, fun s' hs' => ?_⟩
    cases hs'
    exact (h.schedule o).mono (subset_append_left ..)
  | idle o =>
    obtain ⟨hok, hinv⟩ := h.idleHandler cfg o
    exact ⟨hok, fun s' hs' => (hinv s' hs').mono (subset_append_left ..)⟩
  | timeout results =>
    obtain ⟨s₁, hs₁, hinv⟩ := h.timeoutHandler cfg results hnew
    refine ⟨fun _ => ⟨s₁, hs₁⟩, fun s' hs' => ?_⟩
    cases hs₁.symm.trans hs'
    exact hinv
  | interrupt =>
    refine ⟨fun _ => ⟨_, rfl⟩, fun s' hs' => ?_⟩
    cases hs'
    exact h.interrupt.mono (subset_append_left ..)

theorem run (events : List (SchedulerEvent R))
    (hnew : (started ++ events.flatMap SchedulerEvent.started).Nodup) :
    (cfg.stackTrace = false → ∃ s', events.foldlM (Scheduler.step cfg) s = some s') ∧
      ∀ s', events.foldlM (Scheduler.step cfg) s = some s' →
        s'.Inv reactions (n + events.countP SchedulerEvent.isSchedule)
          (started ++ events.flatMap SchedulerEvent.started) := by
  induction events generalizing s started n with
  | nil =>
    refine ⟨fun _ => ⟨s, rfl⟩, fun s' hs' => ?_⟩
    cases hs'
    simpa using h
  | cons e events ih =>
    rw [flatMap_cons, ← append_assoc] at hnew ⊢
    obtain ⟨hok, hstep⟩ := h.step cfg e (nodup_append.mp hnew).1
    constructor
    · intro hst
      obtain ⟨s₁, hs₁⟩ := hok hst
      obtain ⟨s₂, hs₂⟩ := (ih (hstep s₁ hs₁) hnew).1 hst
      exact ⟨s₂, by rw [foldlM_cons, hs₁]; exact hs₂⟩
    · intro s₂ hs₂
      rw [foldlM_cons] at hs₂
      obtain ⟨s₁, hs₁, hrest⟩ := Option.bind_eq_some_iff.mp hs₂
      have hinv := (ih (hstep s₁ hs₁) hnew).2 s₂ hrest
      rwa [Nat.add_assoc, ← countP_append] at hinv

end

end Inv

/-! ## Verdicts -/

/-- The attempts scheduled so far are told their states in order and get at most one verdict. -/
theorem Inv.ordered (h : s.Inv reactions n started) (ha : a < s.nextAttempt) :
    ∃ (r : Bool) (verdict : Option (PaStatus R)),
      (∀ st ∈ verdict, st.IsTerminal) ∧ s.statuses a = pending r ++ verdict.toList := by
  by_cases hlive : a ∈ (s.waiting ++ s.tasks).map Prod.fst
  · obtain ⟨⟨a, r⟩, hmem, rfl⟩ := mem_map.mp hlive
    refine ⟨r, none, by simp, ?_⟩
    rw [Option.toList_none, append_nil]
    exact (h.ledger.1.live_told a r hmem).2
  · obtain ⟨r, st, hst, htold⟩ := h.ledger.1.settled a ha hlive
    refine ⟨r, some st, ?_, htold⟩
    intro st' hst'
    cases hst'
    exact hst

theorem Inv.verdict (h : s.Inv reactions n started) (hq : s.scheduledProofAttempts = [])
    (ht : s.proverTasksInProgress.bindings = []) (ha : a < s.nextAttempt) :
    HasVerdict (s.statuses a) := by
  refine h.ledger.1.settled a ha ?_
  rw [waiting, tasks, hq, ht]
  exact not_mem_nil

/-- In every run in which the server tells the start of a call at most once, each scheduled
attempt is told that it is scheduled, then perhaps that it runs, then perhaps one verdict;
when the queue and the table are empty it has its verdict. There are as many attempts as events
and called callbacks have scheduled. The number of running provers is that of the marked tasks,
and no count that the observer sees is negative. No handler fails, unless the debugging flag
lets exceptions escape. -/
theorem scheduler_verdicts (cfg : SchedulerConfig R) (reactions : List (List (Option R)))
    (events : List (SchedulerEvent R)) (h : (events.flatMap SchedulerEvent.started).Nodup) :
    (cfg.stackTrace = false → ∃ s, run cfg reactions events = some s) ∧
      ∀ s, run cfg reactions events = some s →
        s.nextAttempt = events.countP SchedulerEvent.isSchedule +
          ((reactions.take s.answered).map length).sum ∧
        (∀ a < s.nextAttempt, ∃ (r : Bool) (verdict : Option (PaStatus R)),
          (∀ st ∈ verdict, st.IsTerminal) ∧ s.statuses a = pending r ++ verdict.toList) ∧
        (s.scheduledProofAttempts = [] → s.proverTasksInProgress.bindings = [] →
          ∀ a < s.nextAttempt, HasVerdict (s.statuses a)) ∧
        s.numberOfRunningProvers =
          s.proverTasksInProgress.bindings.countP (fun b => b.2.started) ∧
        ∀ o ∈ s.observed, 0 ≤ o.1 ∧ 0 ≤ o.2.1 ∧ 0 ≤ o.2.2 := by
  obtain ⟨hok, hinv⟩ := (Inv.init reactions).run cfg events h
  refine ⟨hok, fun s hs => ?_⟩
  have hs' := hinv s hs
  refine ⟨?_, fun a ha => hs'.ordered ha, fun hq ht a ha => hs'.verdict hq ht ha, ?_, hs'.observed⟩
  · rw [hs'.ledger.2.count, Nat.zero_add]
  · have hrun := hs'.running
    rw [tasks, countP_map] at hrun
    exact hrun

/-- A run in which the start of a call is told after its end, and a callback schedules an
attempt, which is interrupted. -/
theorem scheduler_verdicts_late_start :
    (([.schedule none, .idle .call,
        .timeout [(0, .proverFinished ()), (0, .proverStarted)], .interrupt] :
          List (SchedulerEvent Unit)).flatMap SchedulerEvent.started).Nodup ∧
      ∃ s, run ⟨false, 2, 1, false, fun r _ => r⟩ [[none]]
        [.schedule none, .idle .call,
          .timeout [(0, .proverFinished ()), (0, .proverStarted)], .interrupt] = some s ∧
        ∃ k, s.nextAttempt = 1 + ((([[none]] : List (List (Option Unit))).take k).map length).sum ∧
          ∀ a < s.nextAttempt, ∃ (r : Bool) (verdict : Option (PaStatus Unit)),
            (∀ st ∈ verdict, st.IsTerminal) ∧ s.statuses a = pending r ++ verdict.toList := by
  refine ⟨by decide, ?_⟩
  obtain ⟨hok, hall⟩ := scheduler_verdicts ⟨false, 2, 1, false, fun r _ => r⟩ [[none]]
    [.schedule none, .idle .call, .timeout [(0, .proverFinished ()), (0, .proverStarted)],
      .interrupt] (by decide)
  obtain ⟨s, hs⟩ := hok rfl
  obtain ⟨hcount, hstatuses, -⟩ := hall s hs
  exact ⟨s, hs, s.answered, hcount, hstatuses⟩

/-! ## Interruptions -/

theorem interruptScheduled_empty (s : Scheduler R) :
    s.interruptScheduled.scheduledProofAttempts = [] ∧
      s.interruptScheduled.proverTasksInProgress = s.proverTasksInProgress := by
  fun_induction interruptScheduled s with
  | case1 s h => exact ⟨h, rfl⟩
  | case2 s spa rest h ih => exact ⟨ih.1, ih.2.trans (Frame.callback ..).table⟩

/-- An interruption, at any time, leaves no attempt without a verdict, not even those that
callbacks schedule meanwhile: these are counted. -/
theorem interrupt_settles (cfg : SchedulerConfig R) (reactions : List (List (Option R)))
    (events : List (SchedulerEvent R)) (h : (events.flatMap SchedulerEvent.started).Nodup)
    (hs : run cfg reactions events = some s) :
    s.interrupt.scheduledProofAttempts = [] ∧ s.interrupt.proverTasksInProgress = .empty ∧
      s.interrupt.nextAttempt = events.countP SchedulerEvent.isSchedule +
        ((reactions.take s.interrupt.answered).map length).sum ∧
      ∀ a < s.interrupt.nextAttempt, HasVerdict (s.interrupt.statuses a) := by
  have hinv := (((Inv.init reactions).run cfg events h).2 s hs).interrupt
  have hempty : s.interrupt.scheduledProofAttempts = [] ∧
    s.interrupt.proverTasksInProgress = .empty := interruptScheduled_empty _
  have hcount := hinv.ledger.2.count
  rw [Nat.zero_add] at hcount
  exact ⟨hempty.1, hempty.2, hcount, fun a => hinv.verdict hempty.1 (by rw [hempty.2]; rfl)⟩

/-- The callback of the attempt that is interrupted schedules another one. -/
theorem interrupt_settles_reaction :
    ∃ s, run ⟨false, 2, 1, false, fun r _ => r⟩ [[none]] [.schedule (none : Option Unit)] =
      some s ∧ s.interrupt.nextAttempt =
        1 + ((([[none]] : List (List (Option Unit))).take s.interrupt.answered).map length).sum ∧
      ∀ a < s.interrupt.nextAttempt, HasVerdict (s.interrupt.statuses a) :=
  ⟨_, rfl, (interrupt_settles ⟨false, 2, 1, false, fun r _ => r⟩ [[none]] [.schedule none]
    (by decide) rfl).2.2⟩

end Scheduler

end Why3.Session
