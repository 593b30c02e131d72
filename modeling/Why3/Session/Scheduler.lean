import Mathlib.Data.Int.Notation
import Mathlib.Algebra.Order.Ring.Nat
import Why3.Lib.ExceptFold
import Why3.Lib.TagMap

/-!
# The scheduler of proof attempts

After `src/session/controller_itp.ml`. Attempts wait in a queue until the idle handler makes
calls of provers of them; the timeout handler reads what the server answers. Each attempt
has a callback, which is told the states of the attempt. The calls of callbacks and of the
observer are recorded.

The handlers run one after the other. A callback may schedule other attempts; which ones is
an input, `reactions`, with one list for each call of a callback to come. The callbacks of
these attempts may again schedule attempts, which are then in the same list: between the two
the queue only grows. What comes of an attempt in the drivers is an input of the idle
handler, the answers of the server are one of the timeout handler. The results of provers
are of any type.
-/

namespace Why3.Session

open Lib

variable {R : Type}

inductive PaStatus (R : Type) where
  | scheduled
  | running
  | done (res : R)
  | interrupted
  | internalFailure
  | detached

def toldTo (calls : List (ℕ × PaStatus R)) (a : ℕ) : List (PaStatus R) :=
  (calls.filter (·.1 = a)).map Prod.snd

inductive ProverUpdate (R : Type) where
  | noUpdates
  | proverInterrupted
  | internalFailure
  | proverStarted
  | proverFinished (res : R)

structure SchedPa (R : Type) where
  attempt : ℕ
  ores : Option R

structure ProverTask (R : Type) where
  attempt : ℕ
  started : Bool
  ores : Option R

inductive BuildOutcome where
  | call
  | sysError
  | noTask
  | failure

structure SchedulerConfig (R : Type) where
  blocking : Bool
  multiplier : ℕ
  sessionMaxTasks : ℕ
  /-- The debugging flag: exceptions are not caught. -/
  stackTrace : Bool
  fuzzyProofTime : R → R → R

/-- The state, with the calls of callbacks and of the observer so far and what the coming
calls of callbacks schedule. New attempts and new calls are numbered. -/
structure Scheduler (R : Type) where
  scheduledProofAttempts : List (SchedPa R)
  proverTasksInProgress : TagMap ℕ (ProverTask R)
  numberOfRunningProvers : ℤ
  idleHandlerRunning : Bool
  timeoutHandlerRunning : Bool
  nextAttempt : ℕ
  nextCall : ℕ
  callbacks : List (ℕ × PaStatus R)
  reactions : List (List (Option R))
  observed : List (ℤ × ℤ × ℤ)

variable (cfg : SchedulerConfig R) (s : Scheduler R)

namespace Scheduler

def init (reactions : List (List (Option R))) : Scheduler R :=
  ⟨[], .empty, 0, false, false, 0, 0, [], reactions, []⟩

def record (a : ℕ) (st : PaStatus R) : Scheduler R :=
  { s with callbacks := s.callbacks ++ [(a, st)] }

def runIdleHandler : Scheduler R :=
  { s with idleHandlerRunning := true, timeoutHandlerRunning := true }

def scheduleProofAttempt (ores : Option R) : Scheduler R :=
  let a := s.nextAttempt
  let s : Scheduler R := { s with
    scheduledProofAttempts := s.scheduledProofAttempts ++ [⟨a, ores⟩], nextAttempt := a + 1 }
  (s.record a .scheduled).runIdleHandler

/-- The callback of an attempt, with what it schedules. -/
def callback (a : ℕ) (st : PaStatus R) : Scheduler R :=
  let s := s.record a st
  (s.reactions.headD []).foldl scheduleProofAttempt { s with reactions := s.reactions.tail }

def observe (scheduled waiting running : ℤ) : Scheduler R :=
  { s with observed := s.observed ++ [(scheduled, waiting, running)] }

def updateObserver : Scheduler R :=
  s.observe s.scheduledProofAttempts.length
    (s.proverTasksInProgress.bindings.length - s.numberOfRunningProvers) s.numberOfRunningProvers

/-- `build_prover_call`; there is no result if an exception is raised. The callback of an
attempt fails when it is told that the goal is detached. -/
def buildProverCall (spa : SchedPa R) : BuildOutcome → Option (Scheduler R)
  | .call =>
    some { s with
      proverTasksInProgress :=
        s.proverTasksInProgress.add s.nextCall ⟨spa.attempt, false, spa.ores⟩
      nextCall := s.nextCall + 1 }
  | .sysError => some (s.callback spa.attempt .internalFailure)
  | .noTask => none
  | .failure => none

def idleHandler (o : BuildOutcome) : Option (Scheduler R) :=
  if cfg.blocking ∨
      s.proverTasksInProgress.bindings.length < cfg.multiplier * cfg.sessionMaxTasks then
    match s.scheduledProofAttempts with
    | [] => some ({ s with idleHandlerRunning := false } : Scheduler R).updateObserver
    | spa :: rest =>
      let s := { s with scheduledProofAttempts := rest }
      match s.buildProverCall spa o with
      | some s => some s.updateObserver
      | none =>
        if cfg.stackTrace then none
        else some (s.callback spa.attempt .internalFailure).updateObserver
  else some s.updateObserver

def removeTask (c : ℕ) (ptp : ProverTask R) : Scheduler R :=
  { s with
    proverTasksInProgress := s.proverTasksInProgress.remove c
    numberOfRunningProvers :=
      if ptp.started then s.numberOfRunningProvers - 1 else s.numberOfRunningProvers }

def finish (c : ℕ) (ptp : ProverTask R) (st : PaStatus R) : Scheduler R :=
  (s.removeTask c ptp).callback ptp.attempt st

/-- One result; none if the assertion fails. -/
def handleResult (r : ℕ × ProverUpdate R) : Option (Scheduler R) :=
  match s.proverTasksInProgress.find? r.1 with
  | none => some s
  | some ptp =>
    match r.2 with
    | .noUpdates => some s
    | .proverStarted =>
      if ptp.started then none
      else
        let s := s.callback ptp.attempt .running
        some { s with
          numberOfRunningProvers := s.numberOfRunningProvers + 1
          proverTasksInProgress :=
            s.proverTasksInProgress.add r.1 { ptp with started := true } }
    | .proverFinished res =>
      some (s.finish r.1 ptp (.done (ptp.ores.elim res (cfg.fuzzyProofTime res))))
    | .proverInterrupted => some (s.finish r.1 ptp .interrupted)
    | .internalFailure => some (s.finish r.1 ptp .internalFailure)

/-- `get_new_results`: in blocking mode the starts of provers are not told. -/
def getNewResults (blocking : Bool) (results : List (ℕ × ProverUpdate R)) :
    List (ℕ × ProverUpdate R) :=
  results.filter fun r =>
    match r.2 with
    | .proverStarted => !blocking
    | _ => true

def timeoutHandler (results : List (ℕ × ProverUpdate R)) : Option (Scheduler R) := do
  let s ← if s.proverTasksInProgress.bindings.length ≠ 0 then
      (getNewResults cfg.blocking results).foldlM (handleResult cfg) s
    else some s
  some s.updateObserver

/-- The attempts in the queue and those which the coming calls of callbacks schedule. -/
def pendingCount : ℕ :=
  s.scheduledProofAttempts.length + (s.reactions.map List.length).sum

theorem length_foldl_scheduleProofAttempt (l : List (Option R)) (s : Scheduler R) :
    (l.foldl scheduleProofAttempt s).scheduledProofAttempts.length =
        s.scheduledProofAttempts.length + l.length ∧
      (l.foldl scheduleProofAttempt s).reactions = s.reactions := by
  induction l generalizing s with
  | nil => exact ⟨rfl, rfl⟩
  | cons o l ih =>
    obtain ⟨hlen, hre⟩ := ih (s.scheduleProofAttempt o)
    refine ⟨hlen.trans ?_, hre⟩
    simp [scheduleProofAttempt, record, runIdleHandler, Nat.add_assoc, Nat.add_comm 1]

/-- A call of a callback moves attempts from the ones to come to the queue. -/
theorem pendingCount_callback (a : ℕ) (st : PaStatus R) :
    (s.callback a st).pendingCount = s.pendingCount := by
  obtain ⟨hlen, hre⟩ := length_foldl_scheduleProofAttempt (s.reactions.headD [])
    { s.record a st with reactions := s.reactions.tail }
  have hlen' : (s.callback a st).scheduledProofAttempts.length =
      s.scheduledProofAttempts.length + (s.reactions.headD []).length := hlen
  have hre' : (s.callback a st).reactions = s.reactions.tail := hre
  rw [pendingCount, hlen', hre', pendingCount]
  cases s.reactions <;> simp [Nat.add_assoc]

def interruptScheduled (s : Scheduler R) : Scheduler R :=
  match _h : s.scheduledProofAttempts with
  | [] => s
  | spa :: rest =>
    interruptScheduled
      (({ s with scheduledProofAttempts := rest } : Scheduler R).callback spa.attempt .interrupted)
termination_by s.pendingCount
decreasing_by
  rw [pendingCount_callback]
  simp [pendingCount, _h]

def clearTasks : Scheduler R :=
  { s with proverTasksInProgress := .empty, numberOfRunningProvers := 0 }

def interrupt : Scheduler R :=
  let s := s.proverTasksInProgress.bindings.foldl
    (fun s b => s.callback b.2.attempt .interrupted) s
  s.clearTasks.interruptScheduled.observe 0 0 0

end Scheduler

/-! ## Runs -/

inductive SchedulerEvent (R : Type) where
  | schedule (ores : Option R)
  | idle (o : BuildOutcome)
  | timeout (results : List (ℕ × ProverUpdate R))
  | interrupt

namespace Scheduler

def step : SchedulerEvent R → Option (Scheduler R)
  | .schedule ores => some (s.scheduleProofAttempt ores)
  | .idle o => s.idleHandler cfg o
  | .timeout results => s.timeoutHandler cfg results
  | .interrupt => some s.interrupt

/-- The events from the initial state; none if an exception is raised. -/
def run (reactions : List (List (Option R))) (events : List (SchedulerEvent R)) :
    Option (Scheduler R) :=
  events.foldlM (step cfg) (init reactions)

def statuses (a : ℕ) : List (PaStatus R) := toldTo s.callbacks a

end Scheduler

def startedCalls (results : List (ℕ × ProverUpdate R)) : List ℕ :=
  results.filterMap fun r =>
    match r.2 with
    | .proverStarted => some r.1
    | _ => none

def SchedulerEvent.started : SchedulerEvent R → List ℕ
  | .timeout results => startedCalls results
  | _ => []

end Why3.Session
