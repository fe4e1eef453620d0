import Why3.Session.Pairing
import Why3.Lib.Runs

/-!
# Scheduling proof attempts

The scheduler of `session/controller_itp.ml`: the queue of the attempts to come, the table
of the prover tasks in progress, and the functions that move attempts between them.  What
the prover calls do is an argument of each step.  Every attempt gets a serial number; the
statuses that the callbacks receive are logged, the newest first, and so are the attempts
whose start lets an exception through.  An interruption
that is sent to the server does not fail.  The editor calls, which are no scheduled
attempts, and the observer are left out.
-/

namespace Why3.ControllerItp

open Pairing (FoldOrder)

inductive Exn (E : Type)
  | assertFailure
  | sysError (e : E)
  | other (e : E)

/-- The statuses that the scheduler gives to callbacks. -/
inductive ProofAttemptStatus (Res E : Type)
  | scheduled | running | done (r : Res) | interrupted | detached | internalFailure (e : Exn E)

inductive ProverUpdate (Res E : Type)
  | noUpdates | proverInterrupted | internalFailure (e : Exn E) | proverStarted
  | proverFinished (r : Res)

/-- What happens when a call is built: no prover or no command, a goal without task, the
start of the prover raises, or it returns a call. -/
inductive Start (E : Type)
  | unprepared (e : Exn E) | noTask | refused (e : Exn E) | call

structure SchedPaRec (Res : Type) where
  serial : ℕ
  spaId : ℕ
  spaOres : Option Res

structure TasksProgRec (Res : Type) where
  serial : ℕ
  tpId : ℕ
  tpStarted : Bool
  tpCall : ℕ
  tpOres : Option Res

structure State (Res E : Type) where
  scheduledProofAttempts : List (SchedPaRec Res)
  proverTasksInProgress : List (ℕ × TasksProgRec Res)
  numberOfRunningProvers : ℤ
  idleHandlerRunning : Bool
  timeoutHandlerRunning : Bool
  nextCall : ℕ
  nextSerial : ℕ
  log : List (ℕ × ProofAttemptStatus Res E)
  raised : List ℕ

variable {Res E : Type}

def initial : State Res E := ⟨[], [], 0, false, false, 0, 0, [], []⟩

/-- The parameters: whether calls block, how many tasks there may be, the debugging flag
`stack_trace`, the comparison of times, and the order of a hash table. -/
structure Config (Res : Type) where
  blocking : Bool
  multiplier : ℕ
  stackTrace : Bool
  fuzzyProofTime : Res → Res → Res
  order : FoldOrder ℕ (TasksProgRec Res)

/-- `Hashtbl.replace`. -/
def hashtblReplace (call : ℕ) (ptp : TasksProgRec Res) (tbl : List (ℕ × TasksProgRec Res)) :
    List (ℕ × TasksProgRec Res) :=
  (call, ptp) :: tbl.filter fun b => b.1 ≠ call

/-- A computation that may raise an exception, with the state it leaves. -/
abbrev Result (Res E : Type) := Option (Exn E) × State Res E

def andThen (r : Result Res E) (f : State Res E → Result Res E) : Result Res E :=
  match r with
  | (some e, s) => (some e, s)
  | (none, s) => f s

namespace State

variable (s : State Res E)

def tell (serial : ℕ) (st : ProofAttemptStatus Res E) : State Res E :=
  { s with log := (serial, st) :: s.log }

/-- The callback that `schedule_proof_attempt` makes: it fails on `Detached`. -/
def callback (serial : ℕ) : ProofAttemptStatus Res E → Result Res E
  | .detached => (some .assertFailure, s)
  | st => (none, s.tell serial st)

def runIdleHandler : State Res E :=
  { s with idleHandlerRunning := true, timeoutHandlerRunning := true }

def scheduleProofAttempt (id : ℕ) (ores : Option Res) : State Res E :=
  let serial := s.nextSerial
  let spa : SchedPaRec Res := ⟨serial, id, ores⟩
  let s := { s with
    nextSerial := serial + 1
    scheduledProofAttempts := s.scheduledProofAttempts ++ [spa] }
  (s.tell serial .scheduled).runIdleHandler

/-- A call is new when the prover starts. -/
def buildProverCall (spa : SchedPaRec Res) : Start E → Result Res E
  | .unprepared e => (some e, s)
  | .noTask => s.callback spa.serial .detached
  | .refused (.sysError e) => s.callback spa.serial (.internalFailure (.sysError e))
  | .refused e => (some e, s)
  | .call =>
    let call := s.nextCall
    (none, { s with
      nextCall := call + 1
      proverTasksInProgress := hashtblReplace call
        ⟨spa.serial, spa.spaId, false, call, spa.spaOres⟩ s.proverTasksInProgress })

/-- A task leaves the table, and its callback gets the last status. -/
def finish (ptp : TasksProgRec Res) (st : ProofAttemptStatus Res E) : Result Res E :=
  callback
    { s with
      proverTasksInProgress := s.proverTasksInProgress.filter fun b => b.1 ≠ ptp.tpCall
      numberOfRunningProvers :=
        if ptp.tpStarted then s.numberOfRunningProvers - 1 else s.numberOfRunningProvers }
    ptp.serial st

variable (c : Config Res)

/-- One message of the server, in `timeout_handler`. -/
def handleUpdate (call : ℕ) (update : ProverUpdate Res E) : Result Res E :=
  match s.proverTasksInProgress.lookup call with
  | none => (none, s)
  | some ptp =>
    match update with
    | .noUpdates => (none, s)
    | .proverStarted =>
      if ptp.tpStarted then (some .assertFailure, s)
      else andThen (s.callback ptp.serial .running) fun s =>
        (none, { s with
          numberOfRunningProvers := s.numberOfRunningProvers + 1
          proverTasksInProgress :=
            hashtblReplace ptp.tpCall { ptp with tpStarted := true } s.proverTasksInProgress })
    | .proverFinished res =>
      s.finish ptp (.done (match ptp.tpOres with
        | none => res
        | some ores => c.fuzzyProofTime res ores))
    | .proverInterrupted => s.finish ptp .interrupted
    | .internalFailure e => s.finish ptp (.internalFailure e)

def handleUpdates : List (ℕ × ProverUpdate Res E) → State Res E → Result Res E
  | [], s => (none, s)
  | (call, update) :: results, s =>
    andThen (s.handleUpdate c call update) (handleUpdates results)

def timeoutHandler (results : List (ℕ × ProverUpdate Res E)) : Result Res E :=
  if s.proverTasksInProgress.length = 0 then (none, s) else handleUpdates c results s

def idleHandler (maxTasks : ℕ) (start : Start E) : Result Res E :=
  if c.blocking || s.proverTasksInProgress.length < c.multiplier * maxTasks then
    match s.scheduledProofAttempts with
    | [] => (none, { s with idleHandlerRunning := false })
    | spa :: q =>
      match buildProverCall { s with scheduledProofAttempts := q } spa start with
      | (none, s) => (none, s)
      | (some e, s) =>
        let s := { s with raised := spa.serial :: s.raised }
        if c.stackTrace then (some e, s) else s.callback spa.serial (.internalFailure e)
  else (none, s)

/-- A task that is interrupted, before it leaves the table. -/
def interruptTask (ptp : TasksProgRec Res) : State Res E :=
  tell
    { s with
      numberOfRunningProvers :=
        if ptp.tpStarted then s.numberOfRunningProvers - 1 else s.numberOfRunningProvers }
    ptp.serial .interrupted

def interrupt : State Res E :=
  let s := (c.order.order s.proverTasksInProgress).foldl (fun s b => s.interruptTask b.2) s
  let s := { s with numberOfRunningProvers := 0, proverTasksInProgress := [] }
  let s := s.scheduledProofAttempts.foldl (fun s spa => s.tell spa.serial .interrupted) s
  { s with scheduledProofAttempts := [] }

def interruptProofAttemptsForGoal (id : ℕ) : State Res E :=
  let (s, l) := (c.order.order s.proverTasksInProgress).foldl
    (fun sl b => if b.2.tpId = id then (sl.1.interruptTask b.2, b.1 :: sl.2) else sl) (s, [])
  let s := { s with
    proverTasksInProgress := l.foldl (fun tbl call => tbl.filter fun b => b.1 ≠ call)
      s.proverTasksInProgress }
  let (s, q) := s.scheduledProofAttempts.foldl
    (fun sq spa => if spa.spaId ≠ id then (sq.1, spa :: sq.2)
      else (sq.1.tell spa.serial .interrupted, sq.2)) (s, [])
  { s with scheduledProofAttempts := q.reverse }

end State

/-! ## Runs -/

inductive Action (Res E : Type)
  | schedule (id : ℕ) (ores : Option Res)
  | timeout (results : List (ℕ × ProverUpdate Res E))
  | idle (maxTasks : ℕ) (start : Start E)
  | interrupt
  | interruptGoal (id : ℕ)

/-- An exception that leaves a handler does not undo what was done. -/
def step (c : Config Res) (s : State Res E) : Action Res E → State Res E
  | .schedule id ores => s.scheduleProofAttempt id ores
  | .timeout results => (s.timeoutHandler c results).2
  | .idle maxTasks start => (s.idleHandler c maxTasks start).2
  | .interrupt => s.interrupt c
  | .interruptGoal id => s.interruptProofAttemptsForGoal c id

/-- The states that any sequence of calls reaches. -/
def Reachable (c : Config Res) (s : State Res E) : Prop :=
  Runs.Run (fun s a => some (step c s a)) (fun _ _ => True) initial s

def ProofAttemptStatus.isTerminal : ProofAttemptStatus Res E → Bool
  | .done _ | .interrupted | .internalFailure _ => true
  | .scheduled | .running | .detached => false

namespace State

variable (s : State Res E)

/-- What the callback of an attempt received, the last status first. -/
def statuses (k : ℕ) : List (ProofAttemptStatus Res E) :=
  (s.log.filter fun b => b.1 = k).map Prod.snd

def ended (k : ℕ) : Bool := (s.statuses k).any ProofAttemptStatus.isTerminal

def inQueue (k : ℕ) : ℕ := s.scheduledProofAttempts.countP fun spa => spa.serial = k

def inTable (k : ℕ) : ℕ := s.proverTasksInProgress.countP fun b => b.2.serial = k

end State

end Why3.ControllerItp
