import Pypepper.JobProg
/-!
# Worker — the consumer's processing of one job

`scheduler/worker.py`, one definition per function, with the source's handlers in place.  A workflow is started and
ended by two actions, the work between them being the environment's.  Its end is the one action that can raise what
`except Exception` does not catch, and the handler around the workflows looks for that; to the others it does not come.
-/
namespace Pypepper
namespace Worker

open Conc (Prog)
open Job (do_ applyEventP getSaved save)

/-- `_FOLLOW_WITHOUT_RUN`. -/
def followWithoutRun : List String :=
  [Status.inProgress.value, Status.failed.value, Status.completed.value, Status.cancelled.value]

def followDurableStatus (status : String) : JobProg Unit :=
  match Status.ofValue status with
  | some s => do_ (.restore s)
  | none   => Prog.raise (.value ("'" ++ status ++ "' is not a valid Status"))

/-- `_force_failed_lifecycle`: `FAIL` leaves only InProgress, so from any other state Failed is restored directly. -/
def forceFailedLifecycle : JobProg Unit := do
  if (← do_ .currentStatus) = Status.failed.value then return ()
  else (applyEventP .fail).tryExcept (fun _ => do_ (.restore .failed))

def persistFailedSnapshot (job : Ident) : JobProg Unit := do
  forceFailedLifecycle
  if ← save then return ()
  else Prog.raise (.runtime ("Job Failed persist skipped: id=" ++ job.id))

def markUndeliverableFailed : JobProg Unit := do
  forceFailedLifecycle
  (do let _ ← save; return () : JobProg Unit).tryExcept (fun _ => return ())

def transitionAndSaveTerminal (e : Event) : JobProg Unit := do
  applyEventP e
  let _ ← save
  return ()

def ensureCancelledPersisted : JobProg Unit := do
  let saved ← getSaved
  if saved.map JobRecord.status = some Status.cancelled.value then return ()
  else do
    let _ ← save
    return ()

def ensureCancelledPersistedLogged : JobProg Unit := ensureCancelledPersisted.tryExcept Prog.raise

/-- `_requeue_after_run_restore`: it never returns normally. -/
def requeueAfterRunRestore (job : Ident) : JobProg Unit := do
  match ← do_ .send with
  | .ok => Prog.raise (.requeued
      ("Job re-enqueued after RUN persist restore: id=" ++ job.id ++ ", channel_id=" ++ job.channelId))
  | result => do
    let reason := if result = .full then "full" else "stopped"
    markUndeliverableFailed
    Prog.raise (.redelivery ("Job RUN persist restore could not re-enqueue (channel " ++ reason ++ "): id=" ++ job.id ++
      ", channel_id=" ++ job.channelId) reason job.ref)

def failOrRestoreAfterRunPersist (job : Ident) (prevState : Option Status) (prevStatus : String) (saveExc : Exn) :
    JobProg Unit := do
  match ← (do
      if ← do_ .isCancelled then Prog.raise (.runtime ("Job already cancelled: id=" ++ job.id))
      else persistFailedSnapshot job : JobProg Unit).attempt with
  | .ok ()   => Prog.raise saveExc
  | .error _ =>
    if ← do_ .isCancelled then do
      ensureCancelledPersisted
      Prog.raise saveExc
    else do
      do_ (.restoreLifecycle prevState prevStatus)
      requeueAfterRunRestore job
      Prog.raise saveExc

/-- The Scheduled snapshot before `RUN`: when there is no row it is saved, and a refused save must have left a row. -/
def heal (job : Ident) : JobProg Unit := do
  if (← getSaved).isNone then
    if ← save then return ()
    else if (← getSaved).isNone then
      Prog.raise (.runtime ("Job Scheduled persist failed before RUN: id=" ++ job.id))
    else return ()
  else return ()

/-- The `RUN` put was refused: follow the durable row, or treat the refusal as a persist failure. -/
def runSkipped (job : Ident) (prevState : Option Status) (prevStatus : String) : JobProg Unit := do
  let durable ← getSaved
  let durableStatus := durable.map JobRecord.status
  if durableStatus = some Status.cancelled.value then do
    if ← do_ .isCancelled then ensureCancelledPersistedLogged
    else do
      applyEventP .cancel
      ensureCancelledPersistedLogged
  else
    match durableStatus.filter followWithoutRun.contains with
    | some s => followDurableStatus s
    | none   =>
      failOrRestoreAfterRunPersist job prevState prevStatus
        (.runtime ("Job RUN persist skipped: id=" ++ job.id ++ ", durable=" ++ durableStatus.getD "None"))

/-- The loop over the workflows; `true` when it stopped at a cancelled job. -/
def runWorkflows : List Workflow → Nat → JobProg Bool
  | [],      _ => return false
  | _ :: ws, i => do
    if ← do_ .isCancelled then do
      ensureCancelledPersistedLogged
      return true
    else do
      do_ (.startWorkflow i)
      (do_ (.endWorkflow i)).bind Prog.ofExcept
      runWorkflows ws (i + 1)

/-- A workflow (or the re-persist between two workflows) raised. -/
def workflowFailed (e : Exn) : JobProg Unit := do
  if ← do_ .isCancelled then ensureCancelledPersistedLogged
  else do
    let _ ← (transitionAndSaveTerminal .fail).attempt
    Prog.raise e

/-- Everything after the `RUN` snapshot was written. -/
def execute : JobProg Unit := do
  match ← (do
      let ws ← do_ .workflows
      do_ .shareCancelEvent
      runWorkflows ws 0 : JobProg Bool).attempt with
  | .error e   => if e.isException then workflowFailed e else Prog.raise e
  | .ok true   => return ()
  | .ok false  =>
    if ← do_ .isCancelled then ensureCancelledPersistedLogged
    else transitionAndSaveTerminal .complete

/-- `RUN` and its snapshot, then the work. -/
def runAndExecute (job : Ident) (prevState : Option Status) (prevStatus : String) : JobProg Unit := do
  applyEventP .run
  match ← save.attempt with
  | .error e   => failOrRestoreAfterRunPersist job prevState prevStatus e
  | .ok false  => runSkipped job prevState prevStatus
  | .ok true   => execute

/-- `Worker._process`. -/
def process (job : Ident) : JobProg Unit := do
  if ← do_ .isCancelled then ensureCancelledPersistedLogged
  else do
    let prevState ← do_ .fsmCurrent
    let prevStatus ← do_ .status
    match ← (heal job).attempt with
    | .error e => failOrRestoreAfterRunPersist job prevState prevStatus e
    | .ok ()   => runAndExecute job prevState prevStatus

/-- `Worker.run_once`: wait for a job and process it; no job when the channel is stopped and drained. -/
def runOnce (job : Ident) : JobProg (Option Nat) := do
  match ← do_ .receive with
  | none   => return none
  | some r => do
    process job
    return some r

end Worker
end Pypepper
