import Pypepper.Store
/-!
# Job — tasks, workflows, jobs, channels and exceptions

The data of `scheduler/task.py`, `workflow.py`, `job.py` and `channel.py`.  A job is an object: `ref` is its identity,
which a channel queues and which two jobs of one `id` do not share.  Its machine's current state is `fsm`, absent only
after a close.  The cancel event is one object, shared by the job's context and its tasks': `cancelEvent` is whether it
is set, `cancelToken` whether a task's context holds it.
-/
namespace Pypepper

structure Tag where
  key   : Py.Str := ""
  value : Py.Str := ""

structure Task where
  id                  : Py.Str
  channelId           : Py.Str
  dagId               : Py.Str
  fingerprint         : Py.Str
  name                : Py.Str
  category            : Py.Str
  description         : Py.Str
  tags                : List Tag
  executor            : Option Nat
  executorId          : Option Py.Str := none
  roundTimeout        : Int := 0
  roundTimeoutJoin    : Int := 0
  roundTimes          : Int := 1
  version             : Int := 1
  retryCount          : Int := 0
  retryDelay          : Int := 0
  retryUntilCompleted : Bool := false
  retryUntilMax       : Int := 1000
  optional            : Bool := false
  cancelToken         : Bool := false

structure Workflow where
  tasks : List Task

structure Job where
  ref         : Nat
  id          : String
  category    : Option String := none
  channelId   : String := "default"
  workflows   : List Workflow := []
  fsm         : Option Status := some .unknown
  status      : String := Status.unknown.value
  created     : String := ""
  updated     : String := ""
  version     : Int := 1
  cancelEvent : Bool := false

/-! ## The stored snapshot -/

/-- One task of the payload; a task without an executor id has none. -/
def Task.payload (t : Task) : Option (Py.Json Py.Str) :=
  match t.executorId with
  | none    => none
  | some [] => none
  | some e  => some (.obj
      [ ("id", .str t.id), ("channel_id", .str t.channelId), ("dag_id", .str t.dagId),
        ("fingerprint", .str t.fingerprint), ("name", .str t.name), ("category", .str t.category),
        ("description", .str t.description),
        ("tags", .arr (t.tags.map (fun g => .obj [("key", .str g.key), ("value", .str g.value)]))),
        ("executor_id", .str e), ("round_timeout", .int t.roundTimeout),
        ("round_timeout_join", .int t.roundTimeoutJoin), ("round_times", .int t.roundTimes),
        ("version", .int t.version), ("retry_count", .int t.retryCount), ("retry_delay", .int t.retryDelay),
        ("retry_until_completed", .bool t.retryUntilCompleted), ("retry_until_max", .int t.retryUntilMax),
        ("optional", .bool t.optional) ])

def Workflow.payload (w : Workflow) : Option (Py.Json Py.Str) :=
  (w.tasks.mapM Task.payload).map (fun ts => .obj [("tasks", .arr ts)])

namespace Job

/-- `_workflows_payload`: absent when there are no workflows or some task has no executor id. -/
def workflowsPayload (j : Job) : Option (Py.Json Py.Str) :=
  match j.workflows with
  | [] => none
  | ws => (ws.mapM Workflow.payload).map (fun out => .obj [("workflows", .arr out)])

def currentStatus (j : Job) : String :=
  match j.fsm with
  | none   => Status.unknown.value
  | some s => s.value

def isCancelled (j : Job) : Bool := decide (j.currentStatus = Status.cancelled.value)

theorem currentStatus_of_fsm {j : Job} {s : Status} (h : j.fsm = some s) : j.currentStatus = s.value := by
  unfold currentStatus
  rw [h]

theorem currentStatus_eq_value (j : Job) {s : Status} (hs : s ≠ .unknown) : j.currentStatus = s.value ↔ j.fsm = some s := by
  unfold currentStatus
  cases hj : j.fsm with
  | none => simp [Ne.symm hs]
  | some t => simp

theorem isCancelled_iff (j : Job) : j.isCancelled = true ↔ j.fsm = some .cancelled := by
  simp [isCancelled, currentStatus_eq_value]

/-- The record `save` writes at the time `now`. -/
def record (j : Job) (now : String) : JobRecord :=
  { id := j.id, category := j.category, channelId := j.channelId, status := j.currentStatus, created := j.created,
    updated := now, workflowCount := j.workflows.length, version := j.version, payload := j.workflowsPayload }

def toRecord (j : Job) : JobRecord := j.record j.updated

/-- The fields `from_record` copies onto a new job; `workflows` are those rebuilt from the payload. -/
def ofRecord (ref : Nat) (r : JobRecord) (workflows : List Workflow) : Job :=
  { ref := ref, id := r.id, category := r.category, channelId := r.channelId, workflows := workflows,
    created := r.created, updated := r.updated, version := r.version }

def shareCancelEvent (j : Job) : Job :=
  { j with workflows := j.workflows.map (fun w => ⟨w.tasks.map (fun t => { t with cancelToken := true })⟩) }

end Job

/-! ## Exceptions -/

/-- The exceptions the scheduler raises or passes on: its own, a store call's and a workflow's, among these the
`CancelledError` of `concurrent.futures` and `StopIteration`.  The `CancelledError` of asyncio is no `Exception`.  A program
that raises `hung` has come to an await that never ends. -/
inductive Exn where
  | internal (msg : String)
  | runtime (msg : String)
  | value (msg : String)
  | channelFull (msg : String)
  | channelStopped (msg : String)
  | requeued (msg : String)
  | redelivery (msg reason : String) (job : Nat)
  | store (msg : String)
  | workflow (msg : String)
  | futuresCancelled
  | stopIteration
  | cancelled
  | hung
  deriving DecidableEq

/-- What `except Exception` catches. -/
def Exn.isException : Exn → Bool
  | .cancelled | .hung => false
  | _                  => true

/-- How the await of `asyncio.to_thread` ends.  asyncio turns the `CancelledError` of `concurrent.futures` into its own, and
a future that is given a `StopIteration` is never done. -/
def toThread {α : Type} : Except Exn α → Except Exn α
  | .error .futuresCancelled => .error .cancelled
  | .error .stopIteration    => .error .hung
  | r                        => r

@[simp] theorem toThread_ok {α : Type} (a : α) : toThread (.ok a) = .ok a := rfl

theorem toThread_eq_ok {α : Type} {r : Except Exn α} {a : α} : toThread r = .ok a ↔ r = .ok a := by
  unfold toThread
  split <;> simp

/-- What the await raises is the workflow's own, or one of the two that asyncio makes of it. -/
theorem toThread_eq_error {α : Type} {r : Except Exn α} {e : Exn} (h : toThread r = .error e) :
    e = .cancelled ∨ e = .hung ∨ r = .error e := by
  unfold toThread at h
  split at h
  · exact .inl (Except.error.inj h).symm
  · exact .inr (.inl (Except.error.inj h).symm)
  · exact .inr (.inr h)

def errorInvalidEvent : String := "invalid event"

namespace Job

/-- `apply_event`: the machine moves and the status follows, or the transition's error is raised and nothing moves. -/
def applyEvent (j : Job) (e : Event) : Except Exn Unit × Job :=
  match j.fsm with
  | none   => (.error (.internal errorInvalidEvent), j)
  | some s =>
    match Fsm.target e s with
    | none   => (.error (.internal errorInvalidEvent), j)
    | some t => (.ok (), { j with fsm := some t, status := t.value })

end Job

/-! ## Channels -/

inductive SendResult where
  | ok | full | stopped
  deriving DecidableEq, Repr

/-- A channel: its queued jobs, its capacity (`0` is unbounded) and its stop flag. -/
structure Channel where
  queue   : List Nat
  maxsize : Nat := 0
  stop    : Bool := false

namespace Channel

def full (ch : Channel) : Bool := decide (0 < ch.maxsize) && decide (ch.maxsize ≤ ch.queue.length)

def send (ch : Channel) (job : Nat) : SendResult × Channel :=
  if ch.stop then (.stopped, ch)
  else if ch.full then (.full, ch)
  else (.ok, { ch with queue := ch.queue ++ [job] })

theorem send_empty (ch : Channel) (job : Nat) (hq : ch.queue = []) (hs : ch.stop = false) :
    ch.send job = (.ok, { ch with queue := [job] }) := by
  have hfull : ch.full = false := by
    simp only [full, hq, List.length_nil, Bool.and_eq_false_iff, decide_eq_false_iff_not]
    omega
  simp [send, hs, hfull, hq]

end Channel
end Pypepper
