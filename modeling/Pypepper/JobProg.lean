import Pypepper.Job
import Pypepper.ProgPar
/-!
# JobProg — a job's methods as programs of atomic actions

`scheduler/job.py`.  The actions are the points where threads sharing a job interleave: one event or restore of the
state machine, one check of it, reading the status and the version into a record, one store call, one store read with
the version refresh, one send.  `exec` performs an action on the job, its channel and the store under the environment's
choice: the clock, a fault of the store call, a channel filled or stopped by others, how a workflow's run ends.

`save`, `cancel` and `dispatch` follow the source statement by statement; log calls are left out.  The configuration
guard at the head of `save` and `get_saved` raises before any effect, which a raising store call covers.
-/
namespace Pypepper

open Conc (Prog)

/-- What a job program runs on: the job object, the channel it is queued on, the store, and whether its thread is inside
a running event loop. -/
structure Ctx where
  job         : Job
  chan        : Channel
  store       : InMemoryJobStore
  loopRunning : Bool := false

inductive Fault where
  | none | refuses | raises
  deriving DecidableEq, Repr

/-- The environment's choice at one action. -/
structure Choice where
  now     : String := ""
  fault   : Fault := .none
  race    : Option SendResult := none
  outcome : Except Exn Unit := .ok ()

inductive Act where
  | isCancelled
  | currentStatus
  | fsmCurrent
  | status
  | applyEvent (e : Event)
  | restore (s : Status)
  | restoreLifecycle (state : Option Status) (status : String)
  | shareCancelEvent
  | setCancelEvent
  | buildRecord
  | put (record : JobRecord)
  | refresh (updated : String)
  | getSaved
  | workflows
  | startWorkflow (i : Nat)
  | endWorkflow (i : Nat)
  | runningLoop
  | available
  | send
  | receive
  | fromRecord (workflows : List Workflow)

@[reducible] def Act.Res : Act → Type
  | .isCancelled          => Bool
  | .currentStatus        => String
  | .fsmCurrent           => Option Status
  | .status               => String
  | .applyEvent _         => Except Exn Unit
  | .restore _            => Unit
  | .restoreLifecycle _ _ => Unit
  | .shareCancelEvent     => Unit
  | .setCancelEvent       => Unit
  | .buildRecord          => JobRecord
  | .put _                => Except Exn Bool
  | .refresh _            => Except Exn Unit
  | .getSaved             => Except Exn (Option JobRecord)
  | .workflows            => List Workflow
  | .startWorkflow _      => Unit
  | .endWorkflow _        => Except Exn Unit
  | .runningLoop          => Bool
  | .available            => Except Exn Unit
  | .send                 => SendResult
  | .receive              => Option Nat
  | .fromRecord _         => Option JobRecord

/-- The record of a put. -/
def Act.record : Act → Option JobRecord
  | .put record => some record
  | _           => none

/-- The record of an applied put. -/
def Act.applied : (a : Act) → a.Res → Option JobRecord
  | .put record, .ok true => some record
  | _,           _        => none

theorem Act.applied_eq_none {a : Act} (h : ∀ rec, a ≠ .put rec) (r : a.Res) : a.applied r = none := by
  cases a with
  | put rec => exact absurd rfl (h rec)
  | _ => rfl

/-- The event a successful transition applied. -/
def Act.event : (a : Act) → a.Res → Option Event
  | .applyEvent e, .ok () => some e
  | _,             _      => none

/-- The workflow an action starts. -/
def Act.start : Act → Option Nat
  | .startWorkflow i => some i
  | _                => none

/-- The workflow an action ends. -/
def Act.ended : Act → Option Nat
  | .endWorkflow i => some i
  | _              => none

/-- The exception an action answers with. -/
def Act.error : (a : Act) → a.Res → Option Exn
  | .applyEvent _,  .error e => some e
  | .put _,         .error e => some e
  | .refresh _,     .error e => some e
  | .getSaved,      .error e => some e
  | .endWorkflow _, .error e => some e
  | .available,     .error e => some e
  | _,              _        => none

/-- An awaited workflow ended by what `except Exception` does not catch, or never ends. -/
def Act.abrupt : (a : Act) → a.Res → Bool
  | .endWorkflow _, .error e => !e.isException
  | _,              _        => false

theorem Act.abrupt_of_ended {a : Act} (h : a.ended = none) (r : a.Res) : a.abrupt r = false := by
  cases a with
  | endWorkflow i => cases h
  | _ => rfl

/-- The job was put on its channel. -/
def Act.sent : (a : Act) → a.Res → Bool
  | .send, .ok => true
  | _,     _   => false

/-- The record a job was rebuilt from. -/
def Act.rebuilt : (a : Act) → a.Res → Option JobRecord
  | .fromRecord _, r => r
  | _,             _ => none

def Act.isRefresh : Act → Bool
  | .refresh _ => true
  | _          => false

/-- The actions that may move the job's machine. -/
def Act.movesFsm : Act → Bool
  | .applyEvent _ | .restore _ | .restoreLifecycle _ _ | .fromRecord _ => true
  | _                                                                  => false

/-- The actions that move neither the machine nor the store nor the channel, and start nothing. -/
def Act.passive : Act → Bool
  | .applyEvent _ | .restore _ | .restoreLifecycle _ _ | .put _ | .startWorkflow _ | .send | .receive
  | .fromRecord _ => false
  | _             => true

theorem Act.passive_record {a : Act} (h : a.passive = true) : a.record = none := by
  cases a with
  | put rec => cases h
  | _ => rfl

theorem Act.passive_start {a : Act} (h : a.passive = true) : a.start = none := by
  cases a with
  | startWorkflow i => cases h
  | _ => rfl

namespace Ctx

def row (x : Ctx) : Option JobRecord := x.store.get x.job.id

/-- One store put under a fault: it applies or refuses by the fence, is refused for another reason, or raises without
effect. -/
def put (x : Ctx) (record : JobRecord) : Fault → Except Exn Bool × Ctx
  | .none    => (.ok (x.store.put record).1, { x with store := (x.store.put record).2 })
  | .refuses => (.ok false, x)
  | .raises  => (.error (.store "put"), x)

def get (x : Ctx) : Fault → Except Exn (Option JobRecord)
  | .raises => .error (.store "get")
  | _       => .ok x.row

/-- The read after an applied put: the job takes the durable version and the new `updated`. -/
def refresh (x : Ctx) (updated : String) (f : Fault) : Except Exn Unit × Ctx :=
  match x.get f with
  | .error e   => (.error e, x)
  | .ok none   => (.ok (), { x with job := { x.job with updated := updated } })
  | .ok (some d) => (.ok (), { x with job := { x.job with version := d.version, updated := updated } })

/-- A send, after what others did to the channel: filled it, or stopped it. -/
def send (x : Ctx) : Option SendResult → SendResult × Ctx
  | some .full    => (.full, x)
  | some .stopped => (.stopped, { x with chan := { x.chan with stop := true } })
  | _             => ((x.chan.send x.job.ref).1, { x with chan := (x.chan.send x.job.ref).2 })

/-- `Job.from_record` of the row, when there is one. -/
def fromRecord (x : Ctx) (workflows : List Workflow) : Option JobRecord × Ctx :=
  match x.row with
  | none   => (none, x)
  | some r => (some r, { x with job := Job.ofRecord x.job.ref r workflows })

/-- **What one action does**, under the environment's choice. -/
def exec (c : Choice) : (a : Act) → Ctx → a.Res × Ctx
  | .isCancelled,          x => (x.job.isCancelled, x)
  | .currentStatus,        x => (x.job.currentStatus, x)
  | .fsmCurrent,           x => (x.job.fsm, x)
  | .status,               x => (x.job.status, x)
  | .applyEvent e,         x => ((x.job.applyEvent e).1, { x with job := (x.job.applyEvent e).2 })
  | .restore s,            x => ((), { x with job := { x.job with fsm := some s, status := s.value } })
  | .restoreLifecycle s t, x => ((), { x with job := { x.job with fsm := s, status := t } })
  | .shareCancelEvent,     x => ((), { x with job := x.job.shareCancelEvent })
  | .setCancelEvent,       x => ((), { x with job := { x.job with cancelEvent := true } })
  | .buildRecord,          x => (x.job.record c.now, x)
  | .put record,           x => x.put record c.fault
  | .refresh updated,      x => x.refresh updated c.fault
  | .getSaved,             x => (x.get c.fault, x)
  | .workflows,            x => (x.job.workflows, x)
  | .startWorkflow _,      x => ((), x)
  | .endWorkflow _,        x => (toThread c.outcome, x)
  | .runningLoop,          x => (x.loopRunning, x)
  | .available,            x => (if x.job.channelId = "" then .error (.value "invalid key") else .ok (), x)
  | .send,                 x => x.send c.race
  | .receive,              x => (x.chan.queue.head?, { x with chan := { x.chan with queue := x.chan.queue.tail } })
  | .fromRecord ws,        x => x.fromRecord ws

theorem exec_put_healthy (c : Choice) (rec : JobRecord) (x : Ctx) (hc : c.fault = .none) :
    exec c (.put rec) x = (.ok (x.store.put rec).1, { x with store := (x.store.put rec).2 }) := by
  simp only [exec, put, hc]

theorem exec_put_raises (c : Choice) (rec : JobRecord) (x : Ctx) (hc : c.fault = .raises) :
    exec c (.put rec) x = (.error (.store "put"), x) := by
  simp only [exec, put, hc]

theorem exec_getSaved_healthy (c : Choice) (x : Ctx) (hc : c.fault = .none) : exec c .getSaved x = (.ok x.row, x) := by
  simp only [exec, get, hc]

/-- **Everything a put of the job's own record can do**: it is applied, and the row is the record, with the next version
when it replaces a row, or it is refused and nothing moves. -/
theorem exec_put_own (c : Choice) {rec : JobRecord} {x : Ctx} (hc : c.fault = .none) (hid : rec.id = x.job.id) :
    (∃ st d, exec c (.put rec) x = (.ok true, { x with store := st }) ∧ st.get x.job.id = some d ∧
      d.status = rec.status ∧ ((x.row = none ∧ d = rec) ∨
        ∃ d₀, x.row = some d₀ ∧ InMemoryJobStore.MayWrite d₀ rec ∧ d = InMemoryJobStore.updated d₀ rec)) ∨
    (∃ d₀, x.row = some d₀ ∧ ¬ InMemoryJobStore.MayWrite d₀ rec ∧ exec c (.put rec) x = (.ok false, x)) := by
  rw [exec_put_healthy c rec x hc, row, ← hid]
  obtain ⟨hn, hp⟩ | ⟨d₀, hd, hw, hp⟩ | ⟨d₀, hd, hw, hp⟩ := InMemoryJobStore.put_cases x.store rec
  · rw [hp]
    exact .inl ⟨_, rec, rfl, InMemoryJobStore.get_setRow_self _ rec, rfl, .inl ⟨hn, rfl⟩⟩
  · rw [hp]
    exact .inl ⟨_, _, rfl, InMemoryJobStore.get_setRow_self _ (InMemoryJobStore.updated d₀ rec), rfl,
      .inr ⟨d₀, hd, hw, rfl⟩⟩
  · rw [hp]
    exact .inr ⟨d₀, hd, hw, rfl⟩

theorem exec_refresh_some (c : Choice) (u : String) (x : Ctx) {d : JobRecord} (hc : c.fault ≠ .raises)
    (h : x.row = some d) :
    exec c (.refresh u) x = (.ok (), { x with job := { x.job with version := d.version, updated := u } }) := by
  have hg : x.get c.fault = .ok (some d) := by rw [← h]; unfold get; split <;> [contradiction; rfl]
  simp only [exec, refresh, hg]

theorem exec_refresh_raises (c : Choice) (u : String) (x : Ctx) (hc : c.fault = .raises) :
    exec c (.refresh u) x = (.error (.store "get"), x) := by
  simp only [exec, refresh, get, hc]

/-- A refresh that raises was a read that raised. -/
theorem exec_refresh_error (c : Choice) (u : String) (x : Ctx) {e : Exn} (h : (exec c (.refresh u) x).1 = .error e) :
    exec c (.refresh u) x = (.error (.store "get"), x) := by
  by_cases hc : c.fault = .raises
  · exact exec_refresh_raises c u x hc
  · cases hrow : x.row with
    | some d =>
      rw [exec_refresh_some c u x hc hrow] at h
      cases h
    | none =>
      have hg : x.get c.fault = .ok none := by rw [← hrow]; unfold get; split <;> [contradiction; rfl]
      simp only [exec, refresh, hg] at h
      cases h

/-! What an action leaves alone: only a put writes the store, only events and restores move the machine, only a refresh
moves the version (`from_record` makes a new job). -/

theorem exec_store (c : Choice) (a : Act) (x : Ctx) (h : ∀ rec, a ≠ .put rec) : (exec c a x).2.store = x.store := by
  cases a with
  | put rec => exact absurd rfl (h rec)
  | refresh u => simp only [exec, refresh]; split <;> rfl
  | send => simp only [exec, send]; split <;> rfl
  | fromRecord ws => simp only [exec, fromRecord]; split <;> rfl
  | _ => rfl

theorem put_job (x : Ctx) (rec : JobRecord) (f : Fault) : (x.put rec f).2.job = x.job := by cases f <;> rfl

/-- What every action keeps, a rebuilding of the job apart. -/
structure Frame (x x' : Ctx) : Prop where
  ref       : x'.job.ref = x.job.ref
  id        : x'.job.id = x.job.id
  channelId : x'.job.channelId = x.job.channelId
  workflows : x'.job.workflows.length = x.job.workflows.length
  sync      : x'.loopRunning = x.loopRunning

theorem exec_frame (c : Choice) (a : Act) (x : Ctx) (hf : ∀ ws, a ≠ .fromRecord ws) : Frame x (exec c a x).2 := by
  cases a with
  | put rec => simp only [exec, put]; split <;> exact ⟨rfl, rfl, rfl, rfl, rfl⟩
  | applyEvent e =>
    simp only [exec, Job.applyEvent]
    split
    · exact ⟨rfl, rfl, rfl, rfl, rfl⟩
    · split <;> exact ⟨rfl, rfl, rfl, rfl, rfl⟩
  | refresh u => simp only [exec, refresh]; split <;> exact ⟨rfl, rfl, rfl, rfl, rfl⟩
  | send => simp only [exec, send]; split <;> exact ⟨rfl, rfl, rfl, rfl, rfl⟩
  | shareCancelEvent => exact ⟨rfl, rfl, rfl, by simp [exec, Job.shareCancelEvent], rfl⟩
  | fromRecord ws => exact absurd rfl (hf ws)
  | _ => exact ⟨rfl, rfl, rfl, rfl, rfl⟩

/-- A row only moves up, whatever a thread does. -/
theorem exec_row_up (c : Choice) (a : Act) (x : Ctx) (hf : ∀ ws, a ≠ .fromRecord ws) {d : JobRecord}
    (hd : x.row = some d) : ∃ d', (exec c a x).2.row = some d' ∧ StatusLe d.status d'.status := by
  by_cases hp : ∃ rec, a = .put rec
  · obtain ⟨rec, rfl⟩ := hp
    simp only [exec, put]
    cases c.fault with
    | none => exact InMemoryJobStore.get_put_up x.store rec hd
    | refuses => exact ⟨d, hd, .refl _⟩
    | raises => exact ⟨d, hd, .refl _⟩
  · refine ⟨d, ?_, .refl _⟩
    rw [row, exec_store c a x (fun rec h => hp ⟨rec, h⟩), (exec_frame c a x hf).id]
    exact hd

theorem exec_chan (c : Choice) (a : Act) (x : Ctx) (hs : a ≠ .send) (hr : a ≠ .receive) :
    (exec c a x).2.chan = x.chan := by
  cases a with
  | put rec => simp only [exec, put]; split <;> rfl
  | refresh u => simp only [exec, refresh]; split <;> rfl
  | send => exact absurd rfl hs
  | receive => exact absurd rfl hr
  | fromRecord ws => simp only [exec, fromRecord]; split <;> rfl
  | _ => rfl

theorem exec_fsm (c : Choice) (a : Act) (x : Ctx) (h : a.movesFsm = false) : (exec c a x).2.job.fsm = x.job.fsm := by
  cases a with
  | applyEvent e => cases h
  | restore s => cases h
  | restoreLifecycle s t => cases h
  | fromRecord ws => cases h
  | put rec => exact congrArg Job.fsm (put_job x rec c.fault)
  | refresh u => simp only [exec, refresh]; split <;> rfl
  | send => simp only [exec, send]; split <;> rfl
  | _ => rfl

/-- A send puts the job on its channel, or leaves the queue as it is. -/
theorem exec_send (c : Choice) (x : Ctx) : (exec c .send x).2.job = x.job ∧
    (((exec c .send x).1 = .ok ∧ (exec c .send x).2.chan.queue = x.chan.queue ++ [x.job.ref]) ∨
      ((exec c .send x).1 ≠ .ok ∧ (exec c .send x).2.chan.queue = x.chan.queue)) := by
  simp only [exec, send]
  split
  · exact ⟨rfl, .inr ⟨by simp, rfl⟩⟩
  · exact ⟨rfl, .inr ⟨by simp, rfl⟩⟩
  · refine ⟨rfl, ?_⟩
    simp only [Channel.send]
    split
    · exact .inr ⟨by simp, rfl⟩
    · split
      · exact .inr ⟨by simp, rfl⟩
      · exact .inl ⟨rfl, rfl⟩

/-- A stopped channel refuses every send. -/
theorem exec_send_stopped (c : Choice) (x : Ctx) (hr : c.race = none) (hs : x.chan.stop = true) :
    exec c .send x = (.stopped, x) := by
  simp only [exec, send, hr, Channel.send, hs, if_true]

/-- What a passive action keeps. -/
structure Same (x x' : Ctx) : Prop where
  frame : Frame x x'
  fsm   : x'.job.fsm = x.job.fsm
  chan  : x'.chan = x.chan
  store : x'.store = x.store

theorem exec_passive (c : Choice) {a : Act} (x : Ctx) (h : a.passive = true) : Same x (exec c a x).2 := by
  have hq : a.movesFsm = false := by cases a <;> first | rfl | cases h
  have hf : ∀ ws, a ≠ .fromRecord ws := by rintro ws rfl; cases h
  have hp : ∀ rec, a ≠ .put rec := by rintro rec rfl; cases h
  exact ⟨exec_frame c a x hf, exec_fsm c a x hq,
    exec_chan c a x (by rintro rfl; cases h) (by rintro rfl; cases h), exec_store c a x hp⟩

theorem Same.row {x x' : Ctx} (h : Same x x') : x'.row = x.row := by
  rw [Ctx.row, h.frame.id, h.store]
  rfl

/-- An event applies exactly where the machine has a target. -/
theorem exec_applyEvent (c : Choice) (e : Event) (x : Ctx) :
    (∃ s t, x.job.fsm = some s ∧ Fsm.target e s = some t ∧
      exec c (.applyEvent e) x = (.ok (), { x with job := { x.job with fsm := some t, status := t.value } })) ∨
    ((∀ s, x.job.fsm = some s → Fsm.target e s = none) ∧
      exec c (.applyEvent e) x = (.error (.internal errorInvalidEvent), x)) := by
  simp only [exec, Job.applyEvent]
  cases hs : x.job.fsm with
  | none => exact .inr ⟨by simp, rfl⟩
  | some s =>
    cases ht : Fsm.target e s with
    | none => exact .inr ⟨by simp [ht], by simp [ht]⟩
    | some t => exact .inl ⟨s, t, rfl, ht, by simp [ht]⟩

theorem exec_applyEvent_some (c : Choice) {e : Event} {x : Ctx} {s t : Status} (hs : x.job.fsm = some s)
    (ht : Fsm.target e s = some t) :
    exec c (.applyEvent e) x = (.ok (), { x with job := { x.job with fsm := some t, status := t.value } }) := by
  obtain ⟨s', t', hs', ht', h⟩ | ⟨hn, -⟩ := exec_applyEvent c e x
  · obtain rfl := Option.some.inj (hs.symm.trans hs')
    obtain rfl := Option.some.inj (ht.symm.trans ht')
    exact h
  · rw [hn s hs] at ht
    cases ht

theorem exec_applyEvent_none (c : Choice) {e : Event} {x : Ctx} {s : Status} (hs : x.job.fsm = some s)
    (ht : Fsm.target e s = none) : exec c (.applyEvent e) x = (.error (.internal errorInvalidEvent), x) := by
  obtain ⟨s', t, hs', ht', -⟩ | ⟨-, h⟩ := exec_applyEvent c e x
  · obtain rfl := Option.some.inj (hs.symm.trans hs')
    rw [ht] at ht'
    cases ht'
  · exact h

theorem exec_applyEvent_terminal (c : Choice) (e : Event) (x : Ctx) {s : Status} (hs : x.job.fsm = some s)
    (ht : s.terminal = true) : exec c (.applyEvent e) x = (.error (.internal errorInvalidEvent), x) :=
  exec_applyEvent_none c hs (Fsm.target_terminal e s ht)

/-- **What an action raises**: an invalid event, a store call's or a missing channel's error, or what becomes of a workflow's
own. -/
theorem exec_error (c : Choice) (a : Act) (x : Ctx) (e : Exn) (h : e ∈ a.error (exec c a x).1) :
    (∃ m, e = .internal m) ∨ (∃ m, e = .store m) ∨ (∃ m, e = .value m) ∨
      ((∃ i, a = .endWorkflow i) ∧ toThread c.outcome = .error e) := by
  cases a with
  | applyEvent ev =>
    obtain ⟨_, _, _, _, hx⟩ | ⟨_, hx⟩ := exec_applyEvent c ev x
    · rw [hx] at h
      cases h
    · rw [hx] at h
      exact .inl ⟨_, (Option.some.inj h).symm⟩
  | put rec =>
    simp only [exec, put] at h
    cases hf : c.fault <;> rw [hf] at h <;> cases h
    exact .inr (.inl ⟨_, rfl⟩)
  | refresh u =>
    simp only [exec, refresh, get] at h
    cases hf : c.fault <;> rw [hf] at h <;> cases hr : x.row <;> simp only [hr] at h <;> cases h
    · exact .inr (.inl ⟨_, rfl⟩)
    · exact .inr (.inl ⟨_, rfl⟩)
  | getSaved =>
    simp only [exec, get] at h
    cases hf : c.fault <;> rw [hf] at h <;> cases h
    exact .inr (.inl ⟨_, rfl⟩)
  | endWorkflow i =>
    simp only [exec] at h
    cases ho : toThread c.outcome with
    | ok u => rw [ho] at h; cases h
    | error e' =>
      rw [ho] at h
      exact .inr (.inr (.inr ⟨⟨i, rfl⟩, by rw [Option.some.inj h]⟩))
  | available =>
    simp only [exec] at h
    split at h
    · exact .inr (.inr (.inl ⟨_, (Option.some.inj h).symm⟩))
    · cases h
  | _ => cases h

/-- But for an abrupt end of a workflow, an action raises what `except Exception` catches. -/
theorem exec_isException (c : Choice) (a : Act) (x : Ctx) (e : Exn) (h : e ∈ a.error (exec c a x).1)
    (ha : a.abrupt (exec c a x).1 = false) : e.isException = true := by
  rcases exec_error c a x e h with ⟨m, rfl⟩ | ⟨m, rfl⟩ | ⟨m, rfl⟩ | ⟨⟨i, rfl⟩, ho⟩
  · rfl
  · rfl
  · rfl
  · simpa [exec, Act.abrupt, ho] using ha

theorem applyEvent_version (j : Job) (e : Event) : (j.applyEvent e).2.version = j.version := by
  unfold Job.applyEvent
  split
  · rfl
  · split <;> rfl

theorem exec_version (c : Choice) (a : Act) (x : Ctx) (hr : ∀ u, a ≠ .refresh u) (hf : ∀ ws, a ≠ .fromRecord ws) :
    (exec c a x).2.job.version = x.job.version := by
  cases a with
  | put rec => exact congrArg Job.version (put_job x rec c.fault)
  | applyEvent e => exact applyEvent_version x.job e
  | refresh u => exact absurd rfl (hr u)
  | fromRecord ws => exact absurd rfl (hf ws)
  | send => simp only [exec, send]; split <;> rfl
  | _ => rfl

/-- A receive waits while the queue is empty and the channel runs. -/
def blocked (x : Ctx) : Act → Bool
  | .receive => x.chan.queue.isEmpty && !x.chan.stop
  | _        => false

def step (x : Ctx) (c : Choice) (a : Act) : Option (a.Res × Ctx) :=
  if x.blocked a then none else some (exec c a x)

theorem step_eq_some {c : Choice} {a : Act} {x : Ctx} {p : a.Res × Ctx} (h : x.step c a = some p) :
    x.blocked a = false ∧ exec c a x = p := by
  unfold step at h
  split at h
  · cases h
  · rename_i hb
    exact ⟨by simpa using hb, Option.some.inj h⟩

end Ctx

abbrev JobProg (α : Type) := Prog Act Act.Res Exn α

/-- What a job's messages name it by. -/
structure Ident where
  ref       : Nat
  id        : String
  channelId : String

def Job.ident (j : Job) : Ident := ⟨j.ref, j.id, j.channelId⟩

namespace Job

def do_ (a : Act) : JobProg a.Res := Prog.call a

def applyEventP (e : Event) : JobProg Unit := (do_ (.applyEvent e)).bind Prog.ofExcept

def putP (record : JobRecord) : JobProg Bool := (do_ (.put record)).bind Prog.ofExcept

def refreshP (updated : String) : JobProg Unit := (do_ (.refresh updated)).bind Prog.ofExcept

def getSaved : JobProg (Option JobRecord) := (do_ .getSaved).bind Prog.ofExcept

/-- `Job.save`: build the record, put it, and on an applied put read the version back.  A refused put is `false`. -/
def save : JobProg Bool := do
  let record ← do_ .buildRecord
  let applied ← putP record
  if applied then do
    refreshP record.updated
    return true
  else return false

/-- `Job.cancel`. -/
def cancel : JobProg Unit := do
  do_ .shareCancelEvent
  do_ .setCancelEvent
  applyEventP .cancel
  let _ ← save
  return ()

/-! ## Dispatch -/

/-- `Processor.run` and `async_run`: the send, its rejections raised. -/
def enqueue (job : Ident) : JobProg Unit := do
  if ← do_ .runningLoop then
    Prog.raise (.runtime ("Processor.run / Job.scheduled() must be called from a sync context " ++
      "(no running event loop); from async code apply INIT→SCHEDULE, " ++
      "await Channel.send(job) (returns ok/full/stopped), then job.save(), and consume with Worker"))
  else
    match ← do_ .send with
    | .stopped => Prog.raise (.channelStopped ("channel stopped: channel_id=" ++ job.channelId ++ ", job_id=" ++ job.id))
    | .full    => Prog.raise (.channelFull ("channel full: channel_id=" ++ job.channelId ++ ", job_id=" ++ job.id))
    | .ok      => return ()

/-- The saves after a successful send: at most `n` more, until one applies; the last raised exception is kept. -/
def saveScheduled (job : Ident) : Nat → Option Exn → JobProg Unit
  | 0,     some e => Prog.raise e
  | 0,     none   => Prog.raise (.runtime
      ("Job Scheduled persist skipped after enqueue: id=" ++ job.id ++ ", channel_id=" ++ job.channelId))
  | n + 1, last   => do
    match ← save.attempt with
    | .ok true  => return ()
    | .ok false => saveScheduled job n last
    | .error e  => saveScheduled job n (some e)

def dispatchSaveAttempts : Nat := 3

/-- `Dispatcher.dispatch`, which `Job.scheduled` calls: before the job is on its channel a failure restores the
lifecycle; after it, a failure is raised as it is. -/
def dispatch (job : Ident) : JobProg Unit := do
  let prevState ← do_ .fsmCurrent
  let prevStatus ← do_ .status
  match ← (do applyEventP .init; applyEventP .schedule : JobProg Unit).attempt with
  | .error e => do
    do_ (.restoreLifecycle prevState prevStatus)
    Prog.raise e
  | .ok () =>
    match ← (do (do_ .available).bind Prog.ofExcept; enqueue job : JobProg Unit).attempt with
    | .error e => do
      do_ (.restoreLifecycle prevState prevStatus)
      Prog.raise e
    | .ok () => saveScheduled job dispatchSaveAttempts none

end Job
end Pypepper
