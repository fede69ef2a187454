import Mathlib.Logic.Function.Basic
import Pypepper.Solo
/-!
# Drain — `Worker.run_forever` on a stopped channel

A worker takes jobs off its channel and processes them until the channel is stopped and empty.  A stopped channel refuses
every send, so no job comes back: the loop takes each queued job once, in order, whatever the store does, and ends by
returning or by raising the first `JobRedeliveryError`.  Only a workflow whose await ends in what is no `Exception`, or
never, stops it before (`run_forever_drains_iff`).
-/
namespace Pypepper

open Conc (Prog Proto Ev)

/-- What a worker runs on: the job objects, its channel and the store. -/
structure WorkerState where
  jobs    : Nat → Job
  channel : Channel
  store   : InMemoryJobStore

/-- The environment of an action that finds the channel as the worker left it. -/
def Turn.ownChannel (t : Turn) : Turn := { t with choice := { t.choice with race := none } }

def drainExec (t : Turn) (a : Act) (s : SoloState) : a.Res × SoloState := turnExec t.ownChannel a s

namespace WorkerState

def view (w : WorkerState) (r : Nat) : Ctx :=
  { job := { w.jobs r with ref := r }, chan := w.channel, store := w.store, loopRunning := true }

def put (w : WorkerState) (r : Nat) (x : Ctx) : WorkerState := ⟨Function.update w.jobs r x.job, x.chan, x.store⟩

/-- `Channel.receive`: no answer while the channel runs and is empty, no job once it is stopped and drained. -/
def receive (w : WorkerState) : Option (Option Nat × WorkerState) :=
  match w.channel.queue with
  | r :: q => some (some r, { w with channel := { w.channel with queue := q } })
  | []     => if w.channel.stop then some (none, w) else none

/-- One round of the loop: the job it took, how `_process` ended, and the actions that performed. -/
structure Round where
  job    : Nat
  result : Except Exn Unit
  log    : List (JobEv Unit)

/-- `_process` of one job. -/
def process (w : WorkerState) (turns : Nat → Turn) (r : Nat) : Round × WorkerState :=
  let run := (Worker.process (w.view r).job.ident).run drainExec turns (w.view r, [])
  (⟨r, run.1, run.2.2⟩, w.put r run.2.1)

/-- `Worker.run_forever`, for at most `fuel` rounds: how it ends, what it leaves, and the rounds it made.  `stopped` is the
first redelivery error of the drain.  What is no `Exception` passes through every handler of the loop; with `hung` the loop
is left in an await that never ends. -/
def runForever (turns : Nat → Nat → Turn) : Nat → Option Exn → WorkerState → List Round →
    Option (Except Exn Unit × WorkerState × List Round)
  | 0,        _,       _, _    => none
  | fuel + 1, stopped, w, done =>
    match w.receive with
    | none             => none
    | some (none, w)   =>
      match stopped with
      | some e => some (.error e, w, done)
      | none   => some (.ok (), w, done)
    | some (some r, w) =>
      let (round, w) := w.process (turns done.length) r
      let done := done ++ [round]
      match round.result with
      | .ok ()                                => runForever turns fuel stopped w done
      | .error (.requeued msg)                => some (.error (.requeued msg), w, done)
      | .error (.redelivery msg reason job)   =>
        if reason = "stopped" then runForever turns fuel (stopped.or (some (.redelivery msg reason job))) w done
        else some (.error (.redelivery msg reason job), w, done)
      | .error e                              =>
        if e.isException then runForever turns fuel stopped w done else some (.error e, w, done)

end WorkerState

/-! ## One job -/

/-- A workflow raises an `Exception`, and neither of the worker's own errors. -/
def Turn.Plain (t : Turn) : Prop :=
  ∀ e, t.choice.outcome = .error e →
    e.isException = true ∧ (∀ m, e ≠ .requeued m) ∧ ∀ m reason j, e ≠ .redelivery m reason j

/-- What an awaited plain workflow raises is neither of the worker's own errors. -/
theorem Turn.Plain.awaited {t : Turn} (ht : t.Plain) {e : Exn} (h : toThread t.choice.outcome = .error e) :
    (∀ m, e ≠ .requeued m) ∧ ∀ m reason j, e ≠ .redelivery m reason j := by
  rcases toThread_eq_error h with rfl | rfl | h
  · exact ⟨nofun, nofun⟩
  · exact ⟨nofun, nofun⟩
  · exact (ht e h).2

/-- Off a stopped channel a job is never sent back. -/
def DrainError (r : Nat) (e : Exn) : Prop :=
  (∀ m, e ≠ .requeued m) ∧ ∀ m reason j, e = .redelivery m reason j → reason = "stopped" ∧ j = r

abbrev drainProto : Proto Act Act.Res SoloState := Proto.solo drainExec Turn.Plain

section
variable {r : Nat} {q : List Nat}

def Stopped (q : List Nat) (s : SoloState) : Prop := s.1.chan.stop = true ∧ s.1.chan.queue = q

theorem drain_tame : Act.Tame drainProto (Stopped q) (DrainError r) where
  stable := Proto.solo_stable _
  runtime := by simp [DrainError]
  value := by simp [DrainError]
  step := by
    rintro a s r' s' hs hr h ⟨t, ht, rfl, rfl⟩
    have hchan := Ctx.exec_chan t.ownChannel.choice a (t.ownChannel.before s.1) hs hr
    refine ⟨trivial, ?_, fun e he => ?_⟩
    · show (Ctx.exec _ a _).2.chan.stop = true ∧ (Ctx.exec _ a _).2.chan.queue = q
      rw [hchan]
      exact h
    · rcases Ctx.exec_error t.ownChannel.choice a (t.ownChannel.before s.1) e he with ⟨m, rfl⟩ | ⟨m, rfl⟩ | ⟨m, rfl⟩ | ⟨-, ho⟩
      · simp [DrainError]
      · simp [DrainError]
      · simp [DrainError]
      · obtain ⟨h₁, h₂⟩ := Turn.Plain.awaited (t := t.ownChannel) ht ho
        exact ⟨h₁, fun m reason j hj => absurd hj (h₂ m reason j)⟩

/-- A stopped channel refuses the send back. -/
theorem send_stopped (t : Turn) {s : SoloState} (h : Stopped q s) :
    (drainExec t .send s).1 = .stopped ∧ Stopped q (drainExec t .send s).2 := by
  have hx := Ctx.exec_send_stopped t.ownChannel.choice (t.ownChannel.before s.1) rfl h.1
  exact ⟨congrArg Prod.fst hx, by
    show (Ctx.exec _ .send _).2.chan.stop = true ∧ (Ctx.exec _ .send _).2.chan.queue = q
    rw [hx]
    exact h⟩

theorem requeueAfterRunRestore_drains (job : Ident) (hj : job.ref = r) :
    drainProto.Raises (Stopped q) (DrainError r) (Worker.requeueAfterRunRestore job) := by
  intro s h
  refine Proto.wp_solo fun t _ => ?_
  obtain ⟨hr, hn⟩ := send_stopped t h
  rw [hr]
  refine Proto.Raises.bind (Worker.markUndeliverableFailed_raises drain_tame) (fun _ => .raise ?_) _ hn
  refine ⟨by simp, fun m reason j he => ?_⟩
  injection he with _ hreason hjob
  exact ⟨hreason.symm.trans (by simp), by rw [← hjob, hj]⟩

/-- **One job on a stopped channel**: nothing is queued, and a redelivery error is this job's, for the stopped channel. -/
theorem process_drains (w : WorkerState) (turns : Nat → Turn) (ht : ∀ n, (turns n).Plain) (r : Nat)
    (hstop : w.channel.stop = true) :
    (w.process turns r).2.channel.stop = true ∧ (w.process turns r).2.channel.queue = w.channel.queue ∧
      ∀ e, (w.process turns r).1.result = .error e → DrainError r e := by
  have hproc : drainProto.Raises (Stopped w.channel.queue) (DrainError r) (Worker.process (w.view r).job.ident) :=
    Worker.process_raises (requeueAfterRunRestore_drains _ rfl) drain_tame
  obtain ⟨⟨h₁, h₂⟩, h₃⟩ := Prog.run_of_wp _ turns _ ht (hproc (w.view r, []) ⟨hstop, rfl⟩)
  exact ⟨h₁, h₂, h₃⟩

end

/-! ## How awaited workflows end -/

theorem caught_drainExec {t : Turn} {a : Act} {s : SoloState} :
    Caught (drainExec t a s).2.2 ↔ Caught s.2 ∧ a.abrupt (drainExec t a s).1 = false := caught_turnExec

/-- The actions of a job alone of which none ends a workflow abruptly. -/
def caughtProto : Proto Act Act.Res SoloState where
  step a s r s' := ∃ t, r = (drainExec t a s).1 ∧ s' = (drainExec t a s).2 ∧ a.abrupt r = false
  rely _ _      := False
  guar _ _      := True

theorem caught_tame : Act.Tame caughtProto (fun _ => True) (fun e => e.isException = true) where
  stable _ _ h := h.elim
  runtime _ := rfl
  value _ := rfl
  step := by
    rintro a s _ _ - - - ⟨t, rfl, rfl, ha⟩
    exact ⟨trivial, trivial, fun e he => Ctx.exec_isException _ a _ e he ha⟩

/-- **A round whose workflows are caught** ends in what the loop catches. -/
theorem process_caught (w : WorkerState) (turns : Nat → Turn) (r : Nat) (h : Caught (w.process turns r).1.log) :
    ∀ e, (w.process turns r).1.result = .error e → e.isException = true := by
  have hsend : ∀ job, caughtProto.Raises (fun _ => True) (fun e => e.isException = true)
      (Worker.requeueAfterRunRestore job) := fun job => by
    refine (Proto.Raises.call caught_tame.stable fun _ _ _ _ _ => ⟨trivial, trivial⟩).bind fun res => ?_
    have hmark := Worker.markUndeliverableFailed_raises caught_tame
    cases res with
    | ok => exact .raise rfl
    | full => exact hmark.bind fun _ => .raise rfl
    | stopped => exact hmark.bind fun _ => .raise rfl
  have hproc := Worker.process_raises (hsend (w.view r).job.ident) caught_tame
  have hleave : ∀ n a s, caughtProto.step a s (drainExec (turns n) a s).1 (drainExec (turns n) a s).2 ∨
      ¬ Caught (drainExec (turns n) a s).2.2 := fun n a s => by
    by_cases ha : a.abrupt (drainExec (turns n) a s).1 = false
    · exact .inl ⟨turns n, rfl, rfl, ha⟩
    · exact .inr fun hc => ha (caught_drainExec.1 hc).2
  have hkeep : ∀ t a s, ¬ Caught s.2 → ¬ Caught (drainExec t a s).2.2 := fun _ _ _ hn hc => hn (caught_drainExec.1 hc).1
  rcases Prog.run_or_of_wp hkeep _ turns (w.view r, []) hleave (hproc _ trivial) with hr | hb
  · exact hr.2
  · exact absurd h hb

/-- Either no workflow has ended abruptly, or what is raised is no `Exception`. -/
def Passed {α : Type} (r : Except Exn α) (s : SoloState) : Prop := Caught s.2 ∨ ∃ e, r = .error e ∧ e.isException = false

section
variable {α β : Type} {s : SoloState}

theorem Passed.caught {a : α} (h : Passed (.ok a) s) : Caught s.2 := h.resolve_right fun ⟨_, he, _⟩ => by cases he

theorem Passed.raised {e : Exn} (h : Passed (.error e : Except Exn α) s) : Passed (.error e : Except Exn β) s :=
  h.imp_right fun ⟨_, he, hx⟩ => by
    obtain rfl := Except.error.inj he
    exact ⟨e, rfl, hx⟩

theorem caught_of_only {p : JobProg α} (hp : p.Only (fun a => a.ended = none)) :
    drainProto.Keeps (fun s => Caught s.2) p := by
  refine Proto.keeps_solo (fun a ha t s _ h => ?_) hp
  exact caught_drainExec.2 ⟨h, Act.abrupt_of_ended ha _⟩

theorem passed_of_only {p : JobProg α} (hp : p.Only (fun a => a.ended = none)) (h : Caught s.2) :
    drainProto.wp p Passed s :=
  Proto.wp_mono (fun _ _ h => .inl h) p s (caught_of_only hp s h)

/-- What ends no workflow, then the rest. -/
theorem passed_after {p : JobProg α} {f : α → JobProg β} (hp : p.Only (fun a => a.ended = none)) (h : Caught s.2)
    (hf : ∀ a s, Caught s.2 → drainProto.wp (f a) Passed s) : drainProto.wp (p.bind f) Passed s :=
  Proto.wp_seq (caught_of_only hp s h) hf fun _ _ h => .inl h

end

theorem ended_recovers : Act.Recovers (fun a => a.ended = none) where
  build := rfl
  put _ := rfl
  refresh _ := rfl
  saved := rfl
  check := rfl
  current := rfl
  event _ := rfl
  restore _ := rfl
  lifecycle _ _ := rfl
  send := rfl

theorem runWorkflows_passed : ∀ (ws : List Workflow) (i : Nat) {s : SoloState}, Caught s.2 →
    drainProto.wp (Worker.runWorkflows ws i) Passed s
  | [], _, _, h => .inl h
  | _ :: ws, i, _, h => by
    have hlog := Worker.ensureCancelledPersistedLogged_only ended_recovers.toSaves
    refine passed_after (.call rfl) h fun cancelled s h => ?_
    cases cancelled with
    | true => exact passed_of_only (hlog.bind fun _ => .ret true) h
    | false =>
      refine passed_after (.call rfl) h fun _ s h => ?_
      refine Proto.wp_seq (M := Passed) ?_ (fun _ s h => runWorkflows_passed ws (i + 1) h.caught) (fun _ _ h => h.raised)
      refine Proto.wp_solo fun t _ => ?_
      cases hr : (drainExec t (.endWorkflow i) s).1 with
      | ok _ => exact .inl (caught_drainExec.2 ⟨h, by rw [hr]; rfl⟩)
      | error e =>
        cases he : e.isException with
        | true => exact .inl (caught_drainExec.2 ⟨h, by simp [hr, Act.abrupt, he]⟩)
        | false => exact .inr ⟨e, rfl, he⟩

/-- What ends a workflow abruptly is no `Exception`, so the handler around the workflows does not see it. -/
theorem execute_passed {s : SoloState} (h : Caught s.2) : drainProto.wp Worker.execute Passed s := by
  have hlog := Worker.ensureCancelledPersistedLogged_only ended_recovers.toSaves
  have hterminal : ∀ e, (Worker.transitionAndSaveTerminal e).Only (fun a => a.ended = none) := fun _ =>
    Worker.transitionAndSaveTerminal_built ended_recovers.saveBuilt (applyEventP_only rfl)
  refine Proto.wp_try (M := Passed) ?_ (fun r s h => ?_)
  · exact passed_after (.call rfl) h fun ws _ h => passed_after (.call rfl) h fun _ _ h => runWorkflows_passed ws 0 h
  · cases r with
    | ok stopped =>
      cases stopped with
      | true => exact passed_of_only (.ret ()) h.caught
      | false => exact passed_of_only (.bind (.call rfl) fun _ => .ite hlog (hterminal .complete)) h.caught
    | error e =>
      show drainProto.wp (if e.isException then Worker.workflowFailed e else Prog.raise e) Passed s
      rcases h with h | ⟨e', he, hx⟩
      · have hfailed : (Worker.workflowFailed e).Only (fun a => a.ended = none) :=
          .bind (.call rfl) fun _ => .ite hlog ((hterminal .fail).attempt.bind fun _ => .raise e)
        exact passed_of_only (.ite hfailed (.raise e)) h
      · obtain rfl := Except.error.inj he
        rw [if_neg (by simp [hx])]
        exact .inr ⟨e, rfl, hx⟩

theorem process_passed (job : Ident) {s : SoloState} (h : Caught s.2) : drainProto.wp (Worker.process job) Passed s := by
  have hlog := Worker.ensureCancelledPersistedLogged_only ended_recovers.toSaves
  refine passed_after (.call rfl) h fun cancelled s h => ?_
  cases cancelled with
  | true => exact passed_of_only hlog h
  | false =>
    refine passed_after (.call rfl) h fun st s h => passed_after (.call rfl) h fun t s h => ?_
    have hfail := fun e => Worker.failOrRestoreAfterRunPersist_only ended_recovers job st t e
    refine passed_after (Worker.heal_only ended_recovers.toSaves job).attempt h fun healed s h => ?_
    match healed with
    | .error e => exact passed_of_only (hfail e) h
    | .ok () =>
      refine passed_after (applyEventP_only rfl) h fun _ s h => ?_
      refine passed_after (save_only ended_recovers.toSaves).attempt h fun saved s h => ?_
      match saved with
      | .error e => exact passed_of_only (hfail e) h
      | .ok false => exact passed_of_only (Worker.runSkipped_only ended_recovers job st t) h
      | .ok true => exact execute_passed h

/-- **A round that a workflow ends abruptly** ends in what the loop does not catch. -/
theorem process_abrupt (w : WorkerState) (turns : Nat → Turn) (ht : ∀ n, (turns n).Plain) (r : Nat)
    (h : ¬ Caught (w.process turns r).1.log) : ∃ e, (w.process turns r).1.result = .error e ∧ e.isException = false :=
  (Prog.run_of_wp _ turns _ ht (process_passed _ (s := (w.view r, [])) caught_nil)).resolve_left h

/-! ## The loop -/

/-- The redelivery error of a processed job. -/
def redeliveryOf (round : WorkerState.Round) : Option Exn :=
  match round.result with
  | .error (.redelivery msg reason job) => some (.redelivery msg reason job)
  | _                                   => none

/-- How the drain ends, given the redelivery error it already holds. -/
def drainResult (stopped : Option Exn) (done : List WorkerState.Round) : Except Exn Unit :=
  match stopped.or (done.findSome? redeliveryOf) with
  | some e => .error e
  | none   => .ok ()

/-- **What a drain promises**: it ends, each queued job was processed once and in order, and the channel is empty.  It
returns when no job raised a `JobRedeliveryError`; otherwise it raises the first one, whose reason is the stopped channel. -/
structure Drained (queue : List Nat) (result : Except Exn Unit) (w : WorkerState) (done : List WorkerState.Round) :
    Prop where
  ends     : result ≠ .error .hung
  jobs     : done.map WorkerState.Round.job = queue
  empty    : w.channel.queue = []
  requeues : ∀ msg, result ≠ .error (.requeued msg)
  returns  : result = .ok () ↔ ∀ p ∈ done, redeliveryOf p = none
  raises   : ∀ e, result = .error e ↔ done.findSome? redeliveryOf = some e
  reasons  : ∀ p ∈ done, ∀ msg reason job, p.result = .error (.redelivery msg reason job) →
    reason = "stopped" ∧ job = p.job

theorem redeliveryOf_eq_some {round : WorkerState.Round} {e : Exn} (h : redeliveryOf round = some e) :
    ∃ msg reason job, e = .redelivery msg reason job := by
  unfold redeliveryOf at h
  split at h
  · exact ⟨_, _, _, (Option.some.inj h).symm⟩
  · cases h

/-- A drain raises nothing but redelivery errors. -/
theorem Drained.raised {queue : List Nat} {e : Exn} {w : WorkerState} {done : List WorkerState.Round}
    (h : Drained queue (.error e) w done) : ∃ msg reason job, e = .redelivery msg reason job := by
  obtain ⟨_, -, hp⟩ := List.exists_of_findSome?_eq_some ((h.raises e).1 rfl)
  exact redeliveryOf_eq_some hp

/-- A drain of every queued job keeps the promise. -/
theorem drained_of_result {queue : List Nat} {w : WorkerState} {done : List WorkerState.Round}
    (hdone : done.map WorkerState.Round.job = queue) (hempty : w.channel.queue = [])
    (herr : ∀ p ∈ done, ∀ e, p.result = .error e → DrainError p.job e) :
    Drained queue (drainResult none done) w done := by
  have hraise : ∀ e, drainResult none done = .error e ↔ done.findSome? redeliveryOf = some e := fun e => by
    unfold drainResult
    cases done.findSome? redeliveryOf <;> simp
  have hkind : ∀ e, drainResult none done = .error e → ∃ msg reason job, e = .redelivery msg reason job := fun e he => by
    obtain ⟨_, -, hp⟩ := List.exists_of_findSome?_eq_some ((hraise e).1 he)
    exact redeliveryOf_eq_some hp
  refine ⟨fun he => ?_, hdone, hempty, fun msg he => ?_, ?_, hraise, fun p hp msg reason job he => ?_⟩
  · obtain ⟨_, _, _, h⟩ := hkind _ he
    cases h
  · obtain ⟨_, _, _, h⟩ := hkind _ he
    cases h
  · rw [← List.findSome?_eq_none_iff]
    unfold drainResult
    cases done.findSome? redeliveryOf <;> simp
  · exact (herr p hp _ he).2 msg reason job rfl

namespace WorkerState

variable {turns : Nat → Nat → Turn}

/-- **One round**: the first queued job is processed.  When no workflow ended abruptly the loop goes on with its
redelivery error kept; otherwise it ends there. -/
theorem runForever_round (ht : ∀ k n, (turns k n).Plain) (fuel : Nat) (stopped : Option Exn) (w : WorkerState)
    (done : List Round) {r : Nat} {q : List Nat} (hq : w.channel.queue = r :: q) (hstop : w.channel.stop = true) :
    ∃ round w', round.job = r ∧ (∀ e, round.result = .error e → DrainError r e) ∧ w'.channel.queue = q ∧
      w'.channel.stop = true ∧
      ((Caught round.log ∧ runForever turns (fuel + 1) stopped w done =
          runForever turns fuel (stopped.or (redeliveryOf round)) w' (done ++ [round])) ∨
        (¬ Caught round.log ∧ ∃ e, e.isException = false ∧
          runForever turns (fuel + 1) stopped w done = some (.error e, w', done ++ [round]))) := by
  have hrec : w.receive = some (some r, { w with channel := { w.channel with queue := q } }) := by
    unfold receive
    rw [hq]
  obtain ⟨h₁, h₂, h₃⟩ := process_drains { w with channel := { w.channel with queue := q } } (turns done.length)
    (ht done.length) r hstop
  have hcaught := process_caught { w with channel := { w.channel with queue := q } } (turns done.length) r
  have habrupt := process_abrupt { w with channel := { w.channel with queue := q } } (turns done.length)
    (ht done.length) r
  have hjob : ((process { w with channel := { w.channel with queue := q } } (turns done.length) r).1).job = r := rfl
  rw [runForever, hrec]
  dsimp only
  generalize process { w with channel := { w.channel with queue := q } } (turns done.length) r = p
    at h₁ h₂ h₃ hcaught habrupt hjob ⊢
  obtain ⟨⟨job, result, log⟩, w'⟩ := p
  dsimp only at h₃ hcaught habrupt hjob ⊢
  refine ⟨⟨job, result, log⟩, w', hjob, h₃, h₂, h₁, ?_⟩
  by_cases hc : Caught log
  · refine .inl ⟨hc, ?_⟩
    match result, h₃, hcaught hc with
    | .ok (), _, _ => simp [redeliveryOf]
    | .error e, h₃, hx =>
      obtain ⟨hreq, hred⟩ := h₃ e rfl
      cases e with
      | requeued m => exact absurd rfl (hreq m)
      | redelivery m reason j =>
        obtain ⟨rfl, -⟩ := hred m reason j rfl
        simp [redeliveryOf]
      | cancelled => cases hx _ rfl
      | hung => cases hx _ rfl
      | _ => simp [redeliveryOf, Exn.isException]
  · obtain ⟨e, rfl, he⟩ := habrupt hc
    refine .inr ⟨hc, e, he, ?_⟩
    cases e with
    | cancelled => simp [Exn.isException]
    | hung => simp [Exn.isException]
    | _ => cases he

/-- The drain, by induction on the queue: it takes every job, or ends at the first abrupt round. -/
theorem runForever_drains (ht : ∀ k n, (turns k n).Plain) : ∀ (q : List Nat) (fuel : Nat) (stopped : Option Exn)
    (w : WorkerState) (done : List Round), w.channel.queue = q → w.channel.stop = true → q.length < fuel →
    ∃ result w' rest, runForever turns fuel stopped w done = some (result, w', done ++ rest) ∧
      (((∀ p ∈ rest, Caught p.log) ∧ result = drainResult stopped rest ∧ rest.map Round.job = q ∧ w'.channel.queue = [] ∧
          ∀ p ∈ rest, ∀ e, p.result = .error e → DrainError p.job e) ∨
        ((∃ p ∈ rest, ¬ Caught p.log) ∧ ∃ e, result = .error e ∧ e.isException = false))
  | [], fuel + 1, stopped, w, done, hq, hstop, _ => by
    have hrec : w.receive = some (none, w) := by
      unfold receive
      rw [hq]
      simp [hstop]
    refine ⟨drainResult stopped [], w, [], ?_, .inl ⟨by simp, rfl, rfl, hq, by simp⟩⟩
    rw [runForever, hrec]
    cases stopped with
    | none => simp [drainResult]
    | some e => simp [drainResult]
  | r :: q, fuel + 1, stopped, w, done, hq, hstop, hf => by
    obtain ⟨round, w₁, hjob, herr, hq₁, hs₁, ⟨hcaught, hround⟩ | ⟨habrupt, e, he, hround⟩⟩ :=
      runForever_round ht fuel stopped w done hq hstop
    · obtain ⟨result, w', rest, hrun, hrest⟩ := runForever_drains ht q fuel (stopped.or (redeliveryOf round)) w₁
        (done ++ [round]) hq₁ hs₁ (by simp only [List.length_cons] at hf; omega)
      refine ⟨result, w', round :: rest, by rw [hround, hrun, List.append_assoc]; rfl, hrest.imp ?_ ?_⟩
      · rintro ⟨hcs, rfl, hjobs, hempty, hdone⟩
        refine ⟨List.forall_mem_cons.2 ⟨hcaught, hcs⟩, ?_, by simp [hjob, hjobs], hempty, List.forall_mem_cons.2 ⟨?_, hdone⟩⟩
        · unfold drainResult
          rw [List.findSome?_cons]
          cases stopped <;> cases redeliveryOf round <;> rfl
        · rwa [hjob]
      · rintro ⟨⟨p, hp, hn⟩, hx⟩
        exact ⟨⟨p, List.mem_cons_of_mem _ hp, hn⟩, hx⟩
    · exact ⟨.error e, w₁, [round], hround, .inr ⟨⟨round, List.mem_singleton_self _, habrupt⟩, e, rfl, he⟩⟩

/-- Two scheduled jobs on a stopped channel. -/
def twoQueued : WorkerState where
  jobs r  := { ref := r, id := if r = 0 then "a" else "b", workflows := [⟨[]⟩], fsm := some .scheduled,
               status := Status.scheduled.value }
  channel := ⟨[0, 1], 0, true⟩
  store   := InMemoryJobStore.empty

/-- The store fails for the first job and works for the second. -/
def firstFaulty (k : Nat) (_ : Nat) : Turn := { choice := { fault := if k = 0 then .raises else .none } }

example : (runForever firstFaulty 3 none twoQueued []).map (fun p => p.2.2.map (fun d => (redeliveryOf d).isSome)) =
    some [true, false] := by decide

/-- The workflow of the first job raises the `CancelledError` of `concurrent.futures`. -/
def firstCancelled (k : Nat) (_ : Nat) : Turn :=
  { choice := { outcome := if k = 0 then .error .futuresCancelled else .ok () } }

end WorkerState
end Pypepper
