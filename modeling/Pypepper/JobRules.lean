import Pypepper.Worker
/-!
# JobRules — proof rules for a job's programs

What the control flow of a job's programs asks of a protocol, over any state: `wp_save` reduces a save to its three
actions with an assertion between them.  A save, and every program of the worker that only saves, reads back or runs
workflows, leaves the job's machine alone (`*_quiet`).
-/
namespace Pypepper

open Conc (Prog Proto)

variable {S : Type} {π : Proto Act Act.Res S}

/-- **The rule for `save`**: an assertion before it, one with the built record, one after the applied put. -/
theorem wp_save {P : S → Prop} {B W : JobRecord → S → Prop} {Q : Except Exn Bool → S → Prop} (hP : π.Stable P)
    (hB : ∀ rec, π.Stable (B rec)) (hW : ∀ rec, π.Stable (W rec))
    (build : ∀ s rec s', P s → π.step .buildRecord s rec s' → π.guar s s' ∧ B rec s')
    (put : ∀ rec s r s', B rec s → π.step (.put rec) s r s' →
      π.guar s s' ∧ (match r with | .ok true => W rec s' | .ok false => Q (.ok false) s' | .error e => Q (.error e) s'))
    (refresh : ∀ rec s r s', W rec s → π.step (.refresh rec.updated) s r s' →
      π.guar s s' ∧ (match r with | .ok () => Q (.ok true) s' | .error e => Q (.error e) s'))
    {s : S} (hs : P s) : π.wp Job.save Q s := by
  refine Proto.wp_act hP hs (fun s₁ rec s₂ h₁ hst => ?_)
  obtain ⟨hg, hb⟩ := build s₁ rec s₂ h₁ hst
  refine ⟨hg, Proto.wp_act (hB rec) hb (fun s₃ r s₄ h₃ hst => ?_)⟩
  obtain ⟨hg, hr⟩ := put rec s₃ r s₄ h₃ hst
  refine ⟨hg, ?_⟩
  match r, hr with
  | .error e, hr => exact hr
  | .ok false, hr => exact hr
  | .ok true, hr =>
    refine Proto.wp_act (hW rec) hr (fun s₅ r s₆ h₅ hst => ?_)
    obtain ⟨hg, hr⟩ := refresh rec s₅ r s₆ h₅ hst
    refine ⟨hg, ?_⟩
    match r, hr with
    | .error e, hr => exact hr
    | .ok (), hr => exact hr

/-- **The rule for `_force_failed_lifecycle`**: the check, the event and the direct restore each end in `Q`. -/
theorem wp_forceFailedLifecycle {P Q : S → Prop} (hP : π.Stable P)
    (check : ∀ s r s', P s → π.step .currentStatus s r s' →
      π.guar s s' ∧ P s' ∧ (r = Status.failed.value → Q s'))
    (fail : ∀ s r s', P s → π.step (.applyEvent .fail) s r s' →
      π.guar s s' ∧ (match r with | .ok () => Q s' | .error _ => P s'))
    (restore : ∀ s r s', P s → π.step (.restore .failed) s r s' → π.guar s s' ∧ Q s') {s : S} (hs : P s) :
    π.wp Worker.forceFailedLifecycle (fun r s => r = .ok () ∧ Q s) s := by
  refine Proto.wp_call hP hs (fun s₁ r s₂ h₁ hst => ?_)
  obtain ⟨hg, hp, hq⟩ := check s₁ r s₂ h₁ hst
  refine ⟨hg, ?_⟩
  split
  · rename_i hr
    exact ⟨rfl, hq hr⟩
  · rw [Proto.wp_tryExcept]
    refine Proto.wp_act hP hp (fun s₃ r s₄ h₃ hst => ?_)
    obtain ⟨hg, hq⟩ := fail s₃ r s₄ h₃ hst
    refine ⟨hg, ?_⟩
    match r, hq with
    | .ok (), hq => exact ⟨rfl, hq⟩
    | .error e, hp =>
      refine Proto.wp_act hP hp (fun s₅ r s₆ h₅ hst => ?_)
      obtain ⟨hg, hq⟩ := restore s₅ r s₆ h₅ hst
      exact ⟨hg, rfl, hq⟩

/-! ## The actions of the programs -/

/-- The actions of a save and of the programs that only save and read back. -/
structure Act.Saves (q : Act → Prop) : Prop where
  build   : q .buildRecord
  put     : ∀ rec, q (.put rec)
  refresh : ∀ u, q (.refresh u)
  saved   : q .getSaved

/-- The actions of the worker's recovery. -/
structure Act.Recovers (q : Act → Prop) : Prop extends Act.Saves q where
  check     : q .isCancelled
  current   : q .currentStatus
  event     : ∀ e, q (.applyEvent e)
  restore   : ∀ s, q (.restore s)
  lifecycle : ∀ s t, q (.restoreLifecycle s t)
  send      : q .send

/-- The actions after the RUN snapshot. -/
structure Worker.Executes (q : Act → Prop) : Prop extends Act.Saves q where
  check     : q .isCancelled
  workflows : q .workflows
  share     : q .shareCancelEvent
  start     : ∀ i, q (.startWorkflow i)
  ended     : ∀ i, q (.endWorkflow i)
  fail      : q (.applyEvent .fail)
  complete  : q (.applyEvent .complete)

/-! ### What the programs are built of

A property of programs that their control flow keeps holds of each program of the worker and the dispatcher when it holds
of its saves, its reads and its single actions. -/

/-- It holds of a save and of a read of the row. -/
structure SaveBuilt (K : (α : Type) → JobProg α → Prop) : Prop extends Prog.Closed K where
  save  : K Bool Job.save
  saved : K (Option JobRecord) Job.getSaved

/-- And of the actions of the recovery to one state and status. -/
structure RecoverBuilt (K : (α : Type) → JobProg α → Prop) (st : Option Status) (t : String) : Prop extends SaveBuilt K where
  check     : K Bool (Job.do_ .isCancelled)
  current   : K String (Job.do_ .currentStatus)
  fail      : K Unit (Job.applyEventP .fail)
  failed    : K Unit (Job.do_ (.restore .failed))
  lifecycle : K Unit (Job.do_ (.restoreLifecycle st t))
  send      : K SendResult (Job.do_ .send)

section
variable {K : (α : Type) → JobProg α → Prop} {st : Option Status} {t : String}

namespace Worker

theorem ensureCancelledPersisted_built (h : SaveBuilt K) : K Unit ensureCancelledPersisted :=
  h.bind h.saved fun _ => Prog.Closed.ite (h.ret ()) (h.bind h.save fun _ => h.ret ())

theorem ensureCancelledPersistedLogged_built (h : SaveBuilt K) : K Unit ensureCancelledPersistedLogged :=
  h.tryExcept (ensureCancelledPersisted_built h) fun e => h.raise e

theorem heal_built (h : SaveBuilt K) (job : Ident) : K Unit (heal job) :=
  h.bind h.saved fun _ => Prog.Closed.ite
    (h.bind h.save fun _ => Prog.Closed.ite (h.ret ())
      (h.bind h.saved fun _ => Prog.Closed.ite (h.raise _) (h.ret ()))) (h.ret ())

theorem forceFailedLifecycle_built (hk : Prog.Closed K) (hc : K String (Job.do_ .currentStatus))
    (he : K Unit (Job.applyEventP .fail)) (hr : K Unit (Job.do_ (.restore .failed))) : K Unit forceFailedLifecycle :=
  hk.bind hc fun _ => Prog.Closed.ite (hk.ret ()) (hk.tryExcept he fun _ => hr)

theorem markUndeliverableFailed_built (h : SaveBuilt K) (hf : K Unit forceFailedLifecycle) :
    K Unit markUndeliverableFailed :=
  h.bind hf fun _ => h.tryExcept (h.bind h.save fun _ => h.ret ()) fun _ => h.ret ()

theorem persistFailedSnapshot_built (h : SaveBuilt K) (hf : K Unit forceFailedLifecycle) (job : Ident) :
    K Unit (persistFailedSnapshot job) :=
  h.bind hf fun _ => h.bind h.save fun _ => Prog.Closed.ite (h.ret ()) (h.raise _)

theorem requeueAfterRunRestore_built (h : SaveBuilt K) (hsend : K SendResult (Job.do_ .send))
    (hf : K Unit forceFailedLifecycle) (job : Ident) : K Unit (requeueAfterRunRestore job) := by
  have hmark := markUndeliverableFailed_built h hf
  refine h.bind hsend fun r => ?_
  cases r with
  | ok => exact h.raise _
  | full => exact h.bind hmark fun _ => h.raise _
  | stopped => exact h.bind hmark fun _ => h.raise _

theorem RecoverBuilt.force (h : RecoverBuilt K st t) : K Unit forceFailedLifecycle :=
  forceFailedLifecycle_built h.toClosed h.current h.fail h.failed

theorem failOrRestoreAfterRunPersist_built (h : RecoverBuilt K st t) (job : Ident) (e : Exn) :
    K Unit (failOrRestoreAfterRunPersist job st t e) := by
  have hforce := RecoverBuilt.force h
  refine h.try_ (h.bind h.check fun _ => Prog.Closed.ite (h.raise _)
    (persistFailedSnapshot_built h.toSaveBuilt hforce job)) (fun _ => h.raise e) fun _ => ?_
  refine h.bind h.check fun _ => Prog.Closed.ite
    (h.bind (ensureCancelledPersisted_built h.toSaveBuilt) fun _ => h.raise e) ?_
  exact h.bind h.lifecycle fun _ =>
    h.bind (requeueAfterRunRestore_built h.toSaveBuilt h.send hforce job) fun _ => h.raise e

theorem runSkipped_built (h : RecoverBuilt K st t) (hc : K Unit (Job.applyEventP .cancel))
    (hd : ∀ s, K Unit (followDurableStatus s)) (job : Ident) : K Unit (runSkipped job st t) := by
  have hlog := ensureCancelledPersistedLogged_built h.toSaveBuilt
  refine h.bind h.saved fun durable => ?_
  dsimp only
  split
  · exact h.bind h.check fun _ => Prog.Closed.ite hlog (h.bind hc fun _ => hlog)
  · split
    · exact hd _
    · exact failOrRestoreAfterRunPersist_built h job _

theorem runWorkflows_built (h : SaveBuilt K) (hc : K Bool (Job.do_ .isCancelled))
    (hs : ∀ i, K Unit (Job.do_ (.startWorkflow i))) (he : ∀ i, K (Except Exn Unit) (Job.do_ (.endWorkflow i))) :
    ∀ (ws : List Workflow) (i : Nat), K Bool (runWorkflows ws i)
  | [], _ => h.ret false
  | _ :: ws, i => by
    refine h.bind hc fun _ => Prog.Closed.ite (h.bind (ensureCancelledPersistedLogged_built h) fun _ => h.ret true) ?_
    exact h.bind (hs i) fun _ => h.bind (h.bind (he i) fun r => h.ofExcept r) fun _ =>
      runWorkflows_built h hc hs he ws (i + 1)

theorem transitionAndSaveTerminal_built (h : SaveBuilt K) {e : Event} (he : K Unit (Job.applyEventP e)) :
    K Unit (transitionAndSaveTerminal e) :=
  h.bind he fun _ => h.bind h.save fun _ => h.ret ()

theorem execute_built (h : SaveBuilt K) (hc : K Bool (Job.do_ .isCancelled))
    (hw : K Bool (do
      let ws ← Job.do_ .workflows
      Job.do_ .shareCancelEvent
      runWorkflows ws 0))
    (hf : K Unit (Job.applyEventP .fail)) (hd : K Unit (Job.applyEventP .complete)) : K Unit execute := by
  have hlog := ensureCancelledPersistedLogged_built h
  refine h.try_ hw (fun stopped => ?_) fun e => ?_
  · cases stopped with
    | true => exact h.ret ()
    | false => exact h.bind hc fun _ => Prog.Closed.ite hlog (transitionAndSaveTerminal_built h hd)
  · have hfailed : K Unit (workflowFailed e) := h.bind hc fun _ => Prog.Closed.ite hlog
      (h.bind (h.attempt (transitionAndSaveTerminal_built h hf)) fun _ => h.raise e)
    show K Unit (if e.isException then workflowFailed e else Prog.raise e)
    exact Prog.Closed.ite hfailed (h.raise e)

end Worker

namespace Job

theorem cancel_built (h : SaveBuilt K) (hs : K Unit (do_ .shareCancelEvent)) (ht : K Unit (do_ .setCancelEvent))
    (hc : K Unit (applyEventP .cancel)) : K Unit cancel :=
  h.bind hs fun _ => h.bind ht fun _ => h.bind hc fun _ => h.bind h.save fun _ => h.ret ()

theorem enqueue_built (h : Prog.Closed K) (hr : K Bool (do_ .runningLoop)) (hs : K SendResult (do_ .send))
    (job : Ident) : K Unit (enqueue job) := by
  refine h.bind hr fun _ => Prog.Closed.ite (h.raise _) (h.bind hs fun r => ?_)
  cases r with
  | ok => exact h.ret ()
  | full => exact h.raise _
  | stopped => exact h.raise _

theorem saveScheduled_built (h : SaveBuilt K) (job : Ident) : ∀ (n : Nat) (last : Option Exn),
    K Unit (saveScheduled job n last)
  | 0, some e => h.raise e
  | 0, none => h.raise _
  | n + 1, last => by
    refine h.try_ h.save (fun applied => ?_) fun e => saveScheduled_built h job n (some e)
    cases applied with
    | true => exact h.ret ()
    | false => exact saveScheduled_built h job n last

/-- `dispatch` reads the lifecycle, and goes on with what restores it. -/
theorem dispatch_built (job : Ident) : ∃ rest : Option Status → String → JobProg Unit,
    dispatch job = (do
      let prevState ← do_ .fsmCurrent
      let prevStatus ← do_ .status
      rest prevState prevStatus) ∧
    ∀ {K : (α : Type) → JobProg α → Prop} {st : Option Status} {t : String}, SaveBuilt K →
      (∀ e, K Unit (applyEventP e)) → K Unit (do_ (.restoreLifecycle st t)) → K (Except Exn Unit) (do_ .available) →
      K Bool (do_ .runningLoop) → K SendResult (do_ .send) → K Unit (rest st t) := by
  refine ⟨_, rfl, fun h he hr ha hl hs => ?_⟩
  refine h.try_ (h.bind (he .init) fun _ => he .schedule) (fun _ => ?_) fun e => h.bind hr fun _ => h.raise e
  refine h.try_ (h.bind (h.bind ha fun r => h.ofExcept r) fun _ => enqueue_built h.toClosed hl hs job) (fun _ => ?_)
    fun e => h.bind hr fun _ => h.raise e
  exact saveScheduled_built h job _ _

end Job

/-- The actions other than a put, a receive and a rebuilding. -/
def Act.single : Act → Bool
  | .put _ | .receive | .fromRecord _ => false
  | _                                 => true

/-- And of every single action but a put, a receive and a rebuilding. -/
structure CallBuilt (K : (α : Type) → JobProg α → Prop) : Prop extends SaveBuilt K where
  call : ∀ a : Act, a.single = true → K a.Res (Job.do_ a)

namespace CallBuilt

theorem event (h : CallBuilt K) (e : Event) : K Unit (Job.applyEventP e) :=
  h.bind (h.call (.applyEvent e) rfl) fun r => h.ofExcept r

theorem recoverBuilt (h : CallBuilt K) (st : Option Status) (t : String) : RecoverBuilt K st t :=
  { h.toSaveBuilt with
    check := h.call .isCancelled rfl
    current := h.call .currentStatus rfl
    fail := h.event .fail
    failed := h.call (.restore .failed) rfl
    lifecycle := h.call (.restoreLifecycle st t) rfl
    send := h.call .send rfl }

theorem followDurableStatus (h : CallBuilt K) (status : String) : K Unit (Worker.followDurableStatus status) := by
  unfold Worker.followDurableStatus
  split
  · exact h.call (.restore _) rfl
  · exact h.raise _

theorem execute (h : CallBuilt K) : K Unit Worker.execute := by
  have hcheck := h.call .isCancelled rfl
  have hworkflows := fun ws => Worker.runWorkflows_built h.toSaveBuilt hcheck (fun i => h.call (.startWorkflow i) rfl)
    (fun i => h.call (.endWorkflow i) rfl) ws 0
  exact Worker.execute_built h.toSaveBuilt hcheck
    (h.bind (h.call .workflows rfl) fun ws => h.bind (h.call .shareCancelEvent rfl) fun _ => hworkflows ws)
    (h.event .fail) (h.event .complete)

theorem process (h : CallBuilt K) (job : Ident) : K Unit (Worker.process job) := by
  refine h.bind (h.call .isCancelled rfl) fun _ =>
    Prog.Closed.ite (Worker.ensureCancelledPersistedLogged_built h.toSaveBuilt) ?_
  refine h.bind (h.call .fsmCurrent rfl) fun st => h.bind (h.call .status rfl) fun t => ?_
  have hfail := fun e => Worker.failOrRestoreAfterRunPersist_built (h.recoverBuilt st t) job e
  refine h.try_ (Worker.heal_built h.toSaveBuilt job) (fun _ => h.bind (h.event .run) fun _ => ?_) hfail
  refine h.try_ h.save (fun applied => ?_) hfail
  cases applied with
  | true => exact h.execute
  | false => exact Worker.runSkipped_built (h.recoverBuilt st t) (h.event .cancel) h.followDurableStatus job

theorem runOnce (h : CallBuilt K) (hr : K (Option Nat) (Job.do_ .receive)) (job : Ident) :
    K (Option Nat) (Worker.runOnce job) := by
  refine h.bind hr fun r => ?_
  cases r with
  | none => exact h.ret none
  | some ref => exact h.bind (h.process job) fun _ => h.ret (some ref)

theorem dispatch (h : CallBuilt K) (job : Ident) : K Unit (Job.dispatch job) := by
  obtain ⟨rest, hrest, hbuilt⟩ := Job.dispatch_built job
  rw [hrest]
  exact h.bind (h.call .fsmCurrent rfl) fun st => h.bind (h.call .status rfl) fun t =>
    hbuilt h.toSaveBuilt h.event (h.call (.restoreLifecycle st t) rfl) (h.call .available rfl)
      (h.call .runningLoop rfl) (h.call .send rfl)

theorem cancel (h : CallBuilt K) : K Unit Job.cancel :=
  Job.cancel_built h.toSaveBuilt (h.call .shareCancelEvent rfl) (h.call .setCancelEvent rfl) (h.event .cancel)

end CallBuilt
end

/-! ### The actions they perform -/

section
variable {q : Act → Prop}

theorem save_only (h : Act.Saves q) : Job.save.Only q :=
  ⟨h.build, fun rec => ⟨h.put rec, fun
    | .error _  => trivial
    | .ok false => trivial
    | .ok true  => ⟨h.refresh _, fun | .ok () => trivial | .error _ => trivial⟩⟩⟩

theorem getSaved_only (h : Act.Saves q) : Job.getSaved.Only q := .bind (.call h.saved) .ofExcept

theorem applyEventP_only {e : Event} (h : q (.applyEvent e)) : (Job.applyEventP e).Only q := .bind (.call h) .ofExcept

theorem Act.Saves.saveBuilt (h : Act.Saves q) : SaveBuilt (fun _ (p : JobProg _) => p.Only q) :=
  { Prog.Only.closed q with
    save := save_only h
    saved := getSaved_only h }

theorem Act.Recovers.recoverBuilt (h : Act.Recovers q) (st : Option Status) (t : String) :
    RecoverBuilt (fun _ (p : JobProg _) => p.Only q) st t :=
  { h.toSaves.saveBuilt with
    check := .call h.check
    current := .call h.current
    fail := applyEventP_only (h.event .fail)
    failed := .call (h.restore .failed)
    lifecycle := .call (h.lifecycle st t)
    send := .call h.send }

namespace Worker

theorem ensureCancelledPersisted_only (h : Act.Saves q) : ensureCancelledPersisted.Only q :=
  ensureCancelledPersisted_built h.saveBuilt

theorem ensureCancelledPersistedLogged_only (h : Act.Saves q) : ensureCancelledPersistedLogged.Only q :=
  ensureCancelledPersistedLogged_built h.saveBuilt

theorem heal_only (h : Act.Saves q) (job : Ident) : (heal job).Only q := heal_built h.saveBuilt job

theorem forceFailedLifecycle_only (hc : q .currentStatus) (he : q (.applyEvent .fail)) (hr : q (.restore .failed)) :
    forceFailedLifecycle.Only q :=
  forceFailedLifecycle_built (Prog.Only.closed q) (.call hc) (applyEventP_only he) (.call hr)

theorem requeueAfterRunRestore_only (hs : Act.Saves q) (hsend : q .send) (hf : forceFailedLifecycle.Only q)
    (job : Ident) : (requeueAfterRunRestore job).Only q :=
  requeueAfterRunRestore_built hs.saveBuilt (.call hsend) hf job

theorem failOrRestoreAfterRunPersist_only (h : Act.Recovers q) (job : Ident) (st : Option Status) (t : String) (e : Exn) :
    (failOrRestoreAfterRunPersist job st t e).Only q :=
  failOrRestoreAfterRunPersist_built (h.recoverBuilt st t) job e

theorem followDurableStatus_only (h : ∀ s, q (.restore s)) (status : String) : (followDurableStatus status).Only q := by
  unfold followDurableStatus
  split
  · exact .call (h _)
  · trivial

theorem runSkipped_only (h : Act.Recovers q) (job : Ident) (st : Option Status) (t : String) :
    (runSkipped job st t).Only q :=
  runSkipped_built (h.recoverBuilt st t) (applyEventP_only (h.event .cancel)) (followDurableStatus_only h.restore) job

theorem execute_only (h : Executes q) : execute.Only q :=
  execute_built h.toSaves.saveBuilt (.call h.check)
    (.bind (.call h.workflows) fun ws => .bind (.call h.share) fun _ =>
      runWorkflows_built h.toSaves.saveBuilt (.call h.check) (fun i => .call (h.start i)) (fun i => .call (h.ended i)) ws 0)
    (applyEventP_only h.fail) (applyEventP_only h.complete)

end Worker
end

/-! ## What the programs raise -/

/-- The job's actions keep `I` and answer only with exceptions of `E`, as the worker itself raises. -/
structure Act.Tame (π : Proto Act Act.Res S) (I : S → Prop) (E : Exn → Prop) : Prop where
  stable  : π.Stable I
  step    : ∀ a s r s', a ≠ .send → a ≠ .receive → I s → π.step a s r s' → π.guar s s' ∧ I s' ∧ ∀ e ∈ a.error r, E e
  runtime : ∀ msg, E (.runtime msg)
  value   : ∀ msg, E (.value msg)

section
variable {I : S → Prop} {E : Exn → Prop}

theorem Act.Tame.call (h : Act.Tame π I E) (a : Act) (hs : a ≠ .send) (hr : a ≠ .receive) :
    π.Raises I E (Job.do_ a) :=
  .call h.stable fun s r s' hI hst => ⟨(h.step a s r s' hs hr hI hst).1, (h.step a s r s' hs hr hI hst).2.1⟩

theorem Act.Tame.getSaved (h : Act.Tame π I E) : π.Raises I E Job.getSaved := by
  refine .call_except h.stable (a := .getSaved) (fun r => r) fun s r s' hI hst => ?_
  obtain ⟨hg, hI', he⟩ := h.step .getSaved s r s' (by simp) (by simp) hI hst
  refine ⟨hg, hI', fun e hr => he e ?_⟩
  rw [hr]
  rfl

theorem Act.Tame.event (h : Act.Tame π I E) (ev : Event) : π.Raises I E (Job.applyEventP ev) := by
  refine .call_except h.stable (a := .applyEvent ev) (fun r => r) fun s r s' hI hst => ?_
  obtain ⟨hg, hI', he⟩ := h.step (.applyEvent ev) s r s' (by simp) (by simp) hI hst
  refine ⟨hg, hI', fun e hr => he e ?_⟩
  rw [hr]
  rfl

theorem Act.Tame.save (h : Act.Tame π I E) : π.Raises I E Job.save := by
  refine (h.call .buildRecord (by simp) (by simp)).bind fun rec => ?_
  have hput : π.Raises I E (Job.putP rec) := by
    refine .call_except h.stable (a := .put rec) (fun r => r) fun s r s' hI hst => ?_
    obtain ⟨hg, hI', he⟩ := h.step (.put rec) s r s' (by simp) (by simp) hI hst
    refine ⟨hg, hI', fun e hr => he e ?_⟩
    rw [hr]
    rfl
  refine hput.bind fun applied => ?_
  cases applied with
  | false => exact .ret false
  | true =>
    have hrefresh : π.Raises I E (Job.refreshP rec.updated) := by
      refine .call_except h.stable (a := .refresh rec.updated) (fun r => r) fun s r s' hI hst => ?_
      obtain ⟨hg, hI', he⟩ := h.step (.refresh rec.updated) s r s' (by simp) (by simp) hI hst
      refine ⟨hg, hI', fun e hr => he e ?_⟩
      rw [hr]
      rfl
    exact hrefresh.bind fun _ => .ret true

namespace Worker

theorem ensureCancelledPersisted_raises (h : Act.Tame π I E) : π.Raises I E ensureCancelledPersisted :=
  h.getSaved.bind fun _ => .ite (.ret ()) (h.save.bind fun _ => .ret ())

theorem ensureCancelledPersistedLogged_raises (h : Act.Tame π I E) : π.Raises I E ensureCancelledPersistedLogged :=
  (ensureCancelledPersisted_raises h).tryExcept fun _ he => .raise he

theorem forceFailedLifecycle_raises (h : Act.Tame π I E) : π.Raises I E forceFailedLifecycle :=
  (h.call .currentStatus (by simp) (by simp)).bind fun _ => .ite (.ret ())
    ((h.event .fail).tryExcept fun _ _ => h.call (.restore .failed) (by simp) (by simp))

theorem markUndeliverableFailed_raises (h : Act.Tame π I E) : π.Raises I E markUndeliverableFailed :=
  (forceFailedLifecycle_raises h).bind fun _ => .tryExcept (h.save.bind fun _ => .ret ()) fun _ _ => .ret ()

theorem persistFailedSnapshot_raises (h : Act.Tame π I E) (job : Ident) : π.Raises I E (persistFailedSnapshot job) :=
  (forceFailedLifecycle_raises h).bind fun _ => h.save.bind fun _ => .ite (.ret ()) (.raise (h.runtime _))

theorem transitionAndSaveTerminal_raises (h : Act.Tame π I E) (e : Event) :
    π.Raises I E (transitionAndSaveTerminal e) :=
  (h.event e).bind fun _ => h.save.bind fun _ => .ret ()

theorem heal_raises (h : Act.Tame π I E) (job : Ident) : π.Raises I E (heal job) :=
  h.getSaved.bind fun _ => .ite
    (h.save.bind fun _ => .ite (.ret ()) (h.getSaved.bind fun _ => .ite (.raise (h.runtime _)) (.ret ()))) (.ret ())

theorem runWorkflows_raises (h : Act.Tame π I E) : ∀ (ws : List Workflow) (i : Nat), π.Raises I E (runWorkflows ws i)
  | [], _ => .ret false
  | _ :: ws, i => by
    refine (h.call .isCancelled (by simp) (by simp)).bind fun _ => .ite ?_ ?_
    · exact (ensureCancelledPersistedLogged_raises h).bind fun _ => .ret true
    · have hend : π.Raises I E ((Job.do_ (.endWorkflow i)).bind Prog.ofExcept) := by
        refine .call_except h.stable (a := .endWorkflow i) (fun r => r) fun s r s' hI hst => ?_
        obtain ⟨hg, hI', he⟩ := h.step (.endWorkflow i) s r s' (by simp) (by simp) hI hst
        refine ⟨hg, hI', fun e hr => he e ?_⟩
        rw [hr]
        rfl
      exact (h.call (.startWorkflow i) (by simp) (by simp)).bind fun _ =>
        hend.bind fun _ => runWorkflows_raises h ws (i + 1)

theorem execute_raises (h : Act.Tame π I E) : π.Raises I E execute := by
  have hlog := ensureCancelledPersistedLogged_raises h
  refine .try_ ?_ (fun stopped => ?_) fun e he => ?_
  · exact (h.call .workflows (by simp) (by simp)).bind fun ws =>
      (h.call .shareCancelEvent (by simp) (by simp)).bind fun _ => runWorkflows_raises h ws 0
  · cases stopped with
    | true => exact .ret ()
    | false =>
      exact (h.call .isCancelled (by simp) (by simp)).bind fun _ =>
        .ite hlog (transitionAndSaveTerminal_raises h .complete)
  · -- the exception is raised again, whatever became of the Failed snapshot
    have hfailed : π.Raises I E (workflowFailed e) := (h.call .isCancelled (by simp) (by simp)).bind fun _ => .ite hlog
      ((transitionAndSaveTerminal_raises h .fail).try_ (fun _ => .raise he) fun _ _ => .raise he)
    show π.Raises I E (if e.isException then workflowFailed e else Prog.raise e)
    exact .ite hfailed (.raise he)

section
variable {job : Ident} (hq : π.Raises I E (requeueAfterRunRestore job))
include hq

theorem failOrRestoreAfterRunPersist_raises (h : Act.Tame π I E) (st : Option Status) (t : String) {e : Exn} (he : E e) :
    π.Raises I E (failOrRestoreAfterRunPersist job st t e) := by
  have hcheck := h.call .isCancelled (by simp) (by simp)
  refine .try_ (hcheck.bind fun _ => .ite (.raise (h.runtime _)) (persistFailedSnapshot_raises h job))
    (fun _ => .raise he) fun _ _ => hcheck.bind fun _ => .ite ?_ ?_
  · exact (ensureCancelledPersisted_raises h).bind fun _ => .raise he
  · exact (h.call (.restoreLifecycle st t) (by simp) (by simp)).bind fun _ => hq.bind fun _ => .raise he

theorem runSkipped_raises (h : Act.Tame π I E) (st : Option Status) (t : String) :
    π.Raises I E (runSkipped job st t) := by
  have hlog := ensureCancelledPersistedLogged_raises h
  refine h.getSaved.bind fun durable => ?_
  dsimp only
  split
  · exact (h.call .isCancelled (by simp) (by simp)).bind fun _ =>
      .ite hlog ((h.event .cancel).bind fun _ => hlog)
  · split
    · unfold followDurableStatus
      split
      · exact h.call (.restore _) (by simp) (by simp)
      · exact .raise (h.value _)
    · exact failOrRestoreAfterRunPersist_raises hq h st t (h.runtime _)

/-- **What `_process` raises**: what its actions answer with, and what the send back raises. -/
theorem process_raises (h : Act.Tame π I E) : π.Raises I E (process job) := by
  refine (h.call .isCancelled (by simp) (by simp)).bind fun _ => .ite (ensureCancelledPersistedLogged_raises h) ?_
  refine (h.call .fsmCurrent (by simp) (by simp)).bind fun st => (h.call .status (by simp) (by simp)).bind fun t => ?_
  refine (heal_raises h job).try_ (fun _ => ?_) fun e he => failOrRestoreAfterRunPersist_raises hq h st t he
  refine (h.event .run).bind fun _ => h.save.try_ (fun applied => ?_) fun e he =>
    failOrRestoreAfterRunPersist_raises hq h st t he
  cases applied with
  | false => exact runSkipped_raises hq h st t
  | true => exact execute_raises h

end
end Worker
end

/-- The action leaves the job's machine alone. -/
def Act.Quiet (a : Act) : Prop := a.movesFsm = false

theorem Act.Quiet.saves : Act.Saves Act.Quiet := ⟨rfl, fun _ => rfl, fun _ => rfl, rfl⟩

theorem save_quiet : Job.save.Only Act.Quiet := save_only Act.Quiet.saves

end Pypepper
