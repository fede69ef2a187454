import Pypepper.Mirror
import Pypepper.RoundTrip
import Pypepper.RunOnce
import Pypepper.WorkflowRun
/-!
# RehydrateRun — a rebuilt job completes only after its work

A job is saved, rebuilt from the stored record, scheduled and processed once, alone at its store.  A payload is all tasks
or none, so the rebuilt job has every workflow of the saved one or no workflow.  From a row that is not Completed it becomes
Completed, in memory or in the store, only after every task of its workflows was executed in order
(`rehydrated_completes_after`).
-/
namespace Pypepper

open Conc (Prog Proto Ev Admits)

/-- Save, then rebuild the job from the stored row; none when the save was not applied. -/
def rehydrate (py : Conversions) (reg : ExecutorRegistry) (uuid : Nat → Nat → Py.Str) (ref : Nat) (turns : Nat → Turn)
    (x : Ctx) : Option (Except PayloadError Ctx) :=
  let saved := Job.save.run turnExec turns (x, [])
  match saved.1 with
  | .ok true => saved.2.1.row.map fun r =>
    (Job.fromRecord py reg uuid ref r).map fun j => { saved.2.1 with job := j }
  | _        => none

/-- Schedule the job, then process it once. -/
def scheduleAndRun (x : Ctx) (chan₁ : Channel) (turns₁ : Nat → Turn) (chan₂ : Channel) (turns₂ : Nat → Turn) : SoloState :=
  opsRun x [⟨.scheduled, chan₁, turns₁⟩, ⟨.runOnce, chan₂, turns₂⟩]

/-- Completed, in memory or in the store. -/
def Ctx.Done (x : Ctx) : Prop :=
  x.job.fsm = some .completed ∨ ∃ d ∈ x.row, d.status = Status.completed.value

/-! ## What was executed -/

section
variable (calls : Nat → List SoftTimeout.Step) (ws : List Workflow)

/-- The tasks that the workflows executed which have ended, `calls i` being the calls of the `i`-th one's run. -/
def executed (log : List (JobEv Unit)) : List Task :=
  log.flatMap fun e => (e.act.ended.map fun i => SoftTimeout.executedOf (calls i)).getD []

/-- Completed only after every task of the workflows was executed, in order. -/
def CompletesAfter (before : List (JobEv Unit)) (e : JobEv Unit) : Prop :=
  e.post.Done → executed calls before = ws.flatMap Workflow.tasks

/-- Nobody else writes the store, and a workflow ends as its run ends. -/
structure Turn.Runs (t : Turn) : Prop where
  alone   : t.others = id
  outcome : ∀ i w, ws[i]? = some w → ∃ r, (SoftTimeout.run w.tasks).Ends (calls i) r ∧
    (t.choice.outcome = .ok () ↔ ∃ rs, r = .ok rs)

abbrev runsProto : Proto Act Act.Res SoloState := Proto.solo turnExec (Turn.Runs calls ws)

end

section
variable {calls : Nat → List SoftTimeout.Step} {ws : List Workflow}

theorem executed_append (log : List (JobEv Unit)) (e : JobEv Unit) : executed calls (log ++ [e]) =
    executed calls log ++ (e.act.ended.map fun i => SoftTimeout.executedOf (calls i)).getD [] := by
  simp [executed, List.flatMap_append]

/-- Every task has an executor, and every execute succeeds in time. -/
structure AllSucceed (calls : Nat → List SoftTimeout.Step) (ws : List Workflow) : Prop where
  executors : ∀ w ∈ ws, ∀ t ∈ w.tasks, t.executor ≠ none
  timely    : ∀ i, ∀ c ∈ calls i, SoftTimeout.Timely c

/-- **What a workflow in time executed** is its tasks. -/
theorem Turn.Runs.executedOf_eq {t : Turn} (h : t.Runs calls ws) (hcalls : AllSucceed calls ws) {i : Nat} {w : Workflow}
    (hw : ws[i]? = some w) : SoftTimeout.executedOf (calls i) = w.tasks := by
  obtain ⟨r, hends, -⟩ := h.outcome i w hw
  rw [(SoftTimeout.run_succeeds hends (hcalls.timely i)).2, List.filter_eq_self]
  intro u hu
  exact Option.isSome_iff_ne_none.2 (hcalls.executors w (List.mem_of_getElem? hw) u hu)

theorem take_flatMap_succ {i : Nat} {w : Workflow} (hw : ws[i]? = some w) :
    (ws.take (i + 1)).flatMap Workflow.tasks = (ws.take i).flatMap Workflow.tasks ++ w.tasks := by
  rw [List.take_add_one, hw, List.flatMap_append]
  simp

/-! ## One action -/

/-- The actions that neither complete the job nor end a workflow. -/
def Act.Unfinished : Act → Prop
  | .applyEvent e         => e ≠ .complete
  | .restore v            => v ≠ .completed
  | .restoreLifecycle v _ => v ≠ some .completed
  | .put rec              => rec.status ≠ Status.completed.value
  | .endWorkflow _        => False
  | .fromRecord _         => False
  | _                     => True

theorem Fsm.target_completed {e : Event} {v : Status} (h : Fsm.target e v = some .completed) : e = .complete := by
  revert h
  cases e <;> cases v <;> decide

theorem InMemoryJobStore.get_put_status (st : InMemoryJobStore) (rec : JobRecord) {id : String} {d : JobRecord}
    (hd : (st.put rec).2.get id = some d) : st.get id = some d ∨ d.status = rec.status := by
  by_cases hid : id = rec.id
  · subst hid
    obtain ⟨-, hp⟩ | ⟨e, -, -, hp⟩ | ⟨e, -, -, hp⟩ := put_cases st rec
    · rw [hp, get_setRow_self] at hd
      cases hd
      exact .inr rfl
    · rw [hp] at hd
      have hrow := get_setRow_self st (updated e rec)
      obtain rfl := Option.some.inj (hd.symm.trans hrow)
      exact .inr rfl
    · rw [hp] at hd
      exact .inl hd
  · rw [get_put_of_ne st rec hid] at hd
    exact .inl hd

/-- The row stays where it is, or takes the put's status. -/
theorem Ctx.exec_row_status (c : Choice) (a : Act) (x : Ctx) (ha : ∀ ws, a ≠ .fromRecord ws) {d : JobRecord}
    (hd : (Ctx.exec c a x).2.row = some d) : x.row = some d ∨ ∃ rec, a = .put rec ∧ d.status = rec.status := by
  by_cases hp : ∃ rec, a = .put rec
  · obtain ⟨rec, rfl⟩ := hp
    simp only [exec, put] at hd
    cases hf : c.fault with
    | none =>
      rw [hf] at hd
      rcases InMemoryJobStore.get_put_status x.store rec hd with h | h
      · exact .inl h
      · exact .inr ⟨rec, rfl, h⟩
    | refuses =>
      rw [hf] at hd
      exact .inl hd
    | raises =>
      rw [hf] at hd
      exact .inl hd
  · rw [row, exec_store c a x (fun rec h => hp ⟨rec, h⟩), (exec_frame c a x ha).id] at hd
    exact .inl hd

/-- **An unfinished action completes nothing.** -/
theorem Ctx.exec_not_done (c : Choice) {a : Act} {x : Ctx} (ha : a.Unfinished) (h : ¬ x.Done) :
    ¬ (Ctx.exec c a x).2.Done := by
  have hfrom : ∀ ws, a ≠ .fromRecord ws := by
    intro ws hw
    rw [hw] at ha
    exact ha
  intro hd
  rcases hd with hd | ⟨d, hd, hs⟩
  · by_cases hm : a.movesFsm = false
    · exact h (.inl ((Ctx.exec_fsm c a x hm).symm.trans hd))
    · cases a with
      | applyEvent e =>
        obtain ⟨v, w, -, ht, hx⟩ | ⟨-, hx⟩ := Ctx.exec_applyEvent c e x
        · rw [hx] at hd
          obtain rfl := Option.some.inj hd
          exact ha (Fsm.target_completed ht)
        · rw [hx] at hd
          exact h (.inl hd)
      | restore v => exact ha (Option.some.inj hd)
      | restoreLifecycle v t => exact ha hd
      | fromRecord ws => exact ha.elim
      | _ => exact absurd rfl hm
  · rcases Ctx.exec_row_status c a x hfrom hd with hrow | ⟨rec, rfl, hrec⟩
    · exact h (.inr ⟨d, hrow, hs⟩)
    · exact ha (hrec.symm.trans hs)

/-! ## Before the work is done -/

/-- The job is not done, and the tasks `ex` were executed. -/
structure WorkPending (calls : Nat → List SoftTimeout.Step) (ws : List Workflow) (ex : List Task) (s : SoloState) : Prop where
  fresh  : ¬ s.1.Done
  ex     : executed calls s.2 = ex
  length : s.1.job.workflows.length = ws.length
  log    : Admits (CompletesAfter calls ws) s.2

/-- Every task was executed. -/
structure WorkDone (calls : Nat → List SoftTimeout.Step) (ws : List Workflow) (s : SoloState) : Prop where
  ex  : executed calls s.2 = ws.flatMap Workflow.tasks
  log : Admits (CompletesAfter calls ws) s.2

variable {ex : List Task} {s : SoloState} {t : Turn}

theorem Turn.Runs.before (h : t.Runs calls ws) (x : Ctx) : t.before x = x := Turn.before_of_alone h.alone x

theorem WorkPending.next {a : Act} (ht : t.Runs calls ws) (h : WorkPending calls ws ex s) (ha : ∀ ws, a ≠ .fromRecord ws)
    (hd : ¬ (turnExec t a s).2.1.Done) :
    WorkPending calls ws (ex ++ (a.ended.map fun i => SoftTimeout.executedOf (calls i)).getD []) (turnExec t a s).2 := by
  refine ⟨hd, ?_, ?_, h.log.append fun hdone => absurd hdone hd⟩
  · show executed calls (s.2 ++ [_]) = _
    rw [executed_append, h.ex]
  · show (Ctx.exec t.choice a (t.before s.1)).2.job.workflows.length = _
    rw [(Ctx.exec_frame t.choice a _ ha).workflows, ht.before]
    exact h.length

theorem WorkPending.act {a : Act} (ht : t.Runs calls ws) (h : WorkPending calls ws ex s) (ha : a.Unfinished) :
    WorkPending calls ws ex (turnExec t a s).2 := by
  have hended : a.ended = none := by
    cases a with
    | endWorkflow i => exact ha.elim
    | _ => rfl
  have hn := h.next (a := a) ht (fun ws hw => by rw [hw] at ha; exact ha) (by
    show ¬ (Ctx.exec t.choice a (t.before s.1)).2.Done
    rw [ht.before]
    exact Ctx.exec_not_done t.choice ha h.fresh)
  rw [hended] at hn
  simpa using hn

theorem WorkPending.keeps {β : Type} {p : JobProg β} (hp : p.Only Act.Unfinished) :
    (runsProto calls ws).Keeps (WorkPending calls ws ex) p :=
  Proto.keeps_solo (fun _ ha _ _ ht hs => hs.act ht ha) hp

/-- A machine that is not Completed gives no Completed record. -/
theorem currentStatus_ne_completed {x : Ctx} (h : ¬ x.Done) : x.job.currentStatus ≠ Status.completed.value := by
  intro hc
  unfold Job.currentStatus at hc
  split at hc
  · exact absurd hc (by decide)
  · rename_i v hv
    exact h (.inl (by rw [hv, Status.value_inj.1 hc]))

theorem WorkPending.save_keeps : (runsProto calls ws).Keeps (WorkPending calls ws ex) Job.save := by
  intro s hs
  refine wp_save (P := WorkPending calls ws ex)
    (B := fun rec s => WorkPending calls ws ex s ∧ rec.status ≠ Status.completed.value) (W := fun _ => WorkPending calls ws ex)
    (Proto.solo_stable _) (fun _ => Proto.solo_stable _) (fun _ => Proto.solo_stable _) ?_ ?_ ?_ hs
  · intro s rec s' h hst
    obtain ⟨t, ht, rfl, rfl⟩ := hst
    refine ⟨trivial, h.act (a := .buildRecord) ht trivial, ?_⟩
    show (t.before s.1).job.currentStatus ≠ _
    rw [ht.before]
    exact currentStatus_ne_completed h.fresh
  · intro rec s r s' h hst
    obtain ⟨t, ht, rfl, rfl⟩ := hst
    have hn := h.1.act (a := .put rec) ht h.2
    refine ⟨trivial, ?_⟩
    cases hr : (turnExec t (.put rec) s).1 with
    | error e => exact hn
    | ok b =>
      cases b with
      | true => exact hn
      | false => exact hn
  · intro rec s r s' h hst
    obtain ⟨t, ht, rfl, rfl⟩ := hst
    have hn := h.act (a := .refresh rec.updated) ht trivial
    refine ⟨trivial, ?_⟩
    cases hr : (turnExec t (.refresh rec.updated) s).1 with
    | error e => exact hn
    | ok u => exact hn

theorem WorkPending.saveBuilt (calls : Nat → List SoftTimeout.Step) (ws : List Workflow) (ex : List Task) :
    SaveBuilt (fun _ (p : JobProg _) => (runsProto calls ws).Keeps (WorkPending calls ws ex) p) :=
  { Proto.Keeps.closed _ with
    save  := WorkPending.save_keeps
    saved := WorkPending.keeps (.bind (.call trivial) .ofExcept) }

theorem WorkPending.recoverBuilt (calls : Nat → List SoftTimeout.Step) (ws : List Workflow) (ex : List Task)
    {v : Option Status} (hv : v ≠ some .completed) (t : String) :
    RecoverBuilt (fun _ (p : JobProg _) => (runsProto calls ws).Keeps (WorkPending calls ws ex) p) v t :=
  { WorkPending.saveBuilt calls ws ex with
    check     := WorkPending.keeps (.call trivial)
    current   := WorkPending.keeps (.call trivial)
    fail      := WorkPending.keeps (applyEventP_only (by simp [Act.Unfinished]))
    failed    := WorkPending.keeps (.call (by simp [Act.Unfinished]))
    lifecycle := WorkPending.keeps (.call hv)
    send      := WorkPending.keeps (.call trivial) }

/-! ## After the work -/

theorem WorkDone.keeps {β : Type} {p : JobProg β} (hp : p.Only (fun a => a.ended = none)) :
    (runsProto calls ws).Keeps (WorkDone calls ws) p := by
  refine Proto.keeps_solo (fun a ha t s _ hs => ?_) hp
  refine ⟨?_, hs.log.append fun _ => hs.ex⟩
  show executed calls (s.2 ++ [_]) = _
  rw [executed_append, ha, hs.ex]
  simp

theorem WorkDone.saveBuilt (calls : Nat → List SoftTimeout.Step) (ws : List Workflow) :
    SaveBuilt (fun _ (p : JobProg _) => (runsProto calls ws).Keeps (WorkDone calls ws) p) :=
  { Proto.Keeps.closed _ with
    save  := WorkDone.keeps (save_only ⟨rfl, fun _ => rfl, fun _ => rfl, rfl⟩)
    saved := WorkDone.keeps (getSaved_only ⟨rfl, fun _ => rfl, fun _ => rfl, rfl⟩) }

/-- However far the work is, the log is as the law asks. -/
def WorkLawful (calls : Nat → List SoftTimeout.Step) (ws : List Workflow) (s : SoloState) : Prop :=
  Admits (CompletesAfter calls ws) s.2

theorem WorkPending.lawful {β : Type} {p : JobProg β} (h : WorkPending calls ws ex s)
    (hp : (runsProto calls ws).Keeps (WorkPending calls ws ex) p) :
    (runsProto calls ws).wp p (fun _ => WorkLawful calls ws) s :=
  Proto.wp_mono (fun _ _ h => h.log) p s (hp s h)

theorem WorkDone.lawful {β : Type} {p : JobProg β} (h : WorkDone calls ws s)
    (hp : (runsProto calls ws).Keeps (WorkDone calls ws) p) :
    (runsProto calls ws).wp p (fun _ => WorkLawful calls ws) s :=
  Proto.wp_mono (fun _ _ h => h.log) p s (hp s h)

/-! ## The worker -/

theorem WorkPending.ended {i : Nat} {w : Workflow} (ht : t.Runs calls ws) (hcalls : AllSucceed calls ws)
    (hw : ws[i]? = some w) (h : WorkPending calls ws ((ws.take i).flatMap Workflow.tasks) s) :
    WorkPending calls ws ((ws.take (i + 1)).flatMap Workflow.tasks) (turnExec t (.endWorkflow i) s).2 := by
  have hn := h.next (a := .endWorkflow i) ht (by simp) (by
    show ¬ (t.before s.1).Done
    rw [ht.before]
    exact h.fresh)
  rw [take_flatMap_succ hw, ← ht.executedOf_eq hcalls hw]
  exact hn

/-- **The loop over the workflows**: after the `i`-th their first `i` are executed, at its end all of them. -/
theorem runWorkflows_pending (hcalls : AllSucceed calls ws) : ∀ (l : List Workflow) (i : Nat) (s : SoloState),
    i + l.length = ws.length → WorkPending calls ws ((ws.take i).flatMap Workflow.tasks) s →
    (runsProto calls ws).wp (Worker.runWorkflows l i) (fun r s =>
      (r = .ok false → WorkDone calls ws s) ∧ ∃ ex, WorkPending calls ws ex s) s
  | [], i, s, hi, h => by
    refine ⟨fun _ => ⟨?_, h.log⟩, _, h⟩
    rw [h.ex, List.take_of_length_le (by simp at hi; omega)]
  | w :: l, i, s, hi, h => by
    refine Proto.wp_solo fun t₁ ht₁ => ?_
    have h₁ := h.act (a := .isCancelled) ht₁ trivial
    split
    · refine Proto.wp_seq (Worker.ensureCancelledPersistedLogged_built (WorkPending.saveBuilt calls ws _) _ h₁)
        (fun _ s h => ?_) (fun e s h => ⟨by simp, _, h⟩)
      exact ⟨by simp, _, h⟩
    · have hlt : i < ws.length := by
        simp at hi
        omega
      have hw : ws[i]? = some ws[i] := List.getElem?_eq_getElem hlt
      refine Proto.wp_solo fun t₂ ht₂ => ?_
      have h₂ := h₁.act (a := .startWorkflow i) ht₂ trivial
      refine Proto.wp_seq (M := fun _ => WorkPending calls ws ((ws.take (i + 1)).flatMap Workflow.tasks)) ?_
        (fun _ s h => ?_) (fun e s h => ⟨by simp, _, h⟩)
      · refine Proto.wp_solo fun t₃ ht₃ => ?_
        exact Proto.Keeps.ofExcept _ _ (h₂.ended ht₃ hcalls hw)
      · refine runWorkflows_pending hcalls l (i + 1) s ?_ h
        simp at hi
        omega

theorem execute_lawful (hcalls : AllSucceed calls ws) (h : WorkPending calls ws [] s) :
    (runsProto calls ws).wp Worker.execute (fun _ => WorkLawful calls ws) s := by
  have hfin := WorkDone.saveBuilt calls ws
  refine Proto.wp_try (M := fun r s => (r = .ok false → WorkDone calls ws s) ∧ ∃ ex, WorkPending calls ws ex s) ?_
    fun r s h => ?_
  · refine Proto.wp_solo fun t₁ ht₁ => ?_
    have h₁ := h.act (a := .workflows) ht₁ trivial
    refine Proto.wp_solo fun t₂ ht₂ => ?_
    refine runWorkflows_pending hcalls _ 0 _ ?_ (h₁.act (a := .shareCancelEvent) ht₂ trivial)
    show 0 + (t₁.before s.1).job.workflows.length = _
    rw [ht₁.before, h.length]
    omega
  · obtain ⟨hall, ex, h⟩ := h
    have hsave := WorkPending.saveBuilt calls ws ex
    cases r with
    | ok stopped =>
      cases stopped with
      | true => exact h.log
      | false =>
        refine (hall rfl).lawful (hfin.bind (WorkDone.keeps (.call rfl)) fun _ => ?_)
        exact Prog.Closed.ite (Worker.ensureCancelledPersistedLogged_built hfin)
          (Worker.transitionAndSaveTerminal_built hfin (WorkDone.keeps (applyEventP_only rfl)))
    | error e =>
      have hfail : (runsProto calls ws).Keeps (WorkPending calls ws ex) (Worker.transitionAndSaveTerminal .fail) :=
        Worker.transitionAndSaveTerminal_built hsave (WorkPending.keeps (applyEventP_only (by simp [Act.Unfinished])))
      have hfailed : (runsProto calls ws).Keeps (WorkPending calls ws ex) (Worker.workflowFailed e) :=
        hsave.bind (WorkPending.keeps (.call trivial)) fun _ => Prog.Closed.ite
          (Worker.ensureCancelledPersistedLogged_built hsave) (hsave.bind (hsave.attempt hfail) fun _ => hsave.raise e)
      show (runsProto calls ws).wp (if e.isException then Worker.workflowFailed e else Prog.raise e) _ s
      split
      · exact h.lawful hfailed
      · exact h.log

/-- A row that was read is not Completed. -/
theorem WorkPending.saved {d : JobRecord} (ht : t.Runs calls ws) (h : WorkPending calls ws ex s)
    (hr : (turnExec t .getSaved s).1 = .ok (some d)) : d.status ≠ Status.completed.value := by
  intro hd
  refine h.fresh (.inr ⟨d, ?_, hd⟩)
  simp only [turnExec, Ctx.exec, ht.before, Ctx.get] at hr
  split at hr
  · cases hr
  · exact Except.ok.inj hr

/-- **The RUN put was refused**: the status the job follows is not Completed. -/
theorem runSkipped_lawful (job : Ident) {v : Option Status} (hv : v ≠ some .completed) (st : String)
    (h : WorkPending calls ws ex s) :
    (runsProto calls ws).wp (Worker.runSkipped job v st) (fun _ => WorkLawful calls ws) s := by
  have hrec := WorkPending.recoverBuilt calls ws ex hv st
  have hlog := Worker.ensureCancelledPersistedLogged_built hrec.toSaveBuilt
  refine Proto.wp_seq (M := fun r s => WorkPending calls ws ex s ∧ ∀ d, r = .ok (some d) →
    d.status ≠ Status.completed.value) ?_ (fun durable s h => ?_) (fun _ _ h => h.1.log)
  · refine Proto.wp_solo fun t ht => ?_
    have hn := h.act (a := .getSaved) ht trivial
    have hsaved := fun d => h.saved ht (d := d)
    cases hr : (turnExec t .getSaved s).1 with
    | ok o => exact ⟨hn, fun d ho => hsaved d (by rw [hr, Except.ok.inj ho])⟩
    | error e => exact ⟨hn, fun _ ho => by cases ho⟩
  · obtain ⟨h, hsaved⟩ := h
    dsimp only
    split
    · have hcancel : (runsProto calls ws).Keeps (WorkPending calls ws ex) (Job.applyEventP .cancel) :=
        WorkPending.keeps (applyEventP_only (by simp [Act.Unfinished]))
      refine h.lawful (hrec.bind hrec.check fun cancelled => ?_)
      cases cancelled with
      | true => exact hlog
      | false => exact hrec.bind hcancel fun _ => hlog
    · split
      · rename_i w hw
        obtain ⟨d, rfl, rfl⟩ := Option.map_eq_some_iff.1 (Option.filter_eq_some_iff.1 hw).1
        refine h.lawful (WorkPending.keeps ?_)
        unfold Worker.followDurableStatus
        split
        · rename_i u hu
          refine .call fun hc => hsaved d rfl ?_
          rw [← Status.value_of_ofValue hu, hc]
        · exact .raise _
      · exact h.lawful (Worker.failOrRestoreAfterRunPersist_built hrec job _)

theorem process_lawful (hcalls : AllSucceed calls ws) (job : Ident) (h : WorkPending calls ws [] s) :
    (runsProto calls ws).wp (Worker.process job) (fun _ => WorkLawful calls ws) s := by
  refine Proto.wp_solo fun t₁ ht₁ => ?_
  have h₁ := h.act (a := .isCancelled) ht₁ trivial
  split
  · exact h₁.lawful (Worker.ensureCancelledPersistedLogged_built (WorkPending.saveBuilt calls ws []))
  · refine Proto.wp_solo fun t₂ ht₂ => ?_
    have hv : (turnExec t₂ .fsmCurrent (turnExec t₁ .isCancelled s).2).1 ≠ some .completed := by
      intro hv
      refine h₁.fresh (.inl ?_)
      simp only [turnExec, Ctx.exec, ht₂.before] at hv
      exact hv
    have h₂ := h₁.act (a := .fsmCurrent) ht₂ trivial
    refine Proto.wp_solo fun t₃ ht₃ => ?_
    have h₃ := h₂.act (a := .status) ht₃ trivial
    have hrec := WorkPending.recoverBuilt calls ws [] hv
      (turnExec t₃ .status (turnExec t₂ .fsmCurrent (turnExec t₁ .isCancelled s).2).2).1
    refine Proto.wp_try (Worker.heal_built hrec.toSaveBuilt job _ h₃) fun r s h => ?_
    cases r with
    | error e => exact h.lawful (Worker.failOrRestoreAfterRunPersist_built hrec job e)
    | ok u =>
      refine Proto.wp_seq (WorkPending.keeps (applyEventP_only (by simp [Act.Unfinished])) s h) (fun _ s h => ?_)
        (fun _ _ h => h.log)
      refine Proto.wp_try (WorkPending.save_keeps s h) fun r s h => ?_
      cases r with
      | error e => exact h.lawful (Worker.failOrRestoreAfterRunPersist_built hrec job e)
      | ok applied =>
        cases applied with
        | false => exact runSkipped_lawful job hv _ h
        | true => exact execute_lawful hcalls h

/-! ## The dispatch -/

theorem dispatch_pending (job : Ident) (h : WorkPending calls ws ex s) :
    (runsProto calls ws).wp (Job.dispatch job) (fun _ => WorkPending calls ws ex) s := by
  have hsave := WorkPending.saveBuilt calls ws ex
  have hevent : ∀ e, e ≠ .complete → (runsProto calls ws).Keeps (WorkPending calls ws ex) (Job.applyEventP e) :=
    fun e he => WorkPending.keeps (applyEventP_only he)
  refine Proto.wp_solo fun t₁ ht₁ => ?_
  have hv : (turnExec t₁ .fsmCurrent s).1 ≠ some .completed := by
    intro hv
    refine h.fresh (.inl ?_)
    simp only [turnExec, Ctx.exec, ht₁.before] at hv
    exact hv
  refine Proto.wp_solo fun t₂ ht₂ => ?_
  have hback : ∀ e, (runsProto calls ws).Keeps (WorkPending calls ws ex) (do
      Job.do_ (.restoreLifecycle (turnExec t₁ .fsmCurrent s).1 (turnExec t₂ .status (turnExec t₁ .fsmCurrent s).2).1)
      Prog.raise e : JobProg Unit) := fun e => WorkPending.keeps (.bind (.call hv) fun _ => .raise e)
  have hsend : (runsProto calls ws).Keeps (WorkPending calls ws ex) (do
      (Job.do_ .available).bind Prog.ofExcept
      Job.enqueue job : JobProg Unit) :=
    hsave.bind (WorkPending.keeps (.bind (.call trivial) .ofExcept)) fun _ =>
      Job.enqueue_built hsave.toClosed (WorkPending.keeps (.call trivial)) (WorkPending.keeps (.call trivial)) job
  have hmove : (runsProto calls ws).Keeps (WorkPending calls ws ex) (do
      Job.applyEventP .init
      Job.applyEventP .schedule : JobProg Unit) :=
    hsave.bind (hevent .init (by decide)) fun _ => hevent .schedule (by decide)
  refine hsave.try_ hmove (fun _ => hsave.try_ hsend (fun _ => Job.saveScheduled_built hsave job _ _) hback) hback _ ?_
  exact (h.act (a := .fsmCurrent) ht₁ trivial).act (a := .status) ht₂ trivial

/-- **Scheduled and processed once**, from a job and a row that are not Completed. -/
theorem scheduleAndRun_lawful (hcalls : AllSucceed calls ws) {x : Ctx} (hx : ¬ x.Done)
    (hlen : x.job.workflows.length = ws.length) (chan₁ chan₂ : Channel) {turns₁ turns₂ : Nat → Turn}
    (h₁ : ∀ n, (turns₁ n).Runs calls ws) (h₂ : ∀ n, (turns₂ n).Runs calls ws) :
    WorkLawful calls ws (scheduleAndRun x chan₁ turns₁ chan₂ turns₂) := by
  have h₀ : WorkPending calls ws [] ({ x with chan := chan₁ }, []) := ⟨hx, rfl, hlen, .nil⟩
  have hsched := Prog.run_of_wp (Job.dispatch x.job.ident) turns₁ _ h₁ (dispatch_pending x.job.ident h₀)
  generalize hs : ((Job.dispatch x.job.ident).run turnExec turns₁ ({ x with chan := chan₁ }, [])).2 = s at hsched
  have hrun : (runsProto calls ws).wp (Op.runOnce.prog s.1.job.ident) (fun _ => WorkLawful calls ws)
      ({ s.1 with chan := chan₂ }, s.2) := by
    have h : WorkPending calls ws [] ({ s.1 with chan := chan₂ }, s.2) :=
      ⟨hsched.fresh, hsched.ex, hsched.length, hsched.log⟩
    refine Proto.wp_solo fun t ht => ?_
    have hn := h.act (a := .receive) ht trivial
    cases (turnExec t .receive ({ s.1 with chan := chan₂ }, s.2)).1 with
    | none => exact hn.log
    | some r =>
      dsimp only
      split
      · exact process_lawful hcalls s.1.job.ident hn
      · exact hn.log
  have hfinal := Prog.run_of_wp (Op.runOnce.prog s.1.job.ident) turns₂ _ h₂ hrun
  rw [← hs] at hfinal
  exact hfinal

end

/-! ## The record of a save -/

/-- The job's row is its own record. -/
structure Stored (x y : Ctx) : Prop where
  id  : y.job.id = x.job.id
  row : ∃ r, y.row = some r ∧ r.id = x.job.id ∧ r.status = x.job.currentStatus ∧ r.payload = x.job.workflowsPayload

theorem Ctx.exec_put_stored (c : Choice) (x : Ctx) (now : String)
    (h : (Ctx.exec c (.put (x.job.record now)) x).1 = .ok true) :
    Stored x (Ctx.exec c (.put (x.job.record now)) x).2 := by
  cases hf : c.fault with
  | refuses =>
    simp only [exec, put, hf] at h
    cases h
  | raises =>
    simp only [exec, put, hf] at h
    cases h
  | none =>
    rw [exec_put_healthy c _ x hf] at h ⊢
    obtain ⟨-, hp⟩ | ⟨e, -, -, hp⟩ | ⟨e, -, -, hp⟩ := InMemoryJobStore.put_cases x.store (x.job.record now)
    · rw [hp]
      exact ⟨rfl, _, InMemoryJobStore.get_setRow_self _ (x.job.record now), rfl, rfl, rfl⟩
    · rw [hp]
      exact ⟨rfl, _, InMemoryJobStore.get_setRow_self _ (InMemoryJobStore.updated e (x.job.record now)), rfl, rfl, rfl⟩
    · rw [hp] at h
      cases h

theorem turnExec_eq {t : Turn} (h : t.others = id) (a : Act) (s : SoloState) :
    turnExec t a s = ((Ctx.exec t.choice a s.1).1, (Ctx.exec t.choice a s.1).2,
      s.2 ++ [⟨(), a, (Ctx.exec t.choice a s.1).1, s.1, (Ctx.exec t.choice a s.1).2⟩]) :=
  turnExec_alone h rfl

abbrev lonelyProto : Proto Act Act.Res SoloState := Proto.solo turnExec (fun t => t.others = id)

theorem save_stored (x : Ctx) (log : List (JobEv Unit)) :
    lonelyProto.wp Job.save (fun r s => r = .ok true → Stored x s.1) (x, log) := by
  refine wp_save (P := fun s => s.1 = x) (B := fun rec s => s.1 = x ∧ ∃ now, rec = x.job.record now)
    (W := fun _ s => Stored x s.1) (Proto.solo_stable _) (fun _ => Proto.solo_stable _) (fun _ => Proto.solo_stable _)
    ?_ ?_ ?_ rfl
  · intro s rec s' h hst
    obtain ⟨t, ht, rfl, rfl⟩ := hst
    subst h
    rw [turnExec_eq ht]
    exact ⟨trivial, rfl, _, rfl⟩
  · intro rec s r s' h hst
    obtain ⟨t, ht, rfl, rfl⟩ := hst
    obtain ⟨rfl, now, rfl⟩ := h
    rw [turnExec_eq ht]
    refine ⟨trivial, ?_⟩
    have hput := Ctx.exec_put_stored t.choice s.1 now
    generalize Ctx.exec t.choice (.put (s.1.job.record now)) s.1 = p at hput
    obtain ⟨r, y⟩ := p
    cases r with
    | error e => exact fun h => by cases h
    | ok applied =>
      cases applied with
      | true => exact hput rfl
      | false => exact fun h => by cases h
  · intro rec s r s' h hst
    obtain ⟨t, ht, rfl, rfl⟩ := hst
    rw [turnExec_eq ht]
    refine ⟨trivial, ?_⟩
    have hn : Stored x (Ctx.exec t.choice (.refresh rec.updated) s.1).2 := by
      have hid := (Ctx.exec_frame t.choice (.refresh rec.updated) s.1 (by simp)).id
      have hstore := Ctx.exec_store t.choice (.refresh rec.updated) s.1 (by simp)
      refine ⟨hid.trans h.id, ?_⟩
      rw [Ctx.row, hid, hstore]
      exact h.row
    generalize Ctx.exec t.choice (.refresh rec.updated) s.1 = p at hn
    obtain ⟨r, y⟩ := p
    cases r with
    | error e => exact fun h => by cases h
    | ok u => exact fun _ => hn

/-! ## The rebuilt job -/

/-- The task names a registered executor's id. -/
def Task.HasExecutor (t : Task) : Prop := ∃ e, t.executorId = some e ∧ e ≠ []

theorem Task.payload_eq_none {t : Task} : t.payload = none ↔ ¬ t.HasExecutor := by
  constructor
  · rintro h ⟨e, he, hne⟩
    unfold payload at h
    split at h
    · rename_i hn
      rw [he] at hn
      cases hn
    · rename_i hn
      rw [he] at hn
      exact hne (Option.some.inj hn)
    · cases h
  · intro h
    cases hp : t.payload with
    | none => rfl
    | some p =>
      obtain ⟨e, he, hne, -⟩ := Task.payload_cases hp
      exact absurd ⟨e, he, hne⟩ h

theorem mapM_eq_none {β γ : Type} {f : β → Option γ} : ∀ {l : List β} {b : β}, b ∈ l → f b = none → l.mapM f = none
  | a :: l, b, hb, h => by
    rw [List.mapM_cons]
    cases ha : f a with
    | none => rfl
    | some c =>
      rcases List.mem_cons.1 hb with rfl | hb
      · rw [h] at ha
        cases ha
      · rw [mapM_eq_none hb h]
        rfl

theorem Job.workflowsPayload_eq_none {j : Job} {w : Workflow} {t : Task} (hw : w ∈ j.workflows) (ht : t ∈ w.tasks)
    (h : ¬ t.HasExecutor) : j.workflowsPayload = none := by
  have hp : w.payload = none := by
    rw [Workflow.payload, mapM_eq_none ht (Task.payload_eq_none.2 h)]
    rfl
  unfold workflowsPayload
  split
  · rfl
  · rw [mapM_eq_none hw hp]
    rfl

/-- With an executor for each task the payload has every workflow. -/
theorem Job.workflowsPayload_some {j : Job} (h : ∀ w ∈ j.workflows, ∀ t ∈ w.tasks, t.HasExecutor) :
    j.workflows = [] ∨ ∃ p, j.workflowsPayload = some p := by
  have hp : ∀ w ∈ j.workflows, ∃ p, w.payload = some p := by
    intro w hw
    obtain ⟨ts, hts⟩ := exists_mapM fun t ht => Option.ne_none_iff_exists'.1 fun hn =>
      Task.payload_eq_none.1 hn (h w hw t ht)
    exact ⟨_, by rw [Workflow.payload, hts]; rfl⟩
  unfold workflowsPayload
  split
  · rename_i hws
    exact .inl hws
  · obtain ⟨ps, hps⟩ := exists_mapM hp
    exact .inr ⟨_, by rw [hps]; rfl⟩

section
variable {py : Conversions} {reg : ExecutorRegistry} {uuid : Nat → Nat → Py.Str} {ref : Nat} {turns : Nat → Turn}
  {x x' : Ctx}

theorem Job.fromRecord_none {r : JobRecord} (hr : r.payload = none) :
    Job.fromRecord py reg uuid ref r = .ok (.ofRecord ref r []) := by
  rw [fromRecord, hr]
  rfl

theorem Job.fromRecord_ofRecord {j : Job} {r : JobRecord} (h : Job.fromRecord py reg uuid ref r = .ok j) :
    ∃ vs, j = Job.ofRecord ref r vs := by
  unfold Job.fromRecord at h
  split at h
  · cases h
    exact ⟨_, rfl⟩
  · rename_i p hp
    cases hv : workflowsFromPayload py reg uuid p with
    | error e =>
      rw [hv] at h
      cases h
    | ok vs =>
      rw [hv] at h
      cases h
      exact ⟨vs, rfl⟩

/-- What a rebuilding found and made. -/
theorem rehydrate_ok (ht : ∀ n, (turns n).others = id) (h : rehydrate py reg uuid ref turns x = some (.ok x')) :
    ∃ y r, Stored x y ∧ y.row = some r ∧ Job.fromRecord py reg uuid ref r = .ok x'.job ∧
      x' = { y with job := x'.job } := by
  have hstored := Prog.run_of_wp Job.save turns (x, []) ht (save_stored x [])
  simp only [rehydrate] at h
  split at h
  · rename_i hr
    obtain ⟨r, hrow, h⟩ := Option.map_eq_some_iff.1 h
    cases hj : Job.fromRecord py reg uuid ref r with
    | error e =>
      rw [hj] at h
      cases h
    | ok j =>
      rw [hj] at h
      cases h
      exact ⟨_, r, hstored hr, hrow, hj, rfl⟩
  · cases h

theorem rehydrate_not_done (ht : ∀ n, (turns n).others = id) (h : rehydrate py reg uuid ref turns x = some (.ok x'))
    (hx : x.job.currentStatus ≠ Status.completed.value) : ¬ x'.Done := by
  obtain ⟨y, r, hy, hrow, hj, hx'⟩ := rehydrate_ok ht h
  obtain ⟨r', hrow', hid, hst, -⟩ := hy.row
  obtain rfl := Option.some.inj (hrow.symm.trans hrow')
  obtain ⟨vs, hvs⟩ := Job.fromRecord_ofRecord hj
  rintro (hd | ⟨d, hd, hs⟩)
  · rw [hvs] at hd
    cases hd
  · have hsame : x'.row = y.row := by
      rw [hx', Ctx.row, Ctx.row, hvs]
      show y.store.get r.id = y.store.get y.job.id
      rw [hid, hy.id]
    rw [hsame, hrow] at hd
    cases hd
    exact hx (hst.symm.trans hs)

/-- A decoded task has the executor that is registered under its id. -/
theorem decoded_executors {ws vs : List Workflow} (h : List.Forall₂ (Workflow.DecodedTo reg uuid) ws vs) :
    ∀ w ∈ vs, ∀ t ∈ w.tasks, t.executor ≠ none := by
  intro v hv t ht
  obtain ⟨i, hi, rfl⟩ := List.mem_iff_getElem.1 hv
  obtain ⟨k, hk, rfl⟩ := List.mem_iff_getElem.1 ht
  obtain ⟨j, htasks⟩ := h.get (by rw [h.length_eq]; exact hi) hi
  obtain ⟨n, e, x, -, -, hdec⟩ := htasks.get (by rw [htasks.length_eq]; exact hk) hk
  simp only [List.get_eq_getElem] at hdec
  rw [hdec]
  exact Option.some_ne_none x

end

/-! Two jobs of one task that come back and complete without executing it: the first has a task without an executor id,
the second was Completed when it was saved. -/

def idleTurns : Nat → Turn := fun _ => {}

/-- Every execute and every wait answers None. -/
def inTime : (a : SoftTimeout.Call) → a.Res
  | .execute _  => .ok none
  | .check _    => false
  | .submit _   => 0
  | .store _ _  => ()
  | .result _ _ => .ok none
  | .done _     => true
  | .cancel _   => false
  | .remove _   => ()
  | .sleep _    => ()
  | .work       => ()

/-- The calls of the runs of the workflows, answered so. -/
def callsInTime (ws : List Workflow) (i : Nat) : List SoftTimeout.Step :=
  (ws[i]?.map fun w => ((SoftTimeout.run w.tasks).answered (fun _ => inTime) []).1).getD []

theorem callsInTime_timely (ws : List Workflow) (i : Nat) : ∀ c ∈ callsInTime ws i, SoftTimeout.Timely c := by
  intro c hc
  unfold callsInTime at hc
  cases hw : ws[i]? with
  | none =>
    rw [hw] at hc
    cases hc
  | some w =>
    rw [hw] at hc
    obtain ⟨before, after, hsplit⟩ := List.append_of_mem hc
    have hans := (Prog.answered_ends (fun _ => inTime) (SoftTimeout.run w.tasks) []).2 before c after hsplit
    obtain ⟨a, r⟩ := c
    obtain rfl : r = inTime a := hans
    cases a with
    | execute _  => exact ⟨none, rfl⟩
    | result _ _ => exact ⟨none, rfl⟩
    | check _    => rfl
    | _          => trivial

theorem idleTurns_runs (ws : List Workflow) (n : Nat) : (idleTurns n).Runs (callsInTime ws) ws := by
  refine ⟨rfl, fun i w hw => ?_⟩
  have hends := (Prog.answered_ends (fun _ => inTime) (SoftTimeout.run w.tasks) []).1
  have hcalls : callsInTime ws i = ((SoftTimeout.run w.tasks).answered (fun _ => inTime) []).1 := by
    rw [callsInTime, hw]
    rfl
  refine ⟨_, by rw [hcalls]; exact hends, fun _ => ?_, fun _ => rfl⟩
  exact (SoftTimeout.run_succeeds hends fun c hc => callsInTime_timely ws i c (by rwa [hcalls])).1

def oneTask (e : Option Py.Str) (v : Status) : Job :=
  { ref := 0, id := "j", channelId := "ch", workflows := [⟨[{ echoTask 1 with executorId := e }]⟩], fsm := some v,
    status := v.value }

def rebuilt (j : Job) : Option (Except PayloadError Ctx) :=
  rehydrate plainConversions echoRegistry (fun _ _ => "u") 1 idleTurns { newCtx with job := j }

def runRebuilt (x : Ctx) : SoloState :=
  scheduleAndRun x newCtx.chan idleTurns { newCtx.chan with queue := [x.job.ref] } idleTurns

/-- The machine after the rebuilt job was scheduled and processed, and the names of the tasks executed. -/
def outcomeOf (j : Job) : Option (Option Status × List Py.Str) :=
  match rebuilt j with
  | some (.ok x) => some ((runRebuilt x).1.job.fsm, (executed (callsInTime x.job.workflows) (runRebuilt x).2).map Task.name)
  | _            => none

end Pypepper
