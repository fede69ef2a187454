import Pypepper.Solo
/-!
# Dispatch — `Job.scheduled` is all or nothing around the enqueue

`Dispatcher.dispatch` alone with the job, its channel and a store whose calls may raise, be refused or apply.  It ends in
one of three ways: it returns with the job on its channel and its Scheduled record applied, it raises with the job on its
channel, or it raises and nothing has changed.  Every rejection of the channel or of the state machine is of the last kind.
-/
namespace Pypepper

open Conc (Prog Proto Ev)

/-- `Job.scheduled` to its end. -/
def scheduledRun (x : Ctx) (choices : Nat → Choice) : Except Exn Unit × SoloState :=
  (Job.dispatch x.job.ident).run aloneExec choices (x, [])

/-- The channel took no job, or the machine knew no transition. -/
def Act.rejects : (a : Act) → a.Res → Bool
  | .send,         r        => decide (r ≠ .ok)
  | .applyEvent _, .error _ => true
  | _,             _        => false

/-! ## The three ways to end -/

/-- The job is on its channel once more than before, in Scheduled. -/
structure Enqueued (x : Ctx) (s : SoloState) : Prop where
  queue  : s.1.chan.queue = x.chan.queue ++ [x.job.ref]
  fsm    : s.1.job.fsm = some .scheduled
  status : s.1.job.status = Status.scheduled.value

/-- A put of the job's Scheduled record was applied. -/
def ScheduledApplied (x : Ctx) (s : SoloState) : Prop :=
  ∃ e ∈ s.2, ∃ rec ∈ e.act.applied e.res, rec.id = x.job.id ∧ rec.status = Status.scheduled.value

structure Dispatched (x : Ctx) (r : Except Exn Unit) (s : SoloState) : Prop extends Enqueued x s where
  returned : r = .ok ()
  applied  : ScheduledApplied x s

structure Committed (x : Ctx) (r : Except Exn Unit) (s : SoloState) : Prop extends Enqueued x s where
  raised : ∃ e, r = .error e

/-- It raised, and the job, its channel and the store are as they were. -/
structure RolledBack (x : Ctx) (r : Except Exn Unit) (s : SoloState) : Prop where
  raised    : ∃ e, r = .error e
  unchanged : s.1 = x

/-! ## The steps -/

/-- Nothing was rejected so far. -/
def Calm (log : List (JobEv Unit)) : Prop := ∀ e ∈ log, e.act.rejects e.res = false

abbrev aloneProto : Proto Act Act.Res SoloState := Proto.solo aloneExec (fun _ => True)

section
variable {x : Ctx} {s : SoloState}

theorem Calm.next (h : Calm s.2) (c : Choice) {a : Act} (ha : a.rejects (aloneExec c a s).1 = false) :
    Calm (aloneExec c a s).2.2 := by
  rw [aloneExec_eq] at ha ⊢
  intro e he
  rcases List.mem_append.1 he with he | he
  · exact h e he
  · rw [List.mem_singleton.1 he]
    exact ha

/-- The job in Scheduled, all else as it was. -/
def scheduledAs (x : Ctx) : Ctx :=
  { x with job := { x.job with fsm := some .scheduled, status := Status.scheduled.value } }

/-- Only the machine and the status may have moved. -/
def Moved (x y : Ctx) : Prop := ∃ st t, y = { x with job := { x.job with fsm := st, status := t } }

/-- `INIT` and `SCHEDULE`: the job reaches Scheduled, or only its machine may have moved. -/
theorem applyEvents_ends (hs : s.1 = x) (hc : Calm s.2) :
    aloneProto.wp (do Job.applyEventP .init; Job.applyEventP .schedule : JobProg Unit) (fun r s =>
      (r = .ok () ∧ s.1 = scheduledAs x ∧ Calm s.2) ∨ ((∃ e, r = .error e) ∧ Moved x s.1)) s := by
  refine Proto.wp_seq (M := fun r s => (r = .ok () ∧ Calm s.2 ∧ s.1.job.fsm = some .initializing ∧ Moved x s.1) ∨
    ((∃ e, r = .error e) ∧ s.1 = x)) ?_ (fun _ s h => ?_) (fun e s h => ?_)
  · refine Proto.wp_solo fun c _ => ?_
    have hn := hc.next c (a := .applyEvent .init)
    rw [aloneExec_eq] at hn ⊢
    obtain ⟨v, w, hv, hw, he⟩ | ⟨-, he⟩ := Ctx.exec_applyEvent { c with race := none } .init s.1
    · rw [he] at hn ⊢
      refine .inl ⟨rfl, hn rfl, ?_, some w, w.value, by rw [hs]⟩
      rw [Fsm.target_eq] at hw
      cases v <;> simp at hw ⊢
      exact hw.symm
    · rw [he]
      exact .inr ⟨⟨_, rfl⟩, hs⟩
  · obtain ⟨-, hc, hf, hm⟩ | ⟨⟨_, h⟩, -⟩ := h
    · refine Proto.wp_solo fun c _ => ?_
      have hn := hc.next c (a := .applyEvent .schedule)
      rw [aloneExec_eq] at hn ⊢
      rw [Ctx.exec_applyEvent_some _ hf (t := .scheduled) rfl] at hn ⊢
      obtain ⟨st, t, hx⟩ := hm
      exact .inl ⟨rfl, by rw [hx]; rfl, hn rfl⟩
    · cases h
  · obtain ⟨h, -⟩ | ⟨-, rfl⟩ := h
    · cases h
    · exact .inr ⟨⟨e, rfl⟩, s.1.job.fsm, s.1.job.status, rfl⟩

/-- A send alone: the job is appended, or the channel is as it was. -/
theorem exec_send_alone (c : Choice) (y : Ctx) :
    Ctx.exec { c with race := none } .send y =
        (.ok, { y with chan := { y.chan with queue := y.chan.queue ++ [y.job.ref] } }) ∨
      ∃ r, r ≠ .ok ∧ Ctx.exec { c with race := none } .send y = (r, y) := by
  simp only [Ctx.exec, Ctx.send, Channel.send]
  by_cases hstop : y.chan.stop = true
  · exact .inr ⟨.stopped, by simp, by simp [hstop]⟩
  · by_cases hfull : y.chan.full = true
    · exact .inr ⟨.full, by simp, by simp [hstop, hfull]⟩
    · exact .inl (by simp [hstop, hfull])

/-- The setup and the enqueue: the job is on its channel, or nothing but its machine has moved. -/
theorem enqueue_ends (job : Ident) (hs : s.1 = scheduledAs x) (hc : Calm s.2) :
    aloneProto.wp (do (Job.do_ .available).bind Prog.ofExcept; Job.enqueue job : JobProg Unit) (fun r s =>
      (r = .ok () ∧ Enqueued x s ∧ s.1.job.id = x.job.id ∧ Calm s.2) ∨ ((∃ e, r = .error e) ∧ Moved x s.1)) s := by
  have hmoved : ∀ s : SoloState, s.1 = scheduledAs x → Moved x s.1 := fun s hs => ⟨_, _, hs⟩
  refine Proto.wp_seq (M := fun _ s => s.1 = scheduledAs x ∧ Calm s.2) ?_ (fun _ s h => ?_)
    (fun e s h => .inr ⟨⟨e, rfl⟩, hmoved s h.1⟩)
  · refine Proto.wp_solo fun c _ => ?_
    have hn := hc.next c (a := .available) rfl
    have hsame : (aloneExec c .available s).2.1 = scheduledAs x := hs
    cases hr : (aloneExec c .available s).1 with
    | ok u => exact ⟨hsame, hn⟩
    | error e => exact ⟨hsame, hn⟩
  · obtain ⟨hs, hc⟩ := h
    refine Proto.wp_solo fun c _ => ?_
    have hn := hc.next c (a := .runningLoop) rfl
    have hsame : (aloneExec c .runningLoop s).2.1 = scheduledAs x := hs
    split
    · exact .inr ⟨⟨_, rfl⟩, hmoved _ hsame⟩
    · refine Proto.wp_solo fun c' _ => ?_
      obtain he | ⟨r, hr, he⟩ := exec_send_alone c' (aloneExec c .runningLoop s).2.1
      · have hsent := hn.next c' (a := .send)
        rw [aloneExec_eq c' .send] at hsent ⊢
        rw [he, hsame] at hsent ⊢
        exact .inl ⟨rfl, ⟨rfl, rfl, rfl⟩, rfl, hsent rfl⟩
      · rw [aloneExec_eq c' .send, he, hsame]
        cases r with
        | ok => exact absurd rfl hr
        | full => exact .inr ⟨⟨_, rfl⟩, hmoved _ rfl⟩
        | stopped => exact .inr ⟨⟨_, rfl⟩, hmoved _ rfl⟩

/-- The job on its channel, and nothing rejected. -/
structure Delivered (x : Ctx) (s : SoloState) : Prop extends Enqueued x s where
  id   : s.1.job.id = x.job.id
  calm : Calm s.2

/-- An action of a save. -/
theorem Delivered.next {a : Act} (c : Choice) (h : Delivered x s) (hq : a.movesFsm = false) (hs : a ≠ .send) (hr : a ≠ .receive)
    (hst : (aloneExec c a s).2.1.job.status = s.1.job.status) : Delivered x (aloneExec c a s).2 := by
  have hf : ∀ ws, a ≠ .fromRecord ws := by
    rintro ws rfl
    cases hq
  have hcalm : a.rejects (aloneExec c a s).1 = false := by
    cases a with
    | send => exact absurd rfl hs
    | applyEvent e => cases hq
    | _ => rfl
  have hn := h.calm.next c hcalm
  rw [aloneExec_eq] at hn hst ⊢
  refine ⟨⟨?_, (Ctx.exec_fsm _ a s.1 hq).trans h.fsm, hst.trans h.status⟩, ?_, hn⟩
  · exact (congrArg Channel.queue (Ctx.exec_chan _ a s.1 hs hr)).trans h.queue
  · exact (Ctx.exec_frame _ a s.1 hf).id.trans h.id

theorem save_delivered (h : Delivered x s) :
    aloneProto.wp Job.save (fun r s => Delivered x s ∧ (r = .ok true → ScheduledApplied x s)) s := by
  refine wp_save (P := Delivered x)
    (B := fun rec s => Delivered x s ∧ rec.id = x.job.id ∧ rec.status = Status.scheduled.value)
    (W := fun _ s => Delivered x s ∧ ScheduledApplied x s) (Proto.solo_stable _) (fun _ => Proto.solo_stable _)
    (fun _ => Proto.solo_stable _) ?_ ?_ ?_ h
  · rintro s rec s' h ⟨c, -, rfl, rfl⟩
    refine ⟨trivial, h.next c rfl (by simp) (by simp) rfl, h.id, ?_⟩
    show s.1.job.currentStatus = _
    rw [Job.currentStatus, h.fsm]
  · rintro rec s r s' ⟨h, hid, hst⟩ ⟨c, -, rfl, rfl⟩
    have hn := h.next c (a := .put rec) rfl (by simp) (by simp)
      (congrArg Job.status (Ctx.put_job s.1 rec c.fault))
    refine ⟨trivial, ?_⟩
    split
    · rename_i hr
      have hap : Act.applied (.put rec) (aloneExec c (.put rec) s).1 = some rec := by
        rw [hr]
        rfl
      exact ⟨hn, ⟨_, List.mem_append_right _ (List.mem_singleton_self _), rec, hap, hid, hst⟩⟩
    · exact ⟨hn, by simp⟩
    · exact ⟨hn, by simp⟩
  · rintro rec s r s' ⟨h, hap⟩ ⟨c, -, rfl, rfl⟩
    have hn := h.next c (a := .refresh rec.updated) rfl (by simp) (by simp) (by
      rw [aloneExec_eq]
      simp only [Ctx.exec, Ctx.refresh]
      split <;> rfl)
    have hap' : ScheduledApplied x (aloneExec c (.refresh rec.updated) s).2 := by
      obtain ⟨e, he, hrec⟩ := hap
      exact ⟨e, List.mem_append_left _ he, hrec⟩
    refine ⟨trivial, ?_⟩
    split
    · exact ⟨hn, fun _ => hap'⟩
    · exact ⟨hn, by simp⟩

/-- The saves after the send, by induction on the attempts left. -/
theorem saveScheduled_ends (job : Ident) : ∀ (n : Nat) (last : Option Exn) {s : SoloState}, Delivered x s →
    aloneProto.wp (Job.saveScheduled job n last) (fun r s =>
      Delivered x s ∧ (r = .ok () → ScheduledApplied x s)) s
  | 0, some _, _, h => ⟨h, by simp⟩
  | 0, none, _, h => ⟨h, by simp⟩
  | n + 1, last, _, h => by
    refine Proto.wp_try (save_delivered h) (fun r s h => ?_)
    match r, h with
    | .ok true, ⟨h, hap⟩ => exact ⟨h, fun _ => hap rfl⟩
    | .ok false, ⟨h, _⟩ => exact saveScheduled_ends job n last h
    | .error e, ⟨h, _⟩ => exact saveScheduled_ends job n (some e) h

/-- The rollback of the lifecycle undoes everything that happened before the enqueue. -/
theorem restoreLifecycle_undoes (e : Exn) (h : Moved x s.1) :
    aloneProto.wp (do Job.do_ (.restoreLifecycle x.job.fsm x.job.status); Prog.raise e : JobProg Unit)
      (RolledBack x) s := by
  refine Proto.wp_solo fun c _ => ⟨⟨e, rfl⟩, ?_⟩
  obtain ⟨st, t, hx⟩ := h
  rw [aloneExec_eq, hx]
  rfl

/-- How a dispatch ends. -/
def Ended (x : Ctx) (r : Except Exn Unit) (s : SoloState) : Prop :=
  (Dispatched x r s ∧ Calm s.2) ∨ (Committed x r s ∧ Calm s.2) ∨ RolledBack x r s

theorem dispatch_ends (job : Ident) : aloneProto.wp (Job.dispatch job) (Ended x) (x, []) := by
  have undo : ∀ e s, Moved x s.1 → aloneProto.wp (do
      Job.do_ (.restoreLifecycle x.job.fsm x.job.status)
      Prog.raise e : JobProg Unit) (Ended x) s := fun e s h =>
    Proto.wp_mono (fun _ _ h => .inr (.inr h)) _ _ (restoreLifecycle_undoes e h)
  refine Proto.wp_solo fun c₁ _ => Proto.wp_solo fun c₂ _ => ?_
  have hc₁ : Calm (aloneExec c₁ .fsmCurrent (x, [])).2.2 := Calm.next (s := (x, [])) (by simp [Calm]) c₁ rfl
  have hc₂ := hc₁.next c₂ (a := .status) rfl
  refine Proto.wp_try (applyEvents_ends (x := x) rfl hc₂) (fun r s h => ?_)
  obtain ⟨rfl, hs, hc⟩ | ⟨⟨e, rfl⟩, hm⟩ := h
  · refine Proto.wp_try (enqueue_ends job hs hc) (fun r s h => ?_)
    obtain ⟨rfl, hen, hid, hc⟩ | ⟨⟨e, rfl⟩, hm⟩ := h
    · refine Proto.wp_mono (fun r s h => ?_) _ _ (saveScheduled_ends job _ none ⟨hen, hid, hc⟩)
      cases r with
      | ok u => exact .inl ⟨⟨h.1.toEnqueued, rfl, h.2 rfl⟩, h.1.calm⟩
      | error e => exact .inr (.inl ⟨⟨h.1.toEnqueued, e, rfl⟩, h.1.calm⟩)
    · exact undo e s hm
  · exact undo e s hm

end

/-! ## All or nothing -/

/-- **`Job.scheduled` is all or nothing around the enqueue**: it ends in exactly one of the three ways, and a rejection
by the channel or the state machine changes nothing. -/
theorem dispatch_all_or_nothing (x : Ctx) (choices : Nat → Choice) :
    let r := (scheduledRun x choices).1
    let s := (scheduledRun x choices).2
    (Dispatched x r s ∨ Committed x r s ∨ RolledBack x r s) ∧
    ¬ (Dispatched x r s ∧ Committed x r s) ∧ ¬ (Dispatched x r s ∧ RolledBack x r s) ∧
    ¬ (Committed x r s ∧ RolledBack x r s) ∧
    ((∃ e ∈ s.2, e.act.rejects e.res = true) → RolledBack x r s) := by
  intro r s
  have hend : Ended x r s := Prog.run_of_wp _ choices (x, []) (fun _ => trivial) (dispatch_ends x.job.ident)
  have happ : Enqueued x s → ¬ s.1 = x := by
    intro h hx
    have hq := h.queue
    rw [hx] at hq
    simpa using congrArg List.length hq
  refine ⟨?_, ?_, ?_, ?_, ?_⟩
  · rcases hend with ⟨h, -⟩ | ⟨h, -⟩ | h
    · exact .inl h
    · exact .inr (.inl h)
    · exact .inr (.inr h)
  · rintro ⟨h₁, h₂⟩
    obtain ⟨e, he⟩ := h₂.raised
    rw [h₁.returned] at he
    cases he
  · rintro ⟨h₁, h₂⟩
    exact happ h₁.toEnqueued h₂.unchanged
  · rintro ⟨h₁, h₂⟩
    exact happ h₁.toEnqueued h₂.unchanged
  · rintro ⟨e, he, hr⟩
    rcases hend with ⟨-, hc⟩ | ⟨-, hc⟩ | h
    · rw [hc e he] at hr
      cases hr
    · rw [hc e he] at hr
      cases hr
    · exact h

end Pypepper
