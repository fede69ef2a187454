import Pypepper.JobRules
import Pypepper.JobSys
/-!
# DispatchRace — the dispatcher's saves against the worker's

`Dispatcher.dispatch` puts a fresh job on its channel and saves it only then, so the worker may already be processing
the same job object.  Store and channel work, nobody else writes, nobody cancels and every workflow succeeds.

The row never runs ahead of the job's machine, and the dispatcher moves the machine no more once the job is sent.  So the
worker gets through whenever the row still has its snapshot's version when it puts the RUN snapshot and the COMPLETE
snapshot (`dispatch_race_completes`).  A dispatcher's put between the building of such a snapshot and its put breaks it:
the worker then takes its own job for a failed one (`dispatcher_save_fails_run`).
-/
namespace Pypepper

open Conc (Prog Proto Sem Conf Ev Admits Extends team team_guar team_stable)

/-- Store, channel and workflows all work. -/
def allSucceed (c : Choice) : Prop := c.fault = .none ∧ c.race = none ∧ c.outcome = .ok ()

instance : DecidablePred allSucceed := fun c =>
  inferInstanceAs (Decidable (c.fault = .none ∧ c.race = none ∧ c.outcome = .ok ()))

/-- A freshly constructed job: not scheduled, not saved, and its channel open and empty. -/
structure Fresh (x : Ctx) : Prop where
  fsm     : x.job.fsm = some .unknown
  row     : x.row = none
  chanId  : x.job.channelId ≠ ""
  queue   : x.chan.queue = []
  running : x.chan.stop = false
  sync    : x.loopRunning = false

def dispatchRace (x : Ctx) : Conf Side Act Act.Res Exn Unit (Ctx × List (JobEv Side)) where
  prog
    | .dispatcher => Job.dispatch x.job.ident
    | .worker     => do
      let _ ← Worker.runOnce x.job.ident
      return ()
  state := (x, [])

def Sent (log : List (JobEv Side)) : Prop := ∃ e ∈ log, e.act.sent e.res = true

/-- The worker's RUN and COMPLETE puts find the version they were built with, or the row already Completed. -/
def PutsCurrent (_ : List (JobEv Side)) (e : JobEv Side) : Prop :=
  e.thread = .worker → ∀ rec ∈ e.act.record, rec.status = Status.inProgress.value ∨ rec.status = Status.completed.value →
    ∀ d ∈ e.pre.row, d.version = rec.version ∨ d.status = Status.completed.value

/-! ## The protocol -/

/-- The row is not ahead of the machine. -/
def RowLe (x : Ctx) : Prop := ∀ d, x.row = some d → ∃ v, x.job.fsm = some v ∧ StatusLe d.status v.value

/-- The row is there and at least at a status. -/
def RowGe (t : String) (x : Ctx) : Prop := ∃ d, x.row = some d ∧ StatusLe t d.status

structure DispatcherMove (before : List (JobEv Side)) (e : JobEv Side) : Prop where
  frame : Ctx.Frame e.pre e.post
  start : e.act.start = none
  stop  : e.post.chan.stop = e.pre.chan.stop
  queue : e.act.sent e.res = false → e.post.chan.queue = e.pre.chan.queue
  sent  : e.act.sent e.res = true → e.post.job.fsm = some .scheduled
  fsm   : Sent before → e.post.job.fsm = e.pre.job.fsm
  row   : RowLe e.pre → RowLe e.post
  up    : ∀ t, RowGe t e.pre → RowGe t e.post

structure WorkerStep (before : List (JobEv Side)) (e : JobEv Side) : Prop where
  sent  : Sent before
  frame : Ctx.Frame e.pre e.post
  fsm   : ∀ v, e.pre.job.fsm = some v → ∃ v', e.post.job.fsm = some v' ∧ StatusLe v.value v'.value

def SideMove (before : List (JobEv Side)) (e : JobEv Side) : Prop :=
  match e.thread with
  | .dispatcher => DispatcherMove before e
  | .worker     => WorkerStep before e

abbrev sideProto (i : Side) : Proto Act Act.Res (Ctx × List (JobEv Side)) :=
  team (jobSem allSucceed) PutsCurrent SideMove i

theorem Sent.append {log : List (JobEv Side)} (e : JobEv Side) (h : Sent log) : Sent (log ++ [e]) := by
  obtain ⟨x, hx, hs⟩ := h
  exact ⟨x, List.mem_append_left _ hx, hs⟩

theorem sent_append {log : List (JobEv Side)} {e : JobEv Side} :
    Sent (log ++ [e]) ↔ Sent log ∨ e.act.sent e.res = true := by
  constructor
  · rintro ⟨x, hx, hs⟩
    rcases List.mem_append.1 hx with hx | hx
    · exact .inl ⟨x, hx, hs⟩
    · rw [List.mem_singleton.1 hx] at hs
      exact .inr hs
  · rintro (h | h)
    · exact h.append e
    · exact ⟨e, by simp, h⟩

theorem rowGe_exec (c : Choice) {a : Act} {x : Ctx} (hf : ∀ ws, a ≠ .fromRecord ws) {t : String} (h : RowGe t x) :
    RowGe t (Ctx.exec c a x).2 := by
  obtain ⟨d, hd, ht⟩ := h
  obtain ⟨d', hd', hle⟩ := Ctx.exec_row_up c a x hf hd
  exact ⟨d', hd', ht.trans hle⟩

/-! ## The dispatcher -/

/-- Before the send nobody else moves. -/
structure Unsent (v : Status) (s : Ctx × List (JobEv Side)) : Prop where
  unsent  : ¬ Sent s.2
  fsm     : s.1.job.fsm = some v
  chanId  : s.1.job.channelId ≠ ""
  queue   : s.1.chan.queue = []
  running : s.1.chan.stop = false
  sync    : s.1.loopRunning = false

theorem Unsent.stable (v : Status) : (sideProto .dispatcher).Stable (Unsent v) :=
  team_stable fun s e s' he hx _ hg h => by
    cases ht : e.thread with
    | dispatcher => exact absurd ht he
    | worker =>
      unfold SideMove at hg
      rw [ht] at hg
      exact absurd hg.sent h.unsent

theorem rowLe_congr {x x' : Ctx} (hrow : x'.row = x.row) (hfsm : x'.job.fsm = x.job.fsm) (h : RowLe x) : RowLe x' := by
  unfold RowLe
  rw [hrow, hfsm]
  exact h

/-- The dispatcher's actions: on the channel it only sends, and it starts nothing. -/
structure Act.Dispatching (a : Act) : Prop where
  start    : a.start = none
  receive  : a ≠ .receive
  existing : ∀ ws, a ≠ .fromRecord ws

theorem dispatcherMove {a : Act} {s s' : Ctx × List (JobEv Side)} {r : a.Res} (ha : a.Dispatching)
    (hst : (sideProto .dispatcher).step a s r s') (hsend : a = .send → s.1.job.fsm = some .scheduled)
    (hfsm : Sent s.2 → s'.1.job.fsm = s.1.job.fsm) (hrow : RowLe s.1 → RowLe s'.1) :
    (sideProto .dispatcher).guar s s' := by
  obtain ⟨c, ⟨-, hc, -⟩, -, hr, hx⟩ := jobSem_step hst.1
  refine team_guar hst ⟨?_, ha.start, ?_, fun hns => ?_, fun hs => ?_, hfsm, hrow, fun t ht => ?_⟩
  · show Ctx.Frame s.1 s'.1
    rw [hx]
    exact Ctx.exec_frame c a s.1 ha.existing
  · rw [hx]
    by_cases h : a = .send
    · subst h
      simp only [Ctx.exec, Ctx.send, hc, Channel.send]
      split <;> [rfl; (split <;> rfl)]
    · exact congrArg Channel.stop (Ctx.exec_chan c a s.1 h ha.receive)
  · rw [hx]
    by_cases h : a = .send
    · subst h
      subst hr
      simp only [Ctx.exec, Ctx.send, hc, Channel.send] at hns ⊢
      split <;> [rfl; (split <;> [rfl; skip])]
      simp_all [Act.sent]
    · exact congrArg Channel.queue (Ctx.exec_chan c a s.1 h ha.receive)
  · have h : a = .send := by
      cases a <;> first | rfl | cases hs
    rw [hx]
    exact (Ctx.exec_fsm c a s.1 (by rw [h]; rfl)).trans (hsend h)
  · show RowGe t s'.1
    rw [hx]
    exact rowGe_exec c ha.existing ht

theorem dispatcher_passive {a : Act} {s s' : Ctx × List (JobEv Side)} {r : a.Res}
    (hst : (sideProto .dispatcher).step a s r s') (ha : a.passive = true) :
    (sideProto .dispatcher).guar s s' ∧ Ctx.Same s.1 s'.1 := by
  obtain ⟨c, -, -, -, hx⟩ := jobSem_step hst.1
  have hsame : Ctx.Same s.1 s'.1 := by rw [hx]; exact Ctx.exec_passive c s.1 ha
  refine ⟨dispatcherMove ⟨?_, ?_, ?_⟩ hst ?_ (fun _ => hsame.fsm) (rowLe_congr hsame.row hsame.fsm), hsame⟩
  · cases a <;> first | rfl | cases ha
  · rintro rfl; cases ha
  · rintro ws rfl; cases ha
  · rintro rfl; cases ha

/-- After the send the dispatcher only saves, at whatever state the worker has brought the machine to. -/
def Saving (s : Ctx × List (JobEv Side)) : Prop := Sent s.2 ∧ ∃ v, s.1.job.fsm = some v

/-- A built record is not ahead of the machine. -/
def Behind (rec : JobRecord) (x : Ctx) : Prop :=
  rec.id = x.job.id ∧ ∃ v, x.job.fsm = some v ∧ StatusLe rec.status v.value

theorem Saving.stable : (sideProto .dispatcher).Stable Saving :=
  team_stable fun s e s' he hx _ hg h => by
    cases ht : e.thread with
    | dispatcher => exact absurd ht he
    | worker =>
      unfold SideMove at hg
      rw [ht] at hg
      obtain ⟨hs, v, hv⟩ := h
      obtain ⟨v', hv', -⟩ := hg.fsm v (by rw [hx.pre]; exact hv)
      exact ⟨by rw [hx.log]; exact hs.append e, v', by rw [← hx.post]; exact hv'⟩

theorem behind_stable (rec : JobRecord) : (sideProto .dispatcher).Stable (fun s => Saving s ∧ Behind rec s.1) := by
  refine Saving.stable.and (team_stable fun s e s' he hx _ hg h => ?_)
  cases ht : e.thread with
  | dispatcher => exact absurd ht he
  | worker =>
    unfold SideMove at hg
    rw [ht] at hg
    obtain ⟨hid, v, hv, hle⟩ := h
    obtain ⟨v', hv', hup⟩ := hg.fsm v (by rw [hx.pre]; exact hv)
    exact ⟨by rw [← hx.post, hg.frame.id, hx.pre]; exact hid, v', by rw [← hx.post]; exact hv', hle.trans hup⟩

/-- A put of a record behind the machine leaves the row behind it. -/
theorem rowLe_put {x : Ctx} {rec : JobRecord} (hb : Behind rec x) (h : RowLe x) :
    RowLe { x with store := (x.store.put rec).2 } := by
  obtain ⟨hid, v, hv, hle⟩ := hb
  intro d hd
  have hd : (x.store.put rec).2.get x.job.id = some d := hd
  obtain ⟨-, hp⟩ | ⟨e, -, -, hp⟩ | ⟨e, -, -, hp⟩ := InMemoryJobStore.put_cases x.store rec
  · rw [hp, ← hid, InMemoryJobStore.get_setRow_self] at hd
    obtain rfl := Option.some.inj hd
    exact ⟨v, hv, hle⟩
  · rw [hp, ← hid, show rec.id = (InMemoryJobStore.updated e rec).id from rfl, InMemoryJobStore.get_setRow_self] at hd
    obtain rfl := Option.some.inj hd
    exact ⟨v, hv, hle⟩
  · rw [hp] at hd
    exact h d hd

theorem dispatcher_save : (sideProto .dispatcher).Keeps Saving Job.save := by
  intro s hs
  refine wp_save (P := Saving) (B := fun rec s => Saving s ∧ Behind rec s.1) (W := fun _ => Saving) Saving.stable
    behind_stable (fun _ => Saving.stable) ?_ ?_ ?_ hs
  · rintro s rec s' ⟨hsent, v, hv⟩ hst
    obtain ⟨c, -, -, hr, hx⟩ := jobSem_step hst.1
    have hx : s'.1 = s.1 := hx
    refine ⟨(dispatcher_passive hst rfl).1,
      ⟨by rw [hst.2.1]; exact hsent.append _, v, by rw [hx]; exact hv⟩, ?_, v, by rw [hx]; exact hv, ?_⟩
    · rw [hr, hx]; rfl
    · rw [hr, ← Job.currentStatus_of_fsm hv]
      exact .refl _
  · rintro rec s r s' ⟨⟨hsent, v, hv⟩, hb⟩ hst
    obtain ⟨c, ⟨hc, -, -⟩, -, hr, hx⟩ := jobSem_step hst.1
    rw [Ctx.exec_put_healthy c rec s.1 hc] at hr hx
    have hfsm : s'.1.job.fsm = s.1.job.fsm := by rw [hx]
    have hnext : Saving s' := ⟨by rw [hst.2.1]; exact hsent.append _, v, by rw [hx]; exact hv⟩
    refine ⟨dispatcherMove ⟨rfl, by simp, by simp⟩ hst (by simp) (fun _ => hfsm) (fun h => ?_), ?_⟩
    · rw [hx]; exact rowLe_put hb h
    · match r with
      | .ok true => exact hnext
      | .ok false => exact hnext
      | .error e => exact hnext
  · rintro rec s r s' ⟨hsent, v, hv⟩ hst
    obtain ⟨hg, hsame⟩ := dispatcher_passive hst rfl
    have hnext : Saving s' := ⟨by rw [hst.2.1]; exact hsent.append _, v, hsame.fsm.trans hv⟩
    refine ⟨hg, ?_⟩
    cases r with
    | ok u => exact hnext
    | error e => exact hnext

theorem saveScheduled_keeps (job : Ident) : ∀ n last, (sideProto .dispatcher).Keeps Saving (Job.saveScheduled job n last)
  | 0, some e => .raise e
  | 0, none => .raise _
  | n + 1, last => dispatcher_save.attempt.bind fun
    | .ok true => .ret ()
    | .ok false => saveScheduled_keeps job n last
    | .error e => saveScheduled_keeps job n (some e)

theorem Unsent.next {v v' : Status} {a : Act} {s s' : Ctx × List (JobEv Side)} {r : a.Res} (h : Unsent v s)
    (hst : (sideProto .dispatcher).step a s r s') (hs : a ≠ .send) (hr : a ≠ .receive) (hb : ∀ ws, a ≠ .fromRecord ws)
    (hfsm : s'.1.job.fsm = some v') : Unsent v' s' := by
  obtain ⟨c, -, -, -, hx⟩ := jobSem_step hst.1
  have hchan : s'.1.chan = s.1.chan := by rw [hx]; exact Ctx.exec_chan c a s.1 hs hr
  have hframe : Ctx.Frame s.1 s'.1 := by rw [hx]; exact Ctx.exec_frame c a s.1 hb
  refine ⟨fun hsent => ?_, hfsm, hframe.channelId ▸ h.chanId, by rw [hchan]; exact h.queue,
    by rw [hchan]; exact h.running, hframe.sync.trans h.sync⟩
  rw [hst.2.1, sent_append] at hsent
  rcases hsent with hsent | hsent
  · exact h.unsent hsent
  · cases a <;> first | exact absurd rfl hs | cases hsent

theorem Unsent.passive {v : Status} {a : Act} {s s' : Ctx × List (JobEv Side)} {r : a.Res} (h : Unsent v s)
    (hst : (sideProto .dispatcher).step a s r s') (ha : a.passive = true) :
    (sideProto .dispatcher).guar s s' ∧ Unsent v s' := by
  obtain ⟨hg, hsame⟩ := dispatcher_passive hst ha
  refine ⟨hg, h.next hst ?_ ?_ ?_ (hsame.fsm.trans h.fsm)⟩
  · rintro rfl; cases ha
  · rintro rfl; cases ha
  · rintro ws rfl; cases ha

theorem Unsent.event {e : Event} {v t : Status} (ht : Fsm.target e v = some t) {s : Ctx × List (JobEv Side)}
    (h : Unsent v s) : (sideProto .dispatcher).wp (Job.applyEventP e) (fun r s => r = .ok () ∧ Unsent t s) s := by
  refine Proto.wp_act (Unsent.stable v) h (fun s₁ r s₂ h₁ hst => ?_)
  obtain ⟨c, -, -, hr, hx⟩ := jobSem_step hst.1
  rw [Ctx.exec_applyEvent_some c h₁.fsm ht] at hr hx
  subst hr
  have hnext : Unsent t s₂ := h₁.next hst (by simp) (by simp) (by simp) (by rw [hx])
  refine ⟨dispatcherMove ⟨rfl, by simp, by simp⟩ hst (by simp) (fun hs => absurd hs h₁.unsent) (fun hle => ?_), rfl, hnext⟩
  intro d hd
  obtain ⟨w, hw, hle⟩ := hle d (by rw [hx] at hd; exact hd)
  obtain rfl := Option.some.inj (hw.symm.trans h₁.fsm)
  exact ⟨t, hnext.fsm, hle.trans (statusLe_value.2 (.inr (Fsm.rank_lt_of_target ht)))⟩

theorem unsent_call {v : Status} {α : Type} {a : Act} (ha : a.passive = true) {f : a.Res → JobProg α}
    {Q : Except Exn α → _ → Prop} {s : Ctx × List (JobEv Side)} (h : Unsent v s)
    (hk : ∀ c s₁ s₂, Unsent v s₁ → Unsent v s₂ → (sideProto .dispatcher).wp (f (Ctx.exec c a s₁.1).1) Q s₂) :
    (sideProto .dispatcher).wp (Prog.call a >>= f) Q s :=
  Proto.wp_call (Unsent.stable v) h fun s₁ r s₂ h₁ hst => by
    obtain ⟨c, -, -, rfl, -⟩ := jobSem_step hst.1
    obtain ⟨hg, h₂⟩ := h₁.passive hst ha
    exact ⟨hg, hk c s₁ s₂ h₁ h₂⟩

theorem enqueue_sends (job : Ident) {s : Ctx × List (JobEv Side)} (h : Unsent .scheduled s) :
    (sideProto .dispatcher).wp (Job.enqueue job) (fun r s => r = .ok () ∧ Saving s) s := by
  refine unsent_call (by rfl) h (fun c s₁ s h₁ h => ?_)
  have hloop : (Ctx.exec c .runningLoop s₁.1).1 = false := h₁.sync
  rw [hloop]
  refine Proto.wp_call (Unsent.stable .scheduled) h (fun s₁ r s₂ h₁ hst => ?_)
  obtain ⟨c, ⟨-, hc, -⟩, -, hr, hx⟩ := jobSem_step hst.1
  have hsend : Ctx.exec c .send s₁.1 = (.ok, { s₁.1 with chan := { s₁.1.chan with queue := [s₁.1.job.ref] } }) := by
    simp only [Ctx.exec, Ctx.send, hc, Channel.send_empty _ _ h₁.queue h₁.running]
  rw [hsend] at hr hx
  subst hr
  refine ⟨dispatcherMove ⟨rfl, by simp, by simp⟩ hst (fun _ => h₁.fsm) (fun _ => by rw [hx]) (fun hle => ?_), rfl, ?_, ?_⟩
  · rw [hx]; exact hle
  · rw [hst.2.1, sent_append]; exact .inr rfl
  · exact ⟨.scheduled, by rw [hx]; exact h₁.fsm⟩

/-- **The dispatcher keeps its side**: it schedules and sends before the worker can move, and then only saves. -/
theorem dispatch_keeps (job : Ident) {s : Ctx × List (JobEv Side)} (h : Unsent .unknown s) :
    (sideProto .dispatcher).wp (Job.dispatch job) (fun _ _ => True) s := by
  refine unsent_call (by rfl) h (fun _ _ s _ h => unsent_call (by rfl) h (fun _ _ s _ h => ?_))
  have hevents : (sideProto .dispatcher).wp (do Job.applyEventP .init; Job.applyEventP .schedule)
      (fun r s => r = .ok () ∧ Unsent .scheduled s) s :=
    Proto.wp_seq (h.event (e := .init) rfl) (fun _ s h => h.2.event (e := .schedule) rfl) (fun _ _ h => by cases h.1)
  refine Proto.wp_try hevents (fun r s h => ?_)
  obtain ⟨rfl, h⟩ := h
  refine Proto.wp_try (M := fun r s => r = .ok () ∧ Saving s) ?_ (fun r s h => ?_)
  · refine Proto.wp_seq (M := fun r s => r = .ok () ∧ Unsent .scheduled s) ?_ (fun _ s h => enqueue_sends job h.2)
      (fun _ _ h => by cases h.1)
    refine unsent_call (by rfl) h (fun c s₁ s h₁ h => ?_)
    have havail : (Ctx.exec c .available s₁.1).1 = .ok () := by simp [Ctx.exec, h₁.chanId]
    rw [havail]
    exact ⟨rfl, h⟩
  · obtain ⟨rfl, h⟩ := h
    exact Proto.wp_mono (fun _ _ _ => trivial) _ _ (saveScheduled_keeps job Job.dispatchSaveAttempts none s h)

/-! ## The worker -/

/-- The worker's hold on the job: it is sent, only the worker moves it, and so many workflows were started. -/
structure Ready (v : Status) (n k : Nat) (s : Ctx × List (JobEv Side)) : Prop where
  sent   : Sent s.2
  fsm    : s.1.job.fsm = some v
  row    : RowLe s.1
  starts : starts s.2 = List.range k
  count  : s.1.job.workflows.length = n

theorem Ready.stable (v : Status) (n k : Nat) : (sideProto .worker).Stable (Ready v n k) :=
  team_stable fun s e s' he hx _ hg h => by
    cases ht : e.thread with
    | worker => exact absurd ht he
    | dispatcher =>
      unfold SideMove at hg
      rw [ht] at hg
      refine ⟨by rw [hx.log]; exact h.sent.append e, ?_, ?_, ?_, ?_⟩
      · rw [← hx.post, hg.fsm h.sent, hx.pre]; exact h.fsm
      · rw [← hx.post]; exact hg.row (by rw [hx.pre]; exact h.row)
      · rw [hx.log, starts_append, hg.start, h.starts]; simp
      · rw [← hx.post, hg.frame.workflows, hx.pre]; exact h.count

theorem rowGe_stable (t : String) : (sideProto .worker).Stable (fun s => RowGe t s.1) :=
  team_stable fun s e s' he hx _ hg h => by
    cases ht : e.thread with
    | worker => exact absurd ht he
    | dispatcher =>
      unfold SideMove at hg
      rw [ht] at hg
      rw [← hx.post]
      exact hg.up t (by rw [hx.pre]; exact h)

/-- One worker's action, which leaves the machine where it is or moves it up. -/
theorem Ready.next {v v' : Status} {n k k' : Nat} {a : Act} {s s' : Ctx × List (JobEv Side)} {r : a.Res}
    (h : Ready v n k s) (hst : (sideProto .worker).step a s r s') (hb : ∀ ws, a ≠ .fromRecord ws)
    (hk : List.range k ++ a.start.toList = List.range k') (hfsm : s'.1.job.fsm = some v')
    (hup : StatusLe v.value v'.value) (hrow : RowLe s'.1) : (sideProto .worker).guar s s' ∧ Ready v' n k' s' := by
  obtain ⟨c, -, -, -, hx⟩ := jobSem_step hst.1
  have hframe : Ctx.Frame s.1 s'.1 := by rw [hx]; exact Ctx.exec_frame c a s.1 hb
  refine ⟨team_guar hst ⟨h.sent, hframe, fun w hw => ?_⟩, ?_, hfsm, hrow, ?_, hframe.workflows.trans h.count⟩
  · obtain rfl := Option.some.inj (h.fsm.symm.trans hw)
    exact ⟨v', hfsm, hup⟩
  · rw [hst.2.1]; exact h.sent.append _
  · rw [hst.2.1, starts_append, h.starts, hk]

theorem Ready.passive {v : Status} {n k : Nat} {a : Act} {s s' : Ctx × List (JobEv Side)} {r : a.Res}
    (h : Ready v n k s) (hst : (sideProto .worker).step a s r s') (ha : a.passive = true) :
    (sideProto .worker).guar s s' ∧ Ready v n k s' := by
  obtain ⟨c, -, -, -, hx⟩ := jobSem_step hst.1
  have hsame : Ctx.Same s.1 s'.1 := by rw [hx]; exact Ctx.exec_passive c s.1 ha
  have hstart : a.start = none := by cases a <;> first | rfl | cases ha
  refine h.next hst ?_ (by simp [hstart]) (hsame.fsm.trans h.fsm) (.refl _) (rowLe_congr hsame.row hsame.fsm h.row)
  rintro ws rfl
  cases ha

theorem ready_call {v : Status} {n k : Nat} {α : Type} {a : Act} (ha : a.passive = true) {f : a.Res → JobProg α}
    {Q : Except Exn α → _ → Prop} {s : Ctx × List (JobEv Side)} (h : Ready v n k s)
    (hk : ∀ c s₁ s₂, allSucceed c → Ready v n k s₁ → Ready v n k s₂ → s₂.1 = (Ctx.exec c a s₁.1).2 →
      (sideProto .worker).wp (f (Ctx.exec c a s₁.1).1) Q s₂) : (sideProto .worker).wp (Prog.call a >>= f) Q s :=
  Proto.wp_call (Ready.stable v n k) h fun s₁ r s₂ h₁ hst => by
    obtain ⟨c, hc, -, rfl, hx⟩ := jobSem_step hst.1
    obtain ⟨hg, h₂⟩ := h₁.passive hst ha
    exact ⟨hg, hk c s₁ s₂ hc h₁ h₂ hx⟩

theorem Ready.event {e : Event} {v t : Status} {n k : Nat} (ht : Fsm.target e v = some t)
    {s : Ctx × List (JobEv Side)} (h : Ready v n k s) :
    (sideProto .worker).wp (Job.applyEventP e) (fun r s => r = .ok () ∧ Ready t n k s) s := by
  refine Proto.wp_act (Ready.stable v n k) h (fun s₁ r s₂ h₁ hst => ?_)
  obtain ⟨c, -, -, hr, hx⟩ := jobSem_step hst.1
  rw [Ctx.exec_applyEvent_some c h₁.fsm ht] at hr hx
  subst hr
  have hup : StatusLe v.value t.value := statusLe_value.2 (.inr (Fsm.rank_lt_of_target ht))
  have hfsm : s₂.1.job.fsm = some t := by rw [hx]
  obtain ⟨hg, h₂⟩ := h₁.next hst (by simp) (List.append_nil _) hfsm hup (fun d hd => by
    obtain ⟨w, hw, hle⟩ := h₁.row d (by rw [hx] at hd; exact hd)
    obtain rfl := Option.some.inj (hw.symm.trans h₁.fsm)
    exact ⟨t, hfsm, hle.trans hup⟩)
  exact ⟨hg, rfl, h₂⟩

/-- **A save of the worker**: it answers, leaves a row, and under the condition the RUN snapshot is written and the
COMPLETE snapshot is in the row. -/
theorem worker_save {v : Status} {n k : Nat} {s : Ctx × List (JobEv Side)} (h : Ready v n k s) :
    (sideProto .worker).wp Job.save (fun r s => Ready v n k s ∧ ∃ b, r = .ok b ∧ (∃ t, RowGe t s.1) ∧
      (v = .inProgress → b = true) ∧ (v = .completed → RowGe Status.completed.value s.1)) s := by
  refine wp_save (P := Ready v n k) (B := fun rec s => Ready v n k s ∧ rec.status = v.value ∧ rec.id = s.1.job.id)
    (W := fun rec s => Ready v n k s ∧ RowGe v.value s.1) (Ready.stable v n k) (fun rec => ?_)
    (fun _ => (Ready.stable v n k).and (rowGe_stable v.value)) ?_ ?_ ?_ h
  · refine (Ready.stable v n k).and (team_stable fun s e s' he hx _ hg h => ?_)
    cases ht : e.thread with
    | worker => exact absurd ht he
    | dispatcher =>
      unfold SideMove at hg
      rw [ht] at hg
      rw [← hx.post, hg.frame.id, hx.pre]
      exact h
  · intro s rec s' h hst
    obtain ⟨hg, h'⟩ := h.passive hst rfl
    obtain ⟨c, -, -, hr, hx⟩ := jobSem_step hst.1
    refine ⟨hg, h', ?_, ?_⟩
    · rw [hr]
      exact Job.currentStatus_of_fsm h.fsm
    · rw [hr, hx]; rfl
  · rintro rec s r s' ⟨h, hstatus, hid⟩ hst
    obtain ⟨c, ⟨hc, -, -⟩, -, hr, hx⟩ := jobSem_step hst.1
    have hbehind : Behind rec s.1 := ⟨hid, v, h.fsm, by rw [hstatus]; exact .refl _⟩
    have hput : s'.1 = { s.1 with store := (s.1.store.put rec).2 } := by rw [hx, Ctx.exec_put_healthy c rec s.1 hc]
    obtain ⟨hg, h'⟩ := h.next hst (by simp) (List.append_nil _) (by rw [hput]; exact h.fsm) (.refl _)
      (by rw [hput]; exact rowLe_put hbehind h.row)
    refine ⟨hg, ?_⟩
    obtain ⟨st, d, hex, hd, hds, -⟩ | ⟨d, hrow, hw, hex⟩ := Ctx.exec_put_own c hc hid
    · rw [hex] at hr hx
      subst hr
      refine ⟨h', d, ?_, by rw [hds, hstatus]; exact .refl _⟩
      rw [hx]
      exact hd
    · -- refused: the row is not ahead of the machine, so under the condition it is the Completed one
      rw [hex] at hr hx
      subst hr
      have hrow' : s'.1.row = some d := by rw [hx]; exact hrow
      obtain ⟨w, hw', hle⟩ := h.row d hrow
      obtain rfl := Option.some.inj (h.fsm.symm.trans hw')
      have hdone : v = .inProgress ∨ v = .completed → d.status = Status.completed.value := fun hv =>
        (hst.2.2 rfl rec rfl (by rw [hstatus]; simpa using hv) d hrow).resolve_left
          (fun hver => hw ⟨by rw [hstatus]; exact hle, hver⟩)
      refine ⟨h', false, rfl, ⟨d.status, d, hrow', .refl _⟩, fun hv => ?_, fun hv => ?_⟩
      · rw [hdone (.inl hv), hv, statusLe_value] at hle
        simp [Status.rank] at hle
      · exact ⟨d, hrow', by rw [hdone (.inr hv)]; exact .refl _⟩
  · rintro rec s r s' ⟨h, hge⟩ hst
    obtain ⟨hg, h'⟩ := h.passive hst rfl
    obtain ⟨c, ⟨hc, -, -⟩, -, hr, hx⟩ := jobSem_step hst.1
    have hge' : RowGe v.value s'.1 := by rw [hx]; exact rowGe_exec c (by simp) hge
    obtain ⟨d, hd, -⟩ := hge
    rw [Ctx.exec_refresh_some c _ s.1 (by rw [hc]; simp) hd] at hr
    subst hr
    exact ⟨hg, h', true, rfl, ⟨_, hge'⟩, fun _ => rfl, fun hv => hv ▸ hge'⟩

theorem worker_getSaved {v : Status} {n k : Nat} {s : Ctx × List (JobEv Side)} (h : Ready v n k s) :
    (sideProto .worker).wp Job.getSaved (fun r s => Ready v n k s ∧ r = .ok s.1.row) s := by
  refine ready_call (by rfl) h (fun c s₁ s₂ hc _ h₂ hx => ?_)
  rw [Ctx.exec_getSaved_healthy c s₁.1 hc.1]
  exact ⟨h₂, by rw [hx]; rfl⟩

theorem not_cancelled {v : Status} {n k : Nat} {s : Ctx × List (JobEv Side)} (h : Ready v n k s) (hv : v ≠ .cancelled)
    (c : Choice) : (Ctx.exec c .isCancelled s.1).1 = false := by
  have hiff := Job.isCancelled_iff s.1.job
  rw [h.fsm, Option.some.injEq] at hiff
  exact Bool.eq_false_iff.2 (fun hc => hv (hiff.1 hc))

theorem Ready.heal {n k : Nat} {s : Ctx × List (JobEv Side)} (job : Ident) (h : Ready .scheduled n k s) :
    (sideProto .worker).wp (Worker.heal job) (fun r s => r = .ok () ∧ Ready .scheduled n k s) s := by
  refine Proto.wp_seq (worker_getSaved h) (fun row s h => ?_) (fun _ _ h => by cases h.2)
  split
  · refine Proto.wp_seq (worker_save h.1) (fun b s h => ?_) (fun _ _ h => by obtain ⟨-, _, h, -⟩ := h; cases h)
    obtain ⟨h, -, -, ⟨t, hrow⟩, -⟩ := h
    split
    · exact ⟨rfl, h⟩
    · -- a refused save means that the dispatcher's row is there
      have hst : (sideProto .worker).Stable (fun s => Ready .scheduled n k s ∧ RowGe t s.1) :=
        (Ready.stable _ n k).and (rowGe_stable t)
      refine Proto.wp_seq (M := fun r s => r = .ok s.1.row ∧ Ready .scheduled n k s ∧ RowGe t s.1) ?_ (fun r s h => ?_)
        (fun _ _ h => by cases h.1)
      · refine Proto.wp_call hst ⟨h, hrow⟩ (fun s₁ r s₂ h₁ hstep => ?_)
        obtain ⟨hg, h₂⟩ := h₁.1.passive hstep rfl
        obtain ⟨c, ⟨hc, -, -⟩, -, rfl, hx⟩ := jobSem_step hstep.1
        have hx : s₂.1 = s₁.1 := hx
        rw [Ctx.exec_getSaved_healthy c s₁.1 hc]
        exact ⟨hg, by rw [hx], h₂, by rw [hx]; exact h₁.2⟩
      · obtain ⟨hr, h, d, hd, -⟩ := h
        obtain rfl := Except.ok.inj hr
        rw [hd]
        exact ⟨rfl, h⟩
  · exact ⟨rfl, h.1⟩

theorem Ready.runWorkflows {n : Nat} : ∀ (ws : List Workflow) (k : Nat) {s : Ctx × List (JobEv Side)},
    k + ws.length = n → Ready .inProgress n k s →
      (sideProto .worker).wp (Worker.runWorkflows ws k) (fun r s => r = .ok false ∧ Ready .inProgress n n s) s
  | [], k, _, hk, h => ⟨rfl, by obtain rfl : k = n := hk; exact h⟩
  | _ :: ws, k, s, hk, h => by
    refine ready_call (by rfl) h (fun c s₁ s₂ _ h₁ h₂ _ => ?_)
    rw [not_cancelled h₁ (by simp) c]
    refine Proto.wp_call (Ready.stable _ n k) h₂ (fun s₁ r s₂ h₁ hst => ?_)
    obtain ⟨c, -, -, -, hx⟩ := jobSem_step hst.1
    have hx : s₂.1 = s₁.1 := hx
    obtain ⟨hg, h₂⟩ := h₁.next hst (by simp) List.range_succ.symm (by rw [hx]; exact h₁.fsm) (.refl _)
      (by rw [hx]; exact h₁.row)
    refine ⟨hg, ?_⟩
    refine Proto.wp_seq (M := fun r s => r = .ok () ∧ Ready .inProgress n (k + 1) s) ?_ (fun _ s h => ?_)
      (fun _ _ h => by cases h.1)
    · refine ready_call (by rfl) h₂ (fun c s₁ s₂ hc _ h₂ _ => ?_)
      have hout : (Ctx.exec c (.endWorkflow k) s₁.1).1 = .ok () := toThread_eq_ok.2 hc.2.2
      rw [hout]
      exact ⟨rfl, h₂⟩
    · exact Ready.runWorkflows ws (k + 1) (by simp only [List.length_cons] at hk; omega) h.2

theorem Ready.execute {n : Nat} {s : Ctx × List (JobEv Side)} (h : Ready .inProgress n 0 s) :
    (sideProto .worker).wp Worker.execute
      (fun _ s => Ready .completed n n s ∧ RowGe Status.completed.value s.1) s := by
  refine Proto.wp_try (M := fun r s => r = .ok false ∧ Ready .inProgress n n s) ?_ (fun r s h => ?_)
  · refine ready_call (by rfl) h (fun c s₁ s₂ _ h₁ h₂ _ => ?_)
    refine ready_call (by rfl) h₂ (fun _ _ s₂ _ _ h₂ _ => ?_)
    exact Ready.runWorkflows _ 0 ((Nat.zero_add _).trans h₁.count) h₂
  · obtain ⟨rfl, h⟩ := h
    refine ready_call (by rfl) h (fun c s₁ s₂ _ h₁ h₂ _ => ?_)
    rw [not_cancelled h₁ (by simp) c]
    refine Proto.wp_seq (h₂.event (e := .complete) rfl) (fun _ s h => ?_) (fun _ _ h => by cases h.1)
    refine Proto.wp_seq (worker_save h.2) (fun b s h => ?_) (fun _ _ h => by obtain ⟨-, _, h, -⟩ := h; cases h)
    obtain ⟨h, -, -, -, -, hrow⟩ := h
    exact ⟨h, hrow rfl⟩

theorem Ready.process {n : Nat} {s : Ctx × List (JobEv Side)} (job : Ident) (h : Ready .scheduled n 0 s) :
    (sideProto .worker).wp (Worker.process job)
      (fun _ s => Ready .completed n n s ∧ RowGe Status.completed.value s.1) s := by
  refine ready_call (by rfl) h (fun c s₁ s₂ _ h₁ h₂ _ => ?_)
  rw [not_cancelled h₁ (by simp) c]
  refine ready_call (by rfl) h₂ (fun _ _ s₂ _ _ h₂ _ => ready_call (by rfl) h₂ (fun _ _ s₂ _ _ h₂ _ => ?_))
  refine Proto.wp_try (h₂.heal job) (fun r s h => ?_)
  obtain ⟨rfl, h⟩ := h
  refine Proto.wp_seq (h.event (e := .run) rfl) (fun _ s h => ?_) (fun _ _ h => by cases h.1)
  refine Proto.wp_try (worker_save h.2) (fun r s h => ?_)
  obtain ⟨h, b, rfl, -, hb, -⟩ := h
  obtain rfl := hb rfl
  exact h.execute

/-! ## Every run -/

/-- While the worker waits, a job on the channel has been sent. -/
structure Waiting (n : Nat) (s : Ctx × List (JobEv Side)) : Prop where
  queue   : s.1.chan.queue ≠ [] → Sent s.2
  running : s.1.chan.stop = false
  fsm     : Sent s.2 → s.1.job.fsm = some .scheduled
  row     : RowLe s.1
  starts  : starts s.2 = []
  count   : s.1.job.workflows.length = n

theorem Waiting.stable (n : Nat) : (sideProto .worker).Stable (Waiting n) :=
  team_stable fun s e s' he hx _ hg h => by
    cases ht : e.thread with
    | worker => exact absurd ht he
    | dispatcher =>
      unfold SideMove at hg
      rw [ht] at hg
      refine ⟨fun hq => ?_, ?_, fun hs => ?_, ?_, ?_, ?_⟩
      · rw [hx.log, sent_append]
        cases hsent : e.act.sent e.res with
        | true => exact .inr rfl
        | false =>
          rw [← hx.post, hg.queue hsent, hx.pre] at hq
          exact .inl (h.queue hq)
      · rw [← hx.post, hg.stop, hx.pre]; exact h.running
      · rw [← hx.post]
        rw [hx.log, sent_append] at hs
        rcases hs with hs | hs
        · rw [hg.fsm hs, hx.pre]; exact h.fsm hs
        · exact hg.sent hs
      · rw [← hx.post]; exact hg.row (by rw [hx.pre]; exact h.row)
      · rw [hx.log, starts_append, hg.start, h.starts]; rfl
      · rw [← hx.post, hg.frame.workflows, hx.pre]; exact h.count

theorem runOnce_completes {n : Nat} {s : Ctx × List (JobEv Side)} (job : Ident) (h : Waiting n s) :
    (sideProto .worker).wp (Worker.runOnce job)
      (fun _ s => Ready .completed n n s ∧ RowGe Status.completed.value s.1) s := by
  refine Proto.wp_call (Waiting.stable n) h (fun s₁ r s₂ h₁ hst => ?_)
  obtain ⟨c, -, hb, hr, hx⟩ := jobSem_step hst.1
  have hq : s₁.1.chan.queue ≠ [] := by
    intro hq
    simp [Ctx.blocked, hq, h₁.running] at hb
  obtain ⟨j, rest, hj⟩ := List.exists_cons_of_ne_nil hq
  have hr : r = some j := by rw [hr]; simp [Ctx.exec, hj]
  subst hr
  have hsent := h₁.queue hq
  have h₀ : Ready .scheduled n 0 s₁ := ⟨hsent, h₁.fsm hsent, h₁.row, h₁.starts, h₁.count⟩
  obtain ⟨hg, h₂⟩ := h₀.next hst (by simp) (List.append_nil _) (by rw [hx]; exact h₀.fsm) (.refl _) (by rw [hx]; exact h₀.row)
  exact ⟨hg, Proto.wp_seq (h₂.process job) (fun _ _ h => h) (fun _ _ h => h)⟩

/-- **A dispatched job gets through**: in every run in which the worker's RUN and COMPLETE puts find the version they
were built with, or the row already Completed, once the worker is done every workflow was started exactly once, in
order, and both the job and its row are Completed. -/
theorem dispatch_race_completes (x : Ctx) (hx : Fresh x)
    {c : Conf Side Act Act.Res Exn Unit (Ctx × List (JobEv Side))}
    (hrun : Conf.Runs ((jobSem allSucceed).logged (fun _ _ => True)) (dispatchRace x) c)
    (hdone : (c.prog .worker).finished.isSome) (hcur : Admits PutsCurrent c.state.2) :
    starts c.state.2 = List.range x.job.workflows.length ∧ c.state.1.job.fsm = some .completed ∧
      ∃ d, c.state.1.row = some d ∧ d.status = Status.completed.value := by
  let post : Side → Except Exn Unit → Ctx × List (JobEv Side) → Prop := fun i _ s =>
    i = .worker → Ready .completed x.job.workflows.length x.job.workflows.length s ∧ RowGe Status.completed.value s.1
  have hunsent : ¬ Sent ([] : List (JobEv Side)) := fun ⟨_, h, _⟩ => nomatch h
  have hwp : ∀ i, (sideProto i).wp ((dispatchRace x).prog i) (post i) (dispatchRace x).state
    | .dispatcher => by
      refine Proto.wp_mono (fun _ _ _ h => by cases h) _ _ (dispatch_keeps x.job.ident ?_)
      exact ⟨hunsent, hx.fsm, hx.chanId, hx.queue, hx.running, hx.sync⟩
    | .worker => by
      have hwait : Waiting x.job.workflows.length (x, ([] : List (JobEv Side))) :=
        ⟨fun h => absurd hx.queue h, hx.running, fun h => absurd h hunsent, (fun d hd => by rw [hx.row] at hd; cases hd),
          rfl, rfl⟩
      exact Proto.wp_seq (runOnce_completes x.job.ident hwait) (fun _ _ h _ => h) (fun _ _ h _ => h)
  obtain ⟨r, hret⟩ := Option.isSome_iff_exists.1 hdone
  have hstable : (sideProto .worker).Stable (post .worker r) := fun s s' hr h _ =>
    ((Ready.stable _ _ _).and (rowGe_stable _)) s s' hr (h rfl)
  obtain ⟨hready, d, hd, hle⟩ :=
    ((Conf.Held.init hwp).runs Conc.team_compat (hrun.restrict hcur)).post hret hstable rfl
  exact ⟨hready.starts, hready.fsm, d, hd, hle.of_terminal (by decide)⟩

instance (before : List (JobEv Side)) (e : JobEv Side) : Decidable (PutsCurrent before e) :=
  inferInstanceAs (Decidable (e.thread = .worker → ∀ rec ∈ e.act.record, _ ∨ _ → ∀ d ∈ e.pre.row, _ ∨ _))

def freshCtx : Ctx where
  job   := { ref := 0, id := "j", workflows := [⟨[]⟩, ⟨[]⟩] }
  chan  := ⟨[], 0, false⟩
  store := InMemoryJobStore.empty

theorem freshCtx_fresh : Fresh freshCtx := ⟨rfl, rfl, by decide, rfl, rfl, rfl⟩

/-- The worker runs while the dispatcher's save is between its put and its refresh. -/
theorem dispatch_race_completes_run : ∃ c, Conf.Runs ((jobSem allSucceed).logged (fun _ _ => True))
    (dispatchRace freshCtx) c ∧ (c.prog .worker).finished.isSome ∧ Admits PutsCurrent c.state.2 ∧
    starts c.state.2 = [0, 1] ∧ c.state.1.job.fsm = some .completed ∧
      ∃ d, c.state.1.row = some d ∧ d.status = Status.completed.value := by
  have hrun : ∃ c, Conf.Runs ((jobSem allSucceed).logged (fun _ _ => True)) (dispatchRace freshCtx) c ∧
      (c.prog .worker).finished.isSome ∧ Admits PutsCurrent c.state.2 :=
    exists_jobRuns (turns 9 .dispatcher ++ turns 5 .worker ++ turns 1 .dispatcher ++ turns 17 .worker) (by decide)
      (by decide +kernel)
  obtain ⟨c, hrun, hdone, hcur⟩ := hrun
  exact ⟨c, hrun, hdone, hcur, dispatch_race_completes freshCtx freshCtx_fresh hrun hdone hcur⟩

/-- **The dispatcher's save fails the job**: it builds its Scheduled record, the worker saves the missing row, applies
`RUN` and builds its snapshot, and the dispatcher's put comes first.  The worker's put is then refused over a Scheduled
row, the job is made Failed, and no workflow runs. -/
theorem dispatcher_save_fails_run : Fresh freshCtx ∧ ∃ c,
    Conf.Runs ((jobSem allSucceed).logged (fun _ _ => True)) (dispatchRace freshCtx) c ∧
    (∀ t, (c.prog t).finished.isSome) ∧ starts c.state.2 = [] ∧ c.state.1.job.fsm = some .failed := by
  have hrun : ∃ c, Conf.Runs ((jobSem allSucceed).logged (fun _ _ => True)) (dispatchRace freshCtx) c ∧
      (c.prog .dispatcher).finished.isSome ∧ (c.prog .worker).finished.isSome ∧ starts c.state.2 = [] ∧
      c.state.1.job.fsm = some .failed :=
    exists_jobRuns (turns 8 .dispatcher ++ turns 10 .worker ++ turns 2 .dispatcher ++ turns 8 .worker) (by decide)
      (by decide +kernel)
  obtain ⟨c, hrun, hd, hw, hs, hf⟩ := hrun
  exact ⟨freshCtx_fresh, c, hrun, (fun | .dispatcher => hd | .worker => hw), hs, hf⟩

end Pypepper
