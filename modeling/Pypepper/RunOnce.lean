import Pypepper.Solo
/-!
# RunOnce — what a faulty store does to a dequeued job

`Worker.run_once` alone with its job: any get may raise, any put may be refused or raise, others may write the store
between any two calls, and the channel may be full or stopped when the job is sent back.

However the call ends, the job was sent back in Scheduled without having run, or it is off the channel in a terminal
state or in the InProgress that the store reported (`NotLost`).  One read is not guarded, and one end of an awaited
workflow is not handled; the law holds exactly in the runs that meet neither (`not_lost_iff`).
-/
namespace Pypepper

open Conc (Prog Proto Ev Admits)

/-- `run_once` to its end. -/
def soloRun (x : Ctx) (turns : Nat → Turn) : Except Exn (Option Nat) × SoloState :=
  (Worker.runOnce x.job.ident).run turnExec turns (x, [])

/-- The record of a refused put. -/
def Act.refused : (a : Act) → a.Res → Option JobRecord
  | .put record, .ok false => some record
  | _,           _         => none

/-- The answer of a `get_saved`. -/
def Act.saved : (a : Act) → a.Res → Option (Except Exn (Option JobRecord))
  | .getSaved, r => some r
  | _,         _ => none

/-! ## The law -/

def lastSaved (log : List (JobEv Unit)) : Option (Except Exn (Option JobRecord)) :=
  log.foldl (fun o e => (e.act.saved e.res).or o) none

/-- The put of the InProgress record returned True. -/
def RunApplied (log : List (JobEv Unit)) : Prop :=
  ∃ e ∈ log, ∃ rec ∈ e.act.applied e.res, rec.status = Status.inProgress.value

/-- The InProgress is the store's: the last `get_saved` answered with an InProgress row, and the call wrote none itself. -/
def ReportsRunning (log : List (JobEv Unit)) : Prop :=
  (∃ d, lastSaved log = some (.ok (some d)) ∧ d.status = Status.inProgress.value) ∧ ¬ RunApplied log

def StartsAfterRun (before : List (JobEv Unit)) (e : JobEv Unit) : Prop := e.act.start.isSome → RunApplied before

/-- The job was sent back: once more on the channel than after the dequeue, in Scheduled, and nothing ran. -/
structure Requeued {α : Type} (ref : Nat) (rest : List Nat) (r : Except Exn α) (s : SoloState) : Prop where
  raised : ∃ msg, r = .error (.requeued msg)
  queue  : s.1.chan.queue = rest ++ [ref]
  fsm    : s.1.job.fsm = some .scheduled
  status : s.1.job.status = Status.scheduled.value
  starts : starts s.2 = []

/-- The job was not sent back, and its state is accounted for. -/
structure OffChannel (rest : List Nat) (s : SoloState) : Prop where
  queue : s.1.chan.queue = rest
  fsm   : (∃ v : Status, s.1.job.fsm = some v ∧ v.terminal = true) ∨
    (s.1.job.fsm = some .inProgress ∧ ReportsRunning s.2)

/-- **The law**: when the call ends, the job was sent back or is accounted for, and not both; and no workflow ran before
the InProgress put was applied, whether the call ends or not. -/
def NotLost (ref : Nat) (rest : List Nat) (r : Except Exn (Option Nat)) (s : SoloState) : Prop :=
  (r ≠ .error .hung → Xor (Requeued ref rest r s) (OffChannel rest s)) ∧ Admits StartsAfterRun s.2

/-- A read just after the InProgress put was refused does not raise. -/
def ReadsRefusal (before : List (JobEv Unit)) (e : JobEv Unit) : Prop :=
  ∀ e₁ ∈ before.getLast?, ∀ rec ∈ e₁.act.refused e₁.res, rec.status = Status.inProgress.value →
    (e.act.saved e.res).all Except.isOk = true

instance (before : List (JobEv Unit)) (e : JobEv Unit) : Decidable (ReadsRefusal before e) :=
  inferInstanceAs (Decidable (∀ e₁ ∈ before.getLast?, ∀ rec ∈ e₁.act.refused e₁.res, _ → _ = true))

/-- The await of a workflow ended in the `CancelledError` of asyncio. -/
def Act.cancels : (a : Act) → a.Res → Bool
  | .endWorkflow _, .error .cancelled => true
  | _,              _                 => false

theorem Act.cancels_of_caught {a : Act} {r : a.Res} (h : a.abrupt r = false) : a.cancels r = false := by
  unfold Act.cancels
  split
  · cases h
  · rfl

/-- What keeps the job: every refused InProgress put is read back, and no awaited workflow ends in the `CancelledError` of
asyncio. -/
structure Handled (log : List (JobEv Unit)) : Prop where
  reads   : Admits ReadsRefusal log
  awaited : ∀ e ∈ log, e.act.cancels e.res = false

instance (log : List (JobEv Unit)) : Decidable (Handled log) :=
  decidable_of_iff (Admits ReadsRefusal log ∧ ∀ e ∈ log, e.act.cancels e.res = false)
    ⟨fun h => ⟨h.1, h.2⟩, fun h => ⟨h.reads, h.awaited⟩⟩

/-- A job just before its dequeue, in Scheduled. -/
structure AtHead (rest : List Nat) (x : Ctx) : Prop where
  queue  : x.chan.queue = x.job.ref :: rest
  fsm    : x.job.fsm = some .scheduled
  status : x.job.status = Status.scheduled.value

/-! ## The states of a run -/

/-- Whether the InProgress put of the call was applied: not yet, perhaps, or surely. -/
inductive RunPut where
  | no | maybe | yes
  deriving DecidableEq

/-- Where the job is: its machine, its channel's queue, and whether its InProgress put was applied. -/
structure At (ref : Nat) (ran : RunPut) (v : Status) (q : List Nat) (s : SoloState) : Prop where
  ref     : s.1.job.ref = ref
  fsm     : s.1.job.fsm = some v
  queue   : s.1.chan.queue = q
  reads   : Admits ReadsRefusal s.2
  read    : ∀ e ∈ s.2.getLast?, ∀ rec ∈ e.act.refused e.res, rec.status ≠ Status.inProgress.value
  caught  : Caught s.2
  order   : Admits StartsAfterRun s.2
  idle    : ran ≠ .yes → starts s.2 = []
  fresh   : ran = .no → ¬ RunApplied s.2
  applied : ran = .yes → RunApplied s.2

abbrev soloProto : Proto Act Act.Res SoloState := Proto.solo turnExec (fun _ => True)

section
variable {ref : Nat} {ran : RunPut} {v w : Status} {q q' rest : List Nat} {s : SoloState}

theorem RunApplied.append {log : List (JobEv Unit)} (e : JobEv Unit) (h : RunApplied log) : RunApplied (log ++ [e]) := by
  obtain ⟨e', he, hrec⟩ := h
  exact ⟨e', List.mem_append_left _ he, hrec⟩

/-- What is no applied put of an InProgress record. -/
theorem not_runApplied_append {log : List (JobEv Unit)} {e : JobEv Unit} (h : ¬ RunApplied log)
    (he : ∀ rec ∈ e.act.applied e.res, rec.status ≠ Status.inProgress.value) : ¬ RunApplied (log ++ [e]) := by
  rintro ⟨e', he', rec, hrec, hst⟩
  rcases List.mem_append.1 he' with hm | hm
  · exact h ⟨e', hm, rec, hrec, hst⟩
  · obtain rfl := List.mem_singleton.1 hm
    exact he rec hrec hst

theorem lastSaved_append (log : List (JobEv Unit)) (e : JobEv Unit) :
    lastSaved (log ++ [e]) = (e.act.saved e.res).or (lastSaved log) := by
  simp [lastSaved]

theorem Act.applied_record {a : Act} {r : a.Res} {rec : JobRecord} (h : a.applied r = some rec) : a.record = some rec := by
  cases a with
  | put q =>
    match r, h with
    | .ok true, h => exact h
  | _ => cases h

theorem Act.refused_record {a : Act} {r : a.Res} {rec : JobRecord} (h : a.refused r = some rec) : a.record = some rec := by
  cases a with
  | put q =>
    match r, h with
    | .ok false, h => exact h
  | _ => cases h

/-- **One action** that is no put of an InProgress record answered with False or applied, ends no workflow, and starts one
only after the put was applied. -/
theorem At.next {a : Act} (t : Turn) (h : At ref ran v q s) (hb : ∀ ws, a ≠ .fromRecord ws)
    (hf : (turnExec t a s).2.1.job.fsm = some w) (hc : (turnExec t a s).2.1.chan.queue = q')
    (hp : ∀ rec ∈ a.refused (turnExec t a s).1, rec.status ≠ Status.inProgress.value)
    (ha : ran = .no → ∀ rec ∈ a.applied (turnExec t a s).1, rec.status ≠ Status.inProgress.value)
    (he : a.abrupt (turnExec t a s).1 = false) (hs : a.start.isSome → ran = .yes) :
    At ref ran w q' (turnExec t a s).2 := by
  refine ⟨((Ctx.exec_frame t.choice a (t.before s.1) hb).ref.trans h.ref), hf, hc, ?_, ?_,
    caught_turnExec.2 ⟨h.caught, he⟩, ?_, ?_, ?_, ?_⟩
  · exact h.reads.append fun e₁ he rec hrec hr => absurd hr (h.read e₁ he rec hrec)
  · intro e he rec hrec
    simp only [turnExec, List.getLast?_concat, Option.mem_def, Option.some.injEq] at he
    subst he
    exact hp rec hrec
  · exact h.order.append fun hst => h.applied (hs hst)
  · intro hr
    have hnone : a.start = none := by
      cases hst : a.start with
      | none => rfl
      | some i => exact absurd (hs (by rw [hst]; rfl)) hr
    simp only [turnExec, starts_append, h.idle hr, hnone]
    rfl
  · exact fun hr => not_runApplied_append (h.fresh hr) (ha hr)
  · exact fun hr => (h.applied hr).append _

theorem At.quiet {a : Act} (t : Turn) (h : At ref ran v q s) (hq : a.Quiet) (hsend : a ≠ .send) (hrec : a ≠ .receive)
    (hp : ∀ rec ∈ a.record, rec.status ≠ Status.inProgress.value) (he : a.abrupt (turnExec t a s).1 = false)
    (hs : a.start.isSome → ran = .yes) :
    At ref ran v q (turnExec t a s).2 := by
  have hb : ∀ ws, a ≠ .fromRecord ws := by
    rintro ws rfl
    cases hq
  refine h.next t hb ((Ctx.exec_fsm t.choice a _ hq).trans h.fsm) ?_ (fun rec hr => hp rec (Act.refused_record hr))
    (fun _ rec hr => hp rec (Act.applied_record hr)) he hs
  exact (congrArg Channel.queue (Ctx.exec_chan t.choice a _ hsend hrec)).trans h.queue

/-- A read-only action, or the end of a workflow that is caught. -/
theorem At.passive {a : Act} (t : Turn) (h : At ref ran v q s) (ha : a.passive = true)
    (he : a.abrupt (turnExec t a s).1 = false) :
    At ref ran v q (turnExec t a s).2 := by
  refine h.quiet t ?_ ?_ ?_ ?_ he ?_
  · cases a <;> first | rfl | cases ha
  · rintro rfl; cases ha
  · rintro rfl; cases ha
  · rw [Act.passive_record ha]
    exact fun _ h => by cases h
  · rw [Act.passive_start ha]
    exact fun h => by cases h

/-- The put may have been applied. -/
theorem At.maybe (h : At ref ran v q s) (hr : ran ≠ .yes) : At ref .maybe v q s :=
  ⟨h.ref, h.fsm, h.queue, h.reads, h.read, h.caught, h.order, fun _ => h.idle hr, nofun, nofun⟩

theorem At.check (h : At ref ran v q s) (t : Turn) (hv : v ≠ .cancelled) :
    (turnExec t .isCancelled s).1 = false := by
  have hne : ¬ s.1.job.isCancelled = true := by
    rw [Job.isCancelled_iff, h.fsm]
    simpa using hv
  exact Bool.eq_false_iff.2 hne

theorem At.event (h : At ref ran v q s) (t : Turn) {e : Event} (ht : Fsm.target e v = some w) :
    (turnExec t (.applyEvent e) s).1 = .ok () ∧ At ref ran w q (turnExec t (.applyEvent e) s).2 := by
  have hx := Ctx.exec_applyEvent_some t.choice (x := t.before s.1) h.fsm ht
  refine ⟨congrArg Prod.fst hx, h.next t (by simp) ?_ ?_ (by simp [Act.refused]) (by simp [Act.applied]) rfl (by simp [Act.start])⟩
  · exact congrArg (fun p => p.2.job.fsm) hx
  · exact (congrArg (fun p => p.2.chan.queue) hx).trans h.queue

theorem At.event_refused (h : At ref ran v q s) (t : Turn) {e : Event} (ht : Fsm.target e v = none) :
    (turnExec t (.applyEvent e) s).1 = .error (.internal errorInvalidEvent) ∧
      At ref ran v q (turnExec t (.applyEvent e) s).2 := by
  have hx := Ctx.exec_applyEvent_none t.choice (x := t.before s.1) h.fsm ht
  refine ⟨congrArg Prod.fst hx, h.next t (by simp) ?_ ?_ (by simp [Act.refused]) (by simp [Act.applied]) rfl (by simp [Act.start])⟩
  · exact (congrArg (fun p => p.2.job.fsm) hx).trans h.fsm
  · exact (congrArg (fun p => p.2.chan.queue) hx).trans h.queue

theorem At.restore (h : At ref ran v q s) (t : Turn) : At ref ran w q (turnExec t (.restore w) s).2 :=
  h.next t (by simp) rfl h.queue (by simp [Act.refused]) (by simp [Act.applied]) rfl (by simp [Act.start])

theorem passive_keeps {α : Type} {p : JobProg α} (hp : p.Only (fun a => a.passive = true ∧ a.ended = none)) :
    soloProto.Keeps (At ref ran v q) p :=
  Proto.keeps_solo (fun _ ha t _ _ h => h.passive t ha.1 (Act.abrupt_of_ended ha.2 _)) hp

/-- A save of a job that is not in InProgress. -/
theorem save_keeps_at (hv : v ≠ .inProgress) : soloProto.Keeps (At ref ran v q) Job.save := by
  intro s h
  refine wp_save (P := At ref ran v q) (B := fun rec s => At ref ran v q s ∧ rec.status = v.value)
    (W := fun _ => At ref ran v q) (Proto.solo_stable _) (fun _ => Proto.solo_stable _) (fun _ => Proto.solo_stable _)
    ?_ ?_ ?_ h
  · rintro s rec s' h ⟨t, -, rfl, rfl⟩
    exact ⟨trivial, h.passive t rfl rfl, Job.currentStatus_of_fsm h.fsm⟩
  · rintro rec s r s' ⟨h, hrec⟩ ⟨t, -, rfl, rfl⟩
    have hn : At ref ran v q (turnExec t (.put rec) s).2 := by
      refine h.quiet t rfl (by simp) (by simp) (fun rec' hr => ?_) rfl (by simp [Act.start])
      obtain rfl := Option.some.inj hr
      rw [hrec]
      exact fun h => hv (Status.value_injective h)
    refine ⟨trivial, ?_⟩
    split
    · exact hn
    · exact hn
    · exact hn
  · rintro rec s r s' h ⟨t, -, rfl, rfl⟩
    have hn := h.passive (a := .refresh rec.updated) t rfl rfl
    refine ⟨trivial, ?_⟩
    split
    · exact hn
    · exact hn

theorem forceFailedLifecycle_at (h : At ref ran v q s) :
    soloProto.wp Worker.forceFailedLifecycle (fun r s => r = .ok () ∧ At ref ran .failed q s) s := by
  refine wp_forceFailedLifecycle (P := At ref ran v q) (Q := At ref ran .failed q) (Proto.solo_stable _) ?_ ?_ ?_ h
  · rintro s r s' h ⟨t, -, rfl, rfl⟩
    refine ⟨trivial, h.passive t rfl rfl, fun hr => ?_⟩
    have hv : v.value = Status.failed.value := by
      have hc : s.1.job.currentStatus = v.value := Job.currentStatus_of_fsm h.fsm
      exact hc.symm.trans hr
    rw [← Status.value_injective hv]
    exact h.passive t rfl rfl
  · rintro s r s' h ⟨t, -, rfl, rfl⟩
    refine ⟨trivial, ?_⟩
    cases ht : Fsm.target .fail v with
    | none =>
      obtain ⟨hr, hn⟩ := h.event_refused t ht
      rw [hr]
      exact hn
    | some w =>
      obtain ⟨hr, hn⟩ := h.event t ht
      rw [hr]
      rwa [Fsm.target_fail ht] at hn
  · rintro s r s' h ⟨t, -, rfl, rfl⟩
    exact ⟨trivial, h.restore t⟩

/-! ## The recovery -/

/-- How a run ends when no read of a refusal failed and no workflow ended abruptly. -/
structure Fine {α : Type} (ref : Nat) (rest : List Nat) (r : Except Exn α) (s : SoloState) : Prop where
  place  : Requeued ref rest r s ∨ OffChannel rest s
  order  : Admits StartsAfterRun s.2
  reads  : Admits ReadsRefusal s.2
  caught : Caught s.2

theorem At.fine {α : Type} (h : At ref ran v rest s) (hv : v.terminal = true) (r : Except Exn α) : Fine ref rest r s :=
  ⟨.inr ⟨h.queue, .inl ⟨v, h.fsm, hv⟩⟩, h.order, h.reads, h.caught⟩

theorem markUndeliverableFailed_at (h : At ref ran v q s) :
    soloProto.wp Worker.markUndeliverableFailed (fun _ s => At ref ran .failed q s) s := by
  refine Proto.wp_seq (forceFailedLifecycle_at h) (fun _ s h => ?_) (fun _ _ h => h.2)
  have hsave : soloProto.Keeps (At ref ran .failed q) (do let _ ← Job.save; return () : JobProg Unit) :=
    (save_keeps_at (by simp)).bind fun _ => .ret ()
  exact hsave.tryExcept (fun _ => .ret ()) s h.2

/-- How the recovery ends: the job was sent back, or it is put away as Failed. -/
def Recovered {α : Type} (ref : Nat) (rest : List Nat) (r : Except Exn α) (s : SoloState) : Prop :=
  (Requeued ref rest r s ∧ At ref .maybe .scheduled (rest ++ [ref]) s) ∨ At ref .maybe .failed rest s

theorem Recovered.fine {α : Type} {r : Except Exn α} (h : Recovered ref rest r s) : Fine ref rest r s := by
  rcases h with ⟨hq, h⟩ | h
  · exact ⟨.inl hq, h.order, h.reads, h.caught⟩
  · exact h.fine rfl r

/-- `_requeue_after_run_restore` of a job restored to Scheduled. -/
theorem requeueAfterRunRestore_recovers (job : Ident) (h : At ref .maybe .scheduled rest s)
    (hst : s.1.job.status = Status.scheduled.value) :
    soloProto.wp (Worker.requeueAfterRunRestore job) (fun r s => (∃ e, r = .error e) ∧ Recovered ref rest r s) s := by
  refine Proto.wp_solo fun t _ => ?_
  obtain ⟨hjob, ⟨hr, hq⟩ | ⟨hr, hq⟩⟩ := Ctx.exec_send t.choice (t.before s.1)
  · have hn : At ref .maybe .scheduled (rest ++ [ref]) (turnExec t .send s).2 := by
      refine h.next t (by simp) ((congrArg Job.fsm hjob).trans h.fsm) ?_ (by simp [Act.refused]) (by simp [Act.applied]) rfl (by simp [Act.start])
      rw [← h.ref, ← h.queue]
      exact hq
    have hr : (turnExec t .send s).1 = .ok := hr
    rw [hr]
    exact ⟨⟨_, rfl⟩, .inl ⟨⟨⟨_, rfl⟩, hn.queue, hn.fsm, (congrArg Job.status hjob).trans hst, hn.idle (by simp)⟩, hn⟩⟩
  · have hn : At ref .maybe .scheduled rest (turnExec t .send s).2 :=
      h.next t (by simp) ((congrArg Job.fsm hjob).trans h.fsm) (hq.trans h.queue) (by simp [Act.refused])
        (by simp [Act.applied]) rfl (by simp [Act.start])
    have hmark : ∀ e : Exn, soloProto.wp (do Worker.markUndeliverableFailed; Prog.raise e : JobProg Unit)
        (fun r s => (∃ e, r = .error e) ∧ Recovered ref rest r s) (turnExec t .send s).2 := fun e =>
      Proto.wp_seq (markUndeliverableFailed_at hn) (fun _ _ h => ⟨⟨_, rfl⟩, .inr h⟩) (fun _ _ h => ⟨⟨_, rfl⟩, .inr h⟩)
    have hr : (turnExec t .send s).1 ≠ .ok := hr
    cases hres : (turnExec t .send s).1 with
    | ok => exact absurd hres hr
    | full => exact hmark _
    | stopped => exact hmark _

/-- **`_fail_or_restore_after_run_persist`** puts the job away as Failed, or sends it back in Scheduled. -/
theorem failOrRestoreAfterRunPersist_recovers (job : Ident) (e : Exn) (hv : v ≠ .cancelled)
    (h : At ref .maybe v rest s) :
    soloProto.wp (Worker.failOrRestoreAfterRunPersist job (some .scheduled) Status.scheduled.value e)
      (Recovered ref rest) s := by
  refine Proto.wp_try (M := fun _ s => At ref .maybe .failed rest s) ?_ (fun r s h => ?_)
  · refine Proto.wp_solo fun t _ => ?_
    rw [h.check t hv]
    refine Proto.wp_seq (forceFailedLifecycle_at (h.passive t rfl rfl)) (fun _ s h => ?_) (fun _ _ h => h.2)
    refine Proto.wp_seq (save_keeps_at (by simp) s h.2) (fun saved s h => ?_) (fun _ _ h => h)
    cases saved with
    | true => exact h
    | false => exact h
  · match r with
    | .ok () => exact .inr h
    | .error e' =>
      refine Proto.wp_solo fun t _ => ?_
      rw [h.check t (by simp)]
      refine Proto.wp_solo fun t' _ => ?_
      have hn := h.passive (a := .isCancelled) t rfl rfl
      have hback : At ref .maybe .scheduled rest (turnExec t' (.restoreLifecycle (some .scheduled)
          Status.scheduled.value) (turnExec t .isCancelled s).2).2 :=
        hn.next t' (by simp) rfl hn.queue (by simp [Act.refused]) (by simp [Act.applied]) rfl (by simp [Act.start])
      refine Proto.wp_seq (requeueAfterRunRestore_recovers job hback rfl) (fun _ _ h => ?_) (fun _ _ h => h.2)
      obtain ⟨⟨_, hr⟩, -⟩ := h
      cases hr

/-! ## A refused InProgress put -/

structure Skipped (ref : Nat) (rest : List Nat) (s : SoloState) : Prop where
  ref    : s.1.job.ref = ref
  fsm    : s.1.job.fsm = some .inProgress
  queue  : s.1.chan.queue = rest
  reads  : Admits ReadsRefusal s.2
  caught : Caught s.2
  order  : Admits StartsAfterRun s.2
  idle   : starts s.2 = []
  fresh  : ¬ RunApplied s.2
  last   : ∃ e ∈ s.2.getLast?, ∃ rec ∈ e.act.refused e.res, rec.status = Status.inProgress.value

/-- The read raised, and the job is off the channel in an InProgress nobody reported. -/
structure Lost {α : Type} (rest : List Nat) (r : Except Exn α) (s : SoloState) : Prop where
  raised : ∃ e, r = .error e ∧ e.isException = true
  queue  : s.1.chan.queue = rest
  fsm    : s.1.job.fsm = some .inProgress
  blind  : ¬ ReportsRunning s.2
  reads  : ¬ Admits ReadsRefusal s.2

theorem runSave_at (h : At ref .no .inProgress rest s) :
    soloProto.wp Job.save (fun r s => match r with
      | .ok true  => At ref .yes .inProgress rest s
      | .ok false => Skipped ref rest s
      | .error _  => At ref .maybe .inProgress rest s) s := by
  refine wp_save (P := At ref .no .inProgress rest)
    (B := fun rec s => At ref .no .inProgress rest s ∧ rec.status = Status.inProgress.value)
    (W := fun _ s => At ref .maybe .inProgress rest s ∧ RunApplied s.2) (Proto.solo_stable _) (fun _ => Proto.solo_stable _)
    (fun _ => Proto.solo_stable _) ?_ ?_ ?_ h
  · rintro s rec s' h ⟨t, -, rfl, rfl⟩
    exact ⟨trivial, h.passive t rfl rfl, Job.currentStatus_of_fsm h.fsm⟩
  · rintro rec s r s' ⟨h, hrec⟩ ⟨t, -, rfl, rfl⟩
    have hf : (turnExec t (.put rec) s).2.1.job.fsm = some .inProgress :=
      (Ctx.exec_fsm t.choice (.put rec) _ rfl).trans h.fsm
    have hq : (turnExec t (.put rec) s).2.1.chan.queue = rest :=
      (congrArg Channel.queue (Ctx.exec_chan t.choice (.put rec) _ (by simp) (by simp))).trans h.queue
    -- what the put answers is the whole difference: until it has, it may have been applied
    have next : (∀ rec' ∈ (Act.put rec).refused (turnExec t (.put rec) s).1, rec'.status ≠ Status.inProgress.value) →
        At ref .maybe .inProgress rest (turnExec t (.put rec) s).2 := fun hp =>
      (h.maybe (by simp)).next t (by simp) hf hq hp (by simp) rfl (by simp [Act.start])
    refine ⟨trivial, ?_⟩
    cases hr : (turnExec t (.put rec) s).1 with
    | error e => exact next (by simp [hr, Act.refused])
    | ok b =>
      have hr' : (Ctx.exec t.choice (.put rec) (t.before s.1)).1 = .ok b := hr
      cases b with
      | true =>
        exact ⟨next (by simp [hr, Act.refused]), _, List.mem_append_right _ (List.mem_singleton_self _), rec,
          by simp [hr', Act.applied], hrec⟩
      | false =>
        refine ⟨(Ctx.exec_frame t.choice (.put rec) _ (by simp)).ref.trans h.ref, hf, hq, ?_,
          caught_turnExec.2 ⟨h.caught, rfl⟩, ?_, ?_, ?_, ?_⟩
        · exact h.reads.append fun e₁ he rec hrec hr => absurd hr (h.read e₁ he rec hrec)
        · exact h.order.append fun hst => by cases hst
        · simp only [turnExec, starts_append, h.idle (by simp)]
          rfl
        · exact not_runApplied_append (h.fresh rfl) (by simp [hr', Act.applied])
        · exact ⟨_, List.getLast?_concat, rec, by simp [hr', Act.refused], hrec⟩
  · rintro rec s r s' ⟨h, happ⟩ ⟨t, -, rfl, rfl⟩
    have hn := h.passive (a := .refresh rec.updated) t rfl rfl
    refine ⟨trivial, ?_⟩
    cases hr : (turnExec t (.refresh rec.updated) s).1 with
    | ok u => exact ⟨hn.ref, hn.fsm, hn.queue, hn.reads, hn.read, hn.caught, hn.order, by simp,
        fun hno => RunPut.noConfusion hno, fun _ => happ.append _⟩
    | error e => exact hn

/-- The read after a refusal: when it raises, the job is lost. -/
theorem Skipped.read (h : Skipped ref rest s) (t : Turn) :
    (∃ saved, (turnExec t .getSaved s).1 = .ok saved ∧ At ref .no .inProgress rest (turnExec t .getSaved s).2 ∧
      lastSaved (turnExec t .getSaved s).2.2 = some (.ok saved)) ∨
    (∃ e, (turnExec t .getSaved s).1 = .error e ∧
      Lost rest (.error e : Except Exn Unit) (turnExec t .getSaved s).2) := by
  have hlast : lastSaved (turnExec t .getSaved s).2.2 = some (turnExec t .getSaved s).1 := lastSaved_append _ _
  cases hr : (turnExec t .getSaved s).1 with
  | ok saved =>
    refine .inl ⟨saved, rfl, ⟨h.ref, h.fsm, h.queue, ?_, ?_, caught_turnExec.2 ⟨h.caught, rfl⟩, ?_, fun _ => ?_, fun _ => ?_,
      nofun⟩, hlast.trans (congrArg some hr)⟩
    · refine h.reads.append fun e₁ _ rec _ _ => ?_
      have hr : (Ctx.exec t.choice .getSaved (t.before s.1)).1 = .ok saved := hr
      simp [hr, Act.saved, Except.isOk, Except.toBool]
    · intro e he
      simp only [turnExec, List.getLast?_concat, Option.mem_def, Option.some.injEq] at he
      subst he
      exact fun _ h => by cases h
    · exact h.order.append fun hst => by cases hst
    · simp only [turnExec, starts_append, h.idle]
      rfl
    · exact not_runApplied_append h.fresh (by simp [Act.applied])
  | error e =>
    rw [hr] at hlast
    have he : e.isException = true := by
      have hr : (Ctx.exec t.choice .getSaved (t.before s.1)).1 = .error e := hr
      refine Ctx.exec_isException t.choice .getSaved (t.before s.1) e ?_ rfl
      rw [hr]
      rfl
    refine .inr ⟨e, rfl, ⟨e, rfl, he⟩, h.queue, h.fsm, ?_, fun hreads => ?_⟩
    · rintro ⟨⟨d, hd, -⟩, -⟩
      rw [hlast] at hd
      cases hd
    · obtain ⟨e₁, he, rec, hrec, hs⟩ := h.last
      have hok := hreads.of_append.2 e₁ he rec hrec hs
      have hr : (Ctx.exec t.choice .getSaved (t.before s.1)).1 = .error e := hr
      simp [hr, Act.saved, Except.isOk, Except.toBool] at hok

/-- The work was given up: what ended a workflow went through every handler, with the job in the InProgress that this call
put. -/
structure Abandoned {α : Type} (rest : List Nat) (r : Except Exn α) (s : SoloState) : Prop where
  queue   : s.1.chan.queue = rest
  fsm     : s.1.job.fsm = some .inProgress
  applied : RunApplied s.2
  order   : Admits StartsAfterRun s.2
  reads   : Admits ReadsRefusal s.2
  last    : (r = .error .hung ∧ ∀ e ∈ s.2, e.act.cancels e.res = false) ∨
    (r = .error .cancelled ∧ ∃ e ∈ s.2, e.act.cancels e.res = true)

def Ends {α : Type} (ref : Nat) (rest : List Nat) (r : Except Exn α) (s : SoloState) : Prop :=
  Fine ref rest r s ∨ Lost rest r s ∨ Abandoned rest r s

theorem ensureCancelledPersistedLogged_at (hv : v ≠ .inProgress) :
    soloProto.Keeps (At ref ran v q) Worker.ensureCancelledPersistedLogged := by
  have hread : soloProto.Keeps (At ref ran v q) Job.getSaved := passive_keeps (.bind (.call ⟨rfl, rfl⟩) .ofExcept)
  refine .tryExcept (hread.bind fun saved => ?_) (fun _ => .raise _)
  split
  · exact .ret ()
  · exact (save_keeps_at hv).bind fun _ => .ret ()

/-- The durable row is followed: it is terminal, or InProgress as it was read. -/
theorem followDurableStatus_fine {saved : Option JobRecord} {t : String} (h : At ref .no .inProgress rest s)
    (hlast : lastSaved s.2 = some (.ok saved)) (ht : saved.map JobRecord.status = some t)
    (hmem : Worker.followWithoutRun.contains t = true) :
    soloProto.wp (Worker.followDurableStatus t) (Fine ref rest) s := by
  have follow : ∀ v : Status, (v.terminal = true ∨ v = .inProgress) → t = v.value →
      soloProto.wp (Worker.followDurableStatus t) (Fine ref rest) s := by
    rintro v hv rfl
    rw [Worker.followDurableStatus, Status.ofValue_value]
    refine Proto.wp_act (Proto.solo_stable (· = s)) rfl ?_
    rintro s₁ r s₂ rfl ⟨u, -, rfl, rfl⟩
    have hn : At ref .no v rest (turnExec u (.restore v) s₁).2 := h.restore u
    refine ⟨trivial, ?_⟩
    rcases hv with hv | rfl
    · exact hn.fine hv _
    · obtain ⟨d, rfl, hd⟩ := Option.map_eq_some_iff.1 ht
      exact ⟨.inr ⟨hn.queue, .inr ⟨hn.fsm, ⟨d, (lastSaved_append _ _).trans hlast, hd⟩, hn.fresh rfl⟩⟩, hn.order, hn.reads,
        hn.caught⟩
  simp only [Worker.followWithoutRun, List.contains_cons, List.contains_nil, Bool.or_false, Bool.or_eq_true,
    beq_iff_eq] at hmem
  rcases hmem with ht | ht | ht | ht
  · exact follow .inProgress (.inr rfl) ht
  · exact follow .failed (.inl rfl) ht
  · exact follow .completed (.inl rfl) ht
  · exact follow .cancelled (.inl rfl) ht

/-- **The RUN put was refused**: the durable row decides, unless it cannot be read. -/
theorem runSkipped_ends (job : Ident) (h : Skipped ref rest s) :
    soloProto.wp (Worker.runSkipped job (some .scheduled) Status.scheduled.value) (Ends ref rest) s := by
  refine Proto.wp_seq (M := fun r s => match r with
    | .ok saved => At ref .no .inProgress rest s ∧ lastSaved s.2 = some (.ok saved)
    | .error e => Lost rest (.error e : Except Exn Unit) s) ?_ (fun saved s h => ?_) (fun _ _ h => .inr (.inl h))
  · refine Proto.wp_solo fun t _ => ?_
    obtain ⟨saved, hr, hn, hl⟩ | ⟨e, hr, hl⟩ := h.read t
    · rw [hr]
      exact ⟨hn, hl⟩
    · rw [hr]
      exact hl
  · obtain ⟨h, hlast⟩ := h
    dsimp only
    split
    · refine Proto.wp_solo fun t _ => ?_
      rw [h.check t (by simp)]
      have hn := h.passive (a := .isCancelled) t rfl rfl
      refine Proto.wp_seq (M := fun _ => At ref .no .cancelled rest) ?_ (fun _ s h => ?_) (fun _ _ h => .inl (h.fine rfl _))
      · refine Proto.wp_solo fun t' _ => ?_
        obtain ⟨hr, hc⟩ := hn.event (w := .cancelled) t' (e := .cancel) rfl
        rw [hr]
        exact hc
      · exact Proto.wp_mono (fun _ _ h => .inl (h.fine rfl _)) _ _ (ensureCancelledPersistedLogged_at (by simp) s h)
    · rename_i hcanc
      split
      · rename_i st hst
        obtain ⟨hd, hmem⟩ := Option.filter_eq_some_iff.1 hst
        exact Proto.wp_mono (fun _ _ h => .inl h) _ _ (followDurableStatus_fine h hlast hd hmem)
      · exact Proto.wp_mono (fun _ _ h => .inl h.fine) _ _ (failOrRestoreAfterRunPersist_recovers job _ (by simp) (h.maybe (by simp)))

/-! ## The work -/

/-- A workflow that does not end, or ends in what is no `Exception`. -/
theorem At.abandoned {α : Type} {i : Nat} {e : Exn} (h : At ref .yes .inProgress rest s) (t : Turn)
    (hr : (turnExec t (.endWorkflow i) s).1 = .error e) (he : e.isException = false) :
    Abandoned rest (.error e : Except Exn α) (turnExec t (.endWorkflow i) s).2 := by
  have hr' : (Ctx.exec t.choice (.endWorkflow i) (t.before s.1)).1 = .error e := hr
  have hbefore : ∀ ev ∈ s.2, ev.act.cancels ev.res = false := fun ev hev => Act.cancels_of_caught (h.caught ev hev)
  refine ⟨h.queue, h.fsm, (h.applied rfl).append _, h.order.append nofun, ?_, ?_⟩
  · exact h.reads.append fun e₁ he rec hrec hr => absurd hr (h.read e₁ he rec hrec)
  · cases e with
    | hung =>
      refine .inl ⟨rfl, fun ev hev => ?_⟩
      rcases List.mem_append.1 hev with hev | hev
      · exact hbefore ev hev
      · obtain rfl := List.mem_singleton.1 hev
        simp [Act.cancels, hr']
    | cancelled =>
      exact .inr ⟨rfl, _, List.mem_append_right _ (List.mem_singleton_self _), by simp [Act.cancels, hr']⟩
    | _ => cases he

theorem Abandoned.cast {α β : Type} {e : Exn} (h : Abandoned rest (.error e : Except Exn α) s) :
    Abandoned rest (.error e : Except Exn β) s := by
  refine ⟨h.queue, h.fsm, h.applied, h.order, h.reads, ?_⟩
  rcases h.last with ⟨he, hc⟩ | ⟨he, hc⟩
  · obtain rfl := Except.error.inj he
    exact .inl ⟨rfl, hc⟩
  · obtain rfl := Except.error.inj he
    exact .inr ⟨rfl, hc⟩

/-- How the workflows leave the job: still in InProgress, or abandoned. -/
def Worked {α : Type} (ref : Nat) (rest : List Nat) (r : Except Exn α) (s : SoloState) : Prop :=
  (At ref .yes .inProgress rest s ∧ ∀ e, r = .error e → e.isException = true) ∨
    ∃ e, r = .error e ∧ e.isException = false ∧ Abandoned rest r s

theorem Worked.at {α : Type} {a : α} (h : Worked ref rest (.ok a) s) : At ref .yes .inProgress rest s := by
  rcases h with ⟨h, -⟩ | ⟨_, he, -⟩
  · exact h
  · cases he

theorem Worked.raised {α β : Type} {e : Exn} (h : Worked ref rest (.error e : Except Exn α) s) :
    Worked ref rest (.error e : Except Exn β) s := by
  rcases h with ⟨h, hx⟩ | ⟨e', he, hx, h⟩
  · refine .inl ⟨h, fun e' he' => ?_⟩
    obtain rfl := Except.error.inj he'
    exact hx e rfl
  · obtain rfl := Except.error.inj he
    exact .inr ⟨e, rfl, hx, h.cast⟩

theorem runWorkflows_at : ∀ (ws : List Workflow) (i : Nat) {s : SoloState}, At ref .yes .inProgress rest s →
    soloProto.wp (Worker.runWorkflows ws i) (fun r s => r ≠ .ok true ∧ Worked ref rest r s) s
  | [], _, _, h => ⟨by simp, .inl ⟨h, nofun⟩⟩
  | _ :: ws, i, s, h => by
    refine Proto.wp_solo fun t₁ _ => ?_
    rw [h.check t₁ (by simp)]
    have h₁ := h.passive (a := .isCancelled) t₁ rfl rfl
    refine Proto.wp_solo fun t₂ _ => ?_
    have h₂ := h₁.quiet (a := .startWorkflow i) t₂ rfl (by simp) (by simp) (by simp [Act.record]) rfl (fun _ => rfl)
    refine Proto.wp_seq (M := fun r s => Worked ref rest r s) ?_ (fun _ s h => runWorkflows_at ws (i + 1) h.at)
      (fun _ _ h => ⟨by simp, h.raised⟩)
    refine Proto.wp_solo fun t₃ _ => ?_
    cases hr : (turnExec t₃ (.endWorkflow i) (turnExec t₂ (.startWorkflow i) (turnExec t₁ .isCancelled s).2).2).1 with
    | ok _ => exact .inl ⟨h₂.passive t₃ rfl (by rw [hr]; rfl), nofun⟩
    | error e =>
      cases he : e.isException with
      | true =>
        refine .inl ⟨h₂.passive t₃ rfl (by simp [hr, Act.abrupt, he]), fun e' he' => ?_⟩
        obtain rfl := Except.error.inj he'
        exact he
      | false => exact .inr ⟨e, rfl, he, h₂.abandoned t₃ hr he⟩

theorem transitionAndSaveTerminal_at {e : Event} (ht : Fsm.target e v = some w) (hv : w ≠ .inProgress)
    (h : At ref ran v q s) :
    soloProto.wp (Worker.transitionAndSaveTerminal e) (fun _ => At ref ran w q) s := by
  refine Proto.wp_seq (M := fun _ => At ref ran w q) ?_ (fun _ s h => ?_) (fun _ _ h => h)
  · refine Proto.wp_solo fun t _ => ?_
    obtain ⟨hr, hn⟩ := h.event t ht
    rw [hr]
    exact hn
  · exact Proto.wp_seq (save_keeps_at hv s h) (fun _ _ h => h) (fun _ _ h => h)

/-- **The work ends in a terminal state**, whatever the store does and the workflows return or raise, unless it is
abandoned. -/
theorem execute_ends (h : At ref .yes .inProgress rest s) : soloProto.wp Worker.execute (Ends ref rest) s := by
  refine Proto.wp_try (M := fun r s => r ≠ .ok true ∧ Worked ref rest r s) ?_ (fun r s h => ?_)
  · refine Proto.wp_solo fun t _ => ?_
    have h := h.passive (a := .workflows) t rfl rfl
    refine Proto.wp_solo fun t' _ => ?_
    exact runWorkflows_at _ 0 (h.passive (a := .shareCancelEvent) t' rfl rfl)
  · obtain ⟨hr, h⟩ := h
    match r, hr with
    | .error e, _ =>
      show soloProto.wp (if e.isException then Worker.workflowFailed e else Prog.raise e) (Ends ref rest) s
      rcases h with ⟨h, hx⟩ | ⟨e', he, hx, h⟩
      · rw [if_pos (hx e rfl)]
        refine Proto.wp_solo fun t _ => ?_
        rw [h.check t (by simp)]
        refine Proto.wp_try (transitionAndSaveTerminal_at (w := .failed) rfl (by simp) (h.passive t rfl rfl)) ?_
        exact fun _ _ h => .inl (h.fine rfl _)
      · obtain rfl := Except.error.inj he
        rw [if_neg (by simp [hx])]
        exact .inr (.inr h.cast)
    | .ok true, hr => exact absurd rfl hr
    | .ok false, _ =>
      refine Proto.wp_solo fun t _ => ?_
      rw [h.at.check t (by simp)]
      refine Proto.wp_mono (fun _ _ h => .inl (h.fine rfl _)) _ _
        (transitionAndSaveTerminal_at (w := .completed) rfl (by simp) (h.at.passive t rfl rfl))

/-! ## The call -/

theorem heal_at (job : Ident) (hv : v ≠ .inProgress) : soloProto.Keeps (At ref ran v q) (Worker.heal job) := by
  have hread : soloProto.Keeps (At ref ran v q) Job.getSaved := passive_keeps (.bind (.call ⟨rfl, rfl⟩) .ofExcept)
  refine hread.bind fun saved => ?_
  split
  · refine (save_keeps_at hv).bind fun saved => ?_
    split
    · exact .ret ()
    · refine hread.bind fun saved => ?_
      split
      · exact .raise _
      · exact .ret ()
  · exact .ret ()

theorem runAndExecute_ends (job : Ident) (h : At ref .no .scheduled rest s) :
    soloProto.wp (Worker.runAndExecute job (some .scheduled) Status.scheduled.value) (Ends ref rest) s := by
  refine Proto.wp_seq (M := fun r s => r = .ok () ∧ At ref .no .inProgress rest s) ?_ (fun _ s h => ?_) (fun _ _ h => ?_)
  · refine Proto.wp_solo fun t _ => ?_
    obtain ⟨hr, hn⟩ := h.event (w := .inProgress) t (e := .run) rfl
    rw [hr]
    exact ⟨rfl, hn⟩
  · refine Proto.wp_try (runSave_at h.2) (fun r s h => ?_)
    match r, h with
    | .error e, h =>
      exact Proto.wp_mono (fun _ _ h => .inl h.fine) _ _ (failOrRestoreAfterRunPersist_recovers job e (by simp) h)
    | .ok false, h => exact runSkipped_ends job h
    | .ok true, h => exact execute_ends h
  · cases h.1

theorem process_ends (job : Ident) (h : At ref .no .scheduled rest s)
    (hst : s.1.job.status = Status.scheduled.value) :
    soloProto.wp (Worker.process job) (Ends ref rest) s := by
  refine Proto.wp_solo fun t₁ _ => ?_
  rw [h.check t₁ (by simp)]
  have h₁ := h.passive (a := .isCancelled) t₁ rfl rfl
  refine Proto.wp_solo fun t₂ _ => ?_
  have hprev : (turnExec t₂ .fsmCurrent (turnExec t₁ .isCancelled s).2).1 = some .scheduled := h₁.fsm
  rw [hprev]
  have h₂ := h₁.passive (a := .fsmCurrent) t₂ rfl rfl
  refine Proto.wp_solo fun t₃ _ => ?_
  have hstatus : (turnExec t₃ .status (turnExec t₂ .fsmCurrent (turnExec t₁ .isCancelled s).2).2).1 =
      Status.scheduled.value := hst
  rw [hstatus]
  refine Proto.wp_try (heal_at job (by simp) _ (h₂.passive (a := .status) t₃ rfl rfl)) (fun r s h => ?_)
  match r with
  | .error e => exact Proto.wp_mono (fun _ _ h => .inl h.fine) _ _ (failOrRestoreAfterRunPersist_recovers job e (by simp)
    (h.maybe (by simp)))
  | .ok () => exact runAndExecute_ends job h

theorem AtHead.start {x : Ctx} (hx : AtHead rest x) :
    At x.job.ref .no .scheduled (x.job.ref :: rest) (x, []) :=
  ⟨rfl, hx.fsm, hx.queue, Admits.nil, (fun _ h => by cases h), caught_nil, Admits.nil, fun _ => rfl,
    fun _ ⟨_, he, _⟩ => (by cases he), nofun⟩

theorem At.received (h : At ref .no v (ref :: rest) s) (t : Turn) :
    (turnExec t .receive s).1 = some ref ∧ At ref .no v rest (turnExec t .receive s).2 := by
  have hr : s.1.chan.queue.head? = some ref := by rw [h.queue]; rfl
  have hq : s.1.chan.queue.tail = rest := by rw [h.queue]; rfl
  exact ⟨hr, h.next t (by simp) h.fsm hq (by simp [Act.refused]) (by simp [Act.applied]) rfl (by simp [Act.start])⟩

theorem Ends.cast {α β : Type} {r : Except Exn α} {r' : Except Exn β} (hr : ∀ e, r = .error e → r' = .error e)
    (h : Ends ref rest r s) : Ends ref rest r' s := by
  rcases h with h | h | h
  · exact .inl ⟨h.place.imp_left fun hq => ⟨hq.raised.imp fun _ he => hr _ he, hq.queue, hq.fsm, hq.status, hq.starts⟩,
      h.order, h.reads, h.caught⟩
  · exact .inr (.inl ⟨h.raised.imp fun _ he => he.imp_left (hr _), h.queue, h.fsm, h.blind, h.reads⟩)
  · exact .inr (.inr ⟨h.queue, h.fsm, h.applied, h.order, h.reads, h.last.imp (And.imp_left (hr _)) (And.imp_left (hr _))⟩)

theorem runOnce_ends (job : Ident) (h : At ref .no .scheduled (ref :: rest) s)
    (hst : s.1.job.status = Status.scheduled.value) :
    soloProto.wp (Worker.runOnce job) (Ends ref rest) s := by
  refine Proto.wp_solo fun t _ => ?_
  obtain ⟨hr, hn⟩ := h.received t
  rw [hr]
  exact Proto.wp_seq (process_ends job hn hst) (fun _ _ h => h.cast (fun _ h => by cases h))
    (fun _ _ h => h.cast (fun _ h => by cases h; rfl))

end

theorem Requeued.not_offChannel {α : Type} {ref : Nat} {rest : List Nat} {r : Except Exn α} {s : SoloState}
    (hq : Requeued ref rest r s) : ¬ OffChannel rest s := fun ho => by
  have hl := congrArg List.length (hq.queue.symm.trans ho.queue)
  simp at hl

theorem Fine.notLost {ref : Nat} {rest : List Nat} {r : Except Exn (Option Nat)} {s : SoloState}
    (h : Fine ref rest r s) : NotLost ref rest r s := by
  refine ⟨fun _ => ?_, h.order⟩
  rcases h.place with hq | ho
  · exact .inl ⟨hq, hq.not_offChannel⟩
  · exact .inr ⟨ho, fun hq => hq.not_offChannel ho⟩

theorem Fine.handled {α : Type} {ref : Nat} {rest : List Nat} {r : Except Exn α} {s : SoloState}
    (h : Fine ref rest r s) : Handled s.2 :=
  ⟨h.reads, fun e he => Act.cancels_of_caught (h.caught e he)⟩

/-- A job in an InProgress that the store did not report, off its channel, is lost. -/
theorem not_notLost_of_blind {ref : Nat} {rest : List Nat} {r : Except Exn (Option Nat)} {s : SoloState}
    (hr : r ≠ .error .hung) (hf : s.1.job.fsm = some .inProgress) (hb : ¬ ReportsRunning s.2) :
    ¬ NotLost ref rest r s := by
  rintro ⟨hplace, -⟩
  rcases hplace hr with ⟨hq, -⟩ | ⟨ho, -⟩
  · cases hf.symm.trans hq.fsm
  · rcases ho.fsm with ⟨v, hv, ht⟩ | ⟨-, hrep⟩
    · obtain rfl := Option.some.inj (hf.symm.trans hv)
      cases ht
    · exact hb hrep

/-- An abandoned job: its call never ends, or it is lost. -/
theorem Abandoned.notLost_iff {ref : Nat} {rest : List Nat} {r : Except Exn (Option Nat)} {s : SoloState}
    (h : Abandoned rest r s) : NotLost ref rest r s ↔ Handled s.2 := by
  rcases h.last with ⟨rfl, hc⟩ | ⟨rfl, e, he, hc⟩
  · exact ⟨fun _ => ⟨h.reads, hc⟩, fun _ => ⟨fun hn => absurd rfl hn, h.order⟩⟩
  · have hlost : ¬ NotLost ref rest (.error .cancelled) s :=
      not_notLost_of_blind (by simp) h.fsm fun hrep => hrep.2 h.applied
    refine ⟨fun hn => absurd hn hlost, fun hk => ?_⟩
    rw [hk.awaited e he] at hc
    cases hc

def queuedCtx : Ctx := { savedCtx with chan := ⟨[0], 0, false⟩ }

def faultsAt (faults : List (Nat × Fault)) (n : Nat) : Turn := { choice := { fault := (faults.lookup n).getD .none } }

/-- Every workflow raises the `CancelledError` of `concurrent.futures`. -/
def cancelledTurn (_ : Nat) : Turn := { choice := { outcome := .error .futuresCancelled } }

end Pypepper
