import Pypepper.StatusSync
/-!
# CancelToken — the cancel event in the tasks' contexts

`cancel` shares the job's cancel event with every task and sets it before it applies CANCEL, and the worker shares it
again before it runs the workflows.  A `cancel` that the transition table refuses has set the event for good: the tasks
of a later run find it set while the machine is InProgress.  No other call does (`token_truthful_iff`).
-/
namespace Pypepper

open Conc (Prog Proto)

/-! ## The law -/

/-- When a workflow starts, its tasks find the cancel event set only in a Cancelled job; its executors start before the
worker's next action. -/
def StartsTruthful (e : JobEv Unit) : Prop :=
  ∀ i w t, e.act.start = some i → e.pre.job.workflows[i]? = some w → t ∈ w.tasks → t.cancelToken = true →
    e.pre.job.cancelEvent = true → e.pre.job.fsm = some .cancelled

/-- The operation is a `cancel` in a state from which no CANCEL leads. -/
def CancelIllegal (s : SoloState) (o : OpStep) : Prop :=
  o.op = .cancel ∧ ∀ v, s.1.job.fsm = some v → Fsm.target .cancel v = none

/-- What the calls of one operation appended to the log. -/
def SoloState.during (s : SoloState) (o : OpStep) : List (JobEv Unit) := (s.op o).2.drop s.2.length

/-- The tasks an operation starts find the truth, and an illegal `cancel` leaves the machine, the status, the cancel
event and the store as they were. -/
structure TokenTruthful (_ : List OpStep) (s : SoloState) (o : OpStep) : Prop where
  starts  : ∀ e ∈ s.during o, StartsTruthful e
  illegal : CancelIllegal s o →
    (s.op o).1.job.fsm = s.1.job.fsm ∧ (s.op o).1.job.status = s.1.job.status ∧
      (s.op o).1.job.cancelEvent = s.1.job.cancelEvent ∧ ∀ e ∈ s.during o, e.post.store = e.pre.store

/-! ## While the event is not set -/

/-- The actions that do not set the event. -/
def Act.Tokenless (a : Act) : Prop := a ≠ .setCancelEvent ∧ ∀ ws, a ≠ .fromRecord ws

theorem Ctx.exec_cancelEvent (c : Choice) {a : Act} (x : Ctx) (h : a.Tokenless) :
    (Ctx.exec c a x).2.job.cancelEvent = x.job.cancelEvent := by
  cases a with
  | setCancelEvent => exact absurd rfl h.1
  | fromRecord ws  => exact absurd rfl (h.2 ws)
  | applyEvent e   => simp only [Ctx.exec, Job.applyEvent]; split <;> [rfl; (split <;> rfl)]
  | put rec        => exact congrArg Job.cancelEvent (Ctx.put_job x rec c.fault)
  | refresh u      => simp only [Ctx.exec, Ctx.refresh]; split <;> rfl
  | send           => simp only [Ctx.exec, Ctx.send]; split <;> rfl
  | _              => rfl

/-- The event is not set, and was not at any action since the log had `n` entries. -/
structure Unset (n : Nat) (s : SoloState) : Prop where
  length : n ≤ s.2.length
  now    : s.1.job.cancelEvent = false
  before : ∀ e ∈ s.2.drop n, e.pre.job.cancelEvent = false

theorem Unset.keeps {n : Nat} {α : Type} {p : JobProg α} (hp : p.Only Act.Tokenless) :
    soloProto.Keeps (Unset n) p := by
  refine Proto.keeps_solo (fun a ha t s _ h => ?_) hp
  constructor
  · rw [length_turnExec]
    exact Nat.le_succ_of_le h.length
  · exact (Ctx.exec_cancelEvent t.choice _ ha).trans h.now
  · intro e he
    rcases mem_drop_turnExec h.length he with he | rfl
    · exact h.before e he
    · exact h.now

theorem Act.Tokenless.recovers : Act.Recovers Act.Tokenless where
  build     := ⟨by simp, by simp⟩
  put _     := ⟨by simp, by simp⟩
  refresh _ := ⟨by simp, by simp⟩
  saved     := ⟨by simp, by simp⟩
  check     := ⟨by simp, by simp⟩
  current   := ⟨by simp, by simp⟩
  event _   := ⟨by simp, by simp⟩
  restore _ := ⟨by simp, by simp⟩
  lifecycle _ _ := ⟨by simp, by simp⟩
  send      := ⟨by simp, by simp⟩

theorem Act.Tokenless.executes : Worker.Executes Act.Tokenless where
  toSaves   := Act.Tokenless.recovers.toSaves
  check     := ⟨by simp, by simp⟩
  workflows := ⟨by simp, by simp⟩
  share     := ⟨by simp, by simp⟩
  start _   := ⟨by simp, by simp⟩
  ended _   := ⟨by simp, by simp⟩
  fail      := ⟨by simp, by simp⟩
  complete  := ⟨by simp, by simp⟩

theorem process_tokenless (job : Ident) : (Worker.process job).Only Act.Tokenless := by
  have hrec := Act.Tokenless.recovers
  have hfail := fun st t e => Worker.failOrRestoreAfterRunPersist_only hrec job st t e
  refine .bind (.call hrec.check) fun _ => .ite (Worker.ensureCancelledPersistedLogged_only hrec.toSaves) ?_
  refine .bind (.call ⟨by simp, by simp⟩) fun st => .bind (.call ⟨by simp, by simp⟩) fun t => ?_
  refine .bind (Worker.heal_only hrec.toSaves job).attempt fun r => ?_
  cases r with
  | error e => exact hfail st t e
  | ok u    =>
    refine .bind (applyEventP_only (hrec.event .run)) fun _ => .bind (save_only hrec.toSaves).attempt fun r => ?_
    cases r with
    | error e    => exact hfail st t e
    | ok applied =>
      cases applied with
      | false => exact Worker.runSkipped_only hrec job st t
      | true  => exact Worker.execute_only Act.Tokenless.executes

/-- **No operation but `cancel` sets the event.** -/
theorem Op.tokenless {op : Op} (h : op ≠ .cancel) (job : Ident) : (op.prog job).Only Act.Tokenless := by
  have hrec := Act.Tokenless.recovers
  cases op with
  | applyEvent e => exact applyEventP_only (hrec.event e)
  | save         => exact .bind (save_only hrec.toSaves) fun _ => .ret ()
  | cancel       => exact absurd rfl h
  | scheduled    =>
    obtain ⟨rest, hrest, hbuilt⟩ := Job.dispatch_built job
    rw [Op.prog, hrest]
    refine .bind (.call ⟨by simp, by simp⟩) fun st => .bind (.call ⟨by simp, by simp⟩) fun t => ?_
    exact hbuilt hrec.toSaves.saveBuilt (fun e => applyEventP_only (hrec.event e)) (.call (hrec.lifecycle st t))
      (.call ⟨by simp, by simp⟩) (.call ⟨by simp, by simp⟩) (.call hrec.send)
  | runOnce      =>
    refine .bind (.call ⟨by simp, by simp⟩) fun r => ?_
    cases r with
    | none   => exact .ret ()
    | some r => exact .ite (process_tokenless job) (.ret ())

/-! ## After the job is Cancelled -/

/-- The actions that start nothing and do not take a machine out of Cancelled. -/
def Act.LeavesCancelled (a : Act) : Prop :=
  a.start = none ∧ (a.movesFsm = false ∨ (∃ e, a = .applyEvent e) ∨ ∃ t, a = .restoreLifecycle (some .cancelled) t)

/-- The machine is Cancelled, and nothing was started since the log had `n` entries. -/
structure Over (n : Nat) (s : SoloState) : Prop where
  length : n ≤ s.2.length
  fsm    : s.1.job.fsm = some .cancelled
  starts : ∀ e ∈ s.2.drop n, e.act.start = none

theorem Over.act {n : Nat} {s : SoloState} (h : Over n s) {a : Act} (ha : a.LeavesCancelled) (t : Turn) :
    Over n (turnExec t a s).2 := by
  constructor
  · rw [length_turnExec]
    exact Nat.le_succ_of_le h.length
  · rcases ha.2 with hm | ⟨e, rfl⟩ | ⟨st, rfl⟩
    · exact (Ctx.exec_fsm t.choice a _ hm).trans h.fsm
    · obtain ⟨v, w, hv, ht, -⟩ | ⟨-, hx⟩ := Ctx.exec_applyEvent t.choice e (t.before s.1)
      · have hv : s.1.job.fsm = some v := hv
        rw [h.fsm] at hv
        cases hv
        rw [Fsm.target_terminal e .cancelled rfl] at ht
        cases ht
      · exact (congrArg (fun p => p.2.job.fsm) hx).trans h.fsm
    · rfl
  · intro e he
    rcases mem_drop_turnExec h.length he with he | rfl
    · exact h.starts e he
    · exact ha.1

theorem Over.keeps {n : Nat} {α : Type} {p : JobProg α} (hp : p.Only Act.LeavesCancelled) :
    soloProto.Keeps (Over n) p := Proto.keeps_solo (fun _ ha t _ _ h => h.act ha t) hp

theorem Act.LeavesCancelled.saves : Act.Saves Act.LeavesCancelled where
  build     := ⟨rfl, .inl rfl⟩
  put _     := ⟨rfl, .inl rfl⟩
  refresh _ := ⟨rfl, .inl rfl⟩
  saved     := ⟨rfl, .inl rfl⟩

/-- **No operation takes a Cancelled job out of its state, or starts anything.** -/
theorem Op.over (op : Op) (job : Ident) {n : Nat} {s : SoloState} (h : Over n s) :
    soloProto.wp (op.prog job) (fun _ => Over n) s := by
  have hsave := Act.LeavesCancelled.saves
  have hevent : ∀ e, Act.LeavesCancelled (.applyEvent e) := fun e => ⟨rfl, .inr (.inl ⟨e, rfl⟩)⟩
  cases op with
  | applyEvent e => exact Over.keeps (applyEventP_only (hevent e)) s h
  | save         => exact Over.keeps (.bind (save_only hsave) fun _ => .ret ()) s h
  | cancel       =>
    exact Over.keeps (Job.cancel_built hsave.saveBuilt (.call ⟨rfl, .inl rfl⟩) (.call ⟨rfl, .inl rfl⟩)
      (applyEventP_only (hevent .cancel))) s h
  | scheduled    =>
    obtain ⟨rest, hrest, hbuilt⟩ := Job.dispatch_built job
    rw [Op.prog, hrest]
    refine Proto.wp_solo fun t₁ _ => Proto.wp_solo fun t₂ _ => ?_
    have h₁ := h.act (a := .fsmCurrent) ⟨rfl, .inl rfl⟩ t₁
    have hst : (turnExec t₁ .fsmCurrent s).1 = some .cancelled := h.fsm
    rw [hst]
    exact Over.keeps (hbuilt hsave.saveBuilt (fun e => applyEventP_only (hevent e))
      (.call ⟨rfl, .inr (.inr ⟨_, rfl⟩)⟩) (.call ⟨rfl, .inl rfl⟩) (.call ⟨rfl, .inl rfl⟩) (.call ⟨rfl, .inl rfl⟩)) _
      (h₁.act ⟨rfl, .inl rfl⟩ t₂)
  | runOnce      =>
    refine Proto.wp_solo fun t₁ _ => ?_
    have h₁ := h.act (a := .receive) ⟨rfl, .inl rfl⟩ t₁
    cases (turnExec t₁ .receive s).1 with
    | none   => exact h₁
    | some r =>
      dsimp only
      split
      · refine Proto.wp_solo fun t₂ _ => ?_
        have hcheck : (turnExec t₂ .isCancelled (turnExec t₁ .receive s).2).1 = true :=
          (Job.isCancelled_iff _).2 h₁.fsm
        rw [hcheck]
        exact Over.keeps (Worker.ensureCancelledPersistedLogged_only hsave) _ (h₁.act ⟨rfl, .inl rfl⟩ t₂)
      · exact h₁

/-! ## `cancel` -/

/-- **A `cancel` without a transition** sets the event and raises, and touches nothing else. -/
theorem cancel_illegal {s : SoloState} (h : ∀ v, s.1.job.fsm = some v → Fsm.target .cancel v = none) :
    soloProto.wp Job.cancel (fun _ s' => s'.1.job.fsm = s.1.job.fsm ∧ s'.1.job.status = s.1.job.status ∧
      s'.1.job.cancelEvent = true ∧ ∀ e ∈ s'.2.drop s.2.length, e.post.store = e.pre.store ∧ e.act.start = none) s := by
  refine Proto.wp_solo fun t₁ _ => Proto.wp_solo fun t₂ _ => Proto.wp_solo fun t₃ _ => ?_
  obtain ⟨v, w, hv, ht, -⟩ | ⟨-, hx⟩ := Ctx.exec_applyEvent t₃.choice .cancel
    (t₃.before (turnExec t₂ .setCancelEvent (turnExec t₁ .shareCancelEvent s).2).2.1)
  · rw [h v hv] at ht
    cases ht
  · have hr : (turnExec t₃ (.applyEvent .cancel) (turnExec t₂ .setCancelEvent (turnExec t₁ .shareCancelEvent s).2).2).1 =
      .error (.internal errorInvalidEvent) := congrArg Prod.fst hx
    rw [hr]
    have hjob : (turnExec t₃ (.applyEvent .cancel) (turnExec t₂ .setCancelEvent (turnExec t₁ .shareCancelEvent s).2).2).2.1.job =
        { s.1.job.shareCancelEvent with cancelEvent := true } := congrArg (fun p => p.2.job) hx
    refine ⟨(congrArg Job.fsm hjob).trans rfl, (congrArg Job.status hjob).trans rfl, congrArg Job.cancelEvent hjob, ?_⟩
    intro e he
    simp only [turnExec, List.append_assoc, List.drop_left, List.mem_append, List.mem_singleton] at he
    rcases he with rfl | rfl | rfl
    · exact ⟨rfl, rfl⟩
    · exact ⟨rfl, rfl⟩
    · exact ⟨congrArg (fun p => p.2.store) hx, rfl⟩

/-- **A `cancel` with a transition** leaves the job Cancelled, having started nothing. -/
theorem cancel_legal {s : SoloState} {v w : Status} (hf : s.1.job.fsm = some v) (ht : Fsm.target .cancel v = some w) :
    soloProto.wp Job.cancel (fun _ => Over s.2.length) s := by
  obtain ⟨rfl, -⟩ := Fsm.target_cancel ht
  refine Proto.wp_solo fun t₁ _ => Proto.wp_solo fun t₂ _ => Proto.wp_solo fun t₃ _ => ?_
  have hx := Ctx.exec_applyEvent_some t₃.choice (e := .cancel)
    (x := t₃.before (turnExec t₂ .setCancelEvent (turnExec t₁ .shareCancelEvent s).2).2.1) hf ht
  have hr : (turnExec t₃ (.applyEvent .cancel) (turnExec t₂ .setCancelEvent (turnExec t₁ .shareCancelEvent s).2).2).1 =
    .ok () := congrArg Prod.fst hx
  rw [hr]
  refine Over.keeps (.bind (save_only Act.LeavesCancelled.saves) fun _ => .ret ()) _ ⟨?_, ?_, ?_⟩
  · simp only [length_turnExec]
    omega
  · exact congrArg (fun p => p.2.job.fsm) hx
  · intro e he
    simp only [turnExec, List.append_assoc, List.drop_left, List.mem_append, List.mem_singleton] at he
    rcases he with rfl | rfl | rfl <;> rfl

/-- No `cancel` without a transition but when the event is set. -/
def TokenKept (_ : List OpStep) (s : SoloState) (o : OpStep) : Prop := CancelIllegal s o → s.1.job.cancelEvent = true

/-- The event is set only in a Cancelled job. -/
def TokenSound (_ : List OpStep) (s : SoloState) : Prop :=
  s.1.job.cancelEvent = true → s.1.job.fsm = some .cancelled

/-- What an operation that starts nothing leaves is the truth. -/
theorem Over.truthful {pre : List OpStep} {s : SoloState} {o : OpStep} (h : Over s.2.length (s.op o))
    (hlegal : ¬ CancelIllegal s o) : TokenTruthful pre s o := by
  constructor
  · intro e he i w t hstart
    rw [h.starts e he] at hstart
    cases hstart
  · intro hill
    exact absurd hill hlegal

theorem not_cancelIllegal {s : SoloState} {o : OpStep} (ho : o.op = .cancel) (h : ¬ CancelIllegal s o) :
    ∃ v w, s.1.job.fsm = some v ∧ Fsm.target .cancel v = some w := by
  by_contra hn
  push Not at hn
  exact h ⟨ho, fun v hv => Option.eq_none_iff_forall_ne_some.2 fun w => hn v w hv⟩

/-- **One operation** tells the truth exactly when it keeps the token, and then the event is set only in a Cancelled
job. -/
theorem op_token {pre : List OpStep} {s : SoloState} (h : TokenSound pre s) (o : OpStep) :
    (TokenTruthful pre s o ↔ TokenKept pre s o) ∧ (TokenKept pre s o → TokenSound (pre ++ [o]) (s.op o)) := by
  by_cases hill : CancelIllegal s o
  · obtain ⟨hfsm, hstatus, hset, hlog⟩ := SoloState.op_of_wp (s := s) (o := o) (by
      rw [hill.1]
      exact cancel_illegal (s := ({ s.1 with chan := o.chan }, s.2)) hill.2)
    constructor
    · constructor
      · intro ht _
        rw [← (ht.illegal hill).2.2.1]
        exact hset
      · intro hk
        constructor
        · intro e he i w t hstart
          rw [(hlog e he).2] at hstart
          cases hstart
        · intro _
          exact ⟨hfsm, hstatus, hset.trans (hk hill).symm, fun e he => (hlog e he).1⟩
    · intro hk _
      exact hfsm.trans (h (hk hill))
  · have hkept : TokenKept pre s o := fun h' => absurd h' hill
    have hover : Over s.2.length (s.op o) →
        (TokenTruthful pre s o ↔ TokenKept pre s o) ∧ (TokenKept pre s o → TokenSound (pre ++ [o]) (s.op o)) := by
      intro ho
      exact ⟨iff_of_true (ho.truthful hill) hkept, fun _ _ => ho.fsm⟩
    have hnil : ∀ e ∈ s.2.drop s.2.length, e.act.start = none := by simp
    by_cases ho : o.op = .cancel
    · obtain ⟨v, w, hv, ht⟩ := not_cancelIllegal ho hill
      apply hover
      apply SoloState.op_of_wp
      rw [ho]
      exact cancel_legal (s := ({ s.1 with chan := o.chan }, s.2)) hv ht
    · cases hset : s.1.job.cancelEvent with
      | true  =>
        exact hover (SoloState.op_of_wp (Op.over o.op _ ⟨Nat.le_refl _, h hset, hnil⟩))
      | false =>
        have hu : Unset s.2.length (s.op o) :=
          SoloState.op_of_wp (Unset.keeps (Op.tokenless ho _) _ ⟨Nat.le_refl _, hset, by simp⟩)
        constructor
        · refine iff_of_true ⟨?_, fun h' => absurd h' hill⟩ hkept
          intro e he i w t _ _ _ _ hpre
          rw [hu.before e he] at hpre
          cases hpre
        · intro _ hnow
          rw [hu.now] at hnow
          cases hnow

/-- **The cancel token tells the truth over a run exactly when no `cancel` without a transition is the first to set
it.** -/
theorem token_truthful_iff (x : Ctx) (hx : x.job.cancelEvent = false) (ops : List OpStep) :
    Calls.Each SoloState.op (x, []) TokenTruthful ops ↔ Calls.Each SoloState.op (x, []) TokenKept ops := by
  refine Calls.each_iff (I := TokenSound) ?_ (fun pre s o h => (op_token h o).1)
    (fun pre s o h hp => (op_token h o).2 ((op_token h o).1.1 hp)) ops
  intro hset
  rw [hx] at hset
  cases hset

/-- A new job with one task. -/
def taskCtx : Ctx :=
  let task : Task :=
    { id := "t", channelId := "default", dagId := "", fingerprint := "", name := "", category := "", description := "",
      tags := [], executor := some 0 }
  { newCtx with job := { newCtx.job with workflows := [⟨[task]⟩] } }

/-- Cancelled once it is scheduled, once more, and processed. -/
theorem token_truthful_cancelled : Calls.Each SoloState.op (taskCtx, []) TokenTruthful
    [⟨.scheduled, newCtx.chan, fun _ => {}⟩, ⟨.cancel, newCtx.chan, fun _ => {}⟩, ⟨.cancel, newCtx.chan, fun _ => {}⟩,
     ⟨.runOnce, { newCtx.chan with queue := [0] }, fun _ => {}⟩] := by
  refine (token_truthful_iff taskCtx rfl _).2 ?_
  simp only [Calls.each_cons]
  refine ⟨?_, ?_, ?_, ?_, Calls.each_nil⟩
  · intro hill
    cases hill.1
  · intro hill
    cases hill.2 .scheduled (by decide)
  · intro _
    decide
  · intro hill
    cases hill.1

/-- A `cancel` before `scheduled` raises; the run then starts the task with the event set in an InProgress job. -/
def earlyCancelOps : List OpStep :=
  [⟨.cancel, newCtx.chan, fun _ => {}⟩, ⟨.scheduled, newCtx.chan, fun _ => {}⟩,
   ⟨.runOnce, { newCtx.chan with queue := [0] }, fun _ => {}⟩]

theorem early_cancel_lies : ¬ Calls.Each SoloState.op (taskCtx, []) TokenTruthful earlyCancelOps ∧
    ∃ e ∈ (opsRun taskCtx earlyCancelOps).2, ¬ StartsTruthful e := by
  constructor
  · intro h
    have hfirst := (Calls.each_cons.1 h).1
    have hset := (hfirst.illegal ⟨rfl, by decide⟩).2.2.1
    cases hset
  · refine ⟨_, List.mem_of_getElem? (i := 25) rfl, ?_⟩
    intro h
    cases h 0 _ _ rfl rfl List.mem_cons_self rfl rfl

end Pypepper
