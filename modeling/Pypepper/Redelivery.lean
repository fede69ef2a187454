import Pypepper.RunOnce
/-!
# Redelivery — whether a job that was sent back can run

A job dequeued in Scheduled, over a Scheduled row or none, is sent back by `run_once` after store calls raised.  The next
`run_once` that dequeues it, on a store that works, runs its workflows if the row is still the Scheduled one at the job's
own version.  A fault between an applied put and the get that refreshes the version leaves the row ahead of the job, and
the redelivered job then follows the row instead of running (`redelivers_iff`).
-/
namespace Pypepper

open Conc (Prog Proto Ev Admits)

/-- Store calls may raise, without effect; nobody else writes; a workflow does not raise the worker's `JobRequeuedError`. -/
structure MayRaise (t : Turn) : Prop where
  alone   : t.others = id
  fault   : t.choice.fault ≠ .refuses
  outcome : ∀ msg, t.choice.outcome ≠ .error (.requeued msg)

/-- The store works, nobody else writes, and the workflows succeed. -/
structure Works (t : Turn) : Prop where
  alone   : t.others = id
  fault   : t.choice.fault = .none
  outcome : t.choice.outcome = .ok ()

/-- The answer of a version refresh. -/
def Act.refreshed : (a : Act) → a.Res → Option (Except Exn Unit)
  | .refresh _, r => some r
  | _,          _ => none

def spoils (t : String) : Prop := t = Status.inProgress.value ∨ t = Status.failed.value

instance (t : String) : Decidable (spoils t) := inferInstanceAs (Decidable (_ ∨ _))

/-- The refresh just after an applied InProgress or Failed put does not raise. -/
def RefreshKept (before : List (JobEv Unit)) (e : JobEv Unit) : Prop :=
  ∀ e₁ ∈ before.getLast?, ∀ rec ∈ e₁.act.applied e₁.res, spoils rec.status →
    (e.act.refreshed e.res).all Except.isOk = true

instance (before : List (JobEv Unit)) (e : JobEv Unit) : Decidable (RefreshKept before e) :=
  inferInstanceAs (Decidable (∀ e₁ ∈ before.getLast?, ∀ rec ∈ e₁.act.applied e₁.res, _ → _ = true))

/-- The row, if there is one, is at the job's own version. -/
def OwnVersion (x : Ctx) : Prop := ∀ d ∈ x.row, d.version = x.job.version

/-- The redelivered job ran all its workflows and is Completed, as its row is. -/
structure Completes (n : Nat) (s : SoloState) : Prop where
  starts : starts s.2 = List.range n
  fsm    : s.1.job.fsm = some .completed
  row    : ∃ d, s.1.row = some d ∧ d.status = Status.completed.value

/-- The job of `y` again at the head of its channel, over the same row. -/
structure Redelivered (y next : Ctx) (rest : List Nat) : Prop where
  job   : next.job = y.job
  row   : next.row = y.row
  queue : next.chan.queue = next.job.ref :: rest

/-! ## The row a run leaves behind -/

/-- The row is the Scheduled one at the job's own version, or there is none. -/
def Agrees (x : Ctx) : Prop := ∀ d, x.row = some d → d.status = Status.scheduled.value ∧ d.version = x.job.version

/-- The row refuses the job's InProgress put. -/
def Stuck (x : Ctx) : Prop := ∃ d, x.row = some d ∧ (d.status = Status.failed.value ∨
  ((d.status = Status.scheduled.value ∨ d.status = Status.inProgress.value) ∧ d.version ≠ x.job.version))

def Kept (x₀ : Ctx) (log : List (JobEv Unit)) : Prop := OwnVersion x₀ ∧ Admits RefreshKept log

/-- **The row tells whether the condition still holds.** -/
def Track (x₀ : Ctx) (s : SoloState) : Prop := (Kept x₀ s.2 ∧ Agrees s.1) ∨ (¬ Kept x₀ s.2 ∧ Stuck s.1)

abbrev faultyProto : Proto Act Act.Res SoloState := Proto.solo turnExec MayRaise

abbrev workingProto : Proto Act Act.Res SoloState := Proto.solo turnExec Works

section
variable {x₀ : Ctx} {v u : Status} {s s' : SoloState} {e : JobEv Unit}

theorem Track.step (h : Track x₀ s) (hlog : s'.2 = s.2 ++ [e]) (hk : RefreshKept s.2 e) (ha : Agrees s.1 → Agrees s'.1)
    (hs : Stuck s.1 → Stuck s'.1) : Track x₀ s' := by
  rcases h with ⟨⟨ho, hr⟩, h⟩ | ⟨hn, h⟩
  · refine .inl ⟨⟨ho, ?_⟩, ha h⟩
    rw [hlog]
    exact hr.append hk
  · refine .inr ⟨fun ⟨ho, hr⟩ => hn ⟨ho, ?_⟩, hs h⟩
    rw [hlog] at hr
    exact hr.of_append.1

theorem Track.spoiled (hlog : s'.2 = s.2 ++ [e]) (hk : ¬ RefreshKept s.2 e) (hs : Stuck s'.1) : Track x₀ s' := by
  refine .inr ⟨fun ⟨_, hr⟩ => hk ?_, hs⟩
  rw [hlog] at hr
  exact hr.of_append.2

/-- A job of the first run, in a state from which it may still be sent back. -/
structure Before (x₀ : Ctx) (v : Status) (s : SoloState) : Prop where
  id    : s.1.job.id = x₀.job.id
  fsm   : s.1.job.fsm = some v
  count : s.1.job.workflows.length = x₀.job.workflows.length
  track : Track x₀ s
  calm  : ∀ e ∈ s.2.getLast?, ∀ rec ∈ e.act.applied e.res, ¬ spoils rec.status

theorem Before.kept (h : Before x₀ v s) (e : JobEv Unit) : RefreshKept s.2 e :=
  fun e₁ he rec hrec hs => absurd hs (h.calm e₁ he rec hrec)

/-- **One action** that applies no InProgress or Failed put. -/
theorem Before.next {a : Act} {t : Turn} (ht : MayRaise t) (h : Before x₀ v s) {r : a.Res} {x : Ctx}
    (hx : Ctx.exec t.choice a s.1 = (r, x)) (hid : x.job.id = s.1.job.id) (hf : x.job.fsm = some u)
    (hc : x.job.workflows.length = s.1.job.workflows.length) (ha : Agrees s.1 → Agrees x) (hs : Stuck s.1 → Stuck x)
    (hp : ∀ rec ∈ a.applied r, ¬ spoils rec.status) : Before x₀ u (turnExec t a s).2 := by
  rw [turnExec_alone ht.alone hx]
  refine ⟨hid.trans h.id, hf, hc.trans h.count, h.track.step rfl (h.kept _) ha hs, ?_⟩
  intro e he rec hrec
  simp only [List.getLast?_concat, Option.mem_def, Option.some.injEq] at he
  subst he
  exact hp rec hrec

/-- An action that changes nothing. -/
theorem Before.same {a : Act} {t : Turn} (ht : MayRaise t) (h : Before x₀ v s) {r : a.Res}
    (hx : Ctx.exec t.choice a s.1 = (r, s.1)) (hp : a.applied r = none) : Before x₀ v (turnExec t a s).2 :=
  h.next ht hx rfl h.fsm rfl (fun h => h) (fun h => h) (fun rec hrec => by rw [hp] at hrec; cases hrec)

theorem Before.event {t : Turn} (ht : MayRaise t) (h : Before x₀ v s) {e : Event} (htg : Fsm.target e v = some u) :
    (turnExec t (.applyEvent e) s).1 = .ok () ∧ Before x₀ u (turnExec t (.applyEvent e) s).2 := by
  have hx := Ctx.exec_applyEvent_some t.choice h.fsm htg
  exact ⟨by rw [turnExec_alone ht.alone hx], h.next ht hx rfl rfl rfl (fun h => h) (fun h => h) (fun _ h => by cases h)⟩

theorem Before.restore {t : Turn} (ht : MayRaise t) (h : Before x₀ v s) :
    Before x₀ u (turnExec t (.restore u) s).2 :=
  h.next ht rfl rfl rfl rfl (fun h => h) (fun h => h) (fun _ h => by cases h)

theorem Before.check {t : Turn} (h : Before x₀ v s) (hv : v ≠ .cancelled) : (turnExec t .isCancelled s).1 = false := by
  have hne : ¬ s.1.job.isCancelled = true := by
    rw [Job.isCancelled_iff, h.fsm]
    simpa using hv
  exact Bool.eq_false_iff.2 hne

/-! ## Saves of the first run -/

/-- An InProgress or Failed record was just written, and the version not yet refreshed. -/
structure Ahead (x₀ : Ctx) (v : Status) (s : SoloState) : Prop where
  id    : s.1.job.id = x₀.job.id
  fsm   : s.1.job.fsm = some v
  count : s.1.job.workflows.length = x₀.job.workflows.length
  stuck : Stuck s.1
  last  : ∃ e ∈ s.2.getLast?, ∃ rec ∈ e.act.applied e.res, spoils rec.status

/-- After the job's InProgress or Failed record was written, its row refuses the job. -/
theorem stuck_of_written {x : Ctx} {st : InMemoryJobStore} {rec d : JobRecord} (hst : st.get x.job.id = some d)
    (hds : d.status = rec.status) (hrec : spoils rec.status) (hver : rec.version = x.job.version)
    (hrow : (x.row = none ∧ d = rec ∧ rec.status = Status.failed.value) ∨
      ∃ d₀, x.row = some d₀ ∧ InMemoryJobStore.MayWrite d₀ rec ∧ d = InMemoryJobStore.updated d₀ rec) :
    Stuck { x with store := st } := by
  refine ⟨d, hst, ?_⟩
  rcases hrow with ⟨-, -, hf⟩ | ⟨d₀, -, hw, rfl⟩
  · exact .inl (hds.trans hf)
  · rcases hrec with hi | hf
    · refine .inr ⟨.inr (hds.trans hi), ?_⟩
      show d₀.version + 1 ≠ x.job.version
      have := hw.2
      omega
    · exact .inl (hds.trans hf)

def RaisesRequeued {α : Type} (r : Except Exn α) : Prop := ∃ msg, r = .error (.requeued msg)

theorem not_raisesRequeued_ok {α : Type} (a : α) : ¬ RaisesRequeued (.ok a : Except Exn α) := by
  rintro ⟨_, h⟩
  cases h

theorem not_raisesRequeued_store {α : Type} (m : String) : ¬ RaisesRequeued (.error (.store m) : Except Exn α) := by
  rintro ⟨_, h⟩
  cases h

/-- The record that a save builds from the job. -/
structure FromJob (v : Status) (rec : JobRecord) (x : Ctx) : Prop where
  id      : rec.id = x.job.id
  status  : rec.status = v.value
  version : rec.version = x.job.version

/-- **A save with nobody else writing**: the put is of the job's own record, on the row as it was. -/
theorem wp_save_alone {ok : Turn → Prop} {v : Status} {P : SoloState → Prop} {W : JobRecord → SoloState → Prop}
    {Q : Except Exn Bool → SoloState → Prop} (hok : ∀ t, ok t → t.others = id) (hfsm : ∀ s, P s → s.1.job.fsm = some v)
    (build : ∀ s t, ok t → P s → P (turnExec t .buildRecord s).2)
    (put : ∀ rec s t, ok t → P s → FromJob v rec s.1 → match (turnExec t (.put rec) s).1 with
      | .ok true => W rec (turnExec t (.put rec) s).2
      | .ok false => Q (.ok false) (turnExec t (.put rec) s).2
      | .error e => Q (.error e) (turnExec t (.put rec) s).2)
    (refresh : ∀ rec s t, ok t → W rec s → match (turnExec t (.refresh rec.updated) s).1 with
      | .ok () => Q (.ok true) (turnExec t (.refresh rec.updated) s).2
      | .error e => Q (.error e) (turnExec t (.refresh rec.updated) s).2)
    {s : SoloState} (hs : P s) : (Proto.solo turnExec ok).wp Job.save Q s := by
  refine wp_save (P := P) (B := fun rec s => P s ∧ FromJob v rec s.1) (W := W) (Proto.solo_stable _)
    (fun _ => Proto.solo_stable _) (fun _ => Proto.solo_stable _) ?_ ?_ ?_ hs
  · rintro s rec s' h ⟨t, ht, rfl, rfl⟩
    refine ⟨trivial, build s t ht h, ?_⟩
    rw [turnExec_alone (hok t ht) (a := .buildRecord) rfl]
    exact ⟨rfl, Job.currentStatus_of_fsm (hfsm s h), rfl⟩
  · rintro rec s r s' ⟨h, hrec⟩ ⟨t, ht, rfl, rfl⟩
    exact ⟨trivial, put rec s t ht h hrec⟩
  · rintro rec s r s' h ⟨t, ht, rfl, rfl⟩
    exact ⟨trivial, refresh rec s t ht h⟩

/-- **A save of the RUN or the Failed snapshot**: unless it returns True, the job may still be sent back, and the row
tells in which condition. -/
theorem spoilingSave_before (hv : spoils v.value) (hrow : v = .inProgress → s.1.row.isSome) (h : Before x₀ v s) :
    faultyProto.wp Job.save (fun r s => r = .ok true ∨ (Before x₀ v s ∧ ¬ RaisesRequeued r)) s := by
  refine wp_save_alone (v := v) (P := fun s => Before x₀ v s ∧ (v = .inProgress → s.1.row.isSome))
    (W := fun _ => Ahead x₀ v) (fun _ ht => ht.alone) (fun _ h => h.1.fsm) ?_ ?_ ?_ ⟨h, hrow⟩
  · rintro s t ht ⟨h, hrow⟩
    have hn := h.same (a := .buildRecord) ht rfl rfl
    rw [turnExec_alone ht.alone (a := .buildRecord) rfl] at hn ⊢
    exact ⟨hn, hrow⟩
  · rintro rec s t ht ⟨h, hrow⟩ ⟨hid, hst, hver⟩
    cases hfault : t.choice.fault with
    | refuses => exact absurd hfault ht.fault
    | raises =>
      have hx := Ctx.exec_put_raises t.choice rec s.1 hfault
      have hn := h.same ht hx rfl
      rw [turnExec_alone ht.alone hx] at hn ⊢
      exact .inr ⟨hn, not_raisesRequeued_store _⟩
    | none =>
      obtain ⟨st, d, hx, hd, hds, hcase⟩ | ⟨d₀, -, -, hx⟩ := Ctx.exec_put_own t.choice hfault hid
      · rw [turnExec_alone ht.alone hx]
        refine ⟨h.id, h.fsm, h.count, ?_, _, List.getLast?_concat, rec, rfl, by rw [hst]; exact hv⟩
        refine stuck_of_written hd hds (by rw [hst]; exact hv) hver (hcase.imp_left ?_)
        rintro ⟨hn, hd⟩
        refine ⟨hn, hd, ?_⟩
        rcases hv with hi | hf
        · have hsome := hrow (Status.value_injective hi)
          rw [hn] at hsome
          cases hsome
        · exact hst.trans hf
      · have hn := h.same ht hx rfl
        rw [turnExec_alone ht.alone hx] at hn ⊢
        exact .inr ⟨hn, not_raisesRequeued_ok _⟩
  · intro rec s t ht h
    cases hr : (turnExec t (.refresh rec.updated) s).1 with
    | ok u => exact .inl rfl
    | error e =>
      rw [turnExec_alone ht.alone (Prod.eta _).symm] at hr
      have hx := Ctx.exec_refresh_error t.choice rec.updated s.1 hr
      rw [hx] at hr
      rw [turnExec_alone ht.alone hx]
      obtain rfl := Except.error.inj hr
      refine .inr ⟨⟨h.id, h.fsm, h.count, Track.spoiled rfl (fun hk => ?_) h.stuck, ?_⟩, not_raisesRequeued_store _⟩
      · obtain ⟨e₁, he, rec, hrec, hs⟩ := h.last
        cases hk e₁ he rec hrec hs
      · intro e he rec hrec
        simp only [List.getLast?_concat, Option.mem_def, Option.some.injEq] at he
        subst he
        cases hrec

theorem Agrees.not_stuck {x : Ctx} (h : Agrees x) : ¬ Stuck x := by
  rintro ⟨d, hd, hf | ⟨-, hv⟩⟩
  · have := (h d hd).1.symm.trans hf
    simp at this
  · exact hv (h d hd).2

/-- The save of the missing Scheduled snapshot. -/
theorem scheduledSave_before (hrow : s.1.row = none) (h : Before x₀ .scheduled s) :
    faultyProto.wp Job.save (fun r s => Before x₀ .scheduled s ∧ ¬ RaisesRequeued r ∧ r ≠ .ok false ∧
      (r = .ok true → s.1.row.isSome)) s := by
  refine wp_save_alone (v := .scheduled) (P := fun s => Before x₀ .scheduled s ∧ s.1.row = none)
    (W := fun _ s => Before x₀ .scheduled s ∧ Agrees s.1 ∧ s.1.row.isSome) (fun _ ht => ht.alone) (fun _ h => h.1.fsm)
    ?_ ?_ ?_ ⟨h, hrow⟩
  · rintro s t ht ⟨h, hrow⟩
    have hn := h.same (a := .buildRecord) ht rfl rfl
    rw [turnExec_alone ht.alone (a := .buildRecord) rfl] at hn ⊢
    exact ⟨hn, hrow⟩
  · rintro rec s t ht ⟨h, hrow⟩ ⟨hid, hst, hver⟩
    cases hfault : t.choice.fault with
    | refuses => exact absurd hfault ht.fault
    | raises =>
      have hx := Ctx.exec_put_raises t.choice rec s.1 hfault
      have hn := h.same ht hx rfl
      rw [turnExec_alone ht.alone hx] at hn ⊢
      exact ⟨hn, not_raisesRequeued_store _, by simp, by simp⟩
    | none =>
      obtain ⟨st, d, hx, hd, -, hcase⟩ | ⟨d₀, hd₀, -, -⟩ := Ctx.exec_put_own t.choice hfault hid
      · obtain ⟨-, rfl⟩ | ⟨d₀, hd₀, -⟩ := hcase
        · have hagrees : Agrees { s.1 with store := st } := fun d' hd' => by
            obtain rfl := Option.some.inj (hd.symm.trans hd')
            exact ⟨hst, hver⟩
          have hn : Before x₀ .scheduled (turnExec t (.put d) s).2 := by
            refine h.next ht hx rfl h.fsm rfl (fun _ => hagrees) ?_ (fun rec hrec => ?_)
            · rintro ⟨d', hd', -⟩
              rw [hrow] at hd'
              cases hd'
            · obtain rfl := Option.some.inj hrec
              rw [hst]
              decide
          rw [turnExec_alone ht.alone hx] at hn ⊢
          refine ⟨hn, hagrees, ?_⟩
          show (st.get s.1.job.id).isSome
          rw [hd]
          rfl
        · rw [hrow] at hd₀
          cases hd₀
      · rw [hrow] at hd₀
        cases hd₀
  · rintro rec s t ht ⟨h, hagrees, hrow⟩
    obtain ⟨d, hd⟩ := Option.isSome_iff_exists.1 hrow
    by_cases hfault : t.choice.fault = .raises
    · have hx := Ctx.exec_refresh_raises t.choice rec.updated s.1 hfault
      have hn := h.same ht hx rfl
      rw [turnExec_alone ht.alone hx] at hn ⊢
      exact ⟨hn, not_raisesRequeued_store _, by simp, by simp⟩
    · have hx := Ctx.exec_refresh_some t.choice rec.updated s.1 hfault hd
      have hn : Before x₀ .scheduled (turnExec t (.refresh rec.updated) s).2 := by
        refine h.next ht hx rfl h.fsm rfl (fun ha d' hd' => ?_) (fun hs => absurd hs hagrees.not_stuck)
          (fun _ hrec => by cases hrec)
        obtain rfl := Option.some.inj (hd.symm.trans hd')
        exact ⟨(ha d hd).1, rfl⟩
      rw [turnExec_alone ht.alone hx] at hn ⊢
      exact ⟨hn, not_raisesRequeued_ok _, by simp, fun _ => hrow⟩

theorem getSaved_before (h : Before x₀ v s) : faultyProto.wp Job.getSaved (fun r s => Before x₀ v s ∧
    (r = .ok s.1.row ∨ r = .error (.store "get"))) s := by
  refine Proto.wp_solo fun t ht => ?_
  have hn := h.same (a := .getSaved) ht rfl rfl
  rw [turnExec_alone ht.alone (a := .getSaved) rfl] at hn ⊢
  unfold Ctx.get at hn ⊢
  split at hn
  · exact ⟨hn, .inr rfl⟩
  · exact ⟨hn, .inl rfl⟩

theorem heal_before (job : Ident) (h : Before x₀ .scheduled s) : faultyProto.wp (Worker.heal job)
    (fun r s => Before x₀ .scheduled s ∧ ¬ RaisesRequeued r ∧ (r = .ok () → s.1.row.isSome)) s := by
  refine Proto.wp_seq (getSaved_before h) (fun saved s h => ?_) (fun e s h => ?_)
  · obtain ⟨h, hr | hr⟩ := h
    · obtain rfl := Except.ok.inj hr
      cases hrow : s.1.row with
      | some d => exact ⟨h, (fun ⟨_, he⟩ => by cases he), fun _ => by rw [hrow]; rfl⟩
      | none =>
        refine Proto.wp_seq (scheduledSave_before hrow h) (fun applied s h => ?_) (fun e s h => ?_)
        · obtain ⟨h, -, hf, hrow⟩ := h
          cases applied with
          | true => exact ⟨h, (fun ⟨_, he⟩ => by cases he), fun _ => hrow rfl⟩
          | false => exact absurd rfl hf
        · obtain ⟨h, hreq, -⟩ := h
          exact ⟨h, (fun ⟨m, he⟩ => hreq ⟨m, by cases he; rfl⟩), by simp⟩
    · cases hr
  · obtain ⟨h, hr | hr⟩ := h
    · cases hr
    · obtain rfl := Except.error.inj hr
      exact ⟨h, (fun ⟨_, he⟩ => by cases he), by simp⟩

/-! ## Programs that never raise `JobRequeuedError` -/

/-- The program raises no `JobRequeuedError`. -/
abbrev Unrequeued {α : Type} (p : JobProg α) : Prop :=
  faultyProto.Raises (fun _ => True) (fun e => ∀ msg, e ≠ .requeued msg) p

/-- In the first run no action answers with a `JobRequeuedError`. -/
theorem faulty_tame : Act.Tame faultyProto (fun _ => True) (fun e => ∀ msg, e ≠ .requeued msg) where
  stable := Proto.solo_stable _
  runtime := by simp
  value := by simp
  step := by
    rintro a s r s' - - - ⟨t, ht, rfl, rfl⟩
    refine ⟨trivial, trivial, fun e he => ?_⟩
    rcases Ctx.exec_error t.choice a (t.before s.1) e he with ⟨m, rfl⟩ | ⟨m, rfl⟩ | ⟨m, rfl⟩ | ⟨-, ho⟩
    · simp
    · simp
    · simp
    · rcases toThread_eq_error ho with rfl | rfl | ho
      · simp
      · simp
      · rintro msg rfl
        exact ht.outcome msg ho

/-! ## The first run -/

/-- What is left when the job was sent back. -/
def SentBack {α : Type} (x₀ : Ctx) (r : Except Exn α) (s : SoloState) : Prop :=
  RaisesRequeued r → Before x₀ .scheduled s ∧ s.1.job.status = Status.scheduled.value

theorem Unrequeued.sentBack {α : Type} {p : JobProg α} (h : Unrequeued p) (s : SoloState) :
    faultyProto.wp p (SentBack x₀) s :=
  Proto.wp_mono (fun _ _ hr ⟨m, he⟩ => absurd rfl (hr.2 _ he m)) _ _ (h s trivial)

theorem forceFailedLifecycle_before (h : Before x₀ v s) :
    faultyProto.wp Worker.forceFailedLifecycle (fun r s => r = .ok () ∧ Before x₀ .failed s) s := by
  refine wp_forceFailedLifecycle (P := Before x₀ v) (Q := Before x₀ .failed) (Proto.solo_stable _) ?_ ?_ ?_ h
  · rintro s r s' h ⟨t, ht, rfl, rfl⟩
    have hn := h.same (a := .currentStatus) ht rfl rfl
    refine ⟨trivial, hn, fun hr => ?_⟩
    have hv : v.value = Status.failed.value := by
      have hc : s.1.job.currentStatus = v.value := Job.currentStatus_of_fsm h.fsm
      exact hc.symm.trans hr
    rwa [Status.value_injective hv] at hn
  · rintro s r s' h ⟨t, ht, rfl, rfl⟩
    refine ⟨trivial, ?_⟩
    cases htg : Fsm.target .fail v with
    | none =>
      have hx := Ctx.exec_applyEvent_none t.choice h.fsm htg
      have hn := h.same ht hx rfl
      rw [turnExec_alone ht.alone hx] at hn ⊢
      exact hn
    | some u =>
      obtain ⟨hr, hn⟩ := h.event ht htg
      rw [hr]
      rwa [Fsm.target_fail htg] at hn
  · rintro s r s' h ⟨t, ht, rfl, rfl⟩
    exact ⟨trivial, h.restore ht⟩

theorem requeueAfterRunRestore_before (job : Ident) (h : Before x₀ .scheduled s)
    (hst : s.1.job.status = Status.scheduled.value) :
    faultyProto.wp (Worker.requeueAfterRunRestore job) (SentBack x₀) s := by
  refine Proto.wp_solo fun t ht => ?_
  have hmark : ∀ msg reason ref s, faultyProto.wp (do
      Worker.markUndeliverableFailed
      Prog.raise (.redelivery msg reason ref) : JobProg Unit) (SentBack x₀) s := fun msg reason ref s =>
    Unrequeued.sentBack ((Worker.markUndeliverableFailed_raises faulty_tame).bind fun _ => .raise (by simp)) s
  cases hr : (turnExec t .send s).1 with
  | full => exact hmark _ _ _ _
  | stopped => exact hmark _ _ _ _
  | ok =>
    obtain ⟨r, x, hx⟩ : ∃ r x, Ctx.exec t.choice .send s.1 = (r, x) := ⟨_, _, rfl⟩
    have hjob : x.job = s.1.job := by
      have h := (Ctx.exec_send t.choice s.1).1
      rwa [hx] at h
    have hrow : x.row = s.1.row := by
      have h := Ctx.exec_store t.choice .send s.1 (by simp)
      rw [hx] at h
      rw [Ctx.row, hjob, h]
      rfl
    have hn : Before x₀ .scheduled (turnExec t .send s).2 := by
      refine h.next ht hx (congrArg Job.id hjob) ((congrArg Job.fsm hjob).trans h.fsm) (by rw [hjob])
        (fun ha d hd => ?_) ?_ (fun _ hrec => by cases hrec)
      · rw [hrow] at hd
        rw [hjob]
        exact ha d hd
      · rintro ⟨d, hd, hs⟩
        refine ⟨d, hrow.trans hd, ?_⟩
        rw [hjob]
        exact hs
    refine fun _ => ⟨hn, ?_⟩
    rw [turnExec_alone ht.alone hx]
    exact (congrArg Job.status hjob).trans hst

/-- **`_fail_or_restore_after_run_persist` of the first run.** -/
theorem failOrRestoreAfterRunPersist_before (job : Ident) {e : Exn} (he : ∀ msg, e ≠ .requeued msg)
    (hv : v ≠ .cancelled) (h : Before x₀ v s) :
    faultyProto.wp (Worker.failOrRestoreAfterRunPersist job (some .scheduled) Status.scheduled.value e)
      (SentBack x₀) s := by
  refine Proto.wp_try (M := fun r s => r = .ok () ∨ Before x₀ .failed s) ?_ (fun r s h => ?_)
  · refine Proto.wp_solo fun t ht => ?_
    rw [h.check hv]
    refine Proto.wp_seq (forceFailedLifecycle_before (h.same (a := .isCancelled) ht rfl rfl)) (fun _ s h => ?_)
      (fun _ _ h => .inr h.2)
    refine Proto.wp_seq (spoilingSave_before (.inr rfl) (by simp) h.2) (fun saved s h => ?_) (fun _ _ h => ?_)
    · cases saved with
      | true => exact .inl rfl
      | false => exact .inr (h.resolve_left (by simp)).1
    · exact .inr (h.resolve_left (by simp)).1
  · match r, h with
    | .ok (), _ => exact fun ⟨m, hm⟩ => absurd (Except.error.inj hm) (he m)
    | .error e', h =>
      have h := h.resolve_left (by simp)
      refine Proto.wp_solo fun t ht => ?_
      rw [h.check (by simp)]
      have h₁ := h.same (a := .isCancelled) ht rfl rfl
      refine Proto.wp_solo fun t' ht' => ?_
      have hback : Before x₀ .scheduled (turnExec t' (.restoreLifecycle (some .scheduled) Status.scheduled.value)
          (turnExec t .isCancelled s).2).2 :=
        h₁.next ht' rfl rfl rfl rfl (fun h => h) (fun h => h) (fun _ h => by cases h)
      exact Proto.wp_seq (requeueAfterRunRestore_before job hback rfl)
        (fun _ _ _ ⟨m, hm⟩ => absurd (Except.error.inj hm) (he m)) (fun _ _ h ⟨m, hm⟩ => h ⟨m, by cases hm; rfl⟩)

theorem runSkipped_before (job : Ident) (h : Before x₀ .inProgress s) :
    faultyProto.wp (Worker.runSkipped job (some .scheduled) Status.scheduled.value) (SentBack x₀) s := by
  have hlog : Unrequeued _ := Worker.ensureCancelledPersistedLogged_raises faulty_tame
  refine Proto.wp_seq (getSaved_before h) (fun saved s h => ?_) (fun e s h ⟨m, hm⟩ => ?_)
  · dsimp only
    split
    · refine Unrequeued.sentBack ((faulty_tame.call .isCancelled (by simp) (by simp)).bind fun cancelled => ?_) s
      cases cancelled with
      | true => exact hlog
      | false => exact (faulty_tame.event .cancel).bind fun _ => hlog
    · split
      · rename_i t _
        refine Unrequeued.sentBack ?_ s
        unfold Worker.followDurableStatus
        split
        · exact faulty_tame.call _ (by simp) (by simp)
        · exact .raise (by simp)
      · exact failOrRestoreAfterRunPersist_before job (by simp) (by simp) h.1
  · obtain ⟨-, hr | hr⟩ := h
    · cases hr
    · rw [Except.error.inj hr] at hm
      cases hm

theorem runAndExecute_before (job : Ident) (h : Before x₀ .scheduled s) (hrow : s.1.row.isSome) :
    faultyProto.wp (Worker.runAndExecute job (some .scheduled) Status.scheduled.value) (SentBack x₀) s := by
  refine Proto.wp_seq (M := fun r s => r = .ok () ∧ Before x₀ .inProgress s ∧ s.1.row.isSome) ?_ (fun _ s h => ?_)
    (fun _ _ h => by cases h.1)
  · refine Proto.wp_solo fun t ht => ?_
    obtain ⟨hr, hn⟩ := h.event (u := .inProgress) ht (e := .run) rfl
    rw [hr]
    refine ⟨rfl, hn, ?_⟩
    rw [turnExec_alone ht.alone (Ctx.exec_applyEvent_some t.choice h.fsm (t := .inProgress) rfl)]
    exact hrow
  · refine Proto.wp_try (spoilingSave_before (.inl rfl) (fun _ => h.2.2) h.2.1) (fun r s h => ?_)
    match r, h with
    | .error e, h =>
      obtain ⟨h, hr⟩ := h.resolve_left (by simp)
      exact failOrRestoreAfterRunPersist_before job (fun m he => hr ⟨m, by rw [he]⟩) (by simp) h
    | .ok false, h => exact runSkipped_before job (h.resolve_left (by simp)).1
    | .ok true, _ => exact Unrequeued.sentBack (Worker.execute_raises faulty_tame) s

theorem process_before (job : Ident) (h : Before x₀ .scheduled s) (hst : s.1.job.status = Status.scheduled.value) :
    faultyProto.wp (Worker.process job) (SentBack x₀) s := by
  refine Proto.wp_solo fun t₁ ht₁ => ?_
  rw [h.check (by simp)]
  have h₁ := h.same (a := .isCancelled) ht₁ rfl rfl
  refine Proto.wp_solo fun t₂ ht₂ => ?_
  have hprev : (turnExec t₂ .fsmCurrent (turnExec t₁ .isCancelled s).2).1 = some .scheduled := h₁.fsm
  rw [hprev]
  have h₂ := h₁.same (a := .fsmCurrent) ht₂ rfl rfl
  refine Proto.wp_solo fun t₃ ht₃ => ?_
  have hstatus : (turnExec t₃ .status (turnExec t₂ .fsmCurrent (turnExec t₁ .isCancelled s).2).2).1 =
      Status.scheduled.value := hst
  rw [hstatus]
  refine Proto.wp_try (heal_before job (h₂.same (a := .status) ht₃ rfl rfl)) (fun r s h => ?_)
  obtain ⟨h, hr, hrow⟩ := h
  match r with
  | .error e => exact failOrRestoreAfterRunPersist_before job (fun m he => hr ⟨m, by rw [he]⟩) (by simp) h
  | .ok () => exact runAndExecute_before job h (hrow rfl)

/-- **The first run**: a job sent back is in Scheduled again, and its row tells whether the condition held. -/
theorem soloRun_sentBack {x : Ctx} {rest : List Nat} (hx : AtHead rest x)
    (hrow : ∀ d, x.row = some d → d.status = Status.scheduled.value) {turns : Nat → Turn} (ht : ∀ n, MayRaise (turns n)) :
    SentBack x (soloRun x turns).1 (soloRun x turns).2 := by
  have htrack : Track x (x, []) := by
    by_cases ho : OwnVersion x
    · exact .inl ⟨⟨ho, Admits.nil⟩, fun d hd => ⟨hrow d hd, ho d hd⟩⟩
    · refine .inr ⟨fun hk => ho hk.1, ?_⟩
      simp only [OwnVersion, not_forall] at ho
      obtain ⟨d, hd, hv⟩ := ho
      exact ⟨d, hd, .inr ⟨.inl (hrow d hd), hv⟩⟩
  have h0 : Before x .scheduled (x, []) := ⟨rfl, hx.fsm, rfl, htrack, (fun _ h => by cases h)⟩
  have hwp : faultyProto.wp (Worker.runOnce x.job.ident) (SentBack x) (x, []) := by
    refine Proto.wp_solo fun t ht => ?_
    have hr : (turnExec t .receive (x, [])).1 = some x.job.ref := by
      show x.chan.queue.head? = _
      rw [hx.queue]
      rfl
    have hn : Before x .scheduled (turnExec t .receive (x, [])).2 :=
      h0.next ht rfl rfl hx.fsm rfl (fun h => h) (fun h => h) (fun _ h => by cases h)
    rw [hr]
    exact Proto.wp_seq (process_before x.job.ident hn hx.status) (fun _ _ _ ⟨_, hm⟩ => by cases hm)
      (fun _ _ h ⟨m, hm⟩ => h ⟨m, by cases hm; rfl⟩)
  exact Prog.run_of_wp _ turns _ ht hwp

/-! ## The redelivery over an agreeing row -/

def RowAt (w : Option Status) (x : Ctx) : Prop :=
  match w with
  | none   => x.row = none
  | some w => ∃ d, x.row = some d ∧ d.status = w.value ∧ d.version = x.job.version

/-- The job at `v`, its row at `w` and its own version, and the first `k` of `n` workflows started. -/
structure Working (n : Nat) (v : Status) (w : Option Status) (k : Nat) (s : SoloState) : Prop where
  fsm    : s.1.job.fsm = some v
  count  : s.1.job.workflows.length = n
  starts : starts s.2 = List.range k
  row    : RowAt w s.1

section
variable {n k : Nat} {w : Option Status}

theorem Working.next {a : Act} {t : Turn} {k' : Nat} {w' : Option Status} (ht : Works t) (h : Working n v w k s) {r : a.Res}
    {x : Ctx} (hx : Ctx.exec t.choice a s.1 = (r, x)) (hf : x.job.fsm = some u)
    (hc : x.job.workflows.length = s.1.job.workflows.length) (hrow : RowAt w' x)
    (hs : List.range k ++ a.start.toList = List.range k') : Working n u w' k' (turnExec t a s).2 := by
  rw [turnExec_alone ht.alone hx]
  refine ⟨hf, hc.trans h.count, ?_, hrow⟩
  rw [starts_append, h.starts]
  exact hs

theorem Working.same {a : Act} {t : Turn} (ht : Works t) (h : Working n v w k s) {r : a.Res}
    (hx : Ctx.exec t.choice a s.1 = (r, s.1)) (hs : a.start = none) : Working n v w k (turnExec t a s).2 :=
  h.next ht hx h.fsm rfl h.row (by rw [hs]; simp)

theorem Working.event {t : Turn} (ht : Works t) (h : Working n v w k s) {e : Event} (htg : Fsm.target e v = some u) :
    (turnExec t (.applyEvent e) s).1 = .ok () ∧ Working n u w k (turnExec t (.applyEvent e) s).2 := by
  have hx := Ctx.exec_applyEvent_some t.choice h.fsm htg
  exact ⟨by rw [turnExec_alone ht.alone hx], h.next ht hx rfl rfl h.row (List.append_nil _)⟩

theorem Working.check {t : Turn} (h : Working n v w k s) (hv : v ≠ .cancelled) :
    (turnExec t .isCancelled s).1 = false := by
  have hne : ¬ s.1.job.isCancelled = true := by
    rw [Job.isCancelled_iff, h.fsm]
    simpa using hv
  exact Bool.eq_false_iff.2 hne

/-- **A save over an agreeing row is applied**, and the row agrees again. -/
theorem save_working (hw : ∀ w', w = some w' → StatusLe w'.value v.value) (h : Working n v w k s) :
    workingProto.wp Job.save (fun r s => r = .ok true ∧ Working n v (some v) k s) s := by
  refine wp_save_alone (v := v) (P := Working n v w k)
    (W := fun _ s => (s.1.job.fsm = some v ∧ s.1.job.workflows.length = n ∧ starts s.2 = List.range k) ∧
      ∃ d, s.1.row = some d ∧ d.status = v.value) (fun _ ht => ht.alone) (fun _ h => h.fsm) ?_ ?_ ?_ h
  · intro s t ht h
    exact h.same (a := .buildRecord) ht rfl rfl
  · rintro rec s t ht h ⟨hid, hst, hver⟩
    obtain ⟨st, d, hx, hd, hds, -⟩ | ⟨d₀, hd₀, hnw, -⟩ := Ctx.exec_put_own t.choice ht.fault hid
    · rw [turnExec_alone ht.alone hx]
      refine ⟨⟨h.fsm, h.count, ?_⟩, d, hd, hds.trans hst⟩
      rw [starts_append, h.starts]
      exact List.append_nil _
    · refine absurd ?_ hnw
      have hrow := h.row
      cases w with
      | none =>
        rw [RowAt, hd₀] at hrow
        cases hrow
      | some w =>
        obtain ⟨d, hd, hs, hv⟩ := hrow
        obtain rfl := Option.some.inj (hd.symm.trans hd₀)
        exact ⟨by rw [hs, hst]; exact hw w rfl, hv.trans hver.symm⟩
  · rintro rec s t ht ⟨⟨hf, hc, hs⟩, d, hd, hds⟩
    have hne : t.choice.fault ≠ .raises := by rw [ht.fault]; simp
    rw [turnExec_alone ht.alone (Ctx.exec_refresh_some t.choice rec.updated s.1 hne hd)]
    refine ⟨rfl, hf, hc, ?_, d, hd, hds, rfl⟩
    rw [starts_append, hs]
    exact List.append_nil _

theorem getSaved_working (h : Working n v w k s) :
    workingProto.wp Job.getSaved (fun r s => r = .ok s.1.row ∧ Working n v w k s) s := by
  refine Proto.wp_solo fun t ht => ?_
  have hx := Ctx.exec_getSaved_healthy t.choice s.1 ht.fault
  have hn := h.same ht hx rfl
  rw [turnExec_alone ht.alone hx] at hn ⊢
  exact ⟨rfl, hn⟩

theorem heal_working (job : Ident) (hw : ∀ w', w = some w' → w' = .scheduled) (h : Working n .scheduled w k s) :
    workingProto.wp (Worker.heal job) (fun r s => r = .ok () ∧ Working n .scheduled (some .scheduled) k s) s := by
  refine Proto.wp_seq (getSaved_working h) (fun saved s h => ?_) (fun _ _ h => by cases h.1)
  obtain ⟨hr, h⟩ := h
  obtain rfl := Except.ok.inj hr
  cases w with
  | none =>
    have hrow : s.1.row = none := h.row
    rw [hrow]
    refine Proto.wp_seq (save_working (by simp) h) (fun applied s h => ?_) (fun _ _ h => by cases h.1)
    obtain ⟨hr, h⟩ := h
    obtain rfl := Except.ok.inj hr
    exact ⟨rfl, h⟩
  | some w =>
    obtain rfl := hw w rfl
    obtain ⟨d, hd, -⟩ := h.row
    rw [hd]
    exact ⟨rfl, h⟩

theorem runWorkflows_working : ∀ (ws : List Workflow) (i : Nat) {s : SoloState},
    Working (i + ws.length) .inProgress (some .inProgress) i s →
    workingProto.wp (Worker.runWorkflows ws i) (fun r s => r = .ok false ∧
      Working (i + ws.length) .inProgress (some .inProgress) (i + ws.length) s) s
  | [], i, s, h => ⟨rfl, h⟩
  | _ :: ws, i, s, h => by
    refine Proto.wp_solo fun t₁ ht₁ => ?_
    rw [h.check (by simp)]
    have h₁ := h.same (a := .isCancelled) ht₁ rfl rfl
    refine Proto.wp_solo fun t₂ ht₂ => ?_
    have h₂ : Working (i + (ws.length + 1)) .inProgress (some .inProgress) (i + 1) (turnExec t₂ (.startWorkflow i)
        (turnExec t₁ .isCancelled s).2).2 := h₁.next ht₂ rfl h₁.fsm rfl h₁.row List.range_succ.symm
    refine Proto.wp_solo fun t₃ ht₃ => ?_
    have h₃ := h₂.same (a := .endWorkflow i) ht₃ rfl rfl
    have hr : (turnExec t₃ (.endWorkflow i) (turnExec t₂ (.startWorkflow i) (turnExec t₁ .isCancelled s).2).2).1 =
        .ok () := toThread_eq_ok.2 ht₃.outcome
    rw [hr]
    have hlen : i + (ws.length + 1) = i + 1 + ws.length := by omega
    rw [hlen] at h₃
    rw [List.length_cons, hlen]
    exact runWorkflows_working ws (i + 1) h₃

theorem Working.completes (h : Working n .completed (some .completed) n s) : Completes n s := by
  obtain ⟨d, hd, hs, -⟩ := h.row
  exact ⟨h.starts, h.fsm, d, hd, hs⟩

theorem execute_working (h : Working n .inProgress (some .inProgress) 0 s) :
    workingProto.wp Worker.execute (fun _ => Completes n) s := by
  refine Proto.wp_try (M := fun r s => r = .ok false ∧ Working n .inProgress (some .inProgress) n s) ?_
    (fun r s ⟨hr, h⟩ => ?_)
  · refine Proto.wp_solo fun t₁ ht₁ => ?_
    have h₁ := h.same (a := .workflows) ht₁ rfl rfl
    refine Proto.wp_solo fun t₂ ht₂ => ?_
    have h₂ : Working n .inProgress (some .inProgress) 0 (turnExec t₂ .shareCancelEvent
        (turnExec t₁ .workflows s).2).2 :=
      h₁.next ht₂ rfl h₁.fsm (by simp [Job.shareCancelEvent]) h₁.row (List.append_nil _)
    have hn : n = 0 + (turnExec t₁ .workflows s).1.length := by
      rw [Nat.zero_add]
      exact h.count.symm
    rw [hn] at h₂ ⊢
    exact runWorkflows_working _ 0 h₂
  · subst hr
    refine Proto.wp_solo fun t₁ ht₁ => ?_
    rw [h.check (by simp)]
    have h₁ := h.same (a := .isCancelled) ht₁ rfl rfl
    refine Proto.wp_seq (M := fun r s => r = .ok () ∧ Working n .completed (some .inProgress) n s) ?_ (fun _ s h => ?_)
      (fun _ _ h => by cases h.1)
    · refine Proto.wp_solo fun t₂ ht₂ => ?_
      obtain ⟨hr, h₂⟩ := h₁.event (u := .completed) ht₂ (e := .complete) rfl
      rw [hr]
      exact ⟨rfl, h₂⟩
    · refine Proto.wp_seq (save_working (fun w' hw => ?_) h.2) (fun _ _ h => h.2.completes) (fun _ _ h => h.2.completes)
      obtain rfl := Option.some.inj hw
      exact statusLe_value.2 (by decide)

theorem runAndExecute_working (job : Ident) (st : Option Status) (t : String)
    (h : Working n .scheduled (some .scheduled) 0 s) :
    workingProto.wp (Worker.runAndExecute job st t) (fun _ => Completes n) s := by
  refine Proto.wp_seq (M := fun r s => r = .ok () ∧ Working n .inProgress (some .scheduled) 0 s) ?_ (fun _ s h => ?_)
    (fun _ _ h => by cases h.1)
  · refine Proto.wp_solo fun t ht => ?_
    obtain ⟨hr, hn⟩ := h.event (u := .inProgress) ht (e := .run) rfl
    rw [hr]
    exact ⟨rfl, hn⟩
  · refine Proto.wp_try (save_working (fun w' hw => ?_) h.2) (fun r s ⟨hr, h⟩ => ?_)
    · obtain rfl := Option.some.inj hw
      exact statusLe_value.2 (by decide)
    · subst hr
      exact execute_working h

theorem runOnce_completes_agreeing {rest : List Nat} (job : Ident) {x : Ctx} (hx : AtHead rest x) (ha : Agrees x) :
    workingProto.wp (Worker.runOnce job) (fun _ => Completes x.job.workflows.length) (x, []) := by
  obtain ⟨w, hw, hrow⟩ : ∃ w, (∀ w', w = some w' → w' = .scheduled) ∧ RowAt w x := by
    cases hd : x.row with
    | none => exact ⟨none, by simp, hd⟩
    | some d => exact ⟨some .scheduled, by simp, d, hd, ha d hd⟩
  have h0 : Working x.job.workflows.length .scheduled w 0 (x, []) := ⟨hx.fsm, rfl, rfl, hrow⟩
  refine Proto.wp_solo fun t ht => ?_
  have hr : (turnExec t .receive (x, [])).1 = some x.job.ref := by
    show x.chan.queue.head? = _
    rw [hx.queue]
    rfl
  have h₁ : Working x.job.workflows.length .scheduled w 0 (turnExec t .receive (x, [])).2 :=
    h0.next ht rfl hx.fsm rfl hrow (List.append_nil _)
  rw [hr]
  refine Proto.wp_seq (M := fun _ => Completes x.job.workflows.length) ?_ (fun _ _ h => h) (fun _ _ h => h)
  refine Proto.wp_solo fun t₂ ht₂ => ?_
  rw [h₁.check (by simp)]
  have h₂ := h₁.same (a := .isCancelled) ht₂ rfl rfl
  refine Proto.wp_solo fun t₃ ht₃ => ?_
  have h₃ := h₂.same (a := .fsmCurrent) ht₃ rfl rfl
  refine Proto.wp_solo fun t₄ ht₄ => ?_
  have h₄ := h₃.same (a := .status) ht₄ rfl rfl
  refine Proto.wp_try (heal_working job hw h₄) (fun r s ⟨hr, h⟩ => ?_)
  subst hr
  exact runAndExecute_working job _ _ h

end

/-! ## The redelivery over a row that refuses the job -/

/-- The RUN put of a stuck job is refused. -/
theorem Stuck.refuses {x : Ctx} (h : Stuck x) {rec : JobRecord} (hst : rec.status = Status.inProgress.value)
    (hver : rec.version = x.job.version) {d : JobRecord} (hd : x.row = some d) : ¬ InMemoryJobStore.MayWrite d rec := by
  rintro ⟨hle, hv⟩
  obtain ⟨d', hd', hf | ⟨-, hne⟩⟩ := h
  · obtain rfl := Option.some.inj (hd.symm.trans hd')
    rw [hf, hst, statusLe_value] at hle
    simp [Status.rank] at hle
  · obtain rfl := Option.some.inj (hd.symm.trans hd')
    exact hne (hv.trans hver)

theorem runSave_stuck (hs : Stuck s.1) (hf : s.1.job.fsm = some .inProgress) :
    workingProto.wp Job.save (fun r s => r = .ok false ∧ Stuck s.1) s := by
  refine wp_save_alone (v := .inProgress) (P := fun s => Stuck s.1 ∧ s.1.job.fsm = some .inProgress)
    (W := fun _ _ => False) (fun _ ht => ht.alone) (fun _ h => h.2) ?_ ?_ ?_ ⟨hs, hf⟩
  · intro s t ht h
    rw [turnExec_alone ht.alone (a := .buildRecord) rfl]
    exact h
  · rintro rec s t ht ⟨h, -⟩ ⟨hid, hst, hver⟩
    obtain ⟨st, d, -, -, -, hcase⟩ | ⟨d₀, -, -, hx⟩ := Ctx.exec_put_own t.choice ht.fault hid
    · rcases hcase with ⟨hn, -⟩ | ⟨d₀, hd₀, hw, -⟩
      · obtain ⟨d, hd, -⟩ := h
        rw [hn] at hd
        cases hd
      · exact absurd hw (h.refuses hst hver hd₀)
    · rw [turnExec_alone ht.alone hx]
      exact ⟨rfl, h⟩
  · intro rec s t _ h
    exact h.elim

theorem wp_of_solo {α : Type} {p : JobProg α} {Q : Except Exn α → SoloState → Prop} (h : soloProto.wp p Q s) :
    workingProto.wp p Q s :=
  Proto.wp_solo_mono (fun _ _ => trivial) _ _ h

theorem getSaved_stuck (hs : Stuck s.1) :
    workingProto.wp Job.getSaved (fun r s => r = .ok s.1.row ∧ Stuck s.1) s := by
  refine Proto.wp_solo fun t ht => ?_
  have hx := Ctx.exec_getSaved_healthy t.choice s.1 ht.fault
  rw [turnExec_alone ht.alone hx]
  exact ⟨rfl, hs⟩

theorem heal_stuck (job : Ident) (hs : Stuck s.1) :
    workingProto.wp (Worker.heal job) (fun r s => r = .ok () ∧ Stuck s.1) s := by
  refine Proto.wp_seq (getSaved_stuck hs) (fun saved s h => ?_) (fun _ _ h => by cases h.1)
  obtain ⟨hr, hs⟩ := h
  obtain rfl := Except.ok.inj hr
  have hrow : s.1.row.isNone = false := by
    obtain ⟨d, hd, -⟩ := hs
    rw [hd]
    rfl
  simp only [hrow]
  exact ⟨rfl, hs⟩

theorem followDurableStatus_fsm {t : Status} (ht : t ≠ .completed) :
    workingProto.wp (Worker.followDurableStatus t.value) (fun _ s => s.1.job.fsm ≠ some .completed) s := by
  rw [Worker.followDurableStatus, Status.ofValue_value]
  refine Proto.wp_act (Proto.solo_stable (· = s)) rfl ?_
  rintro s₁ r s₂ rfl ⟨u, -, rfl, rfl⟩
  exact ⟨trivial, fun h => ht (Option.some.inj h)⟩

/-- The row of a stuck job is followed, or the refusal goes through the recovery. -/
theorem runSkipped_stuck {ref : Nat} {rest : List Nat} (job : Ident) (hs : Stuck s.1) (h : Skipped ref rest s) :
    workingProto.wp (Worker.runSkipped job (some .scheduled) Status.scheduled.value)
      (fun _ s => s.1.job.fsm ≠ some .completed) s := by
  refine Proto.wp_seq (M := fun r s => r = .ok s.1.row ∧ Stuck s.1 ∧ At ref .no .inProgress rest s) ?_
    (fun saved s h => ?_) (fun _ _ h => by cases h.1)
  · refine Proto.wp_solo fun t ht => ?_
    have hx := Ctx.exec_getSaved_healthy t.choice s.1 ht.fault
    obtain ⟨saved, -, hn, -⟩ | ⟨e, hr, -⟩ := h.read t
    · rw [turnExec_alone ht.alone hx] at hn ⊢
      exact ⟨rfl, hs, hn⟩
    · rw [turnExec_alone ht.alone hx] at hr
      cases hr
  · obtain ⟨hr, ⟨d, hd, hst⟩, h⟩ := h
    obtain rfl := Except.ok.inj hr
    have recovers : ∀ e, workingProto.wp (Worker.failOrRestoreAfterRunPersist job (some .scheduled)
        Status.scheduled.value e) (fun _ s => s.1.job.fsm ≠ some .completed) s := fun e => by
      refine Proto.wp_mono (fun _ _ hrec => ?_) _ _
        (wp_of_solo (failOrRestoreAfterRunPersist_recovers job e (by simp) (h.maybe (by simp))))
      rcases hrec with ⟨hq, -⟩ | hf
      · rw [hq.fsm]; simp
      · rw [hf.fsm]; simp
    rcases hst with hst | ⟨hst | hst, -⟩
    · simp only [hd, Option.map_some, hst]
      exact followDurableStatus_fsm (t := .failed) (by simp)
    · simp only [hd, Option.map_some, hst]
      exact recovers _
    · simp only [hd, Option.map_some, hst]
      exact followDurableStatus_fsm (t := .inProgress) (by simp)

/-- **A stuck job does not complete.** -/
theorem runOnce_stuck {rest : List Nat} (job : Ident) {x : Ctx} (hx : AtHead rest x) (hs : Stuck x) :
    workingProto.wp (Worker.runOnce job) (fun _ s => s.1.job.fsm ≠ some .completed) (x, []) := by
  refine Proto.wp_solo fun t₁ ht₁ => ?_
  obtain ⟨hr, h₁⟩ := hx.start.received t₁
  rw [hr]
  refine Proto.wp_seq (M := fun _ (s : SoloState) => s.1.job.fsm ≠ some .completed) ?_ (fun _ _ h => h) (fun _ _ h => h)
  refine Proto.wp_solo fun t₂ ht₂ => ?_
  rw [h₁.check t₂ (by simp)]
  have h₂ := h₁.passive (a := .isCancelled) t₂ rfl rfl
  refine Proto.wp_solo fun t₃ ht₃ => ?_
  have hprev : (turnExec t₃ .fsmCurrent (turnExec t₂ .isCancelled (turnExec t₁ .receive (x, [])).2).2).1 =
      some .scheduled := h₂.fsm
  rw [hprev]
  have h₃ := h₂.passive (a := .fsmCurrent) t₃ rfl rfl
  refine Proto.wp_solo fun t₄ ht₄ => ?_
  have hstatus : (turnExec t₄ .status (turnExec t₃ .fsmCurrent (turnExec t₂ .isCancelled
      (turnExec t₁ .receive (x, [])).2).2).2).1 = Status.scheduled.value := hx.status
  rw [hstatus]
  have h₄ := h₃.passive (a := .status) t₄ rfl rfl
  have hs₄ : Stuck (turnExec t₄ .status (turnExec t₃ .fsmCurrent (turnExec t₂ .isCancelled
      (turnExec t₁ .receive (x, [])).2).2).2).2.1 := by
    rw [turnExec_alone ht₄.alone (a := .status) rfl, turnExec_alone ht₃.alone (a := .fsmCurrent) rfl,
      turnExec_alone ht₂.alone (a := .isCancelled) rfl, turnExec_alone ht₁.alone (a := .receive) rfl]
    exact hs
  refine Proto.wp_try (Proto.wp_and _ _ (heal_stuck job hs₄) (wp_of_solo (heal_at job (by simp) _ h₄)))
    (fun r s ⟨⟨hr, hs⟩, h⟩ => ?_)
  subst hr
  refine Proto.wp_seq (M := fun r s => r = .ok () ∧ Stuck s.1 ∧ At x.job.ref .no .inProgress rest s) ?_
    (fun _ s h => ?_) (fun _ _ h => by cases h.1)
  · refine Proto.wp_solo fun t ht => ?_
    obtain ⟨hr, hn⟩ := h.event (w := .inProgress) t (e := .run) rfl
    rw [hr]
    refine ⟨rfl, ?_, hn⟩
    rw [turnExec_alone ht.alone (Ctx.exec_applyEvent_some t.choice h.fsm (t := .inProgress) rfl)]
    exact hs
  · obtain ⟨-, hs, h⟩ := h
    refine Proto.wp_try (Proto.wp_and _ _ (runSave_stuck hs h.fsm) (wp_of_solo (runSave_at h)))
      (fun r s ⟨⟨hr, hs⟩, h⟩ => ?_)
    subst hr
    exact runSkipped_stuck job hs h

end

/-- **When a re-queued job is redeliverable**: a job dequeued in Scheduled, over a Scheduled row or none, whose `run_once`
under raising store calls ended with `JobRequeuedError`.  The next `run_once` that dequeues it, on a store that works and
with workflows that succeed, runs all its workflows to Completed if and only if the row was at the job's own version and no
refresh after an applied InProgress or Failed put raised. -/
theorem redelivers_iff (x : Ctx) (rest : List Nat) (hx : AtHead rest x)
    (hrow : ∀ d, x.row = some d → d.status = Status.scheduled.value) (turns : Nat → Turn)
    (hfaults : ∀ n, MayRaise (turns n)) (hreq : RaisesRequeued (soloRun x turns).1) (next : Ctx) (rest' : List Nat)
    (hnext : Redelivered (soloRun x turns).2.1 next rest') (turns' : Nat → Turn) (hworks : ∀ n, Works (turns' n)) :
    Completes x.job.workflows.length (soloRun next turns').2 ↔
      OwnVersion x ∧ Admits RefreshKept (soloRun x turns).2.2 := by
  obtain ⟨h, hst⟩ := soloRun_sentBack hx hrow hfaults hreq
  have hhead : AtHead rest' next := ⟨hnext.queue, by rw [hnext.job]; exact h.fsm, by rw [hnext.job]; exact hst⟩
  rcases h.track with ⟨hk, ha⟩ | ⟨hn, hs⟩
  · have hagrees : Agrees next := fun d hd => by
      rw [hnext.row] at hd
      rw [hnext.job]
      exact ha d hd
    have hdone : Completes next.job.workflows.length (soloRun next turns').2 :=
      Prog.run_of_wp _ turns' _ hworks (runOnce_completes_agreeing next.job.ident hhead hagrees)
    rw [hnext.job, h.count] at hdone
    exact ⟨fun _ => hk, fun _ => hdone⟩
  · have hstuck : Stuck next := by
      obtain ⟨d, hd, hs⟩ := hs
      refine ⟨d, hnext.row.trans hd, ?_⟩
      rw [hnext.job]
      exact hs
    have hne : (soloRun next turns').2.1.job.fsm ≠ some .completed :=
      Prog.run_of_wp _ turns' _ hworks (runOnce_stuck next.job.ident hhead hstuck)
    exact ⟨fun hc => absurd hc.fsm hne, fun hk => absurd hk hn⟩

/-! The queued job again: sent back after its puts raised, and sent back after the refresh of its RUN snapshot raised. -/

theorem faultsAt_mayRaise : ∀ (faults : List (Nat × Fault)), (∀ p ∈ faults, p.2 ≠ .refuses) → ∀ n,
    MayRaise (faultsAt faults n)
  | [], _, _ => ⟨rfl, by simp [faultsAt], fun _ h => by cases h⟩
  | (m, f) :: faults, h, n => by
    have hrest := (faultsAt_mayRaise faults (fun p hp => h p (List.mem_cons_of_mem _ hp)) n).fault
    refine ⟨rfl, ?_, fun _ h => by cases h⟩
    simp only [faultsAt, List.lookup_cons] at hrest ⊢
    split
    · exact h _ List.mem_cons_self
    · exact hrest

theorem noFaults_works (n : Nat) : Works (faultsAt [] n) := ⟨rfl, rfl, rfl⟩

theorem queuedCtx_row (d : JobRecord) (hd : queuedCtx.row = some d) :
    d.status = Status.scheduled.value ∧ d.version = queuedCtx.job.version := by
  obtain rfl := Option.some.inj ((rfl : queuedCtx.row = some _).symm.trans hd)
  exact ⟨rfl, rfl⟩

/-- The RUN put and the Failed put raised; the redelivered job completes. -/
theorem redelivers_iff_completes : RaisesRequeued (soloRun queuedCtx (faultsAt [(7, .raises), (12, .raises)])).1 ∧
    Completes 1 (soloRun (soloRun queuedCtx (faultsAt [(7, .raises), (12, .raises)])).2.1 (faultsAt [])).2 := by
  have hreq : RaisesRequeued (soloRun queuedCtx (faultsAt [(7, .raises), (12, .raises)])).1 := ⟨_, rfl⟩
  refine ⟨hreq, (redelivers_iff queuedCtx [] ⟨rfl, rfl, rfl⟩ (fun d hd => (queuedCtx_row d hd).1) _
    (faultsAt_mayRaise _ (by decide)) hreq _ [] ⟨rfl, rfl, ?_⟩ _ noFaults_works).2
    ⟨fun d hd => (queuedCtx_row d hd).2, by decide +kernel⟩⟩
  decide +kernel

/-- **A re-queued job that cannot run**: the RUN put was applied and its refresh raised; the redelivered job, at the old
version, follows the InProgress row and starts nothing. -/
theorem requeued_job_does_not_run : AtHead [] queuedCtx ∧ (∀ n, MayRaise (faultsAt [(8, .raises)] n)) ∧
    RaisesRequeued (soloRun queuedCtx (faultsAt [(8, .raises)])).1 ∧ (∀ n, Works (faultsAt [] n)) ∧
    Redelivered (soloRun queuedCtx (faultsAt [(8, .raises)])).2.1 (soloRun queuedCtx (faultsAt [(8, .raises)])).2.1 [] ∧
    ¬ Completes 1 (soloRun (soloRun queuedCtx (faultsAt [(8, .raises)])).2.1 (faultsAt [])).2 := by
  refine ⟨⟨rfl, rfl, rfl⟩, faultsAt_mayRaise _ (by decide), ⟨_, rfl⟩, noFaults_works, ⟨rfl, rfl, by decide +kernel⟩,
    fun h => ?_⟩
  have hfsm : (soloRun (soloRun queuedCtx (faultsAt [(8, .raises)])).2.1 (faultsAt [])).2.1.job.fsm ≠ some .completed := by
    decide +kernel
  exact hfsm h.fsm

end Pypepper
