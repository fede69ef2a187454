import Pypepper.Exclusion
import Pypepper.Redelivery
/-!
# Crash — a stored job over the lives of its processes

A process takes a job's row from the store, rebuilds the job by `from_record`, schedules it and consumes its channel
once; it may be killed after any of its actions, and the next process starts over from the row.  Store calls may fail,
workflows may raise, the channel may fill, and other processes may write the store meanwhile, as long as rows only move
up.

Through any number of such lives the row only moves up; a life starts workflows only after its own InProgress put was
applied, and none once the row is terminal.  Until then nothing is lost: whatever the killed ones left behind, one whole
life on a working store with workflows that succeed runs all of them and completes the row (`crash_recovery`).
-/
namespace Pypepper

open Conc (Prog Proto Ev Admits)
open Relation (ReflTransGen)

/-- The job is scheduled and its channel consumed once, whatever the scheduling raised. -/
def resume (job : Ident) : JobProg Unit := do
  let _ ← (Job.dispatch job).attempt
  let _ ← (Worker.runOnce job).attempt
  return ()

/-- One process: the workflows it rebuilt, its channel, its environment, and the number of actions it performed before
it was killed, if it was. -/
structure Life where
  ref       : Nat
  workflows : List Workflow
  chan      : Channel := ⟨[], 0, false⟩
  turns     : Nat → Turn
  killed    : Option Nat := none

namespace Life

def prog (l : Life) (job : Ident) : JobProg Unit :=
  match l.killed with
  | none   => resume job
  | some n => (resume job).cut n

def start (l : Life) (st : InMemoryJobStore) (d : JobRecord) : Ctx :=
  { job := Job.ofRecord l.ref d l.workflows, chan := l.chan, store := st }

/-- The life of a process that read the row `d` in the store `st`. -/
def run (l : Life) (st : InMemoryJobStore) (d : JobRecord) : SoloState :=
  ((l.prog (l.start st d).job.ident).run turnExec l.turns (l.start st d, [])).2

end Life

/-- Other writers never move a row back. -/
def Turn.Rises (t : Turn) : Prop :=
  ∀ st id d, st.get id = some d → ∃ d', (t.others st).get id = some d' ∧ StatusLe d.status d'.status

/-- One life after another, each from the row the last one left. -/
def Survives (id : String) (st st' : InMemoryJobStore) : Prop :=
  ∃ l : Life, (∀ n, (l.turns n).Rises) ∧ ∃ d, st.get id = some d ∧ st' = (l.run st d).1.store

abbrev Lives (id : String) : InMemoryJobStore → InMemoryJobStore → Prop := ReflTransGen (Survives id)

/-! ## What every life keeps -/

/-- The job is the row's, which moved up from `d`, and workflows are started by an applied InProgress put. -/
structure Held (d : JobRecord) (s : SoloState) : Prop where
  id    : s.1.job.id = d.id
  row   : ∃ d', s.1.row = some d' ∧ StatusLe d.status d'.status
  order : Admits StartsAfterRun s.2
  idle  : terminalText d.status = true → starts s.2 = []

abbrev risesProto : Proto Act Act.Res SoloState := Proto.solo turnExec Turn.Rises

section
variable {d : JobRecord} {s : SoloState} {t : Turn}

theorem Turn.Rises.row (ht : t.Rises) {x : Ctx} {a : String} (h : ∃ d', x.row = some d' ∧ StatusLe a d'.status) :
    ∃ d', (t.before x).row = some d' ∧ StatusLe a d'.status := by
  obtain ⟨d', hd, hle⟩ := h
  obtain ⟨e, he, hle'⟩ := ht _ _ _ hd
  exact ⟨e, he, hle.trans hle'⟩

/-- **One action**, which starts a workflow only under an applied InProgress put. -/
theorem Held.next {a : Act} (ht : t.Rises) (h : Held d s) (ha : ∀ ws, a ≠ .fromRecord ws)
    (hs : a.start.isSome → RunApplied s.2 ∧ terminalText d.status = false) : Held d (turnExec t a s).2 := by
  have hframe := Ctx.exec_frame t.choice a (t.before s.1) ha
  refine ⟨hframe.id.trans h.id, ?_, h.order.append fun hst => (hs hst).1, fun hterm => ?_⟩
  · obtain ⟨d', hd, hle⟩ := ht.row h.row
    obtain ⟨e, he, hle'⟩ := Ctx.exec_row_up t.choice a _ ha hd
    exact ⟨e, he, hle.trans hle'⟩
  · have hnone : a.start = none := by
      cases hst : a.start with
      | none => rfl
      | some i =>
        have := (hs (by rw [hst]; rfl)).2
        rw [hterm] at this
        cases this
    simp only [turnExec, starts_append, h.idle hterm, hnone]
    rfl

theorem Held.plain {a : Act} (ht : t.Rises) (h : Held d s) (ha : a.Plain) : Held d (turnExec t a s).2 :=
  h.next ht ha.rebuilds fun hs => by rw [ha.start] at hs; cases hs

theorem Held.keeps {α : Type} {p : JobProg α} (hp : p.Only Act.Plain) : risesProto.Keeps (Held d) p :=
  Proto.keeps_solo (fun _ ha _ _ ht h => h.plain ht ha) hp

/-- An applied put went over a row that the record's status follows. -/
theorem Ctx.exec_put_over (c : Choice) {rec : JobRecord} {x : Ctx} {d : JobRecord} (hd : x.row = some d)
    (hid : rec.id = x.job.id) (h : (Ctx.exec c (.put rec) x).1 = .ok true) : StatusLe d.status rec.status := by
  cases hf : c.fault with
  | refuses =>
    simp only [exec, put, hf] at h
    cases h
  | raises =>
    simp only [exec, put, hf] at h
    cases h
  | none =>
    rw [exec_put_healthy c rec x hf] at h
    obtain ⟨-, hno⟩ | ⟨-, hw, -⟩ := InMemoryJobStore.get_put_next x.store rec hd
    · have happ := Except.ok.inj h
      rw [hno hid] at happ
      cases happ
    · exact hw.1

/-! ## The programs of a life -/

theorem Held.saveBuilt (d : JobRecord) :
    SaveBuilt (fun _ (p : JobProg _) => risesProto.Keeps (Held d) p) :=
  { Proto.Keeps.closed _ with
    save  := Held.keeps (save_only Act.Plain.recovers.toSaves)
    saved := Held.keeps (getSaved_only Act.Plain.recovers.toSaves) }

theorem Held.dispatch (job : Ident) : risesProto.Keeps (Held d) (Job.dispatch job) := by
  obtain ⟨rest, hrest, hbuilt⟩ := Job.dispatch_built job
  have hsave := Held.saveBuilt d
  rw [hrest]
  refine hsave.bind (Held.keeps (.call trivial)) fun st => hsave.bind (Held.keeps (.call trivial)) fun t => ?_
  exact hbuilt hsave (fun e => Held.keeps (applyEventP_only trivial)) (Held.keeps (.call trivial))
    (Held.keeps (.call trivial)) (Held.keeps (.call trivial)) (Held.keeps (.call trivial))

/-- The InProgress put was applied, over a row that was not terminal. -/
structure Ran (d : JobRecord) (s : SoloState) : Prop where
  held    : Held d s
  applied : RunApplied s.2
  early   : terminalText d.status = false

theorem Ran.keeps {α : Type} {p : JobProg α} (hp : p.Only (fun a => ∀ ws, a ≠ .fromRecord ws)) :
    risesProto.Keeps (Ran d) p :=
  Proto.keeps_solo (fun _ ha _ _ ht h => ⟨h.held.next ht ha fun _ => ⟨h.applied, h.early⟩, h.applied.append _, h.early⟩) hp

/-- **The InProgress put is applied only over a row that is not terminal.** -/
theorem Held.runSave (h : Held d s) (hf : s.1.job.fsm = some .inProgress) :
    risesProto.wp Job.save (fun r s => Held d s ∧ (r = .ok true → Ran d s)) s := by
  refine wp_save (P := fun s => Held d s ∧ s.1.job.fsm = some .inProgress)
    (B := fun rec s => Held d s ∧ rec.id = d.id ∧ rec.status = Status.inProgress.value) (W := fun _ => Ran d)
    (Proto.solo_stable _) (fun _ => Proto.solo_stable _) (fun _ => Proto.solo_stable _) ?_ ?_ ?_ ⟨h, hf⟩
  · rintro s rec s' ⟨h, hf⟩ ⟨t, ht, rfl, rfl⟩
    exact ⟨trivial, h.plain (a := .buildRecord) ht trivial, h.id, Job.currentStatus_of_fsm hf⟩
  · rintro rec s r s' ⟨h, hid, hst⟩ ⟨t, ht, rfl, rfl⟩
    refine ⟨trivial, ?_⟩
    have hn := h.plain (a := .put rec) ht trivial
    cases hr : (turnExec t (.put rec) s).1 with
    | error e => exact ⟨hn, fun he => by cases he⟩
    | ok applied =>
      cases applied with
      | false => exact ⟨hn, fun he => by cases he⟩
      | true =>
        refine ⟨hn, ⟨_, List.mem_append_right _ (List.mem_singleton_self _), rec, ?_, hst⟩, ?_⟩
        · show Act.applied (.put rec) (turnExec t (.put rec) s).1 = some rec
          rw [hr]
          rfl
        · obtain ⟨d', hd, hle⟩ := ht.row h.row
          have hup := hle.trans (Ctx.exec_put_over t.choice hd (hid.trans h.id.symm) hr)
          refine Bool.eq_false_iff.2 fun hterm => ?_
          have heq := hup.of_terminal hterm
          rw [← heq, hst] at hterm
          exact absurd hterm (by decide)
  · rintro rec s r s' h ⟨t, ht, rfl, rfl⟩
    refine ⟨trivial, ?_⟩
    have hn : Ran d (turnExec t (.refresh rec.updated) s).2 :=
      ⟨h.held.plain ht trivial, h.applied.append _, h.early⟩
    cases (turnExec t (.refresh rec.updated) s).1 with
    | error e => exact ⟨hn.held, fun he => by cases he⟩
    | ok u => exact ⟨hn.held, fun _ => hn⟩

theorem Held.runAndExecute (job : Ident) (st : Option Status) (t : String) :
    risesProto.Keeps (Held d) (Worker.runAndExecute job st t) := by
  intro s h
  refine Proto.wp_seq (M := fun r s => Held d s ∧ (r = .ok () → s.1.job.fsm = some .inProgress)) ?_ (fun _ s h => ?_)
    (fun _ _ h => h.1)
  · refine Proto.wp_solo fun t ht => ?_
    have hn := h.plain (a := .applyEvent .run) ht trivial
    obtain ⟨v, w, -, htg, hx⟩ | ⟨-, hx⟩ := Ctx.exec_applyEvent t.choice .run (t.before s.1)
    · have hr : (turnExec t (.applyEvent .run) s).1 = .ok () := congrArg Prod.fst hx
      rw [hr]
      refine ⟨hn, fun _ => ?_⟩
      show (Ctx.exec t.choice (.applyEvent .run) (t.before s.1)).2.job.fsm = _
      rw [hx, (Fsm.target_run htg).2]
    · have hr : (turnExec t (.applyEvent .run) s).1 = .error (.internal errorInvalidEvent) := congrArg Prod.fst hx
      rw [hr]
      exact ⟨hn, fun he => by cases he⟩
  · refine Proto.wp_try (h.1.runSave (h.2 rfl)) fun r s ⟨h, hran⟩ => ?_
    match r, hran with
    | .error e, _ => exact Held.keeps (Worker.failOrRestoreAfterRunPersist_only Act.Plain.recovers job st t e) s h
    | .ok false, _ => exact Held.keeps (Worker.runSkipped_only Act.Plain.recovers job st t) s h
    | .ok true, hran =>
      have hq : Worker.Executes (fun a => ∀ ws, a ≠ .fromRecord ws) := by
        refine ⟨⟨?_, ?_, ?_, ?_⟩, ?_, ?_, ?_, ?_, ?_, ?_, ?_⟩ <;> simp
      exact Proto.wp_mono (fun _ _ h => h.held) _ _ (Ran.keeps (Worker.execute_only hq) s (hran rfl))

theorem Held.runOnce (job : Ident) : risesProto.Keeps (Held d) (Worker.runOnce job) := by
  have hsave := Held.saveBuilt d
  refine hsave.bind (Held.keeps (.call trivial)) fun r => ?_
  cases r with
  | none => exact hsave.ret none
  | some ref =>
    refine hsave.bind ?_ fun _ => hsave.ret (some ref)
    refine hsave.bind (Held.keeps (.call trivial)) fun _ =>
      Prog.Closed.ite (Worker.ensureCancelledPersistedLogged_built hsave) ?_
    refine hsave.bind (Held.keeps (.call trivial)) fun st => hsave.bind (Held.keeps (.call trivial)) fun t => ?_
    refine hsave.try_ (Worker.heal_built hsave job) (fun _ => Held.runAndExecute job st t) fun e =>
      Held.keeps (Worker.failOrRestoreAfterRunPersist_only Act.Plain.recovers job st t e)

theorem Held.resume (job : Ident) : risesProto.Keeps (Held d) (resume job) :=
  .bind (.attempt (Held.dispatch job)) fun _ => .bind (.attempt (Held.runOnce job)) fun _ => .ret ()

end

/-! ## A killed process -/

/-- The action rebuilds no job. -/
def Act.Keeping (a : Act) : Prop := ∀ ws, a ≠ .fromRecord ws

theorem Act.Keeping.recovers : Act.Recovers Act.Keeping := by
  refine ⟨⟨?_, ?_, ?_, ?_⟩, ?_, ?_, ?_, ?_, ?_, ?_⟩ <;> simp [Act.Keeping]

theorem Act.Keeping.executes : Worker.Executes Act.Keeping := by
  refine ⟨⟨?_, ?_, ?_, ?_⟩, ?_, ?_, ?_, ?_, ?_, ?_, ?_⟩ <;> simp [Act.Keeping]

theorem resume_keeping (job : Ident) : (resume job).Only Act.Keeping := by
  have hrec := Act.Keeping.recovers
  have hsave := hrec.toSaves.saveBuilt
  have hcall : ∀ a : Act, a.Keeping → (Job.do_ a).Only Act.Keeping := fun a ha => .call ha
  have hdispatch : (Job.dispatch job).Only Act.Keeping := by
    obtain ⟨rest, hrest, hbuilt⟩ := Job.dispatch_built job
    rw [hrest]
    refine .bind (hcall _ (by simp [Act.Keeping])) fun st => .bind (hcall _ (by simp [Act.Keeping])) fun t => ?_
    exact hbuilt hsave (fun e => applyEventP_only (hrec.event e)) (hcall _ (hrec.lifecycle st t))
      (hcall _ (by simp [Act.Keeping])) (hcall _ (by simp [Act.Keeping])) (hcall _ hrec.send)
  have hrun : (Worker.runOnce job).Only Act.Keeping := by
    refine .bind (hcall _ (by simp [Act.Keeping])) fun r => ?_
    cases r with
    | none => trivial
    | some ref =>
      refine .bind (.bind (hcall _ hrec.check) fun _ =>
        .ite (Worker.ensureCancelledPersistedLogged_only hrec.toSaves) ?_) fun _ => trivial
      refine .bind (hcall _ (by simp [Act.Keeping])) fun st => .bind (hcall _ (by simp [Act.Keeping])) fun t => ?_
      refine hsave.try_ (Worker.heal_only hrec.toSaves job) (fun _ => ?_) fun e =>
        Worker.failOrRestoreAfterRunPersist_only hrec job st t e
      refine .bind (applyEventP_only (hrec.event .run)) fun _ => hsave.try_ hsave.save (fun applied => ?_) fun e =>
        Worker.failOrRestoreAfterRunPersist_only hrec job st t e
      cases applied with
      | false => exact Worker.runSkipped_only hrec job st t
      | true => exact Worker.execute_only Act.Keeping.executes
  exact .bind hdispatch.attempt fun _ => .bind hrun.attempt fun _ => trivial

section
variable {d : JobRecord} {st : InMemoryJobStore} {l : Life}

theorem Life.held_start {id : String} (hd : st.get id = some d) : Held d (l.start st d, []) := by
  refine ⟨rfl, ⟨d, ?_, .refl _⟩, .nil, fun _ => rfl⟩
  show st.get d.id = some d
  rw [st.keyed _ _ hd]
  exact hd

/-- The log of a killed run is the start of the whole run's. -/
theorem cut_log_prefix {α : Type} (n : Nat) (p : JobProg α) (turns : Nat → Turn) (s : SoloState) :
    ((p.cut n).run turnExec turns s).2.2 <+: (p.run turnExec turns s).2.2 :=
  Prog.run_cut (r := fun s s' : SoloState => s.2 <+: s'.2) (fun s => List.prefix_refl s.2) (fun _ _ _ h h' => h.trans h')
    (fun _ _ _ => List.prefix_append _ _) n p turns s

/-- **A life, wherever it is killed.** -/
theorem Life.run_held {id : String} (hd : st.get id = some d) (ht : ∀ n, (l.turns n).Rises) : Held d (l.run st d) := by
  have h₀ : Held d (l.start st d, []) := l.held_start hd
  have hwhole := Prog.run_of_wp (resume (l.start st d).job.ident) l.turns _ ht (Held.resume _ _ h₀)
  unfold run prog
  cases l.killed with
  | none => exact hwhole
  | some n =>
    have hp := cut_log_prefix n (resume (l.start st d).job.ident) l.turns (l.start st d, [])
    have hup : risesProto.Keeps (fun s => s.1.job.id = d.id ∧ ∃ d', s.1.row = some d' ∧ StatusLe d.status d'.status)
        ((resume (l.start st d).job.ident).cut n) := by
      refine Proto.keeps_solo (fun a ha t s ht h => ⟨?_, ?_⟩) (.cut n (resume_keeping _))
      · exact ((Ctx.exec_frame t.choice a (t.before s.1) ha).id).trans h.1
      · obtain ⟨d', hd, hle⟩ := ht.row h.2
        obtain ⟨e, he, hle'⟩ := Ctx.exec_row_up t.choice a _ ha hd
        exact ⟨e, he, hle.trans hle'⟩
    obtain ⟨hid, hrow⟩ := Prog.run_of_wp _ l.turns _ ht (hup _ ⟨h₀.id, h₀.row⟩)
    refine ⟨hid, hrow, Admits.of_prefix hwhole.order hp, fun hterm => ?_⟩
    have hall := hwhole.idle hterm
    obtain ⟨rest, hrest⟩ := hp
    rw [← hrest, starts, List.filterMap_append] at hall
    exact (List.append_eq_nil_iff.1 hall).1

/-- **The row outlives its processes**, and only moves up. -/
theorem Lives.row {id : String} {st' : InMemoryJobStore} (h : Lives id st st') (hd : st.get id = some d) :
    ∃ d', st'.get id = some d' ∧ StatusLe d.status d'.status := by
  induction h with
  | refl => exact ⟨d, hd, .refl _⟩
  | tail _ hs ih =>
    obtain ⟨d₁, hd₁, hle₁⟩ := ih
    obtain ⟨l, ht, e, he, rfl⟩ := hs
    obtain rfl := Option.some.inj (hd₁.symm.trans he)
    have hheld := l.run_held he ht
    obtain ⟨d₂, hd₂, hle₂⟩ := hheld.row
    refine ⟨d₂, ?_, hle₁.trans hle₂⟩
    rw [Ctx.row, hheld.id] at hd₂
    rw [← InMemoryJobStore.keyed _ _ _ he]
    exact hd₂

end

/-! ## A whole life on a working store -/

/-- Nobody else is at the store or the channel, no call fails, and the workflows succeed. -/
structure Turn.Resumes (t : Turn) : Prop where
  works : Works t
  race  : t.choice.race = none

abbrev resumesProto : Proto Act Act.Res SoloState := Proto.solo turnExec Turn.Resumes

/-- The rebuilt job over its row at `w`, from a synchronous caller, with a running channel that queues `q`. -/
structure Entering (n : Nat) (v w : Status) (q : List Nat) (s : SoloState) : Prop where
  working : Working n v (some w) 0 s
  sync    : s.1.loopRunning = false
  channel : s.1.job.channelId ≠ ""
  chan    : s.1.chan.queue = q ∧ s.1.chan.stop = false

section
variable {n k : Nat} {v w u : Status} {q : List Nat} {s : SoloState} {t : Turn}

theorem wp_of_working {α : Type} {p : JobProg α} {Q : Except Exn α → SoloState → Prop} (h : workingProto.wp p Q s) :
    resumesProto.wp p Q s :=
  Proto.wp_solo_mono (fun _ ht => ht.works) _ _ h

theorem Entering.same {a : Act} (ht : t.Resumes) (h : Entering n v w q s) {r : a.Res}
    (hx : Ctx.exec t.choice a s.1 = (r, s.1)) (hs : a.start = none) :
    (turnExec t a s).1 = r ∧ Entering n v w q (turnExec t a s).2 := by
  have hn := h.working.same ht.works hx hs
  rw [turnExec_alone ht.works.alone hx] at hn ⊢
  exact ⟨rfl, hn, h.sync, h.channel, h.chan⟩

theorem Entering.event (ht : t.Resumes) (h : Entering n v w q s) {e : Event} (htg : Fsm.target e v = some u) :
    (turnExec t (.applyEvent e) s).1 = .ok () ∧ Entering n u w q (turnExec t (.applyEvent e) s).2 := by
  have hx := Ctx.exec_applyEvent_some t.choice h.working.fsm htg
  obtain ⟨hr, hn⟩ := h.working.event ht.works htg
  rw [turnExec_alone ht.works.alone hx] at hr hn ⊢
  exact ⟨hr, hn, h.sync, h.channel, h.chan⟩

/-- The send of a job to its idle channel. -/
theorem Entering.sent (ht : t.Resumes) (h : Entering n v w [] s) :
    (turnExec t .send s).1 = .ok ∧ Entering n v w [s.1.job.ref] (turnExec t .send s).2 := by
  obtain ⟨hq, hstop⟩ := h.chan
  have hx : Ctx.exec t.choice .send s.1 = (.ok, { s.1 with chan := { s.1.chan with queue := [s.1.job.ref] } }) := by
    simp only [Ctx.exec, Ctx.send, ht.race, Channel.send_empty s.1.chan s.1.job.ref hq hstop]
  have hrow : RowAt (some w) { s.1 with chan := { s.1.chan with queue := [s.1.job.ref] } } := h.working.row
  have hn := h.working.next ht.works hx h.working.fsm rfl hrow (List.append_nil _)
  rw [turnExec_alone ht.works.alone hx] at hn ⊢
  exact ⟨rfl, hn, h.sync, h.channel, rfl, hstop⟩

/-- **The Scheduled put over an InProgress row is refused**, and nothing moves. -/
theorem save_behind (h : Working n .scheduled (some .inProgress) k s) :
    workingProto.wp Job.save (fun r s => r = .ok false ∧ Working n .scheduled (some .inProgress) k s) s := by
  refine wp_save_alone (v := .scheduled) (P := Working n .scheduled (some .inProgress) k) (W := fun _ _ => False)
    (fun _ ht => ht.alone) (fun _ h => h.fsm) ?_ ?_ ?_ h
  · intro s t ht h
    exact h.same (a := .buildRecord) ht rfl rfl
  · rintro rec s t ht h ⟨hid, hst, -⟩
    obtain ⟨d, hd, hds, -⟩ := h.row
    obtain ⟨_, _, -, -, -, ⟨hnone, -⟩ | ⟨d₀, hd₀, hw, -⟩⟩ | ⟨_, -, -, hx⟩ := Ctx.exec_put_own t.choice ht.fault hid
    · rw [hd] at hnone
      cases hnone
    · obtain rfl := Option.some.inj (hd.symm.trans hd₀)
      have hle := hw.1
      rw [hds, hst, statusLe_value] at hle
      simp [Status.rank] at hle
    · have hn := h.same (a := .put rec) ht hx rfl
      rw [turnExec_alone ht.alone hx] at hn ⊢
      exact ⟨rfl, hn⟩
  · intro rec s t _ h
    exact h.elim

/-- Where the row of a job that may still run can be. -/
def Status.Resumable (w : Status) : Prop := w = .scheduled ∨ w = .inProgress

theorem saveScheduled_behind (job : Ident) : ∀ (m : Nat) (last : Option Exn) {s : SoloState},
    Working n .scheduled (some .inProgress) 0 s → workingProto.wp (Job.saveScheduled job m last)
      (fun _ => Working n .scheduled (some .inProgress) 0) s
  | 0, some e, _, h => h
  | 0, none, _, h => h
  | m + 1, last, _, h => by
    refine Proto.wp_try (save_behind h) fun r s ⟨hr, h⟩ => ?_
    subst hr
    exact saveScheduled_behind job m last h

/-- **After the saves of a dispatch** the row is Scheduled, or the InProgress that refused them. -/
theorem saveScheduled_working (job : Ident) (hw : w.terminal = false) (h : Working n .scheduled (some w) 0 s) :
    workingProto.wp (Job.saveScheduled job Job.dispatchSaveAttempts none)
      (fun _ s => ∃ w', w'.Resumable ∧ Working n .scheduled (some w') 0 s) s := by
  by_cases hp : w = .inProgress
  · subst hp
    exact Proto.wp_mono (fun _ _ h => ⟨_, .inr rfl, h⟩) _ _ (saveScheduled_behind job _ none h)
  · refine Proto.wp_try (save_working (fun w' hw' => ?_) h) fun r s ⟨hr, h⟩ => ?_
    · obtain rfl := Option.some.inj hw'
      rw [statusLe_value]
      cases w with
      | unknown => exact .inr (by decide)
      | initializing => exact .inr (by decide)
      | scheduled => exact .inl rfl
      | inProgress => exact absurd rfl hp
      | failed => cases hw
      | completed => cases hw
      | cancelled => cases hw
    · subst hr
      exact ⟨_, .inl rfl, h⟩

theorem saveScheduled_chan (job : Ident) (m : Nat) (last : Option Exn) (ch : Channel) :
    workingProto.Keeps (fun s => s.1.chan = ch) (Job.saveScheduled job m last) := by
  refine Proto.keeps_solo (q := fun a => a ≠ .send ∧ a ≠ .receive) (fun a ha t s _ h => ?_) ?_
  · exact (Ctx.exec_chan t.choice a _ ha.1 ha.2).trans h
  · exact Job.saveScheduled_built (Act.Saves.saveBuilt ⟨by simp, by simp, by simp, by simp⟩) job m last

/-- The job on its channel, over a row that lets it run. -/
def Queued (n : Nat) (s : SoloState) : Prop :=
  (∃ w, Status.Resumable w ∧ Working n .scheduled (some w) 0 s) ∧ s.1.chan.queue ≠ []

theorem dispatch_entering (job : Ident) (hw : w.terminal = false) (h : Entering n .unknown w [] s) :
    resumesProto.wp (Job.dispatch job) (fun _ => Queued n) s := by
  refine Proto.wp_solo fun t₁ ht₁ => ?_
  have h₁ := (h.same (a := .fsmCurrent) ht₁ rfl rfl).2
  refine Proto.wp_solo fun t₂ ht₂ => ?_
  have h₂ := (h₁.same (a := .status) ht₂ rfl rfl).2
  refine Proto.wp_try (M := fun r s => r = .ok () ∧ Entering n .scheduled w [] s) ?_ fun r s ⟨hr, h⟩ => ?_
  · refine Proto.wp_seq (M := fun r s => r = .ok () ∧ Entering n .initializing w [] s) ?_ (fun _ s h => ?_)
      (fun _ _ h => by cases h.1)
    · refine Proto.wp_solo fun t ht => ?_
      obtain ⟨hr, hn⟩ := h₂.event (u := .initializing) ht (e := .init) rfl
      rw [hr]
      exact ⟨rfl, hn⟩
    · refine Proto.wp_solo fun t ht => ?_
      obtain ⟨hr, hn⟩ := h.2.event (u := .scheduled) ht (e := .schedule) rfl
      rw [hr]
      exact ⟨rfl, hn⟩
  subst hr
  refine Proto.wp_try (M := fun r s => r = .ok () ∧ ∃ ref, Entering n .scheduled w [ref] s) ?_ fun r s ⟨hr, ref, h⟩ => ?_
  · refine Proto.wp_seq (M := fun r s => r = .ok () ∧ Entering n .scheduled w [] s) ?_ (fun _ s h => ?_)
      (fun _ _ h => by cases h.1)
    · refine Proto.wp_solo fun t ht => ?_
      have hx : Ctx.exec t.choice .available s.1 = (.ok (), s.1) := by
        simp only [Ctx.exec, if_neg h.channel]
      obtain ⟨hr, hn⟩ := h.same (a := .available) ht hx rfl
      rw [hr]
      exact ⟨rfl, hn⟩
    · refine Proto.wp_solo fun t₃ ht₃ => ?_
      obtain ⟨hr, h₃⟩ := h.2.same (a := .runningLoop) ht₃ rfl rfl
      rw [hr, h.2.sync]
      refine Proto.wp_solo fun t₄ ht₄ => ?_
      obtain ⟨hr, h₄⟩ := h₃.sent ht₄
      rw [hr]
      exact ⟨rfl, _, h₄⟩
  · subst hr
    refine wp_of_working (Proto.wp_mono (fun _ s h => ⟨h.1, ?_⟩) _ _ (Proto.wp_and _ _
      (saveScheduled_working job hw h.working) (saveScheduled_chan job _ none s.1.chan s rfl)))
    rw [h.2, ‹Entering n .scheduled w [ref] _›.chan.1]
    simp

theorem heal_present (job : Ident) (h : Working n v (some w) k s) :
    workingProto.wp (Worker.heal job) (fun r s => r = .ok () ∧ Working n v (some w) k s) s := by
  refine Proto.wp_seq (getSaved_working h) (fun saved s h => ?_) (fun _ _ h => by cases h.1)
  obtain ⟨hr, h⟩ := h
  obtain rfl := Except.ok.inj hr
  obtain ⟨d, hd, -⟩ := h.row
  rw [hd]
  exact ⟨rfl, h⟩

theorem runAndExecute_resumes (job : Ident) (st : Option Status) (status : String) (hw : w.Resumable)
    (h : Working n .scheduled (some w) 0 s) :
    workingProto.wp (Worker.runAndExecute job st status) (fun _ => Completes n) s := by
  refine Proto.wp_seq (M := fun r s => r = .ok () ∧ Working n .inProgress (some w) 0 s) ?_ (fun _ s h => ?_)
    (fun _ _ h => by cases h.1)
  · refine Proto.wp_solo fun t ht => ?_
    obtain ⟨hr, hn⟩ := h.event (u := .inProgress) ht (e := .run) rfl
    rw [hr]
    exact ⟨rfl, hn⟩
  · refine Proto.wp_try (save_working (fun w' hw' => ?_) h.2) fun r s ⟨hr, h⟩ => ?_
    · obtain rfl := Option.some.inj hw'
      rcases hw with rfl | rfl
      · exact statusLe_value.2 (.inr (by decide))
      · exact .refl _
    · subst hr
      exact execute_working h

/-- **The queued job runs**, whether its row is Scheduled or the InProgress of a process that was killed. -/
theorem runOnce_queued (job : Ident) (h : Queued n s) :
    workingProto.wp (Worker.runOnce job) (fun _ => Completes n) s := by
  obtain ⟨⟨w, hw, h⟩, hq⟩ := h
  refine Proto.wp_solo fun t ht => ?_
  have hrow : RowAt (some w) { s.1 with chan := { s.1.chan with queue := s.1.chan.queue.tail } } := h.row
  have h₁ := h.next (a := .receive) ht rfl h.fsm rfl hrow (List.append_nil _)
  obtain ⟨ref, hr⟩ : ∃ ref, (turnExec t .receive s).1 = some ref := by
    rw [turnExec_alone ht.alone (a := .receive) rfl]
    exact Option.ne_none_iff_exists'.1 fun hn => hq (List.head?_eq_none_iff.1 hn)
  rw [hr]
  refine Proto.wp_seq (M := fun _ => Completes n) ?_ (fun _ _ h => h) (fun _ _ h => h)
  refine Proto.wp_solo fun t₂ ht₂ => ?_
  rw [h₁.check (by simp)]
  have h₂ := h₁.same (a := .isCancelled) ht₂ rfl rfl
  refine Proto.wp_solo fun t₃ ht₃ => ?_
  have h₃ := h₂.same (a := .fsmCurrent) ht₃ rfl rfl
  refine Proto.wp_solo fun t₄ ht₄ => ?_
  have h₄ := h₃.same (a := .status) ht₄ rfl rfl
  refine Proto.wp_try (heal_present job h₄) fun r s ⟨hr, h⟩ => ?_
  subst hr
  exact runAndExecute_resumes job _ _ hw h

theorem resume_entering (job : Ident) (hw : w.terminal = false) (h : Entering n .unknown w [] s) :
    resumesProto.wp (resume job) (fun _ => Completes n) s :=
  Proto.wp_try (dispatch_entering job hw h) fun _ _ h =>
    Proto.wp_try (wp_of_working (runOnce_queued job h)) fun _ _ h => h

end

/-- **Recovery from any crash.**  Whatever the processes of a stored job did and wherever each was killed, its row is
still there and only moved up.  A further process starts workflows only after its own InProgress put was applied, and
none when the row was ever terminal.  When it is not, one whole life on a working store whose workflows succeed runs all
the job's workflows and leaves it Completed, as its row. -/
theorem crash_recovery {id : String} {st st' : InMemoryJobStore} {d₀ : JobRecord} (h₀ : st.get id = some d₀)
    (h : Lives id st st') : ∃ d, st'.get id = some d ∧ StatusLe d₀.status d.status ∧
      (∀ l : Life, (∀ n, (l.turns n).Rises) → Admits StartsAfterRun (l.run st' d).2 ∧
        (terminalText d₀.status = true → starts (l.run st' d).2 = [])) ∧
      (∀ l : Life, l.killed = none → (∀ n, (l.turns n).Resumes) → l.chan.queue = [] → l.chan.stop = false →
        ∀ v : Status, d.status = v.value → v.terminal = false → d.channelId ≠ "" →
          Completes l.workflows.length (l.run st' d)) := by
  obtain ⟨d, hd, hle⟩ := h.row h₀
  refine ⟨d, hd, hle, fun l ht => ?_, fun l hk ht hq hstop v hv hterm hch => ?_⟩
  · have hheld := l.run_held hd ht
    refine ⟨hheld.order, fun hterm => hheld.idle ?_⟩
    rw [hle.of_terminal hterm]
    exact hterm
  · have hrow : RowAt (some v) (l.start st' d) := by
      refine ⟨d, ?_, hv, rfl⟩
      show st'.get d.id = some d
      rw [st'.keyed _ _ hd]
      exact hd
    have hin : Entering l.workflows.length .unknown v [] (l.start st' d, []) :=
      ⟨⟨rfl, rfl, rfl, hrow⟩, rfl, hch, hq, hstop⟩
    have hwp := resume_entering (l.start st' d).job.ident hterm hin
    have hrun := Prog.run_of_wp _ l.turns _ ht hwp
    unfold Life.run Life.prog
    rw [hk]
    exact hrun

/-! A process killed while the job's workflow ran, and the next one. -/

def lifeOf (killed : Option Nat) : Life := { ref := 1, workflows := [⟨[]⟩], turns := fun _ => {}, killed := killed }

def leftBy (killed : Option Nat) : InMemoryJobStore :=
  ((lifeOf killed).run savedCtx.store (savedCtx.job.record "t0")).1.store

theorem idle_rises (n : Nat) : ((lifeOf (some 23)).turns n).Rises := fun _ _ d h => ⟨d, h, .refl _⟩

theorem idle_resumes (n : Nat) : ((lifeOf none).turns n).Resumes := ⟨⟨rfl, rfl, rfl⟩, rfl⟩

/-- The row was InProgress when the process was killed, and the next one completes the job. -/
theorem crash_recovery_killed : ∃ d, (leftBy (some 23)).get savedCtx.job.id = some d ∧
    d.status = Status.inProgress.value ∧ Completes 1 ((lifeOf none).run (leftBy (some 23)) d) := by
  have hrow : savedCtx.store.get savedCtx.job.id = some (savedCtx.job.record "t0") := rfl
  have hlives : Lives savedCtx.job.id savedCtx.store (leftBy (some 23)) := .single ⟨_, idle_rises, _, hrow, rfl⟩
  obtain ⟨d, hd, -, -, hwhole⟩ := crash_recovery hrow hlives
  have hleft : ((leftBy (some 23)).get savedCtx.job.id).map (fun d => (d.status, d.channelId)) =
      some (Status.inProgress.value, savedCtx.job.channelId) := by decide +kernel
  rw [hd] at hleft
  obtain ⟨hst, hch⟩ := Prod.mk.inj (Option.some.inj hleft)
  refine ⟨d, hd, hst, hwhole _ rfl idle_resumes rfl rfl .inProgress hst rfl ?_⟩
  rw [hch]
  decide

end Pypepper
