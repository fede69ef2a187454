import Pypepper.Calls
import Pypepper.Mirror
import Pypepper.RunOnce
/-!
# StatusSync — the job's status and its machine

`status` and the machine are written by separate statements, three of them past the transition table.  Over every run of
`apply_event`, `cancel`, `save`, `scheduled` and `run_once`, under every behaviour of the store, the channel and the
workflows, they agree after each operation, and the machine is where declared transitions, a rollback, the worker's
Failed or the store's report put it (`status_follows_fsm`).
-/
namespace Pypepper

open Conc (Prog Proto)
open Relation (ReflTransGen)

/-! ## The law -/

/-- A chain of declared transitions. -/
def Fsm.Leads : Status → Status → Prop := ReflTransGen (fun s t => ∃ e, Fsm.target e s = some t)

/-- `status` is the machine's. -/
def Job.Synced (j : Job) : Prop := j.status = j.currentStatus

/-- A read of the row in the log answered with the status. -/
def Reported (log : List (JobEv Unit)) (w : Status) : Prop :=
  ∃ e ∈ log, ∃ d, e.act.saved e.res = some (.ok (some d)) ∧ d.status = w.value

/-- Where an operation may leave the machine: along declared transitions from its state at entry, that state included, and
for the worker also in Failed or in what the store reported to it. -/
def Op.Moves (op : Op) (log : List (JobEv Unit)) (v w : Status) : Prop :=
  Fsm.Leads v w ∨ op = .runOnce ∧ (w = .failed ∨ Reported log w)

/-- The operation leaves the status at the machine's, and the machine where the operation may. -/
def StatusFollows (_ : List OpStep) (s : SoloState) (o : OpStep) : Prop :=
  (s.op o).1.job.Synced ∧ ∃ v w, s.1.job.fsm = some v ∧ (s.op o).1.job.fsm = some w ∧
    o.op.Moves ((s.op o).2.drop s.2.length) v w

/-! ## One action -/

/-- The actions of an operation that entered in `v`: what bypasses the table restores `v` with its status, or puts the
worker's job in Failed. -/
def Act.Follows (worker : Bool) (v : Status) : Act → Prop
  | .restore s            => worker = true ∧ s = .failed
  | .restoreLifecycle s t => s = some v ∧ t = v.value
  | .fromRecord _         => False
  | _                     => True

/-- Since the log was `l` the machine has followed a chain from `v`, or was put in the worker's Failed, and the status is
the machine's. -/
structure Tracks (worker : Bool) (v : Status) (l : List (JobEv Unit)) (s : SoloState) : Prop where
  log   : l <+: s.2
  sync  : s.1.job.Synced
  place : ∃ w, s.1.job.fsm = some w ∧ (Fsm.Leads v w ∨ worker = true ∧ w = .failed)

theorem Job.Synced.of_fsm {j : Job} {w : Status} (h : j.Synced) (hw : j.fsm = some w) : j.status = w.value :=
  h.trans (Job.currentStatus_of_fsm hw)

theorem Job.synced_of {j : Job} {w : Status} (hw : j.fsm = some w) (hs : j.status = w.value) : j.Synced := by
  rw [Job.Synced, hs, Job.currentStatus_of_fsm hw]

theorem Ctx.exec_status (c : Choice) (a : Act) (x : Ctx) (h : a.movesFsm = false) :
    (Ctx.exec c a x).2.job.status = x.job.status := by
  cases a with
  | applyEvent e => cases h
  | restore s => cases h
  | restoreLifecycle s t => cases h
  | fromRecord ws => cases h
  | put rec => exact congrArg Job.status (Ctx.put_job x rec c.fault)
  | refresh u => simp only [Ctx.exec, Ctx.refresh]; split <;> rfl
  | send => simp only [Ctx.exec, Ctx.send]; split <;> rfl
  | _ => rfl

section
variable {worker : Bool} {v : Status} {l : List (JobEv Unit)} {s : SoloState}

theorem Tracks.at {w : Status} (hl : l <+: s.2) (hf : s.1.job.fsm = some w) (hs : s.1.job.status = w.value)
    (hp : Fsm.Leads v w ∨ worker = true ∧ w = .failed) : Tracks worker v l s :=
  ⟨hl, Job.synced_of hf hs, w, hf, hp⟩

theorem Tracks.of_job (h : Tracks worker v l s) {s' : SoloState} (hl : l <+: s'.2) (hf : s'.1.job.fsm = s.1.job.fsm)
    (hs : s'.1.job.status = s.1.job.status) : Tracks worker v l s' := by
  obtain ⟨w, hw, hp⟩ := h.place
  exact Tracks.at hl (hf.trans hw) (hs.trans (h.sync.of_fsm hw)) hp

/-- A transition extends the chain; from Failed there is none. -/
theorem leads_of_target {w w' : Status} {e : Event} (hp : Fsm.Leads v w ∨ worker = true ∧ w = .failed)
    (ht : Fsm.target e w = some w') : Fsm.Leads v w' := by
  rcases hp with hp | ⟨-, rfl⟩
  · exact hp.tail ⟨e, ht⟩
  · rw [Fsm.target_terminal e .failed rfl] at ht
    cases ht

/-- **One action** keeps the status at the machine's, and the machine where the operation may move it. -/
theorem Tracks.act {a : Act} (h : Tracks worker v l s) (ha : a.Follows worker v) (t : Turn) :
    Tracks worker v l (turnExec t a s).2 := by
  have hl : l <+: (turnExec t a s).2.2 := h.log.trans (List.prefix_append _ _)
  by_cases hm : a.movesFsm = false
  · exact h.of_job hl (Ctx.exec_fsm t.choice a _ hm) (Ctx.exec_status t.choice a _ hm)
  · cases a with
    | applyEvent e =>
      obtain ⟨w, hw, hp⟩ := h.place
      obtain ⟨w₀, w', hw₀, ht, hx⟩ | ⟨-, hx⟩ := Ctx.exec_applyEvent t.choice e (t.before s.1)
      · obtain rfl := Option.some.inj (hw₀.symm.trans hw)
        have hjob : (turnExec t (.applyEvent e) s).2.1.job = { s.1.job with fsm := some w', status := w'.value } :=
          congrArg (fun p => p.2.job) hx
        exact Tracks.at hl (congrArg Job.fsm hjob) (congrArg Job.status hjob) (.inl (leads_of_target hp ht))
      · have hjob : (turnExec t (.applyEvent e) s).2.1.job = s.1.job := congrArg (fun p => p.2.job) hx
        exact h.of_job hl (congrArg Job.fsm hjob) (congrArg Job.status hjob)
    | restore w =>
      obtain ⟨hworker, rfl⟩ := ha
      exact Tracks.at hl rfl rfl (.inr ⟨hworker, rfl⟩)
    | restoreLifecycle st t' =>
      obtain ⟨rfl, rfl⟩ := ha
      exact Tracks.at hl rfl rfl (.inl .refl)
    | fromRecord ws => exact ha.elim
    | _ => exact absurd rfl hm

theorem only_keeps {α : Type} {p : JobProg α} (h : p.Only (Act.Follows worker v)) :
    soloProto.Keeps (Tracks worker v l) p :=
  Proto.keeps_solo (fun _ ha t _ _ hs => hs.act ha t) h

end

theorem Act.Follows.saves (worker : Bool) (v : Status) : Act.Saves (Act.Follows worker v) :=
  ⟨trivial, fun _ => trivial, fun _ => trivial, trivial⟩

theorem Act.Follows.recovers (v : Status) :
    RecoverBuilt (fun _ (p : JobProg _) => p.Only (Act.Follows true v)) (some v) v.value :=
  { (Act.Follows.saves true v).saveBuilt with
    check := .call trivial
    current := .call trivial
    fail := applyEventP_only trivial
    failed := .call ⟨rfl, rfl⟩
    lifecycle := .call ⟨rfl, rfl⟩
    send := .call trivial }

/-! ## The operations -/

/-- How an operation that entered in `v` with the log `l` leaves the job. -/
structure Left (op : Op) (l : List (JobEv Unit)) (v : Status) (s : SoloState) : Prop where
  sync  : s.1.job.Synced
  place : ∃ w, s.1.job.fsm = some w ∧ op.Moves (s.2.drop l.length) v w

section
variable {worker : Bool} {v : Status} {s : SoloState} {op : Op} {l : List (JobEv Unit)}

theorem Tracks.left (h : Tracks worker v l s) (hop : worker = true → op = .runOnce) : Left op l v s := by
  obtain ⟨w, hw, hp⟩ := h.place
  refine ⟨h.sync, w, hw, ?_⟩
  rcases hp with hp | ⟨hworker, rfl⟩
  · exact .inl hp
  · exact .inr ⟨hop hworker, .inl rfl⟩

/-- `scheduled` reads the state it would restore before anything moves. -/
theorem dispatch_tracks (job : Ident) (hf : s.1.job.fsm = some v) (hs : s.1.job.status = v.value) :
    soloProto.wp (Job.dispatch job) (fun _ => Tracks false v s.2) s := by
  obtain ⟨rest, hrest, hbuilt⟩ := Job.dispatch_built job
  rw [hrest]
  refine Proto.wp_solo fun t₁ _ => ?_
  refine Proto.wp_solo fun t₂ _ => ?_
  have hst : (turnExec t₁ .fsmCurrent s).1 = some v := hf
  have ht : (turnExec t₂ .status (turnExec t₁ .fsmCurrent s).2).1 = v.value := hs
  rw [hst, ht]
  have hl : s.2 <+: (turnExec t₂ .status (turnExec t₁ .fsmCurrent s).2).2.2 :=
    (List.prefix_append _ _).trans (List.prefix_append _ _)
  have honly : (rest (some v) v.value).Only (Act.Follows false v) :=
    hbuilt (Act.Follows.saves false v).saveBuilt (fun _ => applyEventP_only trivial) (.call ⟨rfl, rfl⟩) (.call trivial)
      (.call trivial) (.call trivial)
  exact only_keeps honly _ (Tracks.at hl hf hs (.inl .refl))

/-- An operation whose actions all keep the chain. -/
theorem Tracks.only_left {α : Type} {p : JobProg α} (h : Tracks worker v l s) (hp : p.Only (Act.Follows worker v))
    (hop : worker = true → op = .runOnce) : soloProto.wp p (fun _ => Left op l v) s :=
  Proto.wp_mono (fun _ _ h => h.left hop) p s (only_keeps hp s h)

/-- A status that the read just before reported. -/
theorem Tracks.reported (h : Tracks worker v l s) (t : Turn) {d : JobRecord} {w : Status}
    (hr : (turnExec t .getSaved s).1 = .ok (some d)) (hw : d.status = w.value) :
    Reported ((turnExec t .getSaved s).2.2.drop l.length) w := by
  obtain ⟨seg, hseg⟩ := h.log
  have hmem : (⟨(), .getSaved, (turnExec t .getSaved s).1, t.before s.1, (turnExec t .getSaved s).2.1⟩ : JobEv Unit) ∈
      (turnExec t .getSaved s).2.2.drop l.length := by
    simp only [turnExec, ← hseg, List.append_assoc, List.drop_left]
    exact List.mem_append_right _ List.mem_cons_self
  exact ⟨_, hmem, d, congrArg some hr, hw⟩

theorem Reported.act {n : Nat} {a : Act} (t : Turn) {w : Status} (h : Reported (s.2.drop n) w) :
    Reported ((turnExec t a s).2.2.drop n) w := by
  obtain ⟨e, he, hd⟩ := h
  refine ⟨e, ?_, hd⟩
  simp only [turnExec, List.drop_append]
  exact List.mem_append_left _ he

/-- **The RUN put was refused**: the machine follows the reported status, or the recovery puts it away. -/
theorem runSkipped_left (job : Ident) (h : Tracks true v l s) :
    soloProto.wp (Worker.runSkipped job (some v) v.value) (fun _ => Left .runOnce l v) s := by
  have hrec := Act.Follows.recovers v
  have hlog := Worker.ensureCancelledPersistedLogged_built hrec.toSaveBuilt
  refine Proto.wp_seq (M := fun r s => Tracks true v l s ∧ ∀ d w, r = .ok (some d) → d.status = w.value →
    Reported (s.2.drop l.length) w) ?_ (fun durable s h => ?_) (fun _ _ h => h.1.left fun _ => rfl)
  · refine Proto.wp_solo fun t _ => ?_
    have hn := h.act (a := .getSaved) trivial t
    have hrep := fun d w => h.reported t (d := d) (w := w)
    cases hr : (turnExec t .getSaved s).1 with
    | ok o => exact ⟨hn, fun d w ho hw => hrep d w (by rw [hr, Except.ok.inj ho]) hw⟩
    | error e => exact ⟨hn, fun _ _ ho => by cases ho⟩
  · obtain ⟨h, hrep⟩ := h
    dsimp only
    split
    · exact h.only_left (.bind (.call trivial) fun _ => .ite hlog (.bind (applyEventP_only trivial) fun _ => hlog))
        fun _ => rfl
    · split
      · rename_i st hst
        obtain ⟨d, rfl, hd⟩ := Option.map_eq_some_iff.1 (Option.filter_eq_some_iff.1 hst).1
        unfold Worker.followDurableStatus
        split
        · rename_i w hw
          refine Proto.wp_call (P := (· = s)) (Proto.solo_stable _) rfl (fun s₁ r s₂ h₁ hst => ⟨trivial, ?_⟩)
          subst h₁
          obtain ⟨t, -, rfl, rfl⟩ := hst
          have hrep := hrep d w rfl (hd.trans (Status.value_of_ofValue hw).symm)
          exact ⟨Job.synced_of (w := w) rfl rfl, w, rfl, .inr ⟨rfl, .inr (hrep.act t)⟩⟩
        · exact h.left fun _ => rfl
      · exact h.only_left (Worker.failOrRestoreAfterRunPersist_built hrec job _) fun _ => rfl

/-- **`_process`** of a job in `v`. -/
theorem process_left (job : Ident) (hl : l <+: s.2) (hf : s.1.job.fsm = some v) (hs : s.1.job.status = v.value) :
    soloProto.wp (Worker.process job) (fun _ => Left .runOnce l v) s := by
  have hrec := Act.Follows.recovers v
  have hsave := hrec.toSaveBuilt
  have h : Tracks true v l s := Tracks.at hl hf hs (.inl .refl)
  refine Proto.wp_solo fun t₁ _ => ?_
  split
  · exact (h.act (a := .isCancelled) trivial t₁).only_left (Worker.ensureCancelledPersistedLogged_built hsave)
      fun _ => rfl
  · refine Proto.wp_solo fun t₂ _ => ?_
    refine Proto.wp_solo fun t₃ _ => ?_
    have hst : (turnExec t₂ .fsmCurrent (turnExec t₁ .isCancelled s).2).1 = some v := hf
    have ht : (turnExec t₃ .status (turnExec t₂ .fsmCurrent (turnExec t₁ .isCancelled s).2).2).1 = v.value := hs
    rw [hst, ht]
    have h₃ := ((h.act (a := .isCancelled) trivial t₁).act (a := .fsmCurrent) trivial t₂).act (a := .status) trivial t₃
    refine Proto.wp_try (only_keeps (Worker.heal_built hsave job) _ h₃) fun r s h => ?_
    cases r with
    | error e => exact h.only_left (Worker.failOrRestoreAfterRunPersist_built hrec job e) fun _ => rfl
    | ok u =>
      refine Proto.wp_seq (only_keeps (applyEventP_only trivial) s h) (fun _ s h => ?_) fun _ _ h => h.left fun _ => rfl
      refine Proto.wp_try (only_keeps hsave.save s h) fun r s h => ?_
      match r with
      | .error e => exact h.only_left (Worker.failOrRestoreAfterRunPersist_built hrec job e) fun _ => rfl
      | .ok false => exact runSkipped_left job h
      | .ok true =>
        refine h.only_left (Worker.execute_only ?_) fun _ => rfl
        exact { Act.Follows.saves true v with
          check := trivial, workflows := trivial, share := trivial, start := fun _ => trivial, ended := fun _ => trivial,
          fail := trivial, complete := trivial }

/-- **One operation**, whatever the environment does. -/
theorem op_left (op : Op) (job : Ident) (hf : s.1.job.fsm = some v) (hs : s.1.job.status = v.value) :
    soloProto.wp (op.prog job) (fun _ => Left op s.2 v) s := by
  have h : Tracks false v s.2 s := Tracks.at (List.prefix_refl _) hf hs (.inl .refl)
  have hk := (Act.Follows.saves false v).saveBuilt
  have hop : false = true → op = .runOnce := fun h => by cases h
  cases op with
  | applyEvent e => exact h.only_left (applyEventP_only trivial) hop
  | save => exact h.only_left (hk.bind hk.save fun _ => hk.ret ()) hop
  | cancel =>
    exact h.only_left (Job.cancel_built hk (.call trivial) (.call trivial) (applyEventP_only trivial)) hop
  | scheduled => exact Proto.wp_mono (fun _ _ h => h.left hop) _ _ (dispatch_tracks job hf hs)
  | runOnce =>
    refine Proto.wp_solo fun t _ => ?_
    have hl : s.2 <+: (turnExec t .receive s).2.2 := List.prefix_append _ _
    have htracks : Tracks false v s.2 (turnExec t .receive s).2 := Tracks.at hl hf hs (.inl .refl)
    have hleft : Left .runOnce s.2 v (turnExec t .receive s).2 := htracks.left hop
    cases (turnExec t .receive s).1 with
    | none => exact hleft
    | some r =>
      dsimp only
      split
      · exact process_left job hl hf hs
      · exact hleft

end

/-! ## Every run -/

/-- A job as its constructor and `from_record` make it. -/
structure Job.Initial (j : Job) : Prop where
  fsm    : j.fsm = some .unknown
  status : j.status = Status.unknown.value

theorem Job.initial_ofRecord (ref : Nat) (r : JobRecord) (ws : List Workflow) : (Job.ofRecord ref r ws).Initial :=
  ⟨rfl, rfl⟩

/-- What holds after every run of the operation's program holds after the operation. -/
theorem SoloState.op_of_wp {s : SoloState} {o : OpStep} {Q : SoloState → Prop}
    (h : soloProto.wp (o.op.prog s.1.job.ident) (fun _ => Q) ({ s.1 with chan := o.chan }, s.2)) : Q (s.op o) := by
  have hany : ∀ n, (fun _ : Turn => True) (o.turns n) := fun _ => trivial
  exact Prog.run_of_wp (o.op.prog s.1.job.ident) o.turns _ hany h

theorem op_follows {s : SoloState} {v : Status} (hf : s.1.job.fsm = some v) (hs : s.1.job.Synced) (o : OpStep) :
    Left o.op s.2 v (s.op o) :=
  SoloState.op_of_wp (op_left (s := ({ s.1 with chan := o.chan }, s.2)) o.op s.1.job.ident hf (hs.of_fsm hf))

/-- **The status never drifts from the machine**: after every operation of every run they agree, and the machine is where
a chain of declared transitions from its state at entry leads, or, after `run_once`, in Failed or in a status the store
reported. -/
theorem status_follows_fsm (x : Ctx) (hx : x.job.Initial) (ops : List OpStep) :
    Calls.Each SoloState.op (x, []) StatusFollows ops := by
  refine Calls.each_of_inv (I := fun _ s => s.1.job.Synced ∧ ∃ v, s.1.job.fsm = some v) ?_ ?_ ?_ ops
  · exact ⟨Job.synced_of hx.fsm hx.status, _, hx.fsm⟩
  · rintro _ s o ⟨hs, v, hf⟩
    have h := op_follows hf hs o
    obtain ⟨w, hw, -⟩ := h.place
    exact ⟨h.sync, w, hw⟩
  · rintro _ s o ⟨hs, v, hf⟩
    have h := op_follows hf hs o
    obtain ⟨w, hw, hm⟩ := h.place
    exact ⟨h.sync, v, w, hf, hw, hm⟩

/-- A new job scheduled, and processed on a store that refuses every put. -/
theorem status_follows_fsm_refused : Calls.Each SoloState.op (newCtx, []) StatusFollows
    [⟨.scheduled, newCtx.chan, fun _ => {}⟩,
     ⟨.runOnce, { newCtx.chan with queue := [0] }, fun _ => { choice := { fault := .refuses } }⟩] :=
  status_follows_fsm newCtx ⟨rfl, rfl⟩ _

end Pypepper
