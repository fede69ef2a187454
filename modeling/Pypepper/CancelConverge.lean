import Mathlib.Data.List.Induction
import Pypepper.JobRules
import Pypepper.JobSys
/-!
# CancelConverge — a cancel against a worker on a healthy store

A worker processes a scheduled job while another thread cancels it; the store works and nobody else writes.  The row is
written by both, so the cancel's put may be refused because the worker's RUN snapshot came first, or the other way round.

The canceller's progress (`Phase`) is read off the log.  As long as the row fits it (`fit`: the row is Cancelled, or the
canceller's put is still to come and will be applied), the cancel gets into the row by itself.  Only the worker's RUN put
breaks the fit, and the worker's next look at `is_cancelled` restores it: it finds the cancel and saves it, or no cancel
has happened yet.  So the worker ends with a fit (`process_converges`), and once the canceller is done too, the row is
Cancelled (`cancel_converges`).
-/
namespace Pypepper

open Conc (Prog Proto Sem Conf Ev Admits Extends team team_guar team_stable)

/-! ## The canceller's progress -/

/-- Where the canceller is: before its event, after it, with its record built at a version, or past its put. -/
inductive Phase where
  | idle | won | built (version : Int) | done
  deriving DecidableEq

def phaseStep (p : Phase) : JobEv Party → Phase
  | ⟨.canceller, .applyEvent .cancel, .ok (), _, _⟩ => .won
  | ⟨.canceller, .buildRecord, rec, _, _⟩           => .built rec.version
  | ⟨.canceller, .put _, _, _, _⟩                   => .done
  | _                                               => p

def phase (log : List (JobEv Party)) : Phase := log.foldl phaseStep .idle

/-- The workflows started after the cancel. -/
def startsAfterCancel : List (JobEv Party) → List Nat
  | []        => []
  | e :: rest =>
    if e.thread = .canceller ∧ e.act.event e.res = some .cancel then starts rest else startsAfterCancel rest

theorem phase_append (log : List (JobEv Party)) (e : JobEv Party) : phase (log ++ [e]) = phaseStep (phase log) e := by
  simp [phase]

theorem phase_worker (log : List (JobEv Party)) {e : JobEv Party} (h : e.thread = .worker) :
    phase (log ++ [e]) = phase log := by
  obtain ⟨t, a, r, x, y⟩ := e
  subst h
  rw [phase_append]
  rfl

theorem startsAfterCancel_append (e : JobEv Party) : ∀ log : List (JobEv Party),
    startsAfterCancel (log ++ [e]) = if CancelWon log then startsAfterCancel log ++ e.act.start.toList else []
  | [] => by
    have hno : ¬ CancelWon [] := fun ⟨_, h, _⟩ => nomatch h
    rw [if_neg hno]
    simp [startsAfterCancel, starts]
  | x :: log => by
    by_cases hx : x.thread = .canceller ∧ x.act.event x.res = some .cancel
    · have hwon : CancelWon (x :: log) := ⟨x, List.mem_cons_self, hx⟩
      simp only [List.cons_append, startsAfterCancel, if_pos hx, if_pos hwon]
      exact starts_append log e
    · have hiff : CancelWon (x :: log) ↔ CancelWon log := by simp [CancelWon, hx]
      simp only [List.cons_append, startsAfterCancel, if_neg hx, hiff]
      exact startsAfterCancel_append e log

/-! ## The row and the machine -/

def rowCancelled (row : Option JobRecord) : Prop := ∃ d, row = some d ∧ d.status = Status.cancelled.value

/-- The row has the job's version. -/
def synced (row : Option JobRecord) (version : Int) : Prop := ∀ d, row = some d → d.version = version

/-- The canceller's put is still to come, and with the job's version. -/
def Phase.coming (version : Int) : Phase → Prop
  | .idle    => True
  | .won     => True
  | .built v => v = version
  | .done    => False

/-- **The row fits the cancel**: it is Cancelled, or the canceller's put will be applied to it. -/
def fit (row : Option JobRecord) (version : Int) (p : Phase) : Prop :=
  rowCancelled row ∨ (synced row version ∧ p.coming version)

/-- The row is one the worker or the canceller wrote, and Cancelled only for a cancelled job. -/
def rowOk (x : Ctx) : Prop :=
  ∀ d, x.row = some d → d.status = Status.scheduled.value ∨ d.status = Status.inProgress.value ∨
    (d.status = Status.cancelled.value ∧ x.job.fsm = some .cancelled)

/-- A phase past the event means a cancelled job. -/
def phaseOk (s : Ctx × List (JobEv Party)) : Prop := phase s.2 ≠ .idle → s.1.job.fsm = some .cancelled

/-! ## The protocol -/

structure CancelStep (before : List (JobEv Party)) (e : JobEv Party) : Prop where
  frame   : Ctx.Frame e.pre e.post
  start   : e.act.start = none
  event   : ∀ ev, e.act.event e.res = some ev → ev = .cancel
  fsm     : e.post.job.fsm = e.pre.job.fsm ∨
    (e.pre.job.fsm = some .scheduled ∨ e.pre.job.fsm = some .inProgress) ∧ e.post.job.fsm = some .cancelled
  row     : e.post.row = e.pre.row ∨ rowCancelled e.post.row ∧ e.post.job.fsm = some .cancelled
  version : e.post.job.version = e.pre.job.version ∨ rowCancelled e.pre.row
  fits    : rowOk e.pre → fit e.pre.row e.pre.job.version (phase before) →
    fit e.post.row e.post.job.version (phase (before ++ [e]))
  known   : phaseOk (e.pre, before) → phaseOk (e.post, before ++ [e])

structure WorkStep (e : JobEv Party) : Prop where
  frame     : Ctx.Frame e.pre e.post
  cancelled : e.pre.job.fsm = some .cancelled → e.post.job.fsm = some .cancelled
  row       : rowCancelled e.pre.row → rowCancelled e.post.row

def ConvergeMove (before : List (JobEv Party)) (e : JobEv Party) : Prop :=
  match e.thread with
  | .canceller => CancelStep before e
  | .worker    => WorkStep e

abbrev convergeProto (i : Party) : Proto Act Act.Res (Ctx × List (JobEv Party)) :=
  team (jobSem faultFree) (fun _ _ => True) ConvergeMove i

theorem rowCancelled_exec (c : Choice) {a : Act} {x : Ctx} (hf : ∀ ws, a ≠ .fromRecord ws) (h : rowCancelled x.row) :
    rowCancelled (Ctx.exec c a x).2.row := by
  obtain ⟨d, hd, hs⟩ := h
  obtain ⟨d', hd', hle⟩ := Ctx.exec_row_up c a x hf hd
  refine ⟨d', hd', ?_⟩
  rw [hs] at hle
  exact hle.of_terminal (by decide)

theorem canceller_stable {P : Ctx × List (JobEv Party) → Prop}
    (h : ∀ s e s', e.thread = .worker → Extends s e s' → WorkStep e → P s → P s') :
    (convergeProto .canceller).Stable P :=
  team_stable fun s e s' he hx _ hg hP => by
    cases ht : e.thread with
    | canceller => exact absurd ht he
    | worker => unfold ConvergeMove at hg; rw [ht] at hg; exact h s e s' ht hx hg hP

theorem worker_stable {P : Ctx × List (JobEv Party) → Prop}
    (h : ∀ s e s', Extends s e s' → CancelStep s.2 e → P s → P s') : (convergeProto .worker).Stable P :=
  team_stable fun s e s' he hx _ hg hP => by
    cases ht : e.thread with
    | worker => exact absurd ht he
    | canceller => unfold ConvergeMove at hg; rw [ht] at hg; exact h s e s' hx hg hP

/-! ## The canceller -/

/-- The canceller's actions that only look, the building of its record included. -/
theorem cancelStep_passive {a : Act} {s s' : Ctx × List (JobEv Party)} {r : a.Res}
    (hst : (convergeProto .canceller).step a s r s') (ha : a.passive = true) (hr : a.isRefresh = false)
    (hphase : phase s'.2 = phase s.2 ∨ s.1.job.fsm = some .cancelled ∧ phase s'.2 = .built s.1.job.version) :
    (convergeProto .canceller).guar s s' ∧ Ctx.Same s.1 s'.1 := by
  obtain ⟨c, -, -, -, hx⟩ := jobSem_step hst.1
  have hsame : Ctx.Same s.1 s'.1 := by rw [hx]; exact Ctx.exec_passive c s.1 ha
  have hver : s'.1.job.version = s.1.job.version := by
    rw [hx]
    exact Ctx.exec_version c a s.1 (by rintro u rfl; cases hr) (by rintro ws rfl; cases ha)
  have hlog : s'.2 = s.2 ++ [⟨.canceller, a, r, s.1, s'.1⟩] := hst.2.1
  rw [hlog] at hphase
  refine ⟨team_guar hst ⟨hsame.frame, ?_, ?_, .inl hsame.fsm, .inl hsame.row, .inl hver, fun _ hf => ?_, fun hok hne => ?_⟩,
    hsame⟩
  · cases a <;> first | rfl | cases ha
  · intro ev he
    cases a <;> first | cases he | cases ha
  · show fit s'.1.row s'.1.job.version _
    rw [hsame.row, hver]
    rcases hphase with hp | ⟨-, hp⟩ <;> rw [hp]
    · exact hf
    · exact hf.imp_right fun h => ⟨h.1, rfl⟩
  · show s'.1.job.fsm = _
    rw [hsame.fsm]
    rcases hphase with hp | ⟨hc, -⟩
    · exact hok (fun h => hne (hp.trans h))
    · exact hc

theorem canceller_phase_stable (p : Phase) : (convergeProto .canceller).Stable (fun s => phase s.2 = p) :=
  canceller_stable fun s e s' he hx _ h => by rw [hx.log, phase_worker s.2 he]; exact h

theorem canceller_fsm_stable : (convergeProto .canceller).Stable (fun s => s.1.job.fsm = some .cancelled) :=
  canceller_stable fun s e s' _ hx hw h => by rw [← hx.post]; exact hw.cancelled (by rw [hx.pre]; exact h)

theorem canceller_row_stable : (convergeProto .canceller).Stable (fun s => rowCancelled s.1.row) :=
  canceller_stable fun s e s' _ hx hw h => by rw [← hx.post]; exact hw.row (by rw [hx.pre]; exact h)

theorem canceller_id_stable (id : String) : (convergeProto .canceller).Stable (fun s => id = s.1.job.id) :=
  canceller_stable fun s e s' _ hx hw h => by rw [← hx.post, hw.frame.id, hx.pre]; exact h

/-- The row a put of the canceller leaves, when it is applied. -/
theorem rowCancelled_of_put {c : Choice} {rec : JobRecord} {x : Ctx} (hc : c.fault = .none) (hid : rec.id = x.job.id)
    (hs : rec.status = Status.cancelled.value) :
    (∃ st, Ctx.exec c (.put rec) x = (.ok true, { x with store := st }) ∧ rowCancelled (st.get x.job.id)) ∨
    (∃ d, x.row = some d ∧ ¬ InMemoryJobStore.MayWrite d rec ∧ Ctx.exec c (.put rec) x = (.ok false, x)) := by
  obtain ⟨st, d, hex, hd, hst, -⟩ | h := Ctx.exec_put_own c hc hid
  · exact .inl ⟨st, hex, d, hd, hst.trans hs⟩
  · exact .inr h

/-- A Cancelled record of the row's version is applied over a row of the worker. -/
theorem mayWrite_cancelled {x : Ctx} {rec d : JobRecord} (hok : rowOk x) (hd : x.row = some d)
    (hs : rec.status = Status.cancelled.value) (hv : d.version = rec.version) : InMemoryJobStore.MayWrite d rec := by
  refine ⟨?_, hv⟩
  rw [hs]
  obtain h | h | ⟨h, -⟩ := hok d hd <;> rw [h, statusLe_value]
  · exact .inr (by decide)
  · exact .inr (by decide)
  · exact .inl rfl

theorem cancelStep_put {rec : JobRecord} {s s' : Ctx × List (JobEv Party)} {r : (Act.put rec).Res}
    (hst : (convergeProto .canceller).step (.put rec) s r s') (hid : rec.id = s.1.job.id)
    (hs : rec.status = Status.cancelled.value) (hfsm : s.1.job.fsm = some .cancelled)
    (hphase : phase s.2 = .built rec.version) :
    (convergeProto .canceller).guar s s' ∧ s'.1.job = s.1.job ∧ phase s'.2 = .done ∧
      (r = .ok true ∧ rowCancelled s'.1.row ∨ r = .ok false) := by
  obtain ⟨c, hc, -, hr, hx⟩ := jobSem_step hst.1
  have hlog : s'.2 = s.2 ++ [⟨.canceller, .put rec, r, s.1, s'.1⟩] := hst.2.1
  have hdone : phase s'.2 = .done := by rw [hlog, phase_append]; rfl
  have hjob : s'.1.job = s.1.job := by rw [hx]; exact Ctx.put_job s.1 rec c.fault
  have hframe : Ctx.Frame s.1 s'.1 := by rw [hx]; exact Ctx.exec_frame c _ s.1 (by simp)
  -- the put is applied, or the row it was refused over is already Cancelled, or its version has moved
  have hout : (r = .ok true ∧ rowCancelled s'.1.row) ∨ (r = .ok false ∧ s'.1 = s.1 ∧
      ∃ d, s.1.row = some d ∧ ¬ InMemoryJobStore.MayWrite d rec) := by
    obtain ⟨st, hex, hrow⟩ | ⟨d, hd, hw, hex⟩ := rowCancelled_of_put hc hid hs
    · rw [hex] at hr hx
      exact .inl ⟨hr, by rw [hx]; exact hrow⟩
    · rw [hex] at hr hx
      exact .inr ⟨hr, hx, d, hd, hw⟩
  refine ⟨team_guar hst ⟨hframe, rfl, (fun ev he => nomatch he), .inl (by rw [hjob]), ?_, .inl (by rw [hjob]), fun hok hf => ?_,
    fun _ _ => ?_⟩, hjob, hdone, ?_⟩
  · obtain ⟨-, hrow⟩ | ⟨-, hx, -⟩ := hout
    · exact .inr ⟨hrow, by rw [hjob]; exact hfsm⟩
    · exact .inl (by rw [hx])
  · obtain ⟨-, hrow⟩ | ⟨-, hx, d, hd, hw⟩ := hout
    · exact .inl hrow
    · rcases hf with hrow | ⟨hsync, hcome⟩
      · exact .inl (by rw [hx]; exact hrow)
      · rw [hphase] at hcome
        exact absurd (mayWrite_cancelled hok hd hs ((hsync d hd).trans hcome.symm)) hw
  · show s'.1.job.fsm = _
    rw [hjob]
    exact hfsm
  · exact hout.imp_right And.left

/-- **The canceller's event** is its win, or it raises and nothing has moved. -/
theorem cancelEvent_keeps_side {s : Ctx × List (JobEv Party)} (h : phase s.2 = .idle) :
    (convergeProto .canceller).wp (Job.applyEventP .cancel) (fun r s =>
      (r = .ok () ∧ phase s.2 = .won ∧ s.1.job.fsm = some .cancelled) ∨ ((∃ e, r = .error e) ∧ phase s.2 = .idle)) s := by
  refine Proto.wp_act (canceller_phase_stable .idle) h (fun s₁ r s₂ h₁ hst => ?_)
  obtain ⟨c, -, -, hr, hx⟩ := jobSem_step hst.1
  have hlog : s₂.2 = s₁.2 ++ [⟨.canceller, .applyEvent .cancel, r, s₁.1, s₂.1⟩] := hst.2.1
  have hframe : Ctx.Frame s₁.1 s₂.1 := by rw [hx]; exact Ctx.exec_frame c _ s₁.1 (by simp)
  obtain ⟨v, t, hv, ht, hex⟩ | ⟨-, hex⟩ := Ctx.exec_applyEvent c .cancel s₁.1
  · obtain ⟨rfl, hv'⟩ := Fsm.target_cancel ht
    rw [hex] at hr hx
    subst hr
    have hfsm : s₂.1.job.fsm = some .cancelled := by rw [hx]
    have hwon : phase s₂.2 = .won := by rw [hlog, phase_append]; rfl
    refine ⟨team_guar hst ⟨hframe, rfl, fun ev he => (Option.some.inj he).symm, .inr ⟨?_, hfsm⟩, .inl (by rw [hx]; rfl),
      .inl (by rw [hx]), fun _ hf => ?_, fun _ _ => hfsm⟩, .inl ⟨rfl, hwon, hfsm⟩⟩
    · exact hv'.imp (fun h => hv.trans (congrArg some h)) (fun h => hv.trans (congrArg some h))
    · rw [← hlog, hwon]
      show fit s₂.1.row s₂.1.job.version _
      rw [hx]
      exact hf.imp_right fun h => ⟨h.1, trivial⟩
  · rw [hex] at hr hx
    subst hr
    have hidle : phase s₂.2 = phase s₁.2 := by rw [hlog, phase_append]; rfl
    refine ⟨team_guar hst ⟨hframe, rfl, (fun ev he => nomatch he), .inl (by rw [hx]), .inl (by rw [hx]), .inl (by rw [hx]),
      fun _ hf => ?_, fun hok hne => ?_⟩, .inr ⟨⟨_, rfl⟩, hidle.trans h₁⟩⟩
    · rw [← hlog, hidle]
      show fit s₂.1.row s₂.1.job.version _
      rw [hx]
      exact hf
    · rw [← hlog, hidle, h₁] at hne
      exact absurd rfl hne

/-- **The canceller's save**, which its event has won, ends past its put. -/
theorem cancelSave_keeps_side {s : Ctx × List (JobEv Party)} (hwon : phase s.2 = .won)
    (hfsm : s.1.job.fsm = some .cancelled) :
    (convergeProto .canceller).wp Job.save (fun _ s => phase s.2 = .done) s := by
  refine wp_save (P := fun s => phase s.2 = .won ∧ s.1.job.fsm = some .cancelled)
    (B := fun rec s => (phase s.2 = .built rec.version ∧ s.1.job.fsm = some .cancelled) ∧ rec.id = s.1.job.id ∧
      rec.status = Status.cancelled.value)
    (W := fun _ s => phase s.2 = .done ∧ rowCancelled s.1.row) ?_ (fun rec => ?_) ?_ ?_ ?_ ?_ ⟨hwon, hfsm⟩
  · exact (canceller_phase_stable .won).and canceller_fsm_stable
  · exact ((canceller_phase_stable _).and canceller_fsm_stable).and
      ((canceller_id_stable rec.id).and (fun _ _ _ h => h))
  · exact fun _ => (canceller_phase_stable .done).and canceller_row_stable
  · rintro s rec s' ⟨hwon, hfsm⟩ hst
    obtain ⟨c, -, -, hr, hx⟩ := jobSem_step hst.1
    have hver : rec.version = s.1.job.version := by rw [hr]; rfl
    have hp : phase s'.2 = .built rec.version := by rw [hst.2.1, phase_append]; rfl
    obtain ⟨hg, hsame⟩ := cancelStep_passive hst rfl rfl (.inr ⟨hfsm, by rw [hp, hver]⟩)
    refine ⟨hg, ⟨hp, hsame.fsm.trans hfsm⟩, ?_, ?_⟩
    · rw [hsame.frame.id, hr]; rfl
    · rw [hr]; exact Job.currentStatus_of_fsm hfsm
  · rintro rec s r s' ⟨⟨hp, hfsm⟩, hid, hs⟩ hst
    obtain ⟨hg, -, hdone, ⟨rfl, hrow⟩ | rfl⟩ := cancelStep_put hst hid hs hfsm hp
    · exact ⟨hg, hdone, hrow⟩
    · exact ⟨hg, hdone⟩
  · rintro rec s r s' ⟨hdone, hrow⟩ hst
    obtain ⟨c, -, -, -, hx⟩ := jobSem_step hst.1
    have hsame : Ctx.Same s.1 s'.1 := by rw [hx]; exact Ctx.exec_passive c s.1 rfl
    have hp : phase s'.2 = .done := by rw [hst.2.1, phase_append]; exact hdone
    refine ⟨team_guar hst ⟨hsame.frame, rfl, (fun ev he => nomatch he), .inl hsame.fsm, .inl hsame.row, .inr hrow,
      fun _ _ => .inl (by rw [hsame.row]; exact hrow), fun hok _ => ?_⟩, ?_⟩
    · show s'.1.job.fsm = _
      rw [hsame.fsm]
      exact hok (by rw [hdone]; simp)
    · cases r with
      | ok u => exact hp
      | error e => exact hp

/-- **The canceller keeps its side** and ends before its event or past its put. -/
theorem cancel_keeps_side {s : Ctx × List (JobEv Party)} (h : phase s.2 = .idle) :
    (convergeProto .canceller).wp Job.cancel (fun _ s => phase s.2 = .idle ∨ phase s.2 = .done) s := by
  refine Proto.wp_call (canceller_phase_stable .idle) h (fun s₁ r s₂ h₁ hst => ?_)
  have hp : phase s₂.2 = phase s₁.2 := by rw [hst.2.1, phase_append]; rfl
  refine ⟨(cancelStep_passive hst rfl rfl (.inl hp)).1, ?_⟩
  refine Proto.wp_call (canceller_phase_stable .idle) (hp.trans h₁) (fun s₁ r s₂ h₁ hst => ?_)
  have hp : phase s₂.2 = phase s₁.2 := by rw [hst.2.1, phase_append]; rfl
  refine ⟨(cancelStep_passive hst rfl rfl (.inl hp)).1, ?_⟩
  refine Proto.wp_seq (cancelEvent_keeps_side (hp.trans h₁)) (fun _ s hM => ?_) (fun e s hM => ?_)
  · obtain ⟨-, hwon, hfsm⟩ | ⟨⟨e, he⟩, -⟩ := hM
    · exact Proto.wp_seq (cancelSave_keeps_side hwon hfsm) (fun _ _ h => .inr h) (fun _ _ h => .inr h)
    · cases he
  · obtain ⟨h, -⟩ | ⟨-, h⟩ := hM
    · cases h
    · exact .inl h

/-! ## The worker's assertions -/

/-- The worker's hold on a job in `v`, or cancelled meanwhile, of whose `n` workflows it has started `k`. -/
structure Work (v : Status) (n k : Nat) (s : Ctx × List (JobEv Party)) : Prop where
  fsm    : s.1.job.fsm = some v ∨ s.1.job.fsm = some .cancelled
  row    : rowOk s.1
  starts : starts s.2 = List.range k
  late   : (startsAfterCancel s.2).length ≤ 1
  events : ∀ e ∈ s.2, e.act.event e.res ≠ some .complete ∧ e.act.event e.res ≠ some .fail
  count  : s.1.job.workflows.length = n
  known  : phaseOk s

def Fits (s : Ctx × List (JobEv Party)) : Prop := fit s.1.row s.1.job.version (phase s.2)

/-- The row is Cancelled, or the worker could save over it. -/
def Semi (s : Ctx × List (JobEv Party)) : Prop := rowCancelled s.1.row ∨ synced s.1.row s.1.job.version

theorem Fits.semi {s : Ctx × List (JobEv Party)} (h : Fits s) : Semi s := h.imp_right And.left

theorem startsAfterCancel_of_start {log : List (JobEv Party)} {e : JobEv Party} (h : e.act.start = none) :
    startsAfterCancel (log ++ [e]) = if CancelWon log then startsAfterCancel log else [] := by
  rw [startsAfterCancel_append, h]
  simp

theorem Work.stable (v : Status) (n k : Nat) : (convergeProto .worker).Stable (Work v n k) :=
  worker_stable fun s e s' hx hg h => by
    have hfsm : s.1.job.fsm = some .cancelled → s'.1.job.fsm = some .cancelled := fun hc => by
      rw [← hx.post]
      rcases hg.fsm with hf | ⟨-, hf⟩
      · rw [hf, hx.pre]; exact hc
      · exact hf
    refine ⟨?_, fun d hd => ?_, ?_, ?_, fun x hxm => ?_, ?_, ?_⟩
    · rw [← hx.post]
      rcases hg.fsm with hf | ⟨-, hf⟩
      · rw [hf, hx.pre]; exact h.fsm
      · exact .inr hf
    · rw [← hx.post] at hd
      rcases hg.row with hr | ⟨⟨d', hd', hs⟩, hc⟩
      · rw [hr, hx.pre] at hd
        exact (h.row d hd).imp_right (Or.imp_right fun hc => ⟨hc.1, hfsm hc.2⟩)
      · obtain rfl := Option.some.inj (hd'.symm.trans hd)
        exact .inr (.inr ⟨hs, by rw [← hx.post]; exact hc⟩)
    · rw [hx.log, starts_append, hg.start, h.starts]; simp
    · rw [hx.log, startsAfterCancel_of_start hg.start]
      split
      · exact h.late
      · exact Nat.zero_le 1
    · rw [hx.log] at hxm
      rcases List.mem_append.1 hxm with hxm | hxm
      · exact h.events x hxm
      · rw [List.mem_singleton.1 hxm]
        exact ⟨(fun he => nomatch hg.event _ he), (fun he => nomatch hg.event _ he)⟩
    · rw [← hx.post, hg.frame.workflows, hx.pre]; exact h.count
    · have hp := hg.known (by rw [hx.pre]; exact h.known)
      rwa [hx.post, ← hx.log] at hp

/-- What the canceller keeps of a job the worker holds. -/
theorem work_stable {v : Status} {n k : Nat} {A : Ctx × List (JobEv Party) → Prop}
    (h : ∀ s e s', Extends s e s' → CancelStep s.2 e → Work v n k s → A s → A s') :
    (convergeProto .worker).Stable (fun s => Work v n k s ∧ A s) := by
  rintro s s' ⟨e, he, hx, hk, hg⟩ ⟨hw, hA⟩
  refine ⟨Work.stable v n k s s' ⟨e, he, hx, hk, hg⟩ hw, ?_⟩
  cases ht : e.thread with
  | worker => exact absurd ht he
  | canceller => unfold ConvergeMove at hg; rw [ht] at hg; exact h s e s' hx hg hw hA

section
variable {s s' : Ctx × List (JobEv Party)} {e : JobEv Party} (hx : Extends s e s') (hg : CancelStep s.2 e)
include hx hg

theorem CancelStep.rowCancelled (h : rowCancelled s.1.row) : rowCancelled s'.1.row := by
  rw [← hx.post]
  rcases hg.row with hr | ⟨hr, -⟩
  · rw [hr, hx.pre]; exact h
  · exact hr

theorem CancelStep.fitsNext {v : Status} {n k : Nat} (hw : Work v n k s) (h : Fits s) : Fits s' := by
  have hf := hg.fits (by rw [hx.pre]; exact hw.row) (by rw [hx.pre]; exact h)
  rwa [hx.post, ← hx.log] at hf

/-- The row is as it was, with the version, or it is Cancelled. -/
theorem CancelStep.same : (s'.1.row = s.1.row ∧ s'.1.job.version = s.1.job.version) ∨ Pypepper.rowCancelled s'.1.row := by
  rcases hg.version with hv | hc
  · rcases hg.row with hr | ⟨hr, -⟩
    · exact .inl ⟨by rw [← hx.post, hr, hx.pre], by rw [← hx.post, hv, hx.pre]⟩
    · exact .inr (by rw [← hx.post]; exact hr)
  · exact .inr (hg.rowCancelled hx (by rw [hx.pre] at hc; exact hc))

theorem CancelStep.semi (h : Semi s) : Semi s' := by
  rcases hg.same hx with ⟨hr, hv⟩ | hc
  · unfold Semi
    rw [hr, hv]
    exact h
  · exact .inl hc

theorem CancelStep.isSome (h : s.1.row.isSome) : s'.1.row.isSome := by
  rcases hg.same hx with ⟨hr, -⟩ | ⟨d, hd, -⟩
  · rw [hr]; exact h
  · rw [hd]; rfl

theorem CancelStep.cancelledNext (h : s.1.job.fsm = some .cancelled) : s'.1.job.fsm = some .cancelled := by
  rw [← hx.post]
  rcases hg.fsm with hf | ⟨-, hf⟩
  · rw [hf, hx.pre]; exact h
  · exact hf

end

/-- One worker's action on the job it holds. -/
theorem Work.next {v w : Status} {n k k' : Nat} {a : Act} {s s' : Ctx × List (JobEv Party)} {r : a.Res}
    (h : Work v n k s) (hst : (convergeProto .worker).step a s r s') (hb : ∀ ws, a ≠ .fromRecord ws)
    (hk : List.range k ++ a.start.toList = List.range k') (hlate : a.start = none ∨ startsAfterCancel s.2 = [])
    (hfsm : s'.1.job.fsm = some w ∨ s'.1.job.fsm = some .cancelled)
    (hc : s.1.job.fsm = some .cancelled → s'.1.job.fsm = some .cancelled)
    (hev : ∀ ev, a.event r = some ev → ev ≠ .complete ∧ ev ≠ .fail) (hrow : rowOk s'.1) :
    (convergeProto .worker).guar s s' ∧ Work w n k' s' := by
  obtain ⟨c, -, -, -, hx⟩ := jobSem_step hst.1
  have hframe : Ctx.Frame s.1 s'.1 := by rw [hx]; exact Ctx.exec_frame c a s.1 hb
  have hlog : s'.2 = s.2 ++ [⟨.worker, a, r, s.1, s'.1⟩] := hst.2.1
  refine ⟨team_guar hst ⟨hframe, hc, fun h => ?_⟩, hfsm, hrow, ?_, ?_, fun x hm => ?_, hframe.workflows.trans h.count,
    fun hne => hc (h.known ?_)⟩
  · show rowCancelled s'.1.row
    rw [hx]
    exact rowCancelled_exec c hb h
  · rw [hlog, starts_append, h.starts, hk]
  · rw [hlog, startsAfterCancel_append]
    split
    · rcases hlate with hn | hn
      · simpa [hn] using h.late
      · rw [hn]
        cases a.start <;> simp
    · exact Nat.zero_le 1
  · rw [hlog] at hm
    rcases List.mem_append.1 hm with hm | hm
    · exact h.events x hm
    · rw [List.mem_singleton.1 hm]
      exact ⟨fun he => (hev _ he).1 rfl, fun he => (hev _ he).2 rfl⟩
  · rwa [hlog, phase_worker _ rfl] at hne

theorem rowOk_same {x x' : Ctx} (h : Ctx.Same x x') (hx : rowOk x) : rowOk x' := by
  unfold rowOk
  rw [h.row, h.fsm]
  exact hx

theorem Work.passive {v : Status} {n k : Nat} {a : Act} {s s' : Ctx × List (JobEv Party)} {r : a.Res}
    (h : Work v n k s) (hst : (convergeProto .worker).step a s r s') (ha : a.passive = true) :
    (convergeProto .worker).guar s s' ∧ Work v n k s' ∧ Ctx.Same s.1 s'.1 ∧ phase s'.2 = phase s.2 := by
  obtain ⟨c, -, -, -, hx⟩ := jobSem_step hst.1
  have hsame : Ctx.Same s.1 s'.1 := by rw [hx]; exact Ctx.exec_passive c s.1 ha
  have hstart : a.start = none := by cases a <;> first | rfl | cases ha
  obtain ⟨hg, hw⟩ := h.next hst (by rintro ws rfl; cases ha) (by rw [hstart]; exact List.append_nil _) (.inl hstart)
    (by rw [hsame.fsm]; exact h.fsm) (fun hc => hsame.fsm.trans hc)
    (fun ev he => by cases a <;> first | cases he | cases ha) (rowOk_same hsame h.row)
  exact ⟨hg, hw, hsame, by rw [hst.2.1, phase_worker _ rfl]⟩

/-- A refresh over a row takes its version. -/
theorem Work.refresh {v : Status} {n k : Nat} {u : String} {s s' : Ctx × List (JobEv Party)} {r : Except Exn Unit}
    (h : Work v n k s) (hst : (convergeProto .worker).step (.refresh u) s r s') {d : JobRecord} (hd : s.1.row = some d) :
    ((convergeProto .worker).guar s s' ∧ Work v n k s' ∧ Ctx.Same s.1 s'.1 ∧ phase s'.2 = phase s.2) ∧
      r = .ok () ∧ s'.1.job.version = d.version := by
  refine ⟨h.passive hst rfl, ?_⟩
  obtain ⟨c, hc, -, hr, hx⟩ := jobSem_step hst.1
  rw [Ctx.exec_refresh_some c _ s.1 hc.ne_raises hd] at hr hx
  exact ⟨hr, by rw [hx]⟩

/-- An event that is refused changes nothing. -/
theorem Work.refused {v : Status} {n k : Nat} {e : Event} {s s' : Ctx × List (JobEv Party)} {x : Exn} (h : Work v n k s)
    (hst : (convergeProto .worker).step (.applyEvent e) s (.error x) s') (hx : s'.1 = s.1) :
    (convergeProto .worker).guar s s' ∧ Work v n k s' :=
  h.next hst (by simp) (List.append_nil _) (.inl rfl) (by rw [hx]; exact h.fsm) (fun hf => by rw [hx]; exact hf)
    (fun ev he => by cases he) (by rw [hx]; exact h.row)

/-- The assertion is about the row, the version and the canceller's progress. -/
def AboutRow (A : Ctx × List (JobEv Party) → Prop) : Prop :=
  ∀ s s', s'.1.row = s.1.row → s'.1.job.version = s.1.job.version → s'.1.job.fsm = s.1.job.fsm →
    phase s'.2 = phase s.2 → A s → A s'

theorem work_call {v : Status} {n k : Nat} {A : Ctx × List (JobEv Party) → Prop} {α : Type} {a : Act}
    (ha : a.passive = true) (hr : a.isRefresh = false) (hA : AboutRow A)
    (hstab : (convergeProto .worker).Stable (fun s => Work v n k s ∧ A s)) {f : a.Res → JobProg α}
    {Q : Except Exn α → _ → Prop} {s : Ctx × List (JobEv Party)} (h : Work v n k s ∧ A s)
    (hk : ∀ c s₁ s₂, faultFree c → Work v n k s₁ → Work v n k s₂ → A s₂ → s₂.1 = (Ctx.exec c a s₁.1).2 →
      Ctx.Same s₁.1 s₂.1 → (convergeProto .worker).wp (f (Ctx.exec c a s₁.1).1) Q s₂) :
    (convergeProto .worker).wp (Prog.call a >>= f) Q s :=
  Proto.wp_call hstab h fun s₁ r s₂ h₁ hst => by
    obtain ⟨c, hc, -, rfl, hx⟩ := jobSem_step hst.1
    obtain ⟨hg, hw, hsame, hp⟩ := h₁.1.passive hst ha
    have hver : s₂.1.job.version = s₁.1.job.version := by
      rw [hx]
      exact Ctx.exec_version c a s₁.1 (by rintro u rfl; cases hr) (by rintro ws rfl; cases ha)
    exact ⟨hg, hk c s₁ s₂ hc h₁.1 hw (hA s₁ s₂ hsame.row hver hsame.fsm hp h₁.2) hx hsame⟩

theorem fits_aboutRow : AboutRow Fits := fun s s' hr hv _ hp h => by
  unfold Fits
  rw [hr, hv, hp]
  exact h

theorem fits_stable (v : Status) (n k : Nat) : (convergeProto .worker).Stable (fun s => Work v n k s ∧ Fits s) :=
  work_stable fun _ _ _ hx hg hw h => hg.fitsNext hx hw h

theorem semi_aboutRow : AboutRow Semi := fun s s' hr hv _ _ h => by
  unfold Semi
  rw [hr, hv]
  exact h

theorem semi_stable (v : Status) (n k : Nat) : (convergeProto .worker).Stable (fun s => Work v n k s ∧ Semi s) :=
  work_stable fun _ _ _ hx hg _ h => hg.semi hx h

theorem phase_of_cancelWon {log : List (JobEv Party)} (h : CancelWon log) : phase log ≠ .idle := by
  induction log using List.reverseRecOn with
  | nil => obtain ⟨_, h, -⟩ := h; cases h
  | append_singleton log e ih =>
    rw [phase_append]
    rcases cancelWon_append.1 h with h | ⟨ht, he⟩
    · have hp := ih h
      unfold phaseStep
      split
      · simp
      · simp
      · simp
      · exact hp
    · obtain ⟨t, a, r, x, y⟩ := e
      subst ht
      cases a with
      | applyEvent ev =>
        match r, he with
        | .ok (), he => obtain rfl := Option.some.inj he; simp [phaseStep]
        | .error _, he => cases he
      | _ => cases he

theorem startsAfterCancel_of_not_won {log : List (JobEv Party)} (h : ¬ CancelWon log) : startsAfterCancel log = [] := by
  rcases List.eq_nil_or_concat log with rfl | ⟨log, e, rfl⟩
  · rfl
  · rw [List.concat_eq_append] at h ⊢
    rw [startsAfterCancel_append, if_neg (fun hw => h (cancelWon_append.2 (.inl hw)))]

/-- **The worker's look at `is_cancelled`**: it finds the cancel, or there has been none yet and the row fits. -/
theorem work_check {v : Status} {n k : Nat} {α : Type} {f : Bool → JobProg α}
    {Q : Except Exn α → _ → Prop} {s : Ctx × List (JobEv Party)} (h : Work v n k s) (hs : Semi s)
    (hyes : ∀ s, Work v n k s → Semi s → s.1.job.fsm = some .cancelled → (convergeProto .worker).wp (f true) Q s)
    (hno : ∀ s, Work v n k s → Fits s → startsAfterCancel s.2 = [] → (convergeProto .worker).wp (f false) Q s) :
    (convergeProto .worker).wp (Prog.call .isCancelled >>= f) Q s := by
  refine work_call rfl rfl semi_aboutRow (semi_stable v n k) ⟨h, hs⟩ (fun c s₁ s₂ _ _ h₂ hs hx _ => ?_)
  have hx : s₂.1 = s₁.1 := hx
  have hiff := Job.isCancelled_iff s₁.1.job
  rw [← hx] at hiff
  cases hc : s₁.1.job.isCancelled with
  | true =>
    rw [show (Ctx.exec c .isCancelled s₁.1).1 = true from hc]
    exact hyes s₂ h₂ hs (hiff.1 (by rw [hx]; exact hc))
  | false =>
    rw [show (Ctx.exec c .isCancelled s₁.1).1 = false from hc]
    have hfsm : s₂.1.job.fsm ≠ some .cancelled := fun hf => by
      have ht := hiff.2 hf
      rw [hx, hc] at ht
      cases ht
    have hidle : phase s₂.2 = .idle := Classical.byContradiction fun hne => hfsm (h₂.known hne)
    refine hno s₂ h₂ (.inr ⟨?_, ?_⟩) (startsAfterCancel_of_not_won fun hw => phase_of_cancelWon hw hidle)
    · rcases hs with ⟨d, hd, hds⟩ | hsync
      · obtain h | h | ⟨-, h⟩ := h₂.row d hd
        · rw [hds, Status.value_inj] at h; cases h
        · rw [hds, Status.value_inj] at h; cases h
        · exact absurd h hfsm
      · exact hsync
    · rw [hidle]; trivial

/-! ## The worker's saves -/

/-- The worker has built a record: of the job's version unless the row is Cancelled, at the job's status. -/
structure Built (v : Status) (rec : JobRecord) (s : Ctx × List (JobEv Party)) : Prop where
  id      : rec.id = s.1.job.id
  version : rowCancelled s.1.row ∨ rec.version = s.1.job.version
  status  : rec.status = v.value ∨ (rec.status = Status.cancelled.value ∧ s.1.job.fsm = some .cancelled)

theorem CancelStep.built {v : Status} {rec : JobRecord} {s s' : Ctx × List (JobEv Party)} {e : JobEv Party}
    (hx : Extends s e s') (hg : CancelStep s.2 e) (h : Built v rec s) : Built v rec s' := by
  refine ⟨by rw [← hx.post, hg.frame.id, hx.pre]; exact h.id, ?_,
    h.status.imp_right fun hc => ⟨hc.1, hg.cancelledNext hx hc.2⟩⟩
  rcases hg.same hx with ⟨hr, hv⟩ | hc
  · rw [hr, hv]; exact h.version
  · exact .inl hc

theorem Work.build {v : Status} {n k : Nat} {rec : JobRecord} {s s' : Ctx × List (JobEv Party)} (h : Work v n k s)
    (hst : (convergeProto .worker).step .buildRecord s rec s') : Built v rec s' := by
  obtain ⟨c, -, -, hr, hx⟩ := jobSem_step hst.1
  have hx : s'.1 = s.1 := hx
  refine ⟨by rw [hr, hx]; rfl, .inr (by rw [hr, hx]; rfl), ?_⟩
  have hstatus : rec.status = s.1.job.currentStatus := by rw [hr]; rfl
  rw [hstatus, hx]
  unfold Job.currentStatus
  rcases h.fsm with hf | hf <;> rw [hf]
  · exact .inl rfl
  · exact .inr ⟨rfl, rfl⟩

/-- A put of a built record keeps the worker's hold. -/
theorem Work.put {v : Status} {n k : Nat} (hv : v = .scheduled ∨ v = .inProgress) {rec : JobRecord}
    {s s' : Ctx × List (JobEv Party)} {r : (Act.put rec).Res} (h : Work v n k s) (hb : Built v rec s)
    (hst : (convergeProto .worker).step (.put rec) s r s') :
    (convergeProto .worker).guar s s' ∧ Work v n k s' ∧ s'.1.job = s.1.job ∧ phase s'.2 = phase s.2 ∧
      ((∃ d, r = .ok true ∧ s'.1.row = some d ∧ d.status = rec.status ∧ ((s.1.row = none ∧ d = rec) ∨
          ∃ d₀, s.1.row = some d₀ ∧ InMemoryJobStore.MayWrite d₀ rec)) ∨
        (∃ d₀, r = .ok false ∧ s.1.row = some d₀ ∧ ¬ InMemoryJobStore.MayWrite d₀ rec ∧ s'.1 = s.1)) := by
  obtain ⟨c, hc, -, hr, hx⟩ := jobSem_step hst.1
  have hjob : s'.1.job = s.1.job := by rw [hx]; exact Ctx.put_job s.1 rec c.fault
  have hphase : phase s'.2 = phase s.2 := by rw [hst.2.1, phase_worker _ rfl]
  have hnext : rowOk s'.1 → (convergeProto .worker).guar s s' ∧ Work v n k s' := fun hrow =>
    h.next hst (by simp) (List.append_nil _) (.inl rfl) (by rw [hjob]; exact h.fsm) (fun hf => by rw [hjob]; exact hf)
      (fun ev he => by cases he) hrow
  obtain ⟨st, d, hex, hd, hds, hcase⟩ | ⟨d₀, hd, hw, hex⟩ := Ctx.exec_put_own c hc hb.id
  · rw [hex] at hr hx
    have hrow : s'.1.row = some d := by rw [hx]; exact hd
    obtain ⟨hg, hw⟩ := hnext (fun d' hd' => by
      obtain rfl := Option.some.inj (hrow.symm.trans hd')
      rw [hds, hjob]
      rcases hb.status with hs | hs
      · rw [hs]
        rcases hv with rfl | rfl
        · exact .inl rfl
        · exact .inr (.inl rfl)
      · exact .inr (.inr hs))
    refine ⟨hg, hw, hjob, hphase, .inl ⟨d, hr, hrow, hds, hcase.imp_right ?_⟩⟩
    rintro ⟨d₀, hd₀, hmay, -⟩
    exact ⟨d₀, hd₀, hmay⟩
  · rw [hex] at hr hx
    have hx : s'.1 = s.1 := hx
    obtain ⟨hg, hw'⟩ := hnext (by rw [hx]; exact h.row)
    exact ⟨hg, hw', hjob, hphase, .inr ⟨d₀, hr, hd, hw, hx⟩⟩

/-- A built record is refused over a Cancelled row only, when the row fits. -/
theorem Built.refused {v : Status} {n k : Nat} (hv : v = .inProgress ∨ v = .cancelled) {rec d : JobRecord}
    {s : Ctx × List (JobEv Party)} {w : Status} (h : Work w n k s) (hb : Built v rec s) (hs : Semi s)
    (hd : s.1.row = some d) (hw : ¬ InMemoryJobStore.MayWrite d rec) : rowCancelled s.1.row := by
  rcases hs with hc | hsync
  · exact hc
  · rcases hb.version with hc | hver
    · exact hc
    · have hst : rec.status = Status.inProgress.value ∨ rec.status = Status.cancelled.value := by
        rcases hb.status with hs | ⟨hs, -⟩
        · rcases hv with rfl | rfl
          · exact .inl hs
          · exact .inr hs
        · exact .inr hs
      obtain hds | hds | ⟨hds, -⟩ := h.row d hd
      · refine absurd ⟨?_, (hsync d hd).trans hver.symm⟩ hw
        rw [hds]
        rcases hst with hst | hst <;> rw [hst] <;> exact statusLe_value.2 (.inr (by decide))
      · refine absurd ⟨?_, (hsync d hd).trans hver.symm⟩ hw
        rw [hds]
        rcases hst with hst | hst <;> rw [hst]
        · exact .refl _
        · exact statusLe_value.2 (.inr (by decide))
      · exact ⟨d, hd, hds⟩

theorem rowCancelled_stable (v : Status) (n k : Nat) :
    (convergeProto .worker).Stable (fun s => Work v n k s ∧ rowCancelled s.1.row) :=
  work_stable fun _ _ _ hx hg _ h => hg.rowCancelled hx h

/-- **A save of a cancelled job** leaves the row Cancelled. -/
theorem save_cancelled {v : Status} {n k : Nat} (hv : v = .scheduled ∨ v = .inProgress)
    {s : Ctx × List (JobEv Party)} (h : Work v n k s) (hs : Semi s) (hf : s.1.job.fsm = some .cancelled) :
    (convergeProto .worker).wp Job.save (fun _ s => Work v n k s ∧ rowCancelled s.1.row) s := by
  refine wp_save (P := fun s => Work v n k s ∧ Semi s ∧ s.1.job.fsm = some .cancelled)
    (B := fun rec s => Work v n k s ∧ Semi s ∧ s.1.job.fsm = some .cancelled ∧ Built .cancelled rec s)
    (W := fun _ s => Work v n k s ∧ rowCancelled s.1.row) ?_ (fun _ => ?_) (fun _ => rowCancelled_stable v n k) ?_ ?_ ?_
    ⟨h, hs, hf⟩
  · exact work_stable fun _ _ _ hx hg _ h => ⟨hg.semi hx h.1, hg.cancelledNext hx h.2⟩
  · exact work_stable fun _ _ _ hx hg _ h => ⟨hg.semi hx h.1, hg.cancelledNext hx h.2.1, hg.built hx h.2.2⟩
  · rintro s rec s' ⟨h, hs, hf⟩ hst
    obtain ⟨hg, hw, hsame, hp⟩ := h.passive hst rfl
    obtain ⟨c, -, -, -, hx⟩ := jobSem_step hst.1
    have hx : s'.1 = s.1 := hx
    have hwc : Work .cancelled n k s := ⟨.inr hf, h.row, h.starts, h.late, h.events, h.count, h.known⟩
    exact ⟨hg, hw, semi_aboutRow s s' hsame.row (by rw [hx]) hsame.fsm hp hs, hsame.fsm.trans hf, hwc.build hst⟩
  · rintro rec s r s' ⟨h, hs, hf, hb⟩ hst
    have hstatus : rec.status = Status.cancelled.value := hb.status.elim id And.left
    obtain ⟨hg, hw, -, -, ⟨d, rfl, hd, hds, -⟩ | ⟨d, rfl, hd, hno, hx⟩⟩ :=
      h.put hv ⟨hb.id, hb.version, .inr ⟨hstatus, hf⟩⟩ hst
    · exact ⟨hg, hw, d, hd, hds.trans hstatus⟩
    · exact ⟨hg, hw, by rw [hx]; exact hb.refused (.inr rfl) h hs hd hno⟩
  · rintro rec s r s' ⟨h, hc⟩ hst
    obtain ⟨hg, hw, hsame, -⟩ := h.passive hst rfl
    refine ⟨hg, ?_⟩
    rw [← hsame.row] at hc
    cases r with
    | ok u => exact ⟨hw, hc⟩
    | error e => exact ⟨hw, hc⟩

/-- No row, or one the canceller wrote. -/
def Missing (s : Ctx × List (JobEv Party)) : Prop := s.1.row = none ∨ rowCancelled s.1.row

theorem CancelStep.missing {s s' : Ctx × List (JobEv Party)} {e : JobEv Party} (hx : Extends s e s')
    (hg : CancelStep s.2 e) (h : Missing s) : Missing s' := by
  rcases hg.same hx with ⟨hr, -⟩ | hc
  · unfold Missing
    rw [hr]
    exact h
  · exact .inr hc

/-- **The save of the missing Scheduled row** leaves a row that fits. -/
theorem save_missing {n k : Nat} {s : Ctx × List (JobEv Party)} (h : Work .scheduled n k s) (hf : Fits s)
    (hm : Missing s) : (convergeProto .worker).wp Job.save
      (fun r s => (∃ b, r = .ok b) ∧ Work .scheduled n k s ∧ Fits s ∧ s.1.row.isSome) s := by
  refine wp_save (P := fun s => Work .scheduled n k s ∧ Fits s ∧ Missing s)
    (B := fun rec s => Work .scheduled n k s ∧ Fits s ∧ Missing s ∧ Built .scheduled rec s)
    (W := fun _ s => Work .scheduled n k s ∧ Fits s ∧ s.1.row.isSome) ?_ (fun _ => ?_) (fun _ => ?_) ?_ ?_ ?_ ⟨h, hf, hm⟩
  · exact work_stable fun _ _ _ hx hg hw h => ⟨hg.fitsNext hx hw h.1, hg.missing hx h.2⟩
  · exact work_stable fun _ _ _ hx hg hw h => ⟨hg.fitsNext hx hw h.1, hg.missing hx h.2.1, hg.built hx h.2.2⟩
  · exact work_stable fun _ _ _ hx hg hw h => ⟨hg.fitsNext hx hw h.1, hg.isSome hx h.2⟩
  · rintro s rec s' ⟨h, hf, hm⟩ hst
    obtain ⟨hg, hw, hsame, hp⟩ := h.passive hst rfl
    obtain ⟨c, -, -, -, hx⟩ := jobSem_step hst.1
    have hx : s'.1 = s.1 := hx
    exact ⟨hg, hw, fits_aboutRow s s' hsame.row (by rw [hx]) hsame.fsm hp hf, by unfold Missing; rw [hx]; exact hm,
      h.build hst⟩
  · rintro rec s r s' ⟨h, hf, hm, hb⟩ hst
    obtain ⟨hg, hw, hjob, hp, ⟨d, rfl, hd, hds, hcase⟩ | ⟨d, rfl, hd, -, hx⟩⟩ := h.put (.inl rfl) hb hst
    · refine ⟨hg, hw, ?_, by rw [hd]; rfl⟩
      unfold Fits
      rw [hd, hjob, hp]
      rcases hcase with ⟨hn, rfl⟩ | ⟨d₀, hd₀, hmay⟩
      · -- inserted: the row has the job's version, and what the canceller still has to do is as before
        have hno : ¬ rowCancelled s.1.row := by rintro ⟨_, h, -⟩; rw [hn] at h; cases h
        refine .inr ⟨fun d' hd' => ?_, (hf.resolve_left hno).2⟩
        obtain rfl := Option.some.inj hd'
        exact hb.version.resolve_left hno
      · -- over the canceller's row
        obtain ⟨d₁, hd₁, hc⟩ := hm.resolve_left (fun hn => by rw [hn] at hd₀; cases hd₀)
        obtain rfl := Option.some.inj (hd₀.symm.trans hd₁)
        refine .inl ⟨d, rfl, ?_⟩
        have hle := hmay.1
        rw [hc] at hle
        rw [hds]
        exact hle.of_terminal (by decide)
    · refine ⟨hg, ⟨false, rfl⟩, hw, fits_aboutRow s s' (by rw [hx]) (by rw [hx]) (by rw [hx]) hp hf, ?_⟩
      rw [hx, hd]
      rfl
  · rintro rec s r s' ⟨h, hf, hsome⟩ hst
    obtain ⟨d, hd⟩ := Option.isSome_iff_exists.1 hsome
    obtain ⟨⟨hg, hw, hsame, hp⟩, rfl, hver⟩ := h.refresh hst hd
    refine ⟨hg, ⟨true, rfl⟩, hw, ?_, by rw [hsame.row]; exact hsome⟩
    rcases hf with hcan | ⟨hsync, hcome⟩
    · exact .inl (by rw [hsame.row]; exact hcan)
    · exact fits_aboutRow s s' hsame.row (hver.trans (hsync d hd)) hsame.fsm hp (.inr ⟨hsync, hcome⟩)

/-- **The save of the RUN snapshot**: written, or refused because the row is Cancelled. -/
theorem save_run {n k : Nat} {s : Ctx × List (JobEv Party)} (h : Work .inProgress n k s) (hf : Fits s)
    (hsome : s.1.row.isSome) : (convergeProto .worker).wp Job.save
      (fun r s => Work .inProgress n k s ∧ (r = .ok true ∧ Semi s ∨ r = .ok false ∧ rowCancelled s.1.row)) s := by
  refine wp_save (P := fun s => Work .inProgress n k s ∧ Fits s ∧ s.1.row.isSome)
    (B := fun rec s => Work .inProgress n k s ∧ Fits s ∧ s.1.row.isSome ∧ Built .inProgress rec s)
    (W := fun _ s => Work .inProgress n k s ∧ s.1.row.isSome) ?_ (fun _ => ?_) (fun _ => ?_) ?_ ?_ ?_ ⟨h, hf, hsome⟩
  · exact work_stable fun _ _ _ hx hg hw h => ⟨hg.fitsNext hx hw h.1, hg.isSome hx h.2⟩
  · exact work_stable fun _ _ _ hx hg hw h => ⟨hg.fitsNext hx hw h.1, hg.isSome hx h.2.1, hg.built hx h.2.2⟩
  · exact work_stable fun _ _ _ hx hg hw h => hg.isSome hx h
  · rintro s rec s' ⟨h, hf, hm⟩ hst
    obtain ⟨hg, hw, hsame, hp⟩ := h.passive hst rfl
    obtain ⟨c, -, -, -, hx⟩ := jobSem_step hst.1
    have hx : s'.1 = s.1 := hx
    exact ⟨hg, hw, fits_aboutRow s s' hsame.row (by rw [hx]) hsame.fsm hp hf, by rw [hx]; exact hm, h.build hst⟩
  · rintro rec s r s' ⟨h, hf, -, hb⟩ hst
    obtain ⟨hg, hw, -, -, ⟨d, rfl, hd, -, -⟩ | ⟨d, rfl, hd, hno, hx⟩⟩ := h.put (.inr rfl) hb hst
    · exact ⟨hg, hw, by rw [hd]; rfl⟩
    · exact ⟨hg, hw, .inr ⟨rfl, by rw [hx]; exact hb.refused (.inl rfl) h hf.semi hd hno⟩⟩
  · rintro rec s r s' ⟨h, hsome⟩ hst
    obtain ⟨d, hd⟩ := Option.isSome_iff_exists.1 hsome
    obtain ⟨⟨hg, hw, hsame, -⟩, rfl, hver⟩ := h.refresh hst hd
    refine ⟨hg, hw, .inl ⟨rfl, .inr fun d' hd' => ?_⟩⟩
    rw [hsame.row] at hd'
    obtain rfl := Option.some.inj (hd.symm.trans hd')
    exact hver.symm

/-! ## The worker -/

theorem work_getSaved {v : Status} {n k : Nat} {A : Ctx × List (JobEv Party) → Prop} (hA : AboutRow A)
    (hstab : (convergeProto .worker).Stable (fun s => Work v n k s ∧ A s)) {s : Ctx × List (JobEv Party)}
    (h : Work v n k s ∧ A s) :
    (convergeProto .worker).wp Job.getSaved (fun r s => r = .ok s.1.row ∧ Work v n k s ∧ A s) s := by
  refine work_call rfl rfl hA hstab h (fun c s₁ s₂ hc _ h₂ hA hx _ => ?_)
  rw [Ctx.exec_getSaved_healthy c s₁.1 hc]
  exact ⟨by rw [hx]; rfl, h₂, hA⟩

/-- A finished machine: no cancel can have come or will come. -/
def Finished (s : Ctx × List (JobEv Party)) : Prop :=
  (s.1.job.fsm = some .completed ∨ s.1.job.fsm = some .failed) ∧ phaseOk s

/-- **What the worker ends with**: a finished job, or a row that fits the cancel. -/
def Converged (n : Nat) (s : Ctx × List (JobEv Party)) : Prop :=
  Finished s ∨ ∃ v k, k ≤ n ∧ Work v n k s ∧ Fits s

theorem Finished.stable : (convergeProto .worker).Stable Finished :=
  worker_stable fun s e s' hx hg h => by
    have hp := hg.known (by rw [hx.pre]; exact h.2)
    rw [hx.post, ← hx.log] at hp
    refine ⟨?_, hp⟩
    rw [← hx.post]
    rcases hg.fsm with hf | ⟨hf, -⟩
    · rw [hf, hx.pre]; exact h.1
    · rw [hx.pre] at hf
      rcases hf with hf | hf <;> rcases h.1 with h | h <;> cases hf.symm.trans h

theorem Converged.stable (n : Nat) : (convergeProto .worker).Stable (Converged n) := by
  rintro s s' hr (h | ⟨v, k, hk, h⟩)
  · exact .inl (Finished.stable s s' hr h)
  · exact .inr ⟨v, k, hk, fits_stable v n k s s' hr h⟩

theorem Finished.keeps {α : Type} {p : JobProg α} (hp : p.Only Act.Quiet) : (convergeProto .worker).Keeps Finished p := by
  refine .only Finished.stable (fun a ha s r s' h hst => ?_) hp
  obtain ⟨c, -, -, -, hx⟩ := jobSem_step hst.1
  have hb : ∀ ws, a ≠ .fromRecord ws := by rintro ws rfl; cases ha
  have hfsm : s'.1.job.fsm = s.1.job.fsm := by rw [hx]; exact Ctx.exec_fsm c a s.1 ha
  refine ⟨team_guar hst ⟨?_, fun hc => hfsm.trans hc, fun hc => ?_⟩, by rw [hfsm]; exact h.1, fun hne => ?_⟩
  · show Ctx.Frame s.1 s'.1
    rw [hx]
    exact Ctx.exec_frame c a s.1 hb
  · show rowCancelled s'.1.row
    rw [hx]
    exact rowCancelled_exec c hb hc
  · rw [hst.2.1, phase_worker _ rfl] at hne
    rw [hfsm]
    exact h.2 hne

section
variable {v : Status} {n k : Nat} (hv : v = .scheduled ∨ v = .inProgress) {s : Ctx × List (JobEv Party)}
include hv

theorem Work.ensureCancelledPersisted (h : Work v n k s) (hs : Semi s) (hf : s.1.job.fsm = some .cancelled) :
    (convergeProto .worker).wp Worker.ensureCancelledPersistedLogged
      (fun _ s => Work v n k s ∧ rowCancelled s.1.row) s := by
  unfold Worker.ensureCancelledPersistedLogged
  rw [Proto.wp_tryExcept]
  refine Proto.wp_mono (Q := fun _ s => Work v n k s ∧ rowCancelled s.1.row) (fun r s h => ?_) _ _ ?_
  · cases r with
    | ok u => exact h
    | error e => exact h
  · have habout : AboutRow (fun s => Semi s ∧ s.1.job.fsm = some .cancelled) := fun s s' hr hv hf hp h =>
      ⟨semi_aboutRow s s' hr hv hf hp h.1, hf.trans h.2⟩
    have hstab : (convergeProto .worker).Stable (fun s => Work v n k s ∧ Semi s ∧ s.1.job.fsm = some .cancelled) :=
      work_stable fun _ _ _ hx hg _ h => ⟨hg.semi hx h.1, hg.cancelledNext hx h.2⟩
    refine Proto.wp_seq (work_getSaved habout hstab ⟨h, hs, hf⟩) (fun saved s h => ?_) (fun _ _ h => by cases h.1)
    obtain ⟨hr, h, hs, hf⟩ := h
    obtain rfl := Except.ok.inj hr
    split
    · rename_i hc
      obtain ⟨d, hd, hds⟩ := Option.map_eq_some_iff.1 hc
      exact ⟨h, d, hd, hds⟩
    · exact Proto.wp_seq (save_cancelled hv h hs hf) (fun _ _ h => h) (fun _ _ h => h)

theorem Work.ensured (hk : k ≤ n) (h : Work v n k s) (hs : Semi s) (hf : s.1.job.fsm = some .cancelled) :
    (convergeProto .worker).wp Worker.ensureCancelledPersistedLogged (fun _ => Converged n) s :=
  Proto.wp_mono (fun _ _ h => .inr ⟨v, k, hk, h.1, .inl h.2⟩) _ _ (h.ensureCancelledPersisted hv hs hf)

end

theorem Work.heal {n : Nat} {s : Ctx × List (JobEv Party)} (job : Ident) (h : Work .scheduled n 0 s) (hf : Fits s) :
    (convergeProto .worker).wp (Worker.heal job)
      (fun r s => r = .ok () ∧ Work .scheduled n 0 s ∧ Fits s ∧ s.1.row.isSome) s := by
  refine Proto.wp_seq (work_getSaved fits_aboutRow (fits_stable _ n 0) ⟨h, hf⟩) (fun row s h => ?_)
    (fun _ _ h => by cases h.1)
  obtain ⟨hr, h, hf⟩ := h
  obtain rfl := Except.ok.inj hr
  split
  · rename_i hn
    refine Proto.wp_seq (save_missing h hf (.inl (Option.isNone_iff_eq_none.1 hn))) (fun b s h => ?_)
      (fun _ _ h => by obtain ⟨⟨_, h⟩, -⟩ := h; cases h)
    obtain ⟨-, h, hf, hsome⟩ := h
    split
    · exact ⟨rfl, h, hf, hsome⟩
    · have habout : AboutRow (fun s => Fits s ∧ s.1.row.isSome) := fun s s' hr hv hf hp h =>
        ⟨fits_aboutRow s s' hr hv hf hp h.1, by rw [hr]; exact h.2⟩
      have hstab : (convergeProto .worker).Stable (fun s => Work .scheduled n 0 s ∧ Fits s ∧ s.1.row.isSome) :=
        work_stable fun _ _ _ hx hg hw h => ⟨hg.fitsNext hx hw h.1, hg.isSome hx h.2⟩
      refine Proto.wp_seq (work_getSaved habout hstab ⟨h, hf, hsome⟩) (fun row s h => ?_) (fun _ _ h => by cases h.1)
      obtain ⟨hr, h, hf, hsome⟩ := h
      obtain rfl := Except.ok.inj hr
      split
      · rename_i hn
        rw [Option.isNone_iff_eq_none.1 hn] at hsome
        cases hsome
      · exact ⟨rfl, h, hf, hsome⟩
  · rename_i hn
    exact ⟨rfl, h, hf, by simpa [Option.isSome_iff_ne_none] using hn⟩

/-- The loop over the workflows; what it raises, it raises with a row that fits. -/
theorem Work.runWorkflows {n : Nat} : ∀ (ws : List Workflow) (k : Nat) {s : Ctx × List (JobEv Party)},
    k + ws.length = n → Work .inProgress n k s → Semi s →
      (convergeProto .worker).wp (Worker.runWorkflows ws k)
        (fun r s => ∃ k ≤ n, Work .inProgress n k s ∧ Semi s ∧ (r = .ok true → rowCancelled s.1.row) ∧
          ∀ e, r = .error e → Fits s) s
  | [], k, _, hk, h, hs => ⟨k, by simp at hk; omega, h, hs, (fun h => nomatch h), fun _ h => nomatch h⟩
  | _ :: ws, k, s, hk, h, hs => by
    have hkn : k ≤ n ∧ k + 1 + ws.length = n := by simp only [List.length_cons] at hk; omega
    refine work_check h hs (fun s h hs hf => ?_) (fun s h hf hlate => ?_)
    · refine Proto.wp_seq (h.ensureCancelledPersisted (.inr rfl) hs hf) (fun _ s h => ?_) (fun _ s h => ?_)
      · exact ⟨k, hkn.1, h.1, .inl h.2, fun _ => h.2, fun _ h => nomatch h⟩
      · exact ⟨k, hkn.1, h.1, .inl h.2, (fun h => nomatch h), fun _ _ => .inl h.2⟩
    · have hstab : (convergeProto .worker).Stable
          (fun s => Work .inProgress n k s ∧ Fits s ∧ startsAfterCancel s.2 = []) :=
        work_stable fun _ _ _ hx hg hw h => ⟨hg.fitsNext hx hw h.1, by
          rw [hx.log, startsAfterCancel_of_start hg.start, h.2, ite_self]⟩
      refine Proto.wp_call hstab ⟨h, hf, hlate⟩ (fun s₁ r s₂ h₁ hst => ?_)
      obtain ⟨h₁, hf, hlate⟩ := h₁
      obtain ⟨c, -, -, -, hx⟩ := jobSem_step hst.1
      have hx : s₂.1 = s₁.1 := hx
      obtain ⟨hg, h₂⟩ := h₁.next hst (by simp) List.range_succ.symm (.inr hlate) (by rw [hx]; exact h₁.fsm)
        (fun hf => by rw [hx]; exact hf) (fun ev he => by cases he) (by rw [hx]; exact h₁.row)
      have hf₂ : Fits s₂ := fits_aboutRow s₁ s₂ (by rw [hx]) (by rw [hx]) (by rw [hx])
        (by rw [hst.2.1, phase_worker _ rfl]) hf
      refine ⟨hg, Proto.wp_seq (M := fun _ s => Work .inProgress n (k + 1) s ∧ Fits s) ?_ (fun _ s h => ?_)
        (fun _ s h => ⟨k + 1, by omega, h.1, h.2.semi, (fun h => nomatch h), fun _ _ => h.2⟩)⟩
      · refine work_call rfl rfl fits_aboutRow (fits_stable _ n (k + 1)) ⟨h₂, hf₂⟩ (fun c s₁ s₂ _ _ h₂ hf _ _ => ?_)
        show Proto.wp _ (Prog.ofExcept (toThread c.outcome)) _ s₂
        cases toThread c.outcome with
        | ok u => exact ⟨h₂, hf⟩
        | error e => exact ⟨h₂, hf⟩
      · exact Work.runWorkflows ws (k + 1) hkn.2 h.1 h.2.semi

/-- `COMPLETE` or `FAIL`: it finishes the job, or the cancel came first and the event is refused. -/
theorem Work.finish {e : Event} {t : Status} (ht : Fsm.target e .inProgress = some t)
    (hte : t = .completed ∨ t = .failed) {n k : Nat} (hk : k ≤ n) {s : Ctx × List (JobEv Party)}
    (h : Work .inProgress n k s) (hf : Fits s) :
    (convergeProto .worker).wp (Worker.transitionAndSaveTerminal e) (fun _ => Converged n) s := by
  refine Proto.wp_seq (M := fun r s => (r = .ok () ∧ Finished s) ∨ ((∃ x, r = .error x) ∧ Converged n s)) ?_
    (fun _ s h => ?_) (fun _ s h => ?_)
  · refine Proto.wp_act (fits_stable _ n k) ⟨h, hf⟩ (fun s₁ r s₂ h₁ hst => ?_)
    obtain ⟨h₁, hf⟩ := h₁
    obtain ⟨c, -, -, hr, hx⟩ := jobSem_step hst.1
    obtain ⟨v, t', hv, ht', hex⟩ | ⟨-, hex⟩ := Ctx.exec_applyEvent c e s₁.1
    · have hin : s₁.1.job.fsm = some .inProgress := h₁.fsm.resolve_right fun hc => by
        obtain rfl := Option.some.inj (hc.symm.trans hv)
        rw [Fsm.target_terminal e .cancelled rfl] at ht'
        cases ht'
      obtain rfl := Option.some.inj (hin.symm.trans hv)
      obtain rfl := Option.some.inj (ht.symm.trans ht')
      have hframe : Ctx.Frame s₁.1 s₂.1 := by rw [hx]; exact Ctx.exec_frame c _ s₁.1 (by simp)
      have hrow : rowCancelled s₁.1.row → rowCancelled s₂.1.row := fun hc => by
        rw [hx]
        exact rowCancelled_exec c (by simp) hc
      rw [hex] at hr hx
      subst hr
      have hfsm : s₂.1.job.fsm = some t := by rw [hx]
      refine ⟨team_guar hst ⟨hframe, fun hc => ?_, hrow⟩, .inl ⟨rfl, ?_, fun hne => ?_⟩⟩
      · cases hin.symm.trans hc
      · exact hte.imp (fun ht => hfsm.trans (congrArg some ht)) (fun ht => hfsm.trans (congrArg some ht))
      · rw [hst.2.1, phase_worker _ rfl] at hne
        cases hin.symm.trans (h₁.known hne)
    · rw [hex] at hr hx
      subst hr
      have hx : s₂.1 = s₁.1 := hx
      obtain ⟨hg, h₂⟩ := h₁.refused hst hx
      refine ⟨hg, .inr ⟨⟨_, rfl⟩, .inr ⟨.inProgress, k, hk, h₂, ?_⟩⟩⟩
      exact fits_aboutRow s₁ s₂ (by rw [hx]) (by rw [hx]) (by rw [hx]) (by rw [hst.2.1, phase_worker _ rfl]) hf
  · obtain ⟨-, h⟩ | ⟨⟨_, h⟩, -⟩ := h
    · exact Proto.wp_seq (Finished.keeps save_quiet s h) (fun _ _ h => .inl h) (fun _ _ h => .inl h)
    · cases h
  · obtain ⟨h, -⟩ | ⟨-, h⟩ := h
    · cases h
    · exact h

theorem Work.execute {n : Nat} {s : Ctx × List (JobEv Party)} (h : Work .inProgress n 0 s) (hs : Semi s) :
    (convergeProto .worker).wp Worker.execute (fun _ => Converged n) s := by
  refine Proto.wp_try (M := fun r s => ∃ k ≤ n, Work .inProgress n k s ∧ Semi s ∧ (r = .ok true → rowCancelled s.1.row) ∧
    ∀ e, r = .error e → Fits s) ?_ (fun r s hM => ?_)
  · refine work_call rfl rfl semi_aboutRow (semi_stable _ n 0) ⟨h, hs⟩ (fun c s₁ s₂ _ h₁ h₂ hs _ _ => ?_)
    refine work_call rfl rfl semi_aboutRow (semi_stable _ n 0) ⟨h₂, hs⟩ (fun _ _ s₂ _ _ h₂ hs _ _ => ?_)
    exact Work.runWorkflows _ 0 ((Nat.zero_add _).trans h₁.count) h₂ hs
  · obtain ⟨k, hk, h, hs, hcan, hraise⟩ := hM
    match r with
    | .error e =>
      show (convergeProto .worker).wp (if e.isException then Worker.workflowFailed e else Prog.raise e) _ s
      by_cases hcaught : e.isException = true
      · rw [if_pos hcaught]
        refine work_check h hs (fun s h hs hf => h.ensured (.inr rfl) hk hs hf) (fun s h hf _ => ?_)
        exact Proto.wp_try (h.finish (e := .fail) rfl (.inr rfl) hk hf) (fun _ _ h => h)
      · rw [if_neg hcaught]
        exact .inr ⟨_, k, hk, h, hraise e rfl⟩
    | .ok true => exact .inr ⟨_, k, hk, h, .inl (hcan rfl)⟩
    | .ok false =>
      exact work_check h hs (fun s h hs hf => h.ensured (.inr rfl) hk hs hf)
        (fun s h hf _ => h.finish (e := .complete) rfl (.inl rfl) hk hf)

/-- The RUN snapshot was refused: the row is Cancelled, and the worker follows it. -/
theorem Work.runSkipped {n : Nat} (job : Ident) (st : Option Status) (t : String) {s : Ctx × List (JobEv Party)}
    (h : Work .inProgress n 0 s) (hc : rowCancelled s.1.row) :
    (convergeProto .worker).wp (Worker.runSkipped job st t) (fun _ => Converged n) s := by
  have habout : AboutRow (fun s => rowCancelled s.1.row) := fun s s' hr _ _ _ h => by
    show rowCancelled s'.1.row
    rw [hr]
    exact h
  refine Proto.wp_seq (work_getSaved habout (rowCancelled_stable _ n 0) ⟨h, hc⟩) (fun row s h => ?_)
    (fun _ _ h => by cases h.1)
  obtain ⟨hr, h, hc⟩ := h
  obtain rfl := Except.ok.inj hr
  have hrow : s.1.row.map JobRecord.status = some Status.cancelled.value := by
    obtain ⟨d, hd, hds⟩ := hc
    rw [hd, ← hds]
    rfl
  dsimp only
  rw [if_pos hrow]
  refine work_call rfl rfl habout (rowCancelled_stable _ n 0) ⟨h, hc⟩ (fun c s₁ s₂ _ _ h₂ hc hx _ => ?_)
  have hx : s₂.1 = s₁.1 := hx
  have hfsm : s₂.1.job.fsm = some .cancelled := by
    obtain ⟨d, hd, hds⟩ := hc
    obtain h | h | ⟨-, h⟩ := h₂.row d hd
    · rw [hds, Status.value_inj] at h; cases h
    · rw [hds, Status.value_inj] at h; cases h
    · exact h
  have hyes : (Ctx.exec c .isCancelled s₁.1).1 = true := (Job.isCancelled_iff s₁.1.job).2 (by rw [← hx]; exact hfsm)
  rw [hyes]
  exact h₂.ensured (.inr rfl) (Nat.zero_le n) (.inl hc) hfsm

/-- **The worker converges**: it ends with a finished job, or with a row that fits the cancel. -/
theorem process_converges {n : Nat} (job : Ident) {s : Ctx × List (JobEv Party)} (h : Work .scheduled n 0 s)
    (hf : Fits s) : (convergeProto .worker).wp (Worker.process job) (fun _ => Converged n) s := by
  refine work_check h hf.semi (fun s h hs hf => h.ensured (.inl rfl) (Nat.zero_le n) hs hf) (fun s h hf _ => ?_)
  refine work_call rfl rfl fits_aboutRow (fits_stable _ n 0) ⟨h, hf⟩ (fun _ _ s _ _ h hf _ _ => ?_)
  refine work_call rfl rfl fits_aboutRow (fits_stable _ n 0) ⟨h, hf⟩ (fun _ _ s _ _ h hf _ _ => ?_)
  refine Proto.wp_try (h.heal job hf) (fun r s h => ?_)
  obtain ⟨rfl, h, hf, hsome⟩ := h
  refine Proto.wp_seq (M := fun r s => (∃ v, Work v n 0 s) ∧ Fits s ∧
    (r = .ok () → Work .inProgress n 0 s ∧ s.1.row.isSome)) ?_ (fun _ s h => ?_)
    (fun _ s h => by obtain ⟨⟨v, h⟩, hf, -⟩ := h; exact .inr ⟨v, 0, Nat.zero_le n, h, hf⟩)
  · have hstab : (convergeProto .worker).Stable (fun s => Work .scheduled n 0 s ∧ Fits s ∧ s.1.row.isSome) :=
      work_stable fun _ _ _ hx hg hw h => ⟨hg.fitsNext hx hw h.1, hg.isSome hx h.2⟩
    refine Proto.wp_act hstab ⟨h, hf, hsome⟩ (fun s₁ r s₂ h₁ hst => ?_)
    obtain ⟨h₁, hf, hsome⟩ := h₁
    obtain ⟨c, -, -, hr, hx⟩ := jobSem_step hst.1
    have hp : phase s₂.2 = phase s₁.2 := by rw [hst.2.1, phase_worker _ rfl]
    obtain ⟨v, t, hv, ht, hex⟩ | ⟨-, hex⟩ := Ctx.exec_applyEvent c .run s₁.1
    · rw [hex] at hr hx
      subst hr
      obtain ⟨rfl, rfl⟩ := Fsm.target_run ht
      have hrow : s₂.1.row = s₁.1.row := by rw [hx]; rfl
      obtain ⟨hg, h₂⟩ := h₁.next (w := .inProgress) hst (by simp) (List.append_nil _) (.inl rfl) (.inl (by rw [hx]))
        (fun hc => by cases hv.symm.trans hc) (fun ev he => by obtain rfl := Option.some.inj he; simp) (fun d hd => by
          rw [hrow] at hd
          exact (h₁.row d hd).imp_right (Or.imp_right fun hc => by cases hv.symm.trans hc.2))
      have hf₂ : Fits s₂ := by
        unfold Fits
        rw [hrow, hp, hx]
        exact hf
      exact ⟨hg, ⟨_, h₂⟩, hf₂, fun _ => ⟨h₂, by rw [hrow]; exact hsome⟩⟩
    · rw [hex] at hr hx
      subst hr
      have hx : s₂.1 = s₁.1 := hx
      obtain ⟨hg, h₂⟩ := h₁.refused hst hx
      exact ⟨hg, ⟨_, h₂⟩, fits_aboutRow s₁ s₂ (by rw [hx]) (by rw [hx]) (by rw [hx]) hp hf, fun h => nomatch h⟩
  · obtain ⟨-, hf, h⟩ := h
    obtain ⟨h, hsome⟩ := h rfl
    refine Proto.wp_try (save_run h hf hsome) (fun r s h => ?_)
    obtain ⟨h, ⟨rfl, hs⟩ | ⟨rfl, hc⟩⟩ := h
    · exact h.execute hs
    · exact h.runSkipped job _ _ hc

/-! ## Every run -/

/-- What the job may start from: scheduled, with no row or its Scheduled row at its own version. -/
structure Dequeued (x : Ctx) : Prop where
  fsm : x.job.fsm = some .scheduled
  row : ∀ d, x.row = some d → d.status = Status.scheduled.value ∧ d.version = x.job.version

/-- **Cancel converges.**  When `cancel`'s event succeeded and both calls have finished, the job and its row are
Cancelled, neither `COMPLETE` nor `FAIL` was applied, the started workflows are a prefix of the job's, and at most one was
started after the event. -/
theorem cancel_converges (x : Ctx) (hx : Dequeued x) {c : RaceConf}
    (hrun : Conf.Runs ((jobSem faultFree).logged (fun _ _ => True)) (race x) c)
    (hdone : ∀ i, (c.prog i).finished.isSome) (hwon : CancelWon c.state.2) :
    c.state.1.job.fsm = some .cancelled ∧ (∃ d, c.state.1.row = some d ∧ d.status = Status.cancelled.value) ∧
      (∀ e ∈ c.state.2, e.act.event e.res ≠ some .complete ∧ e.act.event e.res ≠ some .fail) ∧
      (∃ k ≤ x.job.workflows.length, starts c.state.2 = List.range k) ∧ (startsAfterCancel c.state.2).length ≤ 1 := by
  let post : Party → Except Exn Unit → Ctx × List (JobEv Party) → Prop := fun
    | .worker, _, s => Converged x.job.workflows.length s
    | .canceller, _, s => phase s.2 = .idle ∨ phase s.2 = .done
  have hwp : ∀ i, (convergeProto i).wp ((race x).prog i) (post i) (race x).state
    | .canceller => cancel_keeps_side rfl
    | .worker => by
      refine process_converges x.job.ident ⟨.inl hx.fsm, fun d hd => .inl (hx.row d hd).1, rfl, Nat.zero_le 1,
        (fun e he => nomatch he), rfl, fun h => absurd rfl h⟩ (.inr ⟨fun d hd => (hx.row d hd).2, trivial⟩)
  have hheld := (Conf.Held.init hwp).runs Conc.team_compat hrun
  have hcan : phase c.state.2 = .idle ∨ phase c.state.2 = .done := by
    obtain ⟨r, hr⟩ := Option.isSome_iff_exists.1 (hdone .canceller)
    exact hheld.post hr fun s s' hr h => h.imp (canceller_phase_stable _ s s' hr) (canceller_phase_stable _ s s' hr)
  have hwork : Converged x.job.workflows.length c.state := by
    obtain ⟨r, hr⟩ := Option.isSome_iff_exists.1 (hdone .worker)
    exact hheld.post hr (Converged.stable _)
  have hphase : phase c.state.2 = .done := hcan.resolve_left (phase_of_cancelWon hwon)
  have hne : phase c.state.2 ≠ .idle := phase_of_cancelWon hwon
  obtain ⟨hf, hknown⟩ | ⟨v, k, hk, h, hfit⟩ := hwork
  · rcases hf with hf | hf <;> cases hf.symm.trans (hknown hne)
  · refine ⟨h.known hne, hfit.resolve_right fun hc => ?_, h.events, ⟨k, hk, h.starts⟩, h.late⟩
    have hcome := hc.2
    rw [hphase] at hcome
    exact hcome

/-- The cancel is built before the RUN snapshot is put, and its own put is refused; the worker finds the cancel before its
first workflow and saves it. -/
theorem cancel_converges_run : ∃ c, Conf.Runs ((jobSem faultFree).logged (fun _ _ => True)) (race savedCtx) c ∧
    (∀ i, (c.prog i).finished.isSome) ∧ CancelWon c.state.2 ∧ c.state.1.job.fsm = some .cancelled ∧
      ∃ d, c.state.1.row = some d ∧ d.status = Status.cancelled.value := by
  have hrun : ∃ c, Conf.Runs ((jobSem faultFree).logged (fun _ _ => True)) (race savedCtx) c ∧
      (c.prog .worker).finished.isSome ∧ (c.prog .canceller).finished.isSome ∧ CancelWon c.state.2 :=
    exists_jobRuns (turns 6 .worker ++ turns 4 .canceller ++ turns 1 .worker ++ turns 1 .canceller ++ turns 8 .worker)
      (by decide) (by decide +kernel)
  obtain ⟨c, hrun, hw, hc, hwon⟩ := hrun
  have hdone : ∀ i, (c.prog i).finished.isSome := fun | .worker => hw | .canceller => hc
  have hdeq : Dequeued savedCtx := ⟨rfl, fun d hd => by obtain rfl := Option.some.inj hd; exact ⟨rfl, rfl⟩⟩
  obtain ⟨hf, hrow, -⟩ := cancel_converges savedCtx hdeq hrun hdone hwon
  exact ⟨c, hrun, hdone, hwon, hf, hrow⟩

end Pypepper
