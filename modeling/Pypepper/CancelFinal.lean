import Pypepper.JobRules
import Pypepper.JobSys
/-!
# CancelFinal — what the worker may still do to a cancelled job

A worker processes a job while another thread cancels it, under every fault of the store and the channel.  Events never
leave Cancelled, and the worker's `restore_lifecycle` only ever runs on a Failed job, which no cancel can have reached.
What is left are the two helpers that write the state directly, `_follow_durable_status` and the handler in
`_force_failed_lifecycle`: they do not look at the state they replace.  So a cancel is final exactly in the runs where
they meet no cancelled job (`cancel_final_iff`), and there are runs where they do (`force_failed_over_cancelled`).
-/
namespace Pypepper

open Conc (Prog Proto Sem Conf Ev Admits Extends team team_guar team_stable team_invariant)

def Act.isRestore : Act → Bool
  | .restore _ => true
  | _          => false

/-- Once cancelled, a worker's step does not move the machine to another state. -/
def CancelKept (before : List (JobEv Party)) (e : JobEv Party) : Prop :=
  CancelWon before → e.thread = .worker → e.post.job.fsm ≠ e.pre.job.fsm → e.post.job.fsm = some .cancelled

/-- Once cancelled, a worker's direct restore does not find the machine in Cancelled. -/
def RestoreSparesCancelled (before : List (JobEv Party)) (e : JobEv Party) : Prop :=
  CancelWon before → e.thread = .worker → e.act.isRestore → e.pre.job.fsm ≠ some .cancelled

/-! ## What the two threads do to the machine -/

/-- The worker restores another state than Cancelled, and else leaves a cancelled job cancelled. -/
structure WorkerMove (e : JobEv Party) : Prop where
  restore : e.act.isRestore → e.post.job.fsm ≠ some .cancelled
  other   : e.act.isRestore = false → e.pre.job.fsm = some .cancelled → e.post.job.fsm = some .cancelled

/-- The canceller leaves a terminal job as it is, and its event leaves the job cancelled. -/
structure CancellerMove (e : JobEv Party) : Prop where
  terminal : ∀ s : Status, s.terminal → e.pre.job.fsm = some s → e.post.job.fsm = some s
  cancel   : e.act.event e.res = some .cancel → e.post.job.fsm = some .cancelled

def Lawful (_ : List (JobEv Party)) (e : JobEv Party) : Prop :=
  match e.thread with
  | .worker    => WorkerMove e
  | .canceller => CancellerMove e

abbrev finalProto (i : Party) : Proto Act Act.Res (Ctx × List (JobEv Party)) :=
  team (jobSem (fun _ => True)) (fun _ _ => True) Lawful i

/-- The worker's actions that respect a cancel without looking at the state. -/
def Act.Respectful : Act → Prop
  | .restore s            => s ≠ .cancelled
  | .restoreLifecycle _ _ => False
  | .fromRecord _         => False
  | _                     => True

theorem Act.Quiet.respectful {a : Act} (h : a.Quiet) : a.Respectful := by
  cases a <;> trivial

theorem workerMove_respectful {a : Act} {x x' : Ctx} {r : a.Res} (ha : a.Respectful)
    (h : jobSem (fun _ => True) Party.worker a x r x') : WorkerMove ⟨.worker, a, r, x, x'⟩ := by
  obtain ⟨c, -, -, -, rfl⟩ := jobSem_step h
  cases a with
  | restore s => exact ⟨fun _ hs => ha (Option.some.inj hs), fun h => by cases h⟩
  | restoreLifecycle s t => exact ha.elim
  | fromRecord ws => exact ha.elim
  | applyEvent e =>
    refine ⟨fun h => (Bool.false_ne_true h).elim, fun _ hx => ?_⟩
    show (Ctx.exec c (.applyEvent e) x).2.job.fsm = _
    rw [Ctx.exec_applyEvent_terminal c e x hx rfl]
    exact hx
  | _ => exact ⟨fun h => (Bool.false_ne_true h).elim, fun _ hx => (Ctx.exec_fsm c _ x rfl).trans hx⟩

theorem respectful_keeps {α : Type} {p : JobProg α} (hp : p.Only Act.Respectful) :
    (finalProto .worker).Keeps (fun _ => True) p :=
  .only (fun _ _ _ _ => trivial)
    (fun _ ha _ _ _ _ hst => ⟨team_guar hst (workerMove_respectful ha hst.1), trivial⟩) hp

/-- The canceller's actions move no machine but by an event. -/
theorem cancellerMove {a : Act} {x x' : Ctx} {r : a.Res} (ha : a.Quiet ∨ a = .applyEvent .cancel)
    (h : jobSem (fun _ => True) Party.canceller a x r x') : CancellerMove ⟨.canceller, a, r, x, x'⟩ := by
  obtain ⟨c, -, -, rfl, rfl⟩ := jobSem_step h
  obtain ha | rfl := ha
  · refine ⟨fun s _ hx => (Ctx.exec_fsm c a x ha).trans hx, fun he => ?_⟩
    cases a <;> first | cases he | cases ha
  · refine ⟨fun s hs hx => ?_, fun he => ?_⟩
    · show (Ctx.exec c (.applyEvent .cancel) x).2.job.fsm = _
      rw [Ctx.exec_applyEvent_terminal c .cancel x hx hs]
      exact hx
    · obtain ⟨s, t, -, ht, hx⟩ | ⟨-, hx⟩ := Ctx.exec_applyEvent c .cancel x
      · obtain ⟨rfl, -⟩ := Fsm.target_cancel ht
        simp only [hx]
      · simp only [hx] at he
        cases he

theorem cancel_only : Job.cancel.Only (fun a => a.Quiet ∨ a = .applyEvent .cancel) := by
  refine ⟨.inl rfl, fun _ => ⟨.inl rfl, fun _ => ⟨.inr rfl, fun r => ?_⟩⟩⟩
  cases r with
  | error e => trivial
  | ok u => exact (save_quiet.mono (fun _ h => Or.inl h)).bind fun _ => trivial

theorem cancel_lawful (s : Ctx × List (JobEv Party)) : (finalProto .canceller).wp Job.cancel (fun _ _ => True) s :=
  have hkeep : (finalProto .canceller).Keeps (fun _ => True) Job.cancel :=
    .only (fun _ _ _ _ => trivial) (fun _ ha _ _ _ _ hst => ⟨team_guar hst (cancellerMove ha hst.1), trivial⟩) cancel_only
  hkeep s trivial

/-! ## The worker -/

namespace Worker

theorem respectful_saves : Act.Saves Act.Respectful := ⟨trivial, fun _ => trivial, fun _ => trivial, trivial⟩

theorem requeueAfterRunRestore_respectful (job : Ident) : (requeueAfterRunRestore job).Only Act.Respectful :=
  requeueAfterRunRestore_only respectful_saves trivial
    (forceFailedLifecycle_only trivial trivial (by simp [Act.Respectful])) job

def At (v : Status) (s : Ctx × List (JobEv Party)) : Prop := s.1.job.fsm = some v

theorem at_stable {v : Status} (hv : v.terminal = true) : (finalProto .worker).Stable (At v) := by
  refine team_stable (fun s e s' he hx _ hg h => ?_)
  unfold Lawful at hg
  cases ht : e.thread with
  | worker => exact absurd ht he
  | canceller =>
    rw [ht] at hg
    have hpost := hg.terminal v hv (by rw [hx.pre]; exact h)
    rwa [hx.post] at hpost

theorem quiet_keeps_at {α : Type} {p : JobProg α} (hp : p.Only Act.Quiet) {v : Status} (hv : v.terminal = true) :
    (finalProto .worker).Keeps (At v) p := by
  refine .only (at_stable hv) (fun a ha s r s' h hst => ?_) hp
  obtain ⟨c, -, -, -, hx⟩ := jobSem_step hst.1
  refine ⟨team_guar hst (workerMove_respectful ha.respectful hst.1), ?_⟩
  unfold At
  rw [hx, Ctx.exec_fsm c a s.1 ha]
  exact h

theorem forceFailedLifecycle_failed (s : Ctx × List (JobEv Party)) :
    (finalProto .worker).wp forceFailedLifecycle (fun r s => r = .ok () ∧ At .failed s) s := by
  refine wp_forceFailedLifecycle (P := fun _ => True) (fun _ _ _ _ => trivial) ?_ ?_ ?_ trivial
  · intro s r s' _ hst
    obtain ⟨c, -, -, hr, hx⟩ := jobSem_step hst.1
    refine ⟨team_guar hst (workerMove_respectful trivial hst.1), trivial, fun h => ?_⟩
    unfold At
    rw [hx]
    exact (Job.currentStatus_eq_value _ (by simp)).1 (hr.symm.trans h)
  · intro s r s' _ hst
    obtain ⟨c, -, -, hr, hx⟩ := jobSem_step hst.1
    refine ⟨team_guar hst (workerMove_respectful trivial hst.1), ?_⟩
    obtain ⟨s₀, t, -, ht, he⟩ | ⟨-, he⟩ := Ctx.exec_applyEvent c .fail s.1
    · rw [he] at hr hx
      subst hr
      obtain rfl := Fsm.target_fail ht
      exact congrArg (fun x : Ctx => x.job.fsm) hx
    · rw [he] at hr
      subst hr
      trivial
  · intro s r s' _ hst
    obtain ⟨c, -, -, -, hx⟩ := jobSem_step hst.1
    exact ⟨team_guar hst (workerMove_respectful (by simp [Act.Respectful]) hst.1),
      congrArg (fun x : Ctx => x.job.fsm) hx⟩

theorem persistFailedSnapshot_failed (job : Ident) (s : Ctx × List (JobEv Party)) :
    (finalProto .worker).wp (persistFailedSnapshot job) (fun _ => At .failed) s := by
  refine Proto.wp_seq (forceFailedLifecycle_failed s) ?_ ?_
  · rintro - s ⟨-, h⟩
    refine Proto.wp_seq (quiet_keeps_at save_quiet rfl s h) (fun b s h => ?_) (fun _ _ h => h)
    cases b with
    | true => exact h
    | false => exact h
  · rintro e s ⟨h, -⟩
    cases h

theorem isCancelled_step {s s' : Ctx × List (JobEv Party)} {r : Act.isCancelled.Res}
    (h : (finalProto .worker).step .isCancelled s r s') :
    (finalProto .worker).guar s s' ∧ s'.1 = s.1 ∧ (r = true ↔ At .cancelled s) := by
  obtain ⟨c, -, -, hr, hx⟩ := jobSem_step h.1
  refine ⟨team_guar h (workerMove_respectful trivial h.1), hx, ?_⟩
  rw [hr]
  exact Job.isCancelled_iff s.1.job

/-- **`restore_lifecycle` meets a Failed job**: the snapshot before it forced Failed, which no cancel leaves, and a
cancelled job was sent another way. -/
theorem failOrRestoreAfterRunPersist_lawful (job : Ident) (st : Option Status) (t : String) (e : Exn)
    (s : Ctx × List (JobEv Party)) :
    (finalProto .worker).wp (failOrRestoreAfterRunPersist job st t e) (fun _ _ => True) s := by
  refine Proto.wp_try (M := fun r s => ∀ e, r = .error e → At .failed s ∨ At .cancelled s) ?_ ?_
  · refine Proto.wp_call (P := fun _ => True) (fun _ _ _ _ => trivial) trivial (fun s₁ r s₂ _ hst => ?_)
    obtain ⟨hg, hx, hr⟩ := isCancelled_step hst
    refine ⟨hg, ?_⟩
    split
    · rename_i h
      refine fun _ _ => .inr ?_
      unfold At
      rw [hx]
      exact hr.1 h
    · exact Proto.wp_mono (fun _ _ h _ _ => .inl h) _ _ (persistFailedSnapshot_failed job s₂)
  · intro r s hM
    cases r with
    | ok u => trivial
    | error e' =>
      have hst : (finalProto .worker).Stable (fun s => At .failed s ∨ At .cancelled s) := fun s s' hr h =>
        h.imp (at_stable rfl s s' hr) (at_stable rfl s s' hr)
      refine Proto.wp_call hst (hM e' rfl) (fun s₁ r s₂ h₁ hstep => ?_)
      obtain ⟨hg, hx, hr⟩ := isCancelled_step hstep
      refine ⟨hg, ?_⟩
      split
      · exact respectful_keeps ((ensureCancelledPersisted_only respectful_saves).bind fun _ => .raise e) s₂ trivial
      · rename_i hfalse
        have hfailed : At .failed s₂ := by
          unfold At
          rw [hx]
          exact h₁.resolve_right (fun h => hfalse (hr.2 h))
        refine Proto.wp_call (at_stable rfl) hfailed (fun s₃ r s₄ h₃ hstep => ?_)
        refine ⟨team_guar hstep ⟨fun h => (Bool.false_ne_true h).elim, fun _ h => ?_⟩, ?_⟩
        · have hne := h₃.symm.trans h
          cases hne
        · exact respectful_keeps ((requeueAfterRunRestore_respectful job).bind fun _ => .raise e) s₄ trivial

theorem followDurableStatus_respectful {t : String} (h : t ≠ Status.cancelled.value) :
    (followDurableStatus t).Only Act.Respectful := by
  unfold followDurableStatus
  cases hs : Status.ofValue t with
  | none => trivial
  | some v =>
    refine .call (q := Act.Respectful) (fun hv => h ?_)
    rw [← Status.value_of_ofValue hs, hv]

theorem runSkipped_lawful (job : Ident) (st : Option Status) (t : String) (s : Ctx × List (JobEv Party)) :
    (finalProto .worker).wp (runSkipped job st t) (fun _ _ => True) s := by
  have hlog := ensureCancelledPersistedLogged_only respectful_saves
  refine Proto.wp_seq (respectful_keeps (getSaved_only respectful_saves) s trivial) (fun durable s _ => ?_)
    (fun _ _ _ => trivial)
  dsimp only
  split
  · have hcancel : ((Job.applyEventP .cancel).bind fun _ => ensureCancelledPersistedLogged).Only Act.Respectful :=
      (applyEventP_only trivial).bind fun _ => hlog
    exact respectful_keeps (.bind (.call (by trivial)) fun _ => .ite hlog hcancel) s trivial
  · rename_i hne
    split
    · rename_i hf
      obtain ⟨hd, -⟩ := Option.filter_eq_some_iff.1 hf
      exact respectful_keeps (followDurableStatus_respectful (fun h => hne (by rw [hd, h]))) s trivial
    · exact failOrRestoreAfterRunPersist_lawful job st t _ s

theorem execute_respectful : execute.Only Act.Respectful :=
  execute_only { respectful_saves with
    check := trivial, workflows := trivial, share := trivial, start := fun _ => trivial, ended := fun _ => trivial,
    fail := trivial, complete := trivial }

theorem wp_respectful {α : Type} {a : Act} (ha : a.Respectful) {f : a.Res → JobProg α} {s : Ctx × List (JobEv Party)}
    (h : ∀ r s, (finalProto .worker).wp (f r) (fun _ _ => True) s) :
    (finalProto .worker).wp (Prog.call a >>= f) (fun _ _ => True) s :=
  Proto.wp_call (P := fun _ => True) (fun _ _ _ _ => trivial) trivial fun _ r s₂ _ hst =>
    ⟨team_guar hst (workerMove_respectful ha hst.1), h r s₂⟩

theorem process_lawful (job : Ident) (s : Ctx × List (JobEv Party)) :
    (finalProto .worker).wp (process job) (fun _ _ => True) s := by
  refine wp_respectful (by trivial) (fun r s => ?_)
  split
  · exact respectful_keeps (ensureCancelledPersistedLogged_only respectful_saves) s trivial
  · refine wp_respectful (by trivial) (fun st s => wp_respectful (by trivial) (fun t s => ?_))
    refine Proto.wp_try (respectful_keeps (heal_only respectful_saves job) s trivial) (fun r s _ => ?_)
    match r with
    | .error e => exact failOrRestoreAfterRunPersist_lawful job st t e s
    | .ok () =>
      refine Proto.wp_seq (M := fun _ _ => True)
        (respectful_keeps (.bind (.call (by trivial)) .ofExcept) s trivial) (fun _ s _ => ?_) (fun _ _ _ => trivial)
      refine Proto.wp_try (respectful_keeps (save_only respectful_saves) s trivial) (fun r s _ => ?_)
      match r with
      | .error e => exact failOrRestoreAfterRunPersist_lawful job st t e s
      | .ok false => exact runSkipped_lawful job st t s
      | .ok true => exact respectful_keeps execute_respectful s trivial

end Worker

/-! ## Every run -/

/-- What holds in every state of a run: the moves so far were lawful, and if no direct restore met a cancelled job, a
won cancel still stands. -/
structure CancelStands (s : Ctx × List (JobEv Party)) : Prop where
  lawful : Admits Lawful s.2
  stands : Admits RestoreSparesCancelled s.2 →
    (CancelWon s.2 → s.1.job.fsm = some .cancelled) ∧ Admits CancelKept s.2

theorem CancelStands.step {s s' : Ctx × List (JobEv Party)} {e : JobEv Party} (hx : Extends s e s') (hl : Lawful s.2 e)
    (h : CancelStands s) : CancelStands s' := by
  refine ⟨by rw [hx.log]; exact h.lawful.append hl, fun hspare => ?_⟩
  rw [hx.log] at hspare ⊢
  obtain ⟨hspare, hspare_e⟩ := hspare.of_append
  obtain ⟨hstands, hkept⟩ := h.stands hspare
  -- a won cancel survives this event, whichever thread performs it
  have hnext : CancelWon s.2 → e.post.job.fsm = some .cancelled := by
    intro hwon
    have hpre : e.pre.job.fsm = some .cancelled := by rw [hx.pre]; exact hstands hwon
    unfold Lawful at hl
    cases ht : e.thread with
    | canceller => rw [ht] at hl; exact hl.terminal .cancelled rfl hpre
    | worker =>
      rw [ht] at hl
      cases hr : e.act.isRestore with
      | false => exact hl.other hr hpre
      | true => exact absurd hpre (hspare_e hwon ht hr)
  refine ⟨fun hwon => ?_, hkept.append (fun hwon _ _ => hnext hwon)⟩
  rw [← hx.post]
  rcases cancelWon_append.1 hwon with hwon | ⟨ht, he⟩
  · exact hnext hwon
  · unfold Lawful at hl
    rw [ht] at hl
    exact hl.cancel he

/-- **A cancel is final exactly when the direct restores spare it**: in every run of `_process` against a concurrent
`cancel`, under every fault, the worker never moves a cancelled job to another state if and only if none of its direct
restores is performed on a job in Cancelled. -/
theorem cancel_final_iff (x : Ctx) {c : RaceConf}
    (hrun : Conf.Runs ((jobSem (fun _ => True)).logged (fun _ _ => True)) (race x) c) :
    Admits CancelKept c.state.2 ↔ Admits RestoreSparesCancelled c.state.2 := by
  have hwp : ∀ i, (finalProto i).wp ((race x).prog i) (fun _ _ => True) (race x).state
    | .worker => Worker.process_lawful _ _
    | .canceller => cancel_lawful _
  have h0 : CancelStands (race x).state := ⟨Admits.nil, fun _ => ⟨(fun ⟨_, hm, _⟩ => nomatch hm), Admits.nil⟩⟩
  have hinv : CancelStands c.state := team_invariant hwp (fun s e s' hx _ hl h => h.step hx hl) h0 hrun
  refine ⟨fun hkept b e a hs hwon ht hr hpre => ?_, fun hspare => (hinv.stands hspare).2⟩
  have hmove : WorkerMove e := by
    have hl := hinv.lawful b e a hs
    unfold Lawful at hl
    rwa [ht] at hl
  have hne := hmove.restore hr
  exact hne (hkept b e a hs hwon ht (fun h => hne (h.trans hpre)))

instance (before : List (JobEv Party)) (e : JobEv Party) : Decidable (CancelKept before e) :=
  inferInstanceAs (Decidable (CancelWon before → e.thread = .worker → _ ≠ _ → _ = _))

instance (before : List (JobEv Party)) (e : JobEv Party) : Decidable (RestoreSparesCancelled before e) :=
  inferInstanceAs (Decidable (CancelWon before → e.thread = .worker → e.act.isRestore → _ ≠ _))

/-- The cancel comes while the workflow runs: the worker finds it, sees the Cancelled row and stops. -/
theorem cancel_final_iff_run : ∃ c, Conf.Runs ((jobSem (fun _ => True)).logged (fun _ _ => True)) (race scheduledCtx) c ∧
    CancelWon c.state.2 ∧ (c.prog .worker).finished.isSome ∧ Admits CancelKept c.state.2 := by
  have hrun : ∃ c, Conf.Runs ((jobSem (fun _ => True)).logged (fun _ _ => True)) (race scheduledCtx) c ∧
      CancelWon c.state.2 ∧ (c.prog .worker).finished.isSome ∧ Admits RestoreSparesCancelled c.state.2 :=
    Conf.exists_runs (turns 15 .worker ++ turns 6 .canceller ++ turns 3 .worker) (fun _ _ _ _ => trivial)
      (by decide +kernel)
  obtain ⟨c, hrun, hwon, hfin, hspare⟩ := hrun
  exact ⟨c, hrun, hwon, hfin, (cancel_final_iff scheduledCtx hrun).2 hspare⟩

/-- **A direct restore over a cancel**: the read before `RUN` raises, the worker sees no cancel, the cancel comes, `FAIL`
is refused on the cancelled job, and Failed is restored over it. -/
theorem force_failed_over_cancelled : ∃ c, Conf.Runs ((jobSem (fun _ => True)).logged (fun _ _ => True))
    (race scheduledCtx) c ∧ ¬ Admits CancelKept c.state.2 :=
  Conf.exists_runs (turns 3 .worker ++ [(.worker, { fault := .raises })] ++ turns 1 .worker ++ turns 3 .canceller ++
    turns 3 .worker) (fun _ _ _ _ => trivial) (by decide +kernel)

end Pypepper
