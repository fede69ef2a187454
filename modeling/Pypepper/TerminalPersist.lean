import Pypepper.JobRules
import Pypepper.JobSys
/-!
# TerminalPersist — whether a terminal outcome is in the row when the call returns

One thread calls `Job.cancel` or `Worker._process`; others put any records into the same store, on which no call fails.
Both calls end with a save whose answer they do not look at, so the outcome is in the row exactly when the put with which
the call ends, if it ends with a put, was not refused over a row that is not terminal
(`terminal_outcome_persisted_iff`).
-/
namespace Pypepper

open Conc (Prog Proto Sem Conf Ev LastBy Extends team team_guar team_stable)

def Ctx.rowTerminal (x : Ctx) : Bool := x.row.any (fun d => terminalText d.status)

def Ctx.fsmTerminal (x : Ctx) : Bool := x.job.fsm.any Status.terminal

inductive Hand where
  | main | other (n : Nat)
  deriving DecidableEq, Repr

inductive TerminalCall where
  | cancel | process

def TerminalCall.prog (job : Ident) : TerminalCall → JobProg Unit
  | .cancel  => Job.cancel
  | .process => Worker.process job

/-- Another writer: its puts, one after the other. -/
def putAll : List JobRecord → JobProg Unit
  | []        => return ()
  | r :: rest => do
    let _ ← Job.do_ (.put r)
    putAll rest

/-- A call among other writers. -/
def amongWriters (call : TerminalCall) (x : Ctx) (others : Nat → List JobRecord) :
    Conf Hand Act Act.Res Exn Unit (Ctx × List (JobEv Hand)) where
  prog
    | .main    => call.prog x.job.ident
    | .other n => putAll (others n)
  state := (x, [])

/-- A put finds no row, a terminal row, or one it may write. -/
def PutLands (e : JobEv Hand) : Prop :=
  ∀ rec ∈ e.act.record, ∀ d ∈ e.pre.row,
    terminalText d.status ∨ putMayWrite (some d.status) (some d.version) rec.status rec.version

/-- After the event the row is terminal, unless it was a put that did not land. -/
def Settled (e : JobEv Hand) : Prop := e.post.rowTerminal = true ↔ PutLands e

/-! ## The protocol -/

/-- The other writers leave the job alone and a terminal row terminal. -/
def WritesOnly (_ : List (JobEv Hand)) (e : JobEv Hand) : Prop :=
  e.thread ≠ .main → e.post.job = e.pre.job ∧ (e.pre.rowTerminal → e.post.rowTerminal)

abbrev writersProto (i : Hand) : Proto Act Act.Res (Ctx × List (JobEv Hand)) :=
  team (jobSem faultFree) (fun _ _ => True) WritesOnly i

theorem Ctx.rowTerminal_iff {x : Ctx} : x.rowTerminal = true ↔ ∃ d, x.row = some d ∧ terminalText d.status = true := by
  rw [rowTerminal, Option.any_eq_true]

theorem putAll_writesOnly (n : Nat) : ∀ (rs : List JobRecord) (s : Ctx × List (JobEv Hand)),
    (writersProto (.other n)).wp (putAll rs) (fun _ _ => True) s
  | [], _ => trivial
  | r :: rs, s => by
    refine Proto.wp_call (P := fun _ => True) (fun _ _ _ _ => trivial) trivial (fun s₁ a s₂ _ hst => ⟨?_, ?_⟩)
    · obtain ⟨c, hc, -, -, hx⟩ := jobSem_step hst.1
      rw [Ctx.exec_put_healthy c r s₁.1 hc] at hx
      refine team_guar hst (fun _ => ⟨by rw [hx], fun ht => ?_⟩)
      obtain ⟨d, hd, ht⟩ := Ctx.rowTerminal_iff.1 ht
      obtain ⟨d', hd', hs⟩ := InMemoryJobStore.get_put_up s₁.1.store r hd
      exact Ctx.rowTerminal_iff.2 ⟨d', by rw [hx]; exact hd', by rw [hs.of_terminal ht]; exact ht⟩
    · exact putAll_writesOnly n rs s₂

theorem main_guar {a : Act} {s s' : Ctx × List (JobEv Hand)} {r : a.Res} (h : (writersProto .main).step a s r s') :
    (writersProto .main).guar s s' :=
  team_guar h (fun hne => absurd rfl hne)

/-- What is only about the job, or the row being terminal, or the caller's last event, no other writer disturbs. -/
theorem main_stable {J : Job → Prop} : (writersProto .main).Stable (fun s => J s.1.job) :=
  team_stable fun s e s' he hx _ hg h => by rw [← hx.post, (hg he).1, hx.pre]; exact h

theorem rowTerminal_stable : (writersProto .main).Stable (fun s => s.1.rowTerminal = true) :=
  team_stable fun s e s' he hx _ hg h => by
    rw [← hx.post]
    exact (hg he).2 (by rw [hx.pre]; exact h)

theorem lastBy_stable {P : JobEv Hand → Prop} : (writersProto .main).Stable (fun s => LastBy .main P s.2) :=
  team_stable fun s e s' he hx _ hg h => by rw [hx.log]; exact h.append he

/-- The call's postcondition: on a normal return with a terminal job, its last event settled the row. -/
def Returned (r : Except Exn Unit) (s : Ctx × List (JobEv Hand)) : Prop :=
  r = .ok () → s.1.fsmTerminal = true → LastBy .main Settled s.2

theorem main_now {a : Act} {s s' : Ctx × List (JobEv Hand)} {r : a.Res} (h : (writersProto .main).step a s r s')
    (hp : a.record = none) (ht : s'.1.rowTerminal = true) : LastBy .main Settled s'.2 := by
  rw [h.2.1]
  refine .now rfl ⟨fun _ rec hrec => ?_, fun _ => ht⟩
  rw [hp] at hrec
  cases hrec

/-- **A save of a terminal job** settles the row. -/
theorem save_settles {v : Status} (hv : v.terminal = true) {s : Ctx × List (JobEv Hand)} (h : s.1.job.fsm = some v) :
    (writersProto .main).wp Job.save (fun _ s => LastBy .main Settled s.2) s := by
  refine wp_save (P := fun s => s.1.job.fsm = some v)
    (B := fun rec s => rec.status = v.value ∧ rec.id = s.1.job.id) (W := fun _ s => s.1.rowTerminal = true)
    (main_stable (J := fun j => j.fsm = some v)) (fun rec => main_stable (J := fun j => rec.status = _ ∧ rec.id = j.id))
    (fun _ => rowTerminal_stable) ?_ ?_ ?_ h
  · intro s rec s' h hst
    obtain ⟨c, -, -, hr, hx⟩ := jobSem_step hst.1
    refine ⟨main_guar hst, ?_, ?_⟩
    · rw [hr]
      exact Job.currentStatus_of_fsm h
    · rw [hr, hx]; rfl
  · rintro rec s r s' ⟨hstatus, hid⟩ hst
    refine ⟨main_guar hst, ?_⟩
    obtain ⟨c, hc, -, hr, hx⟩ := jobSem_step hst.1
    have hlog := hst.2.1
    have hterm : terminalText rec.status = true := terminalText_iff.2 ⟨v, hv, hstatus.symm⟩
    obtain ⟨st, d, hex, hd, hds, -⟩ | ⟨d, hrow, hw, hex⟩ := Ctx.exec_put_own c hc hid
    · rw [hex] at hr hx
      subst hr
      refine Ctx.rowTerminal_iff.2 ⟨d, ?_, by rw [hds]; exact hterm⟩
      rw [hx]
      exact hd
    · -- refused: the row stays as the put found it
      rw [hex] at hr hx
      subst hr
      have hrow' : s'.1.row = some d := by rw [hx]; exact hrow
      have hw' : ¬ putMayWrite (some d.status) (some d.version) rec.status rec.version = true := fun h =>
        hw ((InMemoryJobStore.putMayWrite_iff d rec).1 h)
      rw [hlog]
      refine .now rfl ⟨fun ht q hq d' hd' => .inl ?_, fun hl => ?_⟩
      · obtain rfl := Option.some.inj (hrow.symm.trans hd')
        obtain ⟨d', hd', ht⟩ := Ctx.rowTerminal_iff.1 ht
        obtain rfl := Option.some.inj (hrow'.symm.trans hd')
        exact ht
      · exact Ctx.rowTerminal_iff.2 ⟨d, hrow', (hl rec rfl d hrow).resolve_right hw'⟩
  · rintro rec s r s' ht hst
    refine ⟨main_guar hst, ?_⟩
    obtain ⟨c, hc, -, -, hx⟩ := jobSem_step hst.1
    obtain ⟨d, hd, htd⟩ := Ctx.rowTerminal_iff.1 ht
    have hlast : LastBy .main Settled s'.2 := by
      refine main_now hst rfl (Ctx.rowTerminal_iff.2 ⟨d, ?_, htd⟩)
      rw [hx, Ctx.exec_refresh_some c _ s.1 hc.ne_raises hd]
      exact hd
    cases r with
    | ok u => exact hlast
    | error e => exact hlast

/-! ## The calls -/

theorem main_any {α : Type} (p : JobProg α) (s : Ctx × List (JobEv Hand)) :
    (writersProto .main).wp p (fun _ _ => True) s :=
  Proto.Keeps.only (fun _ _ _ _ => trivial) (fun _ _ _ _ _ _ hst => ⟨main_guar hst, trivial⟩) (.any p) s trivial

theorem main_call {α : Type} {J : Job → Prop} {a : Act} {f : a.Res → JobProg α} {Q : Except Exn α → _ → Prop}
    {s : Ctx × List (JobEv Hand)} (hJ : J s.1.job)
    (h : ∀ c x s₂, J x.job → s₂.1 = (Ctx.exec c a x).2 →
      (s₂.1.rowTerminal = true → a.record = none → LastBy .main Settled s₂.2) →
      (writersProto .main).wp (f (Ctx.exec c a x).1) Q s₂) :
    (writersProto .main).wp (Prog.call a >>= f) Q s :=
  Proto.wp_call (P := fun s => J s.1.job) main_stable hJ fun s₁ r s₂ h₁ hst => by
    obtain ⟨c, -, -, rfl, hx⟩ := jobSem_step hst.1
    exact ⟨main_guar hst, h c s₁.1 s₂ h₁ hx fun ht hp => main_now hst hp ht⟩

theorem getSaved_main {J : Job → Prop} {s : Ctx × List (JobEv Hand)} (hJ : J s.1.job) :
    (writersProto .main).wp Job.getSaved (fun r s => J s.1.job ∧ ∀ o, r = .ok o →
      s.1.row = o ∧ (s.1.rowTerminal = true → LastBy .main Settled s.2)) s := by
  refine main_call hJ (fun c x s₂ h₁ hx hnow => ?_)
  have hx : s₂.1 = x := hx
  show Proto.wp _ (Prog.ofExcept (x.get c.fault)) _ s₂
  unfold Ctx.get
  split
  · exact ⟨by rw [hx]; exact h₁, fun o h => by cases h⟩
  · refine ⟨by rw [hx]; exact h₁, fun o h => ⟨?_, fun ht => hnow ht rfl⟩⟩
    rw [hx]
    exact Except.ok.inj h

theorem applyEventP_reaches {e : Event} {v : Status} (he : ∀ s t, Fsm.target e s = some t → t = v)
    (s : Ctx × List (JobEv Hand)) :
    (writersProto .main).wp (Job.applyEventP e) (fun r s => r = .ok () → s.1.job.fsm = some v) s := by
  refine main_call (J := fun _ => True) trivial (fun c x s₂ _ hx _ => ?_)
  obtain ⟨s₀, t, -, ht, hex⟩ | ⟨-, hex⟩ := Ctx.exec_applyEvent c e x
  · rw [hex] at hx ⊢
    obtain rfl := he s₀ t ht
    exact fun _ => by rw [hx]
  · rw [hex]
    exact fun h => by cases h

namespace Worker

theorem ensureCancelledPersisted_settles {s : Ctx × List (JobEv Hand)} (h : s.1.job.fsm = some .cancelled) :
    (writersProto .main).wp ensureCancelledPersisted (fun r s => r = .ok () → LastBy .main Settled s.2) s := by
  refine Proto.wp_seq (getSaved_main (J := fun j => j.fsm = some .cancelled) h) (fun saved s hs => ?_)
    (fun _ _ _ h => by cases h)
  obtain ⟨hfsm, hrow⟩ := hs
  obtain ⟨hrow, hnow⟩ := hrow saved rfl
  split
  · rename_i hc
    obtain ⟨d, hd, hst⟩ := Option.map_eq_some_iff.1 hc
    exact fun _ => hnow (Ctx.rowTerminal_iff.2 ⟨d, hrow.trans hd, terminalText_iff.2 ⟨.cancelled, rfl, hst.symm⟩⟩)
  · exact Proto.wp_seq (save_settles rfl hfsm) (fun _ _ h _ => h) (fun _ _ h _ => h)

theorem ensureCancelledPersistedLogged_settles {s : Ctx × List (JobEv Hand)} (h : s.1.job.fsm = some .cancelled) :
    (writersProto .main).wp ensureCancelledPersistedLogged (fun r s => r = .ok () → LastBy .main Settled s.2) s := by
  unfold ensureCancelledPersistedLogged
  rw [Proto.wp_tryExcept]
  refine Proto.wp_mono (fun r s h => ?_) _ _ (ensureCancelledPersisted_settles h)
  cases r with
  | ok u => exact h
  | error e => exact fun h => by cases h

theorem transitionAndSaveTerminal_settles {e : Event} {v : Status} (hv : v.terminal = true)
    (he : ∀ s t, Fsm.target e s = some t → t = v) (s : Ctx × List (JobEv Hand)) :
    (writersProto .main).wp (transitionAndSaveTerminal e)
      (fun r s => r = .ok () → LastBy .main Settled s.2) s := by
  refine Proto.wp_seq (applyEventP_reaches he s) (fun _ s hs => ?_) (fun _ _ _ h => by cases h)
  exact Proto.wp_seq (save_settles hv (hs rfl)) (fun _ _ h _ => h) (fun _ _ _ h => by cases h)

end Worker

theorem cancel_settles (s : Ctx × List (JobEv Hand)) :
    (writersProto .main).wp Job.cancel (fun r s => r = .ok () → LastBy .main Settled s.2) s := by
  refine main_call (J := fun _ => True) trivial (fun _ _ s _ _ _ => ?_)
  refine main_call (J := fun _ => True) trivial (fun _ _ s _ _ _ => ?_)
  exact Worker.transitionAndSaveTerminal_settles (v := .cancelled) rfl (fun s t h => (Fsm.target_cancel h).1) s

namespace Worker

theorem failOrRestoreAfterRunPersist_throws (job : Ident) (st : Option Status) (t : String) (e : Exn)
    (s : Ctx × List (JobEv Hand)) :
    (writersProto .main).wp (failOrRestoreAfterRunPersist job st t e) (fun r _ => r ≠ .ok ()) s := by
  refine Proto.wp_try (main_any _ s) (fun r s _ => ?_)
  cases r with
  | ok u => exact fun h => by cases h
  | error e' =>
    refine main_call (J := fun _ => True) trivial (fun c x s _ _ _ => ?_)
    split
    · exact Proto.wp_seq (main_any _ s) (fun _ _ _ h => by cases h) (fun _ _ _ h => by cases h)
    · refine main_call (J := fun _ => True) trivial (fun _ _ s _ _ _ => ?_)
      exact Proto.wp_seq (main_any _ s) (fun _ _ _ h => by cases h) (fun _ _ _ h => by cases h)

/-- Following a row reported terminal, the row still is; following one in progress, the job is not terminal. -/
theorem followDurableStatus_settles (t : String) {s : Ctx × List (JobEv Hand)}
    (h : terminalText t = true → s.1.rowTerminal = true) : (writersProto .main).wp (followDurableStatus t) Returned s := by
  unfold followDurableStatus
  cases hv : Status.ofValue t with
  | none => exact fun h => by cases h
  | some v =>
    have hst : (writersProto .main).Stable (fun s => terminalText t = true → s.1.rowTerminal = true) :=
      fun s s' hr hs ht => rowTerminal_stable s s' hr (hs ht)
    refine Proto.wp_act hst h (fun s₁ r s₂ h₁ hstep => ⟨main_guar hstep, fun _ hterm => ?_⟩)
    obtain ⟨c, -, -, -, hx⟩ := jobSem_step hstep.1
    have hv' : v.terminal = true := by simpa [Ctx.fsmTerminal, hx, Ctx.exec] using hterm
    have hrow : s₁.1.rowTerminal = true := h₁ (terminalText_iff.2 ⟨v, hv', Status.value_of_ofValue hv⟩)
    exact main_now hstep rfl (by rw [hx]; exact hrow)

theorem runSkipped_settles (job : Ident) (st : Option Status) (t : String) (s : Ctx × List (JobEv Hand)) :
    (writersProto .main).wp (runSkipped job st t) Returned s := by
  refine Proto.wp_seq (getSaved_main (J := fun _ => True) trivial) (fun durable s hs => ?_) (fun _ _ _ h => by cases h)
  obtain ⟨hrow, -⟩ := hs.2 durable rfl
  dsimp only
  split
  · refine main_call (J := fun _ => True) trivial (fun c x s _ hx _ => ?_)
    split
    · rename_i hc
      have hfsm : s.1.job.fsm = some .cancelled := by
        rw [hx]
        exact (Job.isCancelled_iff x.job).1 hc
      exact Proto.wp_mono (fun _ _ h hr _ => h hr) _ _ (ensureCancelledPersistedLogged_settles hfsm)
    · refine Proto.wp_seq (applyEventP_reaches (fun _ _ h => (Fsm.target_cancel h).1) s) (fun _ s hs => ?_)
        (fun _ _ _ h => by cases h)
      exact Proto.wp_mono (fun _ _ h hr _ => h hr) _ _ (ensureCancelledPersistedLogged_settles (hs rfl))
  · split
    · rename_i t' hf
      obtain ⟨hd, -⟩ := Option.filter_eq_some_iff.1 hf
      obtain ⟨d, hd, hstatus⟩ := Option.map_eq_some_iff.1 hd
      refine followDurableStatus_settles t' (fun ht => Ctx.rowTerminal_iff.2 ⟨d, hrow.trans hd, ?_⟩)
      rw [hstatus]
      exact ht
    · exact Proto.wp_mono (fun _ _ h hr => absurd hr h) _ _ (failOrRestoreAfterRunPersist_throws job st t _ s)

theorem cancelled_settles {x : Ctx} {s : Ctx × List (JobEv Hand)} (hb : x.job.isCancelled = true)
    (hx : s.1 = x) :
    (writersProto .main).wp ensureCancelledPersistedLogged (fun r s => r = .ok () → LastBy .main Settled s.2) s := by
  refine ensureCancelledPersistedLogged_settles ?_
  rw [hx]
  exact (Job.isCancelled_iff x.job).1 hb

theorem runWorkflows_settles : ∀ (ws : List Workflow) (i : Nat) (s : Ctx × List (JobEv Hand)),
    (writersProto .main).wp (runWorkflows ws i) (fun r s => r = .ok true → LastBy .main Settled s.2) s
  | [], _, _ => fun h => by cases h
  | _ :: ws, i, s => by
    refine main_call (J := fun _ => True) trivial (fun c x s _ hx _ => ?_)
    split
    · rename_i hc
      exact Proto.wp_seq (cancelled_settles hc hx) (fun _ _ h _ => h rfl) (fun _ _ _ h => by cases h)
    · refine main_call (J := fun _ => True) trivial (fun _ _ s _ _ _ => ?_)
      exact Proto.wp_seq (main_any _ s) (fun _ s _ => runWorkflows_settles ws (i + 1) s) (fun _ _ _ h => by cases h)

theorem execute_settles (s : Ctx × List (JobEv Hand)) : (writersProto .main).wp execute Returned s := by
  refine Proto.wp_try (M := fun r s => r = .ok true → LastBy .main Settled s.2) ?_ (fun r s hM => ?_)
  · refine main_call (J := fun _ => True) trivial (fun c x s _ _ _ => ?_)
    refine main_call (J := fun _ => True) trivial (fun _ _ s _ _ _ => ?_)
    exact runWorkflows_settles _ 0 s
  · match r, hM with
    | .error e, _ =>
      show (writersProto .main).wp (if e.isException then workflowFailed e else Prog.raise e) Returned s
      split
      · refine main_call (J := fun _ => True) trivial (fun c x s _ hx _ => ?_)
        split
        · rename_i hc
          exact Proto.wp_mono (fun _ _ h hr _ => h hr) _ _ (cancelled_settles hc hx)
        · exact Proto.wp_seq (main_any _ s) (fun _ _ _ h => by cases h) (fun _ _ _ h => by cases h)
      · exact fun h => by cases h
    | .ok true, hM => exact fun _ _ => hM rfl
    | .ok false, _ =>
      refine main_call (J := fun _ => True) trivial (fun c x s _ hx _ => ?_)
      split
      · rename_i hc
        exact Proto.wp_mono (fun _ _ h hr _ => h hr) _ _ (cancelled_settles hc hx)
      · exact Proto.wp_mono (fun _ _ h hr _ => h hr) _ _
          (transitionAndSaveTerminal_settles (v := .completed) rfl (fun s t => Fsm.target_complete) s)

theorem process_settles (job : Ident) (s : Ctx × List (JobEv Hand)) :
    (writersProto .main).wp (process job) Returned s := by
  have hfail : ∀ st t e s, (writersProto .main).wp (failOrRestoreAfterRunPersist job st t e) Returned s := fun st t e s =>
    Proto.wp_mono (fun _ _ h hr => absurd hr h) _ _ (failOrRestoreAfterRunPersist_throws job st t e s)
  refine main_call (J := fun _ => True) trivial (fun c x s _ hx _ => ?_)
  split
  · rename_i hc
    exact Proto.wp_mono (fun _ _ h hr _ => h hr) _ _ (cancelled_settles hc hx)
  · refine main_call (J := fun _ => True) trivial (fun _ _ s _ _ _ => ?_)
    refine main_call (J := fun _ => True) trivial (fun _ _ s _ _ _ => ?_)
    refine Proto.wp_try (main_any _ s) (fun r s _ => ?_)
    match r with
    | .error e => exact hfail _ _ e s
    | .ok () =>
      refine Proto.wp_seq (main_any _ s) (fun _ s _ => ?_) (fun _ _ _ h => by cases h)
      refine Proto.wp_try (main_any _ s) (fun r s _ => ?_)
      match r with
      | .error e => exact hfail _ _ e s
      | .ok false => exact runSkipped_settles job _ _ s
      | .ok true => exact execute_settles s

end Worker

/-- **Exactly when a terminal outcome is in the row**: whenever `cancel` has returned, or `_process` has returned and left
the job terminal, then, at the event with which it returned, the row was terminal if and only if that event was not a put
which found a row neither terminal nor its to write. -/
theorem terminal_outcome_persisted_iff (call : TerminalCall) (x : Ctx) (others : Nat → List JobRecord)
    {c : Conf Hand Act Act.Res Exn Unit (Ctx × List (JobEv Hand))}
    (hrun : Conf.Runs ((jobSem faultFree).logged (fun _ _ => True)) (amongWriters call x others) c)
    (hret : (c.prog .main).finished = some (.ok ())) (hterm : call = .cancel ∨ c.state.1.fsmTerminal = true) :
    LastBy .main (fun e => e.post.rowTerminal = true ↔ PutLands e) c.state.2 := by
  let post : Hand → Except Exn Unit → Ctx × List (JobEv Hand) → Prop := fun i r s =>
    i = .main → r = .ok () → (call = .cancel ∨ s.1.fsmTerminal = true) → LastBy .main Settled s.2
  have hwp : ∀ i, (writersProto i).wp ((amongWriters call x others).prog i) (post i) (amongWriters call x others).state
    | .other n => Proto.wp_mono (fun _ _ _ h => by cases h) _ _ (putAll_writesOnly n (others n) _)
    | .main => by
      cases call with
      | cancel => exact Proto.wp_mono (fun _ _ h _ hr _ => h hr) _ _ (cancel_settles _)
      | process =>
        exact Proto.wp_mono (fun _ _ h _ hr ht => h hr (ht.resolve_left (by simp))) _ _ (Worker.process_settles _ _)
  have hstable : (writersProto .main).Stable (post .main (.ok ())) := by
    intro s s' hr h hmain hok ht
    refine lastBy_stable s s' hr (h hmain hok (ht.imp_right fun ht => ?_))
    obtain ⟨e, he, hx, -, hg⟩ := hr
    have hjob : s'.1.job = s.1.job := by rw [← hx.post, (hg he).1, hx.pre]
    rwa [Ctx.fsmTerminal, hjob] at ht
  exact ((Conf.Held.init hwp).runs Conc.team_compat hrun).post hret hstable rfl rfl hterm

/-- A job processed to its end. -/
theorem terminal_outcome_persisted_iff_run : ∃ c,
    Conf.Runs ((jobSem faultFree).logged (fun _ _ => True)) (amongWriters .process scheduledCtx (fun _ => [])) c ∧
    (c.prog .main).finished = some (.ok ()) ∧ c.state.1.fsmTerminal = true ∧ c.state.1.rowTerminal = true ∧
    LastBy .main (fun e => e.post.rowTerminal = true ↔ PutLands e) c.state.2 := by
  have hrun : ∃ c,
      Conf.Runs ((jobSem faultFree).logged (fun _ _ => True)) (amongWriters .process scheduledCtx (fun _ => [])) c ∧
      (c.prog .main).finished = some (.ok ()) ∧ c.state.1.fsmTerminal = true ∧ c.state.1.rowTerminal = true :=
    exists_jobRuns (turns 21 .main) (by decide) (by decide +kernel)
  obtain ⟨c, hrun, hret, hfsm, hrow⟩ := hrun
  exact ⟨c, hrun, hret, hfsm, hrow, terminal_outcome_persisted_iff .process _ _ hrun hret (.inr hfsm)⟩

/-- **A silent loss**: another writer updates the Scheduled row, `cancel` is refused and returns, and the row stays
Scheduled under a cancelled job. -/
theorem cancel_returns_unpersisted : ∃ c,
    Conf.Runs ((jobSem faultFree).logged (fun _ _ => True))
      (amongWriters .cancel savedCtx (fun _ => [savedCtx.job.record "t1"])) c ∧
    (c.prog .main).finished = some (.ok ()) ∧ c.state.1.fsmTerminal = true ∧ c.state.1.rowTerminal = false :=
  exists_jobRuns (turns 1 (.other 0) ++ turns 5 .main) (by decide) (by decide +kernel)

end Pypepper
