import Pypepper.Redelivery
import Pypepper.WorkerPool
/-!
# PoolOutcome — what becomes of the jobs of a pool

A pool whose store works and whose jobs others leave alone once a worker has one.  Each job is Scheduled when it is sent,
over no row or the Scheduled one of its version.  However the workers interleave, a job that one of them started has its
workflows started and ended one after another, each once, up to the first that raises; the job and its row then end
Completed, or Failed after the raise, and no worker ends by an exception (`pool_outcome`).

What a worker does to its own job does not depend on the channel or on other jobs' rows, which is its `rely`; that it sends
nothing and writes no other row is its `guar`.
-/
namespace Pypepper

open Conc (Prog Proto)
open Relation (ReflTransGen)

/-- The start or the end of a workflow. -/
inductive Mark where
  | starts (i : Nat)
  | ends (i : Nat) (outcome : Except Exn Unit)

/-- What an action shows of the workflows. -/
def Act.mark : (a : Act) → a.Res → Option Mark
  | .startWorkflow i, _ => some (.starts i)
  | .endWorkflow i,   r => some (.ends i r)
  | _,                _ => none

/-- The first `k` workflows, one after another. -/
def ran (k : Nat) : List Mark := (List.range k).flatMap fun i => [.starts i, .ends i (.ok ())]

theorem ran_succ (k : Nat) : ran (k + 1) = ran k ++ [.starts k, .ends k (.ok ())] := by
  rw [ran, ran, List.range_succ, List.flatMap_append]
  rfl

/-- An outcome a workflow may have: it raises nothing of the scheduler's, and nothing that its await changes. -/
def workflowOnly : Except Exn Unit → Bool
  | .ok ()                 => true
  | .error (.workflow _)   => true
  | .error _               => false

theorem toThread_of_workflowOnly {r : Except Exn Unit} (h : workflowOnly r = true) : toThread r = r := by
  match r, h with
  | .ok (), _ => rfl
  | .error (.workflow _), _ => rfl

/-- The store works. -/
def Choice.Calm (c : Choice) : Prop := c.fault = .none ∧ workflowOnly c.outcome = true

instance : DecidablePred Choice.Calm := fun c => inferInstanceAs (Decidable (c.fault = .none ∧ _ = true))

/-- A Scheduled job over no row, or over the Scheduled one of its version. -/
structure Startable (x : Ctx) : Prop where
  fsm    : x.job.fsm = some .scheduled
  agrees : Agrees x

/-- What a settled job shows: all its workflows ran, or one raised and no further one was started. -/
inductive JobDone (x : Ctx) (l : List Mark) : Prop
  | completed : x.job.fsm = some .completed → (∃ d, x.row = some d ∧ d.status = Status.completed.value) →
      l = ran x.job.workflows.length → JobDone x l
  | failed (k : Nat) (msg : String) : x.job.fsm = some .failed → (∃ d, x.row = some d ∧ d.status = Status.failed.value) →
      k < x.job.workflows.length → l = ran k ++ [.starts k, .ends k (.error (.workflow msg))] → JobDone x l

/-! ## One worker on its job -/

/-- A job's context, and what its workflows have shown. -/
abbrev Showing := Ctx × List Mark

/-- The others leave the job and its row; the worker leaves the channel and the other rows. -/
def ownProto : Proto Act Act.Res Showing where
  step a s r s' := ∃ c : Choice, c.Calm ∧ Ctx.exec c a s.1 = (r, s'.1) ∧ s'.2 = s.2 ++ (a.mark r).toList
  rely s s' := s'.1.job = s.1.job ∧ s'.1.row = s.1.row ∧ s'.2 = s.2
  guar s s' := s'.1.chan = s.1.chan ∧ s'.1.job.ref = s.1.job.ref ∧ s'.1.job.id = s.1.job.id ∧
    ∀ id, id ≠ s.1.job.id → s'.1.store.get id = s.1.store.get id

/-- The job at `v` with `n` workflows, its row at `w` and its own version, and what they have shown. -/
structure Owns (n : Nat) (v : Status) (w : Option Status) (l : List Mark) (s : Showing) : Prop where
  fsm   : s.1.job.fsm = some v
  count : s.1.job.workflows.length = n
  row   : RowAt w s.1
  marks : s.2 = l

theorem RowAt.congr {w : Option Status} {x x' : Ctx} (hjob : x'.job.version = x.job.version) (hrow : x'.row = x.row)
    (h : RowAt w x) : RowAt w x' := by
  cases w with
  | none => exact hrow.trans h
  | some w =>
    obtain ⟨d, hd, hs, hv⟩ := h
    exact ⟨d, hrow.trans hd, hs, hv.trans hjob.symm⟩

section
variable {n : Nat} {v u : Status} {w : Option Status} {l : List Mark} {s s' : Showing}

theorem Owns.stable : ownProto.Stable (Owns n v w l) := by
  rintro s s' ⟨hjob, hrow, hmarks⟩ h
  exact ⟨by rw [hjob]; exact h.fsm, by rw [hjob]; exact h.count, h.row.congr (by rw [hjob]) hrow, hmarks.trans h.marks⟩

/-- An action on the worker's own job keeps the guarantee. -/
theorem own_guar {a : Act} {r : a.Res} (h : ownProto.step a s r s') (hs : a ≠ .send) (hr : a ≠ .receive)
    (hf : ∀ ws, a ≠ .fromRecord ws) (hp : ∀ rec, a = .put rec → rec.id = s.1.job.id) : ownProto.guar s s' := by
  obtain ⟨c, hc, hx, -⟩ := h
  obtain ⟨x, l'⟩ := s'
  obtain rfl : (Ctx.exec c a s.1).2 = x := by rw [hx]
  have hframe := Ctx.exec_frame c a s.1 hf
  refine ⟨Ctx.exec_chan c a s.1 hs hr, hframe.ref, hframe.id, fun id hid => ?_⟩
  by_cases hput : ∃ rec, a = .put rec
  · obtain ⟨rec, rfl⟩ := hput
    rw [Ctx.exec_put_healthy c rec s.1 hc.1]
    exact InMemoryJobStore.get_put_of_ne s.1.store rec (by rw [hp rec rfl]; exact hid)
  · rw [Ctx.exec_store c a s.1 fun rec h => hput ⟨rec, h⟩]

/-- A passive action, the version refresh apart. -/
theorem Owns.passive {a : Act} {r : a.Res} (h : Owns n v w l s) (hst : ownProto.step a s r s') (ha : a.passive = true)
    (hv : ∀ u, a ≠ .refresh u) : ownProto.guar s s' ∧ Owns n v w (l ++ (a.mark r).toList) s' := by
  have hg : ownProto.guar s s' := own_guar hst (by rintro rfl; cases ha) (by rintro rfl; cases ha)
    (by rintro ws rfl; cases ha) (by rintro rec rfl; cases ha)
  obtain ⟨c, -, hx, hmarks⟩ := hst
  obtain ⟨x, l'⟩ := s'
  obtain rfl : (Ctx.exec c a s.1).2 = x := by rw [hx]
  have hsame := Ctx.exec_passive c s.1 ha
  refine ⟨hg, hsame.fsm.trans h.fsm, hsame.frame.workflows.trans h.count, h.row.congr ?_ hsame.row, ?_⟩
  · exact Ctx.exec_version c a s.1 hv (by rintro ws rfl; cases ha)
  · rw [← h.marks]
    exact hmarks

theorem own_call {α : Type} {a : Act} (ha : a.passive = true) (hv : ∀ u, a ≠ .refresh u) {f : a.Res → JobProg α}
    {Q : Except Exn α → Showing → Prop} (h : Owns n v w l s)
    (hk : ∀ (c : Choice) (s₁ s₂ : Showing), c.Calm → Owns n v w l s₁ → Ctx.exec c a s₁.1 = ((Ctx.exec c a s₁.1).1, s₂.1) →
      Owns n v w (l ++ (a.mark (Ctx.exec c a s₁.1).1).toList) s₂ → ownProto.wp (f (Ctx.exec c a s₁.1).1) Q s₂) :
    ownProto.wp (Prog.call a >>= f) Q s :=
  Proto.wp_call Owns.stable h fun s₁ r s₂ h₁ hst => by
    obtain ⟨hg, h₂⟩ := h₁.passive hst ha hv
    obtain ⟨c, hc, hx, -⟩ := hst
    obtain rfl : (Ctx.exec c a s₁.1).1 = r := by rw [hx]
    exact ⟨hg, hk c s₁ s₂ hc h₁ hx h₂⟩

theorem Owns.check (h : Owns n v w l s) (hv : v ≠ .cancelled) (c : Choice) : (Ctx.exec c .isCancelled s.1).1 = false := by
  refine Bool.eq_false_iff.2 fun hc => hv ?_
  have hfsm := (Job.isCancelled_iff s.1.job).1 hc
  rw [h.fsm] at hfsm
  exact Option.some.inj hfsm

/-- `_is_cancelled` of a job that is not. -/
theorem own_check {α : Type} {f : Bool → JobProg α} {Q : Except Exn α → Showing → Prop} (h : Owns n v w l s)
    (hv : v ≠ .cancelled) (hk : ∀ s, Owns n v w l s → ownProto.wp (f false) Q s) :
    ownProto.wp (Prog.call .isCancelled >>= f) Q s :=
  own_call rfl (by simp) h fun c s₁ s₂ _ h₁ _ h₂ => by
    rw [h₁.check hv c]
    change Owns n v w (l ++ []) s₂ at h₂
    rw [List.append_nil] at h₂
    exact hk s₂ h₂

theorem own_start {α : Type} {k : Nat} {f : Unit → JobProg α} {Q : Except Exn α → Showing → Prop} (h : Owns n v w l s)
    (hk : ∀ s, Owns n v w (l ++ [.starts k]) s → ownProto.wp (f ()) Q s) :
    ownProto.wp (Prog.call (.startWorkflow k) >>= f) Q s :=
  Proto.wp_call Owns.stable h fun s₁ r s₂ h₁ hst => by
    have hg := own_guar hst (by simp) (by simp) (by simp) (by simp)
    obtain ⟨c, -, hx, hmarks⟩ := hst
    obtain ⟨x, l'⟩ := s₂
    cases hx
    refine ⟨hg, hk _ ⟨h₁.fsm, h₁.count, h₁.row, ?_⟩⟩
    rw [← h₁.marks]
    exact hmarks

theorem own_event {e : Event} (h : Owns n v w l s) (ht : Fsm.target e v = some u) :
    ownProto.wp (Job.applyEventP e) (fun r s => r = .ok () ∧ Owns n u w l s) s := by
  refine Proto.wp_act Owns.stable h (fun s₁ r s₂ h₁ hst => ?_)
  have hg := own_guar hst (by simp) (by simp) (by simp) (by simp)
  obtain ⟨c, -, hx, hmarks⟩ := hst
  rw [Ctx.exec_applyEvent_some c h₁.fsm ht] at hx
  obtain ⟨x, l'⟩ := s₂
  cases hx
  refine ⟨hg, rfl, rfl, h₁.count, h₁.row.congr rfl rfl, ?_⟩
  rw [← h₁.marks]
  exact hmarks.trans (List.append_nil _)

/-- **A save over an agreeing row is applied**, and the row agrees again. -/
theorem own_save (hw : ∀ w', w = some w' → StatusLe w'.value v.value) (h : Owns n v w l s) :
    ownProto.wp Job.save (fun r s => r = .ok true ∧ Owns n v (some v) l s) s := by
  refine wp_save (P := Owns n v w l)
    (B := fun rec s => Owns n v w l s ∧ rec.id = s.1.job.id ∧ rec.status = v.value ∧ rec.version = s.1.job.version)
    (W := fun _ s => (s.1.job.fsm = some v ∧ s.1.job.workflows.length = n ∧ s.2 = l) ∧
      ∃ d, s.1.row = some d ∧ d.status = v.value)
    Owns.stable (fun rec => ?_) (fun rec => ?_) ?_ ?_ ?_ h
  · refine Owns.stable.and ?_
    rintro s s' ⟨hjob, -, -⟩ h
    rw [hjob]
    exact h
  · rintro s s' ⟨hjob, hrow, hmarks⟩ h
    rw [hjob, hrow, hmarks]
    exact h
  · intro s rec s' h hst
    obtain ⟨hg, h'⟩ := h.passive hst rfl (by simp)
    obtain ⟨c, -, hx, -⟩ := hst
    obtain ⟨x, l'⟩ := s'
    cases hx
    refine ⟨hg, by simpa [Act.mark] using h', rfl, Job.currentStatus_of_fsm h.fsm, rfl⟩
  · rintro rec s r s' ⟨h, hid, hst, hver⟩ hstep
    have hg := own_guar hstep (by simp) (by simp) (by simp) (by rintro _ ⟨⟩; exact hid)
    obtain ⟨c, hc, hx, hmarks⟩ := hstep
    obtain ⟨x, l'⟩ := s'
    have hl : l' = l := hmarks.trans ((List.append_nil _).trans h.marks)
    refine ⟨hg, ?_⟩
    obtain ⟨st, d, hput, hd, hds, -⟩ | ⟨d₀, hd₀, hnw, -⟩ := Ctx.exec_put_own c hc.1 hid
    · rw [hput] at hx
      cases hx
      exact ⟨⟨h.fsm, h.count, hl⟩, d, hd, hds.trans hst⟩
    · refine absurd ?_ hnw
      have hrow := h.row
      cases w with
      | none =>
        rw [RowAt, hd₀] at hrow
        cases hrow
      | some w =>
        obtain ⟨d, hd, hs, hv⟩ := hrow
        obtain rfl := Option.some.inj (hd.symm.trans hd₀)
        exact ⟨by rw [hs, hst]; exact hw w rfl, hv.trans hver.symm⟩
  · rintro rec s r s' ⟨⟨hf, hcount, hl⟩, d, hd, hds⟩ hstep
    have hg := own_guar hstep (by simp) (by simp) (by simp) (by simp)
    obtain ⟨c, hc, hx, hmarks⟩ := hstep
    obtain ⟨x, l'⟩ := s'
    rw [Ctx.exec_refresh_some c rec.updated s.1 (by rw [hc.1]; simp) hd] at hx
    cases hx
    exact ⟨hg, rfl, hf, hcount, ⟨d, hd, hds, rfl⟩, hmarks.trans ((List.append_nil _).trans hl)⟩

theorem own_getSaved (h : Owns n v w l s) :
    ownProto.wp Job.getSaved (fun r s => r = .ok s.1.row ∧ Owns n v w l s) s := by
  refine own_call rfl (by simp) h fun c s₁ s₂ hc _ hx h₂ => ?_
  rw [Ctx.exec_getSaved_healthy c s₁.1 hc.1] at hx ⊢
  obtain ⟨x, l'⟩ := s₂
  cases hx
  exact ⟨rfl, h₂.fsm, h₂.count, h₂.row, h₂.marks.trans (List.append_nil _)⟩

theorem own_heal (job : Ident) (hw : ∀ w', w = some w' → w' = .scheduled) (h : Owns n .scheduled w l s) :
    ownProto.wp (Worker.heal job) (fun r s => r = .ok () ∧ Owns n .scheduled (some .scheduled) l s) s := by
  refine Proto.wp_seq (own_getSaved h) (fun saved s h => ?_) (fun _ _ h => by cases h.1)
  obtain ⟨hr, h⟩ := h
  obtain rfl := Except.ok.inj hr
  cases w with
  | none =>
    have hrow : s.1.row = none := h.row
    rw [hrow]
    refine Proto.wp_seq (own_save (by simp) h) (fun applied s h => ?_) (fun _ _ h => by cases h.1)
    obtain ⟨hr, h⟩ := h
    obtain rfl := Except.ok.inj hr
    exact ⟨rfl, h⟩
  | some w =>
    obtain rfl := hw w rfl
    obtain ⟨d, hd, -⟩ := h.row
    rw [hd]
    exact ⟨rfl, h⟩

/-- What the loop over the workflows ends with. -/
def LoopEnds (n : Nat) (r : Except Exn Bool) (s : Showing) : Prop :=
  (r = .ok false ∧ Owns n .inProgress (some .inProgress) (ran n) s) ∨
    ∃ k msg, k < n ∧ r = .error (.workflow msg) ∧
      Owns n .inProgress (some .inProgress) (ran k ++ [.starts k, .ends k (.error (.workflow msg))]) s

/-- **The workflows run one after another**, to the end or to the first that raises. -/
theorem own_runWorkflows : ∀ (ws : List Workflow) (k : Nat) {s : Showing},
    Owns (k + ws.length) .inProgress (some .inProgress) (ran k) s →
      ownProto.wp (Worker.runWorkflows ws k) (LoopEnds (k + ws.length)) s
  | [], k, s, h => .inl ⟨rfl, h⟩
  | _ :: ws, k, s, h => by
    refine own_check h (by simp) fun s h => ?_
    refine own_start h fun s h => ?_
    have hlen : k + (ws.length + 1) = k + 1 + ws.length := by omega
    refine Proto.wp_seq (M := fun r s => ∃ o, workflowOnly o = true ∧ r = o ∧
      Owns (k + (ws.length + 1)) .inProgress (some .inProgress) (ran k ++ [.starts k, .ends k o]) s) ?_ (fun _ s h => ?_)
      (fun e s h => ?_)
    · refine own_call rfl (by simp) h fun c s₁ s₂ hc _ _ h => ?_
      have hout : (Ctx.exec c (.endWorkflow k) s₁.1).1 = c.outcome := toThread_of_workflowOnly hc.2
      rw [hout] at h ⊢
      change Owns _ _ _ ((ran k ++ [.starts k]) ++ [.ends k c.outcome]) s₂ at h
      rw [List.append_assoc] at h
      have hcalm := hc.2
      generalize c.outcome = o at hcalm h
      cases o with
      | error e => exact ⟨_, hcalm, rfl, h⟩
      | ok u => exact ⟨_, hcalm, rfl, h⟩
    · obtain ⟨o, -, rfl, h⟩ := h
      rw [hlen, ← ran_succ] at h
      rw [List.length_cons, hlen]
      exact own_runWorkflows ws (k + 1) h
    · obtain ⟨o, hcalm, rfl, h⟩ := h
      cases e with
      | workflow msg => exact .inr ⟨k, msg, by simp, rfl, h⟩
      | _ => cases hcalm

/-- The worker's end: it returned, or raised what the workflow raised. -/
def ProcessEnds (r : Except Exn Unit) (s : Showing) : Prop := workflowOnly r = true ∧ JobDone s.1 s.2

theorem Owns.completed (h : Owns n .completed (some .completed) (ran n) s) : ProcessEnds (.ok ()) s := by
  obtain ⟨d, hd, hs, -⟩ := h.row
  exact ⟨rfl, .completed h.fsm ⟨d, hd, hs⟩ (by rw [h.marks, h.count])⟩

theorem Owns.failed {k : Nat} {msg : String} (hk : k < n)
    (h : Owns n .failed (some .failed) (ran k ++ [.starts k, .ends k (.error (.workflow msg))]) s) :
    ProcessEnds (.error (.workflow msg)) s := by
  obtain ⟨d, hd, hs, -⟩ := h.row
  exact ⟨rfl, .failed k msg h.fsm ⟨d, hd, hs⟩ (by rw [h.count]; exact hk) h.marks⟩

theorem own_terminal {e : Event} (ht : Fsm.target e .inProgress = some v) (hv : StatusLe Status.inProgress.value v.value)
    (h : Owns n .inProgress (some .inProgress) l s) :
    ownProto.wp (Worker.transitionAndSaveTerminal e) (fun r s => r = .ok () ∧ Owns n v (some v) l s) s := by
  refine Proto.wp_seq (own_event h ht) (fun _ s h => ?_) (fun _ _ h => by cases h.1)
  refine Proto.wp_seq (own_save (fun w' hw => ?_) h.2) (fun _ _ h => ⟨rfl, h.2⟩) (fun _ _ h => by cases h.1)
  obtain rfl := Option.some.inj hw
  exact hv

theorem own_execute (h : Owns n .inProgress (some .inProgress) [] s) : ownProto.wp Worker.execute ProcessEnds s := by
  refine Proto.wp_try (M := LoopEnds n) ?_ (fun r s h => ?_)
  · refine own_call rfl (by simp) h fun c s₁ s₂ _ h₁ _ h => ?_
    refine own_call rfl (by simp) h fun _ _ s₃ _ _ _ h => ?_
    have hn : n = 0 + (Ctx.exec c .workflows s₁.1).1.length := by
      rw [Nat.zero_add]
      exact h₁.count.symm
    rw [hn] at h ⊢
    exact own_runWorkflows _ 0 h
  · rcases h with ⟨rfl, h⟩ | ⟨k, msg, hk, rfl, h⟩
    · refine own_check h (by simp) fun s h => ?_
      refine Proto.wp_mono (fun r s h => ?_) _ _ (own_terminal (e := .complete) rfl (statusLe_value.2 (by decide)) h)
      rw [h.1]
      exact h.2.completed
    · refine own_check h (by simp) fun s h => ?_
      refine Proto.wp_try (own_terminal (e := .fail) rfl (statusLe_value.2 (by decide)) h) (fun r s h => ?_)
      exact h.2.failed hk

theorem own_runAndExecute (job : Ident) (st : Option Status) (t : String)
    (h : Owns n .scheduled (some .scheduled) [] s) : ownProto.wp (Worker.runAndExecute job st t) ProcessEnds s := by
  refine Proto.wp_seq (own_event (e := .run) h rfl) (fun _ s h => ?_) (fun _ _ h => by cases h.1)
  refine Proto.wp_try (own_save (fun w' hw => ?_) h.2) (fun r s ⟨hr, h⟩ => ?_)
  · obtain rfl := Option.some.inj hw
    exact statusLe_value.2 (by decide)
  · subst hr
    exact own_execute h

/-- **A worker on a ready job**, whatever happens to the channel and the other jobs meanwhile, settles it. -/
theorem own_process (job : Ident) {x : Ctx} (h : Startable x) :
    ownProto.wp (Worker.process job) ProcessEnds (x, []) := by
  obtain ⟨w, hw, hrow⟩ : ∃ w, (∀ w', w = some w' → w' = .scheduled) ∧ RowAt w x := by
    cases hd : x.row with
    | none => exact ⟨none, by simp, hd⟩
    | some d => exact ⟨some .scheduled, by simp, d, hd, h.agrees d hd⟩
  have h₀ : Owns x.job.workflows.length .scheduled w [] (x, []) := ⟨h.fsm, rfl, hrow, rfl⟩
  refine own_check h₀ (by simp) fun s h => ?_
  refine own_call rfl (by simp) h fun c s₁ s₂ _ _ _ h => ?_
  refine own_call rfl (by simp) h fun c' s₃ s₄ _ _ _ h => ?_
  refine Proto.wp_try (own_heal job hw h) (fun r s ⟨hr, h⟩ => ?_)
  subst hr
  exact own_runAndExecute job _ _ h

end

/-! ## What the others do meanwhile -/

section
variable {x x' : Ctx} {l : List Mark}

theorem Startable.congr (hjob : x'.job = x.job) (hrow : x'.row = x.row) (h : Startable x) : Startable x' where
  fsm := by
    rw [hjob]
    exact h.fsm
  agrees d hd := by
    rw [hrow] at hd
    rw [hjob]
    exact h.agrees d hd

theorem JobDone.congr (hjob : x'.job = x.job) (hrow : x'.row = x.row) (h : JobDone x l) : JobDone x' l := by
  cases h with
  | completed hfsm hd hl => exact .completed (by rw [hjob]; exact hfsm) (by rw [hrow]; exact hd) (by rw [hjob]; exact hl)
  | failed k msg hfsm hd hk hl =>
    exact .failed k msg (by rw [hjob]; exact hfsm) (by rw [hrow]; exact hd) (by rw [hjob]; exact hk) hl

theorem over_congr {rest : JobProg Unit} (hjob : x'.job = x.job) (hrow : x'.row = x.row)
    (h : ownProto.wp rest ProcessEnds (x, l)) : ownProto.wp rest ProcessEnds (x', l) := by
  have hrely : ownProto.rely (x, l) (x', l) := ⟨hjob, hrow, rfl⟩
  refine Proto.wp_star (fun r => ?_) (.single hrely) h
  rintro s s' ⟨hjob, hrow, hmarks⟩ ⟨hr, hs⟩
  rw [ProcessEnds, hmarks]
  exact ⟨hr, hs.congr hjob hrow⟩

/-- A worker that settles its job whatever becomes of the channel never sends. -/
theorem own_no_send {k : SendResult → JobProg Unit} {Q : Except Exn Unit → Showing → Prop} (s : Showing) :
    ¬ ownProto.wp (.act .send k) Q s := by
  intro h
  -- the others may have left the channel open and empty
  let s₁ : Showing := ({ s.1 with chan := { queue := [] } }, s.2)
  have hrely : ownProto.rely s s₁ := ⟨rfl, rfl, rfl⟩
  have hstep : ownProto.step .send s₁ .ok ({ s.1 with chan := { queue := [s.1.job.ref] } }, s.2) :=
    ⟨{}, by decide, rfl, (List.append_nil _).symm⟩
  have hchan := (h s₁ (.single hrely) _ _ hstep).1.1
  cases hchan

end

/-! ## The pool -/

/-- The worker keeps no error, and if it has ended it has returned. -/
def Loop.Clean : Loop → Prop
  | .ended result => result = .ok ()
  | l             => l.noted = none

namespace Pool

open Chan (CallTurn)

variable {W : Type}

/-- A worker has started the job. -/
def Begun (p : Pool W) (r : Nat) : Prop := ∃ w, ∃ n ∈ p.started w, p.loop.sent[n]? = some (some r)

/-- The job and its row are the same. -/
structure Alike (p p' : Pool W) (r : Nat) : Prop where
  job : p'.jobs r = p.jobs r
  row : p'.store.get (p.jobs r).id = p.store.get (p.jobs r).id

/-- What the pool may meet: jobs are sent ready, under ids of their own; those that wait stay ready, and those that a worker
has started are left to it; store and workflows are calm. -/
def Calm (p : Pool W) : PoolStep W → Prop
  | .send r            => Startable (p.view r) ∧ ∀ r', some r' ∈ p.loop.sent → (p.jobs r').id ≠ (p.jobs r).id
  | .others jobs store => ∀ r, some r ∈ p.loop.sent → (jobs r).id = (p.jobs r).id ∧
      (p.Begun r → Alike p { p with jobs := jobs, store := store } r) ∧
      (¬ p.Begun r → Startable ({ p with jobs := jobs, store := store }.view r))
  | .act _ c           => c.Calm
  | _                  => True

variable [DecidableEq W]

/-- A schedule whose steps are calm. -/
def calmRun : List (PoolStep W) → Pool W → Prop
  | [],        _ => True
  | st :: sts, p => p.Calm st ∧ ∀ p', p.step st = some p' → calmRun sts p'

omit [DecidableEq W] in
/-- What a step shows of the workflows, and of which job. -/
def shows (p : Pool W) : PoolStep W → Option (Nat × Mark)
  | .act w c =>
    match p.workers w with
    | .processing _ r (.act a _) => (a.mark (Ctx.exec c a (p.view r)).1).map (r, ·)
    | _                          => none
  | _        => none

/-- What a schedule shows. -/
def shown : List (PoolStep W) → Pool W → List (Nat × Mark)
  | [],        _ => []
  | st :: sts, p => (p.shows st).toList ++ (p.step st).elim [] (shown sts)

end Pool

/-- What was shown of one job. -/
def marksOf (r : Nat) (log : List (Nat × Mark)) : List Mark := (log.filter fun e => e.1 = r).map Prod.snd

theorem marksOf_append (r : Nat) (log log' : List (Nat × Mark)) :
    marksOf r (log ++ log') = marksOf r log ++ marksOf r log' := by
  rw [marksOf, List.filter_append, List.map_append]
  rfl

theorem marksOf_own (r : Nat) (o : Option Mark) : marksOf r (o.map (r, ·)).toList = o.toList := by
  cases o with
  | none => rfl
  | some e => simp [marksOf]

theorem marksOf_other {r r' : Nat} (h : r ≠ r') (o : Option Mark) : marksOf r (o.map (r', ·)).toList = [] := by
  cases o with
  | none => rfl
  | some e => simp [marksOf, h.symm]

namespace Pool

variable {W : Type} {p p' : Pool W} {log : List (Nat × Mark)}

/-- **What the states of a calm pool have in common**: the jobs that wait are ready and have shown nothing, and those that
were started are settled or in the hands of a worker that settles them. -/
structure Outcome (p : Pool W) (log : List (Nat × Mark)) : Prop where
  distinct : ∀ n m r r' : Nat, p.loop.sent[n]? = some (some r) → p.loop.sent[m]? = some (some r') →
    (p.jobs r).id = (p.jobs r').id → n = m
  waiting  : ∀ r, some r ∈ p.loop.sent → ¬ p.Begun r → Startable (p.view r)
  unshown  : ∀ r, ¬ p.Begun r → marksOf r log = []
  working  : ∀ w stopped r rest, p.workers w = .processing stopped r rest →
    (∃ n ∈ p.started w, p.loop.sent[n]? = some (some r)) ∧ ownProto.wp rest ProcessEnds (p.view r, marksOf r log)
  settled  : ∀ w, ∀ n ∈ p.started w, ∀ r, p.loop.sent[n]? = some (some r) →
    (∃ stopped rest, p.workers w = .processing stopped r rest) ∨ JobDone (p.view r) (marksOf r log)
  clean    : ∀ w, (p.workers w).Clean

theorem outcome_new (maxsize : Nat) (jobs : Nat → Job) (store : InMemoryJobStore) :
    Outcome (new maxsize jobs store : Pool W) [] where
  distinct := by simp [new, Chan.ChannelState.new]
  waiting  := by simp [new, Chan.ChannelState.new]
  unshown _ _ := rfl
  working  := by simp [new]
  settled  := by simp [new]
  clean _  := rfl

theorem Alike.view_job {r : Nat} (h : Alike p p' r) : (p'.view r).job = (p.view r).job := by
  show ({ p'.jobs r with ref := r } : Job) = _
  rw [h.job]
  rfl

theorem Alike.view_row {r : Nat} (h : Alike p p' r) : (p'.view r).row = (p.view r).row := by
  show p'.store.get (p'.jobs r).id = _
  rw [h.job]
  exact h.row

/-- A step that moves no worker's job. -/
theorem Outcome.frame (h : Outcome p log) (hsent : p'.loop.sent = p.loop.sent) (hstarted : p'.started = p.started)
    (hid : ∀ r : Nat, some r ∈ p.loop.sent → (p'.jobs r).id = (p.jobs r).id) (hbegun : ∀ r, p.Begun r → Alike p p' r)
    (hready : ∀ r : Nat, some r ∈ p.loop.sent → ¬ p.Begun r → Startable (p'.view r))
    (hproc : ∀ w stopped r rest, p'.workers w = .processing stopped r rest ↔ p.workers w = .processing stopped r rest)
    (hclean : ∀ w, (p'.workers w).Clean) : Outcome p' log := by
  have hb : ∀ r, p'.Begun r ↔ p.Begun r := fun r => by rw [Begun, Begun, hsent, hstarted]
  refine ⟨fun n m r r' hn hm hids => ?_, fun r hr hn => ?_, fun r hn => h.unshown r fun hr => hn ((hb r).2 hr),
    fun w stopped r rest hw => ?_, fun w n hn r hr => ?_, hclean⟩
  · rw [hsent] at hn hm
    rw [hid r (List.mem_of_getElem? hn), hid r' (List.mem_of_getElem? hm)] at hids
    exact h.distinct n m r r' hn hm hids
  · rw [hsent] at hr
    exact hready r hr fun hr => hn ((hb r).2 hr)
  · obtain ⟨⟨n, hn, hr⟩, hwp⟩ := h.working w stopped r rest ((hproc w stopped r rest).1 hw)
    have halike := hbegun r ⟨w, n, hn, hr⟩
    rw [hsent, hstarted]
    exact ⟨⟨n, hn, hr⟩, over_congr halike.view_job halike.view_row hwp⟩
  · rw [hstarted] at hn
    rw [hsent] at hr
    have halike := hbegun r ⟨w, n, hn, hr⟩
    rcases h.settled w n hn r hr with ⟨stopped, rest, hw⟩ | hs
    · exact .inl ⟨stopped, rest, (hproc w stopped r rest).2 hw⟩
    · exact .inr (hs.congr halike.view_job halike.view_row)

/-- A step of the loop alone. -/
theorem Outcome.onLoop (h : Outcome p log) {s : Chan.ChannelState Nat} (hsent : s.sent = p.loop.sent) :
    Outcome { p with loop := s } log :=
  h.frame hsent rfl (fun _ _ => rfl) (fun _ _ => ⟨rfl, rfl⟩)
    (fun r hr hn => .congr (x := p.view r) rfl rfl (h.waiting r hr hn))
    (fun _ _ _ _ => .rfl) h.clean

theorem sent_send {s s' : Chan.ChannelState Nat} {r : Nat} (h : s.step (.send (some r)) = some s') :
    s'.sent = s.sent ∨ s'.sent = s.sent ++ [some r] := by
  simp only [Chan.ChannelState.step] at h
  split at h <;> cases h
  · exact .inr rfl
  · exact .inl rfl

/-- A job that is sent. -/
theorem Outcome.accept (h : Outcome p log) {s : Chan.ChannelState Nat} {r : Nat} (hsent : s.sent = p.loop.sent ++ [some r])
    (hstarted : ∀ w, ∀ n ∈ p.started w, n < p.loop.sent.length) (hready : Startable (p.view r))
    (hnew : ∀ r', some r' ∈ p.loop.sent → (p.jobs r').id ≠ (p.jobs r).id) : Outcome { p with loop := s } log := by
  have hold : ∀ {n}, n < p.loop.sent.length → s.sent[n]? = p.loop.sent[n]? := fun hn => by
    rw [hsent, List.getElem?_append_left hn]
  have hb : ∀ r', Begun { p with loop := s } r' ↔ p.Begun r' := fun r' => by
    refine exists_congr fun w => exists_congr fun n => and_congr_right fun hn => ?_
    exact iff_of_eq (congrArg (· = _) (hold (hstarted w n hn)))
  have hcase : ∀ {n r' : Nat}, s.sent[n]? = some (some r') →
      (n < p.loop.sent.length ∧ p.loop.sent[n]? = some (some r')) ∨ (n = p.loop.sent.length ∧ r' = r) := by
    intro n r' hn
    rcases Nat.lt_trichotomy n p.loop.sent.length with hlt | rfl | hgt
    · exact .inl ⟨hlt, hold hlt ▸ hn⟩
    · rw [hsent, List.getElem?_concat_length] at hn
      exact .inr ⟨rfl, (Option.some.inj (Option.some.inj hn)).symm⟩
    · rw [hsent, List.getElem?_eq_none (by rw [List.length_append]; exact hgt)] at hn
      cases hn
  refine ⟨fun n m r₁ r₂ hn hm hids => ?_, fun r' hr hn => ?_, fun r' hn => h.unshown r' fun hr => hn ((hb r').2 hr),
    fun w stopped r' rest hw => ?_, fun w n hn r' hr => ?_, h.clean⟩
  · rcases hcase hn with ⟨-, hn⟩ | ⟨rfl, rfl⟩ <;> rcases hcase hm with ⟨-, hm⟩ | ⟨rfl, rfl⟩
    · exact h.distinct n m r₁ r₂ hn hm hids
    · exact absurd hids (hnew r₁ (List.mem_of_getElem? hn))
    · exact absurd hids.symm (hnew r₂ (List.mem_of_getElem? hm))
    · rfl
  · change some r' ∈ s.sent at hr
    rw [hsent] at hr
    rcases List.mem_append.1 hr with hr | hr
    · exact .congr (x := p.view r') rfl rfl (h.waiting r' hr fun hr => hn ((hb r').2 hr))
    · obtain rfl := Option.some.inj (List.mem_singleton.1 hr)
      exact .congr (x := p.view r') rfl rfl hready
  · obtain ⟨⟨n, hn, hr⟩, hwp⟩ := h.working w stopped r' rest hw
    exact ⟨⟨n, hn, (hold (hstarted w n hn)).trans hr⟩, over_congr (x := p.view r') rfl rfl hwp⟩
  · rcases h.settled w n hn r' (hold (hstarted w n hn) ▸ hr) with hw | hs
    · exact .inl hw
    · exact .inr (.congr (x := p.view r') rfl rfl hs)

variable [DecidableEq W]

/-- A worker that has no job goes on, and has none. -/
theorem Outcome.idle (h : Outcome p log) {w : W} {l : Loop}
    (hold : ∀ stopped r rest, p.workers w ≠ .processing stopped r rest)
    (hnew : ∀ stopped r rest, l ≠ .processing stopped r rest) (hl : l.Clean) : Outcome (p.move w l) log := by
  refine h.frame rfl rfl (fun _ _ => rfl) (fun _ _ => ⟨rfl, rfl⟩) h.waiting (fun v stopped r rest => ?_) fun v => ?_
  · rw [workers_move]
    split
    · rename_i hv
      subst hv
      exact ⟨fun hw => absurd hw (hnew stopped r rest), fun hw => absurd hw (hold stopped r rest)⟩
    · exact .rfl
  · rw [workers_move]
    split
    · exact hl
    · exact h.clean v

/-- A worker takes a ready job. -/
theorem Outcome.start (h : Outcome p log) (hled : p.share.Ledger) {w : W} {stopped : Option Exn} {i n r : Nat} (job : Ident)
    (hw : p.workers w = .receiving stopped i) (hi : p.loop.calls[i]? = some (.returned (some n)))
    (hr : p.loop.sent[n]? = some (some r)) :
    Outcome ({ p with started := Function.update p.started w (p.started w ++ [n]) }.move w
      (.processing stopped r (Worker.process job))) log := by
  have hhand : p.share.hand w = some n := by
    show (p.workers w).hand _ = _
    rw [hw]
    simp [Loop.hand, hi, Chan.Receive.value]
  -- nobody has started it
  have hfresh : ¬ p.Begun r := by
    rintro ⟨v, m, hm, hmr⟩
    obtain rfl := h.distinct m n r r hmr hr rfl
    obtain rfl := hled.apart v w m (List.mem_append_left _ hm) (List.mem_append_right _ (by simp [hhand]))
    have hnodup := (hled.order v).sublist (List.sublist_append_left _ _)
    rw [Conc.Share.given, hhand] at hnodup
    exact Nat.lt_irrefl m ((List.pairwise_append.1 hnodup).2.2 m hm m (by simp))
  have hstarted : ∀ v, Function.update p.started w (p.started w ++ [n]) v =
      if v = w then p.started w ++ [n] else p.started v := fun v => Function.update_apply ..
  have hmem : ∀ {v m}, m ∈ Function.update p.started w (p.started w ++ [n]) v ↔ m ∈ p.started v ∨ (v = w ∧ m = n) := by
    intro v m
    rw [hstarted]
    split
    · rename_i hv
      subst hv
      simp
    · rename_i hv
      simp [hv]
  have hbegun : ∀ {r'}, ¬ Begun ({ p with started := Function.update p.started w (p.started w ++ [n]) }.move w
      (.processing stopped r (Worker.process job))) r' → ¬ p.Begun r' := by
    rintro r' hn ⟨v, m, hm, hr'⟩
    exact hn ⟨v, m, hmem.2 (.inl hm), hr'⟩
  refine ⟨h.distinct, fun r' hr' hn => h.waiting r' hr' (hbegun hn), fun r' hn => h.unshown r' (hbegun hn),
    fun v stopped' r' rest hv => ?_, fun v m hm r' hr' => ?_, fun v => ?_⟩
  · rw [workers_move] at hv
    split at hv
    · rename_i hvw
      subst hvw
      cases hv
      refine ⟨⟨n, hmem.2 (.inr ⟨rfl, rfl⟩), hr⟩, ?_⟩
      rw [h.unshown r hfresh]
      exact own_process job (h.waiting r (List.mem_of_getElem? hr) hfresh)
    · obtain ⟨⟨m, hm, hr'⟩, hwp⟩ := h.working v stopped' r' rest hv
      exact ⟨⟨m, hmem.2 (.inl hm), hr'⟩, hwp⟩
  · rw [workers_move]
    rcases hmem.1 hm with hm | ⟨rfl, rfl⟩
    · rcases h.settled v m hm r' hr' with ⟨stopped', rest, hv⟩ | hs
      · refine .inl ⟨stopped', rest, ?_⟩
        rw [if_neg]
        · exact hv
        · rintro rfl
          rw [hw] at hv
          cases hv
      · exact .inr hs
    · obtain rfl := Option.some.inj (Option.some.inj (hr.symm.trans hr'))
      exact .inl ⟨stopped, _, if_pos rfl⟩
  · rw [workers_move]
    split
    · have hclean := h.clean w
      rw [hw] at hclean
      exact hclean
    · exact h.clean v

/-- An action of `_process` that is no send. -/
theorem step_act {w : W} {c : Choice} {stopped : Option Exn} {r : Nat} {a : Act} {k : a.Res → JobProg Unit}
    (hw : p.workers w = .processing stopped r (.act a k)) (hsend : a ≠ .send) (hs : p.step (.act w c) = some p') :
    p' = { p with
      jobs := Function.update p.jobs r (Ctx.exec c a (p.view r)).2.job
      store := (Ctx.exec c a (p.view r)).2.store }.move w (.processing stopped r (k (Ctx.exec c a (p.view r)).1)) := by
  simp only [step, hw] at hs
  cases a with
  | send => exact absurd rfl hsend
  | _ =>
    simp only [perform] at hs
    obtain ⟨o, ho, rfl⟩ := Option.map_eq_some_iff.1 hs
    obtain ⟨-, rfl⟩ := Ctx.step_eq_some ho
    rfl

/-- **An action on a worker's job** is one of its protocol, and the other jobs do not notice it. -/
theorem Outcome.act (h : Outcome p log) (hled : p.share.Ledger) {w : W} {c : Choice} (hc : c.Calm)
    (hs : p.step (.act w c) = some p') : Outcome p' (log ++ (p.shows (.act w c)).toList) := by
  obtain ⟨stopped, r, a, k, hw⟩ : ∃ stopped r a k, p.workers w = .processing stopped r (.act a k) := by
    simp only [step] at hs
    split at hs
    · exact ⟨_, _, _, _, ‹_›⟩
    · cases hs
  obtain ⟨⟨n, hn, hr⟩, hwp⟩ := h.working w stopped r _ hw
  have hsend : a ≠ .send := by
    rintro rfl
    exact own_no_send _ hwp
  obtain rfl := step_act hw hsend hs
  have hshows : p.shows (.act w c) = (a.mark (Ctx.exec c a (p.view r)).1).map (r, ·) := by
    simp only [shows, hw]
  rw [hshows]
  obtain ⟨⟨-, href, hid, hrows⟩, hwp'⟩ := hwp (p.view r, marksOf r log) .refl (Ctx.exec c a (p.view r)).1
    ((Ctx.exec c a (p.view r)).2, marksOf r log ++ (a.mark (Ctx.exec c a (p.view r)).1).toList) ⟨c, hc, rfl, rfl⟩
  generalize hx : Ctx.exec c a (p.view r) = o at *
  obtain ⟨res, x⟩ := o
  -- the other jobs that were sent have other ids, and nobody else has this one
  have hsame : ∀ {m r' : Nat}, p.loop.sent[m]? = some (some r') → r' ≠ r → Alike p ({ p with
      jobs := Function.update p.jobs r x.job, store := x.store }.move w (.processing stopped r (k res))) r' := by
    intro m r' hr' hne
    refine ⟨Function.update_of_ne hne .., hrows _ fun hids => hne ?_⟩
    obtain rfl := h.distinct m n r' r hr' hr hids
    exact Option.some.inj (Option.some.inj (hr'.symm.trans hr))
  have hother : ∀ {v : W} {m r' : Nat}, m ∈ p.started v → p.loop.sent[m]? = some (some r') → v ≠ w → r' ≠ r := by
    rintro v m r' hm hr' hv rfl
    obtain rfl := h.distinct m n r' r' hr' hr rfl
    exact hv (hled.apart v w m (List.mem_append_left _ hm) (List.mem_append_left _ hn))
  have hview : (({ p with jobs := Function.update p.jobs r x.job, store := x.store }.move w
      (.processing stopped r (k res)) : Pool W).view r).job = x.job := by
    show ({ Function.update p.jobs r x.job r with ref := r } : Job) = _
    rw [Function.update_self]
    exact congrArg (fun ref => { x.job with ref := ref }) href.symm
  have hrow : (({ p with jobs := Function.update p.jobs r x.job, store := x.store }.move w
      (.processing stopped r (k res)) : Pool W).view r).row = x.row := by
    rw [Ctx.row, hview]
    rfl
  have hlog : ∀ {r' : Nat}, r' ≠ r → marksOf r' (log ++ ((a.mark res).map (r, ·)).toList) = marksOf r' log := fun hne => by
    rw [marksOf_append, marksOf_other hne, List.append_nil]
  have hids : ∀ {m r' : Nat}, p.loop.sent[m]? = some (some r') →
      (Function.update p.jobs r x.job r').id = (p.jobs r').id := by
    intro m r' hr'
    rw [Function.update_apply]
    split
    · rename_i hrr
      rw [hrr]
      exact hid
    · rfl
  refine ⟨fun n₁ n₂ r₁ r₂ h₁ h₂ he => ?_, fun r' hr' hb => ?_, fun r' hb => ?_, fun v stopped' r' rest hv => ?_,
    fun v m hm r' hr' => ?_, fun v => ?_⟩
  · exact h.distinct n₁ n₂ r₁ r₂ h₁ h₂ ((hids h₁).symm.trans (he.trans (hids h₂)))
  · have hne : r' ≠ r := fun he => hb ⟨w, n, hn, he ▸ hr⟩
    obtain ⟨m, hm⟩ := List.mem_iff_getElem?.1 hr'
    exact (h.waiting r' hr' hb).congr (hsame hm hne).view_job (hsame hm hne).view_row
  · have hne : r' ≠ r := fun he => hb ⟨w, n, hn, he ▸ hr⟩
    rw [hlog hne]
    exact h.unshown r' hb
  · rw [workers_move] at hv
    split at hv
    · rename_i hvw
      subst hvw
      cases hv
      refine ⟨⟨n, hn, hr⟩, ?_⟩
      rw [marksOf_append, marksOf_own]
      exact over_congr hview hrow hwp'
    · rename_i hvw
      obtain ⟨⟨m, hm, hr'⟩, hwp₁⟩ := h.working v stopped' r' rest hv
      have hne := hother hm hr' hvw
      refine ⟨⟨m, hm, hr'⟩, ?_⟩
      rw [hlog hne]
      exact over_congr (hsame hr' hne).view_job (hsame hr' hne).view_row hwp₁
  · rw [workers_move]
    by_cases hvw : v = w
    · subst hvw
      rw [if_pos rfl]
      by_cases hne : r' = r
      · exact .inl ⟨stopped, _, by rw [hne]⟩
      · rcases h.settled v m hm r' hr' with ⟨stopped', rest, hv⟩ | hset
        · rw [hw] at hv
          cases hv
          exact absurd rfl hne
        · rw [hlog hne]
          exact .inr (hset.congr (hsame hr' hne).view_job (hsame hr' hne).view_row)
    · rw [if_neg hvw]
      have hne := hother hm hr' hvw
      rw [hlog hne]
      exact (h.settled v m hm r' hr').imp_right fun hset => hset.congr (hsame hr' hne).view_job (hsame hr' hne).view_row
  · rw [workers_move]
    split
    · have hclean := h.clean w
      rw [hw] at hclean
      exact hclean
    · exact h.clean v

/-- A worker settles its job and goes on. -/
theorem Outcome.settle (h : Outcome p log) {w : W} {stopped : Option Exn} {r : Nat}
    {rest : JobProg Unit} {result : Except Exn Unit} (hw : p.workers w = .processing stopped r rest)
    (hf : rest.finished = some result) {l : Loop} (hafter : Loop.after stopped result = some l) :
    Outcome (p.move w l) log := by
  obtain ⟨⟨n, hn, hr⟩, hwp⟩ := h.working w stopped r rest hw
  obtain ⟨hresult, hset⟩ : ProcessEnds result (p.view r, marksOf r log) := by
    cases rest with
    | ret a => cases hf; exact hwp
    | raise e => cases hf; exact hwp
    | act a k => cases hf
  obtain rfl : Loop.top stopped = l := by
    match result, hresult with
    | .ok (), _ => exact Option.some.inj hafter
    | .error (.workflow msg), _ => exact Option.some.inj hafter
  refine ⟨h.distinct, h.waiting, h.unshown, fun v stopped' r' rest' hv => ?_, fun v m hm r' hr' => ?_, fun v => ?_⟩
  · rw [workers_move] at hv
    split at hv
    · cases hv
    · exact h.working v stopped' r' rest' hv
  · rcases h.settled v m hm r' hr' with ⟨stopped', rest', hv⟩ | hs
    · by_cases hvw : v = w
      · subst hvw
        rw [hw] at hv
        cases hv
        exact .inr hset
      · exact .inl ⟨stopped', rest', by rw [workers_move, if_neg hvw]; exact hv⟩
    · exact .inr hs
  · rw [workers_move]
    split
    · have hclean := h.clean w
      rw [hw] at hclean
      exact hclean
    · exact h.clean v

/-- A worker's step that is no action on its job. -/
theorem Outcome.move_on (hl : Linked p) (hled : p.share.Ledger) (h : Outcome p log) {st : PoolStep W} (hwork : st.work = true)
    (hact : ∀ w c, st ≠ .act w c) (hs : p.step st = some p') : Outcome p' log := by
  cases step_moves hl hs with
  | environment _ _ hno _ =>
    rw [hwork] at hno
    cases hno
  | turn _ _ => exact h.onLoop rfl
  | @receive w stopped c q hw _ =>
    have hloop : Outcome { p with loop := { p.loop with
        chan := { p.loop.chan with queue := q }, calls := p.loop.calls ++ [c] } } log := h.onLoop rfl
    refine hloop.idle (fun stopped' r rest hv => ?_) (by simp) ?_
    · change p.workers w = _ at hv
      rw [hw] at hv
      cases hv
    · have hclean := h.clean w
      rw [hw] at hclean
      exact hclean
  | @noJob w stopped i hw hi =>
    have hclean := h.clean w
    rw [hw] at hclean
    obtain rfl : stopped = none := hclean
    refine h.idle (fun stopped r rest hv => ?_) (by simp [Loop.noJob]) rfl
    rw [hw] at hv
    cases hv
  | start job hw hi hr => exact h.start hled job hw hi hr
  | work _ _ _ _ _ => exact absurd rfl (hact _ _)
  | settle hw hf hafter => exact h.settle hw hf hafter

/-- **One calm step.** -/
theorem Outcome.step (hl : Linked p) (hled : p.share.Ledger) (h : Outcome p log) {st : PoolStep W} (hc : p.Calm st)
    (hs : p.step st = some p') : Outcome p' (log ++ (p.shows st).toList) := by
  by_cases hact : ∃ w c, st = .act w c
  · obtain ⟨w, c, rfl⟩ := hact
    exact h.act hled hc hs
  · have hact : ∀ w c, st ≠ .act w c := fun w c he => hact ⟨w, c, he⟩
    have hshows : p.shows st = none := by
      unfold shows
      split
      · exact absurd rfl (hact _ _)
      · rfl
    rw [hshows, Option.toList_none, List.append_nil]
    cases st with
    | send r =>
      obtain ⟨s, hstep, rfl⟩ := onLoop_eq_some hs
      rcases sent_send hstep with hsent | hsent
      · exact h.onLoop hsent
      · exact h.accept hsent (fun w n hn => (hled.cover n).2 (.inr ⟨w, List.mem_append_left _ hn⟩)) hc.1 hc.2
    | requestStop =>
      cases hs
      exact h.onLoop rfl
    | others jobs store =>
      cases hs
      refine h.frame rfl rfl (fun r hr => (hc r hr).1) (fun r hr => ?_) (fun r hr => (hc r hr).2.2) (fun _ _ _ _ => .rfl)
        h.clean
      obtain ⟨w, n, hn, hr'⟩ := hr
      exact (hc r (List.mem_of_getElem? hr')).2.1 ⟨w, n, hn, hr'⟩
    | _ => exact h.move_on hl hled rfl hact hs

/-- **Every calm run.** -/
theorem Outcome.run : ∀ {sts : List (PoolStep W)} {p p' : Pool W} {log : List (Nat × Mark)}, Linked p → p.share.Ledger →
    Outcome p log → calmRun sts p → p.run sts = some p' → Outcome p' (log ++ shown sts p)
  | [],        p, p', log, _, _, h, _, hr => by
    cases hr
    rw [shown, List.append_nil]
    exact h
  | st :: sts, p, p', log, hl, hled, h, hc, hr => by
    obtain ⟨p₁, hstep, hrest⟩ := Option.bind_eq_some_iff.1 hr
    have h₁ := Outcome.run (hl.step hstep) (ledger_step hl hled hstep) (h.step hl hled hc.1 hstep) (hc.2 p₁ hstep) hrest
    rw [shown, hstep, Option.elim_some, ← List.append_assoc]
    exact h₁

omit [DecidableEq W] in
/-- What a calm pool awaits ends. -/
theorem Outcome.not_hung (h : Outcome p log) (w : W) : ¬ p.Hung w := by
  rintro ⟨stopped, r, rest, hw, hf⟩
  obtain ⟨-, hwp⟩ := h.working w stopped r rest hw
  have hends : ProcessEnds (.error .hung) (p.view r, marksOf r log) := by
    cases rest with
    | ret a => cases hf
    | raise e =>
      obtain rfl := Except.error.inj (Option.some.inj hf)
      exact hwp
    | act a k => cases hf
  cases hends.1

/-- Where no worker or task can go on, no worker has anything. -/
theorem empty_of_stuck (hl : Linked p) (hled : p.share.Ledger) (h : Outcome p log) [Nonempty W]
    (hstuck : ∀ st : PoolStep W, st.work = true → p.step st = none) :
    p.loop.chan.queue = [] ∧ ∀ w, (p.workers w).hand p.loop.calls = none ∧
      ∀ stopped r rest, p.workers w ≠ .processing stopped r rest := by
  have hends : ∀ w, (∃ result, p.workers w = .ended result) ∨ p.Idle w := fun w => by
    rcases ended_or_idle hl hled hstuck w with hend | hidle | hhung
    · refine .inl ?_
      cases hw : p.workers w with
      | ended result => exact ⟨result, rfl⟩
      | _ => rw [hw] at hend; cases hend
    · exact .inr hidle
    · exact absurd hhung (h.not_hung w)
  constructor
  · obtain ⟨w⟩ := ‹Nonempty W›
    rcases hends w with ⟨result, hw⟩ | ⟨-, hq, -⟩
    · have hclean := h.clean w
      rw [hw] at hclean
      obtain rfl : result = .ok () := hclean
      exact (hled.left w (by show (p.workers w).drained = true; rw [hw]; rfl)).2
    · exact hq
  · intro w
    rcases hends w with ⟨result, hw⟩ | ⟨-, -, stopped, i, hw, hi⟩
    · rw [hw]
      exact ⟨rfl, by simp⟩
    · rw [hw]
      refine ⟨?_, by simp⟩
      simp only [Loop.hand, hi]
      rfl

instance (x : Ctx) : Decidable (Startable x) :=
  decidable_of_iff (x.job.fsm = some .scheduled ∧ ∀ d ∈ x.row, d.status = Status.scheduled.value ∧ d.version = x.job.version)
    ⟨fun h => ⟨h.1, h.2⟩, fun h => ⟨h.fsm, h.agrees⟩⟩

/-- The check of a schedule in which nothing else happens. -/
def calmCheck : List (PoolStep W) → Pool W → Bool
  | [],        _ => true
  | st :: sts, p =>
    (match st with
      | .send r     => decide (Startable (p.view r)) &&
          p.loop.sent.all fun v => v.all fun r' => (p.jobs r').id != (p.jobs r).id
      | .others _ _ => false
      | .act _ c    => decide c.Calm
      | _           => true) && (p.step st).all (calmCheck sts)

theorem calmRun_of_check : ∀ {sts : List (PoolStep W)} {p : Pool W}, calmCheck sts p = true → calmRun sts p
  | [],        _, _ => trivial
  | st :: sts, p, h => by
    obtain ⟨hst, hrest⟩ := Bool.and_eq_true_iff.1 h
    refine ⟨?_, fun p' hp' => calmRun_of_check ?_⟩
    · cases st with
      | send r =>
        obtain ⟨hready, hnew⟩ := Bool.and_eq_true_iff.1 hst
        refine ⟨of_decide_eq_true hready, fun r' hr' => ?_⟩
        have hid := List.all_eq_true.1 hnew _ hr'
        exact bne_iff_ne.1 hid
      | others jobs store => cases hst
      | act w c =>
        have hc : c.Calm := of_decide_eq_true hst
        exact hc
      | _ => trivial
    · rw [hp'] at hrest
      exact hrest

def raises : Choice := { outcome := .error (.workflow "disk") }

def inTurn : List (PoolStep Bool) :=
  twoReceives ++ (List.replicate 21 [PoolStep.act true {}, .act false raises]).flatten ++
    [.settle true, .settle false, .requestStop, .receive false, .take false, .receive true, .take true]

end Pool
end Pypepper
