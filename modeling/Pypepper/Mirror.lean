import Pypepper.Solo
/-!
# Mirror — the store follows the state machine of a job with one writer

One thread drives a fresh job through any sequence of `apply_event`, `save`, `cancel`, `scheduled` and `run_once`, on a
store whose calls do not fail and where nobody else writes the job's row.  The transition table and the fence agree on
every path: each save is applied, the row's version counts them, and its status is the machine's at the last one.
-/
namespace Pypepper

open Conc (Prog Proto Ev Admits)

inductive Op where
  | applyEvent (e : Event)
  | save
  | cancel
  | scheduled
  | runOnce
  deriving DecidableEq, Repr

/-- An operation on the job.  `run_once` takes whichever job is first on the channel; another one's processing leaves
this job alone. -/
def Op.prog (job : Ident) : Op → JobProg Unit
  | .applyEvent e => Job.applyEventP e
  | .save         => do
    let _ ← Job.save
    return ()
  | .cancel       => Job.cancel
  | .scheduled    => Job.dispatch job
  | .runOnce      => do
    match ← Job.do_ .receive with
    | none   => return ()
    | some r => if r = job.ref then Worker.process job else return ()

/-- One operation of a run: the channel as its other users left it, and the environment at each action. -/
structure OpStep where
  op    : Op
  chan  : Channel
  turns : Nat → Turn

/-- No store call fails, and nobody else writes the row. -/
structure Healthy (id : String) (t : Turn) : Prop where
  fault : t.choice.fault = .none
  row   : ∀ st, (t.others st).get id = st.get id

/-- The operation to its end; what it raises is the caller's. -/
def SoloState.op (s : SoloState) (o : OpStep) : SoloState :=
  ((o.op.prog s.1.job.ident).run turnExec o.turns ({ s.1 with chan := o.chan }, s.2)).2

def opsRun (x : Ctx) (ops : List OpStep) : SoloState := ops.foldl SoloState.op (x, [])

/-- A freshly constructed job without a row. -/
structure NewJob (x : Ctx) : Prop where
  fsm     : x.job.fsm = some .unknown
  version : x.job.version = 1
  row     : x.row = none

/-! ## The law -/

/-- The records of the applied saves. -/
def appliedSaves (log : List (JobEv Unit)) : List JobRecord := log.filterMap (fun e => e.act.applied e.res)

/-- A call that makes its `save` return something else than True. -/
def Act.failsSave : (a : Act) → a.Res → Bool
  | .put _,     .ok true => false
  | .put _,     _        => true
  | .refresh _, .error _ => true
  | _,          _        => false

/-- The row and the job are both at version `n`, and the row's status is the machine's. -/
def SavedAt (n : Nat) (x : Ctx) : Prop :=
  ∃ d, x.row = some d ∧ d.version = n ∧ x.job.version = n ∧ d.status = x.job.currentStatus

/-- The row is at or behind the machine. -/
def RowBehind (x : Ctx) : Prop := ∀ d ∈ x.row, StatusLe d.status x.job.currentStatus

/-- No save fails, the row stays behind the machine, and when a save ends the row, the job and the number of applied
saves agree. -/
structure Mirrored (before : List (JobEv Unit)) (e : JobEv Unit) : Prop where
  applied : e.act.failsSave e.res = false
  behind  : RowBehind e.post
  saved   : e.act.isRefresh = true → SavedAt (appliedSaves before).length e.post

/-! ## One action -/

/-- The row and the job's version after `n` applied saves. -/
def Counted : Nat → Ctx → Prop
  | 0,     x => x.row = none ∧ x.job.version = 1
  | n + 1, x => ∃ d, x.row = some d ∧ d.version = (n + 1 : Nat) ∧ x.job.version = (n + 1 : Nat)

structure Mirror (id : String) (s : SoloState) : Prop where
  id      : s.1.job.id = id
  alive   : ∃ v, s.1.job.fsm = some v
  behind  : RowBehind s.1
  counted : Counted (appliedSaves s.2).length s.1
  log     : Admits Mirrored s.2

abbrev mirrorProto (id : String) : Proto Act Act.Res SoloState := Proto.solo turnExec (Healthy id)

section
variable {id : String} {s : SoloState} {t : Turn}

theorem appliedSaves_append (log : List (JobEv Unit)) (e : JobEv Unit) :
    appliedSaves (log ++ [e]) = appliedSaves log ++ (e.act.applied e.res).toList := by
  unfold appliedSaves
  rw [List.filterMap_append]
  cases h : e.act.applied e.res <;> simp [h]

theorem Counted.congr {n : Nat} {x y : Ctx} (h : Counted n x) (hr : y.row = x.row) (hv : y.job.version = x.job.version) :
    Counted n y := by
  cases n with
  | zero => exact ⟨hr.trans h.1, hv.trans h.2⟩
  | succ n =>
    obtain ⟨d, hd, hn, hj⟩ := h
    exact ⟨d, hr.trans hd, hn, hv.trans hj⟩

theorem Healthy.row_before (ht : Healthy id t) (hid : s.1.job.id = id) : (t.before s.1).row = s.1.row := by
  show (t.others s.1.store).get s.1.job.id = s.1.store.get s.1.job.id
  rw [hid]
  exact ht.row _

/-- The actions of a run that write neither the row nor the job's version. -/
def Act.Plainly (a : Act) : Prop :=
  (∀ rec, a ≠ .put rec) ∧ a.isRefresh = false ∧ ∀ ws, a ≠ .fromRecord ws

/-- **One action that is no put and no refresh**, when the row stays behind the machine. -/
theorem Mirror.next {a : Act} (ht : Healthy id t) (h : Mirror id s) (ha : a.Plainly) {v : Status}
    (hf : (turnExec t a s).2.1.job.fsm = some v) (hb : ∀ d ∈ s.1.row, StatusLe d.status v.value) :
    Mirror id (turnExec t a s).2 := by
  obtain ⟨hput, href, hfrom⟩ := ha
  have hframe := Ctx.exec_frame t.choice a (t.before s.1) hfrom
  have hrow : (turnExec t a s).2.1.row = s.1.row := by
    show (Ctx.exec t.choice a (t.before s.1)).2.row = _
    rw [Ctx.row, Ctx.exec_store t.choice a _ hput, hframe.id]
    exact ht.row_before h.id
  have hver : (turnExec t a s).2.1.job.version = s.1.job.version := by
    refine Ctx.exec_version t.choice a _ (fun u hu => ?_) hfrom
    rw [hu] at href
    cases href
  have hbehind : RowBehind (turnExec t a s).2.1 := by
    intro d hd
    rw [hrow] at hd
    rw [Job.currentStatus, hf]
    exact hb d hd
  have hfails : a.failsSave (turnExec t a s).1 = false := by
    cases a with
    | put rec => exact absurd rfl (hput rec)
    | refresh u => cases href
    | _ => rfl
  refine ⟨hframe.id.trans h.id, ⟨v, hf⟩, hbehind, ?_, ?_⟩
  · show Counted (appliedSaves (s.2 ++ [_])).length _
    rw [appliedSaves_append]
    simp only [Act.applied_eq_none hput, Option.toList_none, List.append_nil]
    exact h.counted.congr hrow hver
  · refine h.log.append ⟨hfails, hbehind, fun hr => ?_⟩
    rw [href] at hr
    cases hr

theorem Mirror.rowBehind (h : Mirror id s) {v : Status} (hv : s.1.job.fsm = some v) :
    ∀ d ∈ s.1.row, StatusLe d.status v.value := by
  have hb := h.behind
  rw [RowBehind, Job.currentStatus, hv] at hb
  exact hb

/-- An action that leaves the machine alone. -/
theorem Mirror.quiet {a : Act} (ht : Healthy id t) (h : Mirror id s) (ha : a.Plainly) (hq : a.movesFsm = false) :
    Mirror id (turnExec t a s).2 := by
  obtain ⟨v, hv⟩ := h.alive
  exact h.next ht ha ((Ctx.exec_fsm t.choice a _ hq).trans hv) (h.rowBehind hv)

/-- An event moves the machine forward, or raises and moves nothing. -/
theorem Mirror.event (e : Event) (ht : Healthy id t) (h : Mirror id s) : Mirror id (turnExec t (.applyEvent e) s).2 := by
  obtain ⟨v, hv⟩ := h.alive
  have ha : (Act.applyEvent e).Plainly := ⟨by simp, rfl, by simp⟩
  obtain ⟨v', w, hv', hw, hx⟩ | ⟨-, hx⟩ := Ctx.exec_applyEvent t.choice e (t.before s.1)
  · obtain rfl := Option.some.inj (hv.symm.trans hv')
    refine h.next ht ha (v := w) (congrArg (fun p => p.2.job.fsm) hx) fun d hd => ?_
    exact (h.rowBehind hv d hd).trans (statusLe_value.2 (.inr (Fsm.rank_lt_of_target hw)))
  · exact h.next ht ha ((congrArg (fun p => p.2.job.fsm) hx).trans hv) (h.rowBehind hv)

/-! ## A save -/

/-- The record was built from the job as it is. -/
structure Drafted (id : String) (rec : JobRecord) (s : SoloState) : Prop extends Mirror id s where
  recId   : rec.id = s.1.job.id
  version : rec.version = s.1.job.version
  status  : rec.status = s.1.job.currentStatus

/-- Between the applied put and the read of the version. -/
structure Written (id : String) (s : SoloState) : Prop where
  id    : s.1.job.id = id
  alive : ∃ v, s.1.job.fsm = some v
  pos   : 0 < (appliedSaves s.2).length
  row   : ∃ d, s.1.row = some d ∧ d.version = (appliedSaves s.2).length ∧ d.status = s.1.job.currentStatus
  log   : Admits Mirrored s.2

/-- **The fence lets the record through**: there is no row, or the row is at the job's version and behind its status. -/
theorem Drafted.put {rec : JobRecord} (ht : Healthy id t) (h : Drafted id rec s) :
    (turnExec t (.put rec) s).1 = .ok true ∧ Written id (turnExec t (.put rec) s).2 := by
  have hbefore := ht.row_before h.id
  have hcount := h.counted
  -- what an applied put leaves, with the row's new version
  have finish : ∀ st d, Ctx.exec t.choice (.put rec) (t.before s.1) = (.ok true, { t.before s.1 with store := st }) →
      st.get s.1.job.id = some d → d.status = rec.status → d.version = ((appliedSaves s.2).length + 1 : Nat) →
      (turnExec t (.put rec) s).1 = .ok true ∧ Written id (turnExec t (.put rec) s).2 := by
    intro st d hx hd hst hver
    have hbehind : RowBehind { t.before s.1 with store := st } := by
      intro d' hd'
      obtain rfl := Option.some.inj (hd.symm.trans hd')
      rw [hst, h.status]
      exact .refl _
    have hexec : turnExec t (.put rec) s = (.ok true, { t.before s.1 with store := st },
        s.2 ++ [⟨(), .put rec, .ok true, t.before s.1, { t.before s.1 with store := st }⟩]) := by
      simp only [turnExec, hx]
    rw [hexec]
    refine ⟨rfl, h.id, h.alive, ?_, ⟨d, hd, ?_, hst.trans h.status⟩, ?_⟩
    · rw [appliedSaves_append]
      simp [Act.applied]
    · rw [appliedSaves_append, hver]
      simp [Act.applied]
    · exact h.log.append ⟨rfl, hbehind, fun hr => by cases hr⟩
  obtain ⟨st, d, hx, hd, hst, hcase⟩ | ⟨d₀, hd₀, hw, -⟩ :=
    Ctx.exec_put_own t.choice (x := t.before s.1) ht.fault h.recId
  · refine finish st d hx hd hst ?_
    cases hn : (appliedSaves s.2).length with
    | zero =>
      rw [hn] at hcount
      obtain ⟨-, rfl⟩ | ⟨d₀, hd₀, -⟩ := hcase
      · rw [h.version, hcount.2]
        rfl
      · rw [hbefore, hcount.1] at hd₀
        cases hd₀
    | succ n =>
      rw [hn] at hcount
      obtain ⟨d₁, hd₁, hv₁, -⟩ := hcount
      obtain ⟨hnone, -⟩ | ⟨d₀, hd₀, -, rfl⟩ := hcase
      · rw [hbefore, hd₁] at hnone
        cases hnone
      · rw [hbefore, hd₁] at hd₀
        obtain rfl := Option.some.inj hd₀
        simp only [InMemoryJobStore.updated, hv₁]
        omega
  · refine absurd ?_ hw
    rw [hbefore] at hd₀
    refine ⟨?_, ?_⟩
    · rw [h.status]
      exact h.behind d₀ hd₀
    · cases hn : (appliedSaves s.2).length with
      | zero =>
        rw [hn] at hcount
        rw [hcount.1] at hd₀
        cases hd₀
      | succ n =>
        rw [hn] at hcount
        obtain ⟨d₁, hd₁, hv₁, hj⟩ := hcount
        obtain rfl := Option.some.inj (hd₁.symm.trans hd₀)
        rw [h.version, hv₁, hj]

theorem Written.refresh (u : String) (ht : Healthy id t) (h : Written id s) :
    (turnExec t (.refresh u) s).1 = .ok () ∧ Mirror id (turnExec t (.refresh u) s).2 := by
  obtain ⟨d, hd, hver, hst⟩ := h.row
  have hrow : (t.before s.1).row = some d := (ht.row_before h.id).trans hd
  have hx := Ctx.exec_refresh_some t.choice u (t.before s.1) (by rw [ht.fault]; simp) hrow
  have hexec : turnExec t (.refresh u) s = (.ok (),
      { t.before s.1 with job := { s.1.job with version := d.version, updated := u } },
      s.2 ++ [⟨(), .refresh u, .ok (), t.before s.1,
        { t.before s.1 with job := { s.1.job with version := d.version, updated := u } }⟩]) := by
    simp only [turnExec, hx]
    rfl
  have hbehind : RowBehind { t.before s.1 with job := { s.1.job with version := d.version, updated := u } } := by
    intro d' hd'
    obtain rfl := Option.some.inj (hrow.symm.trans hd')
    rw [hst]
    exact .refl _
  rw [hexec]
  refine ⟨rfl, h.id, h.alive, hbehind, ?_, ?_⟩
  · rw [appliedSaves_append]
    simp only [Act.applied, Option.toList_none, List.append_nil]
    obtain ⟨n, hn⟩ : ∃ n, (appliedSaves s.2).length = n + 1 := ⟨(appliedSaves s.2).length - 1, by have := h.pos; omega⟩
    rw [hn] at hver ⊢
    exact ⟨d, hrow, hver, hver⟩
  · exact h.log.append ⟨rfl, hbehind, fun _ => ⟨d, hrow, hver, hver, hst⟩⟩

/-- **Every save returns True.** -/
theorem save_mirror (h : Mirror id s) : (mirrorProto id).wp Job.save (fun r s => r = .ok true ∧ Mirror id s) s := by
  refine wp_save (P := Mirror id) (B := Drafted id) (W := fun _ => Written id) (Proto.solo_stable _)
    (fun _ => Proto.solo_stable _) (fun _ => Proto.solo_stable _) ?_ ?_ ?_ h
  · rintro s rec s' h ⟨t, ht, rfl, rfl⟩
    exact ⟨trivial, h.quiet ht (a := .buildRecord) ⟨by simp, rfl, by simp⟩ rfl, rfl, rfl, rfl⟩
  · rintro rec s r s' h ⟨t, ht, rfl, rfl⟩
    obtain ⟨hr, hw⟩ := h.put ht
    refine ⟨trivial, ?_⟩
    rw [hr]
    exact hw
  · rintro rec s r s' h ⟨t, ht, rfl, rfl⟩
    obtain ⟨hr, hm⟩ := h.refresh rec.updated ht
    refine ⟨trivial, ?_⟩
    rw [hr]
    exact ⟨rfl, hm⟩

theorem save_keeps_mirror : (mirrorProto id).Keeps (Mirror id) Job.save :=
  fun s h => Proto.wp_mono (fun _ _ h => h.2) _ s (save_mirror h)

/-! ## The operations -/

theorem call_keeps_mirror {a : Act} (ha : a.Plainly) (hq : a.movesFsm = false) :
    (mirrorProto id).Keeps (Mirror id) (Job.do_ a) := by
  refine .call (Proto.solo_stable _) ?_
  rintro s r s' h ⟨t, ht, rfl, rfl⟩
  exact ⟨trivial, h.quiet ht ha hq⟩

theorem applyEventP_keeps_mirror (e : Event) : (mirrorProto id).Keeps (Mirror id) (Job.applyEventP e) := by
  refine .bind (.call (Proto.solo_stable _) ?_) .ofExcept
  rintro s r s' h ⟨t, ht, rfl, rfl⟩
  exact ⟨trivial, h.event e ht⟩

theorem getSaved_mirror (h : Mirror id s) :
    (mirrorProto id).wp Job.getSaved (fun r s => (∃ o, r = .ok o) ∧ Mirror id s) s := by
  refine Proto.wp_solo fun t ht => ?_
  have hn := h.quiet ht (a := .getSaved) ⟨by simp, rfl, by simp⟩ rfl
  have hr : (turnExec t .getSaved s).1 = .ok (t.before s.1).row := by
    simp only [turnExec, Ctx.exec, Ctx.get, ht.fault]
  rw [hr]
  exact ⟨⟨_, rfl⟩, hn⟩

theorem getSaved_keeps_mirror : (mirrorProto id).Keeps (Mirror id) Job.getSaved :=
  fun s h => Proto.wp_mono (fun _ _ h => h.2) _ s (getSaved_mirror h)

/-- What a healthy store's single writer keeps is closed under the programs' control flow. -/
theorem mirror_built : SaveBuilt fun _ (p : JobProg _) => (mirrorProto id).Keeps (Mirror id) p :=
  { Proto.Keeps.closed (Mirror id) with
    save  := save_keeps_mirror
    saved := getSaved_keeps_mirror }

theorem cancel_keeps_mirror : (mirrorProto id).Keeps (Mirror id) Job.cancel :=
  Job.cancel_built mirror_built (call_keeps_mirror ⟨by simp, rfl, by simp⟩ rfl)
    (call_keeps_mirror ⟨by simp, rfl, by simp⟩ rfl) (applyEventP_keeps_mirror .cancel)

theorem execute_keeps_mirror : (mirrorProto id).Keeps (Mirror id) Worker.execute := by
  have hcheck : (mirrorProto id).Keeps (Mirror id) (Job.do_ .isCancelled) :=
    call_keeps_mirror ⟨by simp, rfl, by simp⟩ rfl
  refine Worker.execute_built mirror_built hcheck ?_ (applyEventP_keeps_mirror .fail) (applyEventP_keeps_mirror .complete)
  refine (call_keeps_mirror (a := .workflows) ⟨by simp, rfl, by simp⟩ rfl).bind fun ws => ?_
  refine (call_keeps_mirror (a := .shareCancelEvent) ⟨by simp, rfl, by simp⟩ rfl).bind fun _ => ?_
  exact Worker.runWorkflows_built mirror_built hcheck (fun i => call_keeps_mirror ⟨by simp, rfl, by simp⟩ rfl)
    (fun i => call_keeps_mirror ⟨by simp, rfl, by simp⟩ rfl) ws 0

theorem heal_mirror (job : Ident) (h : Mirror id s) :
    (mirrorProto id).wp (Worker.heal job) (fun r s => r = .ok () ∧ Mirror id s) s := by
  refine Proto.wp_seq (getSaved_mirror h) (fun saved s h => ?_) (fun e _ h => by obtain ⟨⟨_, h⟩, -⟩ := h; cases h)
  split
  · refine Proto.wp_seq (save_mirror h.2) (fun applied s h => ?_) (fun e _ h => by cases h.1)
    obtain ⟨ha, h⟩ := h
    obtain rfl := Except.ok.inj ha
    exact ⟨rfl, h⟩
  · exact ⟨rfl, h.2⟩

/-- **`_process` on a healthy store** never takes a recovery path: its saves are applied. -/
theorem process_keeps_mirror (job : Ident) : (mirrorProto id).Keeps (Mirror id) (Worker.process job) := by
  refine (call_keeps_mirror (a := .isCancelled) ⟨by simp, rfl, by simp⟩ rfl).bind fun cancelled => ?_
  cases cancelled with
  | true => exact Worker.ensureCancelledPersistedLogged_built mirror_built
  | false =>
    refine (call_keeps_mirror (a := .fsmCurrent) ⟨by simp, rfl, by simp⟩ rfl).bind fun prevState => ?_
    refine (call_keeps_mirror (a := .status) ⟨by simp, rfl, by simp⟩ rfl).bind fun prevStatus => ?_
    intro s h
    refine Proto.wp_try (heal_mirror job h) fun r s h => ?_
    obtain ⟨rfl, h⟩ := h
    refine Proto.wp_seq (applyEventP_keeps_mirror .run s h) (fun _ s h => ?_) (fun _ _ h => h)
    refine Proto.wp_try (save_mirror h) fun r s h => ?_
    obtain ⟨rfl, h⟩ := h
    exact execute_keeps_mirror s h

/-- The row is at or behind the state a rollback would restore. -/
structure Undoable (id : String) (v : Status) (s : SoloState) : Prop extends Mirror id s where
  prev : ∀ d ∈ s.1.row, StatusLe d.status v.value

theorem Undoable.of_row {v : Status} {a : Act} (ht : Healthy id t) (h : Undoable id v s) (ha : a.Plainly)
    (hm : Mirror id (turnExec t a s).2) : Undoable id v (turnExec t a s).2 := by
  refine ⟨hm, fun d hd => h.prev d ?_⟩
  have hrow : (turnExec t a s).2.1.row = s.1.row := by
    show (Ctx.exec t.choice a (t.before s.1)).2.row = _
    rw [Ctx.row, Ctx.exec_store t.choice a _ ha.1, (Ctx.exec_frame t.choice a _ ha.2.2).id]
    exact ht.row_before h.id
  rwa [hrow] at hd

theorem call_keeps_undoable {v : Status} {a : Act} (ha : a.Plainly) (hq : a.movesFsm = false) :
    (mirrorProto id).Keeps (Undoable id v) (Job.do_ a) := by
  refine .call (Proto.solo_stable _) ?_
  rintro s r s' h ⟨t, ht, rfl, rfl⟩
  exact ⟨trivial, h.of_row ht ha (h.quiet ht ha hq)⟩

theorem applyEventP_keeps_undoable {v : Status} (e : Event) :
    (mirrorProto id).Keeps (Undoable id v) (Job.applyEventP e) := by
  refine .bind (.call (Proto.solo_stable _) ?_) .ofExcept
  rintro s r s' h ⟨t, ht, rfl, rfl⟩
  exact ⟨trivial, h.of_row ht ⟨by simp, rfl, by simp⟩ (h.event e ht)⟩

theorem enqueue_keeps_undoable {v : Status} (job : Ident) :
    (mirrorProto id).Keeps (Undoable id v) (Job.enqueue job) :=
  Job.enqueue_built (Proto.Keeps.closed (Undoable id v)) (call_keeps_undoable ⟨by simp, rfl, by simp⟩ rfl)
    (call_keeps_undoable ⟨by simp, rfl, by simp⟩ rfl) job

/-- **`scheduled`**: no save comes before the enqueue, so a rollback finds the row where it was. -/
theorem dispatch_keeps_mirror (job : Ident) : (mirrorProto id).Keeps (Mirror id) (Job.dispatch job) := by
  intro s h
  refine Proto.wp_solo fun t₁ ht₁ => ?_
  obtain ⟨v, hv⟩ := h.alive
  have hprev : (turnExec t₁ .fsmCurrent s).1 = some v := hv
  rw [hprev]
  have h₁ : Undoable id v (turnExec t₁ .fsmCurrent s).2 :=
    Undoable.of_row ht₁ ⟨h, h.rowBehind hv⟩ ⟨by simp, rfl, by simp⟩ (h.quiet ht₁ ⟨by simp, rfl, by simp⟩ rfl)
  have undo : ∀ (prevStatus : String) (e : Exn) (s : SoloState), Undoable id v s →
      (mirrorProto id).wp (do
        Job.do_ (.restoreLifecycle (some v) prevStatus)
        Prog.raise e : JobProg Unit) (fun _ => Mirror id) s := fun prevStatus e s h =>
    Proto.wp_solo fun t ht => h.next ht (a := .restoreLifecycle (some v) prevStatus) ⟨by simp, rfl, by simp⟩
      (v := v) rfl h.prev
  refine Proto.wp_seq (call_keeps_undoable ⟨by simp, rfl, by simp⟩ rfl _ h₁) (fun prevStatus s h => ?_)
    (fun _ _ h => h.toMirror)
  refine Proto.wp_try (Proto.Keeps.bind (applyEventP_keeps_undoable .init)
    (fun _ => applyEventP_keeps_undoable .schedule) s h) fun r s h => ?_
  match r with
  | .error e => exact undo prevStatus e s h
  | .ok () =>
    have hav : (mirrorProto id).Keeps (Undoable id v) ((Job.do_ .available).bind Prog.ofExcept) :=
      (call_keeps_undoable ⟨by simp, rfl, by simp⟩ rfl).bind .ofExcept
    refine Proto.wp_try (hav.bind (fun _ => enqueue_keeps_undoable job) s h) fun r s h => ?_
    match r with
    | .error e => exact undo prevStatus e s h
    | .ok () => exact Job.saveScheduled_built mirror_built job _ none s h.toMirror

theorem prog_keeps_mirror (job : Ident) : ∀ op : Op, (mirrorProto id).Keeps (Mirror id) (op.prog job)
  | .applyEvent e => applyEventP_keeps_mirror e
  | .save => save_keeps_mirror.bind fun _ => .ret ()
  | .cancel => cancel_keeps_mirror
  | .scheduled => dispatch_keeps_mirror job
  | .runOnce => (call_keeps_mirror (a := .receive) ⟨by simp, rfl, by simp⟩ rfl).bind fun r => by
    cases r with
    | none => exact .ret ()
    | some r =>
      dsimp only
      split
      · exact process_keeps_mirror job
      · exact .ret ()

/-! ## A run -/

theorem Mirror.op (o : OpStep) (ho : ∀ n, Healthy id (o.turns n)) (h : Mirror id s) : Mirror id (s.op o) := by
  have hchan : Mirror id ({ s.1 with chan := o.chan }, s.2) := 
    ⟨h.id, h.alive, h.behind, h.counted.congr rfl rfl, h.log⟩
  exact Prog.run_of_wp _ o.turns _ ho (prog_keeps_mirror s.1.job.ident o.op _ hchan)

theorem Mirror.ops : ∀ (ops : List OpStep) {s : SoloState}, (∀ o ∈ ops, ∀ n, Healthy id (o.turns n)) → Mirror id s →
    Mirror id (ops.foldl SoloState.op s)
  | [], _, _, h => h
  | o :: ops, _, ho, h =>
    Mirror.ops ops (fun o' ho' => ho o' (List.mem_cons_of_mem _ ho')) (h.op o (ho o List.mem_cons_self))

end

/-- **The store mirrors the machine**: in every run no save fails, the row is always at or behind the machine, and after
the `n`-th applied save the row and the job are at version `n`, the row at the machine's status.  A further save returns
True. -/
theorem store_mirrors_fsm (x : Ctx) (hx : NewJob x) (ops : List OpStep)
    (ho : ∀ o ∈ ops, ∀ n, Healthy x.job.id (o.turns n)) :
    Admits Mirrored (opsRun x ops).2 ∧ RowBehind (opsRun x ops).1 ∧
      Counted (appliedSaves (opsRun x ops).2).length (opsRun x ops).1 ∧
      ∀ turns : Nat → Turn, (∀ n, Healthy x.job.id (turns n)) →
        (Job.save.run turnExec turns (opsRun x ops)).1 = .ok true := by
  have h₀ : Mirror x.job.id (x, []) := by
    refine ⟨rfl, ⟨_, hx.fsm⟩, fun d hd => ?_, ⟨hx.row, hx.version⟩, Admits.nil⟩
    rw [hx.row] at hd
    cases hd
  have h := Mirror.ops ops ho h₀
  exact ⟨h.log, h.behind, h.counted, fun turns ht => (Prog.run_of_wp _ turns _ ht (save_mirror h)).1⟩

def newCtx : Ctx where
  job   := { ref := 0, id := "j", workflows := [⟨[]⟩] }
  chan  := ⟨[], 0, false⟩
  store := InMemoryJobStore.empty

/-- Scheduled, then run to its end. -/
def newOps : List OpStep :=
  [⟨.scheduled, ⟨[], 0, false⟩, fun _ => {}⟩, ⟨.runOnce, ⟨[0], 0, false⟩, fun _ => {}⟩]

theorem store_mirrors_fsm_run : NewJob newCtx ∧ (∀ o ∈ newOps, ∀ n, Healthy "j" (o.turns n)) ∧
    (opsRun newCtx newOps).1.job.fsm = some .completed ∧ (appliedSaves (opsRun newCtx newOps).2).length = 3 ∧
    Admits Mirrored (opsRun newCtx newOps).2 ∧ RowBehind (opsRun newCtx newOps).1 ∧
      Counted (appliedSaves (opsRun newCtx newOps).2).length (opsRun newCtx newOps).1 ∧
      ∀ turns : Nat → Turn, (∀ n, Healthy "j" (turns n)) →
        (Job.save.run turnExec turns (opsRun newCtx newOps)).1 = .ok true := by
  have hx : NewJob newCtx := ⟨rfl, rfl, rfl⟩
  have ho : ∀ o ∈ newOps, ∀ n, Healthy "j" (o.turns n) := by
    intro o h n
    rcases List.mem_cons.1 h with rfl | h
    · exact ⟨rfl, fun _ => rfl⟩
    · rw [List.mem_singleton.1 h]
      exact ⟨rfl, fun _ => rfl⟩
  exact ⟨hx, ho, by decide, by decide, store_mirrors_fsm newCtx hx newOps ho⟩

end Pypepper
