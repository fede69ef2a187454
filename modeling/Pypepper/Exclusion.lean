import Pypepper.Fleet
import Pypepper.JobRules
/-!
# Exclusion — at most one copy runs the workflows

Any number of copies of one job, each rebuilt from the row while it was Scheduled or earlier, each scheduled and processed
by its own worker on its own channel, over one store without faults or deletes.

The first applied InProgress put claims the job (`claimed`).  Every version a copy holds, or has put into a record, was
read from the row before the claim or written by the claimant, so no other copy's InProgress put is applied afterwards
(`Bound`), and only the claimant starts workflows (`one_copy_runs`).  This needs that no refresh reads an InProgress row
another copy wrote: a save reads its version back in a second call, and may pick up the claimant's
(`two_copies_run`).
-/
namespace Pypepper

open Conc (Prog Proto Sem Conf Ev Admits Extends team team_guar team_stable team_invariant)

/-- Scheduled or earlier. -/
def early (t : String) : Bool :=
  [Status.unknown.value, Status.initializing.value, Status.scheduled.value].contains t

/-- Rebuild a copy from the row and, when the row was still early, schedule it. -/
def scheduleCopy (job : Ident) (workflows : List Workflow) : JobProg Unit := do
  match ← Job.do_ (.fromRecord workflows) with
  | none   => return ()
  | some r => if early r.status then Job.dispatch job else return ()

/-- A worker that takes so many jobs from its channel. -/
def runTimes (job : Ident) : Nat → JobProg Unit
  | 0     => return ()
  | n + 1 => do
    let _ ← (Worker.runOnce job).attempt
    runTimes job n

abbrev CopyEv := FleetEv (Nat × Side)

abbrev CopyState := Fleet × List CopyEv

def copiesRun (f : Fleet) (names : Nat → Ident) (workflows : Nat → List Workflow) (times : Nat → Nat) :
    Conf (Nat × Side) Act Act.Res Exn Unit CopyState where
  prog
    | (i, .dispatcher) => scheduleCopy (names i) (workflows i)
    | (i, .worker)     => runTimes (names i) (times i)
  state := (f, [])

/-! ## The claim -/

def claimStep (id : String) (o : Option Nat) (e : CopyEv) : Option Nat :=
  o.or ((e.act.applied e.res).bind (fun rec =>
    if rec.id = id ∧ rec.status = Status.inProgress.value then some e.thread.1 else none))

/-- The copy whose applied put was the first to move the row to InProgress. -/
def claimed (id : String) (log : List CopyEv) : Option Nat := log.foldl (claimStep id) none

/-- A refresh does not read an InProgress row that another copy wrote. -/
def RefreshesNoOthersRun (id : String) (before : List CopyEv) (e : CopyEv) : Prop :=
  e.act.isRefresh → ∀ d ∈ e.pre.store.get id, d.status = Status.inProgress.value → claimed id before = some e.thread.1

/-- All workflows were started by one copy. -/
def Exclusive (log : List CopyEv) : Prop :=
  ∀ e₁ ∈ log, ∀ e₂ ∈ log, e₁.act.start.isSome → e₂.act.start.isSome → e₁.thread.1 = e₂.thread.1

instance (id : String) (before : List CopyEv) (e : CopyEv) : Decidable (RefreshesNoOthersRun id before e) :=
  inferInstanceAs (Decidable (e.act.isRefresh → ∀ d ∈ e.pre.store.get id, d.status = _ → _ = _))

instance (log : List CopyEv) : Decidable (Exclusive log) :=
  inferInstanceAs (Decidable (∀ e₁ ∈ log, ∀ e₂ ∈ log, _ → _ → _ = _))

theorem claimed_append (id : String) (log : List CopyEv) (e : CopyEv) :
    claimed id (log ++ [e]) = claimStep id (claimed id log) e := by
  simp [claimed]

theorem claimed_mono {id : String} {log : List CopyEv} {o : Nat} (e : CopyEv) (h : claimed id log = some o) :
    claimed id (log ++ [e]) = some o := by
  rw [claimed_append, claimStep, h]
  rfl

/-- A new claim is an applied InProgress put. -/
theorem claimed_new {id : String} {log : List CopyEv} {e : CopyEv} {o : Nat} (hn : claimed id log = none)
    (h : claimed id (log ++ [e]) = some o) : ∃ rec, e.act.applied e.res = some rec ∧ rec.id = id ∧
      rec.status = Status.inProgress.value := by
  rw [claimed_append, claimStep, hn, Option.none_or] at h
  obtain ⟨rec, hrec, h⟩ := Option.bind_eq_some_iff.1 h
  split at h
  · rename_i hc; exact ⟨rec, hrec, hc⟩
  · cases h

/-- Copy `i` was rebuilt from an early row. -/
def Live (i : Nat) (log : List CopyEv) : Prop :=
  ∃ e ∈ log, e.thread = (i, .dispatcher) ∧ ∃ r, e.act.rebuilt e.res = some r ∧ early r.status = true

def SentOn (i : Nat) (log : List CopyEv) : Prop := ∃ e ∈ log, e.thread.1 = i ∧ e.act.sent e.res = true

theorem live_append {i : Nat} {log : List CopyEv} {e : CopyEv} :
    Live i (log ++ [e]) ↔ Live i log ∨
      (e.thread = (i, .dispatcher) ∧ ∃ r, e.act.rebuilt e.res = some r ∧ early r.status = true) := by
  simp [Live, List.mem_append, or_and_right, exists_or]

theorem sentOn_append {i : Nat} {log : List CopyEv} {e : CopyEv} :
    SentOn i (log ++ [e]) ↔ SentOn i log ∨ (e.thread.1 = i ∧ e.act.sent e.res = true) := by
  simp [SentOn, List.mem_append, or_and_right, exists_or]

/-! ## The invariant -/

/-- **A version copy `i` may hold**: not ahead of the row, and behind a row another copy has claimed. -/
def Bound (id : String) (i : Nat) (v : Int) (s : CopyState) : Prop :=
  ∃ d, s.1.store.get id = some d ∧ v ≤ d.version ∧ ∀ o, claimed id s.2 = some o →
    StatusLe Status.inProgress.value d.status ∧ (o ≠ i → d.status = Status.inProgress.value → v < d.version)

structure CopiesInv (id : String) (s : CopyState) : Prop where
  ids    : ∀ i, (s.1.job i).id = id
  claim  : ∀ o, claimed id s.2 = some o → ∃ d, s.1.store.get id = some d ∧ StatusLe Status.inProgress.value d.status
  bound  : ∀ i, Live i s.2 → Bound id i (s.1.job i).version s
  starts : ∀ e ∈ s.2, e.act.start.isSome → claimed id s.2 = some e.thread.1

abbrev copyStep (id : String) : Sem (Nat × Side) Act Act.Res CopyState :=
  (Fleet.sem Prod.fst).logged (RefreshesNoOthersRun id)

/-- What one action of any thread does to the row. -/
theorem copyStep_row {id : String} {t : Nat × Side} {a : Act} {s s' : CopyState} {r : a.Res}
    (hst : copyStep id t a s r s') {d : JobRecord} (hd : s.1.store.get id = some d) :
    ∃ d', s'.1.store.get id = some d' ∧ d.version ≤ d'.version ∧ StatusLe d.status d'.status ∧
      ∀ rec, a.applied r = some rec → rec.id = id → d.version < d'.version ∧ d'.status = rec.status := by
  obtain ⟨c, hc, -, hr, hf⟩ := Fleet.sem_step hst.1
  by_cases hp : ∃ rec, a = .put rec
  · obtain ⟨rec, rfl⟩ := hp
    rw [Ctx.exec_put_healthy c rec _ hc] at hr hf
    have hstore : s'.1.store = (s.1.store.put rec).2 := by rw [hf]; rfl
    obtain rfl : r = .ok (s.1.store.put rec).1 := hr
    obtain ⟨hg, href⟩ | ⟨-, hw, hg⟩ := InMemoryJobStore.get_put_next s.1.store rec hd
    · refine ⟨d, by rw [hstore]; exact hg, Int.le_refl _, .refl _, fun q hq hid => ?_⟩
      cases hb : (s.1.store.put rec).1 with
      | false => rw [hb] at hq; cases hq
      | true =>
        rw [hb] at hq
        obtain rfl := Option.some.inj hq
        cases (href hid).symm.trans hb
    · refine ⟨InMemoryJobStore.updated d rec, by rw [hstore]; exact hg, ?_, hw.1, fun q hq _ => ?_⟩
      · show d.version ≤ d.version + 1
        omega
      · cases hb : (s.1.store.put rec).1 with
        | false => rw [hb] at hq; cases hq
        | true =>
          rw [hb] at hq
          obtain rfl := Option.some.inj hq
          have hlt : d.version < d.version + 1 := by omega
          exact ⟨hlt, rfl⟩
  · have hne : ∀ rec, a ≠ .put rec := fun rec h => hp ⟨rec, h⟩
    have hstore : s'.1.store = s.1.store := by
      rw [hf, Fleet.put_store, Ctx.exec_store c a _ hne]
      rfl
    exact ⟨d, by rw [hstore]; exact hd, Int.le_refl _, .refl _, fun rec hrec => by
      rw [Act.applied_eq_none hne] at hrec; cases hrec⟩

/-- **A held version stays bounded** whatever anyone does. -/
theorem Bound.step {id : String} {i : Nat} {v : Int} {t : Nat × Side} {a : Act} {s s' : CopyState} {r : a.Res}
    (h : Bound id i v s) (hst : copyStep id t a s r s') : Bound id i v s' := by
  obtain ⟨d, hd, hle, hclaim⟩ := h
  obtain ⟨d', hd', hver, hup, happ⟩ := copyStep_row hst hd
  refine ⟨d', hd', Int.le_trans hle hver, fun o ho => ?_⟩
  cases hn : claimed id s.2 with
  | some o' =>
    rw [hst.2.1] at ho
    obtain rfl := Option.some.inj ((claimed_mono _ hn).symm.trans ho)
    obtain ⟨hge, hlt⟩ := hclaim o' hn
    refine ⟨hge.trans hup, fun hne hs => Int.lt_of_lt_of_le (hlt hne ?_) hver⟩
    rw [hs] at hup
    exact hup.antisymm hge
  | none =>
    rw [hst.2.1] at ho
    obtain ⟨rec, hrec, hid, hs⟩ := claimed_new hn ho
    obtain ⟨hlt, hs'⟩ := happ rec hrec hid
    exact ⟨by rw [hs', hs]; exact .refl _, fun _ _ => Int.lt_of_le_of_lt hle hlt⟩

theorem copyStep_jobs {id : String} {t : Nat × Side} {a : Act} {s s' : CopyState} {r : a.Res}
    (hst : copyStep id t a s r s') {j : Nat} (hj : j ≠ t.1) : s'.1.job j = s.1.job j := by
  obtain ⟨c, -, -, -, hf⟩ := Fleet.sem_step hst.1
  rw [hf]
  exact Fleet.put_job_of_ne _ _ hj

theorem not_claimed_of_early {id : String} {s : CopyState} (h : CopiesInv id s) {d : JobRecord}
    (hd : s.1.store.get id = some d) (he : early d.status = true) : claimed id s.2 = none := by
  cases hn : claimed id s.2 with
  | none => rfl
  | some o =>
    obtain ⟨d', hd', hge⟩ := h.claim o hn
    obtain rfl := Option.some.inj (hd.symm.trans hd')
    simp only [early, List.contains_cons, List.contains_nil, Bool.or_false, Bool.or_eq_true, beq_iff_eq] at he
    rcases he with he | he | he <;> rw [he, statusLe_value] at hge <;> simp [Status.rank] at hge

theorem copyStep_applied {id : String} {t : Nat × Side} {a : Act} {s s' : CopyState} {r : a.Res}
    (hst : copyStep id t a s r s') {rec : JobRecord} (h : a.applied r = some rec) :
    ∃ d, s'.1.store.get rec.id = some d ∧ d.status = rec.status := by
  obtain ⟨c, hc, -, hr, hf⟩ := Fleet.sem_step hst.1
  cases a with
  | put q =>
    rw [Ctx.exec_put_healthy c q _ hc] at hr hf
    have hstore : s'.1.store = (s.1.store.put q).2 := by rw [hf]; rfl
    obtain rfl : r = .ok (s.1.store.put q).1 := hr
    cases hb : (s.1.store.put q).1 with
    | false => rw [hb] at h; cases h
    | true =>
      rw [hb] at h
      obtain rfl := Option.some.inj h
      rw [hstore]
      exact InMemoryJobStore.get_put_applied s.1.store q hb
  | _ => cases h

/-- An action that is no put leaves the claim. -/
theorem claimed_copyStep {id : String} {t : Nat × Side} {a : Act} {s s' : CopyState} {r : a.Res}
    (hst : copyStep id t a s r s') (hp : a.record = none) : claimed id s'.2 = claimed id s.2 := by
  have happ : a.applied r = none := Act.applied_eq_none (by rintro rec rfl; cases hp) r
  rw [hst.2.1, claimed_append, claimStep, happ]
  simp

/-- The acting copy's own version. -/
theorem CopiesInv.bound_self {id : String} {t : Nat × Side} {a : Act} {s s' : CopyState} {r : a.Res}
    (h : CopiesInv id s) (hst : copyStep id t a s r s') (hnew : ∀ ws, a = .fromRecord ws → ¬ Live t.1 s.2)
    (hlive : Live t.1 s'.2) : Bound id t.1 (s'.1.job t.1).version s' := by
  obtain ⟨c, hc, -, hr, hf⟩ := Fleet.sem_step hst.1
  have hself : s'.1.job t.1 = (Ctx.exec c a (s.1.view t.1)).2.job := by rw [hf]; exact Fleet.put_job_self _ _ _
  rw [hst.2.1] at hlive
  by_cases hb : ∃ ws, a = .fromRecord ws
  · -- rebuilt from an early row, which nobody has claimed
    obtain ⟨ws, rfl⟩ := hb
    obtain ⟨-, q, hq, hearly⟩ := (live_append.1 hlive).resolve_left (hnew ws rfl)
    have hstore : s'.1.store = s.1.store := by
      rw [hf, Fleet.put_store, Ctx.exec_store c _ _ (by simp)]
      rfl
    have hq : r = some q := hq
    cases hrow : (s.1.view t.1).row with
    | none => simp [hr, Ctx.exec, Ctx.fromRecord, hrow] at hq
    | some d =>
      have hd : s.1.store.get id = some d := by rw [← h.ids t.1]; exact hrow
      have hver : (s'.1.job t.1).version = d.version := by
        rw [hself]
        simp [Ctx.exec, Ctx.fromRecord, hrow, Job.ofRecord]
      obtain rfl : d = q := by
        rw [hr] at hq
        simpa [Ctx.exec, Ctx.fromRecord, hrow] using hq
      refine ⟨d, by rw [hstore]; exact hd, Int.le_of_eq hver, fun o ho => ?_⟩
      rw [claimed_copyStep hst rfl, not_claimed_of_early h hd hearly] at ho
      cases ho
  · have hold : Live t.1 s.2 := by
      refine (live_append.1 hlive).resolve_right ?_
      rintro ⟨_, q, hq, _⟩
      cases a with
      | fromRecord ws => exact hb ⟨ws, rfl⟩
      | _ => cases hq
    by_cases hu : ∃ u, a = .refresh u
    · -- read back: not another copy's run
      obtain ⟨u, rfl⟩ := hu
      obtain ⟨d, hd, -, hclaim⟩ := h.bound t.1 hold
      have hrow : (s.1.view t.1).row = some d := by
        show s.1.store.get (s.1.job t.1).id = some d
        rw [h.ids]
        exact hd
      have hver : (s'.1.job t.1).version = d.version := by
        rw [hself, Ctx.exec_refresh_some c u _ hc.ne_raises hrow]
      have hstore : s'.1.store = s.1.store := by
        rw [hf, Fleet.put_store, Ctx.exec_store c _ _ (by simp)]
        rfl
      refine ⟨d, by rw [hstore]; exact hd, Int.le_of_eq hver, fun o ho => ?_⟩
      rw [claimed_copyStep hst rfl] at ho
      refine ⟨(hclaim o ho).1, fun hne hs => ?_⟩
      exact absurd (Option.some.inj (ho.symm.trans (hst.2.2 rfl d hd hs))) hne
    · have hver : (s'.1.job t.1).version = (s.1.job t.1).version := by
        rw [hself]
        exact Ctx.exec_version c a _ (fun u h => hu ⟨u, h⟩) (fun ws h => hb ⟨ws, h⟩)
      rw [hver]
      exact (h.bound t.1 hold).step hst

/-- **One action keeps the invariant**: a rebuilt copy is new, and workflows are started under the claim. -/
theorem CopiesInv.step {id : String} {t : Nat × Side} {a : Act} {s s' : CopyState} {r : a.Res} (h : CopiesInv id s)
    (hst : copyStep id t a s r s') (hnew : ∀ ws, a = .fromRecord ws → ¬ Live t.1 s.2)
    (hstart : a.start.isSome → claimed id s.2 = some t.1) : CopiesInv id s' := by
  obtain ⟨c, hc, -, hr, hf⟩ := Fleet.sem_step hst.1
  have hlog : s'.2 = s.2 ++ [⟨t, a, r, s.1, s'.1⟩] := hst.2.1
  have hself : s'.1.job t.1 = (Ctx.exec c a (s.1.view t.1)).2.job := by rw [hf]; exact Fleet.put_job_self _ _ _
  refine ⟨fun j => ?_, fun o ho => ?_, fun j hlive => ?_, fun e he hs => ?_⟩
  · by_cases hj : j = t.1
    · subst hj
      rw [hself]
      by_cases hb : ∃ ws, a = .fromRecord ws
      · obtain ⟨ws, rfl⟩ := hb
        simp only [Ctx.exec, Ctx.fromRecord]
        split
        · exact h.ids t.1
        · rename_i d hd
          exact (s.1.store.keyed _ d hd).trans (h.ids t.1)
      · exact (Ctx.exec_frame c a _ (fun ws hw => hb ⟨ws, hw⟩)).id.trans (h.ids t.1)
    · rw [copyStep_jobs hst hj]
      exact h.ids j
  · cases hn : claimed id s.2 with
    | some o' =>
      obtain ⟨d, hd, hge⟩ := h.claim o' hn
      obtain ⟨d', hd', -, hup, -⟩ := copyStep_row hst hd
      exact ⟨d', hd', hge.trans hup⟩
    | none =>
      rw [hlog] at ho
      obtain ⟨rec, hrec, rfl, hs⟩ := claimed_new hn ho
      obtain ⟨d, hd, hds⟩ := copyStep_applied hst hrec
      exact ⟨d, hd, by rw [hds, hs]; exact .refl _⟩
  · by_cases hj : j = t.1
    · subst hj
      exact h.bound_self hst hnew hlive
    · have hlive : Live j s.2 := by
        rw [hlog] at hlive
        refine (live_append.1 hlive).resolve_right ?_
        rintro ⟨ht, -⟩
        exact hj (congrArg Prod.fst ht).symm
      rw [copyStep_jobs hst hj]
      exact (h.bound j hlive).step hst
  · rw [hlog] at he ⊢
    rcases List.mem_append.1 he with he | he
    · exact claimed_mono _ (h.starts e he hs)
    · rw [List.mem_singleton.1 he] at hs ⊢
      exact claimed_mono _ (hstart hs)

/-! ## The protocol -/

structure CopyMove (id : String) (before : List CopyEv) (e : CopyEv) : Prop where
  inv     : CopiesInv id (e.pre, before) → CopiesInv id (e.post, before ++ [e])
  bound   : ∀ i v, Bound id i v (e.pre, before) → Bound id i v (e.post, before ++ [e])
  jobs    : ∀ j, j ≠ e.thread.1 → e.post.job j = e.pre.job j
  chans   : ∀ j, j ≠ e.thread.1 → e.post.chan j = e.pre.chan j
  fsm     : e.thread.2 = .dispatcher → SentOn e.thread.1 before →
    (e.post.job e.thread.1).fsm = (e.pre.job e.thread.1).fsm
  queue   : e.act.sent e.res = false → (e.post.chan e.thread.1).queue ≠ [] → (e.pre.chan e.thread.1).queue ≠ []
  sent    : e.act.sent e.res = true → Live e.thread.1 before
  requeue : e.thread.2 = .worker → e.act.sent e.res = true → SentOn e.thread.1 before

abbrev exclProto (id : String) (t : Nat × Side) : Proto Act Act.Res CopyState :=
  team (Fleet.sem Prod.fst) (RefreshesNoOthersRun id) (CopyMove id) t

variable {id : String}

theorem exec_queue (c : Choice) (a : Act) (x : Ctx) (hs : a.sent (Ctx.exec c a x).1 = false)
    (hq : (Ctx.exec c a x).2.chan.queue ≠ []) : x.chan.queue ≠ [] := by
  by_cases hr : a = .receive
  · subst hr
    intro h
    simp [Ctx.exec, h] at hq
  · by_cases hsend : a = .send
    · subst hsend
      revert hs hq
      simp only [Ctx.exec, Ctx.send]
      split
      · exact fun _ h => h
      · exact fun _ h => h
      · simp only [Channel.send]
        split
        · exact fun _ h => h
        · split
          · exact fun _ h => h
          · exact fun h => by cases h
    · rwa [Ctx.exec_chan c a x hsend hr] at hq

/-- The guarantee of one action. -/
theorem copyMove {t : Nat × Side} {a : Act} {s s' : CopyState} {r : a.Res} (hst : (exclProto id t).step a s r s')
    (hnew : ∀ ws, a = .fromRecord ws → ¬ Live t.1 s.2) (hstart : a.start.isSome → claimed id s.2 = some t.1)
    (hfsm : t.2 = .dispatcher → SentOn t.1 s.2 → a.Quiet)
    (hsend : a = .send → Live t.1 s.2 ∧ (t.2 = .worker → SentOn t.1 s.2)) : (exclProto id t).guar s s' := by
  obtain ⟨c, -, -, hr, hf⟩ := Fleet.sem_step hst.1
  have hlog : s'.2 = s.2 ++ [⟨t, a, r, s.1, s'.1⟩] := hst.2.1
  have hchan : s'.1.chan t.1 = (Ctx.exec c a (s.1.view t.1)).2.chan := by rw [hf]; simp [Fleet.put]
  have hjob : s'.1.job t.1 = (Ctx.exec c a (s.1.view t.1)).2.job := by rw [hf]; exact Fleet.put_job_self _ _ _
  have his : a.sent r = true → a = .send := fun h => by cases a <;> first | rfl | cases h
  refine team_guar hst ⟨fun h => ?_, fun i v h => ?_, fun j hj => copyStep_jobs hst hj, fun j hj => ?_, fun ht hs => ?_,
    fun hs hq => ?_, fun hs => (hsend (his hs)).1, fun ht hs => (hsend (his hs)).2 ht⟩
  · rw [← hlog]; exact h.step hst hnew hstart
  · rw [← hlog]; exact h.step hst
  · show s'.1.chan j = _
    rw [hf]
    simp only [Fleet.put]
    exact Function.update_of_ne hj _ _
  · show (s'.1.job t.1).fsm = _
    rw [hjob, Ctx.exec_fsm c a _ (hfsm ht hs)]
    rfl
  · have hq : (s'.1.chan t.1).queue ≠ [] := hq
    rw [hchan] at hq
    rw [hr] at hs
    exact exec_queue c a _ hs hq

/-- The action starts no workflow and rebuilds no job. -/
def Act.Plain : Act → Prop
  | .startWorkflow _ | .fromRecord _ => False
  | _                                => True

theorem Act.Plain.start {a : Act} (h : a.Plain) : a.start = none := by
  cases a with
  | startWorkflow i => exact h.elim
  | _ => rfl

theorem Act.Plain.rebuilds {a : Act} (h : a.Plain) (ws : List Workflow) : a ≠ .fromRecord ws := by
  rintro rfl
  exact h

theorem Act.Plain.recovers : Act.Recovers Act.Plain :=
  ⟨⟨trivial, fun _ => trivial, fun _ => trivial, trivial⟩, trivial, trivial, fun _ => trivial, fun _ => trivial,
    fun _ _ => trivial, trivial⟩

/-! ## A scheduled copy -/

/-- Copy `i` is on its way: sent, and rebuilt from an early row. -/
structure Running (id : String) (i : Nat) (s : CopyState) : Prop where
  inv  : CopiesInv id s
  sent : SentOn i s.2
  live : Live i s.2

theorem Extends.inv {s s' : CopyState} {e : CopyEv} (hx : Extends s e s') (hg : CopyMove id s.2 e)
    (h : CopiesInv id s) : CopiesInv id s' := by
  have hn := hg.inv (by rw [hx.pre]; exact h)
  rwa [hx.post, ← hx.log] at hn

theorem Running.stable (t : Nat × Side) : (exclProto id t).Stable (Running id t.1) :=
  team_stable fun s e s' _ hx _ hg h =>
    ⟨Extends.inv hx hg h.inv, by rw [hx.log]; exact sentOn_append.2 (.inl h.sent),
      by rw [hx.log]; exact live_append.2 (.inl h.live)⟩

theorem Running.step {t : Nat × Side} {a : Act} {s s' : CopyState} {r : a.Res} (h : Running id t.1 s)
    (hst : (exclProto id t).step a s r s') (hb : ∀ ws, a ≠ .fromRecord ws)
    (hstart : a.start.isSome → claimed id s.2 = some t.1) (hq : t.2 = .dispatcher → a.Quiet) :
    (exclProto id t).guar s s' ∧ Running id t.1 s' :=
  ⟨copyMove hst (fun ws hw => absurd hw (hb ws)) hstart (fun ht _ => hq ht) (fun _ => ⟨h.live, fun _ => h.sent⟩),
    h.inv.step hst (fun ws hw => absurd hw (hb ws)) hstart,
    by rw [hst.2.1]; exact sentOn_append.2 (.inl h.sent), by rw [hst.2.1]; exact live_append.2 (.inl h.live)⟩

/-! ## The dispatcher -/

theorem saveScheduled_keeps_running (i : Nat) (job : Ident) : ∀ (n : Nat) (last : Option Exn),
    (exclProto id (i, .dispatcher)).Keeps (Running id i) (Job.saveScheduled job n last)
  | 0, some e => .raise e
  | 0, none => .raise _
  | n + 1, last => by
    have hsave : (exclProto id (i, .dispatcher)).Keeps (Running id i) Job.save :=
      .only (Running.stable (i, .dispatcher)) (fun a ha s r s' h hst => h.step hst ha.1.rebuilds
        (fun hs => by rw [ha.1.start] at hs; cases hs) (fun _ => ha.2))
        (save_only (q := fun a => a.Plain ∧ a.Quiet) ⟨⟨trivial, rfl⟩, fun _ => ⟨trivial, rfl⟩, fun _ => ⟨trivial, rfl⟩,
          ⟨trivial, rfl⟩⟩)
    refine hsave.attempt.bind fun r => ?_
    match r with
    | .ok true => exact .ret ()
    | .ok false => exact saveScheduled_keeps_running i job n last
    | .error e => exact saveScheduled_keeps_running i job n (some e)

/-- Before the send: rebuilt from an early row, or not rebuilt at all. -/
structure Unscheduled (id : String) (i : Nat) (s : CopyState) : Prop where
  inv    : CopiesInv id s
  unsent : ¬ SentOn i s.2

theorem Unscheduled.stable (i : Nat) : (exclProto id (i, .dispatcher)).Stable (Unscheduled id i) :=
  team_stable fun s e s' he hx _ hg h => by
    refine ⟨Extends.inv hx hg h.inv, fun hs => ?_⟩
    rw [hx.log] at hs
    rcases sentOn_append.1 hs with hs | ⟨hi, hs⟩
    · exact h.unsent hs
    · cases ht : e.thread.2 with
      | dispatcher => exact he (Prod.ext hi ht)
      | worker => exact h.unsent (hi ▸ hg.requeue ht hs)

theorem live_stable (i : Nat) : (exclProto id (i, .dispatcher)).Stable (fun s => Live i s.2) :=
  team_stable fun s e s' _ hx _ _ h => by rw [hx.log]; exact live_append.2 (.inl h)

theorem not_live_stable (i : Nat) : (exclProto id (i, .dispatcher)).Stable (fun s => ¬ Live i s.2) :=
  team_stable fun s e s' he hx _ _ h hl => by
    rw [hx.log] at hl
    rcases live_append.1 hl with hl | ⟨ht, -⟩
    · exact h hl
    · exact he ht

theorem Unscheduled.step {i : Nat} {a : Act} {s s' : CopyState} {r : a.Res} (h : Unscheduled id i s ∧ Live i s.2)
    (hst : (exclProto id (i, .dispatcher)).step a s r s') (ha : a.Plain) :
    (exclProto id (i, .dispatcher)).guar s s' ∧ (if a.sent r then Running id i s' else Unscheduled id i s' ∧ Live i s'.2) := by
  have hlog : s'.2 = s.2 ++ [⟨(i, .dispatcher), a, r, s.1, s'.1⟩] := hst.2.1
  have hnew : ∀ ws, a = .fromRecord ws → ¬ Live i s.2 := fun ws hw => absurd hw (ha.rebuilds ws)
  have hstart : a.start.isSome → claimed id s.2 = some i := fun hs => by rw [ha.start] at hs; cases hs
  have hlive : Live i s'.2 := by rw [hlog]; exact live_append.2 (.inl h.2)
  have hinv : CopiesInv id s' := h.1.inv.step hst hnew hstart
  refine ⟨copyMove hst hnew hstart (fun _ hs => absurd hs h.1.unsent) (fun _ => ⟨h.2, fun ht => by cases ht⟩), ?_⟩
  split
  · rename_i hs
    exact ⟨hinv, by rw [hlog]; exact sentOn_append.2 (.inr ⟨rfl, hs⟩), hlive⟩
  · rename_i hs
    refine ⟨⟨hinv, fun hn => ?_⟩, hlive⟩
    rw [hlog] at hn
    rcases sentOn_append.1 hn with hn | ⟨-, hn⟩
    · exact h.1.unsent hn
    · exact hs hn

theorem unscheduled_stable (i : Nat) :
    (exclProto id (i, .dispatcher)).Stable (fun s => Unscheduled id i s ∧ Live i s.2) :=
  (Unscheduled.stable i).and (live_stable i)

theorem unscheduled_keeps (i : Nat) {α : Type} {p : JobProg α} (hp : p.Only (fun a => a.Plain ∧ a ≠ .send)) :
    (exclProto id (i, .dispatcher)).Keeps (fun s => Unscheduled id i s ∧ Live i s.2) p := by
  refine Proto.Keeps.only (unscheduled_stable i) (fun a ha s r s' h hst => ?_) hp
  obtain ⟨hg, h'⟩ := Unscheduled.step h hst ha.1
  have hs : a.sent r = false := by
    cases a with
    | send => exact absurd rfl ha.2
    | _ => rfl
  rw [if_neg (by simp [hs])] at h'
  exact ⟨hg, h'⟩

theorem unscheduled_call (i : Nat) (a : Act) (ha : a.Plain) (hs : a ≠ .send) :
    (exclProto id (i, .dispatcher)).Keeps (fun s => Unscheduled id i s ∧ Live i s.2) (Job.do_ a) :=
  unscheduled_keeps i (.call ⟨ha, hs⟩)

/-- **Before the send nothing is running, after it the copy is**: the lifecycle is restored only while unsent. -/
theorem dispatch_wp (i : Nat) (job : Ident) {s : CopyState} (hs : Unscheduled id i s ∧ Live i s.2) :
    (exclProto id (i, .dispatcher)).wp (Job.dispatch job) (fun _ _ => True) s := by
  have hst := @unscheduled_stable id i
  have undone : ∀ (st : Option Status) (t : String) (e : Exn) (s : CopyState), Unscheduled id i s ∧ Live i s.2 →
      (exclProto id (i, .dispatcher)).wp (do Job.do_ (.restoreLifecycle st t); Prog.raise e : JobProg Unit)
        (fun _ _ => True) s := fun st t e s hs =>
    Proto.wp_mono (fun _ _ _ => trivial) _ _ (((unscheduled_call i (.restoreLifecycle st t)
      trivial (by simp)).bind fun _ => .raise e) s hs)
  refine Proto.wp_seq (unscheduled_call i .fsmCurrent trivial (by simp) s hs) (fun prevState s hs => ?_) (fun _ _ _ => trivial)
  refine Proto.wp_seq (unscheduled_call i .status trivial (by simp) s hs) (fun prevStatus s hs => ?_) (fun _ _ _ => trivial)
  have hevents : (do Job.applyEventP .init; Job.applyEventP .schedule : JobProg Unit).Only
      (fun a => a.Plain ∧ a ≠ .send) :=
    (applyEventP_only ⟨trivial, by simp⟩).bind fun _ => applyEventP_only ⟨trivial, by simp⟩
  refine Proto.wp_try (unscheduled_keeps i hevents s hs) (fun r s hs => ?_)
  match r with
  | .error e => exact undone _ _ e s hs
  | .ok () =>
    refine Proto.wp_try (M := fun r s => match r with
      | .ok _ => Running id i s
      | .error _ => Unscheduled id i s ∧ Live i s.2) ?_ (fun r s hs => ?_)
    · have havail : (exclProto id (i, .dispatcher)).Keeps (fun s => Unscheduled id i s ∧ Live i s.2)
          ((Job.do_ .available).bind Prog.ofExcept : JobProg Unit) :=
        (unscheduled_call i .available trivial (by simp)).bind fun r => .ofExcept r
      refine Proto.wp_seq (havail s hs) (fun _ s hs => ?_) (fun _ _ h => h)
      refine Proto.wp_seq (unscheduled_call i .runningLoop trivial (by simp) s hs) (fun loop s hs => ?_) (fun _ _ h => h)
      cases loop with
      | true => exact hs
      | false =>
        refine Proto.wp_call hst hs (fun s₁ r s₂ h₁ hstep => ?_)
        obtain ⟨hg, h₂⟩ := Unscheduled.step h₁ hstep trivial
        refine ⟨hg, ?_⟩
        cases r with
        | ok => exact h₂
        | full => exact h₂
        | stopped => exact h₂
    · match r with
      | .error e => exact undone _ _ e s hs
      | .ok () => exact Proto.wp_mono (fun _ _ _ => trivial) _ _ (saveScheduled_keeps_running i job _ _ s hs)

theorem scheduleCopy_wp (i : Nat) (job : Ident) (ws : List Workflow) {s : CopyState}
    (hs : Unscheduled id i s ∧ ¬ Live i s.2) :
    (exclProto id (i, .dispatcher)).wp (scheduleCopy job ws) (fun _ _ => True) s := by
  refine Proto.wp_call ((Unscheduled.stable i).and (not_live_stable i)) hs (fun s₁ r s₂ h₁ hst => ?_)
  have hlog : s₂.2 = s₁.2 ++ [⟨(i, .dispatcher), .fromRecord ws, r, s₁.1, s₂.1⟩] := hst.2.1
  have hnew : ∀ ws', Act.fromRecord ws = .fromRecord ws' → ¬ Live i s₁.2 := fun _ _ => h₁.2
  refine ⟨copyMove hst hnew (fun h => by cases h) (fun _ hsent => absurd hsent h₁.1.unsent) (fun h => by cases h), ?_⟩
  match r, hst, hlog with
  | none, _, _ => exact trivial
  | some d, hst, hlog =>
    by_cases hd : early d.status = true
    · simp only [if_pos hd]
      refine dispatch_wp i job ⟨⟨h₁.1.inv.step hst hnew (fun h => by cases h), fun hsent => ?_⟩, ?_⟩
      · rw [hlog] at hsent
        rcases sentOn_append.1 hsent with hsent | ⟨-, hsent⟩
        · exact h₁.1.unsent hsent
        · cases hsent
      · rw [hlog]
        exact live_append.2 (.inr ⟨rfl, d, rfl, hd⟩)
    · simp only [if_neg hd]
      exact trivial

/-! ## The worker -/

/-- Nothing is queued before the copy was sent. -/
structure Awaiting (id : String) (i : Nat) (s : CopyState) : Prop where
  inv    : CopiesInv id s
  queued : (s.1.chan i).queue ≠ [] → Running id i s

theorem Awaiting.stable (i : Nat) : (exclProto id (i, .worker)).Stable (Awaiting id i) :=
  team_stable fun s e s' he hx hk hg h => by
    have hrun : Running id i s → Running id i s' :=
      Running.stable (i, .worker) s s' ⟨e, he, hx, hk, hg⟩
    have hinv := Extends.inv hx hg h.inv
    refine ⟨hinv, fun hq => ?_⟩
    by_cases hi : e.thread.1 = i
    · subst hi
      cases hs : e.act.sent e.res with
      | true =>
        refine ⟨hinv, ?_, ?_⟩
        · rw [hx.log]; exact sentOn_append.2 (.inr ⟨rfl, hs⟩)
        · rw [hx.log]; exact live_append.2 (.inl (hg.sent hs))
      | false =>
        have hpre := hg.queue hs (by rw [hx.post]; exact hq)
        rw [hx.pre] at hpre
        exact hrun (h.queued hpre)
    · have hchan := hg.chans i (Ne.symm hi)
      rw [hx.pre, hx.post] at hchan
      rw [hchan] at hq
      exact hrun (h.queued hq)

theorem claimed_stable (i o : Nat) : (exclProto id (i, .worker)).Stable (fun s => claimed id s.2 = some o) :=
  team_stable fun s e s' _ hx _ _ h => by rw [hx.log]; exact claimed_mono e h

theorem bound_stable (i : Nat) (v : Int) : (exclProto id (i, .worker)).Stable (Bound id i v) :=
  team_stable fun s e s' _ hx _ hg h => by
    have hn := hg.bound i v (by rw [hx.pre]; exact h)
    rwa [hx.post, ← hx.log] at hn

/-- The dispatcher leaves a sent copy's machine to the worker. -/
theorem started_stable (i : Nat) :
    (exclProto id (i, .worker)).Stable (fun s => Running id i s ∧ (s.1.job i).fsm = some .inProgress) :=
  team_stable fun s e s' he hx hk hg h => by
    refine ⟨Running.stable (i, .worker) s s' ⟨e, he, hx, hk, hg⟩ h.1, ?_⟩
    rw [← hx.post]
    have hpre : (e.pre.job i).fsm = some .inProgress := by rw [hx.pre]; exact h.2
    by_cases hi : e.thread.1 = i
    · subst hi
      have ht : e.thread.2 = .dispatcher := by
        cases ht : e.thread.2 with
        | dispatcher => rfl
        | worker => exact (he (Prod.ext rfl ht)).elim
      rw [hg.fsm ht h.1.sent]
      exact hpre
    · rw [hg.jobs i (Ne.symm hi)]
      exact hpre

theorem running_keeps (i : Nat) {α : Type} {p : JobProg α} (hp : p.Only Act.Plain) :
    (exclProto id (i, .worker)).Keeps (Running id i) p :=
  .only (Running.stable (i, .worker)) (fun _ ha _ _ _ h hst =>
    h.step hst ha.rebuilds (fun hs => by rw [ha.start] at hs; cases hs) (fun ht => by cases ht)) hp

/-- **The RUN put**: when it is applied, the copy has the claim, for a version another copy's claim left behind is
refused. -/
theorem run_put_claims {i : Nat} {rec : JobRecord} {s s' : CopyState} {r : (Act.put rec).Res} (hid : rec.id = id)
    (hrun : rec.status = Status.inProgress.value) (hb : Bound id i rec.version s)
    (hst : copyStep id (i, .worker) (.put rec) s r s') (hr : r = .ok true) : claimed id s'.2 = some i := by
  subst hr
  rw [hst.2.1]
  cases hn : claimed id s.2 with
  | none =>
    rw [claimed_append, claimStep, hn]
    simp [Act.applied, hid, hrun]
  | some o =>
    by_cases ho : o = i
    · subst ho
      exact claimed_mono _ hn
    · obtain ⟨d, hd, -, hclaim⟩ := hb
      obtain ⟨hge, hlt⟩ := hclaim o hn
      obtain ⟨c, hc, -, hr, -⟩ := Fleet.sem_step hst.1
      rw [Ctx.exec_put_healthy c rec _ hc] at hr
      have happ : (s.1.store.put rec).1 = true := (Except.ok.inj hr).symm
      obtain ⟨hnone, -⟩ | ⟨d', hd', hw, -⟩ | ⟨_, -, -, hp⟩ := InMemoryJobStore.put_cases s.1.store rec
      · rw [hid, hd] at hnone
        cases hnone
      · rw [hid, hd] at hd'
        obtain rfl := Option.some.inj hd'
        have hs : d.status = Status.inProgress.value := (hrun ▸ hw.1).antisymm hge
        have := hlt ho hs
        have := hw.2
        omega
      · rw [hp] at happ
        cases happ

theorem runSave_wp (i : Nat) {s : CopyState} (hs : Running id i s ∧ (s.1.job i).fsm = some .inProgress) :
    (exclProto id (i, .worker)).wp Job.save
      (fun r s => Running id i s ∧ (r = .ok true → claimed id s.2 = some i)) s := by
  have keep : ∀ {a : Act} {s s' : CopyState} {r : a.Res}, a.Plain → Running id i s →
      (exclProto id (i, .worker)).step a s r s' → (exclProto id (i, .worker)).guar s s' ∧ Running id i s' :=
    fun ha h hst => h.step hst ha.rebuilds (fun hs => by rw [ha.start] at hs; cases hs) (fun ht => by cases ht)
  refine wp_save (P := fun s => Running id i s ∧ (s.1.job i).fsm = some .inProgress)
    (B := fun rec s => Running id i s ∧ (rec.id = id ∧ rec.status = Status.inProgress.value) ∧
      Bound id i rec.version s)
    (W := fun _ s => Running id i s ∧ claimed id s.2 = some i)
    (started_stable i) (fun rec => ?_) (fun rec => (Running.stable _).and (claimed_stable i i)) ?_ ?_ ?_ hs
  · exact (Running.stable _).and (Proto.Stable.and (fun _ _ _ h => h) (bound_stable i rec.version))
  · rintro s rec s' ⟨h, hf⟩ hst
    obtain ⟨hg, h'⟩ := keep (a := .buildRecord) trivial h hst
    obtain ⟨c, -, -, rfl, -⟩ := Fleet.sem_step hst.1
    refine ⟨hg, h', ⟨h.inv.ids i, ?_⟩, (h.inv.bound i h.live).step hst⟩
    exact ((s.1.job i).currentStatus_eq_value (by simp)).2 hf
  · rintro rec s r s' ⟨h, ⟨hid, hrun⟩, hb⟩ hst
    obtain ⟨hg, h'⟩ := keep (a := .put rec) trivial h hst
    refine ⟨hg, ?_⟩
    match r, hst with
    | .ok true, hst => exact ⟨h', run_put_claims hid hrun hb hst rfl⟩
    | .ok false, _ => exact ⟨h', fun h => by cases h⟩
    | .error e, _ => exact ⟨h', fun h => by cases h⟩
  · rintro rec s r s' ⟨h, hc⟩ hst
    obtain ⟨hg, h'⟩ := keep (a := .refresh rec.updated) trivial h hst
    have hc' : claimed id s'.2 = some i := by rw [hst.2.1]; exact claimed_mono _ hc
    refine ⟨hg, ?_⟩
    match r with
    | .ok () => exact ⟨h', fun _ => hc'⟩
    | .error e => exact ⟨h', fun h => by cases h⟩

/-- Under its claim the copy may start workflows. -/
theorem execute_keeps_claim (i : Nat) :
    (exclProto id (i, .worker)).Keeps (fun s => Running id i s ∧ claimed id s.2 = some i) Worker.execute := by
  have honly : Worker.execute.Only (fun a => ∀ ws, a ≠ .fromRecord ws) := Worker.execute_only
    ⟨⟨by simp, by simp, by simp, by simp⟩, by simp, by simp, by simp, by simp, by simp, by simp, by simp⟩
  refine .only ((Running.stable _).and (claimed_stable i i)) (fun a ha s r s' h hst => ?_) honly
  obtain ⟨hg, h'⟩ := h.1.step hst ha (fun _ => h.2) (fun ht => by cases ht)
  exact ⟨hg, h', by rw [hst.2.1]; exact claimed_mono _ h.2⟩

theorem runAndExecute_keeps (i : Nat) (job : Ident) (st : Option Status) (t : String) :
    (exclProto id (i, .worker)).Keeps (Running id i) (Worker.runAndExecute job st t) := by
  intro s hs
  refine Proto.wp_seq (M := fun r s => Running id i s ∧ (r = .ok () → (s.1.job i).fsm = some .inProgress)) ?_
    (fun _ s hs => ?_) (fun _ _ h => h.1)
  · refine Proto.wp_act (Running.stable (i, .worker)) hs (fun s₁ r s₂ h₁ hst => ?_)
    obtain ⟨hg, h₂⟩ := h₁.step hst (by simp) (fun h => by cases h) (fun ht => by cases ht)
    refine ⟨hg, ?_⟩
    obtain ⟨c, -, -, hr, hf⟩ := Fleet.sem_step hst.1
    obtain ⟨a, b, -, ht, hx⟩ | ⟨-, hx⟩ := Ctx.exec_applyEvent c .run (s₁.1.view i)
    · rw [hx] at hr hf
      subst hr
      refine ⟨h₂, fun _ => ?_⟩
      rw [hf, (Fsm.target_run ht).2]
      simp
    · rw [hx] at hr
      subst hr
      exact ⟨h₂, fun h => by cases h⟩
  · refine Proto.wp_try (runSave_wp i ⟨hs.1, hs.2 rfl⟩) (fun r s hs => ?_)
    match r with
    | .error e =>
      exact running_keeps i (Worker.failOrRestoreAfterRunPersist_only Act.Plain.recovers job st t e) s hs.1
    | .ok false => exact running_keeps i (Worker.runSkipped_only Act.Plain.recovers job st t) s hs.1
    | .ok true =>
      exact Proto.wp_mono (fun _ _ h => h.1) _ _ (execute_keeps_claim i s ⟨hs.1, hs.2 rfl⟩)

theorem process_keeps_running (i : Nat) (job : Ident) :
    (exclProto id (i, .worker)).Keeps (Running id i) (Worker.process job) := by
  refine .bind (running_keeps i (.call (by trivial))) fun cancelled => ?_
  cases cancelled with
  | true => exact running_keeps i (Worker.ensureCancelledPersistedLogged_only Act.Plain.recovers.toSaves)
  | false =>
    refine .bind (running_keeps i (.call (by trivial))) fun st => ?_
    refine .bind (running_keeps i (.call (by trivial))) fun t => ?_
    refine .bind (running_keeps i (Worker.heal_only Act.Plain.recovers.toSaves job)).attempt fun r => ?_
    match r with
    | .error e => exact running_keeps i (Worker.failOrRestoreAfterRunPersist_only Act.Plain.recovers job st t e)
    | .ok () => exact runAndExecute_keeps i job st t

theorem runOnce_keeps (i : Nat) (job : Ident) :
    (exclProto id (i, .worker)).Keeps (Awaiting id i) (Worker.runOnce job) := by
  intro s hs
  refine Proto.wp_call (Awaiting.stable i) hs (fun s₁ r s₂ h₁ hst => ?_)
  obtain ⟨c, -, -, hr, hf⟩ := Fleet.sem_step hst.1
  have hinv := h₁.inv.step hst (by simp) (fun h => by cases h)
  have hg := copyMove hst (by simp) (fun h => by cases h) (fun ht => by cases ht) (fun h => by cases h)
  refine ⟨hg, ?_⟩
  have hmove : Running id i s₁ → Running id i s₂ := fun h =>
    (h.step hst (by simp) (fun h => by cases h) (fun ht => by cases ht)).2
  match r, hr with
  | none, hr =>
    refine ⟨hinv, fun hq => hmove (h₁.queued fun hnil => hq ?_)⟩
    have hchan : s₂.1.chan i = (Ctx.exec c .receive (s₁.1.view i)).2.chan := by rw [hf]; simp [Fleet.put]
    rw [hchan]
    simp [Ctx.exec, Fleet.view, hnil]
  | some q, hr =>
    have hne : (s₁.1.chan i).queue ≠ [] := fun hnil => by simp [Ctx.exec, Fleet.view, hnil] at hr
    refine Proto.wp_seq (process_keeps_running i job s₂ (hmove (h₁.queued hne))) (fun _ s hs => ?_) (fun _ s hs => ?_)
    · exact ⟨hs.inv, fun _ => hs⟩
    · exact ⟨hs.inv, fun _ => hs⟩

theorem runTimes_keeps (i : Nat) (job : Ident) : ∀ n,
    (exclProto id (i, .worker)).Keeps (Awaiting id i) (runTimes job n)
  | 0 => .ret ()
  | n + 1 => (runOnce_keeps i job).attempt.bind fun _ => runTimes_keeps i job n

/-! ## Every run -/

/-- **At most one copy runs the workflows**: in every run in which no refresh reads an InProgress row that another copy
wrote. -/
theorem one_copy_runs (f : Fleet) (names : Nat → Ident) (workflows : Nat → List Workflow) (times : Nat → Nat)
    (hid : ∀ i, (f.job i).id = id) (hq : ∀ i, (f.chan i).queue = [])
    {c : Conf (Nat × Side) Act Act.Res Exn Unit CopyState}
    (hrun : Conf.Runs ((Fleet.sem Prod.fst).logged (fun _ _ => True)) (copiesRun f names workflows times) c)
    (hread : Admits (RefreshesNoOthersRun id) c.state.2) : Exclusive c.state.2 := by
  have hinit : CopiesInv id (f, []) :=
    ⟨hid, (fun o ho => by cases ho), (fun i ⟨e, he, _⟩ => by cases he), (fun e he => by cases he)⟩
  have hwp : ∀ t, (exclProto id t).wp ((copiesRun f names workflows times).prog t) (fun _ _ => True) (f, []) := by
    rintro ⟨i, side⟩
    cases side with
    | dispatcher =>
      exact scheduleCopy_wp i _ _ ⟨⟨hinit, fun ⟨e, he, _⟩ => by cases he⟩, fun ⟨e, he, _⟩ => by cases he⟩
    | worker =>
      exact Proto.wp_mono (fun _ _ _ => trivial) _ _ (runTimes_keeps i _ _ _ ⟨hinit, fun h => absurd (hq i) h⟩)
  have hinv : CopiesInv id c.state :=
    team_invariant hwp (fun s e s' hx _ hg h => Extends.inv hx hg h) hinit (hrun.restrict hread)
  intro e₁ h₁ e₂ h₂ hs₁ hs₂
  exact Option.some.inj ((hinv.starts e₁ h₁ hs₁).symm.trans (hinv.starts e₂ h₂ hs₂))

/-! Copies of the sample row, each with one workflow. -/

def sampleCopies : Conf (Nat × Side) Act Act.Res Exn Unit CopyState :=
  copiesRun sampleFleet (fun i => (sampleFleet.job i).ident) (fun _ => [⟨[]⟩]) (fun _ => 1)

theorem exists_copiesRun {P : Conf (Nat × Side) Act Act.Res Exn Unit CopyState → Prop} [DecidablePred P]
    (sch : List ((Nat × Side) × Choice)) (hok : ∀ p ∈ sch, faultFree p.2)
    (h : (sampleCopies.execs (Fleet.exec Prod.fst) sch).any (fun c => decide (P c)) = true) :
    ∃ c, Conf.Runs ((Fleet.sem Prod.fst).logged (fun _ _ => True)) sampleCopies c ∧ P c :=
  Conf.exists_runs sch (fun p hp _ _ => hok p hp) h

/-- Both copies are scheduled, copy 1 runs its workflow, and copy 0's RUN put is refused. -/
theorem one_copy_runs_run : ∃ c, Conf.Runs ((Fleet.sem Prod.fst).logged (fun _ _ => True)) sampleCopies c ∧
    Admits (RefreshesNoOthersRun "j") c.state.2 ∧
    (c.state.2.filterMap (fun e => e.act.start.map (fun _ => e.thread.1))) = [1] ∧
    (∃ e ∈ c.state.2, e.thread = (0, .worker) ∧ e.act.record.isSome ∧ e.act.applied e.res = none) ∧
    Exclusive c.state.2 := by
  have hrun : ∃ c, Conf.Runs ((Fleet.sem Prod.fst).logged (fun _ _ => True)) sampleCopies c ∧
      Admits (RefreshesNoOthersRun "j") c.state.2 ∧
      (c.state.2.filterMap (fun e => e.act.start.map (fun _ => e.thread.1))) = [1] ∧
      (∃ e ∈ c.state.2, e.thread = (0, .worker) ∧ e.act.record.isSome ∧ e.act.applied e.res = none) :=
    exists_copiesRun
      (turns 11 (0, .dispatcher) ++ turns 8 (1, .dispatcher) ++ turns 14 (1, .worker) ++ turns 8 (0, .worker))
      (by decide) (by decide +kernel)
  obtain ⟨c, hrun, hread, hstarts, hrefused⟩ := hrun
  exact ⟨c, hrun, hread, hstarts, hrefused, one_copy_runs _ _ _ _ (fun _ => rfl) (fun _ => rfl) hrun hread⟩

/-- **Two copies run the workflows**: copy 1 is rebuilt from copy 0's Scheduled write and claims the job; copy 0's late
refresh reads the claimant's version, and its own InProgress put is then applied. -/
theorem two_copies_run : ∃ c, Conf.Runs ((Fleet.sem Prod.fst).logged (fun _ _ => True)) sampleCopies c ∧
    ¬ Exclusive c.state.2 :=
  exists_copiesRun
    (turns 10 (0, .dispatcher) ++ turns 8 (1, .dispatcher) ++ turns 13 (1, .worker) ++ turns 1 (0, .dispatcher) ++
      turns 13 (0, .worker))
    (by decide) (by decide +kernel)

end Pypepper
