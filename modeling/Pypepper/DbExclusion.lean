import Mathlib.Data.List.Induction
import Pypepper.DbFleet
import Pypepper.Exclusion
/-!
# DbExclusion — at most one copy runs the workflows, over a database

The copies of one job, each scheduled and processed by its own worker, save it to the SQL or the MongoDB store.  Their runs
are runs over the in-memory store, where the first applied InProgress put claims the job; the claim, and what a refresh
reads, are the same in both.
-/
namespace Pypepper

open Conc (Conf Admits team_invariant)

section
variable {π : Type}

/-- The row of `id` was moved to InProgress. -/
def Seen.runs (id : String) : Seen → Bool
  | .wrote j status => decide (j = id ∧ status = Status.inProgress.value)
  | .did _ _        => false

/-- The copy whose write first moved the row to InProgress. -/
def claimedOf (id : String) (l : List ((Nat × Side) × Seen)) : Option Nat :=
  (l.find? fun p => p.2.runs id).map fun p => p.1.1

def DbAct.isRefresh : DbAct π → Bool
  | .job a  => a.isRefresh
  | .stmt _ => false

def DbAct.start : DbAct π → Option Nat
  | .job a  => a.start
  | .stmt _ => none

/-- A refresh does not read an InProgress row that another copy wrote. -/
def SelectsNoOthersRun (id : String) (before : List (DbFleetEv π (Nat × Side))) (e : DbFleetEv π (Nat × Side)) : Prop :=
  e.act.isRefresh → ∀ row ∈ e.pre.table.get id, row.status = Status.inProgress.value →
    claimedOf id (dbSeen before) = some e.thread.1

/-- All workflows were started by one copy. -/
def DbExclusive (log : List (DbFleetEv π (Nat × Side))) : Prop :=
  ∀ e₁ ∈ log, ∀ e₂ ∈ log, e₁.act.start.isSome → e₂.act.start.isSome → e₁.thread.1 = e₂.thread.1

instance (id : String) (before : List (DbFleetEv π (Nat × Side))) (e : DbFleetEv π (Nat × Side)) :
    Decidable (SelectsNoOthersRun id before e) :=
  inferInstanceAs (Decidable (e.act.isRefresh → ∀ row ∈ e.pre.table.get id, row.status = _ → _ = _))

/-! ## The claim and the refreshes in matched logs -/

theorem claimedOf_append (id : String) (l l' : List ((Nat × Side) × Seen)) :
    claimedOf id (l ++ l') = (claimedOf id l).or (claimedOf id l') := by
  rw [claimedOf, List.find?_append, Option.map_or, claimedOf, claimedOf]

/-- The claim of an action is what is seen of it. -/
theorem claimStep_none (id : String) (e : CopyEv) :
    claimStep id none e = claimedOf id ((e.act.seen e.res).map (e.thread, ·)).toList := by
  obtain ⟨t, a, r, f, f'⟩ := e
  cases a with
  | put rec =>
    match r with
    | .error x => rfl
    | .ok false => rfl
    | .ok true =>
      by_cases hc : rec.id = id ∧ rec.status = Status.inProgress.value
      · simp [claimStep, Act.applied, Act.seen, claimedOf, Seen.runs, hc]
      · simp [claimStep, Act.applied, Act.seen, claimedOf, Seen.runs, hc]
  | _ => rfl

theorem claimed_eq (id : String) (log : List CopyEv) : claimed id log = claimedOf id (seen log) := by
  induction log using List.reverseRecOn with
  | nil => rfl
  | append_singleton log e ih =>
    rw [claimed_append, ih, seen_append, claimedOf_append, ← claimStep_none]
    simp [claimStep]

theorem Act.seen_did {a' a : Act} {r' : a'.Res} {r : a.Res} (h : a'.seen r' = some (.did a r)) : a' = a := by
  cases a' with
  | put rec =>
    match r' with
    | .error x => cases h
    | .ok false => cases h
    | .ok true => cases h
  | _ =>
    obtain ⟨rfl, -⟩ := Seen.did.inj (Option.some.inj h)
    rfl

theorem Act.seen_of_not_put {a : Act} (ha : a.record = none) (r : a.Res) : a.seen r = some (.did a r) := by
  cases a with
  | put rec => cases ha
  | _ => rfl

theorem DbAct.seen_did {a' : DbAct π} {r' : a'.Res} {a : Act} {r : a.Res} (h : a'.seen r' = some (.did a r)) :
    a' = .job a := by
  cases a' with
  | job b =>
    obtain ⟨rfl, -⟩ := Seen.did.inj (Option.some.inj h)
    rfl
  | stmt q => cases q <;> cases r' <;> cases h

section
variable {col : Column π} {l : List (DbFleetEv π (Nat × Side))} {u : List CopyEv}

theorem Matched.claimed_eq (h : Matched col l u) (id : String) : claimedOf id (dbSeen l) = claimed id u := by
  rw [h.seen_eq, Pypepper.claimed_eq]

theorem Same.isRefresh {e' : DbFleetEv π (Nat × Side)} {e : CopyEv} (h : Same col e' e) (hr : e.act.isRefresh = true) :
    e'.act.isRefresh = true := by
  have hput : e.act.record = none := by
    cases hact : e.act <;> rw [hact] at hr <;> first | rfl | cases hr
  rw [DbAct.seen_did (h.seen.trans (Act.seen_of_not_put hput e.res))]
  exact hr

/-- **The refreshes read the same** over the table and over the store. -/
theorem Matched.refreshes {id : String} (h : Matched col l u) (hl : Admits (SelectsNoOthersRun id) l) :
    Admits (RefreshesNoOthersRun id) u := by
  induction h with
  | nil => exact .nil
  | quiet _ _ ih => exact ih hl.of_append.1
  | act hm hs ih =>
    obtain ⟨hl, he⟩ := hl.of_append
    refine (ih hl).append fun hr d hd hst => ?_
    rw [← hm.claimed_eq, ← hs.thread]
    refine he (hs.isRefresh hr) (rowValues col.enc d) ?_ hst
    rw [hs.rows.rows, hd]
    rfl

/-- A workflow is started over the store by the copy that starts it over the table. -/
theorem Matched.start (h : Matched col l u) {e' : DbFleetEv π (Nat × Side)} (he : e' ∈ l) (hs : e'.act.start.isSome) :
    ∃ e ∈ u, e.act.start.isSome ∧ e.thread = e'.thread := by
  obtain ⟨t, a, r, f, f'⟩ := e'
  cases a with
  | stmt q => cases hs
  | job a =>
    have hmem : (t, Seen.did a r) ∈ dbSeen l := List.mem_filterMap.2 ⟨_, he, rfl⟩
    rw [h.seen_eq] at hmem
    obtain ⟨e, heu, hseen⟩ := List.mem_filterMap.1 hmem
    obtain ⟨x, hx, hpair⟩ := Option.map_eq_some_iff.1 hseen
    obtain ⟨ht, rfl⟩ := Prod.mk.inj hpair
    refine ⟨e, heu, ?_, ht⟩
    rw [Act.seen_did hx]
    exact hs

theorem Matched.exclusive (h : Matched col l u) (hu : Exclusive u) : DbExclusive l := by
  intro e₁ h₁ e₂ h₂ hs₁ hs₂
  obtain ⟨x₁, hx₁, ht₁, heq₁⟩ := h.start h₁ hs₁
  obtain ⟨x₂, hx₂, ht₂, heq₂⟩ := h.start h₂ hs₂
  rw [← heq₁, ← heq₂]
  exact hu x₁ hx₁ x₂ hx₂ ht₁ ht₂

end

end

/-! ## Every run -/

section
variable {π : Type} (col : Column π)

variable {col} in
theorem scheduleCopy_saves (job : Ident) {ws : List Workflow} (h : col.Takes ws) : Saves col (scheduleCopy job ws) := by
  refine (saves_built col).bind (fromRecord_saves h) fun r => ?_
  cases r with
  | none => exact (saves_built col).ret ()
  | some d => exact Conc.Prog.Closed.ite (K := fun _ p => Saves col p) ((saves_built col).dispatch job) ((saves_built col).ret ())

theorem runTimes_saves (job : Ident) : ∀ n, Saves col (runTimes job n)
  | 0     => (saves_built col).ret ()
  | n + 1 => (saves_built col).bind ((saves_built col).attempt ((saves_built col).runOnce (receive_saves col) job))
      fun _ => runTimes_saves job n

variable {col} in
theorem copiesRun_saves (f : Fleet) (names : Nat → Ident) {workflows : Nat → List Workflow} (times : Nat → Nat)
    (h : ∀ i, col.Takes (workflows i)) : ∀ t, Saves col ((copiesRun f names workflows times).prog t)
  | (i, .dispatcher) => scheduleCopy_saves (names i) (h i)
  | (i, .worker)     => runTimes_saves col (names i) (times i)

end

/-- What the copies keep over the in-memory store. -/
theorem copiesRun_inv {id : String} (f : Fleet) (names : Nat → Ident) (workflows : Nat → List Workflow)
    (times : Nat → Nat) (hid : ∀ i, (f.job i).id = id) (hq : ∀ i, (f.chan i).queue = [])
    {c : Conf (Nat × Side) Act Act.Res Exn Unit CopyState}
    (hrun : Conf.Runs (storeSem Prod.fst) (copiesRun f names workflows times) c)
    (hread : Admits (RefreshesNoOthersRun id) c.state.2) : CopiesInv id c.state := by
  have hinit : CopiesInv id (f, []) :=
    ⟨hid, (fun o ho => by cases ho), (fun i ⟨e, he, _⟩ => by cases he), (fun e he => by cases he)⟩
  refine team_invariant (Q := fun _ _ _ => True) ?_ (fun s e s' hx _ hg h => Extends.inv hx hg h) hinit
    (hrun.restrict hread)
  rintro ⟨i, side⟩
  cases side with
  | dispatcher => exact scheduleCopy_wp i _ _ ⟨⟨hinit, fun ⟨e, he, _⟩ => by cases he⟩, fun ⟨e, he, _⟩ => by cases he⟩
  | worker =>
    exact Conc.Proto.wp_mono (fun _ _ _ => trivial) _ _ (runTimes_keeps i _ _ _ ⟨hinit, fun h => absurd (hq i) h⟩)

variable {π : Type}

/-- Copies of one job over a table, each scheduled by one thread and processed by another. -/
def dbCopiesRun (D : DbStore π) (f : Fleet) (table : Table π) (names : Nat → Ident) (workflows : Nat → List Workflow)
    (times : Nat → Nat) : Conf (Nat × Side) (DbAct π) DbAct.Res Exn Unit (DbFleetState π (Nat × Side)) where
  prog t := overDb D ((copiesRun f names workflows times).prog t)
  state  := (⟨f.job, f.chan, table⟩, [])

theorem db_copies_exclusive {D : DbStore π} (hD : D.Reads) (hP : D.Puts) {id : String} {f : Fleet} {table : Table π}
    {names : Nat → Ident} {workflows : Nat → List Workflow} {times : Nat → Nat} (hid : ∀ i, (f.job i).id = id)
    (hq : ∀ i, (f.chan i).queue = []) (hv : ∀ i, (f.job i).Savable D.toColumn)
    (hws : ∀ i, D.Takes (workflows i)) (hrows : Encodes D.toColumn f.store table)
    {c' : Conf (Nat × Side) (DbAct π) DbAct.Res Exn Unit (DbFleetState π (Nat × Side))}
    (hrun : Conf.Runs (tableSem D Prod.fst) (dbCopiesRun D f table names workflows times) c')
    (hread : Admits (SelectsNoOthersRun id) c'.state.2) : DbExclusive c'.state.2 := by
  obtain ⟨c, hc, hm, -⟩ := mirrored hD hP (copiesRun_saves f names times hws) (f := ⟨f.job, f.chan, table⟩)
    hrows hv hrun
  have hinv := copiesRun_inv f names workflows times hid hq hc (hm.log.refreshes hread)
  refine hm.log.exclusive fun e₁ h₁ e₂ h₂ hs₁ hs₂ => ?_
  exact Option.some.inj ((hinv.starts e₁ h₁ hs₁).symm.trans (hinv.starts e₂ h₂ hs₂))

/-- **At most one copy runs the workflows over a database**: in every interleaving of the copies' actions and of the
statements of their puts in which no refresh reads an InProgress row that another copy wrote. -/
theorem one_copy_runs_over_databases (f : Fleet) (names : Nat → Ident) (workflows : Nat → List Workflow)
    (times : Nat → Nat) {jobId : String} (hid : ∀ i, (f.job i).id = jobId) (hq : ∀ i, (f.chan i).queue = [])
    (hv : ∀ i, 1 ≤ (f.job i).version) :
    ((∀ i, SqlJobStore.Keeps (f.job i).workflowsPayload) → (∀ i, SqlJobStore.column.Takes (workflows i)) →
      ∀ table c', Encodes SqlJobStore.column f.store table →
      Conf.Runs (tableSem SqlJobStore.backend Prod.fst)
        (dbCopiesRun SqlJobStore.backend f table names workflows times) c' →
      Admits (SelectsNoOthersRun jobId) c'.state.2 → DbExclusive c'.state.2) ∧
    (∀ table c', Encodes MongoJobStore.column f.store table →
      Conf.Runs (tableSem MongoJobStore.backend Prod.fst)
        (dbCopiesRun MongoJobStore.backend f table names workflows times) c' →
      Admits (SelectsNoOthersRun jobId) c'.state.2 → DbExclusive c'.state.2) := by
  constructor
  · intro hkept hws table c' hrows hrun hread
    exact db_copies_exclusive SqlJobStore.backend_reads SqlJobStore.backend_puts hid hq
      (fun i => SqlJobStore.savable (hv i) (hkept i)) hws hrows hrun hread
  · intro table c' hrows hrun hread
    exact db_copies_exclusive MongoJobStore.backend_reads MongoJobStore.backend_puts hid hq
      (fun i => MongoJobStore.savable (hv i)) (fun i => MongoJobStore.takes (workflows i)) hrows hrun hread

/-! Copies of the sample row in a collection, each with one workflow. -/

def sampleTable : Table (Py.Json Py.Str) := Py.Dict.empty.set scheduledRow.id (rowValues id scheduledRow)

def sampleDbCopies : Conf (Nat × Side) (DbAct (Py.Json Py.Str)) DbAct.Res Exn Unit (DbFleetState (Py.Json Py.Str) (Nat × Side)) :=
  dbCopiesRun MongoJobStore.backend sampleFleet sampleTable (fun i => (sampleFleet.job i).ident) (fun _ => [⟨[]⟩])
    (fun _ => 1)

/-- Both copies are scheduled, copy 1 runs its workflow, and copy 0's RUN put is refused after its four statements. -/
theorem one_copy_runs_over_databases_run : ∃ c', Conf.Runs (tableSem MongoJobStore.backend Prod.fst) sampleDbCopies c' ∧
    Admits (SelectsNoOthersRun "j") c'.state.2 ∧
    (c'.state.2.filterMap (fun e => e.act.start.map (fun _ => e.thread.1))) = [1] ∧ DbExclusive c'.state.2 := by
  have hrun : ∃ c', Conf.Runs (tableSem MongoJobStore.backend Prod.fst) sampleDbCopies c' ∧
      (Admits (SelectsNoOthersRun "j") c'.state.2 ∧
        (c'.state.2.filterMap (fun e => e.act.start.map (fun _ => e.thread.1))) = [1]) :=
    exists_tableRuns
      (turns 11 (0, .dispatcher) ++ turns 8 (1, .dispatcher) ++ turns 14 (1, .worker) ++ turns 11 (0, .worker))
      (by decide) (by decide +kernel)
  obtain ⟨c', hrun, hread, hstarts⟩ := hrun
  have hempty : Encodes MongoJobStore.column InMemoryJobStore.empty (Py.Dict.empty : Table (Py.Json Py.Str)) :=
    ⟨fun _ => rfl, fun _ _ h => by cases h⟩
  have hrows : Encodes MongoJobStore.column sampleFleet.store sampleTable := hempty.set (d := scheduledRow) ⟨Int.le_refl 1, .inl rfl⟩
  exact ⟨c', hrun, hread, hstarts, (one_copy_runs_over_databases sampleFleet _ _ _ (fun _ => rfl) (fun _ => rfl)
    (fun _ => Int.le_refl 1)).2 sampleTable c' hrows hrun hread⟩

end Pypepper
