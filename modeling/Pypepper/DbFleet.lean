import Pypepper.Fleet
import Pypepper.Inline
import Pypepper.JobRules
import Pypepper.Mirror
import Pypepper.StoreDb
/-!
# DbFleet — the scheduler over a database store

The copies of a fleet share a table instead of the in-memory store: `get` is one select, which decodes its row, and `put`
is the statements of `SqlJobStore.put` or `MongoJobStore.put`, which the other threads' statements come between.

Every run over the table mirrors a run of the same programs over the in-memory store (`mirrored`): the same actions with
the same answers and the same writes, in the same order.  So what holds of the scheduler's runs over the in-memory store
holds over a database (`scheduler_over_databases`).
-/
namespace Pypepper

open Conc (Prog Sem Conf Ev Admits Takes Carries)
open Relation (ReflTransGen)

/-- A database job store: how a payload is stored, how a row is read, and its put. -/
structure DbStore (π : Type) extends Column π where
  decode : DbRow π → Option JobRecord
  put    : JobRecord → DbProg π Bool

def SqlJobStore.backend : DbStore String := { column with decode := rowToRecord, put := put }

def MongoJobStore.backend : DbStore (Py.Json Py.Str) :=
  { column with decode := fun doc => some (docToRecord doc), put := put }

/-! ## Threads over a table -/

structure DbFleet (π : Type) where
  job   : Nat → Job
  chan  : Nat → Channel
  table : Table π

/-- What a thread does: an action on its copy, a get included, or a statement. -/
inductive DbAct (π : Type) where
  | job (a : Act)
  | stmt (s : Stmt π)

@[reducible] def DbAct.Res {π : Type} : DbAct π → Type
  | .job a  => a.Res
  | .stmt s => s.Res

section
variable {ι π : Type} (D : DbStore π)

/-- What a get of the row reads. -/
def InMemoryJobStore.ofRow : Option JobRecord → InMemoryJobStore
  | none   => empty
  | some r => empty.setRow r

/-- A row that does not decode makes the get raise. -/
def Choice.reading (c : Choice) (unreadable : Bool) : Choice := if unreadable then { c with fault := .raises } else c

namespace DbFleet

def row (f : DbFleet π) (i : Nat) : Option (DbRow π) := f.table.get (f.job i).id

def view (f : DbFleet π) (i : Nat) : Ctx := ⟨f.job i, f.chan i, .ofRow ((f.row i).bind D.decode), false⟩

def put (f : DbFleet π) (i : Nat) (x : Ctx) : DbFleet π :=
  ⟨Function.update f.job i x.job, Function.update f.chan i x.chan, f.table⟩

/-- One action; a put is not one. -/
def exec (copy : ι → Nat) (c : Choice) (t : ι) : (a : DbAct π) → DbFleet π → Option (a.Res × DbFleet π)
  | .stmt s, f => some ((s.exec f.table).1, { f with table := (s.exec f.table).2 })
  | .job a,  f =>
    if a.record.isSome then none
    else ((f.view D (copy t)).step (c.reading ((f.row (copy t)).any fun r => (D.decode r).isNone)) a).map fun p =>
      (p.1, f.put (copy t) p.2)

def sem (copy : ι → Nat) : Sem ι (DbAct π) DbAct.Res (DbFleet π) :=
  Sem.ofExec (exec D copy) (fun _ c _ _ => faultFree c)

end DbFleet

abbrev DbFleetEv (π ι : Type) := Ev ι (DbAct π) DbAct.Res (DbFleet π)

def DbAct.issue (s : Stmt π) : Prog (DbAct π) DbAct.Res Exn s.Res := Prog.call (DbAct.stmt s)

/-- The statements of a call, whose exception is its answer. -/
def stmts {α : Type} (p : DbProg π α) : Prog (DbAct π) DbAct.Res Exn (Except Exn α) := (p.inline DbAct.issue).attempt

/-- What carries out an action of a job's program. -/
def carry : (a : Act) → Prog (DbAct π) DbAct.Res Exn a.Res
  | .put record => stmts (D.put record)
  | a           => Prog.call (DbAct.job a : DbAct π)

/-- A job's program over the database. -/
def overDb {α : Type} (p : JobProg α) : Prog (DbAct π) DbAct.Res Exn α := p.inline (carry D)

/-! ## What is seen of an action -/

/-- An action on a copy, with its answer, or a write. -/
inductive Seen where
  | did (a : Act) (r : a.Res)
  | wrote (id status : String)

def DbAct.seen : (a : DbAct π) → a.Res → Option Seen
  | .job a,                   r    => some (.did a r)
  | .stmt (.update id _ _ v), true => some (.wrote id v.status)
  | .stmt (.insert row),      true => some (.wrote row.id row.status)
  | .stmt _,                  _    => none

def Act.seen : (a : Act) → a.Res → Option Seen
  | .put rec, .ok true => some (.wrote rec.id rec.status)
  | .put _,   _        => none
  | a,        r        => some (.did a r)

/-- What is seen of a run over the store, and of one over a table. -/
def seen (log : List (FleetEv ι)) : List (ι × Seen) := log.filterMap fun e => (e.act.seen e.res).map (e.thread, ·)

def dbSeen (log : List (DbFleetEv π ι)) : List (ι × Seen) := log.filterMap fun e => (e.act.seen e.res).map (e.thread, ·)

/-- An action of the database run, and the one it stands for. -/
structure Same (col : Column π) (e' : DbFleetEv π ι) (e : FleetEv ι) : Prop where
  thread : e'.thread = e.thread
  seen   : e'.act.seen e'.res = e.act.seen e.res
  rows   : Encodes col e.pre.store e'.pre.table

/-- **Two logs of one run**: the database's has more statements, which write nothing. -/
inductive Matched (col : Column π) : List (DbFleetEv π ι) → List (FleetEv ι) → Prop
  | nil : Matched col [] []
  | quiet {l : List (DbFleetEv π ι)} {u : List (FleetEv ι)} {e' : DbFleetEv π ι} :
      Matched col l u → e'.act.seen e'.res = none → Matched col (l ++ [e']) u
  | act {l : List (DbFleetEv π ι)} {u : List (FleetEv ι)} {e' : DbFleetEv π ι} {e : FleetEv ι} :
      Matched col l u → Same col e' e → Matched col (l ++ [e']) (u ++ [e])

/-- A job whose record can be saved. -/
def Job.Savable (col : Column π) (j : Job) : Prop := Storable col j.toRecord

/-- Workflows whose payload the store keeps. -/
def Column.Takes (col : Column π) (ws : List Workflow) : Prop := ∀ j : Job, j.workflows = ws → col.keeps j.workflowsPayload

abbrev DbFleetState (π ι : Type) := DbFleet π × List (DbFleetEv π ι)

abbrev FleetState (ι : Type) := Fleet × List (FleetEv ι)

/-- **The run over the table mirrors the run over the store**: the same copies, the rows encode the records, and every copy
is one that can be saved. -/
structure Mirrors (col : Column π) (s' : DbFleetState π ι) (s : FleetState ι) : Prop where
  job      : s'.1.job = s.1.job
  chan     : s'.1.chan = s.1.chan
  rows     : Encodes col s.1.store s'.1.table
  copies   : ∀ i, (s.1.job i).Savable col
  log      : Matched col s'.2 s.2

/-- No row is removed. -/
def KeepsRows (x y : DbFleetState π ι × FleetState ι) : Prop :=
  ∀ id, (x.1.1.table.get id).isSome → (y.1.1.table.get id).isSome

theorem KeepsRows.star {x y : DbFleetState π ι × FleetState ι} (h : ReflTransGen KeepsRows x y) : KeepsRows x y := by
  induction h with
  | refl => exact fun _ h => h
  | tail _ hs ih => exact fun id h => hs id (ih id h)

/-- The answers a job's program gets: the record it builds can be saved. -/
def Act.builds (col : Column π) : (a : Act) → a.Res → Prop
  | .buildRecord, rec => Storable col rec
  | _,            _   => True

/-- The puts a job's program makes, and the workflows it rebuilds. -/
def Act.storable (col : Column π) : Act → Prop
  | .put rec       => Storable col rec
  | .fromRecord ws => col.Takes ws
  | _              => True

end

/-! ## An action on a copy -/

theorem Act.ne_put {a : Act} (h : a.record = none) (rec : JobRecord) : a ≠ .put rec := by
  rintro rfl
  cases h

/-- A context that sees of the store its job's row. -/
def Ctx.onRow (x : Ctx) : Ctx := ⟨x.job, x.chan, .ofRow x.row, x.loopRunning⟩

theorem InMemoryJobStore.get_ofRow {m : InMemoryJobStore} {id : String} : (ofRow (m.get id)).get id = m.get id := by
  cases h : m.get id with
  | none => rfl
  | some r =>
    have hid := m.keyed id r h
    subst hid
    exact get_setRow_self empty r

theorem Ctx.row_onRow (x : Ctx) : x.onRow.row = x.row := InMemoryJobStore.get_ofRow

theorem Ctx.blocked_onRow (x : Ctx) (a : Act) : x.onRow.blocked a = x.blocked a := by
  cases a <;> rfl

/-- An action but a put sees no more. -/
theorem Ctx.exec_onRow (c : Choice) {a : Act} (x : Ctx) (ha : a.record = none) :
    exec c a x.onRow = ((exec c a x).1, { (exec c a x).2 with store := .ofRow x.row }) := by
  cases a with
  | put rec => cases ha
  | refresh u =>
    simp only [exec, refresh, get, row_onRow]
    split <;> rfl
  | getSaved =>
    simp only [exec, get, row_onRow]
    rfl
  | send => simp only [exec, send]; split <;> rfl
  | fromRecord ws =>
    simp only [exec, fromRecord, row_onRow]
    split <;> rfl
  | _ => rfl

theorem mapM_payload_congr {α β : Type} {f : α → Option β} {g : α → α} (h : ∀ a, f (g a) = f a) :
    ∀ l : List α, (l.map g).mapM f = l.mapM f
  | []     => rfl
  | a :: l => by rw [List.map_cons, List.mapM_cons, List.mapM_cons, h, mapM_payload_congr h l]

/-- The payload does not say which contexts hold the cancel event. -/
theorem Job.workflowsPayload_shareCancelEvent (j : Job) : j.shareCancelEvent.workflowsPayload = j.workflowsPayload := by
  have hworkflow : ∀ w : Workflow,
      Workflow.payload ⟨w.tasks.map fun t => { t with cancelToken := true }⟩ = w.payload := fun w => by
    have htasks := @mapM_payload_congr _ _ Task.payload (fun t => { t with cancelToken := true }) (fun _ => rfl) w.tasks
    exact congrArg (Option.map _) htasks
  unfold Job.workflowsPayload
  cases hws : j.workflows with
  | nil => simp [Job.shareCancelEvent, hws]
  | cons w ws =>
    have hmap := mapM_payload_congr hworkflow (w :: ws)
    simp only [Job.shareCancelEvent, hws]
    rw [List.map_cons] at hmap ⊢
    simp only [hmap]

/-- An action other than a rebuilding keeps the payload. -/
theorem Ctx.exec_payload (c : Choice) (a : Act) (x : Ctx) (hf : ∀ ws, a ≠ .fromRecord ws) :
    (exec c a x).2.job.workflowsPayload = x.job.workflowsPayload := by
  cases a with
  | put rec => exact congrArg Job.workflowsPayload (put_job x rec c.fault)
  | applyEvent e =>
    simp only [exec, Job.applyEvent]
    split
    · rfl
    · split <;> rfl
  | refresh u => simp only [exec, refresh]; split <;> rfl
  | shareCancelEvent => exact x.job.workflowsPayload_shareCancelEvent
  | fromRecord ws => exact absurd rfl (hf ws)
  | send => simp only [exec, send]; split <;> rfl
  | _ => rfl

/-- A job's version stays one it can save. -/
theorem Ctx.exec_version_pos (c : Choice) (a : Act) (x : Ctx) (hv : 1 ≤ x.job.version)
    (hrow : ∀ d, x.row = some d → 1 ≤ d.version) : 1 ≤ (exec c a x).2.job.version := by
  cases a with
  | refresh u =>
    simp only [exec, refresh, get]
    cases hr : x.row with
    | none => cases c.fault <;> exact hv
    | some d =>
      have hd := hrow d hr
      cases c.fault
      · exact hd
      · exact hd
      · exact hv
  | fromRecord ws =>
    simp only [exec, fromRecord]
    cases hr : x.row with
    | none => exact hv
    | some d => exact hrow d hr
  | _ =>
    rw [exec_version c _ x (by simp) (by simp)]
    exact hv

/-- **A job that can be saved stays one.** -/
theorem Ctx.exec_savable {π : Type} {col : Column π} (c : Choice) {a : Act} {x : Ctx} (ha : a.storable col)
    (hx : x.job.Savable col) (hrow : ∀ d, x.row = some d → Storable col d) : (exec c a x).2.job.Savable col := by
  refine ⟨exec_version_pos c a x hx.version fun d hd => (hrow d hd).version, ?_⟩
  by_cases hf : ∃ ws, a = .fromRecord ws
  · obtain ⟨ws, rfl⟩ := hf
    show col.keeps (exec c (.fromRecord ws) x).2.job.workflowsPayload
    simp only [exec, fromRecord]
    cases x.row with
    | none => exact hx.payload
    | some d => exact ha _ rfl
  · show col.keeps (exec c a x).2.job.workflowsPayload
    rw [exec_payload c a x fun ws hw => hf ⟨ws, hw⟩]
    exact hx.payload

section
variable {ι π : Type} {D : DbStore π} {copy : ι → Nat}

/-- A row that encodes a record decodes to it. -/
def DbStore.Reads (D : DbStore π) : Prop := ∀ r, Storable D.toColumn r → D.decode (rowValues D.enc r) = some r

theorem Encodes.decodes (hD : D.Reads) {m : InMemoryJobStore} {t : Table π} (h : Encodes D.toColumn m t) (id : String) :
    (t.get id).bind D.decode = m.get id ∧ ((t.get id).any fun r => (D.decode r).isNone) = false := by
  rw [h.rows id]
  cases hd : m.get id with
  | none => exact ⟨rfl, rfl⟩
  | some d =>
    have hread := hD d (h.storable id d hd)
    simp [hread]

/-- The view of a copy over the table is its view over the store, but for the other jobs' rows. -/
theorem Mirrors.view (hD : D.Reads) {s' : DbFleetState π ι} {s : FleetState ι} (h : Mirrors D.toColumn s' s) (i : Nat) :
    s'.1.view D i = (s.1.view i).onRow := by
  have hrow : (s'.1.row i).bind D.decode = (s.1.view i).row := by
    rw [DbFleet.row, h.job]
    exact (h.rows.decodes hD _).1
  rw [DbFleet.view, hrow, h.job, h.chan]
  rfl

theorem Mirrors.readable (hD : D.Reads) {s' : DbFleetState π ι} {s : FleetState ι} (h : Mirrors D.toColumn s' s) (c : Choice)
    (i : Nat) : c.reading ((s'.1.row i).any fun r => (D.decode r).isNone) = c := by
  rw [DbFleet.row, (h.rows.decodes hD _).2]
  rfl

/-- The runs over the store, and over the table. -/
abbrev storeSem (copy : ι → Nat) : Sem ι Act Act.Res (FleetState ι) := (Fleet.sem copy).logged (fun _ _ => True)

abbrev tableSem (D : DbStore π) (copy : ι → Nat) : Sem ι (DbAct π) DbAct.Res (DbFleetState π ι) :=
  (DbFleet.sem D copy).logged (fun _ _ => True)

abbrev CarriesOut (D : DbStore π) (copy : ι → Nat) (t : ι) (a : Act) :
    Prog (DbAct π) DbAct.Res Exn a.Res → Option a.Res → DbFleetState π ι × FleetState ι → Prop :=
  Carries (storeSem copy) (tableSem D copy) (Mirrors D.toColumn) KeepsRows (Act.builds D.toColumn) t a

/-- What a step of the database run is. -/
theorem tableSem_job {t : ι} {a : Act} {s' t' : DbFleetState π ι} {r : a.Res} (h : tableSem D copy t (.job a) s' r t') :
    a.record = none ∧ ∃ c, faultFree c ∧
      ((s'.1.view D (copy t)).step (c.reading ((s'.1.row (copy t)).any fun r => (D.decode r).isNone)) a).map
        (fun p => (p.1, s'.1.put (copy t) p.2)) = some (r, t'.1) ∧
      t'.2 = s'.2 ++ [⟨t, .job a, r, s'.1, t'.1⟩] := by
  obtain ⟨⟨c, hc, hx⟩, hlog, -⟩ := h
  simp only [DbFleet.exec] at hx
  split at hx
  · cases hx
  · rename_i hput
    exact ⟨by simpa using hput, c, hc, hx, hlog⟩

theorem tableSem_stmt {t : ι} {q : Stmt π} {s' t' : DbFleetState π ι} {r : q.Res}
    (h : tableSem D copy t (.stmt q) s' r t') :
    q.exec s'.1.table = (r, t'.1.table) ∧ t' = ({ s'.1 with table := t'.1.table },
      s'.2 ++ [⟨t, .stmt q, r, s'.1, { s'.1 with table := t'.1.table }⟩]) := by
  obtain ⟨⟨c, -, hx⟩, hlog, -⟩ := h
  obtain ⟨hr, ht⟩ := Prod.mk.inj (Option.some.inj hx)
  have hstate : t'.1 = { s'.1 with table := t'.1.table } := by rw [← ht]
  refine ⟨?_, Prod.ext hstate (hlog.trans ?_)⟩
  · rw [← hr, ← ht]
  · rw [← hstate]

/-- **An action on the copy carries itself out.** -/
theorem carries_job (hD : D.Reads) {t : ι} {a : Act} (ha : a.record = none) (hs : a.storable D.toColumn) (x : DbFleetState π ι × FleetState ι) :
    CarriesOut D copy t a (Prog.call (DbAct.job a : DbAct π)) none x := by
  intro y _ hm r t' hstep
  obtain ⟨-, c, hc, hx, hlog⟩ := tableSem_job hstep
  rw [hm.readable hD, hm.view hD] at hx
  obtain ⟨p, hp, hpair⟩ := Option.map_eq_some_iff.1 hx
  obtain ⟨hblocked, hexec⟩ := Ctx.step_eq_some hp
  rw [Ctx.exec_onRow c _ ha] at hexec
  subst hexec
  obtain ⟨hr, ht⟩ := Prod.mk.inj hpair
  have hput : ∀ rec, a ≠ .put rec := a.ne_put ha
  have hd : Fleet.sem copy t a y.2.1 r (y.2.1.put (copy t) (Ctx.exec c a (y.2.1.view (copy t))).2) := by
    refine ⟨c, hc, ?_⟩
    rw [Fleet.exec, Ctx.step, if_neg (by rw [← Ctx.blocked_onRow, hblocked]; simp), ← hr]
    rfl
  have hbuilds : Act.builds D.toColumn a r := by
    cases a with
    | buildRecord =>
      rw [← hr]
      exact ⟨(hm.copies (copy t)).version, (hm.copies (copy t)).payload⟩
    | _ => trivial
  have hmirrors : Mirrors D.toColumn t' (y.2.1.put (copy t) (Ctx.exec c a (y.2.1.view (copy t))).2,
      y.2.2 ++ [⟨t, a, r, y.2.1, y.2.1.put (copy t) (Ctx.exec c a (y.2.1.view (copy t))).2⟩]) := by
    refine ⟨?_, ?_, ?_, fun i => ?_, ?_⟩
    · rw [← ht]
      simp only [DbFleet.put, Fleet.put, hm.job]
    · rw [← ht]
      simp only [DbFleet.put, Fleet.put, hm.chan]
    · rw [← ht]
      show Encodes D.toColumn (Ctx.exec c a (y.2.1.view (copy t))).2.store y.1.1.table
      rw [Ctx.exec_store c a _ hput]
      exact hm.rows
    · by_cases hi : i = copy t
      · subst hi
        simpa [Fleet.put] using Ctx.exec_savable c (x := y.2.1.view (copy t)) hs (hm.copies _) fun d hd =>
          hm.rows.storable _ d hd
      · simpa [Fleet.put, hi] using hm.copies i
    · rw [hlog]
      refine .act hm.log ⟨rfl, ?_, hm.rows⟩
      cases a with
      | put rec => exact absurd rfl (hput rec)
      | _ => rfl
  refine ⟨some r, _, .takes ⟨hd, rfl, trivial⟩ hbuilds, hmirrors, fun id h => ?_, rfl⟩
  rw [← ht]
  exact h

/-! ## The statements of a put -/

section
variable {t : ι} {rec : JobRecord} {q : Stmt π} {y : DbFleetState π ι × FleetState ι} {t' : DbFleetState π ι} {r : q.Res}

theorem tableSem_keeps (h : tableSem D copy t (.stmt q) y.1 r t') (s : FleetState ι) : KeepsRows y (t', s) := by
  intro id hid
  have hx := exec_keeps_rows q y.1.1.table id hid
  rw [(tableSem_stmt h).1] at hx
  exact hx

/-- A statement that writes nothing. -/
theorem Mirrors.quiet (hm : Mirrors D.toColumn y.1 y.2) (h : tableSem D copy t (.stmt q) y.1 r t')
    (htable : t'.1.table = y.1.1.table) (hw : (DbAct.stmt q).seen r = none) : Mirrors D.toColumn t' y.2 := by
  obtain ⟨-, ht⟩ := tableSem_stmt h
  rw [htable] at ht
  rw [ht]
  exact ⟨hm.job, hm.chan, hm.rows, hm.copies, .quiet hm.log hw⟩

/-- **A statement at which the put takes effect.** -/
theorem Mirrors.effect (hm : Mirrors D.toColumn y.1 y.2) (h : tableSem D copy t (.stmt q) y.1 r t') {b : Bool}
    (hb : (y.2.1.store.put rec).1 = b) (hrows : Encodes D.toColumn (y.2.1.store.put rec).2 t'.1.table)
    (hw : (DbAct.stmt q).seen r = Act.seen (.put rec) (.ok b)) :
    ∃ s, Takes (storeSem copy) (Act.builds D.toColumn) t (.put rec) none y.2 (some (.ok b)) s ∧ Mirrors D.toColumn t' s := by
  obtain ⟨-, ht⟩ := tableSem_stmt h
  have hput : Ctx.exec {} (.put rec) (y.2.1.view (copy t)) =
      (.ok b, { y.2.1.view (copy t) with store := (y.2.1.store.put rec).2 }) := by
    rw [Ctx.exec_put_healthy {} rec _ rfl, ← hb]
    rfl
  have hd : Fleet.sem copy t (.put rec) y.2.1 (.ok b) { y.2.1 with store := (y.2.1.store.put rec).2 } := by
    refine ⟨{}, rfl, ?_⟩
    show some (_, _) = _
    rw [hput]
    simp [Fleet.put, Fleet.view]
  have hstep : storeSem copy t (.put rec) y.2 (.ok b) ({ y.2.1 with store := (y.2.1.store.put rec).2 },
      y.2.2 ++ [⟨t, .put rec, .ok b, y.2.1, { y.2.1 with store := (y.2.1.store.put rec).2 }⟩]) := ⟨hd, rfl, trivial⟩
  refine ⟨_, .takes hstep trivial, ?_⟩
  rw [ht]
  exact ⟨hm.job, hm.chan, hrows, hm.copies, .act hm.log ⟨rfl, hw, hm.rows⟩⟩

end

/-- **The gated update and the insert** carry out a put, or find its key taken. -/
theorem carries_upsert {t : ι} {rec : JobRecord} (hr : Storable D.toColumn rec) {dup : DbProg π Bool}
    (hdup : ∀ x, (x.1.1.table.get rec.id).isSome → CarriesOut D copy t (.put rec) (stmts dup) none x)
    (x : DbFleetState π ι × FleetState ι) :
    CarriesOut D copy t (.put rec) (stmts (upsert D.enc rec dup)) none x := by
  intro y _ hm b t' hstep
  obtain ⟨hx, -⟩ := tableSem_stmt hstep
  match b, hstep, hx with
  | true, hstep, hx =>
    obtain ⟨hb, hrows⟩ := hm.rows.update_matched hr hx
    obtain ⟨s, htakes, hm'⟩ := hm.effect hstep hb hrows rfl
    exact ⟨_, s, htakes, hm', tableSem_keeps hstep s, rfl⟩
  | false, hstep, hx =>
    refine ⟨none, y.2, .waits, hm.quiet hstep (exec_update_missed hx) rfl, tableSem_keeps hstep y.2, ?_⟩
    intro y _ hm b t' hstep
    obtain ⟨hx, -⟩ := tableSem_stmt hstep
    match b, hstep, hx with
    | true, hstep, hx =>
      obtain ⟨hb, hrows⟩ := hm.rows.inserted hr hx
      obtain ⟨s, htakes, hm'⟩ := hm.effect hstep hb hrows rfl
      exact ⟨_, s, htakes, hm', tableSem_keeps hstep s, rfl⟩
    | false, hstep, hx =>
      obtain ⟨heq, hrow⟩ := exec_insert_failed hx
      refine ⟨none, y.2, .waits, hm.quiet hstep heq rfl, tableSem_keeps hstep y.2, ?_⟩
      exact hdup _ (by rw [heq]; exact hrow)

/-- **The second update** carries out a put whose key was taken, whether it matches or not. -/
theorem carries_retry {t : ι} {rec : JobRecord} (hr : Storable D.toColumn rec) {f : Bool → DbProg π Bool}
    (hf : ∀ b x, (x.1.1.table.get rec.id).isSome → CarriesOut D copy t (.put rec) (stmts (f b)) (some (.ok b)) x)
    (x : DbFleetState π ι × FleetState ι) (hrow : (x.1.1.table.get rec.id).isSome) :
    CarriesOut D copy t (.put rec) (stmts (updateIfAllowed D.enc rec >>= f)) none x := by
  intro y hy hm b t' hstep
  have hrow := KeepsRows.star hy _ hrow
  obtain ⟨hx, -⟩ := tableSem_stmt hstep
  obtain ⟨hb, hrows⟩ : (y.2.1.store.put rec).1 = b ∧ Encodes D.toColumn (y.2.1.store.put rec).2 t'.1.table := by
    match b, hx with
    | true, hx => exact hm.rows.update_matched hr hx
    | false, hx =>
      obtain ⟨heq, hput⟩ := hm.rows.update_missed hrow hx
      rw [hput, heq]
      exact ⟨rfl, hm.rows⟩
  have hkeeps := fun s => tableSem_keeps (y := y) hstep s
  have hseen : (DbAct.stmt (gatedUpdate D.enc rec)).seen b = Act.seen (.put rec) (.ok b) := by
    cases b <;> rfl
  obtain ⟨s, htakes, hm'⟩ := hm.effect hstep hb hrows hseen
  exact ⟨_, s, htakes, hm', hkeeps s, hf b _ (hkeeps s _ hrow)⟩

variable (D) in
/-- **The put's statements carry it out**, whoever else is at the table. -/
def DbStore.Puts : Prop :=
  ∀ {ι : Type} (copy : ι → Nat) (t : ι) (rec : JobRecord), Storable D.toColumn rec → ∀ x : DbFleetState π ι × FleetState ι,
    CarriesOut D copy t (.put rec) (stmts (D.put rec)) none x

theorem SqlJobStore.backend_reads : backend.Reads := fun _ hr => rowToRecord_rowValues hr

theorem SqlJobStore.backend_puts : backend.Puts := by
  intro ι copy t rec hr x
  show CarriesOut backend copy t (.put rec) (stmts (put rec)) none x
  rw [put_eq hr]
  exact carries_upsert hr (carries_retry (f := Prog.ret) hr fun b x _ => rfl) x

theorem MongoJobStore.backend_reads : backend.Reads := fun _ hr => congrArg some (docToRecord_rowValues hr)

theorem MongoJobStore.backend_puts : backend.Puts := by
  intro ι copy t rec hr x
  refine carries_upsert hr (carries_retry hr fun b x hrow => ?_) x
  cases b with
  | true => rfl
  | false =>
    -- the document that stood in the way is still there
    intro y hy hm doc t' hstep
    obtain ⟨hx, -⟩ := tableSem_stmt hstep
    obtain ⟨hdoc, htable⟩ := Prod.mk.inj hx
    have hrow := KeepsRows.star hy _ hrow
    refine ⟨_, y.2, .waits, hm.quiet hstep htable.symm rfl, tableSem_keeps hstep y.2, ?_⟩
    cases doc with
    | none =>
      rw [hdoc] at hrow
      cases hrow
    | some d => rfl

/-! ## Every run -/

/-- Every put of the program is of a record a job can save, as long as the records it builds are. -/
def Saves {α : Type} (col : Column π) (p : JobProg α) : Prop := p.Under (Act.builds col) (Act.storable col)

theorem save_saves (col : Column π) : Saves col Job.save := by
  refine ⟨trivial, fun rec hrec => ⟨hrec, fun r _ => ?_⟩⟩
  match r with
  | .error _  => trivial
  | .ok false => trivial
  | .ok true  =>
    refine ⟨trivial, fun r _ => ?_⟩
    cases r <;> trivial

theorem storable_of_single (col : Column π) {a : Act} (ha : a.single = true) : a.storable col := by
  cases a with
  | put rec => cases ha
  | fromRecord ws => cases ha
  | _ => trivial

theorem saves_built (col : Column π) : CallBuilt (fun _ (p : JobProg _) => Saves col p) :=
  { Prog.Under.closed (Act.builds col) (Act.storable col) with
    save := save_saves col
    saved := .bind (.call trivial) fun r => (Prog.Under.closed _ _).ofExcept r
    call := fun _ ha => .call (storable_of_single col ha) }

theorem receive_saves (col : Column π) : Saves col (Job.do_ .receive) := .call trivial

theorem fromRecord_saves {col : Column π} {ws : List Workflow} (h : col.Takes ws) :
    Saves col (Job.do_ (.fromRecord ws)) := .call h

theorem carries_act (hD : D.Reads) (hP : D.Puts) (t : ι) (a : Act) (x : DbFleetState π ι × FleetState ι)
    (ha : a.storable D.toColumn) : CarriesOut D copy t a (carry D a) none x := by
  cases a with
  | put rec => exact hP copy t rec ha x
  | _ => exact carries_job hD rfl ha x

/-- **Every run over the table mirrors a run over the store**, thread by thread. -/
theorem mirrored [DecidableEq ι] (hD : D.Reads) (hP : D.Puts) {α : Type} {prog : ι → JobProg α}
    (hp : ∀ t, Saves D.toColumn (prog t)) {f : DbFleet π} {m : InMemoryJobStore} (hrows : Encodes D.toColumn m f.table)
    (hv : ∀ i, (f.job i).Savable D.toColumn) {c' : Conf ι (DbAct π) DbAct.Res Exn α (DbFleetState π ι)}
    (hrun : Conf.Runs (tableSem D copy) ⟨fun t => overDb D (prog t), (f, [])⟩ c') :
    ∃ c, Conf.Runs (storeSem copy) ⟨prog, (⟨f.job, f.chan, m⟩, [])⟩ c ∧ Mirrors D.toColumn c'.state c.state ∧
      ∀ t o, (c'.prog t).finished = some o → (c.prog t).finished = some o := by
  have hstart : ∀ t a (x : DbFleetState π ι × FleetState ι), a.storable D.toColumn → Mirrors D.toColumn x.1 x.2 →
      CarriesOut D copy t a (carry D a) none x := fun t a x ha _ => carries_act hD hP t a x ha
  have hinit : Mirrors D.toColumn (f, []) (⟨f.job, f.chan, m⟩, ([] : List (FleetEv ι))) := ⟨rfl, rfl, hrows, hv, .nil⟩
  have hfollows : Conc.Follows (storeSem copy) (tableSem D copy) (Mirrors D.toColumn) KeepsRows (Act.builds D.toColumn)
      (carry D) (Act.storable D.toColumn)
      ⟨fun t => overDb D (prog t), (f, [])⟩ ⟨prog, (⟨f.job, f.chan, m⟩, [])⟩ := .init hinit hp
  obtain ⟨c, hc, hfollows⟩ := hfollows.run hstart hrun
  exact ⟨c, hc, hfollows.states, fun t o hf => hfollows.finished hstart hf⟩

theorem seen_append (log : List (FleetEv ι)) (e : FleetEv ι) :
    seen (log ++ [e]) = seen log ++ ((e.act.seen e.res).map (e.thread, ·)).toList := by
  rw [seen, seen, List.filterMap_append]
  cases h : e.act.seen e.res <;> simp [h]

theorem dbSeen_append (log : List (DbFleetEv π ι)) (e : DbFleetEv π ι) :
    dbSeen (log ++ [e]) = dbSeen log ++ ((e.act.seen e.res).map (e.thread, ·)).toList := by
  rw [dbSeen, dbSeen, List.filterMap_append]
  cases h : e.act.seen e.res <;> simp [h]

/-- The logs show the same. -/
theorem Matched.seen_eq {col : Column π} {l : List (DbFleetEv π ι)} {u : List (FleetEv ι)}
    (h : Matched col l u) : dbSeen l = seen u := by
  induction h with
  | nil => rfl
  | quiet _ hq ih =>
    rw [dbSeen_append, hq, ih]
    simp
  | act _ hs ih => rw [dbSeen_append, seen_append, ih, hs.seen, hs.thread]

end

/-! ## The scheduler's operations -/

/-- What a thread does for its copy: rebuild it from the row, if told to, and perform operations, each until it returns or
raises. -/
structure Duty where
  rebuild : Option (List Workflow) := none
  ops     : List Op

def Op.each (job : Ident) : List Op → JobProg Unit
  | []      => return ()
  | o :: os => do
    let _ ← (o.prog job).attempt
    Op.each job os

def Duty.prog (job : Ident) (d : Duty) : JobProg Unit :=
  match d.rebuild with
  | none    => Op.each job d.ops
  | some ws => do
    let _ ← Job.do_ (.fromRecord ws)
    Op.each job d.ops

section
variable {π : Type} (col : Column π)

theorem Op.prog_saves (job : Ident) (o : Op) : Saves col (o.prog job) := by
  have h := saves_built col
  cases o with
  | applyEvent e => exact h.event e
  | save => exact h.bind h.save fun _ => h.ret ()
  | cancel => exact h.cancel
  | scheduled => exact h.dispatch job
  | runOnce =>
    refine h.bind (receive_saves col) fun r => ?_
    cases r with
    | none => exact h.ret ()
    | some r => exact Prog.Closed.ite (K := fun _ p => Saves col p) (h.process job) (h.ret ())

theorem Op.each_saves (job : Ident) : ∀ os, Saves col (Op.each job os)
  | []      => (saves_built col).ret ()
  | o :: os => (saves_built col).bind ((saves_built col).attempt (o.prog_saves col job)) fun _ => each_saves job os

variable {col} in
theorem Duty.prog_saves (job : Ident) {d : Duty} (h : ∀ ws, d.rebuild = some ws → col.Takes ws) :
    Saves col (d.prog job) := by
  unfold Duty.prog
  split
  · exact Op.each_saves col job _
  · rename_i ws hws
    exact (saves_built col).bind (fromRecord_saves (h ws hws)) fun _ => Op.each_saves col job _

end

section
variable {ι π : Type} [DecidableEq ι]

/-- **An executed schedule over a table is a run.** -/
theorem exists_tableRuns {D : DbStore π} {copy : ι → Nat} {c : Conf ι (DbAct π) DbAct.Res Exn Unit (DbFleetState π ι)}
    {P : Conf ι (DbAct π) DbAct.Res Exn Unit (DbFleetState π ι) → Prop} [DecidablePred P] (sch : List (ι × Choice))
    (hok : ∀ p ∈ sch, faultFree p.2)
    (h : (c.execs (DbFleet.exec D copy) sch).any (fun c' => decide (P c')) = true) :
    ∃ c', Conf.Runs (tableSem D copy) c c' ∧ P c' :=
  Conf.exists_runs sch (fun p hp _ _ => hok p hp) h

/-- **The run over the table is one over the store**: of the same threads, which ended the same, with the same copies, the
same rows once decoded, and the same actions, answers and writes in the same order. -/
def RunsAs (D : DbStore π) (copy : ι → Nat) (prog : ι → JobProg Unit) (f : Fleet)
    (c' : Conf ι (DbAct π) DbAct.Res Exn Unit (DbFleetState π ι)) : Prop :=
  ∃ c, Conf.Runs (storeSem copy) ⟨prog, (f, [])⟩ c ∧
    c'.state.1.job = c.state.1.job ∧ c'.state.1.chan = c.state.1.chan ∧
    (∀ id, (c'.state.1.table.get id).map D.decode = (c.state.1.store.get id).map some) ∧
    dbSeen c'.state.2 = seen c.state.2 ∧
    ∀ t o, (c'.prog t).finished = some o → (c.prog t).finished = some o

theorem runsAs {D : DbStore π} (hD : D.Reads) (hP : D.Puts) {copy : ι → Nat} {prog : ι → JobProg Unit}
    (hp : ∀ t, Saves D.toColumn (prog t)) {f : Fleet} {table : Table π} (hrows : Encodes D.toColumn f.store table)
    (hv : ∀ i, (f.job i).Savable D.toColumn) {c' : Conf ι (DbAct π) DbAct.Res Exn Unit (DbFleetState π ι)}
    (hrun : Conf.Runs (tableSem D copy) ⟨fun t => overDb D (prog t), (⟨f.job, f.chan, table⟩, [])⟩ c') :
    RunsAs D copy prog f c' := by
  obtain ⟨c, hc, hm, hf⟩ := mirrored hD hP hp (f := ⟨f.job, f.chan, table⟩) hrows hv hrun
  refine ⟨c, hc, hm.job, hm.chan, fun id => ?_, hm.log.seen_eq, hf⟩
  rw [hm.rows.rows]
  cases hd : c.state.1.store.get id with
  | none => rfl
  | some d =>
    rw [Option.map_some, Option.map_some, hD d (hm.rows.storable id d hd)]
    rfl

/-- MongoDB keeps every payload a job builds. -/
theorem MongoJobStore.takes (ws : List Workflow) : column.Takes ws := fun j _ => .inr ⟨j, rfl⟩

theorem MongoJobStore.savable {j : Job} (h : 1 ≤ j.version) : j.Savable column := ⟨h, .inr ⟨j, rfl⟩⟩

theorem SqlJobStore.savable {j : Job} (h : 1 ≤ j.version) (hp : Keeps j.workflowsPayload) : j.Savable column := ⟨h, hp⟩

/-- **The scheduler runs over a database as it does over the in-memory store**: whatever operations any threads perform on
any copies, and however the statements of their puts interleave, each run over the SQL or the MongoDB store is one over the
in-memory store.  Over SQL the payloads are ones that the text column gives back. -/
theorem scheduler_over_databases (copy : ι → Nat) (names : ι → Ident) (duties : ι → Duty) (f : Fleet)
    (hv : ∀ i, 1 ≤ (f.job i).version) :
    ((∀ i, SqlJobStore.Keeps (f.job i).workflowsPayload) →
      (∀ t ws, (duties t).rebuild = some ws → SqlJobStore.column.Takes ws) →
      ∀ table c', Encodes SqlJobStore.column f.store table →
      Conf.Runs (tableSem SqlJobStore.backend copy)
        ⟨fun t => overDb SqlJobStore.backend ((duties t).prog (names t)), (⟨f.job, f.chan, table⟩, [])⟩ c' →
      RunsAs SqlJobStore.backend copy (fun t => (duties t).prog (names t)) f c') ∧
    (∀ table c', Encodes MongoJobStore.column f.store table →
      Conf.Runs (tableSem MongoJobStore.backend copy)
        ⟨fun t => overDb MongoJobStore.backend ((duties t).prog (names t)), (⟨f.job, f.chan, table⟩, [])⟩ c' →
      RunsAs MongoJobStore.backend copy (fun t => (duties t).prog (names t)) f c') := by
  constructor
  · intro hkept hws table c' hrows hrun
    exact runsAs SqlJobStore.backend_reads SqlJobStore.backend_puts (fun t => Duty.prog_saves (names t) (hws t)) hrows
      (fun i => SqlJobStore.savable (hv i) (hkept i)) hrun
  · intro table c' hrows hrun
    exact runsAs MongoJobStore.backend_reads MongoJobStore.backend_puts
      (fun t => Duty.prog_saves (names t) fun ws _ => MongoJobStore.takes ws) hrows
      (fun i => MongoJobStore.savable (hv i)) hrun

end

/-! Two copies of a job without a row, each saved once. -/

def freshFleet : Fleet := ⟨fun i => { ref := i, id := "j" }, fun _ => ⟨[], 0, false⟩, InMemoryJobStore.empty⟩

def savesOnce : Nat → Duty := fun _ => { ops := [.save] }

/-- Both find no row; the second copy's insert is refused, and its second update replaces the first copy's row. -/
theorem scheduler_over_databases_race : ∃ c', Conf.Runs (tableSem SqlJobStore.backend id)
    ⟨fun t => overDb SqlJobStore.backend ((savesOnce t).prog (freshFleet.job t).ident),
      (⟨freshFleet.job, freshFleet.chan, Py.Dict.empty⟩, [])⟩ c' ∧
    (c'.state.1.table.get "j").map DbRow.version = some 2 ∧
    RunsAs SqlJobStore.backend id (fun t => (savesOnce t).prog (freshFleet.job t).ident) freshFleet c' := by
  have hrun : ∃ c', Conf.Runs (tableSem SqlJobStore.backend id)
      ⟨fun t => overDb SqlJobStore.backend ((savesOnce t).prog (freshFleet.job t).ident),
        (⟨freshFleet.job, freshFleet.chan, Py.Dict.empty⟩, [])⟩ c' ∧
      (c'.state.1.table.get "j").map DbRow.version = some 2 :=
    exists_tableRuns ([0, 0, 1, 1, 0, 1, 1, 1, 0].map (·, {})) (by simp [faultFree]) (by decide +kernel)
  obtain ⟨c', hrun, hversion⟩ := hrun
  have hempty : Encodes SqlJobStore.column freshFleet.store Py.Dict.empty := ⟨fun _ => rfl, fun _ _ h => by cases h⟩
  exact ⟨c', hrun, hversion, (scheduler_over_databases id (fun t => (freshFleet.job t).ident) savesOnce freshFleet
    (fun _ => Int.le_refl 1)).1 (fun _ => ⟨.inl rfl, rfl, fun p hp => by cases hp⟩) (fun _ _ h => by cases h) _ _ hempty hrun⟩

end Pypepper
