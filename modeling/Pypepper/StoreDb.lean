import Pypepper.JsonStr
import Pypepper.Job
import Pypepper.Linear
/-!
# StoreDb — the database job stores

`scheduler/store/sql.py` and `mongodb.py`.  A put is up to four statements, each atomic on the latest rows: an update
gated by the fence and the version, an insert, the update again, and in MongoDB a read of the document that stood in the
way.  Puts of any clients interleave at their statements.

The matched update, the insert that succeeds and the second update that matches nothing are where a put takes effect; in
the order of these points the in-memory store answers the same and holds the same records.
-/
namespace Pypepper

open Conc (Prog Proto Sem Conf Ev Answered Linearizes replies settle calls Extends team team_guar team_stable)

/-! ## Rows and statements -/

/-- A row of the table, or a document of the collection; `π` is the type of its payload column. -/
structure DbRow (π : Type) where
  id            : String
  category      : Option String
  channelId     : String
  status        : String
  created       : String
  updated       : String
  workflowCount : Int
  version       : Int
  payload       : Option π

/-- The columns an update sets. -/
structure UpdateValues (π : Type) where
  category      : Option String
  channelId     : String
  status        : String
  updated       : String
  workflowCount : Int
  version       : Int
  payload       : Option π

def DbRow.assign {π : Type} (row : DbRow π) (v : UpdateValues π) : DbRow π :=
  { row with category := v.category, channelId := v.channelId, status := v.status, updated := v.updated,
             workflowCount := v.workflowCount, version := v.version, payload := v.payload }

/-- The rows by primary key. -/
abbrev Table (π : Type) := Py.Dict String (DbRow π)

inductive Stmt (π : Type) where
  | update (id : String) (allowed : List String) (version : Int) (values : UpdateValues π)
  | insert (row : DbRow π)
  | findOne (id : String)

namespace Stmt

variable {π : Type}

@[reducible] def Res : Stmt π → Type
  | .update _ _ _ _ => Bool
  | .insert _       => Bool
  | .findOne _      => Option (DbRow π)

/-- One statement: an update answers whether it matched a row, an insert whether the key was free. -/
def exec : (a : Stmt π) → Table π → a.Res × Table π
  | .update id allowed version values, t =>
    match t.get id with
    | none     => (false, t)
    | some row =>
      if allowed.contains row.status && decide (row.version = version) then (true, t.set id (row.assign values))
      else (false, t)
  | .insert row, t =>
    match t.get row.id with
    | none   => (true, t.set row.id row)
    | some _ => (false, t)
  | .findOne id, t => (t.get id, t)

def isInsert : Stmt π → Bool
  | .insert _ => true
  | _         => false

end Stmt

abbrev DbProg (π α : Type) := Prog (Stmt π) Stmt.Res Exn α

def perform {π : Type} (a : Stmt π) : DbProg π a.Res := Prog.call a

/-! ## The two puts -/

section
variable {π : Type} (enc : Option (Py.Json Py.Str) → Option π)

/-- The row an insert writes. -/
def rowValues (r : JobRecord) : DbRow π :=
  { id := r.id, category := r.category, channelId := r.channelId, status := r.status, created := r.created,
    updated := r.updated, workflowCount := r.workflowCount, version := r.version, payload := enc r.payload }

/-- What an update sets: neither the id nor `created`, and the next version. -/
def updateValues (r : JobRecord) : UpdateValues π :=
  { category := r.category, channelId := r.channelId, status := r.status, updated := r.updated,
    workflowCount := r.workflowCount, version := r.version + 1, payload := enc r.payload }

/-- The update of the record's row, when its status may be replaced and its version is the record's. -/
abbrev gatedUpdate (r : JobRecord) : Stmt π :=
  .update r.id (existingStatusesPutMayReplace r.status) r.version (updateValues enc r)

def updateIfAllowed (r : JobRecord) : DbProg π Bool := perform (gatedUpdate enc r)

/-- The gated update, then the insert, then what is done when the key was there. -/
def upsert (r : JobRecord) (duplicate : DbProg π Bool) : DbProg π Bool := do
  if ← updateIfAllowed enc r then return true
  else if ← perform (.insert (rowValues enc r)) then return true
  else duplicate

end

namespace SqlJobStore

/-- `_dumps_payload` does not raise. -/
def dumpable (payload : Option (Py.Json Py.Str)) : Bool := payload.all Py.Json.short

/-- `_dumps_payload`, when it does not. -/
def dumpsPayload (payload : Option (Py.Json Py.Str)) : Option String := payload.map Py.Json.dumps

/-- `_loads_payload`; no answer when `json.loads` raises. -/
def loadsPayload : Option String → Option (Option (Py.Json Py.Str))
  | none     => some none
  | some raw =>
    if raw = "" then some none
    else match Py.Json.loads raw with
      | none           => none
      | some (.obj ms) => some (some (.obj ms))
      | some _         => some none

def rowToRecord (row : DbRow String) : Option JobRecord :=
  (loadsPayload row.payload).map fun payload =>
    { id := row.id, category := row.category, channelId := row.channelId, status := row.status, created := row.created,
      updated := row.updated, workflowCount := row.workflowCount,
      version := if row.version = 0 then 1 else row.version, payload := payload }

/-- The payload's text is made before the first statement. -/
def put (record : JobRecord) : DbProg String Bool :=
  if dumpable record.payload then upsert dumpsPayload record (updateIfAllowed dumpsPayload record)
  else Prog.raise (.value ("Exceeds the limit (4300 digits) for integer string conversion; " ++
    "use sys.set_int_max_str_digits() to increase the limit"))

end SqlJobStore

namespace MongoJobStore

/-- An empty payload is read as none. -/
def docToRecord (doc : DbRow (Py.Json Py.Str)) : JobRecord :=
  { id := doc.id, category := doc.category, channelId := doc.channelId, status := doc.status, created := doc.created,
    updated := doc.updated, workflowCount := doc.workflowCount,
    version := if doc.version = 0 then 1 else doc.version,
    payload := match doc.payload with
      | some (.obj []) => none
      | p              => p }

def put (record : JobRecord) : DbProg (Py.Json Py.Str) Bool :=
  upsert id record (do
    if ← updateIfAllowed id record then return true
    else
      match ← perform (.findOne record.id) with
      | none   => Prog.raise (.runtime
          ("MongoJobStore.put: document missing after DuplicateKeyError (id=" ++ record.id ++ ")"))
      | some _ => return false)

end MongoJobStore

/-! ## What is stored comes back -/

/-- A payload that is absent or `_workflows_payload`'s. -/
def Job.IsPayload (payload : Option (Py.Json Py.Str)) : Prop := payload = none ∨ ∃ j : Job, payload = j.workflowsPayload

/-- A payload that the text column gives back as it was. -/
structure SqlJobStore.Keeps (payload : Option (Py.Json Py.Str)) : Prop where
  built    : Job.IsPayload payload
  dumpable : dumpable payload = true
  joinless : ∀ p ∈ payload, p.Joinless

/-- How a store keeps payloads, and which it keeps. -/
structure Column (π : Type) where
  enc   : Option (Py.Json Py.Str) → Option π
  keeps : Option (Py.Json Py.Str) → Prop

abbrev SqlJobStore.column : Column String := ⟨dumpsPayload, Keeps⟩

abbrev MongoJobStore.column : Column (Py.Json Py.Str) := ⟨id, Job.IsPayload⟩

/-- A record a job can save: a positive version, and a payload that the store keeps. -/
structure Storable {π : Type} (col : Column π) (r : JobRecord) : Prop where
  version : 1 ≤ r.version
  payload : col.keeps r.payload

theorem Task.payload_wf {t : Task} {p : Py.Json Py.Str} (h : t.payload = some p) : p.Wf := by
  unfold Task.payload at h
  split at h
  · cases h
  · cases h
  · obtain rfl := Option.some.inj h
    refine ⟨by simp only [List.map_cons, List.map_nil]; decide, ?_⟩
    simp only [Py.Json.WfMembers, Py.Json.Wf, true_and, and_true]
    refine Py.Json.wfElems_iff.2 fun x hx => ?_
    obtain ⟨g, -, rfl⟩ := List.mem_map.1 hx
    exact ⟨by simp, trivial, trivial, trivial⟩

theorem mapM_wf {α τ : Type} {f : α → Option (Py.Json τ)} (hf : ∀ a p, f a = some p → p.Wf) {l : List α}
    {ps : List (Py.Json τ)}
    (h : l.mapM f = some ps) : Py.Json.WfElems ps := by
  induction l generalizing ps with
  | nil =>
    obtain rfl := Option.some.inj h
    trivial
  | cons a l ih =>
    simp only [List.mapM_cons, Option.bind_eq_bind, Option.bind_eq_some_iff, Option.pure_def, Option.some.injEq] at h
    obtain ⟨p, hp, qs, hqs, rfl⟩ := h
    exact ⟨hf a p hp, ih hqs⟩

theorem Job.workflowsPayload_wf {j : Job} {p : Py.Json Py.Str} (h : j.workflowsPayload = some p) :
    p.Wf ∧ ∃ m ms, p = .obj (m :: ms) := by
  unfold Job.workflowsPayload at h
  split at h
  · cases h
  · obtain ⟨out, hout, rfl⟩ := Option.map_eq_some_iff.1 h
    refine ⟨⟨by simp, ?_, trivial⟩, _, _, rfl⟩
    refine mapM_wf (fun w q hq => ?_) hout
    obtain ⟨ts, hts, rfl⟩ := Option.map_eq_some_iff.1 hq
    exact ⟨by simp, mapM_wf (fun _ _ => Task.payload_wf) hts, trivial⟩

theorem Job.IsPayload.wf {payload : Option (Py.Json Py.Str)} (h : Job.IsPayload payload) {p : Py.Json Py.Str}
    (hp : payload = some p) : p.Wf ∧ ∃ m ms, p = .obj (m :: ms) := by
  rcases h with hn | ⟨j, hj⟩
  · rw [hn] at hp
    cases hp
  · exact j.workflowsPayload_wf (hj.symm.trans hp)

/-- What comes back from the text column: the payload, its texts as the decoder reads them. -/
theorem SqlJobStore.loadsPayload_back {payload : Option (Py.Json Py.Str)} (h : Job.IsPayload payload) :
    loadsPayload (dumpsPayload payload) = some (payload.map (Py.Json.readBack true)) := by
  cases hr : payload with
  | none => rfl
  | some p =>
    obtain ⟨hwf, m, ms, rfl⟩ := h.wf hr
    simp only [dumpsPayload, Option.map_some, loadsPayload, if_neg (Py.Json.dumps_ne_empty _),
      Py.Json.loads_dumps_back _ hwf]
    rfl

/-- **A payload that the column keeps comes back.** -/
theorem SqlJobStore.Keeps.back {payload : Option (Py.Json Py.Str)} (h : Keeps payload) :
    loadsPayload (dumpsPayload payload) = some payload := by
  rw [loadsPayload_back h.built]
  cases hr : payload with
  | none => rfl
  | some p => rw [Option.map_some, Py.Json.readBack_eq_iff.2 (h.joinless p hr)]

/-- **A stored row decodes to its record.** -/
theorem SqlJobStore.rowToRecord_rowValues {r : JobRecord} (h : Storable column r) :
    rowToRecord (rowValues dumpsPayload r) = some r := by
  have hv : ¬ r.version = 0 := by
    have := h.version
    omega
  simp only [rowToRecord, rowValues, h.payload.back, Option.map_some, hv, if_false]

theorem SqlJobStore.put_eq {record : JobRecord} (h : Storable column record) :
    put record = upsert dumpsPayload record (updateIfAllowed dumpsPayload record) := if_pos h.payload.dumpable

theorem MongoJobStore.docToRecord_rowValues {r : JobRecord} (h : Storable column r) :
    docToRecord (rowValues id r) = r := by
  have hv : ¬ r.version = 0 := by
    have := h.version
    omega
  have hp : (match r.payload with | some (.obj []) => none | p => p) = r.payload := by
    split
    · rename_i hr
      obtain ⟨-, m, ms, hm⟩ := h.payload.wf hr
      cases hm
    · rfl
  simp only [docToRecord, rowValues, id, hv, if_false, hp]

/-! ## Statements against the in-memory store -/

section
variable {π : Type} {col : Column π} {m : InMemoryJobStore} {t : Table π} {r : JobRecord}

/-- **The table holds the store's records**, each encoded. -/
structure Encodes (col : Column π) (m : InMemoryJobStore) (t : Table π) : Prop where
  rows     : ∀ id, t.get id = (m.get id).map (rowValues col.enc)
  storable : ∀ id d, m.get id = some d → Storable col d

theorem Encodes.set (h : Encodes col m t) {d : JobRecord} (hd : Storable col d) :
    Encodes col (m.setRow d) (t.set d.id (rowValues col.enc d)) := by
  constructor
  · intro id
    rw [Py.Dict.get_set, InMemoryJobStore.get_setRow]
    by_cases hid : id = d.id
    · simp [hid]
    · simp [hid, h.rows id]
  · intro id d' hd'
    rw [InMemoryJobStore.get_setRow] at hd'
    split at hd'
    · rw [← Option.some.inj hd']
      exact hd
    · exact h.storable id d' hd'

/-- The gate of the update is the fence and the version. -/
theorem gate_eq (d : JobRecord) :
    ((existingStatusesPutMayReplace r.status).contains (rowValues col.enc d).status &&
        decide ((rowValues col.enc d).version = r.version)) =
      putMayWrite (some d.status) (some d.version) r.status r.version := by
  have hv : decide (some d.version = some r.version) = decide (d.version = r.version) := decide_eq_decide.2 (by simp)
  simp only [putMayWrite, putApplies, rowValues, hv]
  rfl

theorem exec_update (h : Encodes col m t) :
    (m.get r.id = none ∧ (gatedUpdate col.enc r).exec t = (false, t)) ∨
    (∃ d, m.get r.id = some d ∧ InMemoryJobStore.MayWrite d r ∧
      (gatedUpdate col.enc r).exec t = (true, t.set r.id ((rowValues col.enc d).assign (updateValues col.enc r)))) ∨
    (∃ d, m.get r.id = some d ∧ ¬ InMemoryJobStore.MayWrite d r ∧ (gatedUpdate col.enc r).exec t = (false, t)) := by
  have hrow := h.rows r.id
  cases hd : m.get r.id with
  | none =>
    rw [hd, Option.map_none] at hrow
    exact .inl ⟨rfl, by simp only [Stmt.exec, hrow]⟩
  | some d =>
    rw [hd, Option.map_some] at hrow
    have hgate := @gate_eq π col r d
    by_cases hw : putMayWrite (some d.status) (some d.version) r.status r.version = true
    · refine .inr (.inl ⟨d, rfl, (InMemoryJobStore.putMayWrite_iff d r).1 hw, ?_⟩)
      simp only [Stmt.exec, hrow, hgate, hw, if_true]
    · refine .inr (.inr ⟨d, rfl, fun h => hw ((InMemoryJobStore.putMayWrite_iff d r).2 h), ?_⟩)
      simp only [Stmt.exec, hrow, hgate, hw, if_false, Bool.false_eq_true]

/-- **A matched update is an applied put.** -/
theorem Encodes.update_matched (h : Encodes col m t) (hr : Storable col r) {t' : Table π}
    (hx : (gatedUpdate col.enc r).exec t = (true, t')) : (m.put r).1 = true ∧ Encodes col (m.put r).2 t' := by
  obtain ⟨-, he⟩ | ⟨d, hd, hw, he⟩ | ⟨_, -, -, he⟩ := exec_update (r := r) h
  · rw [he] at hx
    cases hx
  · rw [he] at hx
    obtain rfl := (Prod.mk.inj hx).2
    obtain ⟨hn, -⟩ | ⟨d', hd', -, hp⟩ | ⟨d', hd', hn, -⟩ := InMemoryJobStore.put_cases m r
    · rw [hd] at hn
      cases hn
    · obtain rfl := Option.some.inj (hd.symm.trans hd')
      rw [hp]
      have hstore : Storable col (InMemoryJobStore.updated d r) := by
        refine ⟨?_, hr.payload⟩
        have := (h.storable _ _ hd).version
        show 1 ≤ d.version + 1
        omega
      have hrow : (rowValues col.enc d).assign (updateValues col.enc r) = rowValues col.enc (InMemoryJobStore.updated d r) := by
        simp only [DbRow.assign, rowValues, updateValues, InMemoryJobStore.updated, hw.2]
        rw [m.keyed r.id d hd]
      rw [hrow]
      exact ⟨rfl, h.set hstore⟩
    · obtain rfl := Option.some.inj (hd.symm.trans hd')
      exact absurd hw hn
  · rw [he] at hx
    cases hx

/-- **An update that matches nothing on a key that is there is a refused put.** -/
theorem Encodes.update_missed (h : Encodes col m t) (hrow : (t.get r.id).isSome) {t' : Table π}
    (hx : (gatedUpdate col.enc r).exec t = (false, t')) : t' = t ∧ m.put r = (false, m) := by
  obtain ⟨hn, -⟩ | ⟨_, -, -, he⟩ | ⟨d, hd, hw, he⟩ := exec_update (r := r) h
  · rw [h.rows, hn] at hrow
    cases hrow
  · rw [he] at hx
    cases hx
  · rw [he] at hx
    refine ⟨(Prod.mk.inj hx).2.symm, ?_⟩
    obtain ⟨hn, -⟩ | ⟨d', hd', hw', -⟩ | ⟨_, -, -, hp⟩ := InMemoryJobStore.put_cases m r
    · rw [hd] at hn
      cases hn
    · obtain rfl := Option.some.inj (hd.symm.trans hd')
      exact absurd hw' hw
    · exact hp

theorem exec_update_missed {enc : Option (Py.Json Py.Str) → Option π} {t' : Table π}
    (hx : (gatedUpdate enc r).exec t = (false, t')) : t' = t := by
  simp only [Stmt.exec] at hx
  split at hx
  · exact (Prod.mk.inj hx).2.symm
  · split at hx
    · cases hx
    · exact (Prod.mk.inj hx).2.symm

/-- **An insert that succeeds is an inserting put.** -/
theorem Encodes.inserted (h : Encodes col m t) (hr : Storable col r) {t' : Table π}
    (hx : Stmt.exec (.insert (rowValues col.enc r)) t = (true, t')) :
    (m.put r).1 = true ∧ Encodes col (m.put r).2 t' := by
  have hrow : t.get r.id = (m.get r.id).map (rowValues col.enc) := h.rows r.id
  simp only [Stmt.exec] at hx
  split at hx
  · rename_i hnone
    obtain rfl := (Prod.mk.inj hx).2
    have hn : m.get r.id = none := by
      have hmap : (m.get r.id).map (rowValues col.enc) = none := hrow.symm.trans hnone
      simpa using hmap
    obtain ⟨-, hp⟩ | ⟨d, hd, -⟩ | ⟨d, hd, -⟩ := InMemoryJobStore.put_cases m r
    · rw [hp]
      exact ⟨rfl, h.set hr⟩
    · rw [hn] at hd
      cases hd
    · rw [hn] at hd
      cases hd
  · cases hx

theorem exec_insert_failed {enc : Option (Py.Json Py.Str) → Option π} {t' : Table π}
    (hx : Stmt.exec (.insert (rowValues enc r)) t = (false, t')) : t' = t ∧ (t.get r.id).isSome := by
  simp only [Stmt.exec] at hx
  split at hx
  · cases hx
  · rename_i hrow
    exact ⟨(Prod.mk.inj hx).2.symm, by rw [show t.get r.id = _ from hrow]; rfl⟩

/-- No statement removes a row. -/
theorem exec_keeps_rows (a : Stmt π) (t : Table π) (id : String) (h : (t.get id).isSome) :
    ((a.exec t).2.get id).isSome := by
  have hset : ∀ k v, ((t.set k v).get id).isSome := by
    intro k v
    rw [Py.Dict.get_set]
    split
    · rfl
    · exact h
  cases a with
  | update k al v u =>
    simp only [Stmt.exec]
    split
    · exact h
    · split
      · exact hset _ _
      · exact h
  | insert row =>
    simp only [Stmt.exec]
    split
    · exact hset _ _
    · exact h
  | findOne k => exact h

end
end Pypepper
