import Mathlib.Data.List.Perm.Lattice
import Pypepper.DbFleet
import Pypepper.LockedStore
/-!
# DbClients — database stores whose rows are deleted

Any clients of one table: puts, which are their statements, gets, deletes, and on SQL also lists and clears.  A delete may
take a row away between two statements of a put, which then finds neither a row to update nor a free key to insert at.  So
the clients do what calls of the in-memory store do, one step each, but for a put whose row another client deletes: that
may be refused, and on MongoDB raise, having written nothing (`databases_refine_store`).  Rows that nobody deletes are put
as the in-memory store puts them.
-/
namespace Py.Dict

variable {κ α β : Type} [DecidableEq κ]

theorem mem_entries_iff {d : Dict κ α} {k : κ} {v : α} : (k, v) ∈ d.entries ↔ d.get k = some v :=
  ⟨lookup_of_mem d.nodup, mem_of_lookup⟩

/-- **Dictionaries that read the same hold the same values**, in some order. -/
theorem values_perm {d : Dict κ α} {d' : Dict κ β} {f : α → β} (h : ∀ k, d'.get k = (d.get k).map f) :
    d'.values.Perm (d.values.map f) := by
  have hentries : d'.entries.Perm (d.entries.map fun p => (p.1, f p.2)) := by
    refine (List.perm_ext_iff_of_nodup (List.Nodup.of_map _ d'.nodup) ?_).2 fun ⟨k, v⟩ => ?_
    · refine List.Nodup.of_map Prod.fst ?_
      rw [List.map_map]
      exact d.nodup
    · rw [mem_entries_iff, h]
      simp only [List.mem_map, Prod.mk.injEq, Prod.exists, Option.map_eq_some_iff]
      constructor
      · rintro ⟨u, hu, rfl⟩
        exact ⟨k, u, mem_entries_iff.2 hu, rfl, rfl⟩
      · rintro ⟨j, u, hu, rfl, rfl⟩
        exact ⟨u, mem_entries_iff.1 hu, rfl⟩
  have hvalues := hentries.map Prod.snd
  rw [List.map_map] at hvalues
  rw [values, values, List.map_map]
  exact hvalues

end Py.Dict

namespace Pypepper

open Conc (Prog Sem Conf Takes Carries)
open Relation (ReflTransGen)

/-! ## The calls over a table -/

/-- A statement: one of a put or a get, a select, or one that removes rows. -/
inductive DbStmt (π : Type) where
  | stmt (s : Stmt π)
  | select (channelId : Option String)
  | delete (jobId : String)
  | deleteAll

section
variable {π : Type}

@[reducible] def DbStmt.Res : DbStmt π → Type
  | .stmt s    => s.Res
  | .select _  => List (DbRow π)
  | .delete _  => Unit
  | .deleteAll => Unit

/-- One statement; a select gives its rows in any order. -/
def DbStmt.exec (order : List (DbRow π) → List (DbRow π)) : (a : DbStmt π) → Table π → a.Res × Table π
  | .stmt s,           t => s.exec t
  | .select none,      t => (order t.values, t)
  | .select (some ch), t => (order (t.values.filter fun row => decide (row.channelId = ch)), t)
  | .delete jobId,     t => ((), t.pop jobId)
  | .deleteAll,        _ => ((), .empty)

def DbStmt.sem {ι : Type} : Sem ι (DbStmt π) DbStmt.Res (Table π) :=
  Sem.ofExec (fun order (_ : ι) a t => some (DbStmt.exec order a t)) (fun _ order _ _ => ∀ l, (order l).Perm l)

def DbStmt.issue (s : Stmt π) : Prog (DbStmt π) DbStmt.Res Exn s.Res := Prog.call (DbStmt.stmt s)

abbrev StoreCall.Result (c : StoreCall) : Type := Except Exn c.Ans

/-- What a get answers for the row it found; a row that does not decode makes it raise. -/
def DbStore.read (D : DbStore π) : Option (DbRow π) → Except Exn (Option JobRecord)
  | none     => .ok none
  | some row =>
    match D.decode row with
    | some record => .ok (some record)
    | none        => .error (.store "get")

def DbStore.readAll (D : DbStore π) (rows : List (DbRow π)) : Except Exn (List JobRecord) :=
  match rows.mapM D.decode with
  | some records => .ok records
  | none         => .error (.store "list")

/-- The store's methods over a table, with their exceptions as answers. -/
def DbStore.call (D : DbStore π) : (c : StoreCall) → Prog (DbStmt π) DbStmt.Res Exn c.Result
  | .put record     => ((D.put record).inline DbStmt.issue).attempt
  | .get jobId      => (DbStmt.issue (.findOne jobId)).bind fun row => .ret (D.read row)
  | .delete jobId   => (Prog.call (DbStmt.delete jobId)).bind fun _ => .ret (.ok ())
  | .list channelId => (Prog.call (DbStmt.select channelId)).bind fun rows => .ret (D.readAll rows)
  | .clear          => (Prog.call DbStmt.deleteAll).bind fun _ => .ret (.ok ())

end

/-- A client of the store. -/
abbrev StoreProg (α : Type) := Prog StoreCall StoreCall.Result Exn α

def StoreProg.overTable {π α : Type} (D : DbStore π) (p : StoreProg α) : Prog (DbStmt π) DbStmt.Res Exn α := p.inline D.call

/-! ## The calls over the in-memory store -/

/-- One call as a step: what the in-memory store does, a list in any order, or a put that is refused for another reason. -/
inductive CallStep (refuses : InMemoryJobStore → JobRecord → Except Exn Bool → Prop) (m : InMemoryJobStore) :
    (c : StoreCall) → c.Result → InMemoryJobStore → Prop
  | call {c : StoreCall} {r : c.Result} {m' : InMemoryJobStore} : c.Spec m r m' → CallStep refuses m c r m'
  | list {channelId : Option String} {l : List JobRecord} : l.Perm (m.list channelId) →
      CallStep refuses m (.list channelId) (.ok l) m
  | refused {record : JobRecord} {r : Except Exn Bool} : refuses m record r → CallStep refuses m (.put record) r m

def memSem {ι : Type} (refuses : InMemoryJobStore → JobRecord → Except Exn Bool → Prop) :
    Sem ι StoreCall StoreCall.Result InMemoryJobStore := fun _ c m r m' => CallStep refuses m c r m'

/-- The calls of clients that delete only some rows, and that may read or remove many at once. -/
def StoreCall.Allowed {π : Type} (col : Column π) (deletable : String → Prop) (many : Prop) : StoreCall → Prop
  | .put record   => Storable col record
  | .get _        => True
  | .delete jobId => deletable jobId
  | .list _       => many
  | .clear        => many ∧ ∀ jobId, deletable jobId

/-- The row that stood in the way of the insert was deleted before the second update. -/
def SqlJobStore.Refuses (deletable : String → Prop) (m : InMemoryJobStore) (record : JobRecord) (r : Except Exn Bool) : Prop :=
  deletable record.id ∧ m.get record.id = none ∧ r = .ok false

def MongoJobStore.missing (jobId : String) : Exn :=
  .runtime ("MongoJobStore.put: document missing after DuplicateKeyError (id=" ++ jobId ++ ")")

/-- The document was deleted before the second update; it is not there to be read, or there again. -/
def MongoJobStore.Refuses (deletable : String → Prop) (m : InMemoryJobStore) (record : JobRecord) (r : Except Exn Bool) :
    Prop :=
  deletable record.id ∧ (r = .ok false ∨ (m.get record.id = none ∧ r = .error (missing record.id)))

/-! ## The table keeps encoding the records -/

section
variable {π : Type} {col : Column π} {m : InMemoryJobStore} {t : Table π}

theorem Encodes.delete (h : Encodes col m t) (jobId : String) : Encodes col (m.delete jobId) (t.pop jobId) := by
  constructor
  · intro id
    rw [Py.Dict.get_pop, InMemoryJobStore.get_delete]
    by_cases hid : id = jobId
    · simp [hid]
    · simp [hid, h.rows id]
  · intro id d hd
    rw [InMemoryJobStore.get_delete] at hd
    split at hd
    · cases hd
    · exact h.storable id d hd

theorem encodes_empty : Encodes col InMemoryJobStore.empty (Py.Dict.empty : Table π) where
  rows _ := rfl
  storable _ _ hd := by cases hd

/-- The rows of a select are the listed records, encoded. -/
theorem Encodes.selected (h : Encodes col m t) {order : List (DbRow π) → List (DbRow π)} (ho : ∀ l, (order l).Perm l)
    (channelId : Option String) :
    (DbStmt.exec order (.select channelId) t).1.Perm ((m.list channelId).map (rowValues col.enc)) := by
  have hvalues := Py.Dict.values_perm h.rows
  cases channelId with
  | none => exact (ho _).trans hvalues
  | some ch =>
    refine (ho _).trans ((hvalues.filter _).trans ?_)
    rw [List.filter_map]
    exact .refl _

theorem mapM_decode {α β : Type} {f : α → Option β} : ∀ {l : List α}, (∀ a ∈ l, (f a).isSome) → l.mapM f = some (l.filterMap f)
  | [], _ => rfl
  | a :: l, h => by
    obtain ⟨b, hb⟩ := Option.isSome_iff_exists.1 (h a List.mem_cons_self)
    have ih := mapM_decode fun a ha => h a (List.mem_cons_of_mem _ ha)
    simp [List.mapM_cons, hb, ih]

end

/-! ## Each call is carried out -/

section
variable {ι π : Type} {D : DbStore π} {deletable : String → Prop}
  {refuses : InMemoryJobStore → JobRecord → Except Exn Bool → Prop}

/-- Only rows that may be deleted go away. -/
def KeepsOthers (deletable : String → Prop) (x y : Table π × InMemoryJobStore) : Prop :=
  ∀ id, ¬ deletable id → (x.1.get id).isSome → (y.1.get id).isSome

theorem KeepsOthers.star {x y : Table π × InMemoryJobStore} (h : ReflTransGen (KeepsOthers deletable) x y) :
    KeepsOthers deletable x y := by
  induction h with
  | refl => exact fun _ _ h => h
  | tail _ hs ih => exact fun id hid h => hs id hid (ih id hid h)

abbrev CallCarries (D : DbStore π) (deletable : String → Prop)
    (refuses : InMemoryJobStore → JobRecord → Except Exn Bool → Prop) (t : ι) (c : StoreCall) :
    Prog (DbStmt π) DbStmt.Res Exn c.Result → Option c.Result → Table π × InMemoryJobStore → Prop :=
  Carries (memSem refuses) DbStmt.sem (fun table m => Encodes D.toColumn m table) (KeepsOthers deletable) (fun _ _ => True) t c

theorem stmtSem {t : ι} {s : Stmt π} {table table' : Table π} {r : s.Res} (h : DbStmt.sem t (.stmt s) table r table') :
    s.exec table = (r, table') := by
  obtain ⟨order, -, hx⟩ := h
  exact Option.some.inj hx

/-- A statement of a put or a get leaves every row. -/
theorem stmt_keeps {s : Stmt π} {x : Table π × InMemoryJobStore} {r : s.Res} {table' : Table π} (h : s.exec x.1 = (r, table'))
    (m : InMemoryJobStore) : KeepsOthers deletable x (table', m) := by
  intro id _ hid
  have := exec_keeps_rows s x.1 id hid
  rwa [h] at this

theorem takes_put {t : ι} {rec : JobRecord} {m : InMemoryJobStore} {b : Bool} (hb : (m.put rec).1 = b) :
    Takes (memSem refuses) (fun _ _ => True) t (.put rec) none m (some (.ok b)) (m.put rec).2 :=
  .takes (.call ⟨by rw [← hb]; rfl, rfl⟩) trivial

/-- **The gated update and the insert** carry out a put, or find its key taken. -/
theorem upsert_carries {t : ι} {rec : JobRecord} (hr : Storable D.toColumn rec) {dup : DbProg π Bool}
    (hdup : ∀ x, (x.1.get rec.id).isSome →
      CallCarries D deletable refuses t (.put rec) (dup.inline DbStmt.issue).attempt none x)
    (x : Table π × InMemoryJobStore) :
    CallCarries D deletable refuses t (.put rec) ((upsert D.enc rec dup).inline DbStmt.issue).attempt none x := by
  intro y _ hm b t' hstep
  have hx := stmtSem hstep
  match b, hx with
  | true, hx =>
    obtain ⟨hb, hrows⟩ := hm.update_matched hr hx
    exact ⟨_, _, takes_put hb, hrows, stmt_keeps hx _, rfl⟩
  | false, hx =>
    obtain rfl := exec_update_missed hx
    refine ⟨none, y.2, .waits, hm, stmt_keeps hx _, ?_⟩
    intro y _ hm b t' hstep
    have hx := stmtSem hstep
    match b, hx with
    | true, hx =>
      obtain ⟨hb, hrows⟩ := hm.inserted hr hx
      exact ⟨_, _, takes_put hb, hrows, stmt_keeps hx _, rfl⟩
    | false, hx =>
      obtain ⟨rfl, hrow⟩ := exec_insert_failed hx
      exact ⟨none, y.2, .waits, hm, stmt_keeps hx _, hdup _ hrow⟩

/-- The row of a put whose insert failed is still there, or may be deleted. -/
theorem row_kept {x y : Table π × InMemoryJobStore} (hy : ReflTransGen (KeepsOthers deletable) x y) {id : String}
    (hrow : (x.1.get id).isSome) : (y.1.get id).isSome ∨ (deletable id ∧ y.1.get id = none) := by
  cases hget : y.1.get id with
  | some row => exact .inl rfl
  | none =>
    refine .inr ⟨Classical.byContradiction fun hkeep => ?_, rfl⟩
    have := KeepsOthers.star hy id hkeep hrow
    rw [hget] at this
    cases this

theorem Encodes.absent {col : Column π} {m : InMemoryJobStore} {t : Table π} (h : Encodes col m t)
    {id : String} (hrow : t.get id = none) : m.get id = none := by
  rw [h.rows] at hrow
  simpa using hrow

variable (D) in
/-- **The put's statements carry it out**, with the refusals of the store. -/
def DbStore.PutsWith (refuses : (String → Prop) → InMemoryJobStore → JobRecord → Except Exn Bool → Prop) : Prop :=
  ∀ {ι : Type} (deletable : String → Prop) (t : ι) (rec : JobRecord), Storable D.toColumn rec → ∀ x : Table π × InMemoryJobStore,
    CallCarries D deletable (refuses deletable) t (.put rec) (D.call (.put rec)) none x

theorem SqlJobStore.puts_with : backend.PutsWith Refuses := by
  intro ι deletable t rec hr x
  show CallCarries backend deletable (Refuses deletable) t (.put rec) ((put rec).inline DbStmt.issue).attempt none x
  rw [put_eq hr]
  refine upsert_carries hr (fun x hrow => ?_) x
  intro y hy hm b t' hstep
  have hx := stmtSem hstep
  match b, hx with
  | true, hx =>
    obtain ⟨hb, hrows⟩ := hm.update_matched hr hx
    exact ⟨_, _, takes_put hb, hrows, stmt_keeps hx _, rfl⟩
  | false, hx =>
    obtain hkept | ⟨hdel, hgone⟩ := row_kept hy hrow
    · obtain ⟨rfl, hput⟩ := hm.update_missed hkept hx
      refine ⟨_, _, takes_put (congrArg Prod.fst hput), ?_, stmt_keeps hx _, rfl⟩
      rw [hput]
      exact hm
    · obtain rfl := exec_update_missed hx
      exact ⟨_, y.2, .takes (.refused ⟨hdel, hm.absent hgone, rfl⟩) trivial, hm, stmt_keeps hx _, rfl⟩

theorem MongoJobStore.puts_with : backend.PutsWith Refuses := by
  intro ι deletable t rec hr x
  refine upsert_carries hr (fun x hrow => ?_) x
  intro y hy hm b t' hstep
  have hx := stmtSem hstep
  match b, hx with
  | true, hx =>
    obtain ⟨hb, hrows⟩ := hm.update_matched hr hx
    exact ⟨_, _, takes_put hb, hrows, stmt_keeps hx _, rfl⟩
  | false, hx =>
    by_cases hdel : deletable rec.id
    · -- whether the document is there to be read decides the answer
      obtain rfl := exec_update_missed hx
      refine ⟨none, y.2, .waits, hm, stmt_keeps hx _, ?_⟩
      intro y _ hm doc t' hstep
      have hfind := stmtSem hstep
      obtain ⟨hdoc, rfl⟩ := Prod.mk.inj hfind
      cases doc with
      | none =>
        exact ⟨_, y.2, .takes (.refused ⟨hdel, .inr ⟨hm.absent hdoc, rfl⟩⟩) trivial, hm, stmt_keeps hfind _, rfl⟩
      | some d => exact ⟨_, y.2, .takes (.refused ⟨hdel, .inl rfl⟩) trivial, hm, stmt_keeps hfind _, rfl⟩
    · obtain hkept | ⟨hdel', -⟩ := row_kept hy hrow
      · obtain ⟨rfl, hput⟩ := hm.update_missed hkept hx
        have htakes : Takes (memSem (Refuses deletable)) (fun _ _ => True) t (.put rec) none y.2 (some (.ok false))
            (y.2.put rec).2 := takes_put (congrArg Prod.fst hput)
        rw [hput] at htakes
        refine ⟨some (.ok false), y.2, htakes, hm, stmt_keeps hx _, ?_⟩
        intro y' hy' hm' doc t' hstep
        have hfind := stmtSem hstep
        obtain ⟨hdoc, rfl⟩ := Prod.mk.inj hfind
        refine ⟨some (.ok false), y'.2, .waits, hm', stmt_keeps hfind _, ?_⟩
        cases doc with
        | none =>
          have := KeepsOthers.star hy' rec.id hdel hkept
          rw [show y'.1.get rec.id = none from hdoc] at this
          cases this
        | some d => rfl
      · exact absurd hdel' hdel

/-- **Every call is carried out.** -/
theorem call_carries (hD : D.Reads) {refuses : (String → Prop) → InMemoryJobStore → JobRecord → Except Exn Bool → Prop}
    (hP : D.PutsWith refuses) {many : Prop} (t : ι) (c : StoreCall) (x : Table π × InMemoryJobStore)
    (hc : c.Allowed D.toColumn deletable many) : CallCarries D deletable (refuses deletable) t c (D.call c) none x := by
  cases c with
  | put rec => exact hP deletable t rec hc x
  | get jobId =>
    intro y _ hm row t' hstep
    have hx := stmtSem hstep
    obtain ⟨hrow, rfl⟩ := Prod.mk.inj hx
    refine ⟨_, y.2, .takes (.call ⟨rfl, rfl⟩) trivial, hm, stmt_keeps hx _, congrArg some ?_⟩
    show .ok (y.2.get jobId) = D.read row
    rw [← hrow, hm.rows jobId]
    cases hd : y.2.get jobId with
    | none => rfl
    | some d => simp only [Option.map_some, DbStore.read, hD d (hm.storable _ _ hd)]
  | delete jobId =>
    intro y _ hm r t' hstep
    obtain ⟨order, -, hx⟩ := hstep
    obtain ⟨-, rfl⟩ := Prod.mk.inj (Option.some.inj hx)
    refine ⟨_, y.2.delete jobId, .takes (.call ⟨rfl, rfl⟩) trivial, hm.delete jobId, fun id hid hrow => ?_, rfl⟩
    show ((y.1.pop jobId).get id).isSome
    rw [Py.Dict.get_pop, if_neg]
    · exact hrow
    · rintro rfl
      exact hid hc
  | list channelId =>
    intro y _ hm rows t' hstep
    obtain ⟨order, ho, hx⟩ := hstep
    have hsel := hm.selected ho channelId
    have hrows : (DbStmt.exec order (.select channelId) y.1).1 = rows := congrArg Prod.fst (Option.some.inj hx)
    have htable : y.1 = t' := by
      have := congrArg Prod.snd (Option.some.inj hx)
      cases channelId <;> exact this
    subst htable
    rw [hrows] at hsel
    have hread : ∀ d ∈ y.2.list channelId, D.decode (rowValues D.enc d) = some d := by
      intro d hd
      have hmem : d ∈ y.2.store.values := by
        cases channelId with
        | none => exact hd
        | some ch => exact List.mem_of_mem_filter hd
      obtain ⟨k, hk⟩ := Py.Dict.get_of_mem_values hmem
      exact hD d (hm.storable k d hk)
    have hdecode : (rows.filterMap D.decode).Perm (y.2.list channelId) := by
      refine (hsel.filterMap _).trans ?_
      rw [List.filterMap_map]
      have heq : (y.2.list channelId).filterMap (D.decode ∘ rowValues D.enc) = (y.2.list channelId).filterMap some :=
        List.filterMap_congr fun d hd => hread d hd
      rw [heq, List.filterMap_some]
    have hmap : rows.mapM D.decode = some (rows.filterMap D.decode) := by
      refine mapM_decode fun row hrow => ?_
      obtain ⟨d, hd, rfl⟩ := List.mem_map.1 (hsel.mem_iff.1 hrow)
      rw [hread d hd]
      rfl
    refine ⟨_, y.2, .takes (.list hdecode) trivial, hm, fun _ _ h => h, congrArg some ?_⟩
    show .ok (rows.filterMap D.decode) = D.readAll rows
    simp only [DbStore.readAll, hmap]
  | clear =>
    intro y _ hm r t' hstep
    obtain ⟨order, -, hx⟩ := hstep
    obtain ⟨-, rfl⟩ := Prod.mk.inj (Option.some.inj hx)
    exact ⟨_, _, .takes (.call ⟨rfl, rfl⟩) trivial, encodes_empty, fun id hid _ => absurd (hc.2 id) hid, rfl⟩

/-! ## Every run -/

variable {α : Type} [DecidableEq ι]

/-- **The clients' run over the table is one of calls of the in-memory store**: of the same clients, which ended the same,
with the same rows once decoded. -/
def RefinesStore (D : DbStore π) (refuses : InMemoryJobStore → JobRecord → Except Exn Bool → Prop) (prog : ι → StoreProg α)
    (m : InMemoryJobStore) (c' : Conf ι (DbStmt π) DbStmt.Res Exn α (Table π)) : Prop :=
  ∃ c, Conf.Runs (memSem refuses) ⟨prog, m⟩ c ∧ (∀ id, (c'.state.get id).map D.decode = (c.state.get id).map some) ∧
    ∀ i o, (c'.prog i).finished = some o → (c.prog i).finished = some o

theorem refines_store (hD : D.Reads) {refuses : (String → Prop) → InMemoryJobStore → JobRecord → Except Exn Bool → Prop}
    (hP : D.PutsWith refuses) {many : Prop} {prog : ι → StoreProg α} (hp : ∀ i, (prog i).Only (StoreCall.Allowed D.toColumn deletable many))
    {m : InMemoryJobStore} {table : Table π} (hrows : Encodes D.toColumn m table)
    {c' : Conf ι (DbStmt π) DbStmt.Res Exn α (Table π)}
    (hrun : Conf.Runs DbStmt.sem ⟨fun i => (prog i).overTable D, table⟩ c') :
    RefinesStore D (refuses deletable) prog m c' := by
  have hstart : ∀ (i : ι) (c : StoreCall) (x : Table π × InMemoryJobStore), c.Allowed D.toColumn deletable many → Encodes D.toColumn x.2 x.1 →
      CallCarries D deletable (refuses deletable) i c (D.call c) none x := fun i c x hc _ => call_carries hD hP i c x hc
  have hfollows : Conc.Follows (memSem (refuses deletable)) DbStmt.sem (fun table m => Encodes D.toColumn m table)
      (KeepsOthers deletable) (fun _ _ => True) D.call (StoreCall.Allowed D.toColumn deletable many)
      ⟨fun i => (prog i).overTable D, table⟩ ⟨prog, m⟩ := ⟨hrows, fun i => .idle (hp i).under⟩
  obtain ⟨c, hc, hfollows⟩ := hfollows.run hstart hrun
  refine ⟨c, hc, fun id => ?_, fun i o hf => hfollows.finished hstart hf⟩
  have hrows := hfollows.states
  rw [hrows.rows]
  cases hd : c.state.get id with
  | none => rfl
  | some d =>
    rw [Option.map_some, Option.map_some, hD d (hrows.storable id d hd)]
    rfl

/-- **The database stores do what the in-memory store does, deletes included**: however the statements of any clients
interleave, they have done what calls of one step each lead to.  A put of a row that some client may delete can besides be
refused, and on MongoDB raise, without having written; a row that no client deletes is put as in memory.  On SQL the
clients may also list and clear. -/
theorem databases_refine_store (deletable : String → Prop) (prog : ι → StoreProg α) (m : InMemoryJobStore) :
    ((∀ i, (prog i).Only (StoreCall.Allowed SqlJobStore.column deletable True)) → ∀ table c', Encodes SqlJobStore.column m table →
      Conf.Runs DbStmt.sem ⟨fun i => (prog i).overTable SqlJobStore.backend, table⟩ c' →
      RefinesStore SqlJobStore.backend (SqlJobStore.Refuses deletable) prog m c') ∧
    ((∀ i, (prog i).Only (StoreCall.Allowed MongoJobStore.column deletable False)) → ∀ table c', Encodes MongoJobStore.column m table →
      Conf.Runs DbStmt.sem ⟨fun i => (prog i).overTable MongoJobStore.backend, table⟩ c' →
      RefinesStore MongoJobStore.backend (MongoJobStore.Refuses deletable) prog m c') := by
  constructor
  · intro hp table c' hrows hrun
    exact refines_store SqlJobStore.backend_reads SqlJobStore.puts_with hp hrows hrun
  · intro hp table c' hrows hrun
    exact refines_store MongoJobStore.backend_reads MongoJobStore.puts_with hp hrows hrun

end

/-! A put whose insert finds a newer row in its way, which another client then deletes. -/

def putRecord (version : Int) : JobRecord :=
  { id := "j", category := none, channelId := "default", status := Status.scheduled.value, created := "t0",
    updated := "t0", version := version }

def putAndDelete (i : Nat) : StoreProg (Option Bool) :=
  if i = 0 then (Prog.call (.put (putRecord 1))).bind fun r => (Prog.ofExcept r).bind fun b => .ret (some b)
  else (Prog.call (.delete "j")).bind fun _ => .ret none

theorem putRecord_storable {version : Int} (h : 1 ≤ version) : Storable SqlJobStore.column (putRecord version) :=
  ⟨h, .inl rfl, rfl, fun p hp => by cases hp⟩

/-- The put's insert finds the newer row; client 1 deletes it; the put then reads no row. -/
theorem putAndDelete_run : ∃ c' : Conf Nat (DbStmt String) DbStmt.Res Exn (Option Bool)
      (Table String × List (Conc.Ev Nat (DbStmt String) DbStmt.Res (Table String))),
    Conf.Runs (DbStmt.sem.logged fun _ _ => True) ⟨fun i => (putAndDelete i).overTable SqlJobStore.backend,
      Py.Dict.empty.set "j" (rowValues SqlJobStore.dumpsPayload (putRecord 2)), []⟩ c' ∧
    (c'.prog 0).finished = some (.ok (some false)) ∧ (c'.state.1.get "j").isNone :=
  Conf.exists_runs ([0, 0, 1, 0].map fun i => (i, id))
    (fun p hp _ _ l => by obtain ⟨i, -, rfl⟩ := List.mem_map.1 hp; exact .refl l) (by decide)

/-- The put is refused, and no row is left. -/
theorem databases_refine_store_refused : ∃ c' : Conf Nat (DbStmt String) DbStmt.Res Exn (Option Bool) (Table String),
    Conf.Runs DbStmt.sem ⟨fun i => (putAndDelete i).overTable SqlJobStore.backend,
      Py.Dict.empty.set "j" (rowValues SqlJobStore.dumpsPayload (putRecord 2))⟩ c' ∧
    (c'.prog 0).finished = some (.ok (some false)) ∧ c'.state.get "j" = none ∧
    RefinesStore SqlJobStore.backend (SqlJobStore.Refuses fun id => id = "j") putAndDelete
      (InMemoryJobStore.empty.setRow (putRecord 2)) c' := by
  obtain ⟨c', hrun, hfinished, hgone⟩ := putAndDelete_run
  have hrun := hrun.unlogged
  have hallowed : ∀ i, (putAndDelete i).Only (StoreCall.Allowed SqlJobStore.column (fun id => id = "j") True) := by
    intro i
    unfold putAndDelete
    split
    · exact ⟨putRecord_storable (by decide), fun r => by cases r <;> trivial⟩
    · exact ⟨rfl, fun _ => trivial⟩
  exact ⟨_, hrun, hfinished, Option.isNone_iff_eq_none.1 hgone, (databases_refine_store _ putAndDelete _).1 hallowed _ _
    (encodes_empty.set (putRecord_storable (by decide))) hrun⟩

end Pypepper
