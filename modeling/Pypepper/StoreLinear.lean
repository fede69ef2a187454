import Pypepper.StoreDb
/-!
# StoreLinear — concurrent puts on a database are puts on the in-memory store

Any number of clients put records at the same time, their statements interleaved in any way.  A put takes effect at its
matched update, at its successful insert, or at its second update when that matches nothing: in the order of these points
the in-memory store answers every client the same, and the rows decode to its records.
-/
namespace Pypepper

open Conc (Prog Proto Sem Conf Ev Answered Linearizes replies settle calls Extends team team_guar team_stable)

variable {π : Type}

abbrev DbEv (π : Type) := Ev Nat (Stmt π) Stmt.Res (Table π)

abbrev DbState (π : Type) := Table π × List (DbEv π)

abbrev DbConf (π : Type) := Conf Nat (Stmt π) Stmt.Res Exn Bool (DbState π)

/-- Every statement is atomic on the latest rows. -/
def dbExec (_ : Unit) (_ : Nat) (a : Stmt π) (t : Table π) : Option (a.Res × Table π) := some (a.exec t)

def dbSem : Sem Nat (Stmt π) Stmt.Res (Table π) := Sem.ofExec dbExec (fun _ _ _ _ => True)

/-- The clients, each with its put, on a table. -/
def dbStart (put : JobRecord → DbProg π Bool) (recs : Nat → JobRecord) (t : Table π) : DbConf π where
  prog i := put (recs i)
  state  := (t, [])

def DbRuns : DbConf π → DbConf π → Prop := Conf.Runs (dbSem.logged (fun _ _ => True))

/-- What a client's put returned. -/
def DbConf.returned (c : DbConf π) (i : Nat) : Option Bool :=
  match (c.prog i).finished with
  | some (.ok b) => some b
  | _            => none

/-! ## The points -/

def Inserted (i : Nat) (log : List (DbEv π)) : Prop := ∃ e ∈ log, e.thread = i ∧ e.act.isInsert = true

instance (i : Nat) (log : List (DbEv π)) : Decidable (Inserted i log) :=
  inferInstanceAs (Decidable (∃ e ∈ log, e.thread = i ∧ e.act.isInsert = true))

/-- The statement at which its put takes effect. -/
def isPoint (before : List (DbEv π)) : DbEv π → Bool
  | ⟨_, .update _ _ _ _, true,  _, _⟩ => true
  | ⟨i, .update _ _ _ _, false, _, _⟩ => decide (Inserted i before)
  | ⟨_, .insert _,       b,     _, _⟩ => b
  | ⟨_, .findOne _,      _,     _, _⟩ => false

def pointsFrom (before : List (DbEv π)) : List (DbEv π) → List (DbEv π)
  | []       => []
  | e :: log => (if isPoint before e then [e] else []) ++ pointsFrom (before ++ [e]) log

def points (log : List (DbEv π)) : List (DbEv π) := pointsFrom [] log

theorem pointsFrom_append (e : DbEv π) : ∀ (log before : List (DbEv π)),
    pointsFrom before (log ++ [e]) = pointsFrom before log ++ (if isPoint (before ++ log) e then [e] else [])
  | [], before => by simp [pointsFrom]
  | x :: log, before => by
    rw [List.cons_append, pointsFrom, pointsFrom_append e log, pointsFrom, List.append_assoc, List.append_assoc]
    simp

theorem points_append (log : List (DbEv π)) (e : DbEv π) :
    points (log ++ [e]) = points log ++ (if isPoint log e then [e] else []) := pointsFrom_append e log []

theorem pointsFrom_sublist : ∀ (log before : List (DbEv π)), (pointsFrom before log).Sublist log
  | [], _ => .slnil
  | e :: log, before => by
    rw [pointsFrom]
    split
    · exact (pointsFrom_sublist log _).cons_cons e
    · exact (pointsFrom_sublist log _).cons e

/-! ## The protocol of a put -/

section
variable (col : Column π) (recs : Nat → JobRecord) (m₀ : InMemoryJobStore)

/-- The in-memory put as a call. -/
def memPut (r : JobRecord) (m : InMemoryJobStore) : Bool × InMemoryJobStore := m.put r

/-- The in-memory store after the puts that took effect. -/
def memStore (log : List (DbEv π)) : InMemoryJobStore := settle memPut m₀ (calls recs (points log))

structure Good (s : DbState π) : Prop where
  encodes : Encodes col (memStore recs m₀ s.2) s.1
  nodup   : ((points s.2).map Ev.thread).Nodup

/-- What a statement of any client does: the store follows, and no row goes away. -/
def Follows (log : List (DbEv π)) (e : DbEv π) : Prop :=
  Good col recs m₀ (e.post, log ++ [e]) ∧ ∀ id, (e.pre.get id).isSome → (e.post.get id).isSome

abbrev dbProto (i : Nat) : Proto (Stmt π) Stmt.Res (DbState π) :=
  team dbSem (fun _ _ => True) (Follows col recs m₀) i

/-- A put that has not taken effect. -/
structure Pending (i : Nat) (s : DbState π) : Prop extends Good col recs m₀ s where
  fresh : i ∉ (points s.2).map Ev.thread

structure Trying (i : Nat) (s : DbState π) : Prop extends Pending col recs m₀ i s where
  before : ¬ Inserted i s.2

/-- The insert found the key taken. -/
structure Duplicate (i : Nat) (s : DbState π) : Prop extends Pending col recs m₀ i s where
  tried : Inserted i s.2
  row   : (s.1.get (recs i).id).isSome

/-- The put took effect, and the in-memory store answered `b`. -/
structure Effected (i : Nat) (b : Bool) (s : DbState π) : Prop extends Good col recs m₀ s where
  answered : Answered memPut recs m₀ (points s.2) i b
  row      : b = false → (s.1.get (recs i).id).isSome

variable {col recs m₀} {i : Nat} {s s' : DbState π}

theorem inserted_append {log : List (DbEv π)} {e : DbEv π} :
    Inserted i (log ++ [e]) ↔ Inserted i log ∨ (e.thread = i ∧ e.act.isInsert = true) := by
  simp [Inserted, List.mem_append, or_and_right, exists_or]

/-- A statement of another client takes nothing from a pending put. -/
theorem fresh_append {e : DbEv π} (he : e.thread ≠ i) (h : i ∉ (points s.2).map Ev.thread) :
    i ∉ (points (s.2 ++ [e])).map Ev.thread := by
  rw [points_append, List.map_append, List.mem_append]
  rintro (hm | hm)
  · exact h hm
  · split at hm
    · rw [List.map_singleton, List.mem_singleton] at hm
      exact he hm.symm
    · simp at hm

theorem Extends.state {e : DbEv π} (hx : Extends s e s') : s' = (e.post, s.2 ++ [e]) :=
  Prod.ext hx.post.symm hx.log

theorem trying_stable : (dbProto col recs m₀ i).Stable (Trying col recs m₀ i) :=
  team_stable fun s e s' he hx _ hg h => by
    rw [Extends.state hx]
    refine ⟨⟨hg.1, fresh_append he h.fresh⟩, fun hi => ?_⟩
    rcases inserted_append.1 hi with hi | ⟨hi, -⟩
    · exact h.before hi
    · exact he hi

theorem duplicate_stable : (dbProto col recs m₀ i).Stable (Duplicate col recs m₀ i) :=
  team_stable fun s e s' he hx _ hg h => by
    have hrow := hg.2 (recs i).id
    rw [hx.pre] at hrow
    rw [Extends.state hx]
    exact ⟨⟨hg.1, fresh_append he h.fresh⟩, inserted_append.2 (.inl h.tried), hrow h.row⟩

theorem effected_stable (b : Bool) : (dbProto col recs m₀ i).Stable (Effected col recs m₀ i b) :=
  team_stable fun s e s' he hx _ hg h => by
    have hrow := hg.2 (recs i).id
    rw [hx.pre] at hrow
    rw [Extends.state hx]
    refine ⟨hg.1, ?_, fun hb => hrow (h.row hb)⟩
    rw [points_append]
    split
    · exact h.answered.append
    · rw [List.append_nil]
      exact h.answered

/-! ## One statement -/

/-- A statement that is no point leaves the in-memory store where it is. -/
theorem Good.skip {a : Stmt π} {r : a.Res} (h : Good col recs m₀ s) (hp : isPoint s.2 ⟨i, a, r, s.1, s.1⟩ = false) :
    Good col recs m₀ (s.1, s.2 ++ [⟨i, a, r, s.1, s.1⟩]) := by
  have hpoints : points (s.2 ++ [⟨i, a, r, s.1, s.1⟩]) = points s.2 := by
    rw [points_append, hp, if_neg (by simp), List.append_nil]
  constructor
  · rw [memStore, hpoints]
    exact h.encodes
  · rw [hpoints]
    exact h.nodup

/-- **At its point a put takes effect**, and is answered by the in-memory store. -/
theorem Pending.effect {a : Stmt π} {r : a.Res} {t : Table π} {b : Bool} (h : Pending col recs m₀ i s)
    (hp : isPoint s.2 ⟨i, a, r, s.1, t⟩ = true) (hb : ((memStore recs m₀ s.2).put (recs i)).1 = b)
    (ht : Encodes col ((memStore recs m₀ s.2).put (recs i)).2 t) (hrow : b = false → (t.get (recs i).id).isSome) :
    Effected col recs m₀ i b (t, s.2 ++ [⟨i, a, r, s.1, t⟩]) := by
  have hpoints : points (s.2 ++ [⟨i, a, r, s.1, t⟩]) = points s.2 ++ [⟨i, a, r, s.1, t⟩] := by
    rw [points_append, hp, if_pos rfl]
  refine ⟨⟨?_, ?_⟩, ?_, hrow⟩
  · rw [memStore, hpoints, Conc.calls_append, Conc.settle_append]
    exact ht
  · rw [hpoints, List.map_append, List.nodup_append]
    refine ⟨h.nodup, List.nodup_singleton _, fun j hj k hk => ?_⟩
    rw [List.mem_singleton.1 hk]
    rintro rfl
    exact h.fresh hj
  · rw [hpoints]
    exact Answered.new (e := ⟨i, a, r, s.1, t⟩) hb

/-- The protocol's step, unpacked. -/
theorem db_step {a : Stmt π} {r : a.Res} (h : (dbProto col recs m₀ i).step a s r s') :
    a.exec s.1 = (r, s'.1) ∧ s' = (s'.1, s.2 ++ [⟨i, a, r, s.1, s'.1⟩]) := by
  obtain ⟨⟨_, -, hx⟩, hlog, -⟩ := h
  exact ⟨Option.some.inj hx, Prod.ext rfl hlog⟩

theorem db_guar {a : Stmt π} {r : a.Res} (h : (dbProto col recs m₀ i).step a s r s') (hg : Good col recs m₀ s') :
    (dbProto col recs m₀ i).guar s s' := by
  refine team_guar h ⟨?_, fun id hid => ?_⟩
  · rw [(db_step h).2] at hg
    exact hg
  · have hx := exec_keeps_rows a s.1 id hid
    rw [(db_step h).1] at hx
    exact hx

/-- **The gated update and the insert**: the put takes effect, or its key is taken. -/
theorem upsert_wp {Q : Except Exn Bool → DbState π → Prop} {dup : DbProg π Bool} (hs : Trying col recs m₀ i s)
    (hr : Storable col (recs i)) (hQ : ∀ s, Effected col recs m₀ i true s → Q (.ok true) s)
    (hdup : ∀ s, Duplicate col recs m₀ i s → (dbProto col recs m₀ i).wp dup Q s) :
    (dbProto col recs m₀ i).wp (upsert col.enc (recs i) dup) Q s := by
  refine Proto.wp_call trying_stable hs fun s₁ b s₂ h hst => ?_
  obtain ⟨hx, hs₂⟩ := db_step hst
  cases b with
  | true =>
    obtain ⟨hb, ht⟩ := h.encodes.update_matched hr hx
    have he := h.toPending.effect (a := gatedUpdate col.enc (recs i)) (r := (true : Bool)) rfl hb ht (by simp)
    rw [← hs₂] at he
    exact ⟨db_guar hst he.toGood, hQ _ he⟩
  | false =>
    have heq := exec_update_missed hx
    rw [heq] at hs₂
    have hpoint : isPoint s₁.2 ⟨i, gatedUpdate col.enc (recs i), false, s₁.1, s₁.1⟩ = false := by
      simpa [isPoint] using h.before
    have hg := h.toGood.skip hpoint
    have htry : Trying col recs m₀ i s₂ := by
      rw [hs₂]
      refine ⟨⟨hg, ?_⟩, fun hi => ?_⟩
      · rw [points_append, hpoint, if_neg (by simp), List.append_nil]
        exact h.fresh
      · rcases inserted_append.1 hi with hi | ⟨-, hi⟩
        · exact h.before hi
        · cases hi
    refine ⟨db_guar hst htry.toGood, ?_⟩
    refine Proto.wp_call trying_stable htry fun s₃ b s₄ h hst => ?_
    obtain ⟨hx, hs₄⟩ := db_step hst
    cases b with
    | true =>
      obtain ⟨hb, ht⟩ := h.encodes.inserted hr hx
      have he := h.toPending.effect (a := .insert (rowValues col.enc (recs i))) (r := (true : Bool)) rfl hb ht (by simp)
      rw [← hs₄] at he
      exact ⟨db_guar hst he.toGood, hQ _ he⟩
    | false =>
      obtain ⟨heq, hrow⟩ := exec_insert_failed hx
      rw [heq] at hs₄
      have hg := h.toGood.skip (i := i) (a := .insert (rowValues col.enc (recs i))) (r := (false : Bool)) rfl
      have hd : Duplicate col recs m₀ i s₄ := by
        rw [hs₄]
        refine ⟨⟨hg, ?_⟩, inserted_append.2 (.inr ⟨rfl, rfl⟩), hrow⟩
        rw [points_append, isPoint, if_neg (by simp), List.append_nil]
        exact h.fresh
      exact ⟨db_guar hst hd.toGood, hdup _ hd⟩

/-- **The second update** is the point of a put whose key was taken, whether it matches or not. -/
theorem retry_wp {α : Type} {Q : Except Exn α → DbState π → Prop} {f : Bool → DbProg π α}
    (hs : Duplicate col recs m₀ i s) (hr : Storable col (recs i))
    (hQ : ∀ b s, Effected col recs m₀ i b s → (dbProto col recs m₀ i).wp (f b) Q s) :
    (dbProto col recs m₀ i).wp (updateIfAllowed col.enc (recs i) >>= f) Q s := by
  refine Proto.wp_call duplicate_stable hs fun s₁ b s₂ h hst => ?_
  obtain ⟨hx, hs₂⟩ := db_step hst
  have he : Effected col recs m₀ i b s₂ := by
    rw [hs₂]
    cases b with
    | true =>
      obtain ⟨hb, ht⟩ := h.encodes.update_matched hr hx
      exact h.toPending.effect (a := gatedUpdate col.enc (recs i)) (r := (true : Bool)) rfl hb ht (by simp)
    | false =>
      obtain ⟨heq, hp⟩ := h.encodes.update_missed h.row hx
      rw [heq]
      refine h.toPending.effect (a := gatedUpdate col.enc (recs i)) (r := (false : Bool)) (decide_eq_true h.tried) ?_ ?_
        (fun _ => h.row)
      · rw [hp]
      · rw [hp]
        exact h.encodes
  exact ⟨db_guar hst he.toGood, hQ b s₂ he⟩

variable (col recs m₀) in
/-- How a put ends: it returns what the in-memory store answered. -/
def PutEnds (i : Nat) (r : Except Exn Bool) (s : DbState π) : Prop := ∃ b, r = .ok b ∧ Effected col recs m₀ i b s

theorem putEnds_stable (r : Except Exn Bool) : (dbProto col recs m₀ i).Stable (PutEnds col recs m₀ i r) := by
  rintro s s' hrely ⟨b, hb, he⟩
  exact ⟨b, hb, effected_stable b s s' hrely he⟩

theorem SqlJobStore.put_wp {recs : Nat → JobRecord} {s : DbState String} (hs : Trying column recs m₀ i s)
    (hr : Storable column (recs i)) : (dbProto column recs m₀ i).wp (put (recs i)) (PutEnds column recs m₀ i) s := by
  rw [put_eq hr]
  refine upsert_wp hs hr (fun s he => ⟨true, rfl, he⟩) fun s hd => ?_
  exact retry_wp (f := Prog.ret) hd hr fun b s he => ⟨b, rfl, he⟩

/-- The document that stood in the way is still there. -/
theorem MongoJobStore.put_wp {recs : Nat → JobRecord} {s : DbState (Py.Json Py.Str)} (hs : Trying column recs m₀ i s)
    (hr : Storable column (recs i)) : (dbProto column recs m₀ i).wp (put (recs i)) (PutEnds column recs m₀ i) s := by
  refine upsert_wp hs hr (fun s he => ⟨true, rfl, he⟩) fun s hd => ?_
  refine retry_wp hd hr fun b s he => ?_
  cases b with
  | true => exact ⟨true, rfl, he⟩
  | false =>
    refine Proto.wp_call (effected_stable false) he fun s₁ doc s₂ h hst => ?_
    obtain ⟨hx, hs₂⟩ := db_step hst
    obtain ⟨rfl, ht⟩ := Prod.mk.inj hx
    rw [← ht] at hs₂
    have hg := h.toGood.skip (i := i) (a := .findOne (recs i).id) (r := s₁.1.get (recs i).id) rfl
    have he : Effected column recs m₀ i false s₂ := by
      rw [hs₂]
      refine ⟨hg, ?_, h.row⟩
      rw [points_append, isPoint, if_neg (by simp), List.append_nil]
      exact h.answered
    refine ⟨db_guar hst he.toGood, ?_⟩
    cases hdoc : s₁.1.get (recs i).id with
    | none =>
      have hrow := h.row rfl
      rw [hdoc] at hrow
      cases hrow
    | some d => exact ⟨false, rfl, he⟩

end

/-! ## Every run -/

/-- Every put that returned is linearized, none raised, and the rows decode to the in-memory store's records. -/
structure Refines (decode : DbRow π → Option JobRecord) (recs : Nat → JobRecord) (m₀ : InMemoryJobStore)
    (c : DbConf π) : Prop where
  linear  : ∃ points, Linearizes memPut recs m₀ c.state.2 points c.returned ∧
    ∀ id, (c.state.1.get id).map decode = ((settle memPut m₀ (calls recs points)).get id).map some
  raises  : ∀ i e, (c.prog i).finished ≠ some (.error e)

/-- **Puts that meet the protocol refine the in-memory store**, in every run. -/
theorem refines_of_wp {col : Column π} {decode : DbRow π → Option JobRecord}
    (hcodec : ∀ r, Storable col r → decode (rowValues col.enc r) = some r) {put : JobRecord → DbProg π Bool}
    {recs : Nat → JobRecord} {m₀ : InMemoryJobStore} {t₀ : Table π} (h₀ : Encodes col m₀ t₀)
    (hput : ∀ i s, Trying col recs m₀ i s → (dbProto col recs m₀ i).wp (put (recs i)) (PutEnds col recs m₀ i) s)
    {c : DbConf π} (hrun : DbRuns (dbStart put recs t₀) c) : Refines decode recs m₀ c := by
  have hgood : Good col recs m₀ (t₀, []) := ⟨h₀, List.nodup_nil⟩
  have hinit : ∀ i, (dbProto col recs m₀ i).wp ((dbStart put recs t₀).prog i) (PutEnds col recs m₀ i)
      (dbStart put recs t₀).state :=
    fun i => hput i _ ⟨⟨hgood, by simp [dbStart, points, pointsFrom]⟩, by simp [Inserted, dbStart]⟩
  have hheld := (Conf.Held.init hinit).runs Conc.team_compat hrun
  have hends : ∀ i r, (c.prog i).finished = some r → PutEnds col recs m₀ i r c.state :=
    fun i r hf => hheld.post hf (putEnds_stable r)
  have hgoodc : Good col recs m₀ c.state :=
    Conc.team_invariant hinit (fun s e s' hx _ hg _ => by rw [Extends.state hx]; exact hg.1) hgood hrun
  refine ⟨⟨points c.state.2, ⟨pointsFrom_sublist _ _, hgoodc.nodup, fun i b hb => ?_⟩, fun id => ?_⟩, fun i e hf => ?_⟩
  · unfold DbConf.returned at hb
    split at hb
    · rename_i b' hf
      obtain rfl := Option.some.inj hb
      obtain ⟨b', hr, he⟩ := hends i _ hf
      obtain rfl := Except.ok.inj hr
      exact he.answered
    · cases hb
  · rw [hgoodc.encodes.rows]
    show Option.map decode (Option.map (rowValues col.enc) ((memStore recs m₀ c.state.2).get id)) =
      ((memStore recs m₀ c.state.2).get id).map some
    cases hd : (memStore recs m₀ c.state.2).get id with
    | none => rfl
    | some d =>
      rw [Option.map_some, Option.map_some, hcodec d (hgoodc.encodes.storable id d hd)]
      rfl
  · obtain ⟨b, hr, -⟩ := hends i _ hf
    cases hr

/-- **Both database stores refine the in-memory store**: whatever the interleaving of the statements, each put that
returned has a point among its own statements, the in-memory puts in the order of the points answer the same, the rows
decode to their records, and no put raises. -/
theorem db_stores_refine_memory (recs : Nat → JobRecord) (m₀ : InMemoryJobStore) :
    ((∀ i, Storable SqlJobStore.column (recs i)) → ∀ t₀ c, Encodes SqlJobStore.column m₀ t₀ →
      DbRuns (dbStart SqlJobStore.put recs t₀) c → Refines SqlJobStore.rowToRecord recs m₀ c) ∧
    ((∀ i, Storable MongoJobStore.column (recs i)) → ∀ t₀ c, Encodes MongoJobStore.column m₀ t₀ →
      DbRuns (dbStart MongoJobStore.put recs t₀) c →
      Refines (fun doc => some (MongoJobStore.docToRecord doc)) recs m₀ c) := by
  constructor
  · intro hrecs t₀ c h₀ hrun
    exact refines_of_wp (fun r hr => SqlJobStore.rowToRecord_rowValues hr) h₀
      (fun i s hs => SqlJobStore.put_wp hs (hrecs i)) hrun
  · intro hrecs t₀ c h₀ hrun
    exact refines_of_wp (fun r hr => congrArg some (MongoJobStore.docToRecord_rowValues hr)) h₀
      (fun i s hs => MongoJobStore.put_wp hs (hrecs i)) hrun

/-- A Scheduled record and an InProgress one of the same job. -/
def rivals (i : Nat) : JobRecord where
  id        := "j"
  category  := none
  channelId := "default"
  status    := if i = 0 then Status.scheduled.value else Status.inProgress.value
  created   := "t0"
  updated   := "t0"

/-- Two first puts race: the second client's insert finds the first one's row, and its second update replaces it. -/
theorem db_stores_refine_memory_run :
    (∀ i, Storable SqlJobStore.column (rivals i)) ∧ Encodes SqlJobStore.column InMemoryJobStore.empty Py.Dict.empty ∧
    ∃ c, DbRuns (dbStart SqlJobStore.put rivals Py.Dict.empty) c ∧
      (DbConf.returned c 0 = some true ∧ DbConf.returned c 1 = some true ∧
        (c.state.1.get "j").map DbRow.version = some 2) ∧
      Refines SqlJobStore.rowToRecord rivals InMemoryJobStore.empty c := by
  have hrecs : ∀ i, Storable SqlJobStore.column (rivals i) := fun i => ⟨Int.le_refl 1, .inl rfl, rfl, fun p hp => by cases hp⟩
  have h₀ : Encodes SqlJobStore.column InMemoryJobStore.empty Py.Dict.empty :=
    ⟨fun _ => rfl, fun _ _ h => by cases h⟩
  have hrun : ∃ c, DbRuns (dbStart SqlJobStore.put rivals Py.Dict.empty) c ∧
      (DbConf.returned c 0 = some true ∧ DbConf.returned c 1 = some true ∧
        (c.state.1.get "j").map DbRow.version = some 2) :=
    Conf.exists_runs [(0, ()), (1, ()), (0, ()), (1, ()), (1, ())] (fun _ _ _ _ => trivial) (by decide)
  obtain ⟨c, hc, hres⟩ := hrun
  exact ⟨hrecs, h₀, c, hc, hres, (db_stores_refine_memory rivals InMemoryJobStore.empty).1 hrecs _ c h₀ hc⟩

/-! A task named by a pair of surrogates, of which the text column gives back another name, and one whose retry delay is too
long to be written. -/

def surrogateTask : Task :=
  { id := "t", channelId := "c", dagId := "d", fingerprint := "f", name := [0xd83d, 0xde00], category := "c",
    description := "", tags := [], executor := some 0, executorId := some "e" }

def surrogateJob : Job := { ref := 0, id := "j", workflows := [⟨[surrogateTask]⟩] }

def delayedJob (delay : Nat) : Job :=
  { surrogateJob with workflows := [⟨[{ surrogateTask with retryDelay := delay }]⟩] }

def longJob : Job := delayedJob (10 ^ Py.Json.maxStrDigits)

/-- Puts of one record leave its payload in every row. -/
theorem settle_payload {r : JobRecord} : ∀ (l : List JobRecord) (m : InMemoryJobStore), (∀ a ∈ l, a = r) →
    (∀ id d, m.get id = some d → d.payload = r.payload) →
    ∀ id d, (settle memPut m l).get id = some d → d.payload = r.payload
  | [], _, _, hm => hm
  | a :: l, m, ha, hm => by
    obtain rfl := ha a List.mem_cons_self
    refine settle_payload l (m.put a).2 (fun b hb => ha b (List.mem_cons_of_mem a hb)) fun id d hd => ?_
    obtain ⟨-, hp⟩ | ⟨e, -, -, hp⟩ | ⟨e, -, -, hp⟩ := InMemoryJobStore.put_cases m a
    · rw [hp, InMemoryJobStore.get_setRow] at hd
      split at hd
      · rw [← Option.some.inj hd]
      · exact hm id d hd
    · rw [hp, InMemoryJobStore.get_setRow] at hd
      split at hd
      · rw [← Option.some.inj hd]
        rfl
      · exact hm id d hd
    · rw [hp] at hd
      exact hm id d hd

/-- A payload with an integer too long to be written makes the put raise. -/
theorem delayedJob_raises {delay : Nat} (h : 10 ^ Py.Json.maxStrDigits ≤ delay) :
    ∃ msg, (SqlJobStore.put (delayedJob delay).toRecord).finished = some (.error (.value msg)) := by
  have hpayload : ∃ p, (delayedJob delay).toRecord.payload = some p ∧ (delay : Int) ∈ p.ints :=
    ⟨_, rfl, by simp [Py.Json.ints, Py.Json.collect, Py.Json.collectElems, Py.Json.collectMembers]⟩
  obtain ⟨p, hp, hmem⟩ := hpayload
  have hlong : SqlJobStore.dumpable (delayedJob delay).toRecord.payload = false := by
    rw [hp]
    refine Bool.eq_false_iff.2 fun hd => ?_
    have hlt := Py.Json.short_iff.1 hd delay hmem
    rw [Int.natAbs_natCast] at hlt
    exact absurd h (Nat.not_le.2 hlt)
  rw [SqlJobStore.put, hlong]
  exact ⟨_, rfl⟩

/-- **The SQL store does not keep every payload a job builds**: of one the put is applied, and no order of puts leaves the
in-memory store with the record that the row decodes to; of the other it raises. -/
theorem sql_payloads_leave_memory : 1 ≤ surrogateJob.toRecord.version ∧ Job.IsPayload surrogateJob.toRecord.payload ∧
    (∃ c, DbRuns (dbStart SqlJobStore.put (fun _ => surrogateJob.toRecord) Py.Dict.empty) c ∧
      DbConf.returned c 0 = some true ∧
      ¬ Refines SqlJobStore.rowToRecord (fun _ => surrogateJob.toRecord) InMemoryJobStore.empty c) ∧
    1 ≤ longJob.toRecord.version ∧ Job.IsPayload longJob.toRecord.payload ∧
    ∃ msg, (SqlJobStore.put longJob.toRecord).finished = some (.error (.value msg)) := by
  refine ⟨Int.le_refl 1, .inr ⟨surrogateJob, rfl⟩, ?_, Int.le_refl 1, .inr ⟨longJob, rfl⟩, delayedJob_raises (Nat.le_refl _)⟩
  have hrun : ∃ c, DbRuns (dbStart SqlJobStore.put (fun _ => surrogateJob.toRecord) Py.Dict.empty) c ∧
      (DbConf.returned c 0 = some true ∧
        (c.state.1.get "j").map DbRow.payload = some (SqlJobStore.dumpsPayload surrogateJob.toRecord.payload)) :=
    Conf.exists_runs [(0, ()), (0, ())] (fun _ _ _ _ => trivial) (by decide +kernel)
  obtain ⟨c, hc, hreturned, hrow⟩ := hrun
  refine ⟨c, hc, hreturned, fun href => ?_⟩
  obtain ⟨points, -, hrows⟩ := href.linear
  obtain ⟨row, hget, hpayload⟩ := Option.map_eq_some_iff.1 hrow
  have hdecoded := hrows "j"
  rw [hget, Option.map_some] at hdecoded
  obtain ⟨d, hd, hsome⟩ := Option.map_eq_some_iff.1 hdecoded.symm
  have hkept := settle_payload (r := surrogateJob.toRecord) (calls (fun _ => surrogateJob.toRecord) points) .empty
    (fun a ha => (List.mem_map.1 ha).elim fun _ h => h.2.symm) (fun _ _ h => by cases h) "j" d hd
  -- the row's text is that of the payload, which is read back with the pair joined
  have hbuilt : Job.IsPayload surrogateJob.toRecord.payload := .inr ⟨surrogateJob, rfl⟩
  have hback := SqlJobStore.loadsPayload_back hbuilt
  rw [← hpayload] at hback
  simp only [SqlJobStore.rowToRecord, hback, Option.map_some] at hsome
  have hsame := congrArg JobRecord.payload (Option.some.inj hsome)
  rw [hkept] at hsame
  have hjoinless := Py.Json.readBack_eq_iff.1 (Option.some.inj hsame.symm) [0xd83d, 0xde00] (by decide)
  exact absurd hjoinless (by decide)

end Pypepper
