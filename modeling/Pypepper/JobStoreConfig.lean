import Pypepper.Calls
import Pypepper.Job
import Pypepper.JsonText
/-!
# JobStoreConfig — a durable YAML and the installed job store

`common/config.py` and `scheduler/store/__init__.py`.  Loading a YAML does not install the store it declares: it notes a
durable backend as deferred, and `Job.save` and `Job.get_saved` refuse the in-memory store until a store is installed or
confirmed.  The note is one side of a pair kept in step by seven operations, some of which fail midway: a load that raises
after it took the YAML has not noted its backend (`malformed_load_disarms`), and only a load that raises leaves the note
behind (`durable_guarded_iff`).
-/
namespace Pypepper
namespace StoreConfig

/-- The values of a YAML file as `Box` holds them, with Python's operations on them; `text` is a value that is a text. -/
structure Yaml (V : Type) where
  getattr  : V → String → Option V
  isNone   : V → Bool
  truthy   : V → Bool
  hashable : V → Bool
  text     : V → Option String
  str      : V → String
  repr     : V → String
  reprText : String → String

inductive ConfigError where
  | value (msg : String)
  | type (msg : String)
  | attribute (name : String)
  | outside (msg : String)

/-- What a load and the store package call: the log, tracing, and the stores that are not in memory. -/
structure Services (V D : Type) where
  setLogLevel   : V → Except ConfigError Unit
  setColorize   : V → Except ConfigError Unit
  setupTracing  : V → Except ConfigError Unit
  sqlJobStore   : String → List (String × V) → Except ConfigError D
  mongoJobStore : List (String × V) → Except ConfigError D
  put           : D → JobRecord → Except ConfigError Bool × D
  get           : D → String → Except ConfigError (Option JobRecord) × D

inductive JobStore (D : Type) where
  | memory (s : InMemoryJobStore)
  | other (d : D)

namespace JobStore

variable {D : Type}

/-- `isinstance(store, InMemoryJobStore)`. -/
def inMemory : JobStore D → Bool
  | .memory _ => true
  | .other _  => false

def put {V : Type} (svc : Services V D) : JobStore D → JobRecord → Except ConfigError Bool × JobStore D
  | .memory s, r => (.ok (s.put r).1, .memory (s.put r).2)
  | .other d,  r => ((svc.put d r).1, .other (svc.put d r).2)

def get {V : Type} (svc : Services V D) : JobStore D → String → Except ConfigError (Option JobRecord) × JobStore D
  | .memory s, id => (.ok (s.get id), .memory s)
  | .other d,  id => ((svc.get d id).1, .other (svc.get d id).2)

@[simp] theorem inMemory_put {V : Type} (svc : Services V D) (s : JobStore D) (r : JobRecord) :
    (s.put svc r).2.inMemory = s.inMemory := by
  cases s <;> rfl

@[simp] theorem inMemory_get {V : Type} (svc : Services V D) (s : JobStore D) (id : String) :
    (s.get svc id).2.inMemory = s.inMemory := by
  cases s <;> rfl

end JobStore

/-- The configuration's YAML and its deferred backend, the installed store, and whether the mismatch was warned of. -/
structure World (V D : Type) where
  setting        : Option V := none
  deferred       : Option String := none
  jobStore       : JobStore D := .memory .empty
  mismatchWarned : Bool := false

/-! ## The declared backend -/

/-- The white space of `str.strip`. -/
def isWhitespace (c : Char) : Bool :=
  (9 ≤ c.toNat && c.toNat ≤ 13) || (28 ≤ c.toNat && c.toNat ≤ 32) || (0x2000 ≤ c.toNat && c.toNat ≤ 0x200a) ||
    [0x85, 0xa0, 0x1680, 0x2028, 0x2029, 0x202f, 0x205f, 0x3000].contains c.toNat

def strip (s : String) : String :=
  String.ofList ((s.toList.dropWhile isWhitespace).reverse.dropWhile isWhitespace).reverse

/-- `name.strip().lower() not in ("", "memory")`; of all letters only ASCII ones are lowered to a letter of "memory". -/
def durableName (name : String) : Bool :=
  !(["", "memory"].contains (String.ofList ((strip name).toList.map Char.toLower)))

section yaml

variable {V D : Type} (yaml : Yaml V)

/-- An attribute that is there and not null. -/
def Yaml.child (v : V) (name : String) : Option V := (yaml.getattr v name).filter fun u => !yaml.isNone u

def jobStoreSection (yml : Option V) : Option V :=
  (yml.bind fun v => yaml.child v "scheduler").bind fun v => yaml.child v "jobStore"

/-- The text of `scheduler.jobStore.backend`, when the YAML has one. -/
def backendText (yml : Option V) : Option String :=
  ((jobStoreSection yaml yml).bind fun v => yaml.child v "backend").map yaml.str

/-- The backend a YAML declares that is not in memory. -/
def durableBackend (yml : Option V) : Option String := (backendText yaml yml).filter durableName

/-- `_yaml_declared_job_store_backend`. -/
def yamlDeclaredJobStoreBackend (yml : Option V) : Option String :=
  ((backendText yaml yml).map strip).filter fun name => name ≠ ""

/-! ## Config -/

namespace World

def refreshSchedulerJobStoreDeferred (w : World V D) : World V D :=
  { w with deferred := durableBackend yaml w.setting }

def markSchedulerJobStoreApplied (w : World V D) : World V D := { w with deferred := none }

def ensureSchedulerJobStoreApplied (usingDefaultMemoryStore : Bool) (w : World V D) :
    Except ConfigError Unit × World V D :=
  match w.deferred with
  | none         => (.ok (), w)
  | some backend =>
    if usingDefaultMemoryStore then
      (.error (.value ("scheduler.jobStore.backend=" ++ yaml.reprText backend ++
        " is present in YAML but not applied by load_config; call " ++
        "pypepper.scheduler.store.setup_from_config(...) after load before persisting jobs")), w)
    else (.ok (), w.markSchedulerJobStoreApplied)

end World

/-- What a load does after it took the YAML: the log's level and colours, then tracing. -/
def applySections (svc : Services V D) (yml : V) : Except ConfigError Unit := do
  match yaml.getattr yml "log" with
  | none     => pure ()
  | some log =>
    match yaml.getattr log "level" with
    | none       => pure ()
    | some level =>
      svc.setLogLevel level
      match yaml.getattr log "colorize" with
      | none          => throw (.attribute "colorize")
      | some colorize => svc.setColorize colorize
  svc.setupTracing yml

namespace World

/-- `load_config`; `file` is what the file reads to, or why it is no mapping. -/
def loadConfig (svc : Services V D) (file : Except ConfigError V) (w : World V D) : Except ConfigError Unit × World V D :=
  match file with
  | .error e => (.error e, w)
  | .ok yml  =>
    match applySections yaml svc yml with
    | .error e => (.error e, { w with setting := some yml })
    | .ok ()   => (.ok (), { w with setting := some yml }.refreshSchedulerJobStoreDeferred yaml)

/-! ## The store package -/

def setJobStore (store : JobStore D) (w : World V D) : World V D :=
  { w with
    jobStore := store
    mismatchWarned := w.mismatchWarned ||
      (store.inMemory && (yamlDeclaredJobStoreBackend yaml w.setting).any durableName) }.markSchedulerJobStoreApplied

def resetJobStore (w : World V D) : World V D :=
  { w with jobStore := .memory .empty, mismatchWarned := false }.refreshSchedulerJobStoreDeferred yaml

end World

def buildJobStore (svc : Services V D) (backend : String) (kwargs : List (String × V)) :
    Except ConfigError (JobStore D) :=
  if backend = "memory" then .ok (.memory .empty)
  else if ["postgres", "mysql"].contains backend then (svc.sqlJobStore backend kwargs).map .other
  else if backend = "mongodb" then (svc.mongoJobStore kwargs).map .other
  else .error (.value ("unsupported job store backend: " ++ yaml.reprText backend))

def validBackends : List String := ["memory", "postgres", "mysql", "mongodb"]

/-- The backend `setup_from_config` takes from its section: "memory" for a false one. -/
def setupBackend (cfg : V) : Except ConfigError String :=
  match (yaml.getattr cfg "backend").filter yaml.truthy with
  | none   => .ok "memory"
  | some v =>
    if yaml.hashable v then
      match (yaml.text v).filter validBackends.contains with
      | none         => .error (.value ("unsupported job store backend: " ++ yaml.repr v))
      | some backend => .ok backend
    else .error (.type "unhashable type")

def setupKeys : List String :=
  ["uri", "host", "port", "username", "password", "db", "sslmode", "charset", "auth_source"]

def setupKwargs (cfg : V) : List (String × V) :=
  setupKeys.filterMap fun key => (yaml.child cfg key).map fun v => (key, v)

namespace World

variable (svc : Services V D)

def configureJobStore (backend : String) (kwargs : List (String × V)) (w : World V D) :
    Except ConfigError (JobStore D) × World V D :=
  match buildJobStore yaml svc backend kwargs with
  | .error e  => (.error e, w)
  | .ok store => (.ok store, w.setJobStore yaml store)

def setupFromConfig (yml : Option V) (w : World V D) : Except ConfigError Unit × World V D :=
  match jobStoreSection yaml yml with
  | none     => (.ok (), w)
  | some cfg =>
    match setupBackend yaml cfg with
    | .error e    => (.error e, w)
    | .ok backend =>
      if backend = "memory" ∧ w.jobStore.inMemory = true then (.ok (), w.markSchedulerJobStoreApplied)
      else
        let (answer, w') := w.configureJobStore yaml svc backend (setupKwargs yaml cfg)
        (answer.map fun _ => (), w')

/-! ## Job -/

/-- `Job.save` at the time `now`. -/
def save (job : Job) (now : String) (w : World V D) : Except ConfigError (Bool × Job) × World V D :=
  match w.ensureSchedulerJobStoreApplied yaml w.jobStore.inMemory with
  | (.error e, w) => (.error e, w)
  | (.ok (), w)   =>
    match w.jobStore.put svc (job.record now) with
    | (.error e, s)  => (.error e, { w with jobStore := s })
    | (.ok false, s) => (.ok (false, job), { w with jobStore := s })
    | (.ok true, s)  =>
      match s.get svc job.id with
      | (.error e, s)    => (.error e, { w with jobStore := s })
      | (.ok durable, s) =>
        (.ok (true, { job with version := durable.elim job.version JobRecord.version, updated := now }),
          { w with jobStore := s })

def getSaved (jobId : String) (w : World V D) : Except ConfigError (Option JobRecord) × World V D :=
  match w.ensureSchedulerJobStoreApplied yaml w.jobStore.inMemory with
  | (.error e, w) => (.error e, w)
  | (.ok (), w)   => ((w.jobStore.get svc jobId).1, { w with jobStore := (w.jobStore.get svc jobId).2 })

end World

/-! ## Runs -/

inductive Op (V D : Type) where
  | loadConfig (file : Except ConfigError V)
  | setJobStore (store : JobStore D)
  | configureJobStore (backend : String) (kwargs : List (String × V))
  | setupFromConfig (yml : Option V)
  | resetJobStore
  | save (job : Job) (now : String)
  | getSaved (jobId : String)

variable (svc : Services V D)

def World.step (w : World V D) : Op V D → World V D
  | .loadConfig file                  => (w.loadConfig yaml svc file).2
  | .setJobStore store                => w.setJobStore yaml store
  | .configureJobStore backend kwargs => (w.configureJobStore yaml svc backend kwargs).2
  | .setupFromConfig yml              => (w.setupFromConfig yaml svc yml).2
  | .resetJobStore                    => w.resetJobStore yaml
  | .save job now                     => (w.save yaml svc job now).2
  | .getSaved jobId                   => (w.getSaved yaml svc jobId).2

/-- The call installs an in-memory store, or confirms the installed one. -/
def Op.Confirms : Op V D → Prop
  | .setJobStore store            => store.inMemory = true
  | .configureJobStore backend _  => backend = "memory"
  | .setupFromConfig yml          => ∃ cfg, jobStoreSection yaml yml = some cfg ∧ setupBackend yaml cfg = .ok "memory"
  | _                             => False

/-- The call is `load_config` or `reset_job_store`. -/
def Op.Resets : Op V D → Prop
  | .loadConfig _  => True
  | .resetJobStore => True
  | _              => False

/-- An in-memory store was installed or confirmed after the last load or reset of the calls. -/
def Confirmed (ops : List (Op V D)) : Prop :=
  ∃ pre op post, ops = pre ++ op :: post ∧ op.Confirms yaml ∧ ∀ o ∈ post, ¬ o.Resets

/-- `Job.save` and `Job.get_saved` raise ValueError and touch nothing. -/
def World.Refuses (w : World V D) : Prop :=
  (∀ job now, ∃ msg, w.save yaml svc job now = (.error (.value msg), w)) ∧
    ∀ jobId, ∃ msg, w.getSaved yaml svc jobId = (.error (.value msg), w)

/-- A durable YAML over the in-memory store: it is refused, or was confirmed. -/
def World.Guarded (w : World V D) (confirmed : Prop) : Prop :=
  (durableBackend yaml w.setting).isSome → w.jobStore.inMemory = true → w.Refuses yaml svc ∨ confirmed

/-- The call is a load that raises and leaves a durable YAML held over an in-memory store with nothing deferred. -/
def Op.Disarms (w : World V D) : Op V D → Prop
  | .loadConfig file =>
    (∀ yml, file = .ok yml → ∃ e, applySections yaml svc yml = .error e) ∧
      (durableBackend yaml (file.toOption.or w.setting)).isSome ∧ w.jobStore.inMemory = true ∧ w.deferred = none
  | _ => False

/-! ## The guard -/

variable {yaml svc}

theorem confirmed_concat {ops : List (Op V D)} {op : Op V D} :
    Confirmed yaml (ops ++ [op]) ↔ op.Confirms yaml ∨ ¬ op.Resets ∧ Confirmed yaml ops := by
  constructor
  · intro ⟨pre, o, post, hops, ho, hpost⟩
    rcases List.eq_nil_or_concat post with rfl | ⟨post, q, rfl⟩
    · obtain ⟨-, hlast⟩ := List.append_inj' hops rfl
      cases hlast
      exact .inl ho
    · rw [List.concat_eq_append, ← List.cons_append, ← List.append_assoc] at hops
      obtain ⟨rfl, hlast⟩ := List.append_inj' hops rfl
      cases hlast
      have hq := hpost op (by simp)
      exact .inr ⟨hq, pre, o, post, rfl, ho, fun p hp => hpost p (by simp [hp])⟩
  · intro h
    rcases h with ho | ⟨hop, pre, o, post, rfl, ho, hpost⟩
    · exact ⟨ops, op, [], rfl, ho, by simp⟩
    · refine ⟨pre, o, post ++ [op], by simp, ho, ?_⟩
      intro p hp
      rcases List.mem_append.1 hp with hp | hp
      · exact hpost p hp
      · rw [List.mem_singleton.1 hp]
        exact hop

namespace World

variable {w : World V D} {confirmed : Prop}

/-- **The in-memory store is refused exactly while a backend is deferred.** -/
theorem refuses_iff (h : w.jobStore.inMemory = true) : w.Refuses yaml svc ↔ w.deferred.isSome = true := by
  constructor
  · intro hrefuses
    obtain ⟨msg, hget⟩ := hrefuses.2 ""
    cases hdeferred : w.deferred with
    | some backend => rfl
    | none =>
      cases hstore : w.jobStore with
      | other d  => rw [hstore] at h; cases h
      | memory s => simp [getSaved, ensureSchedulerJobStoreApplied, hdeferred, hstore, JobStore.get] at hget
  · intro hdeferred
    obtain ⟨backend, hb⟩ := Option.isSome_iff_exists.1 hdeferred
    unfold Refuses save getSaved ensureSchedulerJobStoreApplied
    rw [hb, h]
    exact ⟨fun _ _ => ⟨_, rfl⟩, fun _ => ⟨_, rfl⟩⟩

theorem guarded_iff : w.Guarded yaml svc confirmed ↔
    ((durableBackend yaml w.setting).isSome → w.jobStore.inMemory = true → w.deferred.isSome = true ∨ confirmed) := by
  unfold Guarded
  constructor
  · intro h hdurable hmemory
    rw [← refuses_iff hmemory]
    exact h hdurable hmemory
  · intro h hdurable hmemory
    rw [refuses_iff hmemory]
    exact h hdurable hmemory

theorem guarded_refresh : (w.refreshSchedulerJobStoreDeferred yaml).Guarded yaml svc confirmed :=
  guarded_iff.2 fun hdurable _ => .inl hdurable

theorem guarded_setJobStore {store : JobStore D} (h : store.inMemory = true → confirmed) :
    (w.setJobStore yaml store).Guarded yaml svc confirmed :=
  guarded_iff.2 fun _ hmemory => .inr (h hmemory)

/-- Nothing has changed but the store's content, and the note over a store that is not in memory. -/
structure SameSides (w w' : World V D) : Prop where
  setting  : w'.setting = w.setting
  inMemory : w'.jobStore.inMemory = w.jobStore.inMemory
  deferred : w.jobStore.inMemory = true → w'.deferred = w.deferred

theorem Guarded.same {w' : World V D} (h : w.Guarded yaml svc confirmed) (hs : SameSides w w') :
    w'.Guarded yaml svc confirmed := by
  rw [guarded_iff] at h ⊢
  intro hdurable hmemory
  rw [hs.setting] at hdurable
  rw [hs.inMemory] at hmemory
  rw [hs.deferred hmemory]
  exact h hdurable hmemory

theorem buildJobStore_memory {backend : String} {kwargs : List (String × V)} {store : JobStore D}
    (h : buildJobStore yaml svc backend kwargs = .ok store) : store.inMemory = true → backend = "memory" := by
  unfold buildJobStore at h
  intro hmemory
  split at h
  · assumption
  · exfalso
    cases store with
    | other d => cases hmemory
    | memory s =>
      split at h
      · cases hsql : svc.sqlJobStore backend kwargs <;> simp [hsql, Except.map] at h
      · split at h
        · cases hmongo : svc.mongoJobStore kwargs <;> simp [hmongo, Except.map] at h
        · cases h

theorem guarded_configureJobStore (h : w.Guarded yaml svc confirmed) (backend : String) (kwargs : List (String × V)) :
    (w.configureJobStore yaml svc backend kwargs).2.Guarded yaml svc (backend = "memory" ∨ confirmed) := by
  unfold configureJobStore
  cases hbuild : buildJobStore yaml svc backend kwargs with
  | ok store => exact guarded_setJobStore fun hmemory => .inl (buildJobStore_memory hbuild hmemory)
  | error e  =>
    rw [guarded_iff] at h ⊢
    intro hdurable hmemory
    exact (h hdurable hmemory).imp_right .inr

theorem Guarded.mono {p q : Prop} (h : w.Guarded yaml svc p) (hpq : p → q) : w.Guarded yaml svc q :=
  fun hdurable hmemory => (h hdurable hmemory).imp_right hpq

theorem guarded_setupFromConfig (h : w.Guarded yaml svc confirmed) (yml : Option V) :
    (w.setupFromConfig yaml svc yml).2.Guarded yaml svc
      ((Op.setupFromConfig yml : Op V D).Confirms yaml ∨ confirmed) := by
  unfold setupFromConfig
  cases hsection : jobStoreSection yaml yml with
  | none => exact h.mono .inr
  | some cfg =>
    dsimp only
    cases hsetup : setupBackend yaml cfg with
    | error e    => exact h.mono .inr
    | ok backend =>
      have hconfirms : backend = "memory" → (Op.setupFromConfig yml : Op V D).Confirms yaml := by
        rintro rfl
        exact ⟨cfg, hsection, hsetup⟩
      dsimp only
      by_cases hmemory : backend = "memory" ∧ w.jobStore.inMemory = true
      · rw [if_pos hmemory]
        exact guarded_iff.2 fun _ _ => .inr (.inl (hconfirms hmemory.1))
      · rw [if_neg hmemory]
        exact (guarded_configureJobStore h backend _).mono fun hc => hc.imp_left hconfirms

/-- `ensure` raises and changes nothing, or goes on, with the note as it was over an in-memory store. -/
theorem ensure_cases (yaml : Yaml V) (w : World V D) :
    (∃ e, w.ensureSchedulerJobStoreApplied yaml w.jobStore.inMemory = (.error e, w)) ∨
    (∃ deferred, w.ensureSchedulerJobStoreApplied yaml w.jobStore.inMemory = (.ok (), { w with deferred := deferred }) ∧
      (w.jobStore.inMemory = true → deferred = w.deferred)) := by
  unfold ensureSchedulerJobStoreApplied
  cases hdeferred : w.deferred with
  | none => exact .inr ⟨w.deferred, rfl, fun _ => hdeferred⟩
  | some backend =>
    by_cases hmemory : w.jobStore.inMemory = true
    · exact .inl ⟨_, if_pos hmemory⟩
    · exact .inr ⟨none, if_neg hmemory, fun h => absurd h hmemory⟩

theorem getSaved_same (w : World V D) (jobId : String) : SameSides w (w.getSaved yaml svc jobId).2 := by
  unfold getSaved
  rcases ensure_cases yaml w with ⟨e, hensure⟩ | ⟨deferred, hensure, hdeferred⟩
  · rw [hensure]
    exact ⟨rfl, rfl, fun _ => rfl⟩
  · rw [hensure]
    exact ⟨rfl, JobStore.inMemory_get svc _ _, hdeferred⟩

theorem save_same (w : World V D) (job : Job) (now : String) : SameSides w (w.save yaml svc job now).2 := by
  unfold save
  rcases ensure_cases yaml w with ⟨e, hensure⟩ | ⟨deferred, hensure, hdeferred⟩
  · rw [hensure]
    exact ⟨rfl, rfl, fun _ => rfl⟩
  · rw [hensure]
    have hput := JobStore.inMemory_put svc w.jobStore (job.record now)
    dsimp only
    split
    · rename_i heq
      rw [heq] at hput
      exact ⟨rfl, hput, hdeferred⟩
    · rename_i heq
      rw [heq] at hput
      exact ⟨rfl, hput, hdeferred⟩
    · rename_i s heq
      rw [heq] at hput
      have hget := JobStore.inMemory_get svc s job.id
      split
      · rename_i heq
        rw [heq] at hget
        exact ⟨rfl, hget.trans hput, hdeferred⟩
      · rename_i heq
        rw [heq] at hget
        exact ⟨rfl, hget.trans hput, hdeferred⟩

/-- Nothing confirmed, the guard is the note. -/
theorem guarded_unconfirmed : w.Guarded yaml svc False ↔
    ¬ ((durableBackend yaml w.setting).isSome ∧ w.jobStore.inMemory = true ∧ w.deferred = none) := by
  rw [guarded_iff]
  constructor
  · intro h ⟨hdurable, hmemory, hdeferred⟩
    rcases h hdurable hmemory with h | h
    · rw [hdeferred] at h
      cases h
    · exact h
  · intro h hdurable hmemory
    refine .inl (Option.isSome_iff_ne_none.2 fun hdeferred => ?_)
    exact h ⟨hdurable, hmemory, hdeferred⟩

/-- A load keeps the guard, with nothing confirmed, exactly when it does not disarm it. -/
theorem guarded_loadConfig (w : World V D) (file : Except ConfigError V) :
    (w.loadConfig yaml svc file).2.Guarded yaml svc False ↔ ¬ (Op.loadConfig file : Op V D).Disarms yaml svc w := by
  cases file with
  | error e =>
    rw [guarded_unconfirmed]
    refine not_congr ⟨fun h => ⟨fun yml hyml => ?_, h⟩, And.right⟩
    cases hyml
  | ok yml =>
    unfold loadConfig
    dsimp only
    cases happly : applySections yaml svc yml with
    | error e =>
      rw [guarded_unconfirmed]
      refine not_congr ⟨fun h => ⟨fun yml' hyml => ?_, h⟩, And.right⟩
      cases hyml
      exact ⟨e, happly⟩
    | ok u =>
      refine iff_of_true guarded_refresh ?_
      intro ⟨hraises, _⟩
      obtain ⟨e, he⟩ := hraises yml rfl
      rw [happly] at he
      cases he

/-- **What one call does to the guard.** -/
theorem guarded_step (h : w.Guarded yaml svc confirmed) (op : Op V D) :
    (w.step yaml svc op).Guarded yaml svc (op.Confirms yaml ∨ ¬ op.Resets ∧ confirmed) ↔ ¬ op.Disarms yaml svc w := by
  cases op with
  | loadConfig file =>
    have hnone : ((Op.loadConfig file : Op V D).Confirms yaml ∨
        ¬ (Op.loadConfig file : Op V D).Resets ∧ confirmed) ↔ False := by simp [Op.Confirms, Op.Resets]
    rw [hnone]
    exact guarded_loadConfig w file
  | resetJobStore => exact iff_of_true guarded_refresh id
  | setJobStore store => exact iff_of_true (guarded_setJobStore .inl) id
  | configureJobStore backend kwargs =>
    exact iff_of_true ((guarded_configureJobStore h backend kwargs).mono fun hc => hc.imp_right fun hc => ⟨id, hc⟩) id
  | setupFromConfig yml =>
    exact iff_of_true ((guarded_setupFromConfig h yml).mono fun hc => hc.imp_right fun hc => ⟨id, hc⟩) id
  | save job now => exact iff_of_true ((h.same (save_same w job now)).mono fun hc => .inr ⟨id, hc⟩) id
  | getSaved jobId => exact iff_of_true ((h.same (getSaved_same w jobId)).mono fun hc => .inr ⟨id, hc⟩) id

end World

variable (yaml svc)

/-- **A durable YAML is never silently served from memory**, in every state of a run, exactly when no load of the run
disarms the guard. -/
theorem durable_guarded_iff (ops : List (Op V D)) :
    (∀ pre post, ops = pre ++ post →
      (Calls.run (World.step yaml svc) {} pre).Guarded yaml svc (Confirmed yaml pre)) ↔
      Calls.Each (World.step yaml svc) {} (fun _ w op => ¬ op.Disarms yaml svc w) ops := by
  have hinit : ({} : World V D).Guarded yaml svc (Confirmed yaml ([] : List (Op V D))) := by
    intro hdurable
    cases hdurable
  refine (Calls.each_after (I := fun pre (w : World V D) => w.Guarded yaml svc (Confirmed yaml pre)) hinit).trans ?_
  refine Calls.each_iff (I := fun pre (w : World V D) => w.Guarded yaml svc (Confirmed yaml pre)) hinit ?_ ?_ ops
  · intro pre w op h
    rw [← World.guarded_step h op, confirmed_concat]
  · intro pre w op _ h
    exact h

end yaml

/-! ## A malformed section -/

/-- The YAML values that are JSON. -/
def jsonYaml : Yaml Py.Json where
  getattr
    | .obj ms, name => Py.Dict.lookup name ms
    | _,       _    => none
  isNone
    | .null => true
    | _     => false
  truthy := Py.Json.truthy
  hashable
    | .arr _ | .obj _ => false
    | _               => true
  text
    | .str s => some s
    | _      => none
  str
    | .str s => s
    | v      => v.dumps
  repr     := Py.Json.dumps
  reprText := fun s => (Py.Json.str s).dumps

/-- No database can be reached; the log and tracing take what they are given. -/
def noServices : Services Py.Json Empty where
  setLogLevel _     := .ok ()
  setColorize _     := .ok ()
  setupTracing _    := .ok ()
  sqlJobStore _ _   := .error (.outside "no database")
  mongoJobStore _   := .error (.outside "no database")
  put d _           := d.elim
  get d _           := d.elim

/-- A log level without `colorize`, and a durable job store. -/
def malformed : Py.Json :=
  .obj [ ("log", .obj [("level", .str "INFO")]),
         ("scheduler", .obj [("jobStore", .obj [("backend", .str "postgres")])]) ]

/-- The load raises at the log's colours, after it took the YAML: a save then goes to memory. -/
theorem malformed_load_disarms :
    ¬ ∀ pre post : List (Op Py.Json Empty), [Op.loadConfig (.ok malformed)] = pre ++ post →
      (Calls.run (World.step jsonYaml noServices) {} pre).Guarded jsonYaml noServices (Confirmed jsonYaml pre) := by
  intro h
  have hguarded := h [.loadConfig (.ok malformed)] [] rfl
  have hconfirmed : ¬ Confirmed jsonYaml [(.loadConfig (.ok malformed) : Op Py.Json Empty)] := by
    intro hc
    rw [← List.nil_append [_], confirmed_concat] at hc
    rcases hc with hc | ⟨hc, -⟩
    · exact hc
    · exact hc trivial
  refine (World.guarded_loadConfig {} (.ok malformed)).1 (hguarded.mono hconfirmed) ⟨?_, by decide +kernel, rfl, rfl⟩
  intro yml hyml
  cases hyml
  exact ⟨_, rfl⟩

end StoreConfig
end Pypepper
