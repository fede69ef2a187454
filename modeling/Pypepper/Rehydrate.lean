import Pypepper.StoreDb
/-!
# Rehydrate — a job rebuilt from its record

`Job.from_record` and `_workflows_from_payload`, the checks of `Task.__init__` and the executor registry.  A task decoded
from its own payload is the task again, with the defaults the decoder puts for values that are not true
(`taskFromSpec_payload`).
-/
namespace Pypepper

/-- What the rebuilding raises: a `ValueError`, a `KeyError`, or the language's error for a value of another type. -/
inductive PayloadError where
  | value (msg : Py.Str)
  | key (name : String)
  | type
  deriving DecidableEq

/-! ## The executor registry -/

/-- The registered executors; a factory stands for the executor it builds. -/
abbrev ExecutorRegistry := Py.Dict Py.Str Nat

def ExecutorRegistry.resolve (reg : ExecutorRegistry) (name : Py.Str) : Except PayloadError Nat :=
  if name = [] then .error (.value "invalid executor id")
  else match reg.get name with
    | none          => .error (.value (Py.Str.ofString "unknown executor_id: " ++ name))
    | some executor => .ok executor

/-! ## `Task.__init__` -/

/-- One check of the constructor. -/
def tooSmall (field : String) (least n : Int) : Option String :=
  if n < least then some (field ++ " must be >= " ++ toString least ++ ", got " ++ toString n) else none

/-- The first check that fails. -/
def Task.rejected (t : Task) : Option String :=
  (tooSmall "retry_until_max" 1 t.retryUntilMax).or <|
  (tooSmall "round_times" 1 t.roundTimes).or <|
  (tooSmall "round_timeout" 0 t.roundTimeout).or <|
  (tooSmall "round_timeout_join" 0 t.roundTimeoutJoin).or <|
  (tooSmall "retry_count" 0 t.retryCount).or
  (tooSmall "retry_delay" 0 t.retryDelay)

theorem tooSmall_eq_none {field : String} {least n : Int} : tooSmall field least n = none ↔ least ≤ n := by
  unfold tooSmall
  split
  · rename_i h
    simp
    omega
  · rename_i h
    simp
    omega

theorem Task.rejected_eq_none {t : Task} : t.rejected = none ↔
    1 ≤ t.retryUntilMax ∧ 1 ≤ t.roundTimes ∧ 0 ≤ t.roundTimeout ∧ 0 ≤ t.roundTimeoutJoin ∧ 0 ≤ t.retryCount ∧
      0 ≤ t.retryDelay := by
  simp only [Task.rejected, Option.or_eq_none_iff, tooSmall_eq_none]

/-- The constructor, with the id it draws. -/
def Task.init (uuid : Py.Str) (t : Task) : Except PayloadError Task :=
  match t.rejected with
  | some msg => .error (.value msg)
  | none     => .ok { t with id := uuid, cancelToken := false }

/-! ## The decoder -/

/-- The language's `str` and `int`, asked only of values that are no text and no integer. -/
structure Conversions where
  str : Py.Json Py.Str → Py.Str
  int : Py.Json Py.Str → Except PayloadError Int

section decoder

variable (py : Conversions) (reg : ExecutorRegistry)

def Conversions.strOf : Py.Json Py.Str → Py.Str
  | .str s => s
  | j      => py.str j

def Conversions.intOf : Py.Json Py.Str → Except PayloadError Int
  | .int n => .ok n
  | j      => py.int j

abbrev Members := List (String × Py.Json Py.Str)

/-- `spec.get(key)`. -/
def Members.get (ms : Members) (key : String) : Py.Json Py.Str := (Py.Dict.lookup key ms).getD .null

/-- `spec[key]`. -/
def Members.item (ms : Members) (key : String) : Except PayloadError (Py.Json Py.Str) :=
  match Py.Dict.lookup key ms with
  | none   => .error (.key key)
  | some j => .ok j

/-- The elements of `spec.get(key) or []`; what is true and no list is not iterable, or yields no dictionary. -/
def Members.elems (ms : Members) (key : String) : Except PayloadError (List (Py.Json Py.Str)) :=
  match (ms.get key).orElse (.arr []) with
  | .arr xs => .ok xs
  | _       => .error .type

def tagFromSpec : Py.Json Py.Str → Except PayloadError Tag
  | .obj ms => .ok
    { key   := py.strOf ((Py.Dict.lookup "key" ms).getD (.str [])),
      value := py.strOf ((Py.Dict.lookup "value" ms).getD (.str [])) }
  | _       => .error .type

/-- One task of the payload; `uuid` is the id the constructor draws. -/
def taskFromSpec (uuid : Py.Str) : Py.Json Py.Str → Except PayloadError Task
  | .obj spec => do
    let executorId := Members.get spec "executor_id"
    if !executorId.truthy then throw (.value "payload task missing executor_id")
    let tags ← (← Members.elems spec "tags").mapM (tagFromSpec py)
    let channelId ← Members.item spec "channel_id"
    let dagId ← Members.item spec "dag_id"
    let fingerprint ← Members.item spec "fingerprint"
    let name ← Members.item spec "name"
    let category ← Members.item spec "category"
    let executor ← reg.resolve (py.strOf executorId)
    let roundTimeout ← py.intOf ((Members.get spec "round_timeout").orElse (.int 0))
    let roundTimeoutJoin ← py.intOf ((Members.get spec "round_timeout_join").orElse (.int 0))
    let roundTimes ← py.intOf ((Members.get spec "round_times").orElse (.int 1))
    let version ← py.intOf ((Members.get spec "version").orElse (.int 1))
    let retryCount ← py.intOf ((Members.get spec "retry_count").orElse (.int 0))
    let retryDelay ← py.intOf ((Members.get spec "retry_delay").orElse (.int 0))
    let retryUntilMax ← py.intOf ((Members.get spec "retry_until_max").orElse (.int 1000))
    let task ← Task.init uuid
      { id := [], channelId := py.strOf channelId, dagId := py.strOf dagId, fingerprint := py.strOf fingerprint,
        name := py.strOf name, category := py.strOf category,
        description := py.strOf ((Members.get spec "description").orElse (.str [])), tags := tags, executor := executor,
        roundTimeout := roundTimeout, roundTimeoutJoin := roundTimeoutJoin, roundTimes := roundTimes, version := version,
        retryCount := retryCount, retryDelay := retryDelay,
        retryUntilCompleted := ((Members.get spec "retry_until_completed").orElse (.bool false)).truthy,
        retryUntilMax := retryUntilMax, optional := ((Members.get spec "optional").orElse (.bool false)).truthy,
        executorId := some (py.strOf executorId) }
    if (Members.get spec "id").truthy then return { task with id := py.strOf (Members.get spec "id") } else return task
  | _ => .error .type

/-- The tasks from the `k`-th on; each draws its own id. -/
def tasksFromSpecs (uuid : Nat → Py.Str) : Nat → List (Py.Json Py.Str) → Except PayloadError (List Task)
  | _, []      => .ok []
  | k, s :: ss => do
    let t ← taskFromSpec py reg (uuid k) s
    let ts ← tasksFromSpecs uuid (k + 1) ss
    return t :: ts

def workflowFromSpec (uuid : Nat → Py.Str) : Py.Json Py.Str → Except PayloadError Workflow
  | .obj ms => do
    let ts ← tasksFromSpecs py reg uuid 0 (← Members.elems ms "tasks")
    return ⟨ts⟩
  | _ => .error .type

def workflowsFromSpecs (uuid : Nat → Nat → Py.Str) : Nat → List (Py.Json Py.Str) → Except PayloadError (List Workflow)
  | _, []      => .ok []
  | i, s :: ss => do
    let w ← workflowFromSpec py reg (uuid i) s
    let ws ← workflowsFromSpecs uuid (i + 1) ss
    return w :: ws

/-- `_workflows_from_payload`. -/
def workflowsFromPayload (uuid : Nat → Nat → Py.Str) : Py.Json Py.Str → Except PayloadError (List Workflow)
  | .obj ms => do workflowsFromSpecs py reg uuid 0 (← Members.elems ms "workflows")
  | _       => .error .type

/-- `Job.from_record`; without a true payload the job has no workflows. -/
def Job.fromRecord (uuid : Nat → Nat → Py.Str) (ref : Nat) (r : JobRecord) : Except PayloadError Job :=
  match r.payload.filter Py.Json.truthy with
  | none   => .ok (.ofRecord ref r [])
  | some p => (workflowsFromPayload py reg uuid p).map (Job.ofRecord ref r)

/-! ## A task decoded from its payload -/

/-- The task with the decoder's defaults. -/
def Task.decoded (uuid : Py.Str) (executor : Nat) (t : Task) : Task :=
  { t with id := if t.id = [] then uuid else t.id, executor := executor,
           roundTimes := if t.roundTimes = 0 then 1 else t.roundTimes,
           version := if t.version = 0 then 1 else t.version,
           retryUntilMax := if t.retryUntilMax = 0 then 1000 else t.retryUntilMax, cancelToken := false }

theorem tagFromSpec_tags : ∀ tags : List Tag,
    (tags.map (fun g => Py.Json.obj [("key", .str g.key), ("value", .str g.value)])).mapM (tagFromSpec py) = .ok tags
  | [] => rfl
  | g :: tags => by
    rw [List.map_cons, List.mapM_cons, tagFromSpec_tags tags]
    rfl

variable {py reg}

theorem intOf_orElse (py : Conversions) (n d : Int) :
    py.intOf (Py.Json.orElse (.int n) (.int d)) = .ok (if n = 0 then d else n) := by
  by_cases h : n = 0
  · simp [Py.Json.orElse, Py.Json.truthy, h, Conversions.intOf]
  · simp [Py.Json.orElse, Py.Json.truthy, h, Conversions.intOf]

theorem ite_zero (n : Int) : (if n = 0 then 0 else n) = n := by
  split
  · rename_i h
    exact h.symm
  · rfl

theorem strOf_str (py : Conversions) (s : Py.Str) : py.strOf (.str s) = s := rfl

theorem strOf_orElse_empty (py : Conversions) (s : Py.Str) : py.strOf (Py.Json.orElse (.str s) (.str [])) = s := by
  by_cases h : s = []
  · simp [Py.Json.orElse, Py.Json.truthy, Py.Truth.truth, h, Conversions.strOf]
  · simp [Py.Json.orElse, Py.Json.truthy, Py.Truth.truth, h, Conversions.strOf]

theorem truthy_orElse_false (b : Bool) : (Py.Json.orElse (.bool b) (.bool false) : Py.Json Py.Str).truthy = b := by
  cases b <;> rfl

theorem elems_arr {ms : Members} {key : String} {xs : List (Py.Json Py.Str)} (h : ms.get key = .arr xs) :
    ms.elems key = .ok xs := by
  cases xs with
  | nil => simp [Members.elems, h, Py.Json.orElse, Py.Json.truthy]
  | cons x xs => simp [Members.elems, h, Py.Json.orElse, Py.Json.truthy]

/-- The members of a task's payload, as the encoder writes them. -/
def Task.members (t : Task) (e : Py.Str) : Members :=
  [ ("id", .str t.id), ("channel_id", .str t.channelId), ("dag_id", .str t.dagId),
    ("fingerprint", .str t.fingerprint), ("name", .str t.name), ("category", .str t.category),
    ("description", .str t.description),
    ("tags", .arr (t.tags.map (fun g => .obj [("key", .str g.key), ("value", .str g.value)]))),
    ("executor_id", .str e), ("round_timeout", .int t.roundTimeout),
    ("round_timeout_join", .int t.roundTimeoutJoin), ("round_times", .int t.roundTimes),
    ("version", .int t.version), ("retry_count", .int t.retryCount), ("retry_delay", .int t.retryDelay),
    ("retry_until_completed", .bool t.retryUntilCompleted), ("retry_until_max", .int t.retryUntilMax),
    ("optional", .bool t.optional) ]

theorem Task.payload_cases {t : Task} {p : Py.Json Py.Str} (h : t.payload = some p) :
    ∃ e, t.executorId = some e ∧ e ≠ [] ∧ p = .obj (t.members e) := by
  unfold Task.payload at h
  split at h
  · cases h
  · cases h
  · rename_i e hne he
    exact ⟨e, he, fun h => hne (by rw [h]), (Option.some.inj h).symm⟩

/-- **A task comes back from its payload with the decoder's defaults**, when its executor is registered and the constructor
accepts it. -/
theorem taskFromSpec_members {t : Task} {e : Py.Str} (hne : e ≠ []) (he : t.executorId = some e) (uuid : Py.Str) :
    taskFromSpec py reg uuid (.obj (t.members e)) = (do
      let x ← reg.resolve e
      match (t.decoded uuid x).rejected with
      | some msg => throw (.value msg)
      | none     => return t.decoded uuid x) := by
  have hexec : (t.members e).get "executor_id" = .str e := rfl
  have htrue : (Py.Json.str e).truthy = true := by simpa [Py.Json.truthy, Py.Truth.truth] using hne
  have htags : (t.members e).elems "tags" = .ok _ := elems_arr rfl
  have hchannel : (t.members e).item "channel_id" = .ok (.str t.channelId) := rfl
  have hdag : (t.members e).item "dag_id" = .ok (.str t.dagId) := rfl
  have hfinger : (t.members e).item "fingerprint" = .ok (.str t.fingerprint) := rfl
  have hname : (t.members e).item "name" = .ok (.str t.name) := rfl
  have hcat : (t.members e).item "category" = .ok (.str t.category) := rfl
  have hid : (t.members e).get "id" = .str t.id := rfl
  have hdesc : (t.members e).get "description" = .str t.description := rfl
  have htimeout : (t.members e).get "round_timeout" = .int t.roundTimeout := rfl
  have hjoin : (t.members e).get "round_timeout_join" = .int t.roundTimeoutJoin := rfl
  have htimes : (t.members e).get "round_times" = .int t.roundTimes := rfl
  have hversion : (t.members e).get "version" = .int t.version := rfl
  have hcount : (t.members e).get "retry_count" = .int t.retryCount := rfl
  have hdelay : (t.members e).get "retry_delay" = .int t.retryDelay := rfl
  have huntil : (t.members e).get "retry_until_completed" = .bool t.retryUntilCompleted := rfl
  have hmax : (t.members e).get "retry_until_max" = .int t.retryUntilMax := rfl
  have hopt : (t.members e).get "optional" = .bool t.optional := rfl
  have hbind : ∀ {α β : Type} (a : α) (f : α → Except PayloadError β), (Except.ok a >>= f) = f a := fun _ _ => rfl
  simp only [taskFromSpec, hexec, htrue, Bool.not_true, Bool.false_eq_true, if_false, htags, hchannel, hdag, hfinger,
    hname, hcat, hid, hdesc, htimeout, hjoin, htimes, hversion, hcount, hdelay, huntil, hmax, hopt, tagFromSpec_tags,
    intOf_orElse, ite_zero, strOf_orElse_empty, strOf_str, truthy_orElse_false, hbind]
  cases reg.resolve e with
  | error x => rfl
  | ok x =>
    -- the constructor checks the same numbers, whatever the id
    have hrejected : ∀ u : Task, u.rejected = (t.decoded uuid x).rejected →
        Task.init uuid u = match (t.decoded uuid x).rejected with
          | some msg => .error (.value msg)
          | none     => .ok { u with id := uuid, cancelToken := false } := fun u hu => by rw [Task.init, hu]
    simp only [hbind]
    rw [hrejected]
    · cases (t.decoded uuid x).rejected with
      | some msg => rfl
      | none =>
        by_cases hid : t.id = []
        · simp [Task.decoded, Py.Json.truthy, Py.Truth.truth, hid, he, hbind, pure, Except.pure]
        · simp [Task.decoded, Py.Json.truthy, Py.Truth.truth, hid, he, hbind, pure, Except.pure]
    · rfl

/-! ## Workflows decoded from their payload -/

/-- `u` is `t` decoded: with its registered executor and an id of its own where `t` has none. -/
def Task.DecodedTo (reg : ExecutorRegistry) (uuid : Nat → Py.Str) (t u : Task) : Prop :=
  ∃ k e x, t.executorId = some e ∧ reg.resolve e = .ok x ∧ u = t.decoded (uuid k) x

theorem taskFromSpec_ok {t u : Task} {p : Py.Json Py.Str} {uuid : Py.Str} (hp : t.payload = some p) :
    taskFromSpec py reg uuid p = .ok u ↔
      ∃ e x, t.executorId = some e ∧ reg.resolve e = .ok x ∧ (t.decoded uuid x).rejected = none ∧ u = t.decoded uuid x := by
  obtain ⟨e, he, hne, rfl⟩ := Task.payload_cases hp
  rw [taskFromSpec_members hne he]
  constructor
  · intro h
    cases hx : reg.resolve e with
    | error err =>
      rw [hx] at h
      cases h
    | ok x =>
      rw [hx] at h
      refine ⟨e, x, he, hx, ?_⟩
      cases hr : (t.decoded uuid x).rejected with
      | some msg =>
        simp only [bind, Except.bind, hr] at h
        cases h
      | none =>
        simp only [bind, Except.bind, hr] at h
        cases h
        exact ⟨rfl, rfl⟩
  · rintro ⟨e', x, he', hx, hr, rfl⟩
    obtain rfl := Option.some.inj (he.symm.trans he')
    simp only [hx, bind, Except.bind, hr]
    rfl

theorem bind_ok {α β : Type} {x : Except PayloadError α} {f : α → Except PayloadError β} {b : β} :
    (x >>= f) = .ok b ↔ ∃ a, x = .ok a ∧ f a = .ok b := by
  cases x with
  | error e => simp [bind, Except.bind]
  | ok a => simp [bind, Except.bind]

theorem mapM_cons_some {α β : Type} {f : α → Option β} {a : α} {l : List α} {bs : List β}
    (h : (a :: l).mapM f = some bs) : ∃ b bs', f a = some b ∧ l.mapM f = some bs' ∧ bs = b :: bs' := by
  simp only [List.mapM_cons, Option.bind_eq_bind, Option.bind_eq_some_iff, Option.pure_def, Option.some.injEq] at h
  obtain ⟨b, hb, bs', hbs, rfl⟩ := h
  exact ⟨b, bs', hb, hbs, rfl⟩

section
variable {uuid : Nat → Py.Str}

theorem tasksFromSpecs_decoded : ∀ {ts us : List Task} {ps : List (Py.Json Py.Str)} {k : Nat}, ts.mapM Task.payload = some ps →
    tasksFromSpecs py reg uuid k ps = .ok us → List.Forall₂ (Task.DecodedTo reg uuid) ts us
  | [], us, ps, k, hp, h => by
    obtain rfl := Option.some.inj hp
    cases h
    exact .nil
  | t :: ts, us, ps, k, hp, h => by
    obtain ⟨q, qs, hq, hqs, rfl⟩ := mapM_cons_some hp
    simp only [tasksFromSpecs, bind_ok] at h
    obtain ⟨u, hu, us', hus, h⟩ := h
    cases h
    obtain ⟨e, x, he, hx, -, rfl⟩ := (taskFromSpec_ok hq).1 hu
    exact .cons ⟨k, e, x, he, hx, rfl⟩ (tasksFromSpecs_decoded hqs hus)

theorem workflowFromSpec_decoded {w v : Workflow} {p : Py.Json Py.Str} (hp : w.payload = some p)
    (h : workflowFromSpec py reg uuid p = .ok v) : List.Forall₂ (Task.DecodedTo reg uuid) w.tasks v.tasks := by
  obtain ⟨ps, hps, rfl⟩ := Option.map_eq_some_iff.1 hp
  simp only [workflowFromSpec, bind_ok] at h
  obtain ⟨specs, hs, us, hus, h⟩ := h
  have helems : Members.elems [("tasks", .arr ps)] "tasks" = .ok ps := elems_arr rfl
  rw [helems] at hs
  cases hs
  cases h
  exact tasksFromSpecs_decoded hps hus

end

/-- `v` is `w` decoded. -/
def Workflow.DecodedTo (reg : ExecutorRegistry) (uuid : Nat → Nat → Py.Str) (w v : Workflow) : Prop :=
  ∃ i, List.Forall₂ (Task.DecodedTo reg (uuid i)) w.tasks v.tasks

variable {uuid : Nat → Nat → Py.Str}

theorem workflowsFromSpecs_decoded : ∀ {ws vs : List Workflow} {ps : List (Py.Json Py.Str)} {i : Nat},
    ws.mapM Workflow.payload = some ps → workflowsFromSpecs py reg uuid i ps = .ok vs →
    List.Forall₂ (Workflow.DecodedTo reg uuid) ws vs
  | [], vs, ps, i, hp, h => by
    obtain rfl := Option.some.inj hp
    cases h
    exact .nil
  | w :: ws, vs, ps, i, hp, h => by
    obtain ⟨q, qs, hq, hqs, rfl⟩ := mapM_cons_some hp
    simp only [workflowsFromSpecs, bind_ok] at h
    obtain ⟨v, hv, vs', hvs, h⟩ := h
    cases h
    exact .cons ⟨i, workflowFromSpec_decoded hq hv⟩ (workflowsFromSpecs_decoded hqs hvs)

/-- The payload is the list of the workflows' payloads. -/
theorem Job.workflowsPayload_cases {j : Job} {p : Py.Json Py.Str} (h : j.workflowsPayload = some p) :
    ∃ ps, j.workflows.mapM Workflow.payload = some ps ∧ p = .obj [("workflows", .arr ps)] := by
  unfold Job.workflowsPayload at h
  split at h
  · cases h
  · obtain ⟨ps, hps, rfl⟩ := Option.map_eq_some_iff.1 h
    exact ⟨ps, hps, rfl⟩

theorem workflowsFromPayload_arr (ps : List (Py.Json Py.Str)) :
    workflowsFromPayload py reg uuid (.obj [("workflows", .arr ps)]) = workflowsFromSpecs py reg uuid 0 ps := by
  have helems : Members.elems [("workflows", .arr ps)] "workflows" = .ok ps := elems_arr rfl
  simp only [workflowsFromPayload, helems]
  rfl

theorem Job.fromRecord_payload {r : JobRecord} {ref : Nat} {ps : List (Py.Json Py.Str)}
    (hr : r.payload = some (.obj [("workflows", .arr ps)])) :
    Job.fromRecord py reg uuid ref r = (workflowsFromSpecs py reg uuid 0 ps).map (Job.ofRecord ref r) := by
  have htrue : (some (Py.Json.obj [("workflows", .arr ps)])).filter Py.Json.truthy =
      some (.obj [("workflows", .arr ps)]) := rfl
  rw [fromRecord, hr, htrue, ← workflowsFromPayload_arr]

/-- **A job rebuilt from a record with a payload has the record's fields and the workflows decoded.** -/
theorem Job.fromRecord_decoded {j j' : Job} {r : JobRecord} {p : Py.Json Py.Str} {ref : Nat} (hp : j.workflowsPayload = some p)
    (hr : r.payload = some p) (h : Job.fromRecord py reg uuid ref r = .ok j') :
    ∃ vs, j' = Job.ofRecord ref r vs ∧ List.Forall₂ (Workflow.DecodedTo reg uuid) j.workflows vs := by
  obtain ⟨ps, hps, rfl⟩ := Job.workflowsPayload_cases hp
  rw [fromRecord_payload hr] at h
  cases hv : workflowsFromSpecs py reg uuid 0 ps with
  | error e =>
    rw [hv] at h
    cases h
  | ok vs =>
    rw [hv] at h
    cases h
    exact ⟨vs, rfl, workflowsFromSpecs_decoded hps hv⟩

end decoder

end Pypepper
