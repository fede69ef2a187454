import Mathlib.Data.List.Induction
import Pypepper.Job
import Pypepper.ProgPar
/-!
# SoftTimeout — executes through the timeout pool

`Workflow.run` with round timeouts: any number of threads share one pool and one table of the futures in flight, and
interleave at their calls.  `_execute_once` checks the table, submits its work and stores the future in three steps, and
removes an entry by its task id at three exits.

Between its check and its store an attempt is opening (`opening`).  While no other attempt passes the check for its id then,
and no exit removes another attempt's unfinished future, an unfinished future of an id is its entry in the table or its
opening attempt's (`Inv`), so one execute of it runs at most (`one_execute_per_id`).
-/
namespace Pypepper

namespace Workflow

def attemptsPerRound (t : Task) : Nat :=
  if t.retryUntilCompleted && decide (t.retryCount = 0) then max 1 t.retryUntilMax.toNat
  else max 1 (t.retryCount + 1).toNat

def rounds (t : Task) : Nat := max 1 (if t.roundTimes = 0 then 1 else t.roundTimes).toNat

theorem attemptsPerRound_pos (t : Task) : 0 < attemptsPerRound t := by
  unfold attemptsPerRound
  split <;> omega

theorem rounds_pos (t : Task) : 0 < rounds t := by
  unfold rounds
  omega

end Workflow

namespace SoftTimeout

open Conc (Prog Proto Sem Conf Ev Admits Extends team team_guar team_stable team_invariant)

/-! ## Futures -/

/-- What the code asks of an exception besides its class: its truth value, which `bool` may raise instead, and whether `str`
makes a text of it. -/
structure Traits where
  truth : Option Bool := some true
  shown : Bool := true
  deriving DecidableEq

/-- What an execute or a wait raises: a `TimeoutError`, a future's `CancelledError`, the `OverflowError` of a wait or a sleep
beyond the platform's limit, what `str` or `bool` of an exception raised, or another exception. -/
inductive Failure where
  | timeout (msg : Py.Str) (traits : Traits := {})
  | cancelled
  | overflow
  | broken
  | raised (msg : Py.Str) (traits : Traits := {})
  deriving DecidableEq

def Failure.traits : Failure → Traits
  | .timeout _ traits => traits
  | .raised _ traits  => traits
  | _                 => {}

/-- `threading.TIMEOUT_MAX`, in seconds: no timed wait and no sleep is longer. -/
def timeoutMax : Int := 9223372036

/-- What an execute returns: an object, or None. -/
abbrev Value := Option Nat

/-- What an execute answers. -/
abbrev Answer := Except Failure Value

inductive Phase where
  | queued
  | running
  | finished (r : Answer)
  | cancelled

/-- Not `done()`. -/
def Phase.live : Phase → Bool
  | .queued | .running => true
  | _                  => false

def Phase.isRunning : Phase → Bool
  | .running => true
  | _        => false

structure Future where
  task  : Task
  phase : Phase

/-- The futures of the pool, in the order of their submits, and `_inflight`. -/
structure Shared where
  futures  : List Future
  inflight : Py.Dict Py.Str Nat

namespace Shared

def phase (s : Shared) (f : Nat) : Option Phase := s.futures[f]?.map Future.phase

/-- The task id of a future that is not done. -/
def live (s : Shared) (f : Nat) : Option Py.Str :=
  s.futures[f]?.bind fun x => if x.phase.live then some x.task.id else none

def done (s : Shared) (f : Nat) : Bool := (s.live f).isNone

def setPhase (s : Shared) (f : Nat) (p : Phase) : Shared :=
  { s with futures := s.futures.modify f fun x => { x with phase := p } }

/-- The executes of a task id that are running. -/
def running (s : Shared) (id : Py.Str) : List Future :=
  s.futures.filter fun x => x.task.id = id && x.phase.isRunning

/-- The check: whether an unfinished future is in flight; a finished one is taken out. -/
def check (s : Shared) (taskId : Py.Str) : Bool × Shared :=
  match s.inflight.get taskId with
  | none   => (false, s)
  | some f => if s.done f then (false, { s with inflight := s.inflight.pop taskId }) else (true, s)

def submit (s : Shared) (t : Task) : Nat × Shared :=
  (s.futures.length, { s with futures := s.futures ++ [⟨t, .queued⟩] })

/-- `future.result` of a future that is not done: a wait without a timeout has no answer, one beyond the platform's limit is
refused at once, and another may run out. -/
def waited : Option Int → Option Answer
  | none         => none
  | some seconds => some (.error (if timeoutMax < seconds then .overflow else .timeout ""))

/-- `future.result`. -/
def result (s : Shared) (f : Nat) (timeout : Option Int) : Option Answer :=
  match s.phase f with
  | some (.finished r) => some r
  | some .cancelled    => some (.error .cancelled)
  | _                  => waited timeout

def cancel (s : Shared) (f : Nat) : Bool × Shared :=
  match s.phase f with
  | some .queued    => (true, s.setPhase f .cancelled)
  | some .cancelled => (true, s)
  | _               => (false, s)

end Shared

/-- What is not the program's to choose: what an execute answers, and which future the pool starts or finishes. -/
inductive Choice where
  | go
  | answer (r : Answer)
  | start (future : Nat)
  | finish (future : Nat) (r : Answer)

def Choice.answered : Choice → Option Answer
  | .answer r => some r
  | _         => none

/-- A step of the pool: any queued future may be started. -/
def Shared.work (s : Shared) : Choice → Option Shared
  | .start f    =>
    match s.phase f with
    | some .queued => some (s.setPhase f .running)
    | _            => none
  | .finish f r =>
    match s.phase f with
    | some .running => some (s.setPhase f (.finished r))
    | _             => none
  | _           => none

/-! ## Calls -/

/-- The steps of a run, each under its lock or of one future; `work` is a step of the pool. -/
inductive Call where
  | execute (t : Task)
  | check (taskId : Py.Str)
  | submit (t : Task)
  | store (taskId : Py.Str) (future : Nat)
  | result (future : Nat) (timeout : Option Int)
  | done (future : Nat)
  | cancel (future : Nat)
  | remove (taskId : Py.Str)
  | sleep (seconds : Int)
  | work

namespace Call

@[reducible] def Res : Call → Type
  | .execute _  => Answer
  | .check _    => Bool
  | .submit _   => Nat
  | .store _ _  => Unit
  | .result _ _ => Answer
  | .done _     => Bool
  | .cancel _   => Bool
  | .remove _   => Unit
  | .sleep _    => Unit
  | .work       => Unit

/-- One step; no answer where it waits. -/
def exec (c : Choice) : (a : Call) → Shared → Option (a.Res × Shared)
  | .execute _,        s => c.answered.map fun r => (r, s)
  | .check taskId,     s => some (s.check taskId)
  | .submit t,         s => some (s.submit t)
  | .store taskId f,   s => some ((), { s with inflight := s.inflight.set taskId f })
  | .result f timeout, s => (s.result f timeout).map fun r => (r, s)
  | .done f,           s => some (s.done f, s)
  | .cancel f,         s => some (s.cancel f)
  | .remove taskId,    s => some ((), { s with inflight := s.inflight.pop taskId })
  | .sleep _,          s => some ((), s)
  | .work,             s => (s.work c).map fun s' => ((), s')

end Call

/-- A call and its answer. -/
abbrev Step := Sigma Call.Res

/-! ## Programs -/

abbrev TaskProg (α : Type) := Prog Call Call.Res Failure α

def do_ (a : Call) : TaskProg a.Res := Prog.call a

def named (t : Task) : Py.Str := Py.Str.ofString "id=" ++ t.id ++ Py.Str.ofString ", name=" ++ t.name

def stillRunning (t : Task) : Failure :=
  .timeout (Py.Str.ofString ("Task execute exceeded round_timeout=" ++ toString t.roundTimeout ++
    "s (execute still running): ") ++ named t)

/-- The log line of an exception, which shows its text. -/
def logged (e : Failure) : TaskProg Unit := if e.traits.shown then return () else Prog.raise .broken

/-- Join the future: with a bound, or for as long as it takes. -/
def join (t : Task) (future : Nat) : TaskProg Value := do
  match ← do_ (.result future (if 0 < t.roundTimeoutJoin then some t.roundTimeoutJoin else none)) with
  | .ok _                 => Prog.raise (stillRunning t)
  | .error (.timeout _ _) => Prog.raise (stillRunning t)
  | .error e              => do
    logged e
    Prog.raise (stillRunning t)

/-- Wait for the future: at the timeout, its result after all, or cancel it while it is queued, or join it. -/
def wait (t : Task) (future : Nat) : TaskProg Value := do
  match ← do_ (.result future (some t.roundTimeout)) with
  | .ok v                 => return v
  | .error (.timeout _ _) => do
    if ← do_ (.done future) then (do_ (.result future none)).bind Prog.ofExcept
    else if ← do_ (.cancel future) then do
      do_ (.remove t.id)
      Prog.raise (.timeout (Py.Str.ofString ("Task execute timed out before start (round_timeout=" ++
        toString t.roundTimeout ++ "s, still queued): ") ++ named t))
    else if ← do_ (.done future) then (do_ (.result future none)).bind Prog.ofExcept
    else join t future
  | .error e              => Prog.raise e

/-- `_execute_once`. -/
def executeOnce (t : Task) : TaskProg Value :=
  if t.executor = none then return none
  else if t.roundTimeout ≤ 0 then (do_ (.execute t)).bind Prog.ofExcept
  else do
    if ← do_ (.check t.id) then
      Prog.raise (.timeout (Py.Str.ofString "Task execute still running from a previous attempt: " ++ named t))
    else do
      let future ← do_ (.submit t)
      do_ (.store t.id future)
      let answer ← (wait t future).attempt
      if ← do_ (.done future) then do_ (.remove t.id)
      Prog.ofExcept answer

section
variable {q : Call → Prop} {t : Task}

theorem logged_only (e : Failure) : (logged e).Only q := .ite (.ret ()) (.raise _)

/-- The calls of a join. -/
theorem join_only {future : Nat} (hresult : ∀ timeout, q (.result future timeout)) : (join t future).Only q := by
  refine .bind (.call (hresult _)) fun r => ?_
  cases r with
  | ok v => exact .raise _
  | error e =>
    cases e with
    | timeout _ _ => exact .raise _
    | _           => exact (logged_only _).bind fun _ => .raise _

/-- The calls of a wait. -/
theorem wait_only {future : Nat} (hresult : ∀ timeout, q (.result future timeout)) (hdone : q (.done future))
    (hcancel : q (.cancel future)) (hremove : q (.remove t.id)) : (wait t future).Only q := by
  have hagain : ((do_ (.result future none)).bind Prog.ofExcept).Only q := .bind (.call (hresult none)) fun _ => .ofExcept _
  refine .bind (.call (hresult _)) fun r => ?_
  cases r with
  | ok v => exact .ret v
  | error e =>
    cases e with
    | timeout _ _ =>
      refine .bind (.call hdone) fun _ => .ite hagain ?_
      refine .bind (.call hcancel) fun _ => .ite ?_ ?_
      · exact .bind (.call hremove) fun _ => .raise _
      · exact .bind (.call hdone) fun _ => .ite hagain (join_only hresult)
    | _ => exact .raise _

/-- The calls of an attempt. -/
theorem executeOnce_only (hexecute : q (.execute t)) (hcheck : q (.check t.id)) (hsubmit : q (.submit t))
    (hstore : ∀ future, q (.store t.id future)) (hwait : ∀ future, (wait t future).Only q)
    (hdone : ∀ future, q (.done future)) (hremove : q (.remove t.id)) : (executeOnce t).Only q := by
  refine .ite (.ret none) (.ite (.bind (.call hexecute) fun _ => .ofExcept _) ?_)
  refine .bind (.call hcheck) fun _ => .ite (.raise _) ?_
  refine .bind (.call hsubmit) fun future => .bind (.call (hstore future)) fun _ => ?_
  refine .bind (hwait future).attempt fun answer => .bind (.call (hdone future)) fun _ => ?_
  exact .ite (.bind (.call hremove) fun _ => .ofExcept answer) (.ofExcept answer)

end

/-- `time.sleep(task.retry_delay)`. -/
def sleep (t : Task) : TaskProg Unit :=
  if timeoutMax < t.retryDelay then Prog.raise .overflow else do_ (.sleep t.retryDelay)

/-- One round: at most `n` attempts; the last exception is kept.  What the handler raises of its own leaves the task. -/
def runRound (t : Task) : Nat → Option Failure → TaskProg (Except (Option Failure) Value)
  | 0,     last => return .error last
  | n + 1, _    => do
    match ← (executeOnce t).attempt with
    | .ok v    => return .ok v
    | .error e => do
      logged e
      if n ≠ 0 ∧ t.retryDelay ≠ 0 then sleep t
      runRound t n (some e)

def runRounds (t : Task) : Nat → Option Failure → TaskProg (Except (Option Failure) Value)
  | 0,     last => return .error last
  | n + 1, last => do
    match ← runRound t (Workflow.attemptsPerRound t) last with
    | .ok v       => return .ok v
    | .error last => runRounds t n last

/-- What `_run_task` raises at its end: the last exception when it is true. -/
def taskFailure (t : Task) : Option Failure → Failure
  | none   => .raised (Py.Str.ofString "Task failed: " ++ t.id)
  | some e =>
    match e.traits.truth with
    | some true  => e
    | some false => .raised (Py.Str.ofString "Task failed: " ++ t.id)
    | none       => .broken

/-- `_run_task`; an optional task that failed has the result None. -/
def runTask (t : Task) : TaskProg Value := do
  match ← runRounds t (Workflow.rounds t) none with
  | .ok v       => return v
  | .error last => if t.optional then return none else Prog.raise (taskFailure t last)

/-- `Workflow.run`. -/
def run : List Task → TaskProg (List Value)
  | []      => return []
  | t :: ts => do
    let r ← runTask t
    let rs ← run ts
    return r :: rs

section
variable {K : (α : Type) → TaskProg α → Prop} {t : Task}

theorem runRound_built (hk : Prog.Closed K) (hexec : K Value (executeOnce t)) (hsleep : K Unit (do_ (.sleep t.retryDelay))) :
    ∀ (n : Nat) (last : Option Failure), K _ (runRound t n last)
  | 0,     last => hk.ret _
  | n + 1, last => by
    refine hk.try_ hexec (fun v => hk.ret _) fun e => ?_
    have hrest := runRound_built hk hexec hsleep n (some e)
    have hlogged : K Unit (logged e) := Prog.Closed.ite (hk.ret ()) (hk.raise _)
    have hpause : K Unit (sleep t) := Prog.Closed.ite (hk.raise _) hsleep
    refine hk.bind hlogged fun _ => ?_
    show K _ (if _ then _ else _)
    split
    · exact hk.bind hpause fun _ => hrest
    · exact hrest

theorem runRounds_built (hk : Prog.Closed K) (hexec : K Value (executeOnce t)) (hsleep : K Unit (do_ (.sleep t.retryDelay))) :
    ∀ (n : Nat) (last : Option Failure), K _ (runRounds t n last)
  | 0,     last => hk.ret _
  | n + 1, last => by
    refine hk.bind (runRound_built hk hexec hsleep _ last) fun r => ?_
    cases r with
    | ok v       => exact hk.ret _
    | error last => exact runRounds_built hk hexec hsleep n last

theorem runTask_built (hk : Prog.Closed K) (hexec : K Value (executeOnce t)) (hsleep : K Unit (do_ (.sleep t.retryDelay))) :
    K _ (runTask t) := by
  refine hk.bind (runRounds_built hk hexec hsleep _ none) fun r => ?_
  cases r with
  | ok v       => exact hk.ret _
  | error last => exact Prog.Closed.ite (hk.ret _) (hk.raise _)

/-- **What a run is built of**: what control flow keeps holds of it when it holds of its attempts and its pauses. -/
theorem run_built (hk : Prog.Closed K) : ∀ {ts : List Task}, (∀ t ∈ ts, K Value (executeOnce t)) →
    (∀ t ∈ ts, K Unit (do_ (.sleep t.retryDelay))) → K _ (run ts)
  | [],      _,     _      => hk.ret _
  | t :: ts, hexec, hsleep => by
    have htask := runTask_built hk (hexec t List.mem_cons_self) (hsleep t List.mem_cons_self)
    have hrest := run_built hk (fun u hu => hexec u (List.mem_cons_of_mem _ hu)) fun u hu =>
      hsleep u (List.mem_cons_of_mem _ hu)
    exact hk.bind htask fun _ => hk.bind hrest fun _ => hk.ret _

end

/-- So many steps of the pool. -/
def works : Nat → TaskProg Unit
  | 0     => return ()
  | n + 1 => do
    do_ .work
    works n

/-! ## Runs -/

/-- A thread with a workflow, or the pool. -/
abbrev Thread := Option Nat

abbrev PoolEv := Ev Thread Call Call.Res Shared

abbrev PoolState := Shared × List PoolEv

abbrev sem : Sem Thread Call Call.Res Shared := Sem.ofExec (fun c _ a s => Call.exec c a s) fun _ _ _ _ => True

/-- Each thread runs its workflow's tasks, and the pool takes `steps` steps. -/
def poolRun (workflows : Nat → List Task) (steps : Nat) : Conf Thread Call Call.Res Failure Unit PoolState where
  prog
    | some i => (run (workflows i)).bind fun _ => .ret ()
    | none   => works steps
  state := (⟨[], .empty⟩, [])

/-- The task id and the future of the attempt that is between its check and its store. -/
abbrev Opening := Option (Py.Str × Option Nat)

namespace Call

def opens : (a : Call) → a.Res → Opening → Opening
  | .check taskId, blocked, o => if blocked then o else some (taskId, none)
  | .submit _,     future,  o => o.map fun p => (p.1, some future)
  | .store _ _,    _,       _ => none
  | _,             _,       o => o

/-- The id whose check the call passes. -/
def passes : (a : Call) → a.Res → Option Py.Str
  | .check taskId, blocked => if blocked then none else some taskId
  | _,             _       => none

/-- The id whose entry an exit removes. -/
def removes : Call → Option Py.Str
  | .remove taskId => some taskId
  | _              => none

end Call

def opening (i : Thread) (log : List PoolEv) : Opening :=
  log.foldl (fun o e => if e.thread = i then e.act.opens e.res o else o) none

/-- No check of an id passes while another attempt for it is opening. -/
def ChecksAlone (before : List PoolEv) (e : PoolEv) : Prop :=
  ∀ id ∈ e.act.passes e.res, ∀ x ∈ before, x.thread ≠ e.thread → ∀ o ∈ opening x.thread before, o.1 ≠ id

/-- No exit removes the entry of a future that is not done. -/
def RemovesDone (_before : List PoolEv) (e : PoolEv) : Prop :=
  ∀ id ∈ e.act.removes, ∀ f ∈ e.pre.inflight.get id, e.pre.live f = none

def Undisturbed (before : List PoolEv) (e : PoolEv) : Prop := ChecksAlone before e ∧ RemovesDone before e

instance (before : List PoolEv) (e : PoolEv) : Decidable (ChecksAlone before e) :=
  inferInstanceAs (Decidable (∀ id ∈ e.act.passes e.res, ∀ x ∈ before, _ → ∀ o ∈ opening x.thread before, _))

instance (before : List PoolEv) (e : PoolEv) : Decidable (RemovesDone before e) :=
  inferInstanceAs (Decidable (∀ id ∈ e.act.removes, ∀ f ∈ e.pre.inflight.get id, _))

instance (before : List PoolEv) (e : PoolEv) : Decidable (Undisturbed before e) :=
  inferInstanceAs (Decidable (_ ∧ _))

/-! ## One execute for each id -/

theorem opening_append (i : Thread) (log : List PoolEv) (e : PoolEv) :
    opening i (log ++ [e]) = if e.thread = i then e.act.opens e.res (opening i log) else opening i log := by
  simp [opening]

theorem opening_thread {i : Thread} {log : List PoolEv} {p : Py.Str × Option Nat} (h : opening i log = some p) :
    ∃ x ∈ log, x.thread = i := by
  by_contra hno
  have hnone : ∀ l : List PoolEv, (∀ x ∈ l, x.thread ≠ i) → opening i l = none := by
    intro l
    induction l using List.reverseRecOn with
    | nil => exact fun _ => rfl
    | append_singleton l e ih =>
      intro hl
      rw [opening_append, if_neg (hl e (by simp))]
      exact ih fun x hx => hl x (List.mem_append_left _ hx)
  rw [hnone log fun x hx hi => hno ⟨x, hx, hi⟩] at h
  cases h

/-- **What holds between any two calls**: attempts of one id do not open together, an unfinished future is its id's entry or
its attempt is opening, and while an attempt opens its id has no other. -/
structure Inv (s : PoolState) : Prop where
  owner : ∀ i j id o o', opening i s.2 = some (id, o) → opening j s.2 = some (id, o') → i = j
  known : ∀ f id, s.1.live f = some id → s.1.inflight.get id = some f ∨ ∃ i, opening i s.2 = some (id, some f)
  own   : ∀ i id o, opening i s.2 = some (id, o) → ∀ f, s.1.live f = some id → o = some f

/-- An id has at most one unfinished future. -/
theorem Inv.unique {s : PoolState} (h : Inv s) {f g : Nat} {id : Py.Str} (hf : s.1.live f = some id)
    (hg : s.1.live g = some id) : f = g := by
  rcases h.known f id hf with hin | ⟨i, hi⟩
  · rcases h.known g id hg with hin' | ⟨j, hj⟩
    · exact Option.some.inj (hin.symm.trans hin')
    · exact (Option.some.inj (h.own j id _ hj f hf)).symm
  · exact Option.some.inj (h.own i id _ hi g hg)

/-- What opens nothing, and leaves every entry of an unfinished future, keeps it. -/
theorem Inv.shrink {s s' : PoolState} (h : Inv s) (hopen : ∀ i, opening i s'.2 = opening i s.2)
    (hlive : ∀ f id, s'.1.live f = some id → s.1.live f = some id)
    (hin : ∀ f id, s'.1.live f = some id → s.1.inflight.get id = some f → s'.1.inflight.get id = some f) : Inv s' where
  owner i j id o o' hi hj := by
    rw [hopen] at hi hj
    exact h.owner i j id o o' hi hj
  known f id hf := by
    refine (h.known f id (hlive f id hf)).imp (hin f id hf) fun ⟨i, hi⟩ => ⟨i, ?_⟩
    rw [hopen]
    exact hi
  own i id o hi f hf := by
    rw [hopen] at hi
    exact h.own i id o hi f (hlive f id hf)

/-- Where an attempt must stand for a call. -/
def Call.Proper (o : Opening) : Call → Prop
  | .check _   => o = none
  | .submit t  => o = some (t.id, none)
  | .store id f => o = some (id, some f)
  | _          => True

namespace Shared

theorem live_setPhase {s : Shared} {f g : Nat} {p q : Phase} {id : Py.Str} (hf : s.phase f = some q)
    (hq : q.live = true) (h : (s.setPhase f p).live g = some id) : s.live g = some id := by
  unfold live setPhase at h
  unfold live
  unfold phase at hf
  rw [List.getElem?_modify] at h
  by_cases hg : f = g
  · subst hg
    obtain ⟨x, hx, rfl⟩ := Option.map_eq_some_iff.1 hf
    rw [hx] at h ⊢
    simp only [if_true, Option.map_eq_map, Option.map_some, Option.bind_some] at h ⊢
    split at h
    · rw [if_pos hq]
      exact h
    · cases h
  · simpa [hg] using h

theorem live_submit (s : Shared) (t : Task) (g : Nat) :
    (s.submit t).2.live g = if g = s.futures.length then some t.id else s.live g := by
  unfold live submit
  by_cases hg : g = s.futures.length
  · subst hg
    simp [Phase.live]
  · rw [if_neg hg]
    by_cases hlt : g < s.futures.length
    · rw [List.getElem?_append_left hlt]
    · rw [List.getElem?_eq_none (by simp; omega), List.getElem?_eq_none (by omega)]

theorem check_cases (s : Shared) (id : Py.Str) :
    (∃ f, s.live f ≠ none ∧ s.check id = (true, s)) ∨
    (∃ s', s.check id = (false, s') ∧ s'.futures = s.futures ∧ (∀ f ∈ s.inflight.get id, s.live f = none) ∧
      ∀ j, j ≠ id → s'.inflight.get j = s.inflight.get j) := by
  unfold check
  cases hentry : s.inflight.get id with
  | none => exact .inr ⟨s, rfl, rfl, by simp, fun _ _ => rfl⟩
  | some f =>
    by_cases hdone : s.done f = true
    · refine .inr ⟨_, if_pos hdone, rfl, ?_, ?_⟩
      · intro g hg
        cases hg
        exact Option.isNone_iff_eq_none.1 hdone
      · intro j hj
        rw [Py.Dict.get_pop, if_neg hj]
    · refine .inl ⟨f, ?_, if_neg hdone⟩
      intro hlive
      exact hdone (Option.isNone_iff_eq_none.2 hlive)

theorem live_cancel {s : Shared} {f g : Nat} {id : Py.Str} (h : (s.cancel f).2.live g = some id) :
    s.live g = some id := by
  unfold cancel at h
  split at h
  · rename_i hq
    exact live_setPhase hq rfl h
  · exact h
  · exact h

theorem inflight_cancel (s : Shared) (f : Nat) : (s.cancel f).2.inflight = s.inflight := by
  unfold cancel
  split <;> rfl

theorem work_cases {s s' : Shared} {c : Choice} (h : s.work c = some s') :
    ∃ f p q, s.phase f = some q ∧ q.live = true ∧ s' = s.setPhase f p := by
  cases c with
  | start f =>
    unfold work at h
    dsimp only at h
    split at h
    · rename_i hq
      exact ⟨f, .running, .queued, hq, rfl, (Option.some.inj h).symm⟩
    · cases h
  | finish f r =>
    unfold work at h
    dsimp only at h
    split at h
    · rename_i hq
      exact ⟨f, .finished r, .running, hq, rfl, (Option.some.inj h).symm⟩
    · cases h
  | _ => cases h

end Shared

section

variable {i : Thread} {a : Call} {s s' : PoolState} {r : a.Res}

theorem opening_step (hst : (sem.logged Undisturbed) i a s r s') (j : Thread) :
    opening j s'.2 = if i = j then a.opens r (opening j s.2) else opening j s.2 := by
  rw [hst.2.1, opening_append]

/-- **A check passes** for an id nobody is opening: the id has no unfinished future, and its attempt opens. -/
theorem Inv.check {id : Py.Str} (h : Inv s) (hi : opening i s.2 = none)
    (hopen : ∀ j, opening j s'.2 = if i = j then some (id, none) else opening j s.2)
    (halone : ∀ j o, j ≠ i → opening j s.2 ≠ some (id, o)) (hentry : ∀ f ∈ s.1.inflight.get id, s.1.live f = none)
    (hlive : s'.1.live = s.1.live) (hin : ∀ j, j ≠ id → s'.1.inflight.get j = s.1.inflight.get j) : Inv s' := by
  have hfree : ∀ f, s.1.live f ≠ some id := by
    intro f hf
    rcases h.known f id hf with hget | ⟨j, hj⟩
    · cases (hentry f hget).symm.trans hf
    · refine halone j _ ?_ hj
      rintro rfl
      cases hi.symm.trans hj
  constructor
  · intro j k id' o o' hj hk
    rw [hopen] at hj hk
    by_cases hij : i = j
    · by_cases hik : i = k
      · exact hij.symm.trans hik
      · rw [if_pos hij] at hj
        rw [if_neg hik] at hk
        cases hj
        exact absurd hk (halone k o' (Ne.symm hik))
    · rw [if_neg hij] at hj
      by_cases hik : i = k
      · rw [if_pos hik] at hk
        cases hk
        exact absurd hj (halone j o (Ne.symm hij))
      · rw [if_neg hik] at hk
        exact h.owner j k id' o o' hj hk
  · intro f id' hf
    rw [hlive] at hf
    have hne : id' ≠ id := by
      rintro rfl
      exact hfree f hf
    rcases h.known f id' hf with hget | ⟨j, hj⟩
    · exact .inl ((hin id' hne).trans hget)
    · refine .inr ⟨j, ?_⟩
      rw [hopen, if_neg]
      · exact hj
      · rintro rfl
        cases hi.symm.trans hj
  · intro j id' o hj f hf
    rw [hlive] at hf
    rw [hopen] at hj
    by_cases hij : i = j
    · rw [if_pos hij] at hj
      cases hj
      exact absurd hf (hfree f)
    · rw [if_neg hij] at hj
      exact h.own j id' o hj f hf

/-- **A submit** gives the opening attempt its future. -/
theorem Inv.submit {id : Py.Str} {f : Nat} (h : Inv s) (hi : opening i s.2 = some (id, none))
    (hopen : ∀ j, opening j s'.2 = if i = j then some (id, some f) else opening j s.2)
    (hlive : ∀ g, s'.1.live g = if g = f then some id else s.1.live g)
    (hin : s'.1.inflight = s.1.inflight) : Inv s' := by
  have hold : ∀ j id' o, opening j s'.2 = some (id', o) → ∃ o', opening j s.2 = some (id', o') := by
    intro j id' o hj
    rw [hopen] at hj
    by_cases hij : i = j
    · rw [if_pos hij] at hj
      cases hj
      subst hij
      exact ⟨none, hi⟩
    · rw [if_neg hij] at hj
      exact ⟨o, hj⟩
  constructor
  · intro j k id' o o' hj hk
    obtain ⟨_, hj⟩ := hold j id' o hj
    obtain ⟨_, hk⟩ := hold k id' o' hk
    exact h.owner j k id' _ _ hj hk
  · intro g id' hg
    rw [hlive] at hg
    by_cases hgf : g = f
    · rw [if_pos hgf] at hg
      cases hg
      subst hgf
      exact .inr ⟨i, by rw [hopen, if_pos rfl]⟩
    · rw [if_neg hgf] at hg
      rcases h.known g id' hg with hget | ⟨j, hj⟩
      · rw [hin]
        exact .inl hget
      · refine .inr ⟨j, ?_⟩
        rw [hopen, if_neg]
        · exact hj
        · rintro rfl
          cases hi.symm.trans hj
  · intro j id' o hj g hg
    rw [hlive] at hg
    by_cases hij : i = j
    · rw [hopen, if_pos hij] at hj
      cases hj
      by_cases hgf : g = f
      · rw [hgf]
      · rw [if_neg hgf] at hg
        cases h.own i id none hi g hg
    · rw [hopen, if_neg hij] at hj
      have hgf : g ≠ f := by
        intro hgf
        rw [if_pos hgf] at hg
        cases hg
        exact hij (h.owner i j id _ _ hi hj)
      rw [if_neg hgf] at hg
      exact h.own j id' o hj g hg

/-- **A store** makes the attempt's future its id's entry. -/
theorem Inv.store {id : Py.Str} {f : Nat} (h : Inv s) (hi : opening i s.2 = some (id, some f))
    (hopen : ∀ j, opening j s'.2 = if i = j then none else opening j s.2) (hlive : s'.1.live = s.1.live)
    (hin : s'.1.inflight = s.1.inflight.set id f) : Inv s' := by
  have hold : ∀ j o, opening j s'.2 = some o → i ≠ j ∧ opening j s.2 = some o := by
    intro j o hj
    rw [hopen] at hj
    by_cases hij : i = j
    · rw [if_pos hij] at hj
      cases hj
    · rw [if_neg hij] at hj
      exact ⟨hij, hj⟩
  constructor
  · intro j k id' o o' hj hk
    exact h.owner j k id' o o' (hold j _ hj).2 (hold k _ hk).2
  · intro g id' hg
    rw [hlive] at hg
    rw [hin]
    by_cases hid : id' = id
    · subst hid
      cases h.own i id' _ hi g hg
      exact .inl (Py.Dict.get_set_self _ _ _)
    · rw [Py.Dict.get_set_of_ne _ _ hid]
      refine (h.known g id' hg).imp_right fun ⟨j, hj⟩ => ⟨j, ?_⟩
      rw [hopen, if_neg]
      · exact hj
      · rintro rfl
        cases hi.symm.trans hj
        exact hid rfl
  · intro j id' o hj g hg
    rw [hlive] at hg
    exact h.own j id' o (hold j _ hj).2 g hg

/-- The calls of an attempt in flight, and of the pool. -/
def Call.InFlight : Call → Prop
  | .check _ | .submit _ | .store _ _ | .remove _ => False
  | _                                             => True

/-- They finish futures and start none, and leave the table. -/
theorem exec_inFlight {c : Choice} {s s' : Shared} (h : Call.exec c a s = some (r, s')) (ha : a.InFlight) :
    s'.inflight = s.inflight ∧ ∀ f id, s'.live f = some id → s.live f = some id := by
  cases a with
  | check id | submit t | store id f | remove id => exact ha.elim
  | execute t | result f timeout =>
    obtain ⟨x, -, hx⟩ := Option.map_eq_some_iff.1 h
    cases hx
    exact ⟨rfl, fun _ _ hf => hf⟩
  | done f | sleep d =>
    cases h
    exact ⟨rfl, fun _ _ hf => hf⟩
  | cancel f =>
    have hs : (s.cancel f).2 = s' := congrArg Prod.snd (Option.some.inj h)
    subst hs
    exact ⟨s.inflight_cancel f, fun _ _ hf => Shared.live_cancel hf⟩
  | work =>
    obtain ⟨x, hw, hx⟩ := Option.map_eq_some_iff.1 h
    obtain ⟨f, p, q, hq, hlive, rfl⟩ := Shared.work_cases hw
    cases hx
    exact ⟨rfl, fun _ _ hf => Shared.live_setPhase hq hlive hf⟩

/-- **One call keeps it**, made where an attempt must stand for it. -/
theorem Inv.step (h : Inv s) (hst : (sem.logged Undisturbed) i a s r s') (hp : a.Proper (opening i s.2)) : Inv s' := by
  have hopen := opening_step hst
  obtain ⟨⟨c, -, hexec⟩, -, hpass, hremove⟩ := hst
  have same : (∀ o, a.opens r o = o) → ∀ j, opening j s'.2 = opening j s.2 := by
    intro ha j
    rw [hopen, ha, ite_self]
  cases a with
  | check id =>
    rcases s.1.check_cases id with ⟨f, -, hc⟩ | ⟨s₁, hc, hfutures, hentry, hin⟩
    · obtain ⟨hr, hs⟩ := Prod.mk.inj (Option.some.inj (hexec.symm.trans (congrArg some hc)))
      refine h.shrink (same fun o => by rw [hr]; rfl) (fun g j hg => ?_) (fun g j _ hget => ?_)
      · rwa [hs] at hg
      · rwa [hs]
    · obtain ⟨hr, hs⟩ := Prod.mk.inj (Option.some.inj (hexec.symm.trans (congrArg some hc)))
      subst hr
      refine h.check hp hopen (fun j o hj ho => ?_) hentry ?_ (by rw [hs]; exact hin)
      · obtain ⟨x, hx, rfl⟩ := opening_thread ho
        exact hpass id rfl x hx hj _ ho rfl
      · funext f
        rw [Shared.live, Shared.live, hs, hfutures]
  | submit t =>
    obtain ⟨hr, hs⟩ := Prod.mk.inj (Option.some.inj hexec)
    refine h.submit hp (f := r) (fun j => (hopen j).trans ?_) (fun g => ?_) (by rw [← hs])
    · by_cases hij : i = j
      · subst hij
        rw [if_pos rfl, if_pos rfl, hp]
        rfl
      · rw [if_neg hij, if_neg hij]
    · rw [← hs, ← hr]
      exact Shared.live_submit s.1 t g
  | store id f =>
    have hs : s'.1 = { s.1 with inflight := s.1.inflight.set id f } := (congrArg Prod.snd (Option.some.inj hexec)).symm
    refine h.store hp hopen ?_ (by rw [hs])
    rw [hs]
    rfl
  | remove id =>
    have hs : s'.1 = { s.1 with inflight := s.1.inflight.pop id } := (congrArg Prod.snd (Option.some.inj hexec)).symm
    refine h.shrink (same fun _ => rfl) (fun g j hg => ?_) (fun g j hg hin => ?_)
    · rwa [hs] at hg
    · rw [hs] at hg ⊢
      have hj : j ≠ id := by
        rintro rfl
        cases (hremove j rfl g hin).symm.trans hg
      rw [Py.Dict.get_pop, if_neg hj]
      exact hin
  | _ =>
    obtain ⟨hin, hlive⟩ := exec_inFlight hexec trivial
    exact h.shrink (same fun _ => rfl) hlive fun _ _ _ hget => by rw [hin]; exact hget

end

/-! ### The programs -/

section

variable {i : Thread}

/-- What a thread relies on and promises: the invariant, kept by each call. -/
abbrev attempt (i : Thread) : Proto Call Call.Res PoolState :=
  team sem Undisturbed (fun before e => Inv (e.pre, before) → Inv (e.post, before ++ [e])) i

/-- The thread is not opening. -/
def Idle (i : Thread) (s : PoolState) : Prop := opening i s.2 = none

theorem opening_stable (o : Opening) : (attempt i).Stable fun s => opening i s.2 = o :=
  team_stable fun s e s' he hx _ _ hs => by rw [hx.log, opening_append, if_neg he]; exact hs

/-- A call made where the attempt must stand for it, and where it then stands. -/
theorem call_ok {a : Call} {o : Opening} (hp : a.Proper o) {s s' : PoolState} {r : a.Res} (ho : opening i s.2 = o)
    (hstep : (attempt i).step a s r s') : (attempt i).guar s s' ∧ opening i s'.2 = a.opens r o := by
  constructor
  · refine team_guar hstep fun hinv => ?_
    rw [← hstep.2.1]
    exact Inv.step hinv hstep (by rw [ho]; exact hp)
  · rw [opening_step hstep, if_pos rfl, ho]

theorem wp_do {a : Call} {o : Opening} (hp : a.Proper o) {α : Type} {f : a.Res → TaskProg α}
    {Q : Except Failure α → PoolState → Prop} {s : PoolState} (ho : opening i s.2 = o)
    (h : ∀ r s', opening i s'.2 = a.opens r o → (attempt i).wp (f r) Q s') : (attempt i).wp (do_ a >>= f) Q s :=
  Proto.wp_call (opening_stable o) ho fun _ r s₂ h₁ hstep => ⟨(call_ok hp h₁ hstep).1, h r s₂ (call_ok hp h₁ hstep).2⟩

/-- A call an attempt may make that is not opening, and leaves it so. -/
def Call.Quiet (a : Call) : Prop := a.Proper none ∧ ∀ r, a.opens r none = none

theorem quiet_keeps {α : Type} {p : TaskProg α} (h : p.Only Call.Quiet) : (attempt i).Keeps (Idle i) p := by
  refine Proto.Keeps.only (opening_stable none) (fun a ha s r s' hs hstep => ?_) h
  obtain ⟨hguar, hopen⟩ := call_ok ha.1 hs hstep
  exact ⟨hguar, hopen.trans (ha.2 r)⟩

theorem wait_quiet (t : Task) (future : Nat) : (wait t future).Only Call.Quiet :=
  wait_only (fun _ => ⟨trivial, fun _ => rfl⟩) ⟨trivial, fun _ => rfl⟩ ⟨trivial, fun _ => rfl⟩ ⟨trivial, fun _ => rfl⟩

/-- **An attempt opens at its check and is idle again when it ends.** -/
theorem executeOnce_keeps (t : Task) : (attempt i).Keeps (Idle i) (executeOnce t) := by
  intro s hs
  unfold executeOnce
  by_cases hexecutor : t.executor = none
  · rw [if_pos hexecutor]
    exact hs
  rw [if_neg hexecutor]
  by_cases htimeout : t.roundTimeout ≤ 0
  · rw [if_pos htimeout]
    exact quiet_keeps ((Prog.Only.call ⟨trivial, fun _ => rfl⟩).bind .ofExcept) s hs
  · rw [if_neg htimeout]
    refine wp_do (a := .check t.id) rfl hs fun blocked s₁ h₁ => ?_
    cases blocked with
    | true  => exact h₁
    | false =>
      refine wp_do (a := .submit t) rfl h₁ fun future s₂ h₂ => ?_
      refine wp_do (a := .store t.id future) rfl h₂ fun _ s₃ h₃ => ?_
      refine quiet_keeps ?_ s₃ h₃
      refine (wait_quiet t future).attempt.bind fun answer => ?_
      refine (Prog.Only.call ⟨trivial, fun _ => rfl⟩).bind fun done => ?_
      exact .ite ((Prog.Only.call ⟨trivial, fun _ => rfl⟩).bind fun _ => .ofExcept answer) (.ofExcept answer)

theorem run_keeps (ts : List Task) : (attempt i).Keeps (Idle i) (run ts) :=
  run_built (Proto.Keeps.closed _) (fun t _ => executeOnce_keeps t)
    (fun _ _ => quiet_keeps (.call ⟨trivial, fun _ => rfl⟩))

theorem works_keeps : ∀ n : Nat, (attempt i).Keeps (Idle i) (works n)
  | 0     => .ret ()
  | n + 1 => by
    have hwork : (attempt i).Keeps (Idle i) (do_ .work) := quiet_keeps (.call ⟨trivial, fun _ => rfl⟩)
    exact hwork.bind fun _ => works_keeps n

end

theorem length_filter_le_one {α : Type} {p : α → Bool} : ∀ {l : List α},
    (∀ (i j : Nat) (x y : α), l[i]? = some x → l[j]? = some y → p x = true → p y = true → i = j) → (l.filter p).length ≤ 1
  | [],     _ => Nat.zero_le 1
  | x :: l, h => by
    by_cases hx : p x = true
    · have hnone : l.filter p = [] := by
        rw [List.filter_eq_nil_iff]
        intro y hy hpy
        obtain ⟨j, hj⟩ := List.mem_iff_getElem?.1 hy
        cases h 0 (j + 1) x y rfl (by simpa using hj) hx hpy
      rw [List.filter_cons, if_pos hx, hnone]
      exact Nat.le_refl 1
    · rw [List.filter_cons, if_neg hx]
      refine length_filter_le_one fun j k y z hj hk hy hz => ?_
      exact Nat.succ.inj (h (j + 1) (k + 1) y z (by simpa using hj) (by simpa using hk) hy hz)

/-- **At most one execute of an id is running** in the pool, whatever workflows run and in whatever order the threads and the
pool take their steps, as long as nothing disturbs an attempt that opens or is in flight. -/
theorem one_execute_per_id (workflows : Nat → List Task) (steps : Nat)
    {c : Conf Thread Call Call.Res Failure Unit PoolState}
    (hr : Conf.Runs (sem.logged fun _ _ => True) (poolRun workflows steps) c) (hlog : Admits Undisturbed c.state.2)
    (id : Py.Str) : (c.state.1.running id).length ≤ 1 := by
  have hwp : ∀ i, (attempt i).wp ((poolRun workflows steps).prog i) (fun _ => Idle i) (poolRun workflows steps).state := by
    intro i
    cases i with
    | none   => exact works_keeps steps _ rfl
    | some i => exact ((run_keeps (workflows i)).bind fun _ => .ret ()) _ rfl
  have hinv : Inv c.state := by
    refine team_invariant hwp (fun s e s' hx _ hg hs => ?_) ?_ (hr.restrict hlog)
    · have hpre : (e.pre, s.2) = s := by rw [hx.pre]
      have hpost : (e.post, s.2 ++ [e]) = s' := by rw [hx.post, ← hx.log]
      rw [hpre, hpost] at hg
      exact hg hs
    · constructor
      · intro i j id o o' hi
        cases hi
      · intro f id hf
        cases hf
      · intro i id o hi
        cases hi
  refine length_filter_le_one fun f g x y hf hg hx hy => ?_
  have running : ∀ (h : Nat) (z : Future), c.state.1.futures[h]? = some z →
      (decide (z.task.id = id) && z.phase.isRunning) = true → c.state.1.live h = some id := by
    intro h z hz hp
    obtain ⟨hid, hrun⟩ := Bool.and_eq_true_iff.1 hp
    have hlive : z.phase.live = true := by
      cases hphase : z.phase <;> rw [hphase] at hrun <;> first | rfl | cases hrun
    rw [Shared.live, hz, Option.bind_some, if_pos hlive, of_decide_eq_true hid]
  exact hinv.unique (running f x hf hx) (running g y hg hy)

/-! ## Two copies of a task -/

def copyTask : Task :=
  { id := "t", channelId := "c", dagId := "", fingerprint := "", name := "", category := "", description := "", tags := [],
    executor := some 0, roundTimeout := 1 }

/-- Three threads with one task each, all of one id. -/
def copies : Conf Thread Call Call.Res Failure Unit PoolState := poolRun (fun i => if i < 3 then [copyTask] else []) 4

/-- So many calls of a thread. -/
def calls (n : Nat) (i : Nat) : List (Thread × Choice) := List.replicate n (some i, .go)

theorem exists_copies {P : Conf Thread Call Call.Res Failure Unit PoolState → Prop} [DecidablePred P]
    (sch : List (Thread × Choice))
    (h : (copies.execs (fun c _ a s => Call.exec c a s) sch).any (fun c => decide (P c)) = true) :
    ∃ c, Conf.Runs (sem.logged fun _ _ => True) copies c ∧ P c :=
  Conf.exists_runs sch (fun _ _ _ _ => trivial) h

/-- One attempt after the other: the second starts when the first is finished and removed. -/
theorem one_execute_per_id_run : ∃ c, Conf.Runs (sem.logged fun _ _ => True) copies c ∧ Admits Undisturbed c.state.2 ∧
    (c.state.1.running "t").length = 1 ∧ c.state.1.futures.length = 2 ∧ (c.state.1.running "t").length ≤ 1 := by
  have hrun : ∃ c, Conf.Runs (sem.logged fun _ _ => True) copies c ∧ Admits Undisturbed c.state.2 ∧
      (c.state.1.running "t").length = 1 ∧ c.state.1.futures.length = 2 :=
    exists_copies (calls 3 0 ++ [(none, .start 0), (none, .finish 0 (.ok (some 7)))] ++ calls 3 0 ++ calls 3 1 ++ [(none, .start 1)])
      (by decide +kernel)
  obtain ⟨c, hrun, hlog, hone, htwo⟩ := hrun
  exact ⟨c, hrun, hlog, hone, htwo, one_execute_per_id _ _ hrun hlog "t"⟩

/-- **Two executes run**: both attempts pass the check before either stores its future. -/
theorem two_executes_run : ∃ c, Conf.Runs (sem.logged fun _ _ => True) copies c ∧ ¬ (c.state.1.running "t").length ≤ 1 :=
  exists_copies (calls 1 0 ++ calls 1 1 ++ calls 2 0 ++ calls 2 1 ++ [(none, .start 0), (none, .start 1)])
    (by decide +kernel)

/-- No check passes out of turn, but one attempt's removal takes out the next one's entry, and a third passes. -/
theorem removed_entry_run : ∃ c, Conf.Runs (sem.logged fun _ _ => True) copies c ∧ Admits ChecksAlone c.state.2 ∧
    ¬ (c.state.1.running "t").length ≤ 1 :=
  exists_copies (calls 3 0 ++ [(none, .start 0), (none, .finish 0 (.ok (some 7)))] ++ calls 2 0 ++ calls 3 1 ++
    [(none, .start 1)] ++ calls 1 0 ++ calls 3 2 ++ [(none, .start 2)])
    (by decide +kernel)

end SoftTimeout
end Pypepper
