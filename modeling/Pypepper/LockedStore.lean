import Pypepper.Monitor
import Pypepper.Job
/-!
# LockedStore — the in-memory store by its dictionary accesses

`InMemoryJobStore` of `scheduler/store/memory.py` once more, below its calls: each method takes `_lock`, reads and writes
`_store` one access at a time, and releases the lock.  Between two accesses any other thread may run, and all it can do is
wait.  So the calls of any threads are single steps on the store (`store_calls_atomic`), which is what the other modules
take them to be.
-/
namespace Pypepper

open Conc (Prog Conf Sem Locked Guarded lockSem Implements)
open Conc.Monitor (Callers spread)

/-! ## The methods -/

inductive StoreCall where
  | put (record : JobRecord)
  | get (jobId : String)
  | delete (jobId : String)
  | list (channelId : Option String)
  | clear

@[reducible] def StoreCall.Ans : StoreCall → Type
  | .put _    => Bool
  | .get _    => Option JobRecord
  | .delete _ => Unit
  | .list _   => List JobRecord
  | .clear    => Unit

/-- One access to the dictionary. -/
inductive StoreAccess where
  | get (jobId : String)
  | set (jobId : String) (record : JobRecord)
  | pop (jobId : String)
  | values
  | clear

@[reducible] def StoreAccess.Res : StoreAccess → Type
  | .get _   => Option JobRecord
  | .set _ _ => Unit
  | .pop _   => Unit
  | .values  => List JobRecord
  | .clear   => Unit

def StoreAccess.exec : (a : StoreAccess) → Py.Dict String JobRecord → a.Res × Py.Dict String JobRecord
  | .get jobId,        d => (d.get jobId, d)
  | .set jobId record, d => ((), d.set jobId record)
  | .pop jobId,        d => ((), d.pop jobId)
  | .values,           d => (d.values, d)
  | .clear,            _ => ((), .empty)

def StoreAccess.call (a : StoreAccess) : Prog StoreAccess StoreAccess.Res Exn a.Res := Prog.call a

/-- A method's statements between taking the lock and releasing it; `list` filters what it copied. -/
def StoreCall.body : (c : StoreCall) → Prog StoreAccess StoreAccess.Res Exn c.Ans
  | .put record     => do
    let existing ← StoreAccess.call (.get record.id)
    match existing with
    | none   => do
      StoreAccess.call (.set record.id record)
      return true
    | some e =>
      if putMayWrite (some e.status) (some e.version) record.status record.version then do
        StoreAccess.call (.set record.id (InMemoryJobStore.updated e record))
        return true
      else return false
  | .get jobId      => StoreAccess.call (.get jobId)
  | .delete jobId   => StoreAccess.call (.pop jobId)
  | .list channelId => do
    let records ← StoreAccess.call .values
    match channelId with
    | none   => return records
    | some c => return records.filter fun r => decide (r.channelId = c)
  | .clear          => StoreAccess.call .clear

/-- The call as one step of the store. -/
def StoreCall.apply : (c : StoreCall) → InMemoryJobStore → c.Ans × InMemoryJobStore
  | .put record,    m => m.put record
  | .get jobId,     m => (m.get jobId, m)
  | .delete jobId,  m => ((), m.delete jobId)
  | .list channelId, m => (m.list channelId, m)
  | .clear,         m => ((), m.clear)

def StoreCall.Spec (c : StoreCall) (m : InMemoryJobStore) (r : Except Exn c.Ans) (m' : InMemoryJobStore) : Prop :=
  r = .ok (c.apply m).1 ∧ m' = (c.apply m).2

/-- **Each method's body, alone, is its call.** -/
theorem StoreCall.run_body (c : StoreCall) (m : InMemoryJobStore) :
    c.body.run (fun _ : Unit => StoreAccess.exec) (fun _ => ()) m.store = (.ok (c.apply m).1, (c.apply m).2.store) := by
  cases c with
  | put record =>
    simp only [apply, InMemoryJobStore.put, InMemoryJobStore.get]
    cases hd : m.store.get record.id with
    | none =>
      simp only [body, StoreAccess.call, Prog.call, bind, Prog.bind, Prog.run, StoreAccess.exec, hd]
      rfl
    | some e =>
      simp only [body, StoreAccess.call, Prog.call, bind, Prog.bind, Prog.run, StoreAccess.exec, hd]
      split
      · rfl
      · rfl
  | get jobId => rfl
  | delete jobId => rfl
  | list channelId => cases channelId <;> rfl
  | clear => rfl

theorem StoreCall.implements :
    Implements (fun a d r d' => StoreAccess.exec a d = (r, d')) StoreCall.body (fun m d => d = InMemoryJobStore.store m)
      StoreCall.Spec := by
  rintro c m d r d' rfl halone
  have hrun := Prog.alone_iff.1 halone
  rw [c.run_body m] at hrun
  obtain ⟨rfl, rfl⟩ := Prod.mk.inj hrun
  exact ⟨_, ⟨rfl, rfl⟩, rfl⟩

/-! ## Any threads -/

section
variable {ι ε α : Type} [DecidableEq ι]

/-- Threads with the store, each a program of calls. -/
abbrev StoreClients (ι ε α : Type) := Callers ι StoreCall.Ans Exn ε α InMemoryJobStore

/-- The threads at their accesses to the dictionary. -/
abbrev StoreThreads (ι ε α : Type) :=
  Conf ι (Locked StoreAccess) (Locked.Res StoreAccess.Res) ε α (Guarded ι (Py.Dict String JobRecord))

def accessSem : Sem ι (Locked StoreAccess) (Locked.Res StoreAccess.Res) (Guarded ι (Py.Dict String JobRecord)) :=
  lockSem fun a d r d' => StoreAccess.exec a d = (r, d')

/-- Each call is one step. -/
def callSem : Sem ι StoreCall (fun c => Except Exn c.Ans) InMemoryJobStore := fun _ c m r m' => c.Spec m r m'

/-- The threads have done what calls of one step each lead to: every finished thread has the same result, and while nobody
is inside a method the dictionary has the same records. -/
structure StoreThreads.AsCalls (c : StoreThreads ι ε α) (d : StoreClients ι ε α) : Prop where
  results : ∀ i r, (c.prog i).finished = some r → (d.prog i).finished = some r
  records : c.state.2 = none → c.state.1 = d.state.store

/-- **The store's calls are atomic**: however the accesses of any threads interleave, they have done what calls of one step
each lead to, and while a thread has not finished some thread can go on. -/
theorem store_calls_atomic (clients : StoreClients ι ε α) {c : StoreThreads ι ε α}
    (hr : Conf.Runs accessSem (spread StoreCall.body clients clients.state.store) c) :
    (∃ d, Conf.Runs callSem clients d ∧ c.AsCalls d) ∧
      ((∃ i, (c.prog i).finished = none) → ∃ j c', Conf.Step accessSem j c c') := by
  obtain ⟨d, hd, hfollows⟩ := Conc.Monitor.refines StoreCall.implements rfl hr
  constructor
  · exact ⟨d, hd, fun i r hf => hfollows.finished hf, hfollows.rep⟩
  · rintro ⟨i, hi⟩
    exact Conc.Monitor.progress (fun a s => ⟨_, _, rfl⟩) hfollows hi

end

/-- A first record, and the same job InProgress. -/
def firstPuts (i : Nat) : StoreCall := .put
  { id := "j", category := none, channelId := "default", created := "t0", updated := "t0",
    status := if i = 0 then Status.scheduled.value else Status.inProgress.value }

/-- Two puts of one job, access by access: the second updates the first one's record. -/
theorem store_calls_atomic_puts :
    let clients : StoreClients Nat Exn Bool := ⟨fun i => (Prog.call (firstPuts i)).bind Prog.ofExcept, .empty⟩
    ∃ c : StoreThreads Nat Exn Bool, Conf.Runs accessSem (spread StoreCall.body clients clients.state.store) c ∧
      (c.state.1.get "j").map JobRecord.version = some 2 ∧ ∃ d, Conf.Runs callSem clients d ∧ c.AsCalls d := by
  intro clients
  have hrun : ∃ c, Conc.Monitor.play StoreAccess.exec [0, 0, 0, 0, 1, 1, 1, 1]
      (spread StoreCall.body clients clients.state.store) = some c ∧
        (c.state.1.get "j").map JobRecord.version = some 2 := ⟨_, rfl, by decide⟩
  obtain ⟨c, hplay, hversion⟩ := hrun
  have hr := Conc.Monitor.runs_of_play _ hplay
  exact ⟨c, hr, hversion, (store_calls_atomic clients hr).1⟩

end Pypepper
