import Pypepper.ChannelManager
import Pypepper.Monitor
/-!
# LockedManager — the channel registry in many threads

`ChannelManager` of `scheduler/channel.py` below its calls: a method checks its arguments, takes `_lock`, reads and writes
`_job_channel` one access at a time, and releases the lock.  However the accesses of any threads interleave, the registry is
a finite map whose calls take effect at once, but for the `KeyError` of `remove` on a key that is not bound while another is
(`registry_linearizable`).
-/
namespace Pypepper

open Conc (Prog Conf Sem Locked Guarded lockSem Implements)
open Conc.Monitor (Callers spread)

namespace Registry

/-- A key that a method has checked. -/
abbrev Key := { key : String // key ≠ "" }

/-- What a method does inside the lock; `available` is `new`. -/
inductive Op where
  | put (key : Key) (chan : ChannelObject)
  | get (key : Key)
  | remove (key : Key)
  | new (key : Key) (maxsize : Int)

/-- `if not key: raise ValueError("invalid key")`. -/
def checkKey (key : String) : Except ManagerError Key :=
  if h : key = "" then .error (.value "invalid key") else .ok ⟨key, h⟩

/-- A call's checks, before the lock. -/
def checked : ManagerCall → Except ManagerError Op
  | .put key chan          => do
    let key ← checkKey key
    match chan with
    | none   => .error (.value "invalid channel")
    | some c => .ok (.put key c)
  | .get key               => do return .get (← checkKey key)
  | .remove key            => do return .remove (← checkKey key)
  | .new key maxsize       => do return .new (← checkKey key) maxsize
  | .available key maxsize => do return .new (← checkKey key) maxsize

/-- One access to the dictionary, the making of a channel, or a line of the debug log. -/
inductive Access where
  | len
  | get (key : String)
  | set (key : String) (chan : ChannelObject)
  | pop (key : String)
  | make (maxsize : Int)
  | debug (key : String) (had asked : Int)

@[reducible] def Access.Res : Access → Type
  | .len         => Nat
  | .get _       => Option ChannelObject
  | .set _ _     => Unit
  | .pop _       => Option ChannelObject
  | .make _      => ChannelObject
  | .debug _ _ _ => Unit

def Access.exec : (a : Access) → Registry → a.Res × Registry
  | .len,                 w => (w.manager.jobChannel.entries.length, w)
  | .get key,             w => (w.manager.jobChannel.get key, w)
  | .set key chan,        w => ((), ⟨{ w.manager with jobChannel := w.manager.jobChannel.set key chan },
      max w.objects (chan.ref + 1)⟩)
  | .pop key,             w =>
    match w.manager.jobChannel.get key with
    | none      => (none, w)
    | some chan => (some chan, { w with manager := { w.manager with jobChannel := w.manager.jobChannel.pop key } })
  | .make maxsize,        w => (⟨w.objects, maxsize⟩, { w with objects := w.objects + 1 })
  | .debug key had asked, w => ((), { w with manager := { w.manager with debug := w.manager.debug ++ [(key, had, asked)] } })

abbrev AccessProg := Prog Access Access.Res ManagerError

def Access.call (a : Access) : AccessProg a.Res := Prog.call a

/-- A method's statements between taking the lock and releasing it. -/
def Op.body : Op → AccessProg (Option ChannelObject)
  | .put key chan    => do
    Access.call (.set key chan)
    return none
  | .get key         => do
    if (← Access.call .len) = 0 then return none
    else Access.call (.get key)
  | .remove key      => do
    if (← Access.call .len) = 0 then return none
    else
      match ← Access.call (.pop key) with
      | none      => Prog.raise (.key key)
      | some chan => return some chan
  | .new key maxsize => do
    match ← Access.call (.get key) with
    | none      => do
      let chan ← Access.call (.make maxsize)
      Access.call (.set key chan)
      return some chan
    | some chan => do
      if maxsize ≠ 0 ∧ chan.maxsize ≠ maxsize then Access.call (.debug key chan.maxsize maxsize)
      return some chan

/-! ## As a map -/

/-- A finite map of channels, and a bound of the identities there are. -/
structure MapState where
  map     : String → Option ChannelObject
  objects : Nat

def Op.call : Op → ManagerCall
  | .put key chan    => .put key (some chan)
  | .get key         => .get key
  | .remove key      => .remove key
  | .new key maxsize => .new key maxsize

/-- A method as one call of the map; `remove` raises where its key alone is missing. -/
def Op.Spec (o : Op) (t : MapState) (r : Except ManagerError (Option ChannelObject)) (t' : MapState) : Prop :=
  t.objects ≤ t'.objects ∧
    (MapCall (fun chan => t.objects ≤ chan.ref ∧ chan.ref < t'.objects) t.map o.call r t'.map ∨
      ∃ key : Key, o = .remove key ∧ t.map key = none ∧ (∃ j, (t.map j).isSome) ∧ r = .error (.key key) ∧ t' = t)

/-- The method's sequential form, and the objects there are after it. -/
def Op.apply : Op → Registry → Except ManagerError (Option ChannelObject) × Registry
  | .put key chan,    w => (.ok none, ⟨(w.manager.put key (some chan)).2, max w.objects (chan.ref + 1)⟩)
  | .get key,         w => (w.manager.get key, w)
  | .remove key,      w => ((w.manager.remove key).1, { w with manager := (w.manager.remove key).2 })
  | .new key maxsize, w => ((w.manager.new key maxsize w.objects).1.map some,
      ⟨(w.manager.new key maxsize w.objects).2, (w.manager.map key).elim (w.objects + 1) fun _ => w.objects⟩)

/-- **Each body, alone, is its method.** -/
theorem Op.run_body (o : Op) (w : Registry) : o.body.run (fun _ : Unit => Access.exec) (fun _ => ()) w = o.apply w := by
  cases o with
  | put key chan =>
    simp only [apply, ChannelManager.put, if_neg key.2]
    rfl
  | get key =>
    simp only [apply, ChannelManager.get, if_neg key.2]
    by_cases he : w.manager.jobChannel.entries.length = 0
    · simp only [body, Access.call, Prog.call, bind, Prog.bind, Prog.run, Access.exec, he, ↓reduceIte]
      rfl
    · simp only [body, Access.call, Prog.call, bind, Prog.bind, Prog.run, Access.exec, he, ↓reduceIte]
  | remove key =>
    simp only [apply, ChannelManager.remove, if_neg key.2]
    by_cases he : w.manager.jobChannel.entries.length = 0
    · simp only [body, Access.call, Prog.call, bind, Prog.bind, Prog.run, Access.exec, he, ↓reduceIte]
      rfl
    · simp only [body, Access.call, Prog.call, bind, Prog.bind, Prog.run, Access.exec, he, ↓reduceIte]
      cases w.manager.jobChannel.get key <;> rfl
  | new key maxsize =>
    simp only [apply, ChannelManager.new, ChannelManager.map, if_neg key.2]
    cases hget : w.manager.jobChannel.get key with
    | none =>
      simp only [body, Access.call, Prog.call, bind, Prog.bind, Prog.run, Access.exec, hget, Nat.max_self]
      rfl
    | some chan =>
      simp only [body, Access.call, Prog.call, bind, Prog.bind, Prog.run, Access.exec, hget]
      by_cases hmax : maxsize ≠ 0 ∧ chan.maxsize ≠ maxsize
      · rw [if_pos hmax, if_pos hmax]
        rfl
      · rw [if_neg hmax, if_neg hmax]
        rfl

/-- The map a registry holds. -/
def mapState (w : Registry) : MapState := ⟨w.manager.map, w.objects⟩

/-- **Each method is one call of the map.** -/
theorem Op.spec_apply (o : Op) (w : Registry) : o.Spec w.mapState (o.apply w).1 (o.apply w).2.mapState := by
  cases o with
  | put key chan =>
    obtain ⟨-, hmap⟩ := w.manager.put_some key.2 chan
    refine ⟨Nat.le_max_left _ _, .inl ?_⟩
    simp only [apply, mapState, call, hmap]
    exact .put key.2
  | get key =>
    refine ⟨Nat.le_refl _, .inl ?_⟩
    simp only [apply, mapState, call, w.manager.get_eq key.2]
    exact .get key.2
  | remove key =>
    by_cases h : w.manager.OthersOnly key
    · refine ⟨Nat.le_refl _, .inr ⟨key, rfl, h.1, h.2, ?_, ?_⟩⟩
      · simp only [apply, w.manager.remove_raises key.2 h]
      · simp only [apply, w.manager.remove_raises key.2 h]
    · obtain ⟨hanswer, hmap⟩ := w.manager.remove_eq key.2 h
      refine ⟨Nat.le_refl _, .inl ?_⟩
      simp only [apply, mapState, call, hanswer, hmap]
      exact .remove key.2
  | new key maxsize =>
    rcases w.manager.new_eq key.2 maxsize w.objects with ⟨chan, hbound, hanswer, hmap⟩ | ⟨hnone, hanswer, hmap⟩
    · refine ⟨?_, .inl ?_⟩
      · simp only [apply, mapState, hbound, Option.elim_some, Nat.le_refl]
      · simp only [apply, mapState, call, hanswer, hmap, hbound]
        exact .bound (.inl rfl) key.2 hbound
    · refine ⟨?_, .inl ?_⟩
      · simp only [apply, mapState, hnone, Option.elim_none, Nat.le_succ]
      · simp only [apply, mapState, call, hanswer, hmap, hnone]
        exact .fresh (.inl rfl) key.2 hnone ⟨Nat.le_refl _, Nat.lt_succ_self _⟩

theorem Op.implements :
    Implements (fun a w r w' => Access.exec a w = (r, w')) Op.body (fun t w => t = mapState w) Op.Spec := by
  rintro o t w r w' rfl halone
  have hrun := Prog.alone_iff.1 halone
  rw [o.run_body w] at hrun
  have hspec := o.spec_apply w
  rw [hrun] at hspec
  exact ⟨_, hspec, rfl⟩

/-! ## Any threads -/

abbrev Answer := Except ManagerError (Option ChannelObject)

section
variable {ι ε α : Type} [DecidableEq ι]

/-- A thread's program of calls, each checked before the lock: what a check raises needs no lock. -/
def atLock : Prog ManagerCall (fun _ => Answer) ε α → Prog Op (fun _ => Answer) ε α
  | .ret a   => .ret a
  | .raise e => .raise e
  | .act c k =>
    match checked c with
    | .error e => atLock (k (.error e))
    | .ok o    => .act o fun r => atLock (k r)

/-- Threads with the map, each a program of calls of one step. -/
abbrev MapClients (ι ε α : Type) := Callers ι (fun _ : Op => Option ChannelObject) ManagerError ε α MapState

/-- The threads at their accesses to the dictionary. -/
abbrev Threads (ι ε α : Type) := Conf ι (Locked Access) (Locked.Res Access.Res) ε α (Guarded ι Registry)

def accessSem : Sem ι (Locked Access) (Locked.Res Access.Res) (Guarded ι Registry) :=
  lockSem fun a w r w' => Access.exec a w = (r, w')

/-- Each call is one step of the map. -/
def mapSem : Sem ι Op (fun _ => Answer) MapState := fun _ o t r t' => o.Spec t r t'

/-- **The registry is linearizable**: whatever calls any threads make and however their accesses interleave, the finished
threads have the answers of calls of one step on a finite map of channels, and while nobody is inside a method the registry
holds that map; and while a thread has not finished some thread can go on. -/
theorem registry_linearizable (clients : ι → Prog ManagerCall (fun _ => Answer) ε α) (w : Registry) {c : Threads ι ε α}
    (hr : Conf.Runs accessSem (spread Op.body (⟨fun i => atLock (clients i), w.mapState⟩ : MapClients ι ε α) w) c) :
    (∃ d : MapClients ι ε α, Conf.Runs mapSem ⟨fun i => atLock (clients i), w.mapState⟩ d ∧
      (∀ i r, (c.prog i).finished = some r → (d.prog i).finished = some r) ∧
      (c.state.2 = none → d.state = c.state.1.mapState)) ∧
    ((∃ i, (c.prog i).finished = none) → ∃ j c', Conf.Step accessSem j c c') := by
  obtain ⟨d, hd, hfollows⟩ := Conc.Monitor.refines Op.implements rfl hr
  constructor
  · exact ⟨d, hd, fun i r hf => hfollows.finished hf, hfollows.rep⟩
  · rintro ⟨i, hi⟩
    exact Conc.Monitor.progress (fun a s => ⟨_, _, rfl⟩) hfollows hi

end

/-- Thread 0 asks for a channel, any other removes it. -/
def makeOrRemove (i : Nat) : Prog ManagerCall (fun _ => Answer) ManagerError (Option ChannelObject) :=
  (Prog.call (if i = 0 then .available "k" 3 else .remove "k")).bind Prog.ofExcept

/-- Thread 1 removes the channel that thread 0 made. -/
theorem registry_linearizable_remove :
    let clients : MapClients Nat ManagerError (Option ChannelObject) := ⟨fun i => atLock (makeOrRemove i), mapState {}⟩
    ∃ c : Threads Nat ManagerError (Option ChannelObject), Conf.Runs accessSem (spread Op.body clients {}) c ∧
      ∃ d, Conf.Runs mapSem clients d ∧ (d.prog 0).finished = some (.ok (some ⟨0, 3⟩)) ∧
        (d.prog 1).finished = some (.ok (some ⟨0, 3⟩)) := by
  intro clients
  have hrun : ∃ c, Conc.Monitor.play Access.exec [0, 0, 0, 0, 0, 1, 1, 1, 1] (spread Op.body clients {}) = some c ∧
      (c.prog 0).finished = some (.ok (some ⟨0, 3⟩)) ∧ (c.prog 1).finished = some (.ok (some ⟨0, 3⟩)) :=
    ⟨_, rfl, rfl, rfl⟩
  obtain ⟨c, hplay, h0, h1⟩ := hrun
  have hr := Conc.Monitor.runs_of_play _ hplay
  obtain ⟨⟨d, hd, hsame, -⟩, -⟩ := registry_linearizable makeOrRemove {} hr
  exact ⟨c, hr, d, hd, hsame 0 _ h0, hsame 1 _ h1⟩

end Registry
end Pypepper
