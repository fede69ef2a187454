import Pypepper.Lazy
/-!
# MadeOnce — the process-wide objects

What the process makes on first use.  The `__new__` of `ChannelManager`, `Dispatcher`, `ExecutorRegistry`,
`SSEConnectionManager` and `SSESecurityManager` holds the class's `_init_lock`, and so do `ChannelManager.new` and
`CacheSet.new` with the object's lock, each for its key; `_soft_timeout_pool` looks before it takes its lock.  Under any
interleaving each is made once and everybody gets it (`made_once`).  `Loader.__new__` has no lock, and two threads may get
two loaders (`loader_made_twice`).
-/
namespace Pypepper
namespace MadeOnce

open Conc (Prog Conf Locked)
open Conc.Lazy (Access Slots SlotProg SlotState accessSem access ensure checked Sound Way)

abbrev Make (κ : Type) := SlotProg κ Empty (Option Nat)

/-! The classes, each with its own slot `_instance`. -/

def ChannelManager.newInstance : Make Unit := ensure true ()

def Dispatcher.newInstance : Make Unit := ensure true ()

def ExecutorRegistry.newInstance : Make Unit := ensure true ()

def SSEConnectionManager.newInstance : Make Unit := ensure true ()

def SSESecurityManager.newInstance : Make Unit := ensure true ()

/-- `_soft_timeout_pool`. -/
def softTimeoutPool : Make Unit := checked ()

/-- `ChannelManager.new` as far as it makes channels; the bound of a channel that exists is only logged. -/
def ChannelManager.newChannel (key : String) : Make String := ensure false key

/-- `CacheSet.new`; the parameters of a cache that exists are ignored. -/
def CacheSet.new (name : String) : Make String := ensure false name

/-- `Loader.__new__`: the same without a lock. -/
def Loader.newInstance : SlotProg Unit Empty (Option Nat) := do
  let found ← access (.read ())
  if found.isNone then do
    let o ← access (.make ())
    access (.write () o)
  access (.read ())

section
variable {ι κ : Type} [DecidableEq κ] [DecidableEq ι]

/-- Each thread runs its program, none having run before. -/
def start (prog : ι → Make κ) : Conf ι (Locked (Access κ)) (Locked.Res Access.Res) Empty (Option Nat) (SlotState ι κ) :=
  ⟨prog, {}, none⟩

/-- Those that have finished got one object each, made for what they asked for; who asked for the same thing got the same
object, and nothing was made twice. -/
structure OneEach (key : ι → κ)
    (c : Conf ι (Locked (Access κ)) (Locked.Res Access.Res) Empty (Option Nat) (SlotState ι κ)) : Prop where
  agree   : ∀ i j r r', key i = key j → (c.prog i).finished = some r → (c.prog j).finished = some r' → r = r'
  answers : ∀ i r, (c.prog i).finished = some r → ∃ o, r = .ok (some o) ∧ c.state.1.made[o]? = some (key i)
  once    : c.state.1.made.Nodup

theorem oneEach_of_ways (way : ι → Way) (key : ι → κ)
    {c : Conf ι (Locked (Access κ)) (Locked.Res Access.Res) Empty (Option Nat) (SlotState ι κ)}
    (hr : Conf.Runs accessSem (start fun i => (way i).prog (key i)) c) : OneEach key c := by
  obtain ⟨hgot, hsound⟩ := Conc.Lazy.once way key Conc.Lazy.sound_new hr
  refine ⟨fun i j r r' hkey hi hj => ?_, fun i r hi => ?_, hsound.once⟩
  · obtain ⟨o, rfl, ho⟩ := hgot i r hi
    obtain ⟨o', rfl, ho'⟩ := hgot j r' hj
    rw [hkey, ho', Option.some.injEq] at ho
    rw [ho]
  · obtain ⟨o, rfl, ho⟩ := hgot i r hi
    exact ⟨o, rfl, hsound.inSlot _ o ho⟩

/-- **Each process-wide object is made once**, in any number of threads and any order of their accesses: the instance of a
class, the timeout pool, the channel of a key and the cache of a name. -/
theorem made_once :
    (∀ prog ∈ [ChannelManager.newInstance, Dispatcher.newInstance, ExecutorRegistry.newInstance,
        SSEConnectionManager.newInstance, SSESecurityManager.newInstance, softTimeoutPool],
      ∀ c, Conf.Runs accessSem (start fun _ : ι => prog) c → OneEach (fun _ => ()) c) ∧
    ∀ (key : ι → String) (c), (Conf.Runs accessSem (start fun i => ChannelManager.newChannel (key i)) c ∨
      Conf.Runs accessSem (start fun i => CacheSet.new (key i)) c) → OneEach key c := by
  constructor
  · intro prog hprog c hr
    have hway : ∃ way : Way, prog = way.prog () := by
      simp only [List.mem_cons, List.not_mem_nil, or_false] at hprog
      rcases hprog with rfl | rfl | rfl | rfl | rfl | rfl
      · exact ⟨.locked true, rfl⟩
      · exact ⟨.locked true, rfl⟩
      · exact ⟨.locked true, rfl⟩
      · exact ⟨.locked true, rfl⟩
      · exact ⟨.locked true, rfl⟩
      · exact ⟨.checked, rfl⟩
    obtain ⟨way, rfl⟩ := hway
    exact oneEach_of_ways (fun _ => way) (fun _ => ()) hr
  · rintro key c (hr | hr)
    · exact oneEach_of_ways (fun _ => .locked false) key hr
    · exact oneEach_of_ways (fun _ => .locked false) key hr

end

/-- Two threads at the loader both find no instance, and each gets the one it made. -/
theorem loader_made_twice : ∃ c, Conf.Runs accessSem (start fun _ : Bool => Loader.newInstance) c ∧
    (c.prog false).finished = some (.ok (some 0)) ∧ (c.prog true).finished = some (.ok (some 1)) := by
  have hrun : ∃ c, Conc.Monitor.play Access.exec [false, true, false, false, false, true, true, true]
      (start fun _ : Bool => Loader.newInstance) = some c ∧
      (c.prog false).finished = some (.ok (some 0)) ∧ (c.prog true).finished = some (.ok (some 1)) := ⟨_, rfl, rfl, rfl⟩
  obtain ⟨c, hplay, hres⟩ := hrun
  exact ⟨c, Conc.Monitor.runs_of_play _ hplay, hres⟩

/-- Two threads ask for the pool, the second while the first is inside: both get it. -/
theorem made_once_pool : ∃ c, Conf.Runs accessSem (start fun _ : Bool => softTimeoutPool) c ∧
    (c.prog true).finished = some (.ok (some 0)) ∧ OneEach (fun _ => ()) c := by
  have hrun : ∃ c, Conc.Monitor.play Access.exec
      [false, true, false, false, false, false, false, false, true, true, true, true]
      (start fun _ : Bool => softTimeoutPool) = some c ∧ (c.prog true).finished = some (.ok (some 0)) := ⟨_, rfl, rfl⟩
  obtain ⟨c, hplay, hres⟩ := hrun
  have hr := Conc.Monitor.runs_of_play _ hplay
  exact ⟨c, hr, hres, made_once.1 _ (by simp) c hr⟩

end MadeOnce
end Pypepper
