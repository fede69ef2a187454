import Pypepper.Job
/-!
# ChannelReceive — senders and receivers on one event loop

`Channel.send`, `receive` and `request_stop` of `scheduler/channel.py`.  A send and a stop are one step each.  A `receive`
races a get task against a stop task in `asyncio.wait`, cancels the one that has not ended, awaits it, and returns what the
get took or what is still queued.  The tasks run on their own: which of them, and which of the calls, runs next is left to
the schedule, and a caller may cancel its call wherever that is suspended.

`asyncio.wait` does not cancel what it waits for, so a call that is cancelled there leaves its tasks behind.  A cancel that
arrives while the call awaits the cancelled sibling is suppressed, and the call goes on.  `step_moves` says everything a step
can do.
-/
namespace Pypepper

/-- `get_nowait`, with nothing for `QueueEmpty`. -/
def Channel.getNowait (ch : Channel) : Option Nat × Channel :=
  match ch.queue with
  | []     => (none, ch)
  | n :: q => (some n, { ch with queue := q })

theorem Channel.getNowait_nil {ch : Channel} (h : ch.queue = []) : ch.getNowait = (none, ch) := by
  simp only [getNowait, h]

theorem Channel.getNowait_cons {ch : Channel} {n : Nat} {q : List Nat} (h : ch.queue = n :: q) :
    ch.getNowait = (some n, { ch with queue := q }) := by
  simp only [getNowait, h]

namespace Chan

/-- A task of the loop.  A cancel reaches a pending task the next time it runs, and finds nothing to cancel in one that has
ended. -/
inductive LoopTask (α : Type) where
  | pending
  | cancelling
  | done (a : α)
  | cancelled
  deriving DecidableEq

namespace LoopTask

variable {α : Type}

def isDone : LoopTask α → Bool
  | done _    => true
  | cancelled => true
  | _         => false

def cancel : LoopTask α → LoopTask α
  | pending => cancelling
  | t       => t

/-- The result of a task that is done and was not cancelled. -/
def result : LoopTask α → Option α
  | done a => some a
  | _      => none

/-- `Queue.get` takes the first value, as soon as there is one. -/
def runGet (ch : Channel) : LoopTask Nat → Option (LoopTask Nat × Channel)
  | pending    =>
    match ch.queue with
    | []     => none
    | n :: q => some (done n, { ch with queue := q })
  | cancelling => some (cancelled, ch)
  | _          => none

/-- `Event.wait` ends once the event is set. -/
def runStop (stopped : Bool) : LoopTask Unit → Option (LoopTask Unit)
  | pending    => if stopped then some (done ()) else none
  | cancelling => some cancelled
  | _          => none

end LoopTask

/-- What a call is suspended in: `asyncio.wait`, or the await of the sibling it has cancelled. -/
inductive Await where
  | wait
  | getTask
  | stopTask
  deriving DecidableEq

/-- A call of `receive`: suspended, returned, or ended by its caller's cancel with its tasks left as they are. -/
inductive Receive where
  | live (at_ : Await) (getTask : LoopTask Nat) (stopTask : LoopTask Unit)
  | returned (item : Option Nat)
  | cancelled (getTask : LoopTask Nat) (stopTask : LoopTask Unit)

namespace Receive

def isLive : Receive → Bool
  | live _ _ _ => true
  | _          => false

def isCancelled : Receive → Bool
  | cancelled _ _ => true
  | _             => false

def held : Receive → List Nat
  | live _ get _ => get.result.toList
  | _            => []

def returned? : Receive → List Nat
  | returned item => item.toList
  | _             => []

/-- What the task of a cancelled call took. -/
def lost : Receive → List Nat
  | cancelled get _ => get.result.toList
  | _               => []

end Receive

inductive ChannelStep (V : Type) where
  | send (value : Option V)
  | requestStop
  | receive
  | runGet (i : Nat)
  | runStop (i : Nat)
  | resume (i : Nat)
  | cancel (i : Nat)

/-- The channel and the calls of `receive`, in the order they were made.  `sent` are the values that a send answered `ok`
for, where nothing is Python's `None`; the queue holds their places in it. -/
structure ChannelState (V : Type) where
  chan  : Channel
  sent  : List (Option V) := []
  calls : List Receive := []

namespace ChannelState

variable {V : Type}

def new (maxsize : Nat) : ChannelState V := { chan := { queue := [], maxsize := maxsize } }

variable (s : ChannelState V)

def setCall (i : Nat) (c : Receive) : ChannelState V := { s with calls := s.calls.set i c }

/-- `receive` up to its first suspension. -/
def receive : ChannelState V :=
  if s.chan.stop then
    let (item, ch) := s.chan.getNowait
    { s with chan := ch, calls := s.calls ++ [.returned item] }
  else { s with calls := s.calls ++ [.live .wait .pending .pending] }

/-- `receive` after its last suspension. -/
def finish (i : Nat) (getTask : LoopTask Nat) : ChannelState V :=
  match getTask.result with
  | some n => s.setCall i (.returned (some n))
  | none   =>
    let (item, ch) := s.chan.getNowait
    { s with chan := ch }.setCall i (.returned item)

/-- A call goes on: from `asyncio.wait` once a task has ended, where it cancels the other and awaits it, and from that await
once that task has ended. -/
def resume (i : Nat) : Option (ChannelState V) :=
  match s.calls[i]? with
  | some (.live .wait get stop)     =>
    if get.isDone = false ∧ stop.isDone = false then none
    else if get.isDone = false then some (s.setCall i (.live .getTask get.cancel stop))
    else if stop.isDone = false then some (s.setCall i (.live .stopTask get stop.cancel))
    else some (s.finish i get)
  | some (.live .getTask get _)     => if get.isDone then some (s.finish i get) else none
  | some (.live .stopTask get stop) => if stop.isDone then some (s.finish i get) else none
  | _                               => none

/-- The caller's cancel.  In the await of the sibling it goes to that task, which is cancelled already, and the
`CancelledError` that comes back is suppressed. -/
def cancel (i : Nat) : Option (ChannelState V) :=
  match s.calls[i]? with
  | some (.live .wait get stop) => some (s.setCall i (.cancelled get stop))
  | some (.live _ _ _)          => some s
  | _                           => none

def step : ChannelStep V → Option (ChannelState V)
  | .send value  =>
    match s.chan.send s.sent.length with
    | (.ok, ch) => some { s with chan := ch, sent := s.sent ++ [value] }
    | (_, ch)   => some { s with chan := ch }
  | .requestStop => some { s with chan := { s.chan with stop := true } }
  | .receive     => some s.receive
  | .runGet i    =>
    match s.calls[i]? with
    | some (.live at_ get stop)    =>
      (get.runGet s.chan).map (fun p => { s with chan := p.2 }.setCall i (.live at_ p.1 stop))
    | some (.cancelled get stop)   =>
      (get.runGet s.chan).map (fun p => { s with chan := p.2 }.setCall i (.cancelled p.1 stop))
    | _                            => none
  | .runStop i   =>
    match s.calls[i]? with
    | some (.live at_ get stop)    => (stop.runStop s.chan.stop).map (fun t => s.setCall i (.live at_ get t))
    | some (.cancelled get stop)   => (stop.runStop s.chan.stop).map (fun t => s.setCall i (.cancelled get t))
    | _                            => none
  | .resume i    => s.resume i
  | .cancel i    => s.cancel i

def held : List Nat := s.calls.flatMap Receive.held

def returned : List Nat := s.calls.flatMap Receive.returned?

def lost : List Nat := s.calls.flatMap Receive.lost

/-- **Conservation**: every value, other than `None`, that was sent is in one place: in the queue, held by a call that has
not been cancelled, or returned by a call. -/
def Conserved : Prop :=
  ∀ n v, s.sent[n]? = some (some v) → s.chan.queue.count n + s.held.count n + s.returned.count n = 1

/-- What a step takes away from every call: the value of a get task whose call is cancelled in `asyncio.wait`, and the value
that a get task takes whose call was cancelled there before. -/
def loses : ChannelStep V → List Nat
  | .cancel i =>
    match s.calls[i]? with
    | some (.live .wait get _)     => get.result.toList
    | _                            => []
  | .runGet i =>
    match s.calls[i]? with
    | some (.cancelled .pending _) => s.chan.queue.head?.toList
    | _                            => []
  | _         => []

/-- A step that takes no value away, other than `None`. -/
def Spares (st : ChannelStep V) : Prop := ∀ n ∈ s.loses st, ∀ v, s.sent[n]? ≠ some (some v)

end ChannelState

/-- **A run** of the loop, with the state before each step. -/
inductive ChannelRun {V : Type} (maxsize : Nat) : List (ChannelState V × ChannelStep V) → ChannelState V → Prop
  | start : ChannelRun maxsize [] (ChannelState.new maxsize)
  | step {hist : List (ChannelState V × ChannelStep V)} {s s' : ChannelState V} {st : ChannelStep V} :
      ChannelRun maxsize hist s → s.step st = some s' → ChannelRun maxsize (hist ++ [(s, st)]) s'

/-! ## What a step does -/

/-- A new call: it waits, or on a stopped channel it takes what is queued. -/
inductive Begins : List Nat → Receive → List Nat → Prop
  | wait {q : List Nat} : Begins q (.live .wait .pending .pending) q
  | drain {n : Nat} {q : List Nat} : Begins (n :: q) (.returned (some n)) q
  | empty : Begins [] (.returned none) []

/-- A step of a call or of one of its tasks, with what is lost by it, and the queue and the call before and after. -/
inductive Turn {V : Type} (i : Nat) : ChannelStep V → List Nat → List Nat → Receive → List Nat → Receive → Prop
  | still {st : ChannelStep V} {q : List Nat} {c c' : Receive} : c'.isLive = c.isLive → c'.isCancelled = c.isCancelled →
      c'.held = c.held → c'.returned? = c.returned? → c'.lost = c.lost → Turn i st [] q c q c'
  | take {n : Nat} {q : List Nat} {a : Await} {stop : LoopTask Unit} :
      Turn i (.runGet i) [] (n :: q) (.live a .pending stop) q (.live a (.done n) stop)
  | takeLeft {n : Nat} {q : List Nat} {stop : LoopTask Unit} :
      Turn i (.runGet i) [n] (n :: q) (.cancelled .pending stop) q (.cancelled (.done n) stop)
  | hand {n : Nat} {q : List Nat} {a : Await} {stop : LoopTask Unit} :
      Turn i (.resume i) [] q (.live a (.done n) stop) q (.returned (some n))
  | drain {n : Nat} {q : List Nat} {a : Await} {get : LoopTask Nat} {stop : LoopTask Unit} : get.result = none →
      Turn i (.resume i) [] (n :: q) (.live a get stop) q (.returned (some n))
  | empty {a : Await} {get : LoopTask Nat} {stop : LoopTask Unit} : get.result = none →
      Turn i (.resume i) [] [] (.live a get stop) [] (.returned none)
  | cancel {q : List Nat} {get : LoopTask Nat} {stop : LoopTask Unit} :
      Turn i (.cancel i) get.result.toList q (.live .wait get stop) q (.cancelled get stop)

/-- **Everything a step can do.** -/
inductive Moves {V : Type} (s : ChannelState V) (st : ChannelStep V) : ChannelState V → Prop
  | sent (v : Option V) : s.loses st = [] → s.chan.stop = false → Moves s st
      { s with chan := { s.chan with queue := s.chan.queue ++ [s.sent.length] }, sent := s.sent ++ [v] }
  | quiet (stop : Bool) : s.loses st = [] → (s.chan.stop = true → stop = true) →
      Moves s st { s with chan := { s.chan with stop := stop } }
  | begins {c : Receive} {q : List Nat} : s.loses st = [] → st = .receive → Begins s.chan.queue c q →
      Moves s st { s with chan := { s.chan with queue := q }, calls := s.calls ++ [c] }
  | turn {i : Nat} {c c' : Receive} {q : List Nat} : s.calls[i]? = some c → Turn i st (s.loses st) s.chan.queue c q c' →
      Moves s st { s with chan := { s.chan with queue := q }, calls := s.calls.set i c' }

section
variable {V : Type} {s s' : ChannelState V}

theorem moves_send {v : Option V} (h : s.step (.send v) = some s') : Moves s (.send v) s' := by
  simp only [ChannelState.step, Channel.send] at h
  by_cases hstop : s.chan.stop = true
  · rw [if_pos hstop] at h
    cases h
    exact .quiet s.chan.stop rfl id
  · rw [if_neg hstop] at h
    by_cases hfull : s.chan.full = true
    · rw [if_pos hfull] at h
      cases h
      exact .quiet s.chan.stop rfl id
    · rw [if_neg hfull] at h
      cases h
      exact .sent v rfl (Bool.eq_false_iff.2 hstop)

theorem moves_receive (h : s.step .receive = some s') : Moves s .receive s' := by
  simp only [ChannelState.step, ChannelState.receive, Option.some.injEq] at h
  subst h
  by_cases hstop : s.chan.stop = true
  · rw [if_pos hstop]
    cases hq : s.chan.queue with
    | nil =>
      rw [Channel.getNowait_nil hq]
      exact .begins rfl rfl (by rw [hq]; exact .empty)
    | cons n q =>
      rw [Channel.getNowait_cons hq]
      exact .begins rfl rfl (by rw [hq]; exact .drain)
  · rw [if_neg hstop]
    exact .begins rfl rfl .wait

theorem runGet_cases {get get' : LoopTask Nat} {ch ch' : Channel} (h : get.runGet ch = some (get', ch')) :
    (∃ n q, get = .pending ∧ get' = .done n ∧ ch.queue = n :: q ∧ ch' = { ch with queue := q }) ∨
    (get = .cancelling ∧ get' = .cancelled ∧ ch' = ch) := by
  cases get with
  | pending =>
    simp only [LoopTask.runGet] at h
    split at h
    · cases h
    · rename_i n q hq
      cases h
      exact .inl ⟨n, q, rfl, rfl, hq, rfl⟩
  | cancelling =>
    cases h
    exact .inr ⟨rfl, rfl, rfl⟩
  | done n => cases h
  | cancelled => cases h

theorem moves_runGet {i : Nat} (h : s.step (.runGet i) = some s') : Moves s (.runGet i) s' := by
  simp only [ChannelState.step] at h
  split at h
  · rename_i a get stop hi
    obtain ⟨p, hrun, rfl⟩ := Option.map_eq_some_iff.1 h
    have hloses : s.loses (.runGet i) = [] := by simp [ChannelState.loses, hi]
    obtain ⟨n, q, rfl, hget, hq, hch⟩ | ⟨rfl, hget, hch⟩ := runGet_cases hrun
    · rw [hget, hch]
      exact .turn hi (hloses ▸ hq ▸ .take)
    · rw [hget, hch]
      exact .turn hi (hloses ▸ .still rfl rfl rfl rfl rfl)
  · rename_i get stop hi
    obtain ⟨p, hrun, rfl⟩ := Option.map_eq_some_iff.1 h
    obtain ⟨n, q, rfl, hget, hq, hch⟩ | ⟨rfl, hget, hch⟩ := runGet_cases hrun
    · have hloses : s.loses (.runGet i) = [n] := by simp [ChannelState.loses, hi, hq]
      rw [hget, hch]
      exact .turn hi (hloses ▸ hq ▸ .takeLeft)
    · have hloses : s.loses (.runGet i) = [] := by simp [ChannelState.loses, hi]
      rw [hget, hch]
      exact .turn hi (hloses ▸ .still rfl rfl rfl rfl rfl)
  · cases h

theorem moves_runStop {i : Nat} (h : s.step (.runStop i) = some s') : Moves s (.runStop i) s' := by
  simp only [ChannelState.step] at h
  split at h
  · rename_i hi
    obtain ⟨t, -, rfl⟩ := Option.map_eq_some_iff.1 h
    exact .turn hi (.still rfl rfl rfl rfl rfl)
  · rename_i hi
    obtain ⟨t, -, rfl⟩ := Option.map_eq_some_iff.1 h
    exact .turn hi (.still rfl rfl rfl rfl rfl)
  · cases h

/-- A call that returns: what its get took, or what is first in the queue. -/
theorem moves_finish {i : Nat} {a : Await} {get : LoopTask Nat} {stop : LoopTask Unit}
    (hi : s.calls[i]? = some (.live a get stop)) : Moves s (.resume i) (s.finish i get) := by
  unfold ChannelState.finish
  cases hget : get.result with
  | some n =>
    cases get with
    | done m =>
      obtain rfl := Option.some.inj hget
      exact .turn hi .hand
    | pending => cases hget
    | cancelling => cases hget
    | cancelled => cases hget
  | none =>
    cases hq : s.chan.queue with
    | nil =>
      rw [Channel.getNowait_nil hq]
      exact .turn hi (by rw [hq]; exact .empty hget)
    | cons n q =>
      rw [Channel.getNowait_cons hq]
      exact .turn hi (by rw [hq]; exact .drain hget)

theorem moves_resume {i : Nat} (h : s.step (.resume i) = some s') : Moves s (.resume i) s' := by
  simp only [ChannelState.step, ChannelState.resume] at h
  split at h
  · rename_i get stop hi
    by_cases hnone : get.isDone = false ∧ stop.isDone = false
    · rw [if_pos hnone] at h
      cases h
    · rw [if_neg hnone] at h
      by_cases hget : get.isDone = false
      · rw [if_pos hget] at h
        cases h
        have hheld : get.cancel.result = get.result := by cases get <;> rfl
        exact .turn hi (.still rfl rfl (by simp only [Receive.held, hheld]) rfl rfl)
      · rw [if_neg hget] at h
        by_cases hstop : stop.isDone = false
        · rw [if_pos hstop] at h
          cases h
          exact .turn hi (.still rfl rfl rfl rfl rfl)
        · rw [if_neg hstop] at h
          cases h
          exact moves_finish hi
  · rename_i hi
    split at h
    · cases h
      exact moves_finish hi
    · cases h
  · rename_i hi
    split at h
    · cases h
      exact moves_finish hi
    · cases h
  · cases h

theorem moves_cancel {i : Nat} (h : s.step (.cancel i) = some s') : Moves s (.cancel i) s' := by
  simp only [ChannelState.step, ChannelState.cancel] at h
  split at h
  · rename_i get stop hi
    cases h
    have hloses : s.loses (.cancel i) = get.result.toList := by simp [ChannelState.loses, hi]
    exact .turn hi (hloses ▸ .cancel)
  · rename_i hne hi
    cases h
    have hloses : s.loses (.cancel i) = [] := by
      simp only [ChannelState.loses, hi]
      split
      · rename_i he
        cases he
        exact absurd rfl hne
      · rfl
    exact .quiet s.chan.stop hloses id
  · cases h

theorem step_moves {st : ChannelStep V} (h : s.step st = some s') : Moves s st s' := by
  cases st with
  | send v => exact moves_send h
  | requestStop =>
    cases h
    exact .quiet true rfl (fun _ => rfl)
  | receive => exact moves_receive h
  | runGet i => exact moves_runGet h
  | runStop i => exact moves_runStop h
  | resume i => exact moves_resume h
  | cancel i => exact moves_cancel h

end

end Chan
end Pypepper
