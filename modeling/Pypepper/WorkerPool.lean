import Pypepper.ChannelReceive
import Pypepper.JobRules
import Pypepper.WorkShare
/-!
# WorkerPool — several workers on one channel

`Worker.run_forever` of any number of workers that receive from one channel, with senders, a stop and whatever else happens
to the jobs and the store in between.  A worker is before `run_once`, in its `receive`, in `_process` of a job or at its end;
the receives are the calls of `ChannelReceive`, cut at their awaits, and `_process` goes action by action.  No worker's task
is cancelled: what a cancelled receive loses is the matter of `ChannelConserve`.

The pool refines `Share`: what a worker's receive has taken is in its hand until the worker starts to process it
(`share_step`).  On a stopped channel every step of a worker leads to its end (`less_step`).
-/
namespace Pypepper

open Conc (Prog Share)
open Chan (ChannelState ChannelStep Receive LoopTask Await)

/-- What a call has taken for its caller. -/
def Chan.Receive.value : Receive → Option Nat
  | .live _ get _  => get.result
  | .returned item => item
  | .cancelled _ _ => none

/-! ## The workers -/

/-- Where a worker is in `run_forever`; `stopped` is the first redelivery error of a stopped channel. -/
inductive Loop where
  | top (stopped : Option Exn)
  | receiving (stopped : Option Exn) (call : Nat)
  | processing (stopped : Option Exn) (job : Nat) (rest : JobProg Unit)
  | ended (result : Except Exn Unit)

namespace Loop

/-- `run_once` gave no job: the redelivery error is raised, or the worker returns. -/
def noJob : Option Exn → Loop
  | some e => ended (.error e)
  | none   => ended (.ok ())

/-- The handlers of `run_forever`: a requeued job and a full channel end the loop, the redelivery error of a stopped channel
is kept for the end, any other `Exception` is logged, and what is none ends the loop.  After an await that never ends nothing
comes. -/
def after (stopped : Option Exn) : Except Exn Unit → Option Loop
  | .ok ()                              => some (top stopped)
  | .error (.requeued msg)              => some (ended (.error (.requeued msg)))
  | .error (.redelivery msg reason job) =>
    if reason = "stopped" then some (top (stopped.or (some (.redelivery msg reason job))))
    else some (ended (.error (.redelivery msg reason job)))
  | .error .hung                        => none
  | .error e                            => some (if e.isException then top stopped else ended (.error e))

/-- The worker has drained its channel: it returned, or raised the redelivery error of a stopped channel. -/
def drained : Loop → Bool
  | ended (.ok ())                            => true
  | ended (.error (.redelivery _ reason _))   => reason == "stopped"
  | _                                         => false

/-- The redelivery error a worker keeps. -/
def noted : Loop → Option Exn
  | top stopped            => stopped
  | receiving stopped _    => stopped
  | processing stopped _ _ => stopped
  | ended _                => none

/-- What its receive has taken for a worker. -/
def hand (calls : List Chan.Receive) : Loop → Option Nat
  | receiving _ i => calls[i]?.bind Chan.Receive.value
  | _             => none

def isEnded : Loop → Bool
  | ended _ => true
  | _       => false

end Loop

/-- The channel with its calls, where a value is the job it is; the jobs and the store; the workers; and the places in `sent`
of the jobs that each of them started to process. -/
structure Pool (W : Type) where
  loop    : ChannelState Nat
  jobs    : Nat → Job
  store   : InMemoryJobStore
  workers : W → Loop
  started : W → List Nat

inductive PoolStep (W : Type) where
  | send (job : Nat)
  | requestStop
  | others (jobs : Nat → Job) (store : InMemoryJobStore)
  | runGet (call : Nat)
  | runStop (call : Nat)
  | resume (call : Nat)
  | receive (w : W)
  | take (w : W)
  | act (w : W) (c : Choice)
  | settle (w : W)

/-- A step of a worker, or of a task of its receive. -/
def PoolStep.work {W : Type} : PoolStep W → Bool
  | send _ | requestStop | others _ _ => false
  | _                                 => true

namespace Pool

variable {W : Type}

/-- Workers that start on a new channel. -/
def new (maxsize : Nat) (jobs : Nat → Job) (store : InMemoryJobStore) : Pool W where
  loop    := ChannelState.new maxsize
  jobs    := jobs
  store   := store
  workers _ := .top none
  started _ := []

/-- What the actions on a job run on. -/
def view (p : Pool W) (r : Nat) : Ctx :=
  { job := { p.jobs r with ref := r }, chan := p.loop.chan, store := p.store, loopRunning := true }

def onLoop (p : Pool W) (st : ChannelStep Nat) : Option (Pool W) := (p.loop.step st).map (fun s => { p with loop := s })

variable [DecidableEq W] (p : Pool W)

def move (w : W) (l : Loop) : Pool W := { p with workers := Function.update p.workers w l }

/-- One action of `_process`: a send goes to the channel, the others to the job and the store. -/
def perform (w : W) (stopped : Option Exn) (r : Nat) (c : Choice) :
    (a : Act) → (a.Res → JobProg Unit) → Option (Pool W)
  | .send, k =>
    (p.onLoop (.send (some r))).map
      (fun p' => p'.move w (.processing stopped r (k (p.loop.chan.send p.loop.sent.length).1)))
  | a,     k =>
    ((p.view r).step c a).map (fun o => { p with jobs := Function.update p.jobs r o.2.job, store := o.2.store }.move w
      (.processing stopped r (k o.1)))

/-- **One step of the pool.** -/
def step : PoolStep W → Option (Pool W)
  | .send job          => p.onLoop (.send (some job))
  | .requestStop       => p.onLoop .requestStop
  | .others jobs store => some { p with jobs := jobs, store := store }
  | .runGet i          => p.onLoop (.runGet i)
  | .runStop i         => p.onLoop (.runStop i)
  | .resume i          => p.onLoop (.resume i)
  | .receive w         =>
    match p.workers w with
    | .top stopped => (p.onLoop .receive).map (fun p' => p'.move w (.receiving stopped p.loop.calls.length))
    | _            => none
  | .take w            =>
    match p.workers w with
    | .receiving stopped i =>
      match p.loop.calls[i]? with
      | some (.returned none)     => some (p.move w (.noJob stopped))
      | some (.returned (some n)) => (p.loop.sent[n]?.join).map (fun r =>
          { p with started := Function.update p.started w (p.started w ++ [n]) }.move w
            (.processing stopped r (Worker.process (p.view r).job.ident)))
      | _                         => none
    | _                    => none
  | .act w c           =>
    match p.workers w with
    | .processing stopped r (.act a k) => p.perform w stopped r c a k
    | _                                => none
  | .settle w          =>
    match p.workers w with
    | .processing stopped _ rest => rest.finished.bind (fun result => (Loop.after stopped result).map (p.move w))
    | _                          => none

/-- A schedule of the pool. -/
def run : List (PoolStep W) → Pool W → Option (Pool W)
  | [],        p => some p
  | st :: sts, p => (p.step st).bind (run sts)

end Pool

/-! ## The calls -/

namespace Chan

/-- A call in a loop where no call is cancelled.  `asyncio.wait` ends with a task that is done, and a call that cancelled its
get task, or returned nothing, saw the stop. -/
def CallOk (ch : Channel) : Receive → Prop
  | .live .wait get stop     => (get = .pending ∨ ∃ n, get = .done n) ∧ (stop = .pending ∨ (stop = .done () ∧ ch.stop = true))
  | .live .getTask get _     => (get = .cancelling ∨ get = .cancelled) ∧ ch.stop = true
  | .live .stopTask get stop => (∃ n, get = .done n) ∧ stop ≠ .pending
  | .returned none           => ch.stop = true ∧ ch.queue = []
  | .returned (some _)       => True
  | .cancelled _ _           => False

/-- A stopped channel that is empty stays so. -/
def Settles (ch ch' : Channel) : Prop := ch.stop = true → ch'.stop = true ∧ (ch.queue = [] → ch'.queue = [])

theorem CallOk.settles {ch ch' : Channel} (h : Settles ch ch') : ∀ {c : Receive}, CallOk ch c → CallOk ch' c
  | .live .wait _ _, ⟨hget, hstop⟩ => ⟨hget, hstop.imp_right fun hs => ⟨hs.1, (h hs.2).1⟩⟩
  | .live .getTask _ _, ⟨hget, hs⟩ => ⟨hget, (h hs).1⟩
  | .live .stopTask _ _, hc => hc
  | .returned none, ⟨hs, hq⟩ => ⟨(h hs).1, (h hs).2 hq⟩
  | .returned (some _), _ => trivial

def LoopTask.turns {α : Type} : LoopTask α → Nat
  | .pending    => 2
  | .cancelling => 1
  | _           => 0

/-- The turns a call and its tasks still have at most. -/
def Receive.turns : Receive → Nat
  | .live .wait get stop => get.turns + stop.turns + 2
  | .live _ get stop     => get.turns + stop.turns + 1
  | _                    => 0

/-- What a send and a stop do. -/
inductive Grows (s : ChannelState Nat) : ChannelState Nat → Prop
  | accept (r : Nat) : s.chan.stop = false → Grows s
      { s with chan := { s.chan with queue := s.chan.queue ++ [s.sent.length] }, sent := s.sent ++ [some r] }
  | stop : Grows s { s with chan := { s.chan with stop := true } }
  | same : Grows s s

/-- What a turn of an open call or of one of its tasks does: it has fewer left, and takes at most the first of the queue. -/
structure CallTurn (s : ChannelState Nat) (i : Nat) (c c' : Receive) (q : List Nat) : Prop where
  call  : s.calls[i]? = some c
  live  : c.isLive = true
  ok    : CallOk { s.chan with queue := q } c'
  fewer : c'.turns < c.turns
  takes : (q = s.chan.queue ∧ c'.value = c.value) ∨ ∃ n, s.chan.queue = n :: q ∧ c.value = none ∧ c'.value = some n

/-- A new call: it waits, or on a stopped channel it takes what is queued. -/
inductive Opens (ch : Channel) : Receive → List Nat → Prop
  | wait : ch.stop = false → Opens ch (.live .wait .pending .pending) ch.queue
  | drain {n : Nat} {q : List Nat} : ch.stop = true → ch.queue = n :: q → Opens ch (.returned (some n)) q
  | empty : ch.stop = true → ch.queue = [] → Opens ch (.returned none) []

section
variable {s s' : ChannelState Nat} {i : Nat}

theorem opens_receive (h : s.step .receive = some s') : ∃ c q, Opens s.chan c q ∧
    s' = { s with chan := { s.chan with queue := q }, calls := s.calls ++ [c] } := by
  simp only [ChannelState.step, ChannelState.receive, Option.some.injEq] at h
  subst h
  by_cases hstop : s.chan.stop = true
  · rw [if_pos hstop]
    cases hq : s.chan.queue with
    | nil =>
      rw [Channel.getNowait_nil hq]
      refine ⟨_, [], .empty hstop hq, ?_⟩
      show { s with calls := _ } = _
      rw [← hq]
    | cons n q =>
      rw [Channel.getNowait_cons hq]
      exact ⟨_, q, .drain hstop hq, rfl⟩
  · rw [if_neg hstop]
    exact ⟨_, _, .wait (Bool.eq_false_iff.2 hstop), rfl⟩

theorem grows_send {r : Nat} (h : s.step (.send (some r)) = some s') : Grows s s' := by
  simp only [ChannelState.step, Channel.send] at h
  by_cases hstop : s.chan.stop = true
  · rw [if_pos hstop] at h
    cases h
    exact .same
  · rw [if_neg hstop] at h
    by_cases hfull : s.chan.full = true
    · rw [if_pos hfull] at h
      cases h
      exact .same
    · rw [if_neg hfull] at h
      cases h
      exact .accept r (Bool.eq_false_iff.2 hstop)

/-- A send always answers. -/
theorem send_isSome (s : ChannelState Nat) (v : Option Nat) : ∃ s', s.step (.send v) = some s' := by
  simp only [ChannelState.step]
  split <;> exact ⟨_, rfl⟩

theorem Grows.settles (h : Grows s s') : Settles s.chan s'.chan := by
  cases h with
  | accept r hopen =>
    intro hstop
    rw [hopen] at hstop
    cases hstop
  | stop => exact fun _ => ⟨rfl, id⟩
  | same => exact fun hs => ⟨hs, id⟩

theorem CallTurn.settles {c c' : Receive} {q : List Nat} (h : CallTurn s i c c' q) :
    Settles s.chan { s.chan with queue := q } := by
  refine fun hs => ⟨hs, fun hq => ?_⟩
  obtain ⟨rfl, -⟩ | ⟨n, hn, -⟩ := h.takes
  · exact hq
  · rw [hq] at hn
    cases hn

theorem turn_runGet (hok : ∀ c ∈ s.calls, CallOk s.chan c) (h : s.step (.runGet i) = some s') :
    ∃ c c' q, CallTurn s i c c' q ∧ s' = { s with chan := { s.chan with queue := q }, calls := s.calls.set i c' } := by
  simp only [ChannelState.step] at h
  split at h
  · rename_i a get stop hi
    obtain ⟨p, hrun, rfl⟩ := Option.map_eq_some_iff.1 h
    have hc := hok _ (List.mem_of_getElem? hi)
    obtain ⟨n, q, rfl, hget, hq, hch⟩ | ⟨rfl, hget, hch⟩ := runGet_cases hrun
    · refine ⟨_, .live a (.done n) stop, q, ⟨hi, rfl, ?_, ?_, .inr ⟨n, hq, rfl, rfl⟩⟩, by rw [hget, hch]; rfl⟩
      · cases a with
        | wait => exact ⟨.inr ⟨n, rfl⟩, hc.2⟩
        | getTask => simp [CallOk] at hc
        | stopTask => simp [CallOk] at hc
      · cases a <;> simp [Receive.turns, LoopTask.turns]
    · refine ⟨_, .live a .cancelled stop, s.chan.queue, ⟨hi, rfl, ?_, ?_, .inl ⟨rfl, rfl⟩⟩, by rw [hget, hch]; rfl⟩
      · cases a with
        | wait => simp [CallOk] at hc
        | getTask => exact ⟨.inr rfl, hc.2⟩
        | stopTask => simp [CallOk] at hc
      · cases a <;> simp [Receive.turns, LoopTask.turns]
  · rename_i hi
    exact (hok _ (List.mem_of_getElem? hi)).elim
  · cases h

theorem runStop_cases {stop stop' : LoopTask Unit} {b : Bool} (h : stop.runStop b = some stop') :
    (stop = .pending ∧ stop' = .done () ∧ b = true) ∨ (stop = .cancelling ∧ stop' = .cancelled) := by
  cases stop with
  | pending =>
    simp only [LoopTask.runStop] at h
    split at h
    · rename_i hb
      cases h
      exact .inl ⟨rfl, rfl, hb⟩
    · cases h
  | cancelling =>
    cases h
    exact .inr ⟨rfl, rfl⟩
  | done u => cases h
  | cancelled => cases h

theorem turn_runStop (hok : ∀ c ∈ s.calls, CallOk s.chan c) (h : s.step (.runStop i) = some s') :
    ∃ c c' q, CallTurn s i c c' q ∧ s' = { s with chan := { s.chan with queue := q }, calls := s.calls.set i c' } := by
  simp only [ChannelState.step] at h
  split at h
  · rename_i a get stop hi
    obtain ⟨stop', hrun, rfl⟩ := Option.map_eq_some_iff.1 h
    have hc := hok _ (List.mem_of_getElem? hi)
    refine ⟨_, .live a get stop', s.chan.queue, ⟨hi, rfl, ?_, ?_, .inl ⟨rfl, rfl⟩⟩, rfl⟩
    · obtain ⟨rfl, rfl, hb⟩ | ⟨rfl, rfl⟩ := runStop_cases hrun
      · cases a with
        | wait => exact ⟨hc.1, .inr ⟨rfl, hb⟩⟩
        | getTask => exact hc
        | stopTask => simp [CallOk] at hc
      · cases a with
        | wait => simp [CallOk] at hc
        | getTask => exact hc
        | stopTask => exact ⟨hc.1, by simp⟩
    · obtain ⟨rfl, rfl, -⟩ | ⟨rfl, rfl⟩ := runStop_cases hrun <;> cases a <;> simp [Receive.turns, LoopTask.turns]
  · rename_i hi
    exact (hok _ (List.mem_of_getElem? hi)).elim
  · cases h

/-- A call that returns. -/
theorem turn_finish {a : Await} {get : LoopTask Nat} {stop : LoopTask Unit} (hi : s.calls[i]? = some (.live a get stop))
    (hstop : get.result = none → s.chan.stop = true) :
    ∃ c c' q, CallTurn s i c c' q ∧ s.finish i get = { s with chan := { s.chan with queue := q }, calls := s.calls.set i c' } := by
  have hturns : ∀ item, (Receive.returned item).turns < (Receive.live a get stop).turns := by
    intro item
    cases a <;> simp [Receive.turns]
  unfold ChannelState.finish
  cases hget : get.result with
  | some n => exact ⟨_, .returned (some n), s.chan.queue, ⟨hi, rfl, trivial, hturns _, .inl ⟨rfl, hget.symm⟩⟩, rfl⟩
  | none =>
    cases hq : s.chan.queue with
    | nil =>
      rw [Channel.getNowait_nil hq]
      refine ⟨_, .returned none, [], ⟨hi, rfl, ⟨hstop hget, rfl⟩, hturns _, .inl ⟨hq.symm, hget.symm⟩⟩, ?_⟩
      show { s with calls := _ } = _
      rw [← hq]
    | cons n q =>
      rw [Channel.getNowait_cons hq]
      exact ⟨_, .returned (some n), q, ⟨hi, rfl, trivial, hturns _, .inr ⟨n, hq, hget, rfl⟩⟩, rfl⟩

theorem turn_resume (hok : ∀ c ∈ s.calls, CallOk s.chan c) (h : s.step (.resume i) = some s') :
    ∃ c c' q, CallTurn s i c c' q ∧ s' = { s with chan := { s.chan with queue := q }, calls := s.calls.set i c' } := by
  simp only [ChannelState.step, ChannelState.resume] at h
  split at h
  · rename_i get stop hi
    obtain ⟨hget, hstop⟩ := hok _ (List.mem_of_getElem? hi)
    obtain rfl | ⟨n, rfl⟩ := hget
    · obtain rfl | ⟨rfl, hs⟩ := hstop
      · cases h
      · cases h
        exact ⟨_, .live .getTask .cancelling (.done ()), s.chan.queue, ⟨hi, rfl, ⟨.inl rfl, hs⟩, by decide,
          .inl ⟨rfl, rfl⟩⟩, rfl⟩
    · obtain rfl | ⟨rfl, -⟩ := hstop
      · cases h
        exact ⟨_, .live .stopTask (.done n) .cancelling, s.chan.queue, ⟨hi, rfl, ⟨⟨n, rfl⟩, by simp⟩,
          by simp [Receive.turns, LoopTask.turns],
          .inl ⟨rfl, rfl⟩⟩, rfl⟩
      · cases h
        exact turn_finish hi fun hnone => by cases hnone
  · rename_i hi
    obtain ⟨-, hs⟩ := hok _ (List.mem_of_getElem? hi)
    split at h
    · cases h
      exact turn_finish hi fun _ => hs
    · cases h
  · rename_i hi
    obtain ⟨⟨n, rfl⟩, -⟩ := hok _ (List.mem_of_getElem? hi)
    split at h
    · cases h
      exact turn_finish hi fun hnone => by cases hnone
    · cases h
  · cases h

end
end Chan

/-! ## The pool's steps -/

/-- The program after one of its actions. -/
inductive Act.Next : JobProg Unit → JobProg Unit → Prop
  | mk {a : Act} {k : a.Res → JobProg Unit} (r : a.Res) : Act.Next (k r) (.act a k)

theorem Act.next_wellFounded : WellFounded Act.Next := by
  refine ⟨fun q => ?_⟩
  induction q with
  | ret a => exact ⟨_, fun _ h => by cases h⟩
  | raise e => exact ⟨_, fun _ h => by cases h⟩
  | act a k ih =>
    refine ⟨_, fun _ h => ?_⟩
    cases h with
    | mk r => exact ih r

namespace Pool

open Chan (CallOk CallTurn Grows Opens)
open Worker (process)

variable {W : Type} {p p' : Pool W}

theorem onLoop_eq_some {st : ChannelStep Nat} (h : p.onLoop st = some p') :
    ∃ s, p.loop.step st = some s ∧ p' = { p with loop := s } := by
  obtain ⟨s, hs, rfl⟩ := Option.map_eq_some_iff.1 h
  exact ⟨s, hs, rfl⟩

/-! ### What the states have in common -/

/-- What the states of a pool have in common: every open call has one worker waiting for it, every value is a job, and a
worker keeps the redelivery errors of a stopped channel only. -/
structure Linked (p : Pool W) : Prop where
  calls : ∀ c ∈ p.loop.calls, CallOk p.loop.chan c
  sent  : ∀ v ∈ p.loop.sent, ∃ r, v = some r
  waits : ∀ i c, p.loop.calls[i]? = some c → c.isLive = true → ∃ w stopped, p.workers w = .receiving stopped i
  bound : ∀ w stopped i, p.workers w = .receiving stopped i → i < p.loop.calls.length
  one   : ∀ w w' stopped stopped' i, p.workers w = .receiving stopped i → p.workers w' = .receiving stopped' i → w = w'
  noted : ∀ w e, (p.workers w).noted = some e → ∃ msg job, e = .redelivery msg "stopped" job
  tame  : ∀ w stopped r rest, p.workers w = .processing stopped r rest → rest.Only (· ≠ .receive)

theorem linked_new (maxsize : Nat) (jobs : Nat → Job) (store : InMemoryJobStore) :
    Linked (new maxsize jobs store : Pool W) where
  calls := by simp [new, ChannelState.new]
  sent  := by simp [new, ChannelState.new]
  waits := by simp [new, ChannelState.new]
  bound := by simp [new]
  one   := by simp [new]
  noted := by simp [new, Loop.noted]
  tame  := by simp [new]

/-- Others' steps leave the calls, and what they send are jobs. -/
theorem Linked.grows (h : Linked p) {s : ChannelState Nat} (hg : Grows p.loop s) (jobs : Nat → Job)
    (store : InMemoryJobStore) : Linked { p with loop := s, jobs := jobs, store := store } := by
  have hcalls : s.calls = p.loop.calls := by cases hg <;> rfl
  refine ⟨?_, ?_, ?_, ?_, h.one, h.noted, h.tame⟩
  · intro c hc
    rw [hcalls] at hc
    exact (h.calls c hc).settles hg.settles
  · intro v hv
    cases hg with
    | accept r _ =>
      rcases List.mem_append.1 hv with hv | hv
      · exact h.sent v hv
      · exact ⟨r, List.mem_singleton.1 hv⟩
    | stop => exact h.sent v hv
    | same => exact h.sent v hv
  · intro i c hi
    exact h.waits i c (hcalls ▸ hi)
  · intro w stopped i hw
    exact hcalls ▸ h.bound w stopped i hw

theorem Linked.turn (h : Linked p) {i : Nat} {c c' : Chan.Receive} {q : List Nat} (ht : CallTurn p.loop i c c' q) :
    Linked { p with
      loop := { p.loop with chan := { p.loop.chan with queue := q }, calls := p.loop.calls.set i c' } } := by
  refine ⟨fun d hd => ?_, h.sent, fun j d hj hlive => ?_, fun w stopped j hw => ?_, h.one, h.noted, h.tame⟩
  · rcases List.mem_or_eq_of_mem_set hd with hd | rfl
    · exact (h.calls d hd).settles ht.settles
    · exact ht.ok
  · by_cases hij : i = j
    · subst hij
      exact h.waits i c ht.call ht.live
    · exact h.waits j d ((List.getElem?_set_ne hij).symm.trans hj) hlive
  · show j < (p.loop.calls.set i c').length
    rw [List.length_set]
    exact h.bound w stopped j hw

/-! ### The steps -/

variable [DecidableEq W]

inductive Moves (p : Pool W) : PoolStep W → Pool W → Prop
  | environment {st : PoolStep W} {s : ChannelState Nat} (jobs : Nat → Job) (store : InMemoryJobStore) : st.work = false →
      Grows p.loop s → Moves p st { p with loop := s, jobs := jobs, store := store }
  | turn {st : PoolStep W} {i : Nat} {c c' : Chan.Receive} {q : List Nat} : st.work = true → CallTurn p.loop i c c' q →
      Moves p st { p with
        loop := { p.loop with chan := { p.loop.chan with queue := q }, calls := p.loop.calls.set i c' } }
  | receive {w : W} {stopped : Option Exn} {c : Chan.Receive} {q : List Nat} : p.workers w = .top stopped →
      Opens p.loop.chan c q → Moves p (.receive w) ({ p with
        loop := { p.loop with chan := { p.loop.chan with queue := q }, calls := p.loop.calls ++ [c] } }.move w
          (.receiving stopped p.loop.calls.length))
  | noJob {w : W} {stopped : Option Exn} {i : Nat} : p.workers w = .receiving stopped i →
      p.loop.calls[i]? = some (.returned none) → Moves p (.take w) (p.move w (.noJob stopped))
  | start {w : W} {stopped : Option Exn} {i n r : Nat} (job : Ident) : p.workers w = .receiving stopped i →
      p.loop.calls[i]? = some (.returned (some n)) → p.loop.sent[n]? = some (some r) →
      Moves p (.take w) ({ p with started := Function.update p.started w (p.started w ++ [n]) }.move w
        (.processing stopped r (process job)))
  | work {w : W} {c : Choice} {stopped : Option Exn} {r : Nat} {rest rest' : JobProg Unit} {s : ChannelState Nat}
      (jobs : Nat → Job) (store : InMemoryJobStore) : p.workers w = .processing stopped r rest → Act.Next rest' rest →
      Grows p.loop s → Moves p (.act w c) ({ p with loop := s, jobs := jobs, store := store }.move w
        (.processing stopped r rest'))
  | settle {w : W} {stopped : Option Exn} {r : Nat} {rest : JobProg Unit} {result : Except Exn Unit} {l : Loop} :
      p.workers w = .processing stopped r rest → rest.finished = some result → Loop.after stopped result = some l →
      Moves p (.settle w) (p.move w l)

theorem moves_receive {w : W} (h : p.step (.receive w) = some p') : Moves p (.receive w) p' := by
  simp only [step] at h
  split at h
  · rename_i stopped hw
    obtain ⟨p₁, hloop, rfl⟩ := Option.map_eq_some_iff.1 h
    obtain ⟨s, hs, rfl⟩ := onLoop_eq_some hloop
    obtain ⟨c, q, ho, rfl⟩ := Chan.opens_receive hs
    exact .receive hw ho
  · cases h

theorem moves_take {w : W} (h : p.step (.take w) = some p') : Moves p (.take w) p' := by
  simp only [step] at h
  split at h
  · rename_i stopped i hw
    split at h
    · rename_i hi
      cases h
      exact .noJob hw hi
    · rename_i n hi
      obtain ⟨r, hr, rfl⟩ := Option.map_eq_some_iff.1 h
      exact .start _ hw hi (Option.join_eq_some_iff.1 hr)
    · cases h
  · cases h

/-- An action of `_process` leaves the calls and the other workers as they are. -/
theorem perform_grows {w : W} {stopped : Option Exn} {r : Nat} {c : Choice} {a : Act} {k : a.Res → JobProg Unit}
    (h : p.perform w stopped r c a k = some p') : ∃ res jobs store s, Grows p.loop s ∧
      p' = { p with loop := s, jobs := jobs, store := store }.move w (.processing stopped r (k res)) := by
  cases a with
  | send =>
    obtain ⟨p₁, hloop, rfl⟩ := Option.map_eq_some_iff.1 h
    obtain ⟨s, hs, rfl⟩ := onLoop_eq_some hloop
    exact ⟨_, p.jobs, p.store, s, Chan.grows_send hs, rfl⟩
  | _ =>
    simp only [perform] at h
    obtain ⟨o, ho, rfl⟩ := Option.map_eq_some_iff.1 h
    exact ⟨o.1, _, _, p.loop, .same, rfl⟩

theorem moves_act {w : W} {c : Choice} (h : p.step (.act w c) = some p') : Moves p (.act w c) p' := by
  simp only [step] at h
  split at h
  · rename_i stopped r a k hw
    obtain ⟨res, jobs, store, s, hs, rfl⟩ := perform_grows h
    exact .work jobs store hw (.mk (k := k) res) hs
  · cases h

/-- **Everything a step can do.** -/
theorem step_moves {st : PoolStep W} (hl : Linked p) (h : p.step st = some p') : Moves p st p' := by
  cases st with
  | send job =>
    obtain ⟨s, hs, rfl⟩ := onLoop_eq_some h
    exact .environment p.jobs p.store rfl (Chan.grows_send hs)
  | requestStop =>
    cases h
    exact .environment p.jobs p.store rfl .stop
  | others jobs store =>
    cases h
    exact .environment jobs store rfl .same
  | runGet i =>
    obtain ⟨s, hs, rfl⟩ := onLoop_eq_some h
    obtain ⟨c, c', q, ht, rfl⟩ := Chan.turn_runGet hl.calls hs
    exact .turn rfl ht
  | runStop i =>
    obtain ⟨s, hs, rfl⟩ := onLoop_eq_some h
    obtain ⟨c, c', q, ht, rfl⟩ := Chan.turn_runStop hl.calls hs
    exact .turn rfl ht
  | resume i =>
    obtain ⟨s, hs, rfl⟩ := onLoop_eq_some h
    obtain ⟨c, c', q, ht, rfl⟩ := Chan.turn_resume hl.calls hs
    exact .turn rfl ht
  | receive w => exact moves_receive h
  | take w => exact moves_take h
  | act w c => exact moves_act h
  | settle w =>
    simp only [step] at h
    split at h
    · rename_i stopped r rest hw
      obtain ⟨result, hf, h⟩ := Option.bind_eq_some_iff.1 h
      obtain ⟨l, hl, rfl⟩ := Option.map_eq_some_iff.1 h
      exact .settle hw hf hl
    · cases h

/-- **Where a worker is after a job**: it has ended by an exception, or is before `run_once` with the redelivery error that it
keeps. -/
theorem after_cases {stopped : Option Exn} {result : Except Exn Unit} {l : Loop} (h : Loop.after stopped result = some l) :
    (∃ e, l = .ended (.error e) ∧ l.drained = false) ∨ l = .top stopped ∨
      ∃ msg job, l = .top (stopped.or (some (.redelivery msg "stopped" job))) := by
  match result with
  | .ok () => exact .inr (.inl (Option.some.inj h).symm)
  | .error e =>
    cases e with
    | requeued msg =>
      obtain rfl := Option.some.inj h
      exact .inl ⟨_, rfl, rfl⟩
    | redelivery msg reason job =>
      simp only [Loop.after] at h
      split at h
      · rename_i hreason
        obtain rfl := Option.some.inj h
        exact .inr (.inr ⟨msg, job, by rw [hreason]⟩)
      · rename_i hreason
        obtain rfl := Option.some.inj h
        exact .inl ⟨_, rfl, by simpa [Loop.drained] using hreason⟩
    | hung => cases h
    | cancelled =>
      obtain rfl := Option.some.inj h
      exact .inl ⟨_, rfl, rfl⟩
    | _ =>
      obtain rfl := Option.some.inj h
      exact .inr (.inl rfl)

theorem workers_move (p : Pool W) (w : W) (l : Loop) (v : W) :
    (p.move w l).workers v = if v = w then l else p.workers v := by
  by_cases hv : v = w <;> simp [move, Function.update, hv]

/-- A worker whose receive is over goes on. -/
theorem Linked.move (h : Linked p) {w : W} {l : Loop}
    (hover : ∀ stopped i c, p.workers w = .receiving stopped i → p.loop.calls[i]? = some c → c.isLive = false)
    (hl : ∀ stopped i, l ≠ .receiving stopped i) (hnoted : ∀ e, l.noted = some e → ∃ msg job, e = .redelivery msg "stopped" job)
    (htame : ∀ stopped r rest, l = .processing stopped r rest → rest.Only (· ≠ .receive)) : Linked (p.move w l) := by
  have hold : ∀ {v stopped i}, (p.move w l).workers v = .receiving stopped i → p.workers v = .receiving stopped i := by
    intro v stopped i hv
    rw [workers_move] at hv
    split at hv
    · exact absurd hv (hl stopped i)
    · exact hv
  refine ⟨h.calls, h.sent, fun i c hi hlive => ?_, fun v stopped i hv => h.bound v stopped i (hold hv),
    fun v v' stopped stopped' i hv hv' => h.one v v' stopped stopped' i (hold hv) (hold hv'), fun v e hv => ?_,
    fun v stopped r rest hv => ?_⟩
  · obtain ⟨v, stopped, hv⟩ := h.waits i c hi hlive
    refine ⟨v, stopped, ?_⟩
    rw [workers_move, if_neg]
    · exact hv
    · rintro rfl
      rw [hover stopped i c hv hi] at hlive
      cases hlive
  · rw [workers_move] at hv
    split at hv
    · exact hnoted e hv
    · exact h.noted v e hv
  · rw [workers_move] at hv
    split at hv
    · exact htame stopped r rest hv
    · exact h.tame v stopped r rest hv

/-- A worker that starts to receive waits for the new call, and no other does. -/
theorem Linked.receive (h : Linked p) {w : W} {stopped : Option Exn} {c : Chan.Receive} {q : List Nat}
    (hw : p.workers w = .top stopped) (ho : Opens p.loop.chan c q) :
    Linked ({ p with
      loop := { p.loop with chan := { p.loop.chan with queue := q }, calls := p.loop.calls ++ [c] } }.move w
        (.receiving stopped p.loop.calls.length)) := by
  have hsettles : Chan.Settles p.loop.chan { p.loop.chan with queue := q } := by
    refine fun hs => ⟨hs, fun hq => ?_⟩
    cases ho with
    | wait => exact hq
    | drain _ hn =>
      rw [hq] at hn
      cases hn
    | empty => rfl
  have hcase : ∀ {v stopped' i}, (if v = w then Loop.receiving stopped p.loop.calls.length else p.workers v) =
      .receiving stopped' i → (v = w ∧ i = p.loop.calls.length) ∨ (v ≠ w ∧ p.workers v = .receiving stopped' i) := by
    intro v stopped' i hv
    split at hv
    · injection hv with _ hi
      exact .inl ⟨‹v = w›, hi.symm⟩
    · exact .inr ⟨‹v ≠ w›, hv⟩
  refine ⟨fun d hd => ?_, h.sent, fun j d hj hlive => ?_, fun v stopped' j hv => ?_,
    fun v v' st st' j hv hv' => ?_, fun v e hv => ?_, fun v st r rest hv => ?_⟩
  · rcases List.mem_append.1 hd with hd | hd
    · exact (h.calls d hd).settles hsettles
    · obtain rfl := List.mem_singleton.1 hd
      cases ho with
      | wait => exact ⟨.inl rfl, .inl rfl⟩
      | drain => trivial
      | empty hs _ => exact ⟨hs, rfl⟩
  · change (p.loop.calls ++ [c])[j]? = some d at hj
    rcases Nat.lt_or_ge j p.loop.calls.length with hlt | hge
    · rw [List.getElem?_append_left hlt] at hj
      obtain ⟨v, st, hv⟩ := h.waits j d hj hlive
      refine ⟨v, st, ?_⟩
      rw [workers_move, if_neg]
      · exact hv
      · rintro rfl
        rw [hw] at hv
        cases hv
    · have hj' : j = p.loop.calls.length := by
        have := (List.getElem?_eq_some_iff.1 hj).1
        rw [List.length_append, List.length_singleton] at this
        omega
      exact ⟨w, stopped, by rw [workers_move, if_pos rfl, hj']⟩
  · rw [workers_move] at hv
    show j < (p.loop.calls ++ [c]).length
    rw [List.length_append, List.length_singleton]
    rcases hcase hv with ⟨-, rfl⟩ | ⟨-, hv⟩
    · exact Nat.lt_succ_self _
    · exact Nat.lt_succ_of_lt (h.bound v stopped' j hv)
  · rw [workers_move] at hv hv'
    rcases hcase hv with ⟨rfl, rfl⟩ | ⟨-, hv⟩
    · rcases hcase hv' with ⟨rfl, -⟩ | ⟨-, hv'⟩
      · rfl
      · exact absurd (h.bound v' st' _ hv') (Nat.lt_irrefl _)
    · rcases hcase hv' with ⟨-, rfl⟩ | ⟨-, hv'⟩
      · exact absurd (h.bound v st _ hv) (Nat.lt_irrefl _)
      · exact h.one v v' st st' j hv hv'
  · rw [workers_move] at hv
    split at hv
    · exact h.noted w e (by rw [hw]; exact hv)
    · exact h.noted v e hv
  · rw [workers_move] at hv
    split at hv
    · cases hv
    · exact h.tame v st r rest hv

theorem process_tame (job : Ident) : (process job).Only (· ≠ .receive) := by
  have hsaves : Act.Saves (· ≠ .receive) := ⟨by simp, by simp, by simp, by simp⟩
  have hbuilt : CallBuilt (fun _ (q : JobProg _) => q.Only (· ≠ .receive)) :=
    { hsaves.saveBuilt with
      call := fun a ha => .call (by rintro rfl; cases ha) }
  exact hbuilt.process job

theorem Linked.step {st : PoolStep W} (h : Linked p) (hs : p.step st = some p') : Linked p' := by
  cases step_moves h hs with
  | environment jobs store _ hg => exact h.grows hg jobs store
  | turn _ ht => exact h.turn ht
  | receive hw ho => exact h.receive hw ho
  | @noJob w stopped i hw hi =>
    refine h.move ?_ (by cases stopped <;> simp [Loop.noJob]) (by cases stopped <;> simp [Loop.noJob, Loop.noted])
      (by cases stopped <;> simp [Loop.noJob])
    intro stopped' i' c hw' hc
    rw [hw] at hw'
    cases hw'
    rw [hi] at hc
    cases hc
    rfl
  | @start w stopped i n r job hw hi hr =>
    have hlinked : Linked { p with started := Function.update p.started w (p.started w ++ [n]) } :=
      ⟨h.calls, h.sent, h.waits, h.bound, h.one, h.noted, h.tame⟩
    refine hlinked.move ?_ (by simp) (fun e he => h.noted w e (by rw [hw]; exact he)) ?_
    · intro stopped' i' c hw' hc
      change p.workers w = _ at hw'
      change p.loop.calls[i']? = _ at hc
      rw [hw] at hw'
      cases hw'
      rw [hi] at hc
      cases hc
      rfl
    · intro stopped' r' rest hrest
      injection hrest with _ _ hrest
      exact hrest ▸ process_tame job
  | @work w c stopped r rest rest' s jobs store hw hnext hg =>
    refine (h.grows hg jobs store).move ?_ (by simp) (fun e he => h.noted w e (by rw [hw]; exact he)) ?_
    · intro stopped' i' c hw' _
      change p.workers w = _ at hw'
      rw [hw] at hw'
      cases hw'
    · intro stopped' r' rest'' hrest
      injection hrest with _ _ hrest
      have htame := h.tame w stopped r rest hw
      cases hnext with
      | mk res => exact hrest ▸ htame.2 res
  | @settle w stopped r rest result l hw hf hafter =>
    have hnoted : ∀ e, stopped = some e → ∃ msg job, e = .redelivery msg "stopped" job := fun e he =>
      h.noted w e (by rw [hw]; exact he)
    have hw' : ∀ stopped' i c, p.workers w = .receiving stopped' i → p.loop.calls[i]? = some c → c.isLive = false := by
      intro stopped' i c hw'
      rw [hw] at hw'
      cases hw'
    obtain ⟨e, rfl, -⟩ | rfl | ⟨msg, job, rfl⟩ := after_cases hafter
    · exact h.move hw' (by simp) (by simp [Loop.noted]) (by simp)
    · exact h.move hw' (by simp) hnoted (by simp)
    · refine h.move hw' (by simp) (fun e he => ?_) (by simp)
      cases stopped with
      | some e' => exact hnoted e he
      | none =>
        obtain rfl := Option.some.inj he
        exact ⟨msg, job, rfl⟩

/-! ### The pool as a share of work -/

/-- Jobs by their places in `sent`: those queued, those a worker's receive has taken for it, and those it has started. -/
def share (p : Pool W) : Share W where
  accepted := p.loop.sent.length
  closed   := p.loop.chan.stop
  queue    := p.loop.chan.queue
  hand w   := (p.workers w).hand p.loop.calls
  started  := p.started
  left w   := (p.workers w).drained

/-- A worker that moves changes its own hand only. -/
theorem share_move (p : Pool W) (w : W) (l : Loop) : (p.move w l).share = { p.share with
    hand := Function.update p.share.hand w (l.hand p.loop.calls), left := Function.update p.share.left w l.drained } := by
  have hhand : (fun v => ((p.move w l).workers v).hand p.loop.calls) =
      Function.update p.share.hand w (l.hand p.loop.calls) := by
    funext v
    rw [workers_move, Function.update_apply]
    split <;> rfl
  have hleft : (fun v => ((p.move w l).workers v).drained) = Function.update p.share.left w l.drained := by
    funext v
    rw [workers_move, Function.update_apply]
    split <;> rfl
  show ({ p.share with hand := _, left := _ } : Share W) = _
  rw [← hhand, ← hleft]
  rfl

/-- A worker that goes on with an empty hand and does not leave is no step of the share. -/
theorem share_move_same (p : Pool W) {w : W} {l : Loop} (hhand : l.hand p.loop.calls = (p.workers w).hand p.loop.calls)
    (hleft : l.drained = (p.workers w).drained) : (p.move w l).share = p.share := by
  rw [share_move, hhand, hleft]
  show ({ p.share with hand := Function.update p.share.hand w (p.share.hand w), left := _ } : Share W) = _
  rw [Function.update_eq_self]
  show ({ p.share with left := Function.update p.share.left w (p.share.left w) } : Share W) = _
  rw [Function.update_eq_self]

/-- Others' steps. -/
theorem share_grows {s : ChannelState Nat} (hg : Grows p.loop s) (jobs : Nat → Job) (store : InMemoryJobStore) :
    Relation.ReflGen Share.Step p.share ({ p with loop := s, jobs := jobs, store := store } : Pool W).share := by
  cases hg with
  | accept r hopen =>
    have hstep := Share.Step.accept (s := p.share) hopen
    have hshare : ({ p with
        loop := { p.loop with
          chan := { p.loop.chan with queue := p.loop.chan.queue ++ [p.loop.sent.length] }, sent := p.loop.sent ++ [some r] }
        jobs := jobs, store := store } : Pool W).share =
          { p.share with accepted := p.share.accepted + 1, queue := p.share.queue ++ [p.share.accepted] } := by
      simp [share]
    rw [hshare]
    exact .single hstep
  | stop => exact .single .close
  | same => exact .refl

theorem hand_set {calls : List Chan.Receive} {i : Nat} (c : Chan.Receive) {l : Loop}
    (hl : ∀ stopped, l ≠ .receiving stopped i) : l.hand (calls.set i c) = l.hand calls := by
  cases l with
  | receiving stopped j =>
    have hij : i ≠ j := by
      rintro rfl
      exact hl stopped rfl
    simp only [Loop.hand, List.getElem?_set_ne hij]
  | _ => rfl

/-- A turn of a call is its worker's fetch, or no step of the share. -/
theorem share_turn (h : Linked p) {i : Nat} {c c' : Chan.Receive} {q : List Nat} (ht : CallTurn p.loop i c c' q) :
    Relation.ReflGen Share.Step p.share ({ p with
      loop := { p.loop with chan := { p.loop.chan with queue := q }, calls := p.loop.calls.set i c' } } : Pool W).share := by
  obtain ⟨w, stopped, hw⟩ := h.waits i c ht.call ht.live
  have hhand : (fun v => (p.workers v).hand (p.loop.calls.set i c')) = Function.update p.share.hand w c'.value := by
    funext v
    rw [Function.update_apply]
    by_cases hv : v = w
    · rw [if_pos hv, hv, hw]
      simp [Loop.hand, List.getElem?_set_self (List.getElem?_eq_some_iff.1 ht.call).1]
    · rw [if_neg hv]
      exact hand_set c' fun st hst => hv (h.one v w st stopped i hst hw)
  have hold : p.share.hand w = c.value := by
    show (p.workers w).hand p.loop.calls = c.value
    rw [hw]
    simp [Loop.hand, ht.call]
  have hshare : ({ p with
      loop := { p.loop with chan := { p.loop.chan with queue := q }, calls := p.loop.calls.set i c' } } : Pool W).share =
        { p.share with queue := q, hand := Function.update p.share.hand w c'.value } := by
    rw [← hhand]
    rfl
  rw [hshare]
  obtain ⟨rfl, hval⟩ | ⟨n, hn, hnone, hsome⟩ := ht.takes
  · rw [hval, ← hold, Function.update_eq_self]
    exact .refl
  · rw [hsome]
    exact .single (.fetch (hold.trans hnone) hn)

/-- A worker that starts to receive has fetched, on a stopped channel, or has nothing yet. -/
theorem share_receive (h : Linked p) {w : W} {stopped : Option Exn} {c : Chan.Receive} {q : List Nat}
    (hw : p.workers w = .top stopped) (ho : Opens p.loop.chan c q) :
    Relation.ReflGen Share.Step p.share ({ p with
      loop := { p.loop with chan := { p.loop.chan with queue := q }, calls := p.loop.calls ++ [c] } }.move w
        (.receiving stopped p.loop.calls.length)).share := by
  have hkeep : ∀ v, (p.workers v).hand (p.loop.calls ++ [c]) = p.share.hand v := by
    intro v
    show (p.workers v).hand _ = (p.workers v).hand _
    cases hv : p.workers v with
    | receiving st i => simp only [Loop.hand, List.getElem?_append_left (h.bound v st i hv)]
    | _ => rfl
  have hempty : p.share.hand w = none := by
    show (p.workers w).hand _ = none
    rw [hw]
    rfl
  have hleft : p.share.left w = (Loop.receiving stopped p.loop.calls.length).drained := by
    show (p.workers w).drained = _
    rw [hw]
    rfl
  have hnew : (Loop.receiving stopped p.loop.calls.length).hand (p.loop.calls ++ [c]) = c.value := by
    simp [Loop.hand]
  have hshare : ({ p with
      loop := { p.loop with chan := { p.loop.chan with queue := q }, calls := p.loop.calls ++ [c] } }.move w
        (.receiving stopped p.loop.calls.length)).share =
        { p.share with queue := q, hand := Function.update p.share.hand w c.value } := by
    rw [share_move, ← hleft, show ({ p with loop := { p.loop with
      chan := { p.loop.chan with queue := q }, calls := p.loop.calls ++ [c] } } : Pool W).share =
        { p.share with queue := q } from ?_]
    · show ({ p.share with queue := q, hand := Function.update p.share.hand w (Loop.hand (p.loop.calls ++ [c]) _)
                           left := Function.update p.share.left w (p.share.left w) } : Share W) = _
      rw [hnew, Function.update_eq_self]
    · show ({ p.share with queue := q, hand := fun v => (p.workers v).hand (p.loop.calls ++ [c]) } : Share W) = _
      simp only [hkeep]
  rw [hshare]
  cases ho with
  | wait =>
    show Relation.ReflGen Share.Step p.share { p.share with hand := Function.update p.share.hand w none }
    rw [← hempty, Function.update_eq_self]
  | drain _ hq => exact .single (.fetch hempty hq)
  | empty _ hq =>
    show Relation.ReflGen Share.Step p.share { p.share with queue := [], hand := Function.update p.share.hand w none }
    rw [← hempty, Function.update_eq_self, ← hq]
    exact .refl

/-- The loop ends by a drain only at its own end. -/
theorem after_drained {stopped : Option Exn} {result : Except Exn Unit} {l : Loop}
    (h : Loop.after stopped result = some l) : l.drained = false := by
  obtain ⟨e, -, hl⟩ | rfl | ⟨msg, job, rfl⟩ := after_cases h
  · exact hl
  · rfl
  · rfl

theorem after_hand {stopped : Option Exn} {result : Except Exn Unit} {l : Loop} (h : Loop.after stopped result = some l)
    (calls : List Chan.Receive) : l.hand calls = none := by
  obtain ⟨e, rfl, -⟩ | rfl | ⟨msg, job, rfl⟩ := after_cases h
  · rfl
  · rfl
  · rfl

/-- **The pool refines a share of work.** -/
theorem share_step {st : PoolStep W} (h : Linked p) (hs : p.step st = some p') :
    Relation.ReflGen Share.Step p.share p'.share := by
  cases step_moves h hs with
  | environment jobs store _ hg => exact share_grows hg jobs store
  | turn _ ht => exact share_turn h ht
  | receive hw ho => exact share_receive h hw ho
  | @noJob w stopped i hw hi =>
    obtain ⟨hstop, hempty⟩ := h.calls _ (List.mem_of_getElem? hi)
    have hhand : (Loop.noJob stopped).hand p.loop.calls = p.share.hand w := by
      show _ = (p.workers w).hand _
      rw [hw]
      cases stopped <;> simp [Loop.hand, Loop.noJob, hi, Chan.Receive.value]
    have hleft : (Loop.noJob stopped).drained = true := by
      cases stopped with
      | none => rfl
      | some e =>
        obtain ⟨msg, job, rfl⟩ := h.noted w e (by rw [hw]; rfl)
        rfl
    rw [share_move, hhand, Function.update_eq_self, hleft]
    exact .single (.leave hstop hempty)
  | @start w stopped i n r job hw hi hr =>
    have hhand : p.share.hand w = some n := by
      show (p.workers w).hand _ = _
      rw [hw]
      simp [Loop.hand, hi, Chan.Receive.value]
    have hleft : p.share.left w = false := by
      show (p.workers w).drained = _
      rw [hw]
      rfl
    have hshare : ({ p with started := Function.update p.started w (p.started w ++ [n]) }.move w
        (.processing stopped r (process job))).share = { p.share with
          hand := Function.update p.share.hand w none
          started := Function.update p.share.started w (p.share.started w ++ [n]) } := by
      rw [share_move]
      show ({ p.share with
        hand := _, started := _, left := Function.update p.share.left w false } : Share W) = _
      rw [← hleft, Function.update_eq_self]
      rfl
    rw [hshare]
    exact .single (.start hhand)
  | @work w c stopped r rest rest' s jobs store hw hnext hg =>
    have hcalls := share_grows hg jobs store
    rwa [← share_move_same (p := { p with loop := s, jobs := jobs, store := store }) (w := w)
      (l := .processing stopped r rest') (by rw [hw]; rfl) (by rw [hw]; rfl)] at hcalls
  | @settle w stopped r rest result l hw hf hafter =>
    rw [share_move_same p (by rw [hw, after_hand hafter]; rfl) (by rw [hw, after_drained hafter]; rfl)]

/-! ## Every run -/

theorem run_keeps {P : Pool W → Prop} (hP : ∀ {p st p'}, P p → p.step st = some p' → P p') :
    ∀ {sts : List (PoolStep W)} {p p' : Pool W}, P p → p.run sts = some p' → P p'
  | [],        _, _, hp, h => by
    cases h
    exact hp
  | st :: sts, _, _, hp, h => by
    obtain ⟨p₁, hstep, hrest⟩ := Option.bind_eq_some_iff.1 h
    exact run_keeps hP (hP hp hstep) hrest

theorem ledger_step {st : PoolStep W} (hl : Linked p) (hled : p.share.Ledger) (hs : p.step st = some p') :
    p'.share.Ledger := by
  have hshare := share_step hl hs
  generalize p'.share = s' at hshare ⊢
  cases hshare with
  | refl => exact hled
  | single hstep => exact hled.step hstep

theorem reached {maxsize : Nat} {jobs : Nat → Job} {store : InMemoryJobStore} {sts : List (PoolStep W)}
    (h : (new maxsize jobs store).run sts = some p) : Linked p ∧ p.share.Ledger := by
  refine run_keeps (P := fun p => Linked p ∧ p.share.Ledger) ?_ ⟨linked_new maxsize jobs store, Share.ledger_start⟩ h
  rintro p st p' ⟨hl, hled⟩ hs
  exact ⟨hl.step hs, ledger_step hl hled hs⟩

/-- **Workers that share a channel start each job once**: in every state that is reached, each job that a send accepted is in
one place: queued, taken by the receive of one worker, or started by one.  Every worker starts its jobs in the order they
were accepted; a worker that has drained the channel leaves it stopped and empty; and when all have ended, one of them by a
drain, every accepted job was started once. -/
theorem workers_share_jobs (maxsize : Nat) (jobs : Nat → Job) (store : InMemoryJobStore) (sts : List (PoolStep W))
    (p : Pool W) (h : (new maxsize jobs store).run sts = some p) :
    (∀ n, n < p.loop.sent.length → ∃ spot, (p.share.held spot).count n = 1 ∧
      ∀ spot', spot' ≠ spot → n ∉ p.share.held spot') ∧
    (∀ w, (p.started w).Pairwise (· < ·)) ∧
    (∀ w, (p.workers w).drained = true → p.loop.chan.stop = true ∧ p.loop.chan.queue = []) ∧
    ((∀ w, (p.workers w).isEnded = true) → (∃ w, (p.workers w).drained = true) →
      ∀ n, n < p.loop.sent.length → ∃ w, (p.started w).count n = 1 ∧ ∀ w', w' ≠ w → n ∉ p.started w') := by
  obtain ⟨-, hled⟩ := reached h
  refine ⟨fun n hn => hled.one_spot hn, hled.started_sorted, hled.left, fun hended ⟨w, hw⟩ n hn => ?_⟩
  refine hled.all_started (w := w) hw (fun v => ?_) hn
  show (p.workers v).hand _ = none
  have hv := hended v
  cases hl : p.workers v with
  | ended result => rfl
  | _ =>
    rw [hl] at hv
    cases hv

/-- Two scheduled jobs. -/
def scheduledJobs (r : Nat) : Job :=
  { ref := r, id := if r = 0 then "a" else "b", workflows := [⟨[]⟩], fsm := some .scheduled,
    status := Status.scheduled.value }

/-- Two workers wait, and each is given a job. -/
def twoReceives : List (PoolStep Bool) :=
  [.receive true, .receive false, .send 0, .send 1, .runGet 0, .resume 0, .runStop 0, .resume 0, .take true, .runGet 1,
    .resume 1, .runStop 1, .resume 1, .take false]

/-- A worker's actions on a job that is run. -/
def wholeProcess (w : Bool) : List (PoolStep Bool) := List.replicate 21 (.act w {}) ++ [.settle w]

/-- Two workers, two jobs, and then a stop. -/
def twoWorkers : List (PoolStep Bool) :=
  twoReceives ++ wholeProcess true ++ wholeProcess false ++
    [.requestStop, .receive false, .take false, .receive true, .take true]

theorem workers_share_jobs_two : ∃ p, (new 0 scheduledJobs InMemoryJobStore.empty).run twoWorkers = some p ∧
    p.loop.sent.length = 2 ∧ ∀ n, n < 2 → ∃ w, (p.started w).count n = 1 ∧ ∀ w', w' ≠ w → n ∉ p.started w' := by
  have hrun : ((new 0 scheduledJobs InMemoryJobStore.empty).run twoWorkers).any (fun p => decide (p.loop.sent.length = 2 ∧
      ∀ w, (p.workers w).isEnded = true ∧ (p.workers w).drained = true)) = true := by decide
  obtain ⟨p, hp, hend⟩ := (Option.any_eq_true _ _).1 hrun
  obtain ⟨hsent, hended⟩ := of_decide_eq_true hend
  obtain ⟨-, -, -, hall⟩ := workers_share_jobs 0 scheduledJobs InMemoryJobStore.empty twoWorkers p hp
  exact ⟨p, hp, hsent, fun n hn => hall (fun w => (hended w).1) ⟨true, (hended true).2⟩ n (hsent ▸ hn)⟩

/-! ## The end of a stopped pool -/

/-- How far a worker of a stopped channel is from its end, as long as its receive takes nothing from the queue. -/
def rank (calls : List Chan.Receive) : Loop → Nat × Nat × JobProg Unit
  | .receiving _ i       =>
    match calls[i]? with
    | some (.returned none) => (1, 0, .ret ())
    | some c                => (4, c.turns, .ret ())
    | none                  => (4, 0, .ret ())
  | .processing _ _ rest => (3, 0, rest)
  | .top _               => (2, 0, .ret ())
  | .ended _             => (0, 0, .ret ())

abbrev Nearer : Nat × Nat × JobProg Unit → Nat × Nat × JobProg Unit → Prop :=
  Prod.Lex (· < ·) (Prod.Lex (· < ·) Act.Next)

/-- What is queued, and then how far each worker is. -/
def measure (p : Pool W) : Nat × (W → Nat × Nat × JobProg Unit) :=
  (p.loop.chan.queue.length, fun w => rank p.loop.calls (p.workers w))

abbrev Less : Nat × (W → Nat × Nat × JobProg Unit) → Nat × (W → Nat × Nat × JobProg Unit) → Prop :=
  Prod.Lex (· < ·) (Conc.Lowers Nearer)

omit [DecidableEq W] in
theorem less_wellFounded [Finite W] : WellFounded (Less (W := W)) :=
  WellFounded.prod_lex Nat.lt_wfRel.wf
    (Conc.Lowers.wellFounded (WellFounded.prod_lex Nat.lt_wfRel.wf (WellFounded.prod_lex Nat.lt_wfRel.wf Act.next_wellFounded)))

/-- A worker that moves alone comes nearer to its end. -/
theorem less_move {p : Pool W} {w : W} {l : Loop} (h : Nearer (rank p.loop.calls l) (rank p.loop.calls (p.workers w))) :
    Less (p.move w l).measure p.measure := by
  refine .right _ ⟨w, ?_, fun v hv => ?_⟩
  · show Nearer (rank p.loop.calls ((p.move w l).workers w)) _
    rw [workers_move, if_pos rfl]
    exact h
  · show rank p.loop.calls ((p.move w l).workers v) = _
    rw [workers_move, if_neg hv]

/-- On a stopped channel others change neither the queue nor the calls. -/
theorem grows_stopped {s s' : ChannelState Nat} (hg : Grows s s') (hstop : s.chan.stop = true) :
    s'.chan.queue = s.chan.queue ∧ s'.calls = s.calls ∧ s'.chan.stop = true := by
  cases hg with
  | accept r hopen =>
    rw [hopen] at hstop
    cases hstop
  | stop => exact ⟨rfl, rfl, rfl⟩
  | same => exact ⟨rfl, rfl, hstop⟩

theorem rank_set {calls : List Chan.Receive} {i : Nat} (c : Chan.Receive) {l : Loop}
    (hl : ∀ stopped, l ≠ .receiving stopped i) : rank (calls.set i c) l = rank calls l := by
  cases l with
  | receiving stopped j =>
    have hij : i ≠ j := by
      rintro rfl
      exact hl stopped rfl
    simp only [rank, List.getElem?_set_ne hij]
  | _ => rfl

omit [DecidableEq W] in
/-- A turn of a call takes from the queue, or brings its worker nearer to its end. -/
theorem less_turn (h : Linked p) {i : Nat} {c c' : Chan.Receive} {q : List Nat} (ht : CallTurn p.loop i c c' q) :
    Less ({ p with
      loop := { p.loop with chan := { p.loop.chan with queue := q }, calls := p.loop.calls.set i c' } } : Pool W).measure
        p.measure := by
  obtain ⟨rfl, -⟩ | ⟨n, hn, -⟩ := ht.takes
  · obtain ⟨w, stopped, hw⟩ := h.waits i c ht.call ht.live
    refine .right _ ⟨w, ?_, fun v hv => ?_⟩
    · have hold : rank p.loop.calls (p.workers w) = (4, c.turns, .ret ()) := by
        rw [hw]
        simp only [rank, ht.call]
        split
        · rename_i he
          have hlive := ht.live
          rw [Option.some.inj he] at hlive
          cases hlive
        · rename_i he
          rw [Option.some.inj he]
        · rename_i he
          cases he
      have hnew : rank (p.loop.calls.set i c') (p.workers w) = (1, 0, .ret ()) ∨
          rank (p.loop.calls.set i c') (p.workers w) = (4, c'.turns, .ret ()) := by
        rw [hw]
        simp only [rank, List.getElem?_set_self (List.getElem?_eq_some_iff.1 ht.call).1]
        split
        · exact .inl rfl
        · rename_i he
          rw [Option.some.inj he]
          exact .inr rfl
        · rename_i he
          cases he
      show Nearer (rank (p.loop.calls.set i c') (p.workers w)) (rank p.loop.calls (p.workers w))
      rw [hold]
      rcases hnew with hnew | hnew
      · rw [hnew]
        exact .left _ _ (by decide)
      · rw [hnew]
        exact .right _ (.left _ _ ht.fewer)
    · exact rank_set c' fun st hst => hv (h.one v w st stopped i hst hw)
  · refine .left _ _ ?_
    show q.length < p.loop.chan.queue.length
    rw [hn, List.length_cons]
    exact Nat.lt_succ_self _

/-- On a stopped channel a receive takes from the queue, or gives no job. -/
theorem less_receive (h : Linked p) {w : W} {stopped : Option Exn} {c : Chan.Receive} {q : List Nat}
    (hstop : p.loop.chan.stop = true) (hw : p.workers w = .top stopped) (ho : Opens p.loop.chan c q) :
    Less ({ p with
      loop := { p.loop with chan := { p.loop.chan with queue := q }, calls := p.loop.calls ++ [c] } }.move w
        (.receiving stopped p.loop.calls.length)).measure p.measure := by
  cases ho with
  | wait hopen =>
    rw [hopen] at hstop
    cases hstop
  | @drain n q _ hq =>
    refine .left _ _ ?_
    show q.length < p.loop.chan.queue.length
    rw [hq, List.length_cons]
    exact Nat.lt_succ_self _
  | empty _ hq =>
    have hlen : p.measure.1 = 0 := by
      show p.loop.chan.queue.length = 0
      rw [hq]
      rfl
    show Prod.Lex _ _ (0, _) (p.measure.1, p.measure.2)
    rw [hlen]
    refine .right _ ⟨w, ?_, fun v hv => ?_⟩
    · beta_reduce
      rw [workers_move, if_pos rfl]
      show Nearer (rank (p.loop.calls ++ [.returned none]) (.receiving stopped p.loop.calls.length))
        (rank p.loop.calls (p.workers w))
      rw [hw]
      simp only [rank, List.getElem?_concat_length]
      exact .left _ _ (by decide)
    · beta_reduce
      rw [workers_move, if_neg hv]
      show rank (p.loop.calls ++ [.returned none]) (p.workers v) = rank p.loop.calls (p.workers v)
      cases hl : p.workers v with
      | receiving st i => simp only [rank, List.getElem?_append_left (h.bound v st i hl)]
      | _ => rfl

/-- **Every step of a worker of a stopped channel leads to the end**; those of others change nothing of that. -/
theorem less_step {st : PoolStep W} (h : Linked p) (hstop : p.loop.chan.stop = true) (hs : p.step st = some p') :
    p'.loop.chan.stop = true ∧ (st.work = true → Less p'.measure p.measure) ∧
      (¬ st.work = true → p'.measure = p.measure) := by
  cases step_moves h hs with
  | @environment st s jobs store hwork hg =>
    obtain ⟨hq, hc, hs'⟩ := grows_stopped hg hstop
    refine ⟨hs', fun hw => ?_, fun _ => ?_⟩
    · rw [hwork] at hw
      cases hw
    · simp only [measure, hq, hc]
  | turn hwork ht => exact ⟨hstop, fun _ => less_turn h ht, fun hn => absurd hwork hn⟩
  | receive hw ho => exact ⟨hstop, fun _ => less_receive h hstop hw ho, fun hn => absurd rfl hn⟩
  | @noJob w stopped i hw hi =>
    refine ⟨hstop, fun _ => less_move ?_, fun hn => absurd rfl hn⟩
    rw [hw]
    simp only [rank, hi]
    cases stopped <;> exact .left _ _ (by decide)
  | @start w stopped i n r job hw hi hr =>
    refine ⟨hstop, fun _ => ?_, fun hn => absurd rfl hn⟩
    refine less_move (p := { p with started := Function.update p.started w (p.started w ++ [n]) }) ?_
    show Nearer (3, 0, process job) (rank p.loop.calls (p.workers w))
    rw [hw]
    simp only [rank, hi]
    exact .left _ _ (by decide)
  | @work w c stopped r rest rest' s jobs store hw hnext hg =>
    obtain ⟨hq, hc, hs'⟩ := grows_stopped hg hstop
    refine ⟨hs', fun _ => ?_, fun hn => absurd rfl hn⟩
    have hsame : ({ p with loop := s, jobs := jobs, store := store } : Pool W).measure = p.measure := by
      simp only [measure, hq, hc]
    rw [← hsame]
    refine less_move ?_
    show Nearer (3, 0, rest') (rank s.calls (p.workers w))
    rw [hw]
    exact .right _ (.right _ hnext)
  | @settle w stopped r rest result l hw hf hafter =>
    refine ⟨hstop, fun _ => less_move ?_, fun hn => absurd rfl hn⟩
    rw [hw]
    obtain ⟨e, rfl, -⟩ | rfl | ⟨msg, job, rfl⟩ := after_cases hafter
    · exact .left _ _ (by simp)
    · exact .left _ _ (by simp)
    · exact .left _ _ (by simp)

/-! ### Nothing gets stuck -/

/-- A receive that waits on a running, empty channel. -/
def Idle (p : Pool W) (w : W) : Prop :=
  p.loop.chan.stop = false ∧ p.loop.chan.queue = [] ∧
    ∃ stopped i, p.workers w = .receiving stopped i ∧ p.loop.calls[i]? = some (.live .wait .pending .pending)

/-- An await of a workflow that never ends. -/
def Hung (p : Pool W) (w : W) : Prop :=
  ∃ stopped r rest, p.workers w = .processing stopped r rest ∧ rest.finished = some (.error .hung)

/-- An open call that no task of its own and no stop moves waits for the first value. -/
theorem idle_of_stuck (hok : ∀ c ∈ p.loop.calls, CallOk p.loop.chan c) {i : Nat} {c : Chan.Receive}
    (hi : p.loop.calls[i]? = some c) (hlive : c.isLive = true)
    (hstuck : ∀ st : PoolStep W, st.work = true → p.step st = none) :
    p.loop.chan.stop = false ∧ p.loop.chan.queue = [] ∧ c = .live .wait .pending .pending := by
  have hget : p.loop.step (.runGet i) = none := Option.map_eq_none_iff.1 (hstuck (.runGet i) rfl)
  have hstop : p.loop.step (.runStop i) = none := Option.map_eq_none_iff.1 (hstuck (.runStop i) rfl)
  have hres : p.loop.step (.resume i) = none := Option.map_eq_none_iff.1 (hstuck (.resume i) rfl)
  simp only [ChannelState.step, ChannelState.resume, hi] at hget hstop hres
  cases c with
  | returned item => cases hlive
  | cancelled get stop => cases hlive
  | live a get stop =>
    have hc := hok _ (List.mem_of_getElem? hi)
    cases a with
    | wait =>
      obtain ⟨rfl | ⟨n, rfl⟩, rfl | ⟨rfl, hs⟩⟩ := hc
      · refine ⟨?_, ?_, rfl⟩
        · cases hs : p.loop.chan.stop with
          | false => rfl
          | true => simp [LoopTask.runStop, hs] at hstop
        · cases hq : p.loop.chan.queue with
          | nil => rfl
          | cons n q => simp [LoopTask.runGet, hq] at hget
      · simp [LoopTask.isDone] at hres
      · simp [LoopTask.isDone] at hres
      · simp [LoopTask.isDone] at hres
    | getTask =>
      obtain ⟨rfl | rfl, hs⟩ := hc
      · simp [LoopTask.runGet] at hget
      · simp [LoopTask.isDone] at hres
    | stopTask =>
      obtain ⟨⟨n, rfl⟩, hpending⟩ := hc
      cases stop with
      | pending => exact absurd rfl hpending
      | cancelling => simp [LoopTask.runStop] at hstop
      | done u => simp [LoopTask.isDone] at hres
      | cancelled => simp [LoopTask.isDone] at hres

/-- Every action of `_process` can be done. -/
theorem perform_isSome (p : Pool W) (w : W) (stopped : Option Exn) (r : Nat) (c : Choice) {a : Act} (ha : a ≠ .receive)
    (k : a.Res → JobProg Unit) : (p.perform w stopped r c a k).isSome := by
  cases a with
  | send =>
    obtain ⟨s, hs⟩ := Chan.send_isSome p.loop (some r)
    simp [perform, onLoop, hs]
  | receive => exact absurd rfl ha
  | _ => simp [perform, Ctx.step, Ctx.blocked]

/-- What is settled goes on, unless it is an await that never ends. -/
theorem after_isSome {stopped : Option Exn} {result : Except Exn Unit} (h : result ≠ .error .hung) :
    ∃ l, Loop.after stopped result = some l := by
  match result with
  | .ok () => exact ⟨_, rfl⟩
  | .error e =>
    cases e with
    | hung => exact absurd rfl h
    | redelivery msg reason job =>
      simp only [Loop.after]
      split <;> exact ⟨_, rfl⟩
    | _ => exact ⟨_, rfl⟩

/-- **No worker is stuck**: where no step of a worker or of its tasks is left, each has ended, waits on a running channel
that is empty, or awaits a workflow that never ends. -/
theorem ended_or_idle (hl : Linked p) (hled : p.share.Ledger) (hstuck : ∀ st : PoolStep W, st.work = true → p.step st = none)
    (w : W) : (p.workers w).isEnded = true ∨ p.Idle w ∨ p.Hung w := by
  cases hw : p.workers w with
  | ended result => exact .inl rfl
  | top stopped =>
    have hnone := hstuck (.receive w) rfl
    simp only [step, hw, onLoop, ChannelState.step, Option.map_some, reduceCtorEq] at hnone
  | receiving stopped i =>
    obtain ⟨c, hi⟩ : ∃ c, p.loop.calls[i]? = some c := ⟨_, List.getElem?_eq_getElem (hl.bound w stopped i hw)⟩
    cases hlive : c.isLive with
    | true =>
      obtain ⟨hs, hq, rfl⟩ := idle_of_stuck hl.calls hi hlive hstuck
      exact .inr (.inl ⟨hs, hq, stopped, i, hw, hi⟩)
    | false =>
      have hnone := hstuck (.take w) rfl
      simp only [step, hw, hi] at hnone
      cases c with
      | live => cases hlive
      | cancelled => exact (hl.calls _ (List.mem_of_getElem? hi)).elim
      | returned item =>
        cases item with
        | none => cases hnone
        | some n =>
          have hgiven : n ∈ p.share.given w := by
            refine List.mem_append_right _ ?_
            show n ∈ ((p.workers w).hand p.loop.calls).toList
            rw [hw]
            simp [Loop.hand, hi, Chan.Receive.value]
          have hn : n < p.loop.sent.length := (hled.cover n).2 (.inr ⟨w, hgiven⟩)
          obtain ⟨r, hr⟩ := hl.sent _ (List.getElem_mem hn)
          simp [List.getElem?_eq_getElem hn, hr] at hnone
  | processing stopped r rest =>
    have hact := hstuck (.act w {}) rfl
    have hsettle := hstuck (.settle w) rfl
    simp only [step, hw] at hact hsettle
    cases rest with
    | ret a => simp [Prog.finished, Loop.after] at hsettle
    | raise e =>
      by_cases he : (.error e : Except Exn Unit) = .error .hung
      · exact .inr (.inr ⟨stopped, r, _, hw, congrArg some he⟩)
      · obtain ⟨l, hafter⟩ : ∃ l, Loop.after stopped (.error e) = some l := after_isSome he
        simp [Prog.finished, hafter] at hsettle
    | act a k =>
      have hsome := perform_isSome p w stopped r {} (hl.tame w stopped r _ hw).1 k
      simp only at hact
      rw [hact] at hsome
      cases hsome

/-- **A stopped pool ends**: whatever the schedule and whatever others do, finitely many steps of the workers and their
tasks are left once the channel is stopped.  And where none is left, every worker has ended or awaits a workflow that never
ends; on a running channel the others are waiting in a receive, and nothing is queued. -/
theorem stopped_pool_ends [Finite W] (maxsize : Nat) (jobs : Nat → Job) (store : InMemoryJobStore) (sts : List (PoolStep W))
    (p : Pool W) (h : (new maxsize jobs store).run sts = some p) :
    (p.loop.chan.stop = true → ∀ (s : Nat → Pool W) (l : Nat → PoolStep W), s 0 = p →
      (∀ k, (s k).step (l k) = some (s (k + 1))) → ∃ N, ∀ k, N ≤ k → (l k).work = false) ∧
    ((∀ st : PoolStep W, st.work = true → p.step st = none) →
      ∀ w, (p.workers w).isEnded = true ∨ p.Idle w ∨ p.Hung w) := by
  obtain ⟨hl, hled⟩ := reached h
  refine ⟨fun hstop s l hs hrun => ?_, fun hstuck w => ended_or_idle hl hled hstuck w⟩
  obtain ⟨N, hN⟩ := Conc.finitely_many less_wellFounded (fun (p : Pool W) st p' => p.step st = some p')
    (fun st => st.work = true) (fun p => Linked p ∧ p.loop.chan.stop = true) measure
    (fun hk hstep => ⟨hk.1.step hstep, (less_step hk.1 hk.2 hstep).1⟩)
    (fun hk hstep hwork => (less_step hk.1 hk.2 hstep).2.1 hwork)
    (fun hk hstep hwork => (less_step hk.1 hk.2 hstep).2.2 hwork) s l (by rw [hs]; exact ⟨hl, hstop⟩) hrun
  exact ⟨N, fun k hk => Bool.eq_false_iff.2 (hN k hk)⟩

/-- Two workers whose channel is stopped while both hold a job. -/
theorem stopped_pool_ends_two : ∃ p, (new 0 scheduledJobs InMemoryJobStore.empty).run (twoReceives ++ [.requestStop]) = some p ∧
    (∀ w, (p.workers w).isEnded = false) ∧ ∀ (s : Nat → Pool Bool) (l : Nat → PoolStep Bool), s 0 = p →
      (∀ k, (s k).step (l k) = some (s (k + 1))) → ∃ N, ∀ k, N ≤ k → (l k).work = false := by
  have hrun : ((new 0 scheduledJobs InMemoryJobStore.empty).run (twoReceives ++ [.requestStop])).any (fun p =>
      decide (p.loop.chan.stop = true ∧ ∀ w, (p.workers w).isEnded = false)) = true := by decide
  obtain ⟨p, hp, hstop⟩ := (Option.any_eq_true _ _).1 hrun
  obtain ⟨hstop, hrest⟩ := of_decide_eq_true hstop
  exact ⟨p, hp, hrest, (stopped_pool_ends 0 scheduledJobs InMemoryJobStore.empty _ p hp).1 hstop⟩

end Pool
end Pypepper
