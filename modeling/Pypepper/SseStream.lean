import Pypepper.ProgPar
import Pypepper.SseText
/-!
# SseStream — `sse_stream` and its events task

`network/http/sse/stream.py`.  A stream generator connects, runs the handler's callbacks, sends what its connection's queue
holds, and disconnects when it ends; the handler's events reach the queue through a task of their own.  Generators, tasks and
publishers are threads that interleave at their actions, with the environment choosing what each callback does: a callback,
an await and a `yield` may each raise, which is also how a cancellation or an `aclose` reaches the generator.

A loop runs for at most its thread's fuel and is then pending: a run with any number of rounds is a run with enough of it.
-/
namespace Pypepper
namespace Sse

open Conc (Prog Proto Sem Conf Ev Admits)

/-- What a stream, its events task and a publisher do, one step of the event loop each. -/
inductive StreamAct where
  | connect (args : SSEConnectionManager.ConnectArgs)
  | onConnect (r : Nat)
  | createTask (r : Nat)
  | isDisconnected
  | getEvent (r : Nat)
  | toText (ev : SSEEvent)
  | yield (text : String)
  | heartbeat
  | cancelTask
  | awaitTask
  | onDisconnect (r : Nat)
  | disconnect (r : Nat)
  | startTask
  | nextEvent (r : Nat)
  | send (r : Nat) (ev : SSEEvent) (record : Bool)
  | record (ev : SSEEvent)
  | endTask
  | pending

def StreamAct.Res : StreamAct → Type
  | .connect _       => Except StreamExn Nat
  | .onConnect _     => Except StreamExn Unit
  | .isDisconnected  => Except StreamExn Bool
  | .getEvent _      => Except StreamExn SSEEvent
  | .toText _        => Except StreamExn String
  | .yield _         => Except StreamExn Unit
  | .heartbeat       => Except StreamExn Unit
  | .awaitTask       => Except StreamExn Unit
  | .onDisconnect _  => Except StreamExn Unit
  | .startTask       => Except StreamExn Nat
  | .nextEvent _     => Except StreamExn (Option SSEEvent)
  | .send _ _ _      => Bool
  | _                => Unit

abbrev StreamProg := Prog StreamAct StreamAct.Res StreamExn

/-! ## The generator -/

def do_ (a : StreamAct) : StreamProg a.Res := Prog.call a

/-- An action whose answer may be an exception. -/
def await {α : Type} (p : StreamProg (Except StreamExn α)) : StreamProg α := p.bind Prog.ofExcept

/-- One event from the queue to the client. -/
def sendNext (r : Nat) : StreamProg Unit := do
  let ev ← await (do_ (.getEvent r))
  let text ← await (do_ (.toText ev))
  await (do_ (.yield text))

/-- The streaming loop: a timeout sends a heartbeat, any other `Exception` ends the loop, and what is none escapes. -/
def streamLoop (r : Nat) : Nat → StreamProg Unit
  | 0        => do_ .pending
  | fuel + 1 => do
    if ← await (do_ .isDisconnected) then return ()
    else match ← (sendNext r).attempt with
      | .ok ()                  => streamLoop r fuel
      | .error .timeout         => do
        await (do_ .heartbeat)
        streamLoop r fuel
      | .error (.internal _)    => return ()
      | .error (.exception _)   => return ()
      | .error e                => Prog.raise e

/-- The body of the generator's `try`. -/
def streamBody (r fuel : Nat) : StreamProg Unit := do
  await (do_ (.onConnect r))
  do_ (.createTask r)
  streamLoop r fuel
  do_ .cancelTask
  match ← (await (do_ .awaitTask)).attempt with
  | .ok ()            => return ()
  | .error .cancelled => return ()
  | .error e          => Prog.raise e

/-- `sse_stream`: the `finally` runs the callback and then removes the connection. -/
def sseStream (args : SSEConnectionManager.ConnectArgs) (fuel : Nat) : StreamProg Unit := do
  let r ← await (do_ (.connect args))
  let result ← (streamBody r fuel).attempt
  await (do_ (.onDisconnect r))
  do_ (.disconnect r)
  Prog.ofExcept result

/-! ## The events task -/

def consumeLoop (r : Nat) : Nat → StreamProg Unit
  | 0        => do_ .pending
  | fuel + 1 => do
    match ← await (do_ (.nextEvent r)) with
    | none    => return ()
    | some ev => do
      let _ ← do_ (.send r ev true)
      consumeLoop r fuel

/-- `_consume_handler_events`: a cancellation ends it quietly, an `Exception` is logged. -/
def consumeHandlerEvents (r fuel : Nat) : StreamProg Unit :=
  (consumeLoop r fuel).tryExcept (fun
    | .generatorExit => Prog.raise .generatorExit
    | _              => return ())

/-- The task, from its first step to its end. -/
def eventsTask (fuel : Nat) : StreamProg Unit := do
  let _ ← (do
    let r ← await (do_ .startTask)
    consumeHandlerEvents r fuel : StreamProg Unit).attempt
  do_ .endTask

/-! ## The system -/

inductive StreamThread where
  | stream (n : Nat)
  | events (n : Nat)
  | publisher (n : Nat)
  deriving DecidableEq

/-- A stream and its events task have one number. -/
def StreamThread.index : StreamThread → Nat
  | .stream n    => n
  | .events n    => n
  | .publisher n => n

/-- The events task of a stream: `cancel` on a running one is a request that it may still be handling. -/
inductive TaskState where
  | none
  | running (r : Nat)
  | cancelling (r : Nat)
  | finished
  deriving DecidableEq

structure StreamState where
  manager : SSEConnectionManager
  task    : Nat → TaskState

/-- The environment's choice at an action: whether it raises, whether the client has gone, the handler's next event. -/
structure StreamChoice where
  outcome : Except StreamExn Unit := .ok ()
  gone    : Bool := false
  next    : Option SSEEvent := none

def StreamChoice.answer {α : Type} (c : StreamChoice) (a : α) : Except StreamExn α :=
  match c.outcome with
  | .ok ()   => .ok a
  | .error e => .error e

def StreamState.setTask (s : StreamState) (n : Nat) (t : TaskState) : StreamState :=
  { s with task := Function.update s.task n t }

def TaskState.cancel : TaskState → TaskState
  | .running r => .cancelling r
  | t          => t

/-- What an action does; no answer while it has to wait. -/
def streamExec (limits : Limits) (c : StreamChoice) (t : StreamThread) :
    (a : StreamAct) → StreamState → Option (a.Res × StreamState)
  | .connect args,      s => some ((s.manager.connect limits args).1,
      { s with manager := (s.manager.connect limits args).2 })
  | .onConnect _,       s => some (c.outcome, s)
  | .createTask r,      s =>
    match t with
    | .stream n => some ((), s.setTask n (.running r))
    | _         => none
  | .isDisconnected,    s => some (c.answer c.gone, s)
  | .getEvent r,        s =>
    match c.outcome, (s.manager.conn r).queue with
    | .error e, _       => some (.error e, s)
    | .ok (),   []      => none
    | .ok (),   ev :: q => some (.ok ev,
        { s with manager := s.manager.modify r (fun c => { c with queue := q }) (fun _ => rfl) })
  | .toText ev,         s => some (c.answer (serializeSseEvent ev), s)
  | .yield _,           s => some (c.outcome, s)
  | .heartbeat,         s => some (c.outcome, s)
  | .cancelTask,        s => some ((), s.setTask t.index (s.task t.index).cancel)
  | .awaitTask,         s =>
    match c.outcome with
    | .error e => some (.error e, s)
    | .ok ()   => if s.task t.index = .finished then some (.ok (), s) else none
  | .onDisconnect _,    s => some (c.outcome, s)
  | .disconnect r,      s => some ((), { s with manager := s.manager.disconnect (s.manager.conn r).connectionId })
  | .startTask,         s =>
    match s.task t.index with
    | .running r    => some (.ok r, s)
    | .cancelling _ => some (.error .cancelled, s)
    | _             => none
  | .nextEvent _,       s => some (c.answer c.next, s)
  | .send r ev record,  s => some ((s.manager.send r ev record).1, { s with manager := (s.manager.send r ev record).2 })
  | .record ev,         s => some ((), { s with manager := s.manager.recordEvent ev })
  | .endTask,           s => some ((), s.setTask t.index .finished)
  | .pending,           _ => none

abbrev StreamEv := Ev StreamThread StreamAct StreamAct.Res StreamState

abbrev StreamConf := Conf StreamThread StreamAct StreamAct.Res StreamExn Unit (StreamState × List StreamEv)

def streamSem (limits : Limits) : Sem StreamThread StreamAct StreamAct.Res StreamState :=
  Sem.ofExec (streamExec limits) (fun _ _ _ _ => True)

/-- What a publisher does: it sends to connections and records events. -/
def StreamAct.Publishes : StreamAct → Prop
  | .send _ _ _ => True
  | .record _   => True
  | _           => False

/-- Any number of streams, each with its connect's arguments, their tasks, and publishers that send what they like. -/
structure Streams where
  args       : Nat → SSEConnectionManager.ConnectArgs
  fuel       : Nat → Nat
  publishers : Nat → StreamProg Unit := fun _ => return ()
  publishes  : ∀ n, (publishers n).Only StreamAct.Publishes := by exact fun _ => trivial

def Streams.start (σ : Streams) : StreamConf where
  prog
    | .stream n    => sseStream (σ.args n) (σ.fuel n)
    | .events n    => eventsTask (σ.fuel n)
    | .publisher n => σ.publishers n
  state := (⟨SSEConnectionManager.empty, fun _ => .none⟩, [])

/-! ## What an action leaves alone -/

/-- A connection as the registry sees it: its id, its address and whether it is closed. -/
def SSEConnection.face (c : SSEConnection) : String × Option String × Bool := (c.connectionId, c.clientIp, c.closed)

/-- Nothing was registered, removed or closed. -/
structure Calm (m m' : SSEConnectionManager) : Prop where
  connections : m'.connections = m.connections
  made        : m'.made = m.made
  face        : ∀ r, (m'.conn r).face = (m.conn r).face

namespace Calm

variable {m m' : SSEConnectionManager}

theorem refl (m : SSEConnectionManager) : Calm m m := ⟨rfl, rfl, fun _ => rfl⟩

theorem modify {r : Nat} {f : SSEConnection → SSEConnection} {hf} (h : ∀ c, (f c).face = c.face) :
    Calm m (m.modify r f hf) := by
  refine ⟨rfl, rfl, fun r' => ?_⟩
  rw [SSEConnectionManager.conn_modify]
  by_cases hr : r' = r
  · rw [if_pos hr, h, hr]
  · rw [if_neg hr]

theorem recordEvent (ev : SSEEvent) (h : Calm m m') : Calm m (m'.recordEvent ev) := by
  unfold SSEConnectionManager.recordEvent
  split
  · exact ⟨h.connections, h.made, h.face⟩
  · exact h

theorem send (r : Nat) (ev : SSEEvent) (record : Bool) : Calm m (m.send r ev record).2 := by
  unfold SSEConnectionManager.send
  split
  · exact refl m
  · split
    · dsimp only
      exact modify fun _ => rfl
    · have hm : Calm m (m.modify r (fun c => { c with queue := c.queue ++ [ev] }) (fun _ => rfl)) := modify fun _ => rfl
      dsimp only
      split
      · exact hm.recordEvent ev
      · exact hm

theorem connectionId (h : Calm m m') (r : Nat) : (m'.conn r).connectionId = (m.conn r).connectionId :=
  congrArg Prod.fst (h.face r)

theorem clientIp (h : Calm m m') (r : Nat) : (m'.conn r).clientIp = (m.conn r).clientIp :=
  congrArg (fun f => f.2.1) (h.face r)

theorem closed (h : Calm m m') (r : Nat) : (m'.conn r).closed = (m.conn r).closed :=
  congrArg (fun f => f.2.2) (h.face r)

end Calm

/-- Every action but a connect and a disconnect. -/
def StreamAct.Quiet : StreamAct → Prop
  | .connect _    => False
  | .disconnect _ => False
  | _             => True

/-- Every action of a stream between its connect and its `finally`, and every one of the other threads. -/
def StreamAct.Inner : StreamAct → Prop
  | .onDisconnect _ => False
  | a               => a.Quiet

theorem StreamAct.Inner.quiet {a : StreamAct} (h : a.Inner) : a.Quiet := by
  cases a <;> first | exact h | trivial

theorem inner_await {α : Type} {p : StreamProg (Except StreamExn α)} (h : p.Only StreamAct.Inner) :
    (await p).Only StreamAct.Inner := h.bind fun _ => .ofExcept _

theorem streamLoop_inner (r : Nat) : ∀ fuel, (streamLoop r fuel).Only StreamAct.Inner
  | 0 => .call trivial
  | fuel + 1 => by
    have hnext : (sendNext r).Only StreamAct.Inner :=
      (inner_await (.call trivial)).bind fun _ => (inner_await (.call trivial)).bind fun _ => inner_await (.call trivial)
    refine (inner_await (.call trivial)).bind fun gone => ?_
    cases gone with
    | true => exact .ret ()
    | false =>
      refine hnext.attempt.bind fun result => ?_
      match result with
      | .ok () => exact streamLoop_inner r fuel
      | .error .timeout => exact (inner_await (.call trivial)).bind fun _ => streamLoop_inner r fuel
      | .error (.internal _) => exact .ret ()
      | .error (.exception _) => exact .ret ()
      | .error .cancelled => exact .raise _
      | .error .generatorExit => exact .raise _

/-- **Between its connect and its final disconnect a stream performs inner actions.** -/
theorem streamBody_inner (r fuel : Nat) : (streamBody r fuel).Only StreamAct.Inner := by
  refine (inner_await (.call trivial)).bind fun _ => ?_
  refine (Prog.Only.call trivial).bind fun _ => ?_
  refine (streamLoop_inner r fuel).bind fun _ => ?_
  refine (Prog.Only.call trivial).bind fun _ => ?_
  refine (inner_await (.call trivial)).attempt.bind fun result => ?_
  match result with
  | .ok () => exact .ret ()
  | .error .cancelled => exact .ret ()
  | .error (.internal _) => exact .raise _
  | .error .timeout => exact .raise _
  | .error (.exception _) => exact .raise _
  | .error .generatorExit => exact .raise _

theorem onDisconnect_quiet (r : Nat) : (await (do_ (.onDisconnect r))).Only StreamAct.Quiet :=
  (Prog.Only.call trivial).bind fun _ => .ofExcept _

theorem consumeLoop_inner (r : Nat) : ∀ fuel, (consumeLoop r fuel).Only StreamAct.Inner
  | 0 => .call trivial
  | fuel + 1 => by
    refine (inner_await (.call trivial)).bind fun next => ?_
    cases next with
    | none => exact .ret ()
    | some ev => exact (Prog.Only.call trivial).bind fun _ => consumeLoop_inner r fuel

theorem eventsTask_inner (fuel : Nat) : (eventsTask fuel).Only StreamAct.Inner := by
  refine (Prog.Only.attempt ?_).bind fun _ => .call trivial
  refine (inner_await (.call trivial)).bind fun r => ?_
  refine (consumeLoop_inner r fuel).tryExcept fun e => ?_
  cases e with
  | generatorExit => exact .raise _
  | _ => exact .ret ()

theorem StreamAct.Publishes.inner {a : StreamAct} (h : a.Publishes) : a.Inner := by
  cases a <;> trivial

/-- **A quiet action leaves the registry and every connection's face.** -/
theorem streamExec_calm {limits : Limits} {c : StreamChoice} {t : StreamThread} {a : StreamAct} {s s' : StreamState}
    {res : a.Res} (ha : a.Quiet) (h : streamExec limits c t a s = some (res, s')) : Calm s.manager s'.manager := by
  cases a <;> simp only [streamExec] at h
  case connect => exact ha.elim
  case disconnect => exact ha.elim
  case getEvent r =>
    split at h
    · cases h; exact .refl _
    · cases h
    · cases h
      dsimp only
      exact .modify fun _ => rfl
  case createTask r =>
    split at h
    · cases h; exact .refl _
    · cases h
  case awaitTask =>
    split at h
    · cases h; exact .refl _
    · split at h
      · cases h; exact .refl _
      · cases h
  case startTask =>
    split at h
    · cases h; exact .refl _
    · cases h; exact .refl _
    · cases h
  case send r ev record => cases h; exact .send r ev record
  case record ev => cases h; exact (Calm.refl _).recordEvent ev
  case pending => cases h
  all_goals cases h; exact .refl _

/-- A new connection is open. -/
theorem replayed_face (limits : Limits) (args : SSEConnectionManager.ConnectArgs) (m : SSEConnectionManager) :
    (m.replayed limits args).closed = false ∧ (m.replayed limits args).clientIp = args.clientIp ∧
      (m.replayed limits args).connectionId = args.cid := by
  have replay : ∀ (evs : List SSEEvent) (c : SSEConnection), (c.replay evs).face = c.face := by
    intro evs
    induction evs with
    | nil => exact fun _ => rfl
    | cons ev evs ih =>
      intro c
      rw [SSEConnection.replay]
      split
      · rfl
      · exact ih _
  have hface : (m.replayed limits args).face = (args.connection limits).face := by
    unfold SSEConnectionManager.replayed
    split
    · rfl
    · exact replay _ _
  exact ⟨congrArg (fun f => f.2.2) hface, congrArg (fun f => f.2.1) hface, congrArg Prod.fst hface⟩

/-! ## Connects and ends -/

/-- A connect that was established: the id and the connection. -/
def connected (e : StreamEv) : Option (String × Nat) :=
  match e with
  | ⟨_, .connect args, .ok r, _, _⟩ => some (args.cid, r)
  | _                               => none

/-- A final disconnect. -/
def disconnected (e : StreamEv) : Option Nat :=
  match e with
  | ⟨_, .disconnect r, _, _, _⟩ => some r
  | _                           => none

/-- **What a step of the system can be** for the registry: a connect that is established, a final disconnect, or nothing. -/
theorem streamSem_cases {limits : Limits} {t : StreamThread} {a : StreamAct} {s s' : StreamState} {res : a.Res}
    (h : streamSem limits t a s res s') :
    (connected ⟨t, a, res, s, s'⟩ = none ∧ disconnected ⟨t, a, res, s, s'⟩ = none ∧ Calm s.manager s'.manager) ∨
    (∃ args, connected ⟨t, a, res, s, s'⟩ = some (args.cid, s.manager.made) ∧ disconnected ⟨t, a, res, s, s'⟩ = none ∧
      SSEConnectionManager.Connected limits args s.manager s'.manager) ∨
    (∃ r, connected ⟨t, a, res, s, s'⟩ = none ∧ disconnected ⟨t, a, res, s, s'⟩ = some r ∧
      s'.manager = s.manager.disconnect (s.manager.conn r).connectionId) := by
  obtain ⟨c, -, h⟩ := h
  cases a
  case connect args =>
    rcases s.manager.connect_cases limits args with ⟨e, he⟩ | ⟨m', hm, hc⟩
    · simp only [streamExec, he] at h
      cases h
      exact .inl ⟨rfl, rfl, .refl _⟩
    · simp only [streamExec, hm] at h
      cases h
      exact .inr (.inl ⟨args, rfl, rfl, hc⟩)
  case disconnect r =>
    cases h
    exact .inr (.inr ⟨r, rfl, rfl, rfl⟩)
  all_goals exact .inl ⟨rfl, rfl, streamExec_calm (by trivial) h⟩

end Sse
end Pypepper
