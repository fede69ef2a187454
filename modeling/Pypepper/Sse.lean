import Mathlib.Logic.Function.Basic
import Pypepper.Dict
import Pypepper.Json
/-!
# Sse — events, connections and the connection manager

`network/http/sse/event.py` and `connection.py`.  A connection is an object: `r` is its identity, which the registry holds
under the connection's id and which a stream keeps while it runs.  No coroutine of the manager suspends except
`broadcast`, whose sends run later, so each operation here is one step of the event loop.
-/
namespace Pypepper
namespace Sse

/-- An event; absent data is `None`, which is JSON's null. -/
structure SSEEvent where
  data    : Py.Json := .null
  rawData : Option String := none
  event   : Option String := none
  id      : Option String := none
  retry   : Option Int := none
  comment : Option String := none

/-- A string that is neither absent nor empty. -/
def truthy (s : Option String) : Option String := s.filter (fun t => decide (t ≠ ""))

/-- The exceptions of a stream: the manager's own, a timeout, a callback's, and the two that are no `Exception`. -/
inductive StreamExn where
  | internal (msg : String)
  | timeout
  | exception (msg : String)
  | cancelled
  | generatorExit
  deriving DecidableEq

structure SSEConnection where
  connectionId  : String
  lastEventId   : Option String := none
  clientIp      : Option String := none
  apiKey        : Option String := none
  maxsize       : Nat := 0
  queue         : List SSEEvent := []
  closed        : Bool := false
  droppedEvents : Nat := 0

namespace SSEConnection

/-- `asyncio.Queue.full`: a queue of size zero is unbounded. -/
def full (c : SSEConnection) : Bool := decide (0 < c.maxsize) && decide (c.maxsize ≤ c.queue.length)

/-- The replay of a new connection: events until the queue is full. -/
def replay : SSEConnection → List SSEEvent → SSEConnection
  | c, []        => c
  | c, ev :: evs => if c.full then c else replay { c with queue := c.queue ++ [ev] } evs

theorem replay_connectionId : ∀ (evs : List SSEEvent) (c : SSEConnection), (c.replay evs).connectionId = c.connectionId
  | [], _ => rfl
  | ev :: evs, c => by
    rw [replay]
    split
    · rfl
    · exact replay_connectionId evs _

theorem replay_apiKey : ∀ (evs : List SSEEvent) (c : SSEConnection), (c.replay evs).apiKey = c.apiKey
  | [], _ => rfl
  | ev :: evs, c => by
    rw [replay]
    split
    · rfl
    · exact replay_apiKey evs _

end SSEConnection

/-- The configured limits. -/
structure Limits where
  maxConnections      : Nat := 100
  maxConnectionsPerIP : Nat := 5
  maxQueueSize        : Nat := 500

def eventLogMax : Nat := 128

/-- The manager: the registry, the connection objects made so far, and the ring of the last recorded events. -/
structure SSEConnectionManager where
  connections : Py.Dict String Nat
  conn        : Nat → SSEConnection
  made        : Nat
  eventLog    : List SSEEvent
  keyed       : ∀ k r, connections.get k = some r → r < made ∧ (conn r).connectionId = k
  bounded     : eventLog.length ≤ eventLogMax

namespace SSEConnectionManager

variable (m : SSEConnectionManager)

def empty : SSEConnectionManager :=
  ⟨Py.Dict.empty, fun _ => { connectionId := "" }, 0, [], (fun _ _ h => by cases h), Nat.zero_le _⟩

/-- A change to one connection object. -/
def modify (r : Nat) (f : SSEConnection → SSEConnection) (hf : ∀ c, (f c).connectionId = c.connectionId) :
    SSEConnectionManager :=
  { m with
    conn := Function.update m.conn r (f (m.conn r))
    keyed := fun k r' h => by
      obtain ⟨hlt, hid⟩ := m.keyed k r' h
      refine ⟨hlt, ?_⟩
      by_cases hr : r' = r
      · subst hr
        rw [Function.update_self, hf, hid]
      · rw [Function.update_of_ne hr, hid] }

def close (r : Nat) : SSEConnectionManager := m.modify r (fun c => { c with closed := true }) (fun _ => rfl)

/-- The ring after one more event: the oldest goes when it is full. -/
def push (l : List SSEEvent) (ev : SSEEvent) : List SSEEvent := (l ++ [ev]).drop ((l ++ [ev]).length - eventLogMax)

theorem length_push (l : List SSEEvent) (ev : SSEEvent) : (push l ev).length ≤ eventLogMax := by
  rw [push, List.length_drop]
  omega

/-- `record_event`: an event without an id is not kept. -/
def recordEvent (ev : SSEEvent) : SSEConnectionManager :=
  if (truthy ev.id).isSome then { m with eventLog := push m.eventLog ev, bounded := length_push _ _ } else m

/-- `events_after`: the recorded events strictly after the first one with that id. -/
def eventsAfter (lastEventId : String) : List SSEEvent :=
  let (out, seen) := m.eventLog.foldl (fun acc ev =>
    if acc.2 then (acc.1 ++ [ev], true)
    else if ev.id = some lastEventId then (acc.1, true) else acc) (([] : List SSEEvent), false)
  if seen then out else []

/-- How many registered connections come from an address. -/
def ipCount (ip : String) : Nat :=
  (m.connections.values.filter (fun r => decide ((m.conn r).clientIp = some ip))).length

/-- The registry's entry of the connection's id is closed, and the connection takes its place. -/
def register (c : SSEConnection) : SSEConnectionManager :=
  let m₁ := match m.connections.get c.connectionId with
    | some old => m.close old
    | none     => m
  { connections := m₁.connections.set c.connectionId m.made
    conn := Function.update m₁.conn m.made c
    made := m.made + 1
    eventLog := m₁.eventLog
    bounded := m₁.bounded
    keyed := fun k r h => by
      have hm₁ : m₁.made = m.made := by
        simp only [m₁]
        split <;> rfl
      rw [Py.Dict.get_set] at h
      by_cases hk : k = c.connectionId
      · rw [if_pos hk, Option.some.injEq] at h
        subst h
        exact ⟨Nat.lt_succ_self _, by rw [Function.update_self, hk]⟩
      · rw [if_neg hk] at h
        obtain ⟨hlt, hid⟩ := m₁.keyed k r h
        rw [hm₁] at hlt
        exact ⟨Nat.lt_succ_of_lt hlt, by rw [Function.update_of_ne (Nat.ne_of_lt hlt), hid]⟩ }

/-- The arguments of a connect; `uuid` is the id it would generate. -/
structure ConnectArgs where
  connectionId : Option String := none
  lastEventId  : Option String := none
  clientIp     : Option String := none
  apiKey       : Option String := none
  uuid         : String := ""

def ConnectArgs.cid (a : ConnectArgs) : String := (truthy a.connectionId).getD a.uuid

/-- The new connection object. -/
def ConnectArgs.connection (a : ConnectArgs) (limits : Limits) : SSEConnection :=
  { connectionId := a.cid, lastEventId := a.lastEventId, clientIp := a.clientIp, apiKey := a.apiKey,
    maxsize := limits.maxQueueSize }

/-- `connect`: the limits are checked before anything changes. -/
def connect (limits : Limits) (a : ConnectArgs) : Except StreamExn Nat × SSEConnectionManager :=
  if limits.maxConnections ≤ m.connections.entries.length then
    (.error (.internal ("Maximum connections reached: " ++ toString limits.maxConnections)), m)
  else if (truthy a.clientIp).any (fun ip => decide (limits.maxConnectionsPerIP ≤ m.ipCount ip)) then
    (.error (.internal ("Maximum connections per IP reached: " ++ toString limits.maxConnectionsPerIP)), m)
  else
    let m₁ := m.register (a.connection limits)
    match truthy a.lastEventId with
    | none    => (.ok m.made, m₁)
    | some id => (.ok m.made, m₁.modify m.made (fun c => c.replay (m₁.eventsAfter id))
        (fun c => SSEConnection.replay_connectionId _ c))

/-- `disconnect`: whatever connection the registry holds under the id is closed and removed. -/
def disconnect (connectionId : String) : SSEConnectionManager :=
  match m.connections.get connectionId with
  | none   => m
  | some r =>
    let m₁ := m.close r
    { m₁ with
      connections := m₁.connections.pop connectionId
      keyed := fun k r' h => by
        rw [Py.Dict.get_pop] at h
        by_cases hk : k = connectionId
        · rw [if_pos hk] at h
          cases h
        · rw [if_neg hk] at h
          exact m₁.keyed k r' h }

/-- `SSEConnection.send`: a closed connection takes nothing, a full queue drops the event. -/
def send (r : Nat) (ev : SSEEvent) (record : Bool) : Bool × SSEConnectionManager :=
  if (m.conn r).closed then (false, m)
  else if (m.conn r).full then
    (false, m.modify r (fun c => { c with droppedEvents := c.droppedEvents + 1 }) (fun _ => rfl))
  else
    let m₁ := m.modify r (fun c => { c with queue := c.queue ++ [ev] }) (fun _ => rfl)
    (true, if record then m₁.recordEvent ev else m₁)

/-- The snapshot of a `broadcast`: the open connections, in the registry's order. -/
def activeConnections : List Nat := m.connections.values.filter (fun r => !(m.conn r).closed)

/-! ## What the operations do -/

variable {m}

@[simp] theorem eventLog_modify (r : Nat) (f : SSEConnection → SSEConnection) (hf) :
    (m.modify r f hf).eventLog = m.eventLog := rfl

theorem conn_modify (r : Nat) (f : SSEConnection → SSEConnection) (hf) (r' : Nat) :
    (m.modify r f hf).conn r' = if r' = r then f (m.conn r) else m.conn r' := by
  simp [modify, Function.update_apply]

/-- The events the new connection starts with. -/
def replayed (limits : Limits) (a : ConnectArgs) : SSEConnection :=
  match truthy a.lastEventId with
  | none    => a.connection limits
  | some id => (a.connection limits).replay (m.eventsAfter id)

/-- What an established connection leaves: the registry holds it under its id, and the connection it replaces is closed. -/
structure Connected (limits : Limits) (a : ConnectArgs) (m m' : SSEConnectionManager) : Prop where
  room        : m.connections.entries.length < limits.maxConnections
  roomIP      : ∀ ip ∈ truthy a.clientIp, m.ipCount ip < limits.maxConnectionsPerIP
  connections : m'.connections = m.connections.set a.cid m.made
  made        : m'.made = m.made + 1
  eventLog    : m'.eventLog = m.eventLog
  new         : m'.conn m.made = m.replayed limits a
  old         : ∀ r, r ≠ m.made → m'.conn r =
    if m.connections.get a.cid = some r then { m.conn r with closed := true } else m.conn r

theorem eventLog_register (c : SSEConnection) : (m.register c).eventLog = m.eventLog := by
  simp only [register]
  split <;> rfl

theorem connections_register (c : SSEConnection) :
    (m.register c).connections = m.connections.set c.connectionId m.made := by
  simp only [register]
  split <;> rfl

theorem conn_register_self (c : SSEConnection) : (m.register c).conn m.made = c := by
  simp [register]

theorem conn_register_of_ne (c : SSEConnection) {r : Nat} (hr : r ≠ m.made) : (m.register c).conn r =
    if m.connections.get c.connectionId = some r then { m.conn r with closed := true } else m.conn r := by
  simp only [register, Function.update_of_ne hr]
  cases hold : m.connections.get c.connectionId with
  | none => simp
  | some old =>
    by_cases h : r = old
    · simp [close, conn_modify, h]
    · have hne : ¬ old = r := fun he => h he.symm
      simp [close, conn_modify, h, hne]

/-- **Everything a connect can do**: it raises and changes nothing, or it establishes the connection. -/
theorem connect_cases (limits : Limits) (a : ConnectArgs) :
    (∃ e, m.connect limits a = (.error e, m)) ∨
    (∃ m', m.connect limits a = (.ok m.made, m') ∧ Connected limits a m m') := by
  unfold connect
  by_cases hroom : limits.maxConnections ≤ m.connections.entries.length
  · exact .inl ⟨_, if_pos hroom⟩
  · rw [if_neg hroom]
    by_cases hip : (truthy a.clientIp).any (fun ip => decide (limits.maxConnectionsPerIP ≤ m.ipCount ip)) = true
    · exact .inl ⟨_, if_pos hip⟩
    · rw [if_neg hip]
      have hroomIP : ∀ ip ∈ truthy a.clientIp, m.ipCount ip < limits.maxConnectionsPerIP := by
        intro ip h
        rw [Option.mem_def.1 h] at hip
        simpa using hip
      refine .inr ?_
      cases hid : truthy a.lastEventId with
      | none =>
        refine ⟨_, rfl, Nat.lt_of_not_le hroom, hroomIP, connections_register _, rfl, eventLog_register _, ?_, ?_⟩
        · rw [conn_register_self, replayed, hid]
        · exact fun r hr => conn_register_of_ne _ hr
      | some id =>
        refine ⟨_, rfl, Nat.lt_of_not_le hroom, hroomIP, connections_register _, rfl, eventLog_register _, ?_, ?_⟩
        · rw [conn_modify, if_pos rfl, conn_register_self, replayed, hid]
          simp only [eventsAfter, eventLog_register]
        · intro r hr
          rw [conn_modify, if_neg hr]
          exact conn_register_of_ne _ hr

/-- A connect records nothing. -/
theorem eventLog_connect (limits : Limits) (a : ConnectArgs) : (m.connect limits a).2.eventLog = m.eventLog := by
  rcases m.connect_cases limits a with ⟨e, he⟩ | ⟨m', hm, hc⟩
  · rw [he]
  · rw [hm]
    exact hc.eventLog

/-- **Everything a disconnect can do**: nothing, when the id is not registered; else it closes and removes whatever
connection is. -/
theorem disconnect_cases (cid : String) :
    (m.connections.get cid = none ∧ m.disconnect cid = m) ∨
    (∃ r, m.connections.get cid = some r ∧ (m.disconnect cid).connections = m.connections.pop cid ∧
      (m.disconnect cid).made = m.made ∧ (m.disconnect cid).eventLog = m.eventLog ∧
      ∀ r', (m.disconnect cid).conn r' = if r' = r then { m.conn r with closed := true } else m.conn r') := by
  unfold disconnect
  cases h : m.connections.get cid with
  | none => exact .inl ⟨rfl, rfl⟩
  | some r =>
    refine .inr ⟨r, rfl, rfl, rfl, rfl, fun r' => ?_⟩
    show (m.close r).conn r' = _
    rw [close, conn_modify]

theorem eventLog_disconnect (cid : String) : (m.disconnect cid).eventLog = m.eventLog := by
  obtain ⟨-, hsame⟩ | ⟨q, -, -, -, hlog, -⟩ := m.disconnect_cases cid
  · rw [hsame]
  · exact hlog

end SSEConnectionManager
end Sse
end Pypepper
