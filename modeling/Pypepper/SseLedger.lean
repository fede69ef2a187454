import Mathlib.Algebra.GroupWithZero.Nat
import Pypepper.SseRelease
/-!
# SseLedger — the queues under any interleaving

What a connection's senders offer it waits in its queue until its stream takes it, and what finds the queue full is
dropped and counted.  Through any interleaving of streams, tasks and publishers the queue gives the accepted events in
order, each once, never holds more than its size, and `get_stats` counts what the log has (`ledger_balances`).
-/
namespace Pypepper
namespace Sse

open SSEConnectionManager (Connected connect_cases disconnect_cases)

/-! ## Statistics -/

structure ConnectionStats where
  connectionId  : String
  queueSize     : Nat
  droppedEvents : Nat
  isClosed      : Bool
  lastEventId   : Option String

structure Stats where
  totalConnections   : Nat
  activeConnections  : Nat
  connectionStats    : List ConnectionStats
  totalDroppedEvents : Nat

/-- `SSEConnection.get_stats`. -/
def SSEConnection.getStats (c : SSEConnection) : ConnectionStats :=
  ⟨c.connectionId, c.queue.length, c.droppedEvents, c.closed, c.lastEventId⟩

/-- `SSEConnectionManager.get_stats`. -/
def SSEConnectionManager.getStats (m : SSEConnectionManager) : Stats :=
  let connections := m.connections.values.map m.conn
  { totalConnections := connections.length
    activeConnections := (connections.filter (fun c => !c.closed)).length
    connectionStats := connections.map SSEConnection.getStats
    totalDroppedEvents := (connections.map SSEConnection.droppedEvents).sum }

/-! ## The ledger of a connection -/

/-- What became of the events of a connection: those its queue took, those its stream took out, and how many a full queue
refused. -/
structure Ledger where
  accepted : List SSEEvent := []
  taken    : List SSEEvent := []
  dropped  : Nat := 0

/-- A connect starts the connection's ledger with its replay; a send that a closed connection refused is no drop. -/
def Ledger.note (r : Nat) (l : Ledger) (e : StreamEv) : Ledger :=
  match e with
  | ⟨_, .connect _, .ok k, _, s'⟩     => if k = r then ⟨(s'.manager.conn r).queue, [], 0⟩ else l
  | ⟨_, .send k ev _, true, _, _⟩     => if k = r then { l with accepted := l.accepted ++ [ev] } else l
  | ⟨_, .send k _ _, false, s, _⟩     =>
    if k = r ∧ (s.manager.conn r).closed = false then { l with dropped := l.dropped + 1 } else l
  | ⟨_, .getEvent k, .ok ev, _, _⟩    => if k = r then { l with taken := l.taken ++ [ev] } else l
  | _                                 => l

def ledger (r : Nat) (log : List StreamEv) : Ledger := log.foldl (Ledger.note r) {}

/-- The connection's queue holds what it took and has not given, and its counter has the drops. -/
structure Balanced (limits : Limits) (s : StreamState) (r : Nat) (l : Ledger) : Prop where
  queue   : l.taken ++ (s.manager.conn r).queue = l.accepted
  dropped : (s.manager.conn r).droppedEvents = l.dropped
  room    : r < s.manager.made → (s.manager.conn r).maxsize = limits.maxQueueSize ∧
    (0 < limits.maxQueueSize → (s.manager.conn r).queue.length ≤ limits.maxQueueSize)

section
variable {limits : Limits} {s s' : StreamState} {r : Nat} {l : Ledger}

theorem ledger_append (r : Nat) (log : List StreamEv) (e : StreamEv) :
    ledger r (log ++ [e]) = (ledger r log).note r e := by
  simp [ledger]

theorem Balanced.same (h : Balanced limits s r l) (hm : s'.manager = s.manager) : Balanced limits s' r l :=
  ⟨by rw [hm]; exact h.queue, by rw [hm]; exact h.dropped, by rw [hm]; exact h.room⟩

theorem lt_of_not_full {c : SSEConnection} (hf : ¬ c.full = true) (hpos : 0 < c.maxsize) : c.queue.length < c.maxsize := by
  simp only [SSEConnection.full, Bool.and_eq_true, decide_eq_true_eq, not_and, Nat.not_le] at hf
  exact hf hpos

/-- A replay drops nothing and keeps to the queue's size. -/
theorem replay_box : ∀ (evs : List SSEEvent) (c : SSEConnection), (c.replay evs).maxsize = c.maxsize ∧
    (c.replay evs).droppedEvents = c.droppedEvents ∧ ((0 < c.maxsize → c.queue.length ≤ c.maxsize) →
      0 < c.maxsize → (c.replay evs).queue.length ≤ c.maxsize)
  | [], _ => ⟨rfl, rfl, fun h => h⟩
  | ev :: evs, c => by
    rw [SSEConnection.replay]
    split
    · exact ⟨rfl, rfl, fun h => h⟩
    · rename_i hf
      obtain ⟨hsize, hdrop, hlen⟩ := replay_box evs { c with queue := c.queue ++ [ev] }
      refine ⟨hsize, hdrop, fun _ hpos => hlen (fun _ => ?_) hpos⟩
      show (c.queue ++ [ev]).length ≤ c.maxsize
      have hlt := lt_of_not_full hf hpos
      rw [List.length_append, List.length_singleton]
      omega

theorem replayed_box (m : SSEConnectionManager) (args : SSEConnectionManager.ConnectArgs) :
    (m.replayed limits args).maxsize = limits.maxQueueSize ∧ (m.replayed limits args).droppedEvents = 0 ∧
      (0 < limits.maxQueueSize → (m.replayed limits args).queue.length ≤ limits.maxQueueSize) := by
  unfold SSEConnectionManager.replayed
  split
  · exact ⟨rfl, rfl, fun _ => Nat.zero_le _⟩
  · obtain ⟨hsize, hdrop, hlen⟩ := replay_box (m.eventsAfter _) (args.connection limits)
    exact ⟨hsize, hdrop, hlen fun _ => Nat.zero_le _⟩

/-- A connection's queue, size and counter stay as they are. -/
theorem Balanced.box (h : Balanced limits s r l) (hq : (s'.manager.conn r).queue = (s.manager.conn r).queue)
    (hd : (s'.manager.conn r).droppedEvents = (s.manager.conn r).droppedEvents)
    (hs : (s'.manager.conn r).maxsize = (s.manager.conn r).maxsize)
    (hm : r < s'.manager.made → r < s.manager.made) : Balanced limits s' r l :=
  ⟨by rw [hq]; exact h.queue, by rw [hd]; exact h.dropped, fun hr => by rw [hq, hs]; exact h.room (hm hr)⟩

/-- An established connection starts its ledger; the one it replaces is only closed. -/
theorem Balanced.connect {args : SSEConnectionManager.ConnectArgs} {t : StreamThread} (h : Balanced limits s r l)
    (hc : Connected limits args s.manager s'.manager) :
    Balanced limits s' r (l.note r ⟨t, .connect args, .ok s.manager.made, s, s'⟩) := by
  by_cases hr : s.manager.made = r
  · obtain ⟨hsize, hdrop, hlen⟩ := @replayed_box limits s.manager args
    rw [← hc.new, hr] at hsize hdrop hlen
    simp only [Ledger.note, hr, if_true]
    exact ⟨rfl, hdrop, fun _ => ⟨hsize, hlen⟩⟩
  · simp only [Ledger.note, hr, if_false]
    have hold := hc.old r (Ne.symm hr)
    have hm : r < s'.manager.made → r < s.manager.made := by
      rw [hc.made]
      omega
    refine h.box ?_ ?_ ?_ hm <;> (rw [hold]; split <;> rfl)

/-- A final disconnect only closes. -/
theorem Balanced.disconnect (h : Balanced limits s r l) {cid : String} (hm : s'.manager = s.manager.disconnect cid) :
    Balanced limits s' r l := by
  obtain ⟨-, hsame⟩ | ⟨k, -, -, hmade, -, hconn⟩ := s.manager.disconnect_cases cid
  · exact h.same (hm.trans hsame)
  · have hlt : r < s'.manager.made → r < s.manager.made := by
      rw [hm, hmade]
      exact id
    by_cases hr : r = k
    · subst hr
      refine h.box ?_ ?_ ?_ hlt <;> rw [hm, hconn, if_pos rfl]
    · refine h.box ?_ ?_ ?_ hlt <;> rw [hm, hconn, if_neg hr]

theorem SSEConnectionManager.conn_recordEvent (m : SSEConnectionManager) (ev : SSEEvent) :
    (m.recordEvent ev).conn = m.conn := by
  unfold recordEvent
  split <;> rfl

/-- **Everything a send can do**: a closed connection takes nothing, a full one counts the event, any other queues it. -/
theorem SSEConnectionManager.send_cases (m : SSEConnectionManager) (k : Nat) (ev : SSEEvent) (record : Bool) :
    ((m.conn k).closed = true ∧ m.send k ev record = (false, m)) ∨
    ((m.conn k).closed = false ∧ (m.send k ev record).1 = false ∧ ∀ r, (m.send k ev record).2.conn r =
      if r = k then { m.conn k with droppedEvents := (m.conn k).droppedEvents + 1 } else m.conn r) ∨
    ((m.conn k).closed = false ∧ (m.conn k).full = false ∧ (m.send k ev record).1 = true ∧
      ∀ r, (m.send k ev record).2.conn r =
        if r = k then { m.conn k with queue := (m.conn k).queue ++ [ev] } else m.conn r) := by
  by_cases hclosed : (m.conn k).closed = true
  · exact .inl ⟨hclosed, by rw [send, if_pos hclosed]⟩
  · have hopen : (m.conn k).closed = false := by simpa using hclosed
    by_cases hfull : (m.conn k).full = true
    · refine .inr (.inl ⟨hopen, ?_, fun r => ?_⟩)
      · rw [send, if_neg hclosed, if_pos hfull]
      · rw [send, if_neg hclosed, if_pos hfull]
        simp only [conn_modify]
    · refine .inr (.inr ⟨hopen, by simpa using hfull, ?_, fun r => ?_⟩)
      · rw [send, if_neg hclosed, if_neg hfull]
      · rw [send, if_neg hclosed, if_neg hfull]
        cases record <;> simp [conn_recordEvent, conn_modify]

/-- A send: an open connection with room takes the event, one that is full counts it. -/
theorem Balanced.send {t : StreamThread} {k : Nat} {ev : SSEEvent} {record : Bool} (h : Balanced limits s r l)
    (hm : s'.manager = (s.manager.send k ev record).2) :
    Balanced limits s' r (l.note r ⟨t, .send k ev record, (s.manager.send k ev record).1, s, s'⟩) := by
  have hmade : r < s'.manager.made → r < s.manager.made := by
    rw [hm, (Calm.send k ev record).made]
    exact id
  obtain ⟨hclosed, hsend⟩ | ⟨hopen, hres, hconn⟩ | ⟨hopen, hfull, hres, hconn⟩ := s.manager.send_cases k ev record
  · rw [hsend] at hm ⊢
    have hno : ¬ (k = r ∧ (s.manager.conn r).closed = false) := by
      rintro ⟨rfl, hopen⟩
      rw [hclosed] at hopen
      cases hopen
    simp only [Ledger.note, hno, if_false]
    exact h.same hm
  · rw [← hm] at hconn
    rw [hres]
    by_cases hr : k = r
    · subst hr
      simp only [Ledger.note, hopen, and_self, if_true]
      refine ⟨?_, ?_, fun hlt => ?_⟩
      · rw [hconn, if_pos rfl]
        exact h.queue
      · rw [hconn, if_pos rfl, ← h.dropped]
      · rw [hconn, if_pos rfl]
        exact h.room (hmade hlt)
    · have hno : ¬ (k = r ∧ (s.manager.conn r).closed = false) := fun h => hr h.1
      simp only [Ledger.note, hno, if_false]
      refine h.box ?_ ?_ ?_ hmade <;> rw [hconn, if_neg (Ne.symm hr)]
  · rw [← hm] at hconn
    rw [hres]
    by_cases hr : k = r
    · subst hr
      simp only [Ledger.note, if_true]
      refine ⟨?_, ?_, fun hlt => ?_⟩
      · rw [hconn, if_pos rfl, ← h.queue, List.append_assoc]
      · rw [hconn, if_pos rfl]
        exact h.dropped
      · obtain ⟨hsize, hlen⟩ := h.room (hmade hlt)
        rw [hconn, if_pos rfl]
        refine ⟨hsize, fun hpos => ?_⟩
        have := lt_of_not_full (by rw [hfull]; simp) (by rw [hsize]; exact hpos)
        rw [List.length_append, List.length_singleton]
        omega
    · simp only [Ledger.note, hr, if_false]
      refine h.box ?_ ?_ ?_ hmade <;> rw [hconn, if_neg (Ne.symm hr)]

/-- A stream takes the first event of the queue. -/
theorem Balanced.take {t : StreamThread} {k : Nat} {ev : SSEEvent} {q : List SSEEvent} (h : Balanced limits s r l)
    (hq : (s.manager.conn k).queue = ev :: q)
    (hm : s'.manager = s.manager.modify k (fun c => { c with queue := q }) (fun _ => rfl)) :
    Balanced limits s' r (l.note r ⟨t, .getEvent k, .ok ev, s, s'⟩) := by
  have hconn : ∀ r, s'.manager.conn r = if r = k then { s.manager.conn k with queue := q } else s.manager.conn r :=
    fun r => by rw [hm]; exact SSEConnectionManager.conn_modify k _ _ r
  have hmade : r < s'.manager.made → r < s.manager.made := by
    rw [hm]
    exact id
  by_cases hr : k = r
  · subst hr
    simp only [Ledger.note, if_true]
    refine ⟨?_, ?_, fun hlt => ?_⟩
    · rw [hconn, if_pos rfl, ← h.queue, hq, List.append_assoc]
      rfl
    · rw [hconn, if_pos rfl]
      exact h.dropped
    · obtain ⟨hsize, hlen⟩ := h.room (hmade hlt)
      rw [hconn, if_pos rfl]
      refine ⟨hsize, fun hpos => ?_⟩
      have := hlen hpos
      rw [hq, List.length_cons] at this
      exact Nat.le_of_succ_le this
  · simp only [Ledger.note, hr, if_false]
    refine h.box ?_ ?_ ?_ hmade <;> rw [hconn, if_neg (Ne.symm hr)]

/-- **One step of the system** keeps every ledger balanced. -/
theorem Balanced.step {t : StreamThread} {a : StreamAct} {res : a.Res} (h : Balanced limits s r l)
    (hst : streamSem limits t a s res s') : Balanced limits s' r (l.note r ⟨t, a, res, s, s'⟩) := by
  obtain ⟨c, -, hx⟩ := hst
  cases a <;> simp only [streamExec] at hx
  case connect args =>
    rcases s.manager.connect_cases limits args with ⟨e, he⟩ | ⟨m', hm, hc⟩
    · rw [he] at hx
      cases hx
      exact h.same rfl
    · rw [hm] at hx
      cases hx
      exact h.connect hc
  case disconnect k =>
    cases hx
    exact h.disconnect rfl
  case getEvent k =>
    split at hx
    · cases hx
      exact h.same rfl
    · cases hx
    · rename_i hq
      cases hx
      exact h.take hq rfl
  case send k ev record =>
    cases hx
    exact h.send rfl
  case record ev =>
    cases hx
    have hmade : (s.manager.recordEvent ev).made = s.manager.made := ((Calm.refl _).recordEvent ev).made
    refine h.box ?_ ?_ ?_ fun hlt => hmade ▸ hlt
    all_goals rw [SSEConnectionManager.conn_recordEvent]
  case createTask k => split at hx <;> cases hx; exact h.same rfl
  case awaitTask =>
    split at hx
    · cases hx
      exact h.same rfl
    · split at hx <;> cases hx
      exact h.same rfl
  case startTask => split at hx <;> cases hx <;> exact h.same rfl
  case pending => cases hx
  all_goals cases hx; exact h.same rfl

end

theorem runs_balanced {limits : Limits} {σ : Streams} {c : StreamConf} (hr : StreamRuns limits σ.start c) (r : Nat) :
    Balanced limits c.state.1 r (ledger r c.state.2) := by
  refine hr.invariant (P := fun s => Balanced limits s.1 r (ledger r s.2)) ?_ ?_
  · rintro t a s res s' ⟨hst, hlog, -⟩ h
    rw [hlog, ledger_append]
    exact h.step hst
  · exact ⟨rfl, rfl, fun hlt => absurd hlt (Nat.not_lt_zero r)⟩

/-- **Every ledger balances**, through any interleaving of streams, tasks and publishers: a connection's stream has taken
the events its queue took, in order and each once, but for those that wait; a bounded queue never holds more than its
size; and `get_stats` counts what the log has. -/
theorem ledger_balances (limits : Limits) (σ : Streams) (c : StreamConf) (hr : StreamRuns limits σ.start c) :
    (∀ r, Balanced limits c.state.1 r (ledger r c.state.2)) ∧
    c.state.1.manager.getStats.totalDroppedEvents =
      (c.state.1.manager.connections.values.map fun r => (ledger r c.state.2).dropped).sum ∧
    c.state.1.manager.getStats.connectionStats.map (fun s => (s.queueSize, s.droppedEvents)) =
      c.state.1.manager.connections.values.map fun r =>
        ((ledger r c.state.2).accepted.length - (ledger r c.state.2).taken.length, (ledger r c.state.2).dropped) := by
  have hall := runs_balanced hr
  refine ⟨hall, ?_, ?_⟩
  · simp only [SSEConnectionManager.getStats, List.map_map]
    exact congrArg List.sum (List.map_congr_left fun r _ => (hall r).dropped)
  · simp only [SSEConnectionManager.getStats, List.map_map]
    refine List.map_congr_left fun r _ => ?_
    have hlen := congrArg List.length (hall r).queue
    rw [List.length_append] at hlen
    refine Prod.ext ?_ (hall r).dropped
    show (c.state.1.manager.conn r).queue.length = _
    omega

/-- A queue of one: of two events sent to it the second is dropped, and the first is taken. -/
theorem ledger_balances_full : ∃ c, StreamRuns { maxQueueSize := 1 } (Streams.ofIds fun _ => "x").start c ∧
    (ledger 0 c.state.2).dropped = 1 ∧ (ledger 0 c.state.2).taken = (ledger 0 c.state.2).accepted := by
  obtain ⟨c, hr, hdrop, hempty⟩ : ∃ c, StreamRuns { maxQueueSize := 1 } (Streams.ofIds fun _ => "x").start c ∧
      (c.state.1.manager.conn 0).droppedEvents = 1 ∧ (c.state.1.manager.conn 0).queue.length = 0 :=
    exists_streamRuns [(.stream 0, {}), (.stream 0, {}), (.stream 0, {}), (.events 0, {}),
      (.events 0, { next := some {} }), (.events 0, {}), (.events 0, { next := some {} }), (.events 0, {}),
      (.stream 0, {}), (.stream 0, {})] (by decide +kernel)
  obtain ⟨hq, hd, -⟩ := (ledger_balances _ _ c hr).1 0
  rw [List.length_eq_zero_iff.1 hempty, List.append_nil] at hq
  exact ⟨c, hr, hd.symm.trans hdrop, hq⟩

end Sse
end Pypepper
