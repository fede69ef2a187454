import Mathlib.Data.List.Infix
import Pypepper.SseStream
/-!
# SseReplay — delivery across reconnects

A broadcast records its event and takes a snapshot of the open connections in one step; the sends to them run later, in the
order they were created.  A client reads its connection's queue, may lose the connection at any point, and connects again
with the id of the last event it read.

An event reaches a connection either live, when the connection was open at the broadcast, or through the ring, when it
connects after it.  So what a client has read, what waits in its open connection's queue and what is on its way to it are
together the end of the broadcast sequence (`Follows`), and what it has read is a segment of that sequence
(`reads_contiguous`).
-/
namespace Pypepper
namespace Sse

open SSEConnectionManager (ConnectArgs Connected)

/-! ## The ring -/

/-- The last events of a sequence, as many as the manager keeps. -/
def ring (l : List SSEEvent) : List SSEEvent := l.drop (l.length - eventLogMax)

theorem push_ring (l : List SSEEvent) (ev : SSEEvent) : SSEConnectionManager.push (ring l) ev = ring (l ++ [ev]) := by
  have hdrop : l.drop (l.length - eventLogMax) ++ [ev] = (l ++ [ev]).drop (l.length - eventLogMax) := by
    rw [List.drop_append_of_le_length (Nat.sub_le _ _)]
  have hlen : l.length - eventLogMax + (((l ++ [ev]).drop (l.length - eventLogMax)).length - eventLogMax) =
      (l ++ [ev]).length - eventLogMax := by
    simp only [List.length_drop, List.length_append, List.length_singleton]
    omega
  rw [SSEConnectionManager.push, ring, hdrop, List.drop_drop, hlen, ring]

/-- An event of the ring, and what follows it there. -/
theorem ring_split {l before after : List SSEEvent} {ev : SSEEvent} (hl : l = before ++ ev :: after) (hn : l.Nodup)
    (h : ev ∈ ring l) : ∃ head, ring l = head ++ ev :: after ∧ head <:+ before := by
  rw [hl] at hn
  rw [ring, hl, List.drop_append] at h ⊢
  have hafter : ev ∉ after := (List.nodup_cons.1 (List.nodup_append.1 hn).2.1).1
  have hbefore : ev ∉ before := fun hb => (List.nodup_append.1 hn).2.2 ev hb ev List.mem_cons_self rfl
  cases hk : (before ++ ev :: after).length - eventLogMax - before.length with
  | zero =>
    rw [List.drop_zero]
    exact ⟨_, rfl, List.drop_suffix _ _⟩
  | succ k =>
    rw [hk, List.drop_succ_cons] at h
    rcases List.mem_append.1 h with h | h
    · exact absurd (List.mem_of_mem_drop h) hbefore
    · exact absurd (List.mem_of_mem_drop h) hafter

theorem ring_suffix (l : List SSEEvent) : ring l <:+ l := List.drop_suffix _ _

section
variable {m : SSEConnectionManager}

/-- `events_after` skips up to and with the first event of that id. -/
theorem eventsAfter_eq (id : String) :
    m.eventsAfter id = (m.eventLog.dropWhile (fun ev => decide (ev.id ≠ some id))).tail := by
  have seen : ∀ (l out : List SSEEvent), l.foldl (fun acc ev =>
      if acc.2 then (acc.1 ++ [ev], true) else if ev.id = some id then (acc.1, true) else acc) (out, true) =
        (out ++ l, true) := by
    intro l
    induction l with
    | nil => simp
    | cons ev l ih =>
      intro out
      rw [List.foldl_cons, if_pos rfl, ih, List.append_assoc]
      rfl
  have unseen : ∀ l : List SSEEvent, ∀ p, l.foldl (fun acc ev =>
      if acc.2 then (acc.1 ++ [ev], true) else if ev.id = some id then (acc.1, true) else acc)
        (([] : List SSEEvent), false) = p →
      (if p.2 then p.1 else []) = (l.dropWhile (fun ev => decide (ev.id ≠ some id))).tail := by
    intro l
    induction l with
    | nil =>
      rintro _ rfl
      rfl
    | cons ev l ih =>
      intro p hp
      by_cases hid : ev.id = some id
      · rw [List.foldl_cons, if_neg (by simp), if_pos hid, seen] at hp
        simp [← hp, hid]
      · rw [List.foldl_cons, if_neg (by simp), if_neg hid] at hp
        simpa [hid] using ih p hp
  exact unseen m.eventLog _ rfl

/-- The events after the one with an id that no earlier one has. -/
theorem eventsAfter_split {id : String} {before after : List SSEEvent} {ev : SSEEvent}
    (hlog : m.eventLog = before ++ ev :: after) (hev : ev.id = some id) (hne : ∀ x ∈ before, x.id ≠ some id) :
    m.eventsAfter id = after := by
  have hpos : ∀ x ∈ before, decide (x.id ≠ some id) = true := fun x hx => decide_eq_true (hne x hx)
  have hneg : decide (ev.id ≠ some id) = false := decide_eq_false fun h => h hev
  rw [eventsAfter_eq, hlog, List.dropWhile_append_of_pos hpos, List.dropWhile_cons, hneg]
  rfl

theorem eventsAfter_suffix (id : String) : m.eventsAfter id <:+ m.eventLog := by
  rw [eventsAfter_eq]
  exact (List.tail_suffix _).trans (List.dropWhile_suffix _)

end

/-- A replay that leaves room has put every event in the queue. -/
theorem queue_replay : ∀ (evs : List SSEEvent) (c : SSEConnection), (c.replay evs).full = false →
    (c.replay evs).queue = c.queue ++ evs
  | [], c, _ => by simp [SSEConnection.replay]
  | ev :: evs, c, h => by
    rw [SSEConnection.replay] at h ⊢
    by_cases hf : c.full = true
    · rw [if_pos hf, hf] at h
      cases h
    · rw [if_neg hf] at h ⊢
      rw [queue_replay evs _ h]
      simp

/-! ## The client and the publishers -/

/-- The manager, the sends on their way, and one client: its connection and what it has read.  `published` is the broadcast
sequence. -/
structure ReplayState where
  manager   : SSEConnectionManager
  pending   : List (Nat × SSEEvent) := []
  current   : Option Nat := none
  reads     : List SSEEvent := []
  published : List SSEEvent := []

inductive ReplayStep where
  | broadcast (ev : SSEEvent)
  | deliver
  | connect (args : ConnectArgs)
  | read
  | otherConnect (args : ConnectArgs)
  | otherRead (r : Nat)
  | disconnect (connectionId : String)

namespace ReplayState

variable (s : ReplayState)

/-- The next event of a connection's queue. -/
def take (r : Nat) : Option (SSEEvent × SSEConnectionManager) :=
  (s.manager.conn r).queue.head?.map
    (fun ev => (ev, s.manager.modify r (fun c => { c with queue := (s.manager.conn r).queue.tail }) (fun _ => rfl)))

/-- One step: a broadcast's snapshot and record, the next of the sends, a connect of the client or of another, a read, and
any stream's final disconnect. -/
def step (limits : Limits) : ReplayStep → Option ReplayState
  | .broadcast ev      => some { s with
      manager := s.manager.recordEvent ev
      pending := s.pending ++ s.manager.activeConnections.map (·, ev)
      published := s.published ++ [ev] }
  | .deliver           =>
    match s.pending with
    | []             => none
    | (r, ev) :: rest => some { s with manager := (s.manager.send r ev false).2, pending := rest }
  | .connect args      =>
    match s.manager.connect limits args with
    | (.ok r, m)    => some { s with manager := m, current := some r }
    | (.error _, _) => some s
  | .read              => do
    let r ← s.current
    let (ev, m) ← s.take r
    return { s with manager := m, reads := s.reads ++ [ev] }
  | .otherConnect args => some { s with manager := (s.manager.connect limits args).2 }
  | .otherRead r       =>
    if s.current = some r then none else (s.take r).map (fun p => { s with manager := p.2 })
  | .disconnect cid    => some { s with manager := s.manager.disconnect cid }

/-- What the parties keep to: an event is broadcast with an id of its own, and the client connects again with the id of the
last event it read, while that one is among the last broadcast ones. -/
def Allows : ReplayStep → Prop
  | .broadcast ev => (truthy ev.id).isSome = true ∧ ∀ x ∈ s.published, x.id ≠ ev.id
  | .connect args => ∀ ev ∈ s.reads.getLast?, args.lastEventId = ev.id ∧ ∃ x ∈ ring s.published, x.id = ev.id
  | _             => True

/-- No connection's queue is full. -/
def NoneFull : Prop := ∀ r, r < s.manager.made → (s.manager.conn r).full = false

end ReplayState

/-- **A run**: steps in any order that keep to the rules, with no queue ever full. -/
inductive ReplayRun (limits : Limits) : ReplayState → Prop
  | start : ReplayRun limits { manager := SSEConnectionManager.empty }
  | step {s s' : ReplayState} {st : ReplayStep} : ReplayRun limits s → s.Allows st → s.step limits st = some s' →
      s'.NoneFull → ReplayRun limits s'

/-! ## Open connections -/

/-- An open connection is registered under its id. -/
def Opened (m : SSEConnectionManager) : Prop :=
  ∀ r, r < m.made → (m.conn r).closed = false → m.connections.get (m.conn r).connectionId = some r

section
variable {m m' : SSEConnectionManager}

theorem Opened.calm (h : Opened m) (hc : Calm m m') : Opened m' := by
  intro r hr hopen
  rw [hc.made] at hr
  rw [hc.closed] at hopen
  rw [hc.connections, hc.connectionId]
  exact h r hr hopen

theorem Opened.connected {limits : Limits} {args : ConnectArgs} (h : Opened m) (hn : Connected limits args m m') :
    Opened m' := by
  intro r hr hopen
  by_cases hnew : r = m.made
  · subst hnew
    rw [hn.new, (replayed_face limits args m).2.2, hn.connections, Py.Dict.get_set_self]
  · have hr' : r < m.made := by
      rw [hn.made] at hr
      omega
    rw [hn.old r hnew] at hopen ⊢
    by_cases hold : m.connections.get args.cid = some r
    · rw [if_pos hold] at hopen
      cases hopen
    · rw [if_neg hold] at hopen ⊢
      have hget := h r hr' hopen
      have hcid : (m.conn r).connectionId ≠ args.cid := fun he => hold (he ▸ hget)
      rw [hn.connections, Py.Dict.get_set_of_ne _ _ hcid]
      exact hget

theorem Opened.connect (limits : Limits) (args : ConnectArgs) (h : Opened m) : Opened (m.connect limits args).2 := by
  rcases m.connect_cases limits args with ⟨e, he⟩ | ⟨m', hm, hc⟩
  · rw [he]
    exact h
  · rw [hm]
    exact h.connected hc

theorem Opened.disconnect (cid : String) (h : Opened m) : Opened (m.disconnect cid) := by
  obtain ⟨-, hsame⟩ | ⟨q, hq, hpop, hmade, -, hconn⟩ := m.disconnect_cases cid
  · rw [hsame]
    exact h
  · intro r hr hopen
    rw [hconn] at hopen ⊢
    by_cases hrq : r = q
    · rw [if_pos hrq] at hopen
      cases hopen
    · rw [if_neg hrq] at hopen ⊢
      have hget := h r (hmade ▸ hr) hopen
      have hcid : (m.conn r).connectionId ≠ cid := fun he => hrq (Option.some.inj ((he ▸ hget).symm.trans hq))
      rw [hpop, Py.Dict.get_pop, if_neg hcid]
      exact hget

/-- No connection is registered twice. -/
theorem values_nodup (m : SSEConnectionManager) : m.connections.values.Nodup := by
  refine List.Nodup.map_on (fun x hx y hy he => ?_) (List.Nodup.of_map _ m.connections.nodup)
  have hkey : ∀ z ∈ m.connections.entries, (m.conn z.2).connectionId = z.1 := fun z hz =>
    (m.keyed z.1 z.2 (Py.Dict.lookup_of_mem m.connections.nodup hz)).2
  exact Prod.ext (by rw [← hkey x hx, ← hkey y hy, he]) he

/-- An open connection is once in the snapshot, a closed one is not. -/
theorem activeConnections_filter {r : Nat} (h : Opened m) (hr : r < m.made) :
    m.activeConnections.filter (fun q => decide (q = r)) = if (m.conn r).closed then [] else [r] := by
  cases hclosed : (m.conn r).closed with
  | true =>
    refine List.filter_eq_nil_iff.2 fun q hq hqr => ?_
    obtain rfl := of_decide_eq_true hqr
    have := (List.mem_filter.1 hq).2
    rw [hclosed] at this
    cases this
  | false =>
    have hmem : r ∈ m.activeConnections :=
      List.mem_filter.2 ⟨Py.Dict.mem_values_of_get (h r hr hclosed), by rw [hclosed]; rfl⟩
    have hnodup : m.activeConnections.Nodup := (values_nodup m).sublist List.filter_sublist
    rw [List.filter_eq, List.count_eq_one_of_mem hnodup hmem]
    rfl

end

/-! ## The invariant -/

namespace ReplayState

variable (s : ReplayState)

/-- The sends to a connection that are still on their way. -/
def onTheWay (r : Nat) : List SSEEvent := (s.pending.filter (fun p => decide (p.1 = r))).map Prod.snd

/-- **What a client has read, what waits for it and what is on its way to it are the end of the broadcast sequence**, as
long as its connection is open; afterwards nothing more comes. -/
def Follows (r : Nat) : Prop :=
  if (s.manager.conn r).closed then s.reads ++ (s.manager.conn r).queue <:+: s.published
  else s.reads ++ (s.manager.conn r).queue ++ s.onTheWay r <:+ s.published

structure Inv : Prop where
  log     : s.manager.eventLog = ring s.published
  ids     : ∀ ev ∈ s.published, (truthy ev.id).isSome = true
  nodup   : (s.published.map SSEEvent.id).Nodup
  opened  : Opened s.manager
  made    : ∀ p ∈ s.pending, p.1 < s.manager.made
  unread  : s.current = none → s.reads = []
  follows : ∀ r, s.current = some r → r < s.manager.made ∧ s.Follows r

variable {s}

theorem isInfix_of_append {α : Type} {xs ys l : List α} (h : xs ++ ys <:+ l) : xs <:+: l := by
  obtain ⟨t, ht⟩ := h
  exact ⟨t, ys, by rw [← ht, List.append_assoc]⟩

theorem Follows.queue_segment {r : Nat} (h : s.Follows r) : s.reads ++ (s.manager.conn r).queue <:+: s.published := by
  unfold Follows at h
  split at h
  · exact h
  · exact isInfix_of_append h

theorem Inv.reads_segment (h : s.Inv) : s.reads <:+: s.published := by
  cases hc : s.current with
  | none =>
    rw [h.unread hc]
    exact List.nil_infix
  | some r =>
    have hq := (h.follows r hc).2.queue_segment
    exact (List.prefix_append _ _).isInfix.trans hq

/-! ### Steps that do not touch the client's queue -/

/-- A connection that is as it was, or was closed, follows on. -/
theorem Follows.of_closing {s' : ReplayState} {r : Nat} (h : s.Follows r) (hreads : s'.reads = s.reads)
    (hpub : s'.published = s.published) (hpend : s'.onTheWay r = s.onTheWay r)
    (hqueue : (s'.manager.conn r).queue = (s.manager.conn r).queue)
    (hclosed : (s.manager.conn r).closed = true → (s'.manager.conn r).closed = true) : s'.Follows r := by
  unfold Follows
  rw [hreads, hpub, hpend, hqueue]
  by_cases hc : (s'.manager.conn r).closed = true
  · rw [if_pos hc]
    exact h.queue_segment
  · rw [if_neg hc]
    unfold Follows at h
    rw [if_neg fun hs => hc (hclosed hs)] at h
    exact h

/-- What a connect leaves of a connection that was there. -/
theorem connect_old (limits : Limits) (args : ConnectArgs) (m : SSEConnectionManager) {r : Nat} (hr : r < m.made) :
    r < (m.connect limits args).2.made ∧ ((m.connect limits args).2.conn r).queue = (m.conn r).queue ∧
      ((m.conn r).closed = true → ((m.connect limits args).2.conn r).closed = true) := by
  rcases m.connect_cases limits args with ⟨e, he⟩ | ⟨m', hm, hc⟩
  · rw [he]
    exact ⟨hr, rfl, id⟩
  · rw [hm]
    constructor
    · rw [hc.made]
      exact Nat.lt_succ_of_lt hr
    · rw [hc.old r (Nat.ne_of_lt hr)]
      split
      · exact ⟨rfl, fun _ => rfl⟩
      · exact ⟨rfl, id⟩

theorem disconnect_old (cid : String) (m : SSEConnectionManager) (r : Nat) :
    (m.disconnect cid).made = m.made ∧ ((m.disconnect cid).conn r).queue = (m.conn r).queue ∧
      ((m.conn r).closed = true → ((m.disconnect cid).conn r).closed = true) := by
  obtain ⟨-, hsame⟩ | ⟨q, -, -, hmade, -, hconn⟩ := m.disconnect_cases cid
  · rw [hsame]
    exact ⟨rfl, rfl, id⟩
  · refine ⟨hmade, ?_⟩
    rw [hconn]
    split
    · rename_i hr
      rw [hr]
      exact ⟨rfl, fun _ => rfl⟩
    · exact ⟨rfl, id⟩

theorem Inv.otherConnect (h : s.Inv) (limits : Limits) (args : ConnectArgs) :
    Inv { s with manager := (s.manager.connect limits args).2 } := by
  have hlog := s.manager.eventLog_connect limits args
  refine ⟨hlog.trans h.log, h.ids, h.nodup, h.opened.connect limits args, fun p hp => ?_, h.unread, fun r hr => ?_⟩
  · exact (connect_old limits args s.manager (h.made p hp)).1
  · obtain ⟨hlt, hf⟩ := h.follows r hr
    obtain ⟨hlt', hq, hc⟩ := connect_old limits args s.manager hlt
    exact ⟨hlt', hf.of_closing rfl rfl rfl hq hc⟩

theorem Inv.disconnect (h : s.Inv) (cid : String) : Inv { s with manager := s.manager.disconnect cid } := by
  have hold := disconnect_old cid s.manager
  have hlog := s.manager.eventLog_disconnect cid
  refine ⟨hlog.trans h.log, h.ids, h.nodup, h.opened.disconnect cid, fun p hp => ?_, h.unread, fun r hr => ?_⟩
  · show p.1 < (s.manager.disconnect cid).made
    rw [(hold 0).1]
    exact h.made p hp
  · obtain ⟨hlt, hf⟩ := h.follows r hr
    obtain ⟨hmade, hq, hc⟩ := hold r
    refine ⟨?_, hf.of_closing rfl rfl rfl hq hc⟩
    show r < (s.manager.disconnect cid).made
    rw [hmade]
    exact hlt

/-- The queue of one connection changes, and nothing else. -/
theorem calm_queue (m : SSEConnectionManager) (r : Nat) (q : List SSEEvent) :
    Calm m (m.modify r (fun c => { c with queue := q }) (fun _ => rfl)) := by
  exact .modify fun _ => rfl

theorem Inv.otherRead (h : s.Inv) {r : Nat} (hr : s.current ≠ some r) (q : List SSEEvent) :
    Inv { s with manager := s.manager.modify r (fun c => { c with queue := q }) (fun _ => rfl) } := by
  refine ⟨h.log, h.ids, h.nodup, h.opened.calm (calm_queue _ _ _), h.made, h.unread, fun r' hr' => ?_⟩
  obtain ⟨hlt, hf⟩ := h.follows r' hr'
  have hne : r' ≠ r := fun he => hr (he ▸ hr')
  refine ⟨hlt, hf.of_closing rfl rfl rfl ?_ ?_⟩
  · rw [SSEConnectionManager.conn_modify, if_neg hne]
  · rw [SSEConnectionManager.conn_modify, if_neg hne]
    exact id

/-! ### Broadcasts and sends -/

theorem Inv.broadcast (h : s.Inv) {ev : SSEEvent} (hid : (truthy ev.id).isSome = true)
    (hnew : ∀ x ∈ s.published, x.id ≠ ev.id) :
    Inv { s with
      manager := s.manager.recordEvent ev
      pending := s.pending ++ s.manager.activeConnections.map (·, ev)
      published := s.published ++ [ev] } := by
  have hrecord : s.manager.recordEvent ev = { s.manager with
      eventLog := SSEConnectionManager.push s.manager.eventLog ev, bounded := SSEConnectionManager.length_push _ _ } :=
    if_pos hid
  have hcalm : Calm s.manager (s.manager.recordEvent ev) := (Calm.refl _).recordEvent ev
  have hconn : (s.manager.recordEvent ev).conn = s.manager.conn := by rw [hrecord]
  refine ⟨?_, fun x hx => ?_, ?_, h.opened.calm hcalm, fun p hp => ?_, h.unread, fun r hr => ?_⟩
  · show (s.manager.recordEvent ev).eventLog = _
    rw [hrecord, ← push_ring, ← h.log]
  · rcases List.mem_append.1 hx with hx | hx
    · exact h.ids x hx
    · rw [List.mem_singleton.1 hx]
      exact hid
  · rw [List.map_append, List.nodup_append]
    refine ⟨h.nodup, by simp, fun a ha b hb => ?_⟩
    obtain ⟨x, hx, rfl⟩ := List.mem_map.1 ha
    rw [List.mem_singleton.1 hb]
    exact hnew x hx
  · show p.1 < (s.manager.recordEvent ev).made
    rw [hcalm.made]
    rcases List.mem_append.1 hp with hp | hp
    · exact h.made p hp
    · obtain ⟨q, hq, rfl⟩ := List.mem_map.1 hp
      obtain ⟨cid, hget⟩ := Py.Dict.get_of_mem_values (List.mem_filter.1 hq).1
      exact (s.manager.keyed cid q hget).1
  · obtain ⟨hlt, hf⟩ := h.follows r hr
    refine ⟨by rw [hcalm.made]; exact hlt, ?_⟩
    have hactive : ((s.manager.activeConnections.map (·, ev)).filter (fun p => decide (p.1 = r))).map Prod.snd =
        (s.manager.activeConnections.filter (fun q => decide (q = r))).map (fun _ => ev) := by
      rw [List.filter_map, List.map_map]
      rfl
    unfold Follows onTheWay at hf ⊢
    rw [hconn]
    simp only [List.filter_append, List.map_append, hactive, activeConnections_filter h.opened hlt]
    cases hclosed : (s.manager.conn r).closed with
    | true =>
      rw [hclosed] at hf
      exact hf.trans (List.prefix_append _ _).isInfix
    | false =>
      rw [hclosed] at hf
      obtain ⟨t, ht⟩ := hf
      exact ⟨t, by rw [← ht]; simp⟩

/-- A send that finds room and records nothing. -/
theorem send_unrecorded {m : SSEConnectionManager} {q : Nat} (hfull : (m.conn q).full = false) (ev : SSEEvent) :
    (m.send q ev false).2 = if (m.conn q).closed then m
      else m.modify q (fun c => { c with queue := c.queue ++ [ev] }) (fun _ => rfl) := by
  unfold SSEConnectionManager.send
  rw [hfull]
  cases (m.conn q).closed <;> rfl

theorem Inv.deliver (h : s.Inv) (hfull : s.NoneFull) {q : Nat} {ev : SSEEvent} {rest : List (Nat × SSEEvent)}
    (hp : s.pending = (q, ev) :: rest) :
    Inv { s with manager := (s.manager.send q ev false).2, pending := rest } := by
  have hcalm : Calm s.manager (s.manager.send q ev false).2 := .send q ev false
  have hmade : ∀ p ∈ rest, p.1 < s.manager.made := fun p hmem => h.made p (by rw [hp]; exact List.mem_cons_of_mem _ hmem)
  have hsend := send_unrecorded (hfull q (h.made (q, ev) (by rw [hp]; exact List.mem_cons_self))) ev
  have hlog : (s.manager.send q ev false).2.eventLog = s.manager.eventLog := by
    rw [hsend]
    split <;> rfl
  refine ⟨hlog.trans h.log, h.ids, h.nodup, h.opened.calm hcalm, fun p hmem => ?_, h.unread, fun r hr => ?_⟩
  · rw [hcalm.made]
    exact hmade p hmem
  obtain ⟨hlt, hf⟩ := h.follows r hr
  refine ⟨by rw [hcalm.made]; exact hlt, ?_⟩
  unfold Follows onTheWay at hf ⊢
  rw [hp, List.filter_cons] at hf
  rw [hcalm.closed]
  by_cases hrq : r = q
  · subst hrq
    rw [decide_eq_true rfl, if_pos rfl, List.map_cons] at hf
    cases hclosed : (s.manager.conn r).closed with
    | true =>
      rw [hclosed] at hf hsend
      simp only [hsend, if_true]
      exact hf
    | false =>
      rw [hclosed] at hf hsend
      simp only [hsend, Bool.false_eq_true, if_false, SSEConnectionManager.conn_modify, if_true]
      simpa using hf
  · have hne : ¬ q = r := fun he => hrq he.symm
    have hsame : ((s.manager.send q ev false).2.conn r).queue = (s.manager.conn r).queue := by
      rw [hsend]
      split
      · rfl
      · rw [SSEConnectionManager.conn_modify, if_neg hrq]
    simp only [decide_eq_false hne, Bool.false_eq_true, if_false] at hf
    rw [hsame]
    exact hf

theorem Inv.read (h : s.Inv) {r : Nat} (hr : s.current = some r) {ev : SSEEvent} {q : List SSEEvent}
    (hq : (s.manager.conn r).queue = ev :: q) :
    Inv { s with
      manager := s.manager.modify r (fun c => { c with queue := q }) (fun _ => rfl)
      reads := s.reads ++ [ev] } := by
  refine ⟨h.log, h.ids, h.nodup, h.opened.calm (calm_queue _ _ _), h.made, fun hn => ?_, fun r' hr' => ?_⟩
  · rw [hr] at hn
    cases hn
  · obtain rfl : r = r' := Option.some.inj (hr.symm.trans hr')
    obtain ⟨hlt, hf⟩ := h.follows r hr
    refine ⟨hlt, ?_⟩
    unfold Follows onTheWay at hf ⊢
    rw [hq] at hf
    simp only [SSEConnectionManager.conn_modify, if_true]
    simpa using hf

/-! ### The client connects again -/

/-- The new connection starts with what was broadcast after the last event the client read. -/
theorem Inv.replayed (h : s.Inv) {limits : Limits} {args : ConnectArgs} (hallow : s.Allows (.connect args))
    (hfull : (s.manager.replayed limits args).full = false) :
    s.reads ++ (s.manager.replayed limits args).queue <:+ s.published := by
  have hqueue : (s.manager.replayed limits args).queue =
      (truthy args.lastEventId).elim [] (fun id => s.manager.eventsAfter id) := by
    unfold SSEConnectionManager.replayed at hfull ⊢
    cases hid : truthy args.lastEventId with
    | none => rfl
    | some id =>
      rw [hid] at hfull
      exact queue_replay _ _ hfull
  rw [hqueue]
  rcases List.eq_nil_or_concat s.reads with hnil | ⟨reads, ev, hlast⟩
  · -- Nothing was read yet: whatever the ring gives is an end of the broadcast sequence.
    rw [hnil, List.nil_append]
    cases truthy args.lastEventId with
    | none => exact List.nil_suffix
    | some id => exact (eventsAfter_suffix id).trans (by rw [h.log]; exact ring_suffix _)
  · rw [List.concat_eq_append] at hlast
    have hmem : s.reads.getLast? = some ev := by rw [hlast, List.getLast?_concat]
    obtain ⟨hargs, x, hx, hxid⟩ := hallow ev hmem
    obtain ⟨before, after, hsplit⟩ := h.reads_segment
    have hpub : s.published = (before ++ reads) ++ ev :: after := by
      rw [← hsplit, hlast]
      simp
    have hevmem : ev ∈ s.published := by simp [hpub]
    obtain ⟨id, hid⟩ := Option.isSome_iff_exists.1 (h.ids ev hevmem)
    have hevid : ev.id = some id := (Option.filter_eq_some_iff.1 hid).1
    -- The ring has the event itself, since no other has its id; what follows it there is what follows it in the sequence.
    have hring : ∃ head, s.manager.eventLog = head ++ ev :: after ∧ head <:+ before ++ reads := by
      rw [h.log]
      obtain rfl : x = ev := List.inj_on_of_nodup_map h.nodup ((ring_suffix _).subset hx) hevmem hxid
      exact ring_split hpub (List.Nodup.of_map _ h.nodup) hx
    obtain ⟨head, hlog, hhead⟩ := hring
    have hne : ∀ y ∈ head, y.id ≠ some id := by
      intro y hy he
      have hnodup := h.nodup
      rw [hpub, List.map_append, List.nodup_append] at hnodup
      refine hnodup.2.2 y.id (List.mem_map.2 ⟨y, hhead.subset hy, rfl⟩) ev.id (by simp) ?_
      rw [he, hevid]
    rw [hargs, hid, Option.elim_some, eventsAfter_split hlog hevid hne]
    exact ⟨before, by rw [← hsplit, List.append_assoc]⟩

theorem Inv.connect (h : s.Inv) {limits : Limits} {args : ConnectArgs} (hallow : s.Allows (.connect args))
    {m' : SSEConnectionManager} (hc : Connected limits args s.manager m') (hfull : (m'.conn s.manager.made).full = false) :
    Inv { s with manager := m', current := some s.manager.made } := by
  refine ⟨hc.eventLog.trans h.log, h.ids, h.nodup, h.opened.connected hc, fun p hp => ?_, ?_, fun r hr => ?_⟩
  · have hlt := h.made p hp
    show p.1 < m'.made
    rw [hc.made]
    omega
  · exact fun hn => by cases hn
  · obtain rfl := Option.some.inj hr
    have hnew := hfull
    rw [hc.new] at hnew
    -- Nothing is on its way to a connection that was not there.
    have hway : s.onTheWay s.manager.made = [] := by
      rw [onTheWay, List.map_eq_nil_iff, List.filter_eq_nil_iff]
      intro p hp he
      have hlt := h.made p hp
      rw [of_decide_eq_true he] at hlt
      exact Nat.lt_irrefl _ hlt
    refine ⟨by rw [hc.made]; exact Nat.lt_succ_self _, ?_⟩
    show if (m'.conn s.manager.made).closed = true then _ else
      s.reads ++ (m'.conn s.manager.made).queue ++ s.onTheWay s.manager.made <:+ s.published
    rw [hc.new, (replayed_face limits args s.manager).1, if_neg (by simp), hway, List.append_nil]
    exact h.replayed hallow hnew

/-- **One step keeps the invariant.** -/
theorem Inv.step (h : s.Inv) (hfull : s.NoneFull) {limits : Limits} {st : ReplayStep} {s' : ReplayState}
    (hallow : s.Allows st) (hstep : s.step limits st = some s') (hfull' : s'.NoneFull) : s'.Inv := by
  cases st with
  | broadcast ev =>
    obtain rfl := Option.some.inj hstep
    exact h.broadcast hallow.1 hallow.2
  | deliver =>
    rw [ReplayState.step] at hstep
    split at hstep
    · cases hstep
    · rename_i hp
      obtain rfl := Option.some.inj hstep
      exact h.deliver hfull hp
  | connect args =>
    rcases s.manager.connect_cases limits args with ⟨e, he⟩ | ⟨m', hm, hc⟩
    · simp only [ReplayState.step, he, Option.some.injEq] at hstep
      rw [← hstep]
      exact h
    · simp only [ReplayState.step, hm, Option.some.injEq] at hstep
      subst hstep
      have hmade : s.manager.made < m'.made := by
        rw [hc.made]
        exact Nat.lt_succ_self _
      exact h.connect hallow hc (hfull' s.manager.made hmade)
  | read =>
    simp only [ReplayState.step, take, Option.bind_eq_bind, Option.bind_eq_some_iff] at hstep
    obtain ⟨r, hr, ⟨ev, m⟩, htake, hs⟩ := hstep
    obtain ⟨x, hx, hm⟩ := Option.map_eq_some_iff.1 htake
    cases hm
    obtain rfl := Option.some.inj hs
    exact h.read hr (List.cons_head?_tail hx).symm
  | otherConnect args =>
    obtain rfl := Option.some.inj hstep
    exact h.otherConnect limits args
  | otherRead r =>
    rw [ReplayState.step] at hstep
    split at hstep
    · cases hstep
    · rename_i hr
      obtain ⟨p, htake, rfl⟩ := Option.map_eq_some_iff.1 hstep
      obtain ⟨x, -, rfl⟩ := Option.map_eq_some_iff.1 htake
      exact h.otherRead hr _
  | disconnect cid =>
    obtain rfl := Option.some.inj hstep
    exact h.disconnect cid

end ReplayState

theorem ReplayRun.inv {limits : Limits} {s : ReplayState} (h : ReplayRun limits s) : s.Inv ∧ s.NoneFull := by
  induction h with
  | start =>
    refine ⟨⟨rfl, ?_, List.nodup_nil, ?_, ?_, fun _ => rfl, ?_⟩, fun _ hr => absurd hr (Nat.not_lt_zero _)⟩
    · exact fun _ hx => by cases hx
    · exact fun _ hr => absurd hr (Nat.not_lt_zero _)
    · exact fun _ hp => by cases hp
    · exact fun _ hr => by cases hr
  | step _ hallow hstep hfull ih => exact ⟨ih.1.step ih.2 hallow hstep hfull, hfull⟩

/-- **Exactly-once delivery in order**: in every run, what the client has read over all its connections is a contiguous
segment of the broadcast sequence, in which no id comes twice. -/
theorem reads_contiguous (limits : Limits) (s : ReplayState) (h : ReplayRun limits s) :
    s.reads <:+: s.published ∧ (s.reads.map SSEEvent.id).Nodup := by
  have hseg := h.inv.1.reads_segment
  exact ⟨hseg, h.inv.1.nodup.sublist (hseg.sublist.map SSEEvent.id)⟩

instance (s : ReplayState) (st : ReplayStep) : Decidable (s.Allows st) :=
  match st with
  | .broadcast ev     => inferInstanceAs (Decidable ((truthy ev.id).isSome = true ∧ ∀ x ∈ s.published, x.id ≠ ev.id))
  | .connect args     => inferInstanceAs (Decidable (∀ ev ∈ s.reads.getLast?, args.lastEventId = ev.id ∧
      ∃ x ∈ ring s.published, x.id = ev.id))
  | .deliver          => isTrue trivial
  | .read             => isTrue trivial
  | .otherConnect _   => isTrue trivial
  | .otherRead _      => isTrue trivial
  | .disconnect _     => isTrue trivial

instance (s : ReplayState) : Decidable s.NoneFull :=
  inferInstanceAs (Decidable (∀ r, r < s.manager.made → (s.manager.conn r).full = false))

/-- The steps of a list, as long as they keep to the rules. -/
def ReplayState.steps (limits : Limits) : List ReplayStep → ReplayState → Option ReplayState
  | [],        s => some s
  | st :: sts, s =>
    if s.Allows st then (s.step limits st).bind (fun s' => if s'.NoneFull then ReplayState.steps limits sts s' else none)
    else none

theorem ReplayRun.steps {limits : Limits} : ∀ (sts : List ReplayStep) {s s' : ReplayState}, ReplayRun limits s →
    s.steps limits sts = some s' → ReplayRun limits s'
  | [], _, _, h, hs => by
    obtain rfl := Option.some.inj hs
    exact h
  | st :: sts, s, s', h, hs => by
    rw [ReplayState.steps] at hs
    split at hs
    · rename_i hallow
      obtain ⟨s₁, hstep, hrest⟩ := Option.bind_eq_some_iff.1 hs
      split at hrest
      · rename_i hfull
        exact (h.step hallow hstep hfull).steps sts hrest
      · cases hrest
    · cases hs

/-- A client that reads one event, misses two while it is away, one of them on its way to its old connection, and reads both
over its second connection. -/
theorem reads_contiguous_reconnect : ∃ s, ReplayRun {} s ∧ s.current = some 1 ∧
    s.reads.map SSEEvent.id = [some "1", some "2", some "3"] ∧ s.reads <:+: s.published := by
  have hrun : (ReplayState.steps {} [.connect { connectionId := some "a" }, .broadcast { id := some "1" }, .deliver, .read,
      .broadcast { id := some "2" }, .disconnect "a", .broadcast { id := some "3" },
      .connect { connectionId := some "b", lastEventId := some "1" }, .deliver, .read, .read]
      { manager := SSEConnectionManager.empty }).any
      (fun s => decide (s.current = some 1 ∧ s.reads.map SSEEvent.id = [some "1", some "2", some "3"])) = true := by
    decide +kernel
  obtain ⟨s, hs, hreads⟩ := (Option.any_eq_true _ _).1 hrun
  have hr : ReplayRun {} s := ReplayRun.start.steps _ hs
  obtain ⟨hcurrent, hids⟩ := of_decide_eq_true hreads
  exact ⟨s, hr, hcurrent, hids, (reads_contiguous {} s hr).1⟩

end Sse
end Pypepper
