import Pypepper.SseReplay
/-!
# SseHistory — what a replay depends on

The ring is one for the process: a broadcast records its event, and so does a send on any connection that takes the event,
whoever the connection belongs to.  What a new connection is replayed is a function of the recorded events alone
(`replay_of_recorded`); its own API key plays no part, and neither do the sends that record nothing.
-/
namespace Pypepper
namespace Sse

open SSEConnectionManager (ConnectArgs Connected)

inductive HistoryOp where
  | connect (args : ConnectArgs)
  | send (r : Nat) (ev : SSEEvent) (record : Bool)
  | broadcast (ev : SSEEvent)
  | read (r : Nat)
  | disconnect (connectionId : String)

section
variable (limits : Limits)

/-- One operation, run to its end; a send is on a connection that was made. -/
def perform (m : SSEConnectionManager) : HistoryOp → SSEConnectionManager
  | .connect args     => (m.connect limits args).2
  | .send r ev record => if r < m.made then (m.send r ev record).2 else m
  | .broadcast ev     => m.activeConnections.foldl (fun m r => (m.send r ev false).2) (m.recordEvent ev)
  | .read r           => m.modify r (fun c => { c with queue := c.queue.tail }) (fun _ => rfl)
  | .disconnect cid   => m.disconnect cid

def performAll (m : SSEConnectionManager) (h : List HistoryOp) : SSEConnectionManager := h.foldl (perform limits) m

/-- The history without the sends on connections of another API key. -/
def withoutOthers (apiKey : Option String) : SSEConnectionManager → List HistoryOp → List HistoryOp
  | _, []                          => []
  | m, .send r ev record :: h      =>
    if (m.conn r).apiKey ≠ apiKey then withoutOthers apiKey (perform limits m (.send r ev record)) h
    else .send r ev record :: withoutOthers apiKey (perform limits m (.send r ev record)) h
  | m, op :: h                     => op :: withoutOthers apiKey (perform limits m op) h

/-- What an operation records: a broadcast its event, a send the event that its connection took; each only with an id. -/
def recordedBy (m : SSEConnectionManager) : HistoryOp → List SSEEvent
  | .send r ev record => if r < m.made ∧ (m.send r ev record).1 ∧ record ∧ (truthy ev.id).isSome then [ev] else []
  | .broadcast ev     => if (truthy ev.id).isSome then [ev] else []
  | .connect _        => []
  | .read _           => []
  | .disconnect _     => []

/-- The events recorded in a history, in order. -/
def recorded : SSEConnectionManager → List HistoryOp → List SSEEvent
  | _, []      => []
  | m, op :: h => recordedBy m op ++ recorded (perform limits m op) h

end

/-! ## The ring -/

section
variable {limits : Limits} {m : SSEConnectionManager} {l : List SSEEvent}

theorem eventLog_recordEvent (h : m.eventLog = ring l) (ev : SSEEvent) :
    (m.recordEvent ev).eventLog = ring (l ++ if (truthy ev.id).isSome then [ev] else []) := by
  unfold SSEConnectionManager.recordEvent
  by_cases hid : (truthy ev.id).isSome = true
  · rw [if_pos hid, if_pos hid, ← push_ring, ← h]
  · rw [if_neg hid, if_neg hid, List.append_nil]
    exact h

theorem eventLog_send_unrecorded (m : SSEConnectionManager) (r : Nat) (ev : SSEEvent) :
    (m.send r ev false).2.eventLog = m.eventLog := by
  unfold SSEConnectionManager.send
  by_cases hc : (m.conn r).closed = true
  · rw [if_pos hc]
  · rw [if_neg hc]
    by_cases hf : (m.conn r).full = true
    · rw [if_pos hf]
      rfl
    · rw [if_neg hf]
      rfl

theorem eventLog_sends (ev : SSEEvent) : ∀ (rs : List Nat) (m : SSEConnectionManager),
    (rs.foldl (fun m r => (m.send r ev false).2) m).eventLog = m.eventLog
  | [], _ => rfl
  | r :: rs, m => by
    rw [List.foldl_cons, eventLog_sends ev rs, eventLog_send_unrecorded]

/-- **The ring holds the end of what was recorded**, one operation further. -/
theorem eventLog_perform (h : m.eventLog = ring l) (op : HistoryOp) :
    (perform limits m op).eventLog = ring (l ++ recordedBy m op) := by
  cases op with
  | connect args =>
    rw [recordedBy, List.append_nil, ← h, perform]
    exact m.eventLog_connect limits args
  | send r ev record =>
    rw [perform, recordedBy]
    by_cases hr : r < m.made
    · rw [if_pos hr]
      cases record with
      | false =>
        rw [if_neg (by simp), List.append_nil, eventLog_send_unrecorded]
        exact h
      | true =>
        unfold SSEConnectionManager.send
        by_cases hc : (m.conn r).closed = true
        · simpa [hc] using h
        · by_cases hf : (m.conn r).full = true
          · simpa [hc, hf] using h
          · simpa [hc, hf, hr] using eventLog_recordEvent (m := m.modify r (fun c => { c with queue := c.queue ++ [ev] })
              (fun _ => rfl)) h ev
    · rw [if_neg hr, if_neg (fun h => hr h.1), List.append_nil]
      exact h
  | broadcast ev =>
    rw [perform, recordedBy, eventLog_sends]
    exact eventLog_recordEvent h ev
  | read r =>
    rw [recordedBy, List.append_nil, ← h]
    rfl
  | disconnect cid =>
    rw [recordedBy, List.append_nil, ← h, perform]
    exact m.eventLog_disconnect cid

/-- A whole history. -/
theorem eventLog_performAll : ∀ (h : List HistoryOp) {m : SSEConnectionManager} {l : List SSEEvent}, m.eventLog = ring l →
    (performAll limits m h).eventLog = ring (l ++ recorded limits m h)
  | [], m, l, hm => by simpa [performAll, recorded] using hm
  | op :: h, m, l, hm => by
    have hop : (perform limits m op).eventLog = ring (l ++ recordedBy m op) := eventLog_perform hm op
    have ih := eventLog_performAll h hop
    rw [List.append_assoc] at ih
    exact ih

end

/-! ## Managers that differ in the ring and the queues -/

/-- Nothing was registered, removed or closed, and no connection changed hands. -/
structure Alike (m m' : SSEConnectionManager) : Prop extends Calm m m' where
  apiKey : ∀ r, (m'.conn r).apiKey = (m.conn r).apiKey

namespace Alike

variable {m m' m'' : SSEConnectionManager}

theorem refl (m : SSEConnectionManager) : Alike m m := ⟨Calm.refl m, fun _ => rfl⟩

theorem symm (h : Alike m m') : Alike m' m :=
  ⟨⟨h.connections.symm, h.made.symm, fun r => (h.face r).symm⟩, fun r => (h.apiKey r).symm⟩

theorem trans (h : Alike m m') (h' : Alike m' m'') : Alike m m'' :=
  ⟨⟨h'.connections.trans h.connections, h'.made.trans h.made, fun r => (h'.face r).trans (h.face r)⟩,
    fun r => (h'.apiKey r).trans (h.apiKey r)⟩

theorem modify {r : Nat} {f : SSEConnection → SSEConnection} {hf} (hface : ∀ c, (f c).face = c.face)
    (hkey : ∀ c, (f c).apiKey = c.apiKey) : Alike m (m.modify r f hf) := by
  refine ⟨Calm.modify hface, fun r' => ?_⟩
  rw [SSEConnectionManager.conn_modify]
  by_cases hr : r' = r
  · rw [if_pos hr, hkey, hr]
  · rw [if_neg hr]

theorem recordEvent (ev : SSEEvent) (h : Alike m m') : Alike m (m'.recordEvent ev) := by
  refine ⟨h.toCalm.recordEvent ev, ?_⟩
  unfold SSEConnectionManager.recordEvent
  split
  · exact h.apiKey
  · exact h.apiKey

theorem send (r : Nat) (ev : SSEEvent) (record : Bool) : Alike m (m.send r ev record).2 := by
  unfold SSEConnectionManager.send
  by_cases hc : (m.conn r).closed = true
  · rw [if_pos hc]
    exact refl m
  · rw [if_neg hc]
    by_cases hf : (m.conn r).full = true
    · rw [if_pos hf]
      dsimp only
      exact modify (fun _ => rfl) (fun _ => rfl)
    · rw [if_neg hf]
      have hm : Alike m (m.modify r (fun c => { c with queue := c.queue ++ [ev] }) (fun _ => rfl)) :=
        modify (fun _ => rfl) (fun _ => rfl)
      cases record with
      | false => exact hm
      | true => exact hm.recordEvent ev

theorem sends (ev : SSEEvent) : ∀ (rs : List Nat) (m : SSEConnectionManager),
    Alike m (rs.foldl (fun m r => (m.send r ev false).2) m)
  | [], m => refl m
  | r :: rs, _ => (send r ev false).trans (sends ev rs _)

/-- A connect is answered the same way. -/
theorem connect_fst (h : Alike m m') (limits : Limits) (args : ConnectArgs) :
    (m'.connect limits args).1 = (m.connect limits args).1 := by
  have hcount : ∀ ip, m'.ipCount ip = m.ipCount ip := by
    intro ip
    simp only [SSEConnectionManager.ipCount, h.connections, h.clientIp]
  unfold SSEConnectionManager.connect
  rw [h.connections]
  simp only [hcount]
  split
  · rfl
  · split
    · rfl
    · cases truthy args.lastEventId with
      | none => rw [h.made]
      | some id => rw [h.made]

theorem connected {limits : Limits} {args : ConnectArgs} {n n' : SSEConnectionManager} (h : Alike m m')
    (hn : Connected limits args m n) (hn' : Connected limits args m' n') : Alike n n' := by
  have hnew : ∀ v : SSEConnectionManager, (v.replayed limits args).apiKey = args.apiKey := by
    intro v
    unfold SSEConnectionManager.replayed
    split
    · rfl
    · rw [SSEConnection.replay_apiKey]
      rfl
  have hface := replayed_face limits args
  refine ⟨⟨?_, ?_, fun r => ?_⟩, fun r => ?_⟩
  · rw [hn.connections, hn'.connections, h.connections, h.made]
  · rw [hn.made, hn'.made, h.made]
  · by_cases hr : r = m.made
    · have hr' : r = m'.made := hr.trans h.made.symm
      rw [hr, hn.new, ← hr, hr', hn'.new]
      simp only [SSEConnection.face, (hface m).1, (hface m').1, (hface m).2.1, (hface m').2.1, (hface m).2.2, (hface m').2.2]
    · rw [hn.old r hr, hn'.old r (h.made ▸ hr), h.connections]
      by_cases hold : m.connections.get args.cid = some r
      · rw [if_pos hold, if_pos hold]
        simp only [SSEConnection.face, h.connectionId, h.clientIp]
      · rw [if_neg hold, if_neg hold]
        exact h.face r
  · by_cases hr : r = m.made
    · have hr' : r = m'.made := hr.trans h.made.symm
      rw [hr, hn.new, ← hr, hr', hn'.new, hnew, hnew]
    · rw [hn.old r hr, hn'.old r (h.made ▸ hr), h.connections]
      split
      · exact h.apiKey r
      · exact h.apiKey r

theorem connect (h : Alike m m') (limits : Limits) (args : ConnectArgs) :
    Alike (m.connect limits args).2 (m'.connect limits args).2 := by
  have hfst := h.connect_fst limits args
  rcases m.connect_cases limits args with ⟨e, he⟩ | ⟨n, hn, hc⟩
  · rcases m'.connect_cases limits args with ⟨e', he'⟩ | ⟨n', hn', -⟩
    · rw [he, he']
      exact h
    · rw [he, hn'] at hfst
      cases hfst
  · rcases m'.connect_cases limits args with ⟨e', he'⟩ | ⟨n', hn', hc'⟩
    · rw [he', hn] at hfst
      cases hfst
    · rw [hn, hn']
      exact h.connected hc hc'

theorem disconnect (h : Alike m m') (cid : String) : Alike (m.disconnect cid) (m'.disconnect cid) := by
  obtain ⟨hnone, hsame⟩ | ⟨q, hq, hpop, hmade, -, hconn⟩ := m.disconnect_cases cid
  · obtain ⟨-, hsame'⟩ | ⟨q', hq', -⟩ := m'.disconnect_cases cid
    · rw [hsame, hsame']
      exact h
    · rw [h.connections, hnone] at hq'
      cases hq'
  · obtain ⟨hnone', -⟩ | ⟨q', hq', hpop', hmade', -, hconn'⟩ := m'.disconnect_cases cid
    · rw [h.connections, hq] at hnone'
      cases hnone'
    · rw [h.connections, hq] at hq'
      obtain rfl := Option.some.inj hq'
      refine ⟨⟨?_, ?_, fun r => ?_⟩, fun r => ?_⟩
      · rw [hpop, hpop', h.connections]
      · rw [hmade, hmade', h.made]
      · rw [hconn, hconn']
        by_cases hr : r = q
        · rw [if_pos hr, if_pos hr]
          simp only [SSEConnection.face, h.connectionId, h.clientIp]
        · rw [if_neg hr, if_neg hr]
          exact h.face r
      · rw [hconn, hconn']
        by_cases hr : r = q
        · rw [if_pos hr, if_pos hr]
          exact h.apiKey q
        · rw [if_neg hr, if_neg hr]
          exact h.apiKey r

theorem performSend (limits : Limits) (m : SSEConnectionManager) (r : Nat) (ev : SSEEvent) (record : Bool) :
    Alike m (perform limits m (.send r ev record)) := by
  rw [perform]
  split
  · exact send r ev record
  · exact refl m

/-- **One operation** on both. -/
theorem perform (h : Alike m m') (limits : Limits) : ∀ op, Alike (perform limits m op) (perform limits m' op)
  | .connect args => h.connect limits args
  | .send r ev record => ((performSend limits m r ev record).symm.trans h).trans (performSend limits m' r ev record)
  | .broadcast ev => by
    have hsent : ∀ v : SSEConnectionManager, Alike v (Sse.perform limits v (.broadcast ev)) := fun v =>
      ((refl v).recordEvent ev).trans (sends ev _ _)
    exact ((hsent m).symm.trans h).trans (hsent m')
  | .read r => by
    have hread : ∀ v : SSEConnectionManager, Alike v (Sse.perform limits v (.read r)) := by
      intro v
      rw [Sse.perform]
      exact modify (fun _ => rfl) (fun _ => rfl)
    exact ((hread m).symm.trans h).trans (hread m')
  | .disconnect cid => h.disconnect cid

/-- **A whole history**, and the history without the sends to others. -/
theorem performAll (limits : Limits) (apiKey : Option String) : ∀ (h : List HistoryOp) {m m' : SSEConnectionManager},
    Alike m m' → Alike (performAll limits m h) (performAll limits m' (withoutOthers limits apiKey m h))
  | [], _, _, ha => ha
  | .send r ev record :: h, m, m', ha => by
    rw [withoutOthers]
    split
    · exact performAll limits apiKey h ((performSend limits m r ev record).symm.trans ha)
    · exact performAll limits apiKey h (ha.perform limits (.send r ev record))
  | .connect args :: h, m, m', ha => performAll limits apiKey h (ha.perform limits (.connect args))
  | .broadcast ev :: h, m, m', ha => performAll limits apiKey h (ha.perform limits (.broadcast ev))
  | .read r :: h, m, m', ha => performAll limits apiKey h (ha.perform limits (.read r))
  | .disconnect cid :: h, m, m', ha => performAll limits apiKey h (ha.perform limits (.disconnect cid))

end Alike

/-! ## The replay -/

/-- The replayed events are a part of the ring. -/
theorem replayed_subset (limits : Limits) (args : ConnectArgs) (m : SSEConnectionManager) :
    (m.replayed limits args).queue ⊆ m.eventLog := by
  have hreplay : ∀ (evs : List SSEEvent) (c : SSEConnection), (c.replay evs).queue ⊆ c.queue ++ evs := by
    intro evs
    induction evs with
    | nil => simp [SSEConnection.replay]
    | cons ev evs ih =>
      intro c
      rw [SSEConnection.replay]
      split
      · exact List.subset_append_left _ _
      · simpa using ih { c with queue := c.queue ++ [ev] }
  unfold SSEConnectionManager.replayed
  split
  · exact List.nil_subset _
  · rename_i id _
    exact List.Subset.trans (hreplay _ _) (eventsAfter_suffix id).subset

theorem replayed_of_eventLog {m m' : SSEConnectionManager} (h : m'.eventLog = m.eventLog) (limits : Limits)
    (args : ConnectArgs) : m'.replayed limits args = m.replayed limits args := by
  simp only [SSEConnectionManager.replayed, SSEConnectionManager.eventsAfter, h]

/-- The connection that a connect makes. -/
theorem conn_connect {limits : Limits} {args : ConnectArgs} {m : SSEConnectionManager} {r : Nat}
    (h : (m.connect limits args).1 = .ok r) : (m.connect limits args).2.conn r = m.replayed limits args := by
  rcases m.connect_cases limits args with ⟨e, he⟩ | ⟨n, hn, hc⟩
  · rw [he] at h
    cases h
  · rw [hn] at h ⊢
    obtain rfl := Except.ok.inj h
    exact hc.new

/-- **A replay is what the ring has**: two histories that differ only in the events sent on connections of other keys, and
that leave the same events in the ring, answer a connect alike and replay the same events to it, each of them a recorded
one. -/
theorem replay_of_recorded (limits : Limits) (apiKey : Option String) (h₁ h₂ : List HistoryOp) (args : ConnectArgs)
    (hothers : withoutOthers limits apiKey SSEConnectionManager.empty h₁ =
      withoutOthers limits apiKey SSEConnectionManager.empty h₂)
    (hring : ring (recorded limits SSEConnectionManager.empty h₁) = ring (recorded limits SSEConnectionManager.empty h₂)) :
    let c₁ := (performAll limits SSEConnectionManager.empty h₁).connect limits { args with apiKey := apiKey }
    let c₂ := (performAll limits SSEConnectionManager.empty h₂).connect limits { args with apiKey := apiKey }
    c₁.1 = c₂.1 ∧ ∀ r, c₁.1 = .ok r → (c₁.2.conn r).queue = (c₂.2.conn r).queue ∧
      ∀ ev ∈ (c₁.2.conn r).queue, ev ∈ recorded limits SSEConnectionManager.empty h₁ := by
  intro c₁ c₂
  have hlog : ∀ h, (performAll limits SSEConnectionManager.empty h).eventLog =
      ring (recorded limits SSEConnectionManager.empty h) := fun h => by
    simpa using eventLog_performAll h (m := SSEConnectionManager.empty) (l := []) rfl
  have hview : ∀ h, Alike (performAll limits SSEConnectionManager.empty h)
      (performAll limits SSEConnectionManager.empty (withoutOthers limits apiKey SSEConnectionManager.empty h)) :=
    fun h => Alike.performAll limits apiKey h (Alike.refl _)
  have halike := (hview h₂).trans (hothers ▸ (hview h₁).symm)
  have hfst : c₁.1 = c₂.1 := halike.connect_fst limits _
  refine ⟨hfst, fun r hr => ?_⟩
  rw [conn_connect hr, conn_connect (hfst ▸ hr)]
  constructor
  · rw [replayed_of_eventLog]
    rw [hlog, hlog, hring]
  · intro ev hev
    have hmem := replayed_subset limits _ _ hev
    rw [hlog] at hmem
    exact (ring_suffix _).subset hmem

/-- Two histories of which one has a send without an id on another client's connection. -/
theorem replay_of_recorded_no_id :
    let h₁ : List HistoryOp := [.connect { connectionId := some "a", apiKey := some "A" }, .broadcast { id := some "1" },
      .send 0 {} true, .broadcast { id := some "2" }]
    let h₂ : List HistoryOp := [.connect { connectionId := some "a", apiKey := some "A" }, .broadcast { id := some "1" },
      .broadcast { id := some "2" }]
    let args : ConnectArgs := { connectionId := some "b", lastEventId := some "1", apiKey := some "B" }
    let c₁ := (performAll {} SSEConnectionManager.empty h₁).connect {} args
    let c₂ := (performAll {} SSEConnectionManager.empty h₂).connect {} args
    (c₁.2.conn 1).queue = (c₂.2.conn 1).queue ∧ (c₁.2.conn 1).queue.map SSEEvent.id = [some "2"] := by
  intro h₁ h₂ args c₁ c₂
  have hothers : withoutOthers {} (some "B") SSEConnectionManager.empty h₁ =
      withoutOthers {} (some "B") SSEConnectionManager.empty h₂ := by rfl
  have hring : ring (recorded {} SSEConnectionManager.empty h₁) = ring (recorded {} SSEConnectionManager.empty h₂) := by rfl
  have hnew : c₁.1 = .ok 1 := by rfl
  have hids : (c₁.2.conn 1).queue.map SSEEvent.id = [some "2"] := by decide
  exact ⟨((replay_of_recorded {} (some "B") h₁ h₂ args hothers hring).2 1 hnew).1, hids⟩

/-- **The ring is shared**: an event sent on one client's connection is replayed to a client of another key. -/
theorem sent_to_other_replayed : ∃ (apiKey : Option String) (h₁ h₂ : List HistoryOp) (args : ConnectArgs) (r : Nat),
    args.apiKey = apiKey ∧ withoutOthers {} apiKey SSEConnectionManager.empty h₁ =
      withoutOthers {} apiKey SSEConnectionManager.empty h₂ ∧
    ((performAll {} SSEConnectionManager.empty h₁).connect {} args).1 = .ok r ∧
    ((performAll {} SSEConnectionManager.empty h₂).connect {} args).1 = .ok r ∧
    (((performAll {} SSEConnectionManager.empty h₁).connect {} args).2.conn r).queue.map SSEEvent.id = [some "2"] ∧
    (((performAll {} SSEConnectionManager.empty h₂).connect {} args).2.conn r).queue.map SSEEvent.id = [] := by
  refine ⟨some "B", [.connect { connectionId := some "a", apiKey := some "A" }, .broadcast { id := some "1" },
      .send 0 { id := some "2" } true],
    [.connect { connectionId := some "a", apiKey := some "A" }, .broadcast { id := some "1" }],
    { connectionId := some "b", lastEventId := some "1", apiKey := some "B" }, 1, rfl, ?_, ?_, ?_, ?_, ?_⟩
  · rfl
  · rfl
  · rfl
  · decide
  · decide

end Sse
end Pypepper
