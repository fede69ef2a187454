import Pypepper.SseStream
/-!
# SseRegistry — the registry under interleaved streams

The registry is keyed by id, a stream holds a connection.  A connect under an id that is taken replaces the entry and leaves
the replaced stream running: that stream's final disconnect later removes its replacement, and until then it is counted by
no limit.  So ending a stream leaves the others alone exactly when no stream ends while another is the current one of its id
(`streams_undisturbed_iff`), and the limits bound the live streams as long as no connect replaces an entry
(`live_streams_bounded`).
-/
namespace Pypepper
namespace Sse

open Conc (Prog Proto Sem Conf Ev Admits Extends team team_guar team_stable team_invariant append_singleton_split)
open SSEConnectionManager (Connected connect_cases disconnect_cases)

/-- Every run of the system, whatever the environment chooses. -/
abbrev StreamRuns (limits : Limits) (c c' : StreamConf) : Prop :=
  Conf.Runs ((streamSem limits).logged (fun _ _ => True)) c c'

/-! ## Ending one stream and the others -/

/-- The end of a stream: its final disconnect, or a callback that raised in its place. -/
def ended (e : StreamEv) : Option Nat :=
  match e with
  | ⟨_, .disconnect r, _, _, _⟩          => some r
  | ⟨_, .onDisconnect r, .error _, _, _⟩ => some r
  | _                                    => none

/-- **The current stream of an id**: it connected under it, has not ended, and nobody connected under it since. -/
def Current (log : List StreamEv) (cid : String) (r : Nat) : Prop :=
  ∃ before e after, log = before ++ e :: after ∧ connected e = some (cid, r) ∧
    ∀ x ∈ after, ended x ≠ some r ∧ ∀ r', connected x ≠ some (cid, r')

/-- A connection is registered under an id, and open. -/
def Registered (s : StreamState) (cid : String) (r : Nat) : Prop :=
  s.manager.connections.get cid = some r ∧ (s.manager.conn r).closed = false

/-- After the event, every current stream's connection is registered under its id, and open. -/
def Undisturbed (before : List StreamEv) (e : StreamEv) : Prop :=
  ∀ cid r, Current (before ++ [e]) cid r → Registered e.post cid r

/-- A final disconnect is made while no other stream is the current one of its id. -/
def EndsAsCurrent (before : List StreamEv) (e : StreamEv) : Prop :=
  ∀ r, disconnected e = some r → ∀ r', Current before (e.pre.manager.conn r).connectionId r' → r' = r

theorem ended_of_disconnected {e : StreamEv} {r : Nat} (h : disconnected e = some r) : ended e = some r := by
  unfold disconnected at h
  split at h
  · exact h
  · cases h

theorem current_append {log : List StreamEv} {e : StreamEv} {cid : String} {r : Nat} :
    Current (log ++ [e]) cid r ↔ connected e = some (cid, r) ∨
      (Current log cid r ∧ ended e ≠ some r ∧ ∀ r', connected e ≠ some (cid, r')) := by
  constructor
  · rintro ⟨before, x, after, hlog, hx, hafter⟩
    obtain ⟨rfl, rfl, rfl⟩ | ⟨after', rfl, hlog'⟩ := append_singleton_split hlog
    · exact .inl hx
    · exact .inr ⟨⟨before, x, after', hlog', hx, fun z hz => hafter z (by simp [hz])⟩, hafter e (by simp)⟩
  · rintro (h | ⟨⟨before, x, after, rfl, hx, hafter⟩, he⟩)
    · exact ⟨log, e, [], rfl, h, by simp⟩
    · refine ⟨before, x, after ++ [e], by simp, hx, fun z hz => ?_⟩
      rcases List.mem_append.1 hz with hz | hz
      · exact hafter z hz
      · rw [List.mem_singleton.1 hz]
        exact he

/-- `Current`, read from the front of the log. -/
def isCurrent (cid : String) (r : Nat) : List StreamEv → Bool
  | []     => false
  | e :: l => (decide (connected e = some (cid, r)) &&
      l.all (fun x => decide (ended x ≠ some r) && decide ((connected x).map Prod.fst ≠ some cid))) || isCurrent cid r l

theorem isCurrent_iff {cid : String} {r : Nat} : ∀ {log : List StreamEv}, isCurrent cid r log = true ↔ Current log cid r
  | [] => by
    constructor
    · exact fun h => by cases h
    · rintro ⟨before, e, after, h, -⟩
      simp at h
  | e :: l => by
    have hrest : ∀ x : StreamEv, (decide (ended x ≠ some r) && decide ((connected x).map Prod.fst ≠ some cid)) = true ↔
        ended x ≠ some r ∧ ∀ r', connected x ≠ some (cid, r') := by
      intro x
      cases connected x <;> simp [Prod.ext_iff]
    rw [isCurrent, Bool.or_eq_true, Bool.and_eq_true, decide_eq_true_eq, List.all_eq_true, isCurrent_iff]
    simp only [hrest]
    constructor
    · rintro (⟨he, hl⟩ | ⟨before, x, after, rfl, hx⟩)
      · exact ⟨[], e, l, rfl, he, hl⟩
      · exact ⟨e :: before, x, after, rfl, hx⟩
    · rintro ⟨before, x, after, hl, hx⟩
      cases before with
      | nil =>
        obtain ⟨rfl, rfl⟩ := List.cons.inj hl
        exact .inl hx
      | cons y before =>
        obtain ⟨rfl, rfl⟩ := List.cons.inj hl
        exact .inr ⟨before, x, after, rfl, hx⟩

instance (log : List StreamEv) (cid : String) (r : Nat) : Decidable (Current log cid r) :=
  decidable_of_iff _ isCurrent_iff

theorem endsAsCurrent_iff {before : List StreamEv} {e : StreamEv} : EndsAsCurrent before e ↔
    ∀ r ∈ disconnected e, ∀ x ∈ before, ∀ p ∈ connected x,
      Current before (e.pre.manager.conn r).connectionId p.2 → p.2 = r := by
  constructor
  · exact fun h r hr _ _ p _ hc => h r hr p.2 hc
  · intro h r hr r' hc
    obtain ⟨b, x, a, hlog, hx, -⟩ := id hc
    exact h r hr x (by simp [hlog]) _ hx hc

instance (before : List StreamEv) (e : StreamEv) : Decidable (EndsAsCurrent before e) :=
  decidable_of_iff _ endsAsCurrent_iff.symm

theorem not_current_nil {cid : String} {r : Nat} : ¬ Current [] cid r := by
  rintro ⟨before, e, after, h, -⟩
  simp at h

section
variable {limits : Limits} {t : StreamThread} {a : StreamAct} {s s' : StreamState} {res : a.Res} {log : List StreamEv}

/-- **One step** keeps the current streams registered and open, when a final disconnect is made by the current one. -/
theorem registered_step (h : streamSem limits t a s res s') (hK : EndsAsCurrent log ⟨t, a, res, s, s'⟩)
    (hI : ∀ cid r, Current log cid r → Registered s cid r) : Undisturbed log ⟨t, a, res, s, s'⟩ := by
  intro cid r hc
  rw [current_append] at hc
  rcases streamSem_cases h with ⟨hn, -, hcalm⟩ | ⟨args, hconn, -, hnew⟩ | ⟨q, hn, hd, hm⟩
  · obtain hc | ⟨hc, -⟩ := hc
    · rw [hn] at hc
      cases hc
    · obtain ⟨hr, hopen⟩ := hI cid r hc
      exact ⟨by rw [hcalm.connections]; exact hr, by rw [hcalm.closed]; exact hopen⟩
  · obtain hc | ⟨hc, -, hne⟩ := hc
    · rw [hconn, Option.some.injEq, Prod.mk.injEq] at hc
      obtain ⟨rfl, rfl⟩ := hc
      refine ⟨?_, ?_⟩
      · show s'.manager.connections.get args.cid = _
        rw [hnew.connections, Py.Dict.get_set_self]
      · show (s'.manager.conn s.manager.made).closed = false
        rw [hnew.new]
        exact (replayed_face limits args s.manager).1
    · obtain ⟨hr, hopen⟩ := hI cid r hc
      have hcid : cid ≠ args.cid := fun he => hne s.manager.made (by rw [hconn, he])
      obtain ⟨hlt, hid⟩ := s.manager.keyed cid r hr
      -- The replaced connection has the new one's id, so it is not this one.
      have hold : ¬ s.manager.connections.get args.cid = some r := fun hg =>
        hcid (hid.symm.trans (s.manager.keyed args.cid r hg).2)
      refine ⟨?_, ?_⟩
      · show s'.manager.connections.get cid = _
        rw [hnew.connections, Py.Dict.get_set_of_ne _ _ hcid]
        exact hr
      · show (s'.manager.conn r).closed = false
        rw [hnew.old r (Nat.ne_of_lt hlt), if_neg hold]
        exact hopen
  · obtain hc | ⟨hc, hne, -⟩ := hc
    · rw [hn] at hc
      cases hc
    · obtain ⟨hr, hopen⟩ := hI cid r hc
      have hrq : r ≠ q := fun he => hne (by rw [ended_of_disconnected hd, he])
      have hcid : cid ≠ (s.manager.conn q).connectionId := fun he => hrq (hK q hd r (he ▸ hc))
      show s'.manager.connections.get cid = some r ∧ (s'.manager.conn r).closed = false
      rw [hm]
      obtain ⟨-, hsame⟩ | ⟨q', hq', hpop, -, -, hconn⟩ := s.manager.disconnect_cases (s.manager.conn q).connectionId
      · rw [hsame]
        exact ⟨hr, hopen⟩
      · have hrq' : ¬ r = q' := fun he => hcid (by
          rw [← (s.manager.keyed cid r hr).2, he, (s.manager.keyed _ q' hq').2])
        rw [hpop, Py.Dict.get_pop, if_neg hcid, hconn, if_neg hrq']
        exact ⟨hr, hopen⟩

/-- A final disconnect while another stream is the current one of its id disturbs that stream. -/
theorem endsAsCurrent_of_undisturbed (h : streamSem limits t a s res s') (hU : Undisturbed log ⟨t, a, res, s, s'⟩) :
    EndsAsCurrent log ⟨t, a, res, s, s'⟩ := by
  intro r hd r' hc
  by_contra hne
  rcases streamSem_cases h with ⟨-, hn, -⟩ | ⟨_, -, hn, -⟩ | ⟨q, hn, hd', hm⟩
  · rw [hn] at hd
    cases hd
  · rw [hn] at hd
    cases hd
  · obtain rfl : q = r := Option.some.inj (hd'.symm.trans hd)
    have hreg := hU _ r' (current_append.2 (.inr ⟨hc, ?_, ?_⟩))
    · have hget : (s.manager.disconnect (s.manager.conn q).connectionId).connections.get
          (s.manager.conn q).connectionId = some r' := by
        rw [← hm]
        exact hreg.1
      obtain ⟨hnone, hsame⟩ | ⟨q', hq', hpop, -⟩ := s.manager.disconnect_cases (s.manager.conn q).connectionId
      · rw [hsame, hnone] at hget
        cases hget
      · rw [hpop, Py.Dict.get_pop, if_pos rfl] at hget
        cases hget
    · rw [ended_of_disconnected hd]
      exact fun he => hne (Option.some.inj he).symm
    · rw [hn]
      exact fun _ he => by cases he

end

/-- **Ending a stream leaves the others alone, exactly when no stream ends while another is the current one of its id**: in
any run, every current stream's connection is registered and open after every step if and only if every final disconnect is
made while no other stream is the current one of its id. -/
theorem streams_undisturbed_iff (limits : Limits) (σ : Streams) (c : StreamConf) (hr : StreamRuns limits σ.start c) :
    Admits Undisturbed c.state.2 ↔ Admits EndsAsCurrent c.state.2 := by
  have hinv := hr.invariant (P := fun s => (Admits Undisturbed s.2 ↔ Admits EndsAsCurrent s.2) ∧
      (Admits Undisturbed s.2 → ∀ cid r, Current s.2 cid r → Registered s.1 cid r)) ?_ ?_
  · exact hinv.1
  · rintro t a s res s' ⟨hstep, hlog, -⟩ ⟨hiff, hreg⟩
    rw [hlog]
    refine ⟨⟨fun hU => ?_, fun hE => ?_⟩, fun hU => (hU.of_append).2⟩
    · obtain ⟨hU, hu⟩ := hU.of_append
      exact (hiff.1 hU).append (endsAsCurrent_of_undisturbed hstep hu)
    · obtain ⟨hE, he⟩ := hE.of_append
      exact (hiff.2 hE).append (registered_step hstep he (hreg (hiff.2 hE)))
  · exact ⟨⟨fun _ => Admits.nil, fun _ => Admits.nil⟩, fun _ cid r h => absurd h not_current_nil⟩

/-- **An executed schedule of streams is a run.** -/
theorem exists_streamRuns {limits : Limits} {c : StreamConf} {P : StreamConf → Prop} [DecidablePred P]
    (sch : List (StreamThread × StreamChoice))
    (h : (c.execs (streamExec limits) sch).any (fun c' => decide (P c')) = true) :
    ∃ c', StreamRuns limits c c' ∧ P c' :=
  Conf.exists_runs sch (fun _ _ _ _ => trivial) h

/-- The streams of these ids. -/
def Streams.ofIds (ids : Nat → String) : Streams where
  args n := { connectionId := some (ids n) }
  fuel _ := 2

/-- A stream runs from its connect to its end: its client goes, and its events task is cancelled before it starts. -/
def oneStream (n : Nat) : List (StreamThread × StreamChoice) :=
  [(.stream n, {}), (.stream n, {}), (.stream n, { gone := true }), (.stream n, {}), (.events n, {}), (.events n, {}),
    (.stream n, {}), (.stream n, {}), (.stream n, {})]

/-- **Two streams under one id**: the first one's end takes the second one's connection out of the registry. -/
theorem replaced_stream_ends : ∃ c, StreamRuns {} (Streams.ofIds fun _ => "x").start c ∧ ¬ Admits Undisturbed c.state.2 := by
  obtain ⟨c, hr, hcur, hlast⟩ : ∃ c, StreamRuns {} (Streams.ofIds fun _ => "x").start c ∧ Current c.state.2 "x" 1 ∧
      (c.state.2.getLast?).any (fun e => decide (e.post.manager.connections.get "x" = none)) = true :=
    exists_streamRuns ((.stream 0, {}) :: (.stream 1, {}) :: oneStream 0) (by decide +kernel)
  refine ⟨c, hr, fun hU => ?_⟩
  obtain ⟨e, he, hnone⟩ := (Option.any_eq_true _ _).1 hlast
  obtain ⟨before, hlog⟩ := List.getLast?_eq_some_iff.1 he
  rw [hlog] at hU hcur
  have hreg := hU.of_append.2 "x" 1 hcur
  rw [Registered, of_decide_eq_true hnone] at hreg
  cases hreg.1

/-- Two streams under two ids: the second is undisturbed by the first one's end. -/
theorem streams_undisturbed_iff_two_ids : ∃ c, StreamRuns {} (Streams.ofIds fun n => if n = 0 then "x" else "y").start c ∧
    c.state.2.length = 11 ∧ Admits Undisturbed c.state.2 := by
  obtain ⟨c, hr, hlen, hE⟩ : ∃ c, StreamRuns {} (Streams.ofIds fun n => if n = 0 then "x" else "y").start c ∧
      c.state.2.length = 11 ∧ Admits EndsAsCurrent c.state.2 :=
    exists_streamRuns ((.stream 0, {}) :: (.stream 1, {}) :: oneStream 0) (by decide +kernel)
  exact ⟨c, hr, hlen, (streams_undisturbed_iff {} _ c hr).2 hE⟩

/-! ## The limits -/

def liveStep (l : List (StreamThread × Nat)) (e : StreamEv) : List (StreamThread × Nat) :=
  match connected e, disconnected e with
  | some p, _      => l ++ [(e.thread, p.2)]
  | none,   some r => l.filter (fun p => decide (p ≠ (e.thread, r)))
  | none,   none   => l

/-- **The live streams**: those that have returned from their connect and not yet made their final disconnect. -/
def live (log : List StreamEv) : List (StreamThread × Nat) := log.foldl liveStep []

theorem live_append (log : List StreamEv) (e : StreamEv) : live (log ++ [e]) = liveStep (live log) e := by
  simp [live]

/-- A connect that is established finds its id free. -/
def FreshId (_ : List StreamEv) (e : StreamEv) : Prop :=
  ∀ p ∈ connected e, e.pre.manager.connections.get p.1 = none

instance (before : List StreamEv) (e : StreamEv) : Decidable (FreshId before e) :=
  inferInstanceAs (Decidable (∀ p ∈ connected e, e.pre.manager.connections.get p.1 = none))

/-- What the threads promise: only a live stream makes a final disconnect, of its own connection. -/
structure OwnEnd (limits : Limits) (before : List StreamEv) (e : StreamEv) : Prop where
  step : streamSem limits e.thread e.act e.pre e.res e.post
  own  : ∀ r, disconnected e = some r → (e.thread, r) ∈ live before

abbrev streamTeam (limits : Limits) (t : StreamThread) : Proto StreamAct StreamAct.Res (StreamState × List StreamEv) :=
  team (streamSem limits) FreshId (OwnEnd limits) t

section
variable {limits : Limits} {t : StreamThread}

/-- A live stream stays live whatever the others do. -/
theorem live_stable (r : Nat) : (streamTeam limits t).Stable (fun s => (t, r) ∈ live s.2) :=
  team_stable fun s e s' he hx _ _ h => by
    rw [hx.log, live_append]
    unfold liveStep
    split
    · exact List.mem_append_left _ h
    · refine List.mem_filter.2 ⟨h, decide_eq_true fun hp => he ?_⟩
      exact (congrArg Prod.fst hp).symm
    · exact h

theorem connected_of_quiet {a : StreamAct} (ha : a.Quiet) (res : a.Res) (s s' : StreamState) :
    connected ⟨t, a, res, s, s'⟩ = none ∧ disconnected ⟨t, a, res, s, s'⟩ = none := by
  cases a
  case connect => exact ha.elim
  case disconnect => exact ha.elim
  all_goals exact ⟨rfl, rfl⟩

/-- A quiet action keeps the promise, and the live streams. -/
theorem quiet_step {a : StreamAct} (ha : a.Quiet) {s s' : StreamState × List StreamEv} {res : a.Res}
    (h : (streamTeam limits t).step a s res s') : (streamTeam limits t).guar s s' ∧ live s'.2 = live s.2 := by
  obtain ⟨hc, hd⟩ := connected_of_quiet (t := t) ha res s.1 s'.1
  refine ⟨team_guar h ⟨h.1, fun r hr => ?_⟩, ?_⟩
  · rw [hd] at hr
    cases hr
  · rw [h.2.1, live_append]
    simp only [liveStep, hc, hd]

/-- A program of quiet actions keeps its own stream live. -/
theorem quiet_keeps_live {α : Type} {p : StreamProg α} (hp : p.Only StreamAct.Quiet) (r : Nat) :
    (streamTeam limits t).Keeps (fun s => (t, r) ∈ live s.2) p :=
  Proto.Keeps.only (live_stable r) (fun _ ha _ _ _ hI h => by
    obtain ⟨hg, hlive⟩ := quiet_step ha h
    exact ⟨hg, hlive ▸ hI⟩) hp

theorem quiet_keeps {α : Type} {p : StreamProg α} (hp : p.Only StreamAct.Quiet) :
    (streamTeam limits t).Keeps (fun _ => True) p :=
  Proto.Keeps.only (fun _ _ _ h => h) (fun _ ha _ _ _ _ h => ⟨(quiet_step ha h).1, trivial⟩) hp

/-- **A stream makes its final disconnect while it is live, of its own connection.** -/
theorem sseStream_owns (args : SSEConnectionManager.ConnectArgs) (fuel : Nat) (s : StreamState × List StreamEv) :
    (streamTeam limits t).wp (sseStream args fuel) (fun _ _ => True) s := by
  refine Proto.wp_act (P := fun _ => True) (fun _ _ _ h => h) trivial fun s₁ res s₂ _ hstep => ?_
  have hguar : (streamTeam limits t).guar s₁ s₂ := team_guar hstep ⟨hstep.1, fun r hr => by cases hr⟩
  refine ⟨hguar, ?_⟩
  cases res with
  | error e => trivial
  | ok r =>
    have hlive : (t, r) ∈ live s₂.2 := by
      rw [hstep.2.1, live_append]
      exact List.mem_append_right _ List.mem_cons_self
    -- The body and the callback are quiet, so the stream is still live at its final disconnect.
    refine Proto.wp_try (quiet_keeps_live ((streamBody_inner r fuel).mono fun _ h => h.quiet) r s₂ hlive) fun result s hI => ?_
    refine Proto.wp_seq (quiet_keeps_live (onDisconnect_quiet r) r s hI) (fun _ s hI => ?_) (fun _ _ _ => trivial)
    refine Proto.wp_call (live_stable r) hI fun s₃ _ s₄ hI₃ hstep₃ => ⟨?_, ?_⟩
    · refine team_guar hstep₃ ⟨hstep₃.1, fun r' hr' => ?_⟩
      obtain rfl := Option.some.inj hr'
      exact hI₃
    · exact Proto.Keeps.ofExcept (I := fun _ => True) result s₄ trivial

/-- **The invariant of the limits**: the live streams are registered, each under its own entry, and the registry keeps
within the limits. -/
structure Bounded (limits : Limits) (s : StreamState × List StreamEv) : Prop where
  tied  : ∀ p ∈ live s.2, s.1.manager.connections.get (s.1.manager.conn p.2).connectionId = some p.2
  nodup : ((live s.2).map Prod.snd).Nodup
  total : s.1.manager.connections.entries.length ≤ limits.maxConnections
  perIP : ∀ ip, ip ≠ "" → s.1.manager.ipCount ip ≤ limits.maxConnectionsPerIP

theorem Bounded.calm {s s' : StreamState × List StreamEv} (h : Bounded limits s) (hlive : live s'.2 = live s.2)
    (hcalm : Calm s.1.manager s'.1.manager) : Bounded limits s' := by
  refine ⟨fun p hp => ?_, by rw [hlive]; exact h.nodup, ?_, fun ip hip => ?_⟩
  · rw [hcalm.connections, hcalm.connectionId]
    exact h.tied p (hlive ▸ hp)
  · rw [hcalm.connections]
    exact h.total
  · have hcount : s'.1.manager.ipCount ip = s.1.manager.ipCount ip := by
      simp only [SSEConnectionManager.ipCount, hcalm.connections, hcalm.clientIp]
    rw [hcount]
    exact h.perIP ip hip

/-- A connect under a free id adds one entry, and the limits have room for it. -/
theorem Bounded.connect {s s' : StreamState × List StreamEv} (h : Bounded limits s)
    {args : SSEConnectionManager.ConnectArgs} (hlive : live s'.2 = live s.2 ++ [(t, s.1.manager.made)])
    (hnew : Connected limits args s.1.manager s'.1.manager) (hfree : s.1.manager.connections.get args.cid = none) :
    Bounded limits s' := by
  have hold : ∀ r, r ≠ s.1.manager.made → s'.1.manager.conn r = s.1.manager.conn r := fun r hr => by
    rw [hnew.old r hr, hfree, if_neg (by simp)]
  have hreg : ∀ cid r, s.1.manager.connections.get cid = some r → r ≠ s.1.manager.made ∧ cid ≠ args.cid := by
    intro cid r hr
    refine ⟨Nat.ne_of_lt (s.1.manager.keyed cid r hr).1, fun he => ?_⟩
    rw [he, hfree] at hr
    cases hr
  have hface := replayed_face limits args s.1.manager
  refine ⟨fun p hp => ?_, ?_, ?_, fun ip hip => ?_⟩
  · rw [hlive] at hp
    rcases List.mem_append.1 hp with hp | hp
    · have hget := h.tied p hp
      obtain ⟨hr, hcid⟩ := hreg _ _ hget
      rw [hold p.2 hr, hnew.connections, Py.Dict.get_set_of_ne _ _ hcid]
      exact hget
    · rw [List.mem_singleton.1 hp, hnew.new, hface.2.2, hnew.connections, Py.Dict.get_set_self]
  · rw [hlive, List.map_append, List.nodup_append]
    refine ⟨h.nodup, by simp, fun r hr r' hr' => ?_⟩
    obtain ⟨p, hp, rfl⟩ := List.mem_map.1 hr
    rw [List.mem_singleton.1 hr']
    exact (hreg _ _ (h.tied p hp)).1
  · have hroom := hnew.room
    rw [hnew.connections, Py.Dict.entries_set_new _ hfree, List.length_append]
    exact hroom
  · have hcount : s'.1.manager.ipCount ip = s.1.manager.ipCount ip +
        (if args.clientIp = some ip then 1 else 0) := by
      have hvalues : ∀ r ∈ s.1.manager.connections.values,
          decide ((s'.1.manager.conn r).clientIp = some ip) = decide ((s.1.manager.conn r).clientIp = some ip) := by
        intro r hr
        obtain ⟨cid, hget⟩ := Py.Dict.get_of_mem_values hr
        rw [hold r (hreg cid r hget).1]
      rw [SSEConnectionManager.ipCount, hnew.connections, Py.Dict.values_set_new _ hfree, List.filter_append,
        List.length_append, List.filter_congr hvalues, List.filter_singleton, hnew.new, hface.2.1]
      by_cases hc : args.clientIp = some ip
      · simp [hc, SSEConnectionManager.ipCount]
      · simp [hc, SSEConnectionManager.ipCount]
    rw [hcount]
    by_cases hc : args.clientIp = some ip
    · have htruthy : truthy args.clientIp = some ip := by
        rw [hc, truthy, Option.filter_some, if_pos (decide_eq_true hip)]
      have hroom := hnew.roomIP ip htruthy
      rw [if_pos hc]
      omega
    · rw [if_neg hc]
      exact h.perIP ip hip

/-- A live stream's final disconnect removes its own entry. -/
theorem Bounded.disconnect {s s' : StreamState × List StreamEv} (h : Bounded limits s) {r : Nat}
    (hlive : live s'.2 = (live s.2).filter (fun p => decide (p ≠ (t, r)))) (hown : (t, r) ∈ live s.2)
    (hm : s'.1.manager = s.1.manager.disconnect (s.1.manager.conn r).connectionId) : Bounded limits s' := by
  have hget := h.tied (t, r) hown
  obtain ⟨hnone, -⟩ | ⟨q, hq, hpop, -, -, hconn⟩ := s.1.manager.disconnect_cases (s.1.manager.conn r).connectionId
  · rw [hnone] at hget
    cases hget
  obtain rfl : r = q := Option.some.inj (hget.symm.trans hq)
  rw [← hm] at hpop hconn
  have hface : ∀ r', (s'.1.manager.conn r').connectionId = (s.1.manager.conn r').connectionId ∧
      (s'.1.manager.conn r').clientIp = (s.1.manager.conn r').clientIp := by
    intro r'
    rw [hconn]
    by_cases hr : r' = r
    · rw [if_pos hr, hr]
      exact ⟨rfl, rfl⟩
    · rw [if_neg hr]
      exact ⟨rfl, rfl⟩
  refine ⟨fun p hp => ?_, ?_, ?_, fun ip hip => ?_⟩
  · rw [hlive] at hp
    obtain ⟨hp, hne⟩ := List.mem_filter.1 hp
    have hp' := h.tied p hp
    -- Two live streams hold two connections, so the entry that goes is not this one's.
    have hcid : ¬ (s.1.manager.conn p.2).connectionId = (s.1.manager.conn r).connectionId := by
      intro he
      rw [he, hq, Option.some.injEq] at hp'
      exact of_decide_eq_true hne (List.inj_on_of_nodup_map h.nodup hp hown hp'.symm)
    rw [hpop, (hface p.2).1, Py.Dict.get_pop, if_neg hcid]
    exact hp'
  · rw [hlive]
    exact h.nodup.sublist (List.filter_sublist.map Prod.snd)
  · rw [hpop]
    exact Nat.le_trans (Py.Dict.entries_pop_sublist _ _).length_le h.total
  · refine Nat.le_trans ?_ (h.perIP ip hip)
    simp only [SSEConnectionManager.ipCount, hpop, (hface _).2]
    exact ((Py.Dict.values_pop_sublist _ _).filter _).length_le

theorem Bounded.step {s s' : StreamState × List StreamEv} {e : StreamEv} (hx : Extends s e s') (hK : FreshId s.2 e)
    (hG : OwnEnd limits s.2 e) (h : Bounded limits s) : Bounded limits s' := by
  obtain ⟨t, a, res, pre, post⟩ := e
  obtain ⟨rfl, rfl, hlog⟩ := hx
  have hlive : live s'.2 = liveStep (live s.2) ⟨t, a, res, s.1, s'.1⟩ := by rw [hlog, live_append]
  unfold liveStep at hlive
  rcases streamSem_cases hG.step with ⟨hc, hd, hcalm⟩ | ⟨args, hc, -, hnew⟩ | ⟨r, hc, hd, hm⟩
  · rw [hc, hd] at hlive
    exact h.calm hlive hcalm
  · rw [hc] at hlive
    exact h.connect hlive hnew (hK _ hc)
  · rw [hc, hd] at hlive
    exact h.disconnect hlive (hG.own r hd) hm

end

/-- **The limits bound the live streams as long as no connect replaces an entry**: in every run in which each established
connect finds its id free, there are never more live streams than `maxConnections`, nor more from one address than
`maxConnectionsPerIP`; and a connect that raises changes nothing. -/
theorem live_streams_bounded (limits : Limits) (σ : Streams) (c : StreamConf) (hr : StreamRuns limits σ.start c)
    (hfresh : Admits FreshId c.state.2) :
    (live c.state.2).length ≤ limits.maxConnections ∧
    (∀ ip, ip ≠ "" → ((live c.state.2).filter (fun p => decide ((c.state.1.manager.conn p.2).clientIp = some ip))).length ≤
      limits.maxConnectionsPerIP) ∧
    ∀ m args e m', SSEConnectionManager.connect m limits args = (.error e, m') → m' = m := by
  have hb : Bounded limits c.state := by
    refine team_invariant (Q := fun _ _ _ => True) (fun t => ?_) (fun s e s' hx hK hG h => h.step hx hK hG) ?_
      (hr.restrict hfresh)
    · cases t with
      | stream n => exact sseStream_owns _ _ _
      | events n => exact quiet_keeps ((eventsTask_inner _).mono fun _ h => h.quiet) _ trivial
      | publisher n => exact quiet_keeps ((σ.publishes n).mono fun _ h => h.inner.quiet) _ trivial
    · exact ⟨(fun p hp => by cases hp), List.nodup_nil, Nat.zero_le _, fun _ _ => Nat.zero_le _⟩
  have hvalues : ∀ p ∈ live c.state.2, p.2 ∈ c.state.1.manager.connections.values := fun p hp =>
    Py.Dict.mem_values_of_get (hb.tied p hp)
  refine ⟨?_, fun ip hip => ?_, fun m args e m' hm => ?_⟩
  · calc (live c.state.2).length = ((live c.state.2).map Prod.snd).length := (List.length_map _).symm
      _ ≤ c.state.1.manager.connections.values.length := List.Nodup.length_le_of_subset hb.nodup fun r hr => by
        obtain ⟨p, hp, rfl⟩ := List.mem_map.1 hr
        exact hvalues p hp
      _ = c.state.1.manager.connections.entries.length := List.length_map _
      _ ≤ limits.maxConnections := hb.total
  · refine Nat.le_trans ?_ (hb.perIP ip hip)
    rw [← List.length_map Prod.snd, SSEConnectionManager.ipCount]
    refine List.Nodup.length_le_of_subset (hb.nodup.sublist (List.filter_sublist.map Prod.snd)) fun r hr => ?_
    obtain ⟨p, hp, rfl⟩ := List.mem_map.1 hr
    obtain ⟨hp, hc⟩ := List.mem_filter.1 hp
    exact List.mem_filter.2 ⟨hvalues p hp, hc⟩
  · rcases m.connect_cases limits args with ⟨e', he⟩ | ⟨m₁, hok, -⟩
    · rw [he] at hm
      exact (Prod.mk.inj hm).2.symm
    · rw [hok] at hm
      cases (Prod.mk.inj hm).1

/-- Two streams under two ids are both live, and within the limits. -/
theorem live_streams_bounded_two_ids : ∃ c,
    StreamRuns { maxConnections := 2 } (Streams.ofIds fun n => if n = 0 then "x" else "y").start c ∧
    live c.state.2 = [(.stream 0, 0), (.stream 1, 1)] ∧ (live c.state.2).length ≤ 2 := by
  obtain ⟨c, hr, hlive, hF⟩ : ∃ c,
      StreamRuns { maxConnections := 2 } (Streams.ofIds fun n => if n = 0 then "x" else "y").start c ∧
      live c.state.2 = [(.stream 0, 0), (.stream 1, 1)] ∧ Admits FreshId c.state.2 :=
    exists_streamRuns [(.stream 0, {}), (.stream 1, {})] (by decide +kernel)
  exact ⟨c, hr, hlive, (live_streams_bounded { maxConnections := 2 } _ c hr hF).1⟩

/-- Three streams under one id are all live where two connections are allowed. -/
theorem replaced_streams_uncounted : ∃ c, StreamRuns { maxConnections := 2 } (Streams.ofIds fun _ => "x").start c ∧
    ¬ (live c.state.2).length ≤ 2 :=
  exists_streamRuns [(.stream 0, {}), (.stream 1, {}), (.stream 2, {})] (by decide +kernel)

end Sse
end Pypepper
