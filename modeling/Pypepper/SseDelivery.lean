import Pypepper.SseLedger
/-!
# SseDelivery — from the queue to the client

A stream takes its connection's events one at a time, writes each as text and hands the text over; between them it sends
heartbeats.  What the client reads is the accepted events from the first one on, in order and each at most once, and with
no gap unless a timeout was raised between taking an event and handing it over.  The heartbeats dispatch nothing
(`client_receives`).
-/
namespace Pypepper
namespace Sse

open Conc (Prog Proto Sem Conf Ev Admits Extends team team_guar team_stable team_compat team_invariant)
open EventStream (messages)

/-- `SSEEvent.ping`. -/
def ping : SSEEvent := { comment := some "heartbeat" }

/-! ## What a stream has sent -/

/-- The texts that the client of stream `n` was sent. -/
def sentText (n : Nat) (e : StreamEv) : List String :=
  match e with
  | ⟨.stream k, .yield text, .ok (), _, _⟩ => if k = n then [text] else []
  | ⟨.stream k, .heartbeat, .ok (), _, _⟩  => if k = n then [serializeSseEvent ping] else []
  | _                                      => []

def sent (n : Nat) (log : List StreamEv) : List String := log.flatMap (sentText n)

/-- The connection a stream has. -/
def own (n : Nat) (log : List StreamEv) : Option Nat :=
  log.findSome? fun e => if e.thread = .stream n then (connected e).map Prod.snd else none

/-- The event a stream has taken and not handed over, and what it has handed over; `none` is a heartbeat. -/
structure Line where
  hand  : Option SSEEvent := none
  shown : List (Option SSEEvent) := []

def Line.note (n : Nat) (l : Line) (e : StreamEv) : Line :=
  match e with
  | ⟨.stream k, .getEvent _, .ok ev, _, _⟩ => if k = n then { l with hand := some ev } else l
  | ⟨.stream k, .yield _, .ok (), _, _⟩    => if k = n then ⟨none, l.shown ++ [l.hand]⟩ else l
  | ⟨.stream k, .heartbeat, .ok (), _, _⟩  => if k = n then { l with shown := l.shown ++ [none] } else l
  | _                                      => l

def line (n : Nat) (log : List StreamEv) : Line := log.foldl (Line.note n) {}

/-- A timeout raised while a stream had an event in hand: the loop goes on without it. -/
def interrupts (n : Nat) (e : StreamEv) : Bool :=
  match e with
  | ⟨.stream k, .toText _, .error x, _, _⟩ => decide (k = n ∧ x = .timeout)
  | ⟨.stream k, .yield _, .error x, _, _⟩  => decide (k = n ∧ x = .timeout)
  | _                                      => false

def Interrupted (n : Nat) (log : List StreamEv) : Prop := ∃ e ∈ log, interrupts n e = true

instance (n : Nat) (log : List StreamEv) : Decidable (Interrupted n log) :=
  inferInstanceAs (Decidable (∃ e ∈ log, _ = true))

/-! ## The law of the streams

A stream connects once, takes from its own connection, when its hands are free, and hands over what it took last.  Nobody
else does any of it. -/

def StreamLaw (before : List StreamEv) (e : StreamEv) : Prop :=
  match e with
  | ⟨t, .connect _, _, _, _⟩  => ∃ n, t = .stream n ∧ own n before = none
  | ⟨t, .getEvent r, _, _, _⟩ => ∃ n, t = .stream n ∧ own n before = some r ∧
      ((line n before).hand = none ∨ Interrupted n before)
  | ⟨t, .yield text, _, _, _⟩ => ∃ n, t = .stream n ∧ ∃ ev, (line n before).hand = some ev ∧ text = serializeSseEvent ev
  | _                         => True

/-- The actions that the law leaves free. -/
def StreamAct.Free : StreamAct → Prop
  | .connect _ | .getEvent _ | .yield _ => False
  | _                                   => True

/-- Every thread performs the system's actions and keeps the law. -/
abbrev lawTeam (limits : Limits) (t : StreamThread) : Proto StreamAct StreamAct.Res (StreamState × List StreamEv) :=
  team (streamSem limits) (fun _ _ => True)
    (fun before e => streamSem limits e.thread e.act e.pre e.res e.post ∧ StreamLaw before e) t

section
variable {limits : Limits} {n r : Nat} {log : List StreamEv} {t : StreamThread}

theorem own_append (n : Nat) (log : List StreamEv) (e : StreamEv) : own n (log ++ [e]) =
    (own n log).or (if e.thread = .stream n then (connected e).map Prod.snd else none) := by
  simp only [own, List.findSome?_append]
  congr 1
  simp

theorem line_append (n : Nat) (log : List StreamEv) (e : StreamEv) : line n (log ++ [e]) = (line n log).note n e := by
  simp [line]

theorem interrupted_append {log : List StreamEv} {e : StreamEv} :
    Interrupted n (log ++ [e]) ↔ Interrupted n log ∨ interrupts n e = true := by
  simp [Interrupted, List.mem_append, or_and_right, exists_or]

theorem line_note_of_ne {e : StreamEv} (l : Line) (h : e.thread ≠ .stream n) : l.note n e = l := by
  obtain ⟨t, a, res, s, s'⟩ := e
  cases t with
  | stream k =>
    have hk : k ≠ n := fun hk => h (by rw [hk])
    unfold Line.note
    split
    · rename_i heq
      cases heq
      exact if_neg hk
    · rename_i heq
      cases heq
      exact if_neg hk
    · rename_i heq
      cases heq
      exact if_neg hk
    · rfl
  | _ => rfl

theorem StreamLaw.of_free {a : StreamAct} (ha : a.Free) (before : List StreamEv) (res : a.Res) (s s' : StreamState) :
    StreamLaw before ⟨t, a, res, s, s'⟩ := by
  cases a <;> first | exact ha.elim | trivial

theorem lawTeam_guar {a : StreamAct} {s s' : StreamState × List StreamEv} {res : a.Res}
    (h : (lawTeam limits t).step a s res s') (hl : StreamLaw s.2 ⟨t, a, res, s.1, s'.1⟩) :
    (lawTeam limits t).guar s s' := team_guar h ⟨h.1, hl⟩

/-- Free actions keep the law, whatever is known of the state. -/
theorem free_keeps {α : Type} {p : StreamProg α} (hp : p.Only StreamAct.Free) :
    (lawTeam limits t).Keeps (fun _ => True) p :=
  Proto.Keeps.only (fun _ _ _ h => h) (fun _ ha _ _ _ _ h => ⟨lawTeam_guar h (.of_free ha _ _ _ _), trivial⟩) hp

/-! ## The programs keep the law -/

/-- The stream is at its loop: it has its connection, and its hands are free. -/
structure Serving (n r : Nat) (s : StreamState × List StreamEv) : Prop where
  own  : own n s.2 = some r
  free : (line n s.2).hand = none ∨ Interrupted n s.2

/-- The stream has an event in hand. -/
structure Holding (n r : Nat) (ev : SSEEvent) (s : StreamState × List StreamEv) : Prop where
  own  : own n s.2 = some r
  hand : (line n s.2).hand = some ev

/-- The stream has done nothing yet. -/
structure Unborn (n : Nat) (s : StreamState × List StreamEv) : Prop where
  own  : own n s.2 = none
  hand : (line n s.2).hand = none

theorem own_of_ne {e : StreamEv} (h : e.thread ≠ .stream n) : own n (log ++ [e]) = own n log := by
  rw [own_append, if_neg h]
  exact Option.or_none

theorem line_of_ne {e : StreamEv} (h : e.thread ≠ .stream n) : line n (log ++ [e]) = line n log := by
  rw [line_append, line_note_of_ne _ h]

theorem serving_stable : (lawTeam limits (.stream n)).Stable (Serving n r) :=
  team_stable fun s e s' he hx _ _ h => by
    refine ⟨?_, ?_⟩
    · rw [hx.log, own_of_ne he]
      exact h.own
    · rw [hx.log, line_of_ne he]
      exact h.free.imp_right fun hi => interrupted_append.2 (.inl hi)

theorem holding_stable {ev : SSEEvent} : (lawTeam limits (.stream n)).Stable (Holding n r ev) :=
  team_stable fun s e s' he hx _ _ h => by
    refine ⟨?_, ?_⟩
    · rw [hx.log, own_of_ne he]
      exact h.own
    · rw [hx.log, line_of_ne he]
      exact h.hand

theorem unborn_stable : (lawTeam limits (.stream n)).Stable (Unborn n) :=
  team_stable fun s e s' he hx _ _ h => by
    refine ⟨?_, ?_⟩
    · rw [hx.log, own_of_ne he]
      exact h.own
    · rw [hx.log, line_of_ne he]
      exact h.hand

section
variable {a : StreamAct} {s s' : StreamState × List StreamEv} {res : a.Res}

/-- A connection is made by a connect alone. -/
theorem own_of_not_connect (ha : ∀ args, a ≠ .connect args) (h : s'.2 = s.2 ++ [⟨t, a, res, s.1, s'.1⟩]) :
    own n s'.2 = own n s.2 := by
  have hc : connected ⟨t, a, res, s.1, s'.1⟩ = none := by
    cases a <;> first | rfl | exact absurd rfl (ha _)
  rw [h, own_append, hc]
  simp

/-- A free action leaves what is in hand. -/
theorem hand_of_free (ha : a.Free) (h : s'.2 = s.2 ++ [⟨t, a, res, s.1, s'.1⟩]) :
    (line n s'.2).hand = (line n s.2).hand := by
  rw [h, line_append]
  unfold Line.note
  split
  · rename_i heq
    cases heq
    exact ha.elim
  · rename_i heq
    cases heq
    exact ha.elim
  · split <;> rfl
  · rfl

theorem StreamAct.Free.no_connect (ha : a.Free) (args : SSEConnectionManager.ConnectArgs) : a ≠ .connect args := by
  rintro rfl
  exact ha

theorem Serving.free_step (ha : a.Free) (hst : (lawTeam limits t).step a s res s') (h : Serving n r s) :
    Serving n r s' := by
  refine ⟨?_, ?_⟩
  · rw [own_of_not_connect ha.no_connect hst.2.1]
    exact h.own
  · rw [hand_of_free ha hst.2.1, hst.2.1]
    exact h.free.imp_right fun hi => interrupted_append.2 (.inl hi)

theorem Holding.free_step {ev : SSEEvent} (ha : a.Free) (hst : (lawTeam limits t).step a s res s')
    (h : Holding n r ev s) : Holding n r ev s' := by
  refine ⟨?_, ?_⟩
  · rw [own_of_not_connect ha.no_connect hst.2.1]
    exact h.own
  · rw [hand_of_free ha hst.2.1]
    exact h.hand

end

/-- What the stream writes is the event's text. -/
theorem toText_ok {ev : SSEEvent} {text : String} {s s' : StreamState}
    (h : streamSem limits t (.toText ev) s (.ok text) s') : text = serializeSseEvent ev := by
  obtain ⟨c, -, hx⟩ := h
  have hanswer : c.answer (serializeSseEvent ev) = .ok text := congrArg Prod.fst (Option.some.inj hx)
  unfold StreamChoice.answer at hanswer
  split at hanswer
  · exact (Except.ok.inj hanswer).symm
  · cases hanswer

/-- **One event**: after it the stream's hands are free, unless an exception ends the loop. -/
theorem sendNext_serves {s : StreamState × List StreamEv} (h : Serving n r s) : (lawTeam limits (.stream n)).wp (sendNext r)
    (fun res s => res = .ok () ∨ res = .error .timeout → Serving n r s) s := by
  refine Proto.wp_act serving_stable h fun s₁ res s₂ h₁ hst => ?_
  refine ⟨lawTeam_guar hst ⟨n, rfl, h₁.own, h₁.free⟩, ?_⟩
  have hown₂ : own n s₂.2 = some r := (own_of_not_connect (fun _ h => by cases h) hst.2.1).trans h₁.own
  cases res with
  | error x =>
    rintro (hx | -)
    · cases hx
    · refine ⟨hown₂, ?_⟩
      rw [hst.2.1, line_append]
      exact h₁.free.imp_right fun hi => interrupted_append.2 (.inl hi)
  | ok ev =>
    have hhand₂ : (line n s₂.2).hand = some ev := by
      rw [hst.2.1, line_append]
      exact congrArg Line.hand (if_pos rfl)
    refine Proto.wp_act holding_stable ⟨hown₂, hhand₂⟩ fun s₃ res s₄ h₃ hst => ⟨lawTeam_guar hst trivial, ?_⟩
    have h₄ : Holding n r ev s₄ := h₃.free_step (a := .toText ev) trivial hst
    cases res with
    | error x =>
      rintro (hx | hx)
      · cases hx
      · obtain rfl := Except.error.inj hx
        refine ⟨h₄.own, .inr ?_⟩
        rw [hst.2.1]
        exact interrupted_append.2 (.inr (decide_eq_true ⟨rfl, rfl⟩))
    | ok text =>
      have htext := toText_ok hst.1
      refine Proto.wp_act holding_stable h₄ fun s₅ res s₆ h₅ hst => ?_
      refine ⟨lawTeam_guar hst ⟨n, rfl, ev, h₅.hand, htext⟩, ?_⟩
      have hown₆ : own n s₆.2 = some r := (own_of_not_connect (fun _ h => by cases h) hst.2.1).trans h₅.own
      cases res with
      | error x =>
        rintro (hx | hx)
        · cases hx
        · obtain rfl := Except.error.inj hx
          refine ⟨hown₆, .inr ?_⟩
          rw [hst.2.1]
          exact interrupted_append.2 (.inr (decide_eq_true ⟨rfl, rfl⟩))
      | ok _ =>
        refine fun _ => ⟨hown₆, .inl ?_⟩
        rw [hst.2.1, line_append]
        exact congrArg Line.hand (if_pos rfl)

theorem streamLoop_serves : ∀ (fuel : Nat) {s : StreamState × List StreamEv}, Serving n r s →
    (lawTeam limits (.stream n)).wp (streamLoop r fuel) (fun _ _ => True) s
  | 0, _, _ =>
    Proto.wp_act (P := fun _ => True) (fun _ _ _ h => h) trivial fun _ _ _ _ hst => ⟨lawTeam_guar hst trivial, trivial⟩
  | fuel + 1, _, h => by
    refine Proto.wp_act serving_stable h fun s₁ res s₂ h₁ hst => ⟨lawTeam_guar hst trivial, ?_⟩
    have h₂ : Serving n r s₂ := h₁.free_step (a := .isDisconnected) trivial hst
    cases res with
    | error e => trivial
    | ok gone =>
      cases gone with
      | true => trivial
      | false =>
        refine Proto.wp_try (sendNext_serves h₂) fun result s hM => ?_
        match result, hM with
        | .ok (), hM => exact streamLoop_serves fuel (hM (.inl rfl))
        | .error .timeout, hM =>
          refine Proto.wp_act serving_stable (hM (.inr rfl)) fun s₃ res s₄ h₃ hst => ⟨lawTeam_guar hst trivial, ?_⟩
          cases res with
          | error e => trivial
          | ok _ => exact streamLoop_serves fuel (h₃.free_step (a := .heartbeat) trivial hst)
        | .error (.internal _), _ => trivial
        | .error (.exception _), _ => trivial
        | .error .cancelled, _ => trivial
        | .error .generatorExit, _ => trivial

theorem await_free {α : Type} {p : StreamProg (Except StreamExn α)} (h : p.Only StreamAct.Free) :
    (await p).Only StreamAct.Free := h.bind fun _ => .ofExcept _

theorem streamBody_serves (fuel : Nat) {s : StreamState × List StreamEv} (h : Serving n r s) :
    (lawTeam limits (.stream n)).wp (streamBody r fuel) (fun _ _ => True) s := by
  refine Proto.wp_act serving_stable h fun s₁ res s₂ h₁ hst => ⟨lawTeam_guar hst trivial, ?_⟩
  have h₂ : Serving n r s₂ := h₁.free_step (a := .onConnect r) trivial hst
  cases res with
  | error e => trivial
  | ok _ =>
    refine Proto.wp_call serving_stable h₂ fun s₃ _ s₄ h₃ hst => ⟨lawTeam_guar hst trivial, ?_⟩
    have h₄ : Serving n r s₄ := h₃.free_step (a := .createTask r) trivial hst
    refine Proto.wp_seq (streamLoop_serves fuel h₄) (fun _ s _ => ?_) (fun _ _ _ => trivial)
    refine free_keeps ((Prog.Only.call trivial).bind fun _ => ?_) s trivial
    refine (await_free (.call trivial)).attempt.bind fun result => ?_
    match result with
    | .ok () => exact .ret ()
    | .error .cancelled => exact .ret ()
    | .error (.internal _) => exact .raise _
    | .error .timeout => exact .raise _
    | .error (.exception _) => exact .raise _
    | .error .generatorExit => exact .raise _

theorem sseStream_serves (args : SSEConnectionManager.ConnectArgs) (fuel : Nat) {s : StreamState × List StreamEv}
    (h : Unborn n s) : (lawTeam limits (.stream n)).wp (sseStream args fuel) (fun _ _ => True) s := by
  refine Proto.wp_act unborn_stable h fun s₁ res s₂ h₁ hst => ⟨lawTeam_guar hst ⟨n, rfl, h₁.own⟩, ?_⟩
  cases res with
  | error e => trivial
  | ok r =>
    have h₂ : Serving n r s₂ := by
      refine ⟨?_, .inl ?_⟩
      · rw [hst.2.1, own_append, h₁.own]
        exact if_pos rfl
      · rw [hst.2.1, line_append]
        exact h₁.hand
    refine Proto.wp_try (streamBody_serves fuel h₂) fun result s _ => ?_
    refine free_keeps ((await_free (.call trivial)).bind fun _ => (Prog.Only.call trivial).bind fun _ => ?_) s trivial
    exact .ofExcept result

theorem consumeLoop_free (r : Nat) : ∀ fuel, (consumeLoop r fuel).Only StreamAct.Free
  | 0 => .call trivial
  | fuel + 1 => by
    refine (await_free (.call trivial)).bind fun next => ?_
    cases next with
    | none => exact .ret ()
    | some ev => exact (Prog.Only.call trivial).bind fun _ => consumeLoop_free r fuel

theorem eventsTask_free (fuel : Nat) : (eventsTask fuel).Only StreamAct.Free := by
  refine (Prog.Only.attempt ?_).bind fun _ => .call trivial
  refine (await_free (.call trivial)).bind fun r => ?_
  refine (consumeLoop_free r fuel).tryExcept fun e => ?_
  cases e with
  | generatorExit => exact .raise _
  | _ => exact .ret ()

theorem StreamAct.Publishes.free {a : StreamAct} (h : a.Publishes) : a.Free := by
  cases a <;> trivial

/-- **Every thread keeps the law.** -/
theorem threads_lawful (limits : Limits) (σ : Streams) (t : StreamThread) :
    (lawTeam limits t).wp (σ.start.prog t) (fun _ _ => True) σ.start.state := by
  cases t with
  | stream n => exact sseStream_serves (σ.args n) (σ.fuel n) ⟨rfl, rfl⟩
  | events n => exact free_keeps (eventsTask_free (σ.fuel n)) _ trivial
  | publisher n => exact free_keeps ((σ.publishes n).mono fun _ h => h.free) _ trivial

/-! ## What the law keeps -/

/-- The text of what was handed over. -/
def chunk (o : Option SSEEvent) : String := serializeSseEvent (o.getD ping)

/-- **The texts are those of the events handed over.** -/
theorem texts_step {e : StreamEv} (hl : StreamLaw log e) (h : sent n log = (line n log).shown.map chunk) :
    sent n (log ++ [e]) = (line n (log ++ [e])).shown.map chunk := by
  have hsent : sent n (log ++ [e]) = sent n log ++ sentText n e := by simp [sent]
  rw [hsent, line_append, h]
  obtain ⟨t, a, res, pre, post⟩ := e
  by_cases ht : t = .stream n
  · subst ht
    cases a
    case getEvent r => cases res <;> simp [sentText, Line.note]
    case heartbeat => cases res <;> simp [sentText, Line.note, chunk]
    case yield text =>
      cases res with
      | error x => simp [sentText, Line.note]
      | ok u =>
        obtain ⟨k, hk, ev, hev, rfl⟩ := hl
        cases hk
        simp [sentText, Line.note, chunk, hev]
    all_goals simp [sentText, Line.note]
  · have hline := line_note_of_ne (n := n) (line n log) (e := ⟨t, a, res, pre, post⟩) ht
    have hno : sentText n ⟨t, a, res, pre, post⟩ = [] := by
      cases t with
      | stream k =>
        have hk : k ≠ n := fun hk => ht (by rw [hk])
        cases a <;> first | rfl | (cases res <;> simp [sentText, hk])
      | _ => rfl
    rw [hline, hno, List.append_nil]

/-- The events a stream has taken, in the order it took them, as far as it knows of them. -/
def Line.events (l : Line) : List SSEEvent := l.shown.filterMap id ++ l.hand.toList

/-- A stream without a connection has taken nothing; one with a connection is its only stream, and took from it what the
ledger says, in order, and without interruption all of it. -/
structure Accounts (s : StreamState × List StreamEv) : Prop where
  made  : ∀ n r, own n s.2 = some r → r < s.1.manager.made
  one   : ∀ n k r, own n s.2 = some r → own k s.2 = some r → n = k
  blank : ∀ n, own n s.2 = none → (line n s.2).events = []
  order : ∀ n r, own n s.2 = some r → (line n s.2).events.Sublist (ledger r s.2).taken
  whole : ∀ n r, own n s.2 = some r → ¬ Interrupted n s.2 → (line n s.2).events = (ledger r s.2).taken

section
variable {s s' : StreamState × List StreamEv} {e : StreamEv}

/-- An event that makes no connection and takes nothing. -/
theorem Accounts.same (h : Accounts s) (hlog : s'.2 = s.2 ++ [e]) (hmade : s.1.manager.made ≤ s'.1.manager.made)
    (hown : connected e = none) (hline : ∀ n, ((line n s.2).note n e).events = (line n s.2).events)
    (htaken : ∀ r, ((ledger r s.2).note r e).taken = (ledger r s.2).taken) : Accounts s' := by
  have ho : ∀ n, own n s'.2 = own n s.2 := fun n => by
    rw [hlog, own_append, hown]
    simp
  have hl : ∀ n, (line n s'.2).events = (line n s.2).events := fun n => by rw [hlog, line_append, hline]
  have ht : ∀ r, (ledger r s'.2).taken = (ledger r s.2).taken := fun r => by rw [hlog, ledger_append, htaken]
  refine ⟨fun n r hn => ?_, fun n k r hn hk => ?_, fun n hn => ?_, fun n r hn => ?_, fun n r hn hi => ?_⟩
  · exact Nat.lt_of_lt_of_le (h.made n r ((ho n).symm.trans hn)) hmade
  · exact h.one n k r ((ho n).symm.trans hn) ((ho k).symm.trans hk)
  · rw [hl]
    exact h.blank n ((ho n).symm.trans hn)
  · rw [hl, ht]
    exact h.order n r ((ho n).symm.trans hn)
  · rw [hl, ht]
    refine h.whole n r ((ho n).symm.trans hn) fun hin => hi ?_
    rw [hlog]
    exact interrupted_append.2 (.inl hin)

/-- **A stream takes an event of its own connection**, with its hands free or after an interruption. -/
theorem Accounts.take {n r : Nat} {ev : SSEEvent} {pre post : StreamState} (h : Accounts s)
    (hlog : s'.2 = s.2 ++ [⟨.stream n, .getEvent r, .ok ev, pre, post⟩]) (hmade : s'.1.manager.made = s.1.manager.made)
    (hr : own n s.2 = some r) (hfree : (line n s.2).hand = none ∨ Interrupted n s.2) : Accounts s' := by
  have ho : ∀ k, own k s'.2 = own k s.2 := fun k => by
    rw [hlog, own_append]
    simp [connected]
  have hline : line n s'.2 = { line n s.2 with hand := some ev } := by
    rw [hlog, line_append]
    exact if_pos rfl
  have hother : ∀ k, k ≠ n → line k s'.2 = line k s.2 := fun k hk => by
    rw [hlog, line_of_ne]
    exact fun ht => hk (StreamThread.stream.inj ht).symm
  have htaken : (ledger r s'.2).taken = (ledger r s.2).taken ++ [ev] := by
    rw [hlog, ledger_append]
    exact congrArg Ledger.taken (if_pos rfl)
  have htakenOther : ∀ q, q ≠ r → (ledger q s'.2).taken = (ledger q s.2).taken := fun q hq => by
    rw [hlog, ledger_append]
    exact congrArg Ledger.taken (if_neg (Ne.symm hq))
  have hin : ∀ k, ¬ Interrupted k s'.2 → ¬ Interrupted k s.2 := fun k hk hi => hk (by
    rw [hlog]
    exact interrupted_append.2 (.inl hi))
  have hshown : (line n s.2).shown.filterMap id |>.Sublist (ledger r s.2).taken :=
    (List.sublist_append_left _ _).trans (h.order n r hr)
  refine ⟨fun k q hk => ?_, fun k j q hk hj => ?_, fun k hk => ?_, fun k q hk => ?_, fun k q hk hi => ?_⟩
  · rw [hmade]
    exact h.made k q ((ho k).symm.trans hk)
  · exact h.one k j q ((ho k).symm.trans hk) ((ho j).symm.trans hj)
  · have hk' := (ho k).symm.trans hk
    have hne : k ≠ n := by
      rintro rfl
      rw [hr] at hk'
      cases hk'
    rw [hother k hne]
    exact h.blank k hk'
  · have hk' := (ho k).symm.trans hk
    by_cases hne : k = n
    · subst hne
      obtain rfl := Option.some.inj (hr.symm.trans hk')
      rw [hline, htaken]
      exact hshown.append (.refl _)
    · have hq : q ≠ r := fun hq => hne (h.one k n r (hq ▸ hk') hr)
      rw [hother k hne, htakenOther q hq]
      exact h.order k q hk'
  · have hk' := (ho k).symm.trans hk
    by_cases hne : k = n
    · subst hne
      obtain rfl := Option.some.inj (hr.symm.trans hk')
      have hfree : (line k s.2).hand = none := hfree.resolve_right (hin k hi)
      have hall := h.whole k r hr (hin k hi)
      rw [Line.events, hfree, Option.toList_none, List.append_nil] at hall
      rw [hline, htaken, ← hall]
      rfl
    · have hq : q ≠ r := fun hq => hne (h.one k n r (hq ▸ hk') hr)
      rw [hother k hne, htakenOther q hq]
      exact h.whole k q hk' (hin k hi)

/-- **A stream connects**: its connection is new, and its ledger starts. -/
theorem Accounts.connect {n : Nat} {args : SSEConnectionManager.ConnectArgs} {pre post : StreamState} (h : Accounts s)
    (hlog : s'.2 = s.2 ++ [⟨.stream n, .connect args, .ok s.1.manager.made, pre, post⟩])
    (hmade : s'.1.manager.made = s.1.manager.made + 1) (hn : own n s.2 = none) : Accounts s' := by
  have hself : own n s'.2 = some s.1.manager.made := by
    rw [hlog, own_append, hn]
    exact if_pos rfl
  have hother : ∀ k, k ≠ n → own k s'.2 = own k s.2 := fun k hk => by
    rw [hlog, own_of_ne]
    exact fun ht => hk (StreamThread.stream.inj ht).symm
  have hline : ∀ k, line k s'.2 = line k s.2 := fun k => by
    rw [hlog, line_append]
    rfl
  have hnew : (ledger s.1.manager.made s'.2).taken = [] := by
    rw [hlog, ledger_append]
    exact congrArg Ledger.taken (if_pos rfl)
  have hold : ∀ q, q ≠ s.1.manager.made → (ledger q s'.2).taken = (ledger q s.2).taken := fun q hq => by
    rw [hlog, ledger_append]
    exact congrArg Ledger.taken (if_neg (Ne.symm hq))
  have hlt : ∀ k q, k ≠ n → own k s'.2 = some q → own k s.2 = some q ∧ q < s.1.manager.made := fun k q hk hq => by
    rw [hother k hk] at hq
    exact ⟨hq, h.made k q hq⟩
  refine ⟨fun k q hk => ?_, fun k j q hk hj => ?_, fun k hk => ?_, fun k q hk => ?_, fun k q hk hi => ?_⟩
  · rw [hmade]
    by_cases hkn : k = n
    · subst hkn
      obtain rfl := Option.some.inj (hself.symm.trans hk)
      exact Nat.lt_succ_self _
    · exact Nat.lt_succ_of_lt (hlt k q hkn hk).2
  · by_cases hkn : k = n
    · by_cases hjn : j = n
      · rw [hkn, hjn]
      · subst hkn
        obtain rfl := Option.some.inj (hself.symm.trans hk)
        exact absurd (hlt j _ hjn hj).2 (Nat.lt_irrefl _)
    · by_cases hjn : j = n
      · subst hjn
        obtain rfl := Option.some.inj (hself.symm.trans hj)
        exact absurd (hlt k _ hkn hk).2 (Nat.lt_irrefl _)
      · exact h.one k j q (hlt k q hkn hk).1 (hlt j q hjn hj).1
  · rw [hline]
    refine h.blank k ?_
    by_cases hkn : k = n
    · rw [hkn]
      exact hn
    · rw [← hother k hkn]
      exact hk
  · by_cases hkn : k = n
    · subst hkn
      rw [hline, h.blank k hn]
      exact List.nil_sublist _
    · obtain ⟨hk', hq⟩ := hlt k q hkn hk
      rw [hline, hold q (Nat.ne_of_lt hq)]
      exact h.order k q hk'
  · by_cases hkn : k = n
    · subst hkn
      obtain rfl := Option.some.inj (hself.symm.trans hk)
      rw [hline, h.blank k hn, hnew]
    · obtain ⟨hk', hq⟩ := hlt k q hkn hk
      rw [hline, hold q (Nat.ne_of_lt hq)]
      refine h.whole k q hk' fun hin => hi ?_
      rw [hlog]
      exact interrupted_append.2 (.inl hin)

/-- The manager never forgets a connection it made. -/
theorem made_step {t : StreamThread} {a : StreamAct} {s s' : StreamState} {res : a.Res}
    (h : streamSem limits t a s res s') : s.manager.made ≤ s'.manager.made := by
  rcases streamSem_cases h with ⟨-, -, hcalm⟩ | ⟨args, -, -, hnew⟩ | ⟨q, -, -, hm⟩
  · exact Nat.le_of_eq hcalm.made.symm
  · rw [hnew.made]
    exact Nat.le_succ _
  · rw [hm]
    obtain ⟨-, hsame⟩ | ⟨q', -, -, hmade, -⟩ := s.manager.disconnect_cases (s.manager.conn q).connectionId
    · exact Nat.le_of_eq (congrArg SSEConnectionManager.made hsame).symm
    · exact Nat.le_of_eq hmade.symm

/-- **One event of the system**, under the law. -/
theorem Accounts.step (h : Accounts s) (hx : Extends s e s')
    (hsem : streamSem limits e.thread e.act e.pre e.res e.post) (hl : StreamLaw s.2 e) : Accounts s' := by
  obtain ⟨t, a, res, pre, post⟩ := e
  obtain ⟨rfl, rfl, hlog⟩ := hx
  have hmade := made_step hsem
  cases a
  case connect args =>
    obtain ⟨n, rfl, hn⟩ := hl
    rcases s.1.manager.connect_cases limits args with ⟨x, hx⟩ | ⟨m', hm, hc⟩
    · obtain ⟨c, -, hexec⟩ := hsem
      simp only [streamExec, hx] at hexec
      have hres : (.error x : Except StreamExn Nat) = res := congrArg Prod.fst (Option.some.inj hexec)
      subst hres
      exact h.same hlog hmade rfl (fun _ => rfl) (fun _ => rfl)
    · obtain ⟨c, -, hexec⟩ := hsem
      simp only [streamExec, hm] at hexec
      have hres : (.ok s.1.manager.made : Except StreamExn Nat) = res := congrArg Prod.fst (Option.some.inj hexec)
      have hpost : m' = s'.1.manager := congrArg (fun p => p.2.manager) (Option.some.inj hexec)
      subst hres
      exact h.connect hlog (hpost ▸ hc.made) hn
  case getEvent r =>
    obtain ⟨n, rfl, hn, hfree⟩ := hl
    cases res with
    | error x => exact h.same hlog hmade rfl (fun _ => rfl) (fun _ => rfl)
    | ok ev =>
      refine h.take hlog (Nat.le_antisymm ?_ hmade) hn hfree
      obtain ⟨c, -, hexec⟩ := hsem
      exact Nat.le_of_eq (streamExec_calm (a := .getEvent r) trivial hexec).made
  case yield text =>
    obtain ⟨n, rfl, ev, hev, -⟩ := hl
    cases res with
    | error x => exact h.same hlog hmade rfl (fun _ => rfl) (fun _ => rfl)
    | ok u =>
      refine h.same hlog hmade rfl (fun k => ?_) (fun _ => rfl)
      by_cases hk : n = k
      · subst hk
        simp [Line.note, Line.events, hev]
      · simp [Line.note, hk]
  case heartbeat =>
    refine h.same hlog hmade rfl (fun k => ?_) (fun _ => rfl)
    cases t <;> cases res <;> simp only [Line.note]
    split
    · simp [Line.events]
    · rfl
  case send q ev record =>
    refine h.same hlog hmade rfl (fun k => by cases t <;> rfl) (fun q => ?_)
    cases res <;> (simp only [Ledger.note]; split <;> rfl)
  all_goals exact h.same hlog hmade rfl (fun k => by cases t <;> rfl) (fun _ => rfl)

end
end

/-- A heartbeat is no message. -/
theorem expected_heartbeats : ∀ (shown : List (Option SSEEvent)) (last : String),
    expected last (shown.map (·.getD ping)) = expected last (shown.filterMap id)
  | [], _ => rfl
  | none :: shown, last => expected_heartbeats shown last
  | some ev :: shown, last => by
    simp only [List.map_cons, Option.getD_some, List.filterMap_cons, id_eq]
    unfold expected
    split
    · exact expected_heartbeats shown _
    · dsimp only
      rw [expected_heartbeats shown _]
      rfl

theorem ping_framed : Framed ping := ⟨by decide, by decide, by decide, by decide⟩

/-- **What a client receives**, in any run of any streams, tasks and publishers: it is sent the texts of events and of
heartbeats (`shown`); the events are of those its connection's queue accepted, in order, some, each once; without a timeout
raised while an event was in hand, those from the first one on with no gap.  When they are JSON events that break no line,
the messages it dispatches are theirs, whatever heartbeats were sent between. -/
theorem client_receives (limits : Limits) (σ : Streams) (c : StreamConf) (hr : StreamRuns limits σ.start c) (n r : Nat)
    (hown : own n c.state.2 = some r) :
    ∃ (shown : List (Option SSEEvent)) (delivered : List SSEEvent),
      sent n c.state.2 = shown.map chunk ∧ shown.filterMap id = delivered ∧
      delivered.Sublist (ledger r c.state.2).accepted ∧
      (¬ Interrupted n c.state.2 → delivered <+: (ledger r c.state.2).accepted) ∧
      ((∀ ev ∈ (ledger r c.state.2).accepted, ev.rawData = none ∧ ev.data.Wf ∧ Framed ev) →
        (messages (String.join (sent n c.state.2)).toList).map
          (fun m => (m.event, m.lastEventId, Py.Json.loads m.data)) = expected "" delivered) := by
  have hacc : Accounts c.state ∧ sent n c.state.2 = (line n c.state.2).shown.map chunk := by
    refine team_invariant (threads_lawful limits σ)
      (P := fun s => Accounts s ∧ sent n s.2 = (line n s.2).shown.map chunk) ?_ ⟨?_, rfl⟩ hr
    · intro s e s' hx _ ⟨hsem, hl⟩ ⟨hacc, htext⟩
      refine ⟨hacc.step hx hsem hl, ?_⟩
      rw [hx.log]
      exact texts_step hl htext
    · exact ⟨fun _ _ h => (by cases h), fun _ _ _ h => (by cases h), fun _ _ => rfl, fun _ _ h => (by cases h),
        fun _ _ h => (by cases h)⟩
  obtain ⟨hacc, htexts⟩ := hacc
  have hq := (runs_balanced hr r).queue
  have htaken : (ledger r c.state.2).taken <+: (ledger r c.state.2).accepted := by
    rw [← hq]
    exact List.prefix_append _ _
  have hsub : ((line n c.state.2).shown.filterMap id).Sublist (ledger r c.state.2).accepted :=
    ((List.sublist_append_left _ _).trans (hacc.order n r hown)).trans htaken.sublist
  refine ⟨(line n c.state.2).shown, (line n c.state.2).shown.filterMap id, htexts, rfl, hsub, fun hi => ?_, fun hok => ?_⟩
  · have hall := hacc.whole n r hown hi
    rw [Line.events] at hall
    exact (hall ▸ List.prefix_append _ _ : _ <+: (ledger r c.state.2).taken).trans htaken
  · have hshown : ∀ ev ∈ (line n c.state.2).shown.map (·.getD ping), ev.rawData = none ∧ ev.data.Wf ∧ Framed ev := by
      intro ev hev
      obtain ⟨o, ho, rfl⟩ := List.mem_map.1 hev
      cases o with
      | none => exact ⟨rfl, trivial, ping_framed⟩
      | some ev => exact hok ev (hsub.subset (List.mem_filterMap.2 ⟨some ev, ho, rfl⟩))
    have hwire : String.join (sent n c.state.2) = serializeAll ((line n c.state.2).shown.map (·.getD ping)) := by
      rw [htexts, serializeAll, List.map_map]
      rfl
    rw [hwire, ← expected_heartbeats]
    exact dispatch_framed _ "" (fun ev hev => ⟨(hshown ev hev).1, (hshown ev hev).2.1⟩) fun ev hev => (hshown ev hev).2.2

/-! An event and a heartbeat reach a client. -/

def tick : SSEEvent := { data := .int 1, event := some "tick", id := some "7" }

def isTick : SSEEvent → Bool
  | ⟨.int 1, none, some "tick", some "7", none, none⟩ => true
  | _                                                 => false

theorem eq_tick {ev : SSEEvent} (h : isTick ev = true) : ev = tick := by
  unfold isTick at h
  split at h
  · rfl
  · cases h

/-- The heartbeat that follows the event is no message. -/
theorem client_receives_tick : ∃ c, StreamRuns {} (Streams.ofIds fun _ => "x").start c ∧ (sent 0 c.state.2).length = 2 ∧
    ∃ (shown : List (Option SSEEvent)) (delivered : List SSEEvent), sent 0 c.state.2 = shown.map chunk ∧
      shown.filterMap id = delivered ∧ delivered <+: (ledger 0 c.state.2).accepted ∧
      (messages (String.join (sent 0 c.state.2)).toList).map
        (fun m => (m.event, m.lastEventId, Py.Json.loads m.data)) = expected "" delivered := by
  obtain ⟨c, hr, hown, hlen, hi, hticks⟩ : ∃ c, StreamRuns {} (Streams.ofIds fun _ => "x").start c ∧
      own 0 c.state.2 = some 0 ∧ (sent 0 c.state.2).length = 2 ∧ ¬ Interrupted 0 c.state.2 ∧
      ∀ ev ∈ (ledger 0 c.state.2).accepted, isTick ev = true :=
    exists_streamRuns [(.stream 0, {}), (.stream 0, {}), (.stream 0, {}), (.events 0, {}),
      (.events 0, { next := some tick }), (.events 0, {}), (.stream 0, {}), (.stream 0, {}), (.stream 0, {}),
      (.stream 0, {}), (.stream 0, {}), (.stream 0, { outcome := .error .timeout }), (.stream 0, {})]
      (by decide +kernel)
  obtain ⟨shown, delivered, htexts, hshown, -, hprefix, hread⟩ := client_receives {} _ c hr 0 0 hown
  refine ⟨c, hr, hlen, shown, delivered, htexts, hshown, hprefix hi, hread fun ev hev => ?_⟩
  rw [eq_tick (hticks ev hev)]
  exact ⟨rfl, trivial, by decide, by decide, by decide, by decide⟩

end Sse
end Pypepper
