import Pypepper.SseRegistry
/-!
# SseRelease — what a finished stream leaves behind

`sse_stream` cancels its events task after the loop, and removes its connection in the `finally`, after the callback.  An
exception that leaves the loop skips the first, a callback that raises skips the second.  So a finished stream has released
both exactly when neither happened while there was something to release (`stream_releases_iff`).
-/
namespace Pypepper
namespace Sse

open Conc (Prog Proto Sem Conf Ev Admits Extends team team_guar team_stable team_compat)

/-- The connection is out of the registry, and the events task is no longer running: it has ended or has been cancelled. -/
def Released (n r : Nat) (s : StreamState) : Prop :=
  (∀ cid, s.manager.connections.get cid ≠ some r) ∧ ∀ q, s.task n ≠ .running q

/-- Not caught by the loop: a cancellation, or the generator being closed. -/
def StreamExn.Uncaught : StreamExn → Prop
  | .cancelled     => True
  | .generatorExit => True
  | _              => False

/-- An exception leaves the loop: any that `is_disconnected` or the heartbeat's `yield` raises, and an uncaught one from
taking, serializing or sending an event. -/
def Escapes (e : StreamEv) : Prop :=
  match e with
  | ⟨_, .isDisconnected, .error _, _, _⟩ => True
  | ⟨_, .heartbeat, .error _, _, _⟩      => True
  | ⟨_, .getEvent _, .error x, _, _⟩     => x.Uncaught
  | ⟨_, .toText _, .error x, _, _⟩       => x.Uncaught
  | ⟨_, .yield _, .error x, _, _⟩        => x.Uncaught
  | _                                    => False

/-- `on_disconnect` raised, so that the connection is not removed. -/
def leftBehind (e : StreamEv) : Option Nat :=
  match e with
  | ⟨_, .onDisconnect r, .error _, _, _⟩ => some r
  | _                                    => none

/-- An exception left the loop of a stream. -/
def Escaped (n : Nat) (log : List StreamEv) : Prop := ∃ e ∈ log, e.thread = .stream n ∧ Escapes e

/-- **Nothing is left behind**: `on_disconnect` raised only when the connection was out of the registry, and an exception
left the loop only if the events task has ended since. -/
structure LeavesNothing (n : Nat) (s : StreamState × List StreamEv) : Prop where
  connection : ∀ e ∈ s.2, e.thread = .stream n → ∀ r ∈ leftBehind e, ∀ cid, e.pre.manager.connections.get cid ≠ some r
  task       : Escaped n s.2 → ∀ q, s.1.task n ≠ .running q

/-! ## Steps -/

section
variable {limits : Limits} {n : Nat}

/-- The other threads never start a stream's events task. -/
theorem not_running_step {t : StreamThread} {a : StreamAct} {s s' : StreamState} {res : a.Res}
    (h : streamSem limits t a s res s') (ha : (∀ r, a ≠ .createTask r) ∨ t ≠ .stream n)
    (hs : ∀ q, s.task n ≠ .running q) : ∀ q, s'.task n ≠ .running q := by
  obtain ⟨c, -, h⟩ := h
  have set : ∀ (k : Nat) (v : TaskState), (k = n → ∀ q, v ≠ .running q) → ∀ q, (s.setTask k v).task n ≠ .running q := by
    intro k v hv q
    by_cases hk : n = k
    · subst hk
      simpa [StreamState.setTask] using hv rfl q
    · simpa [StreamState.setTask, hk] using hs q
  cases a <;> simp only [streamExec] at h
  case createTask r =>
    split at h
    · rename_i k
      cases h
      refine set _ _ fun hk => ?_
      subst hk
      exact ha.elim (fun h => absurd rfl (h r)) (fun h => absurd rfl h)
    · cases h
  case cancelTask =>
    cases h
    refine set _ _ fun hk q => ?_
    rw [hk]
    cases ht : s.task n with
    | running q' => exact absurd ht (hs q')
    | _ => simp [TaskState.cancel]
  case endTask =>
    cases h
    exact set _ _ fun _ q => by simp
  case getEvent r =>
    split at h <;> cases h <;> exact hs
  case awaitTask =>
    split at h
    · cases h; exact hs
    · split at h
      · cases h; exact hs
      · cases h
  case startTask =>
    split at h <;> cases h <;> exact hs
  case pending => cases h
  all_goals cases h; exact hs

/-- A connection that is out of the registry stays out. -/
theorem unregistered_step {t : StreamThread} {a : StreamAct} {s s' : StreamState} {res : a.Res} {r : Nat}
    (h : streamSem limits t a s res s') (hr : r < s.manager.made) (hs : ∀ cid, s.manager.connections.get cid ≠ some r) :
    r < s'.manager.made ∧ ∀ cid, s'.manager.connections.get cid ≠ some r := by
  rcases streamSem_cases h with ⟨-, -, hcalm⟩ | ⟨args, -, -, hnew⟩ | ⟨q, -, -, hm⟩
  · rw [hcalm.made, hcalm.connections]
    exact ⟨hr, hs⟩
  · refine ⟨by rw [hnew.made]; omega, fun cid => ?_⟩
    rw [hnew.connections, Py.Dict.get_set]
    by_cases hc : cid = args.cid
    · rw [if_pos hc]
      intro he
      have := Option.some.inj he
      omega
    · rw [if_neg hc]
      exact hs cid
  · rw [hm]
    obtain ⟨-, hsame⟩ | ⟨q', -, hpop, hmade, -⟩ := s.manager.disconnect_cases (s.manager.conn q).connectionId
    · rw [hsame]
      exact ⟨hr, hs⟩
    · rw [hmade, hpop]
      refine ⟨hr, fun cid => ?_⟩
      rw [Py.Dict.get_pop]
      by_cases hc : cid = (s.manager.conn q).connectionId
      · rw [if_pos hc]
        exact fun he => by cases he
      · rw [if_neg hc]
        exact hs cid

/-- **A final disconnect takes the connection out of the registry**, whoever is registered under its id. -/
theorem unregistered_disconnect (m : SSEConnectionManager) (r : Nat) (cid : String) :
    (m.disconnect (m.conn r).connectionId).connections.get cid ≠ some r := by
  intro hget
  obtain ⟨hnone, hsame⟩ | ⟨q, hq, hpop, -⟩ := m.disconnect_cases (m.conn r).connectionId
  · rw [hsame] at hget
    rw [(m.keyed cid r hget).2, hget] at hnone
    cases hnone
  · rw [hpop, Py.Dict.get_pop] at hget
    by_cases hc : cid = (m.conn r).connectionId
    · rw [if_pos hc] at hget
      cases hget
    · rw [if_neg hc] at hget
      exact hc (m.keyed cid r hget).2.symm

end

/-! ## One stream among the others -/

/-- Every thread performs the system's actions, and nothing more is promised. -/
abbrev anyTeam (limits : Limits) (t : StreamThread) : Proto StreamAct StreamAct.Res (StreamState × List StreamEv) :=
  team (streamSem limits) (fun _ _ => True) (fun _ e => streamSem limits e.thread e.act e.pre e.res e.post) t

def NotRunning (n : Nat) (s : StreamState × List StreamEv) : Prop := ∀ q, s.1.task n ≠ .running q

/-- The stream's own part of the log: it has connected once, as `r`, and its callback has not raised. -/
structure OwnLog (n r : Nat) (s : StreamState × List StreamEv) : Prop where
  mine : ∀ e ∈ s.2, e.thread = .stream n → ∀ p ∈ connected e, p.2 = r
  kept : ∀ e ∈ s.2, e.thread = .stream n → leftBehind e = none

section
variable {limits : Limits} {n r : Nat}

theorem anyTeam_guar {t : StreamThread} {a : StreamAct} {s s' : StreamState × List StreamEv} {res : a.Res}
    (h : (anyTeam limits t).step a s res s') : (anyTeam limits t).guar s s' := team_guar h h.1

theorem notRunning_stable : (anyTeam limits (.stream n)).Stable (NotRunning n) :=
  team_stable fun s e s' he hx _ hg h => by
    have hstep : streamSem limits e.thread e.act s.1 e.res s'.1 := by
      rw [← hx.pre, ← hx.post]
      exact hg
    exact not_running_step hstep (.inr he) h

theorem escaped_append {log : List StreamEv} (e : StreamEv) (h : Escaped n log) : Escaped n (log ++ [e]) := by
  obtain ⟨x, hx, hn, he⟩ := h
  exact ⟨x, List.mem_append_left _ hx, hn, he⟩

theorem escaped_stable : (anyTeam limits (.stream n)).Stable (fun s => Escaped n s.2) :=
  team_stable fun s e s' _ hx _ _ h => by
    rw [hx.log]
    exact escaped_append e h

theorem OwnLog.extend {s s' : StreamState × List StreamEv} {e : StreamEv} (h : OwnLog n r s) (hlog : s'.2 = s.2 ++ [e])
    (he : e.thread = .stream n → (∀ p ∈ connected e, p.2 = r) ∧ leftBehind e = none) : OwnLog n r s' := by
  constructor
  · intro x hx ht
    rw [hlog] at hx
    rcases List.mem_append.1 hx with hx | hx
    · exact h.mine x hx ht
    · rw [List.mem_singleton.1 hx] at ht ⊢
      exact (he ht).1
  · intro x hx ht
    rw [hlog] at hx
    rcases List.mem_append.1 hx with hx | hx
    · exact h.kept x hx ht
    · rw [List.mem_singleton.1 hx] at ht ⊢
      exact (he ht).2

theorem ownLog_stable : (anyTeam limits (.stream n)).Stable (OwnLog n r) :=
  team_stable fun _ _ _ he hx _ _ h => h.extend hx.log (fun ht => absurd ht he)

theorem leftBehind_of_inner {t : StreamThread} {a : StreamAct} (ha : a.Inner) (res : a.Res) (s s' : StreamState) :
    leftBehind ⟨t, a, res, s, s'⟩ = none := by
  cases a
  case onDisconnect => exact ha.elim
  all_goals rfl

/-- The body leaves the stream's part of the log as it needs it. -/
theorem inner_keeps_ownLog {α : Type} {p : StreamProg α} (hp : p.Only StreamAct.Inner) :
    (anyTeam limits (.stream n)).Keeps (OwnLog n r) p :=
  Proto.Keeps.only ownLog_stable (fun _ ha s res s' hI h => by
    refine ⟨anyTeam_guar h, hI.extend h.2.1 fun _ => ⟨?_, leftBehind_of_inner ha res s.1 s'.1⟩⟩
    rw [(connected_of_quiet ha.quiet res s.1 s'.1).1]
    exact fun _ hp => by cases hp) hp

/-- An action whose exception escapes. -/
theorem escaped_of_step {a : StreamAct} {s s' : StreamState × List StreamEv} {res : a.Res}
    (h : (anyTeam limits (.stream n)).step a s res s') (he : Escapes ⟨.stream n, a, res, s.1, s'.1⟩) : Escaped n s'.2 := by
  rw [h.2.1]
  exact ⟨_, List.mem_append_right _ List.mem_cons_self, rfl, he⟩

/-- **What one event can raise past the loop has escaped.** -/
theorem sendNext_escapes (s : StreamState × List StreamEv) : (anyTeam limits (.stream n)).wp (sendNext r)
    (fun res s => ∀ e, res = .error e → e.Uncaught → Escaped n s.2) s := by
  have stable : (anyTeam limits (.stream n)).Stable (fun _ => True) := fun _ _ _ h => h
  refine Proto.wp_act stable trivial fun s₁ res s₂ _ h => ⟨anyTeam_guar h, ?_⟩
  cases res with
  | error e =>
    intro e' he hu
    obtain rfl := Except.error.inj he
    exact escaped_of_step h hu
  | ok ev =>
    refine Proto.wp_act stable trivial fun s₁ res s₂ _ h => ⟨anyTeam_guar h, ?_⟩
    cases res with
    | error e =>
      intro e' he hu
      obtain rfl := Except.error.inj he
      exact escaped_of_step h hu
    | ok text =>
      refine Proto.wp_act stable trivial fun s₁ res s₂ _ h => ⟨anyTeam_guar h, ?_⟩
      cases res with
      | error e =>
        intro e' he hu
        obtain rfl := Except.error.inj he
        exact escaped_of_step h hu
      | ok _ => exact fun _ he => by cases he

/-- **What the loop raises has escaped it.** -/
theorem streamLoop_escapes : ∀ (fuel : Nat) (s : StreamState × List StreamEv),
    (anyTeam limits (.stream n)).wp (streamLoop r fuel) (fun res s => ∀ e, res = .error e → Escaped n s.2) s
  | 0, _ => by
    refine Proto.wp_act (P := fun _ => True) (fun _ _ _ h => h) trivial fun s₁ res s₂ _ h => ⟨anyTeam_guar h, ?_⟩
    exact fun _ he => by cases he
  | fuel + 1, _ => by
    refine Proto.wp_act (P := fun _ => True) (fun _ _ _ h => h) trivial fun s₁ res s₂ _ h => ⟨anyTeam_guar h, ?_⟩
    cases res with
    | error e => exact fun _ _ => escaped_of_step h trivial
    | ok gone =>
      cases gone with
      | true => exact fun _ he => by cases he
      | false =>
        refine Proto.wp_try (sendNext_escapes s₂) fun result s hM => ?_
        match result, hM with
        | .ok (), _ => exact streamLoop_escapes fuel s
        | .error .timeout, _ =>
          refine Proto.wp_act (P := fun _ => True) (fun _ _ _ h => h) trivial fun s₃ res s₄ _ h => ⟨anyTeam_guar h, ?_⟩
          cases res with
          | error e => exact fun _ _ => escaped_of_step h trivial
          | ok _ => exact streamLoop_escapes fuel s₄
        | .error (.internal _), _ => exact fun _ he => by cases he
        | .error (.exception _), _ => exact fun _ he => by cases he
        | .error .cancelled, hM => exact fun _ _ => hM _ rfl trivial
        | .error .generatorExit, hM => exact fun _ _ => hM _ rfl trivial

/-- **After the body the events task is not running, unless an exception has left the loop.** -/
theorem streamBody_releases (fuel : Nat) {s : StreamState × List StreamEv} (hs : NotRunning n s) :
    (anyTeam limits (.stream n)).wp (streamBody r fuel) (fun _ s => Escaped n s.2 ∨ NotRunning n s) s := by
  have inner : ∀ {a : StreamAct} {s s' : StreamState × List StreamEv} {res : a.Res}, (∀ q, a ≠ .createTask q) →
      (anyTeam limits (.stream n)).step a s res s' → NotRunning n s → NotRunning n s' := fun ha h hs =>
    not_running_step h.1 (.inl ha) hs
  refine Proto.wp_act notRunning_stable hs fun s₁ res s₂ h₁ h => ⟨anyTeam_guar h, ?_⟩
  have h₂ := inner (fun q hq => by cases hq) h h₁
  cases res with
  | error e => exact .inr h₂
  | ok _ =>
    refine Proto.wp_call (P := fun _ => True) (fun _ _ _ h => h) trivial fun s₃ _ s₄ _ h => ⟨anyTeam_guar h, ?_⟩
    refine Proto.wp_seq (streamLoop_escapes fuel s₄) (fun _ s _ => ?_) (fun e s hE => .inl (hE e rfl))
    refine Proto.wp_call (P := fun _ => True) (fun _ _ _ h => h) trivial fun s₅ _ s₆ _ h => ⟨anyTeam_guar h, ?_⟩
    have hcancelled : NotRunning n s₆ := by
      obtain ⟨c, -, hexec⟩ := h.1
      have hstate : s₅.1.setTask n (s₅.1.task n).cancel = s₆.1 := congrArg Prod.snd (Option.some.inj hexec)
      intro q
      rw [← hstate]
      show (s₅.1.setTask n (s₅.1.task n).cancel).task n ≠ _
      cases ht : s₅.1.task n <;> simp [StreamState.setTask, TaskState.cancel]
    refine Proto.wp_act notRunning_stable hcancelled fun s₇ res s₈ h₇ h => ⟨anyTeam_guar h, ?_⟩
    have h₈ : Escaped n s₈.2 ∨ NotRunning n s₈ := .inr (inner (fun q hq => by cases hq) h h₇)
    match res with
    | .ok () => exact h₈
    | .error .cancelled => exact h₈
    | .error (.internal _) => exact h₈
    | .error .timeout => exact h₈
    | .error (.exception _) => exact h₈
    | .error .generatorExit => exact h₈

/-- After the body: the task is settled, and the callback has not been run. -/
structure Settled (n r : Nat) (s : StreamState × List StreamEv) : Prop where
  own  : OwnLog n r s
  task : Escaped n s.2 ∨ NotRunning n s

theorem settled_stable : (anyTeam limits (.stream n)).Stable (Settled n r) := by
  intro s s' hrel h
  refine ⟨ownLog_stable s s' hrel h.own, ?_⟩
  rcases h.task with h | h
  · exact .inl (escaped_stable s s' hrel h)
  · exact .inr (notRunning_stable s s' hrel h)

/-- A step of the `finally` leaves the task settled. -/
theorem Settled.task_step {a : StreamAct} {s s' : StreamState × List StreamEv} {res : a.Res}
    (h : (anyTeam limits (.stream n)).step a s res s') (ha : ∀ q, a ≠ .createTask q) (hs : Settled n r s) :
    Escaped n s'.2 ∨ NotRunning n s' := by
  rcases hs.task with h' | h'
  · rw [h.2.1]
    exact .inl (escaped_append _ h')
  · exact .inr (not_running_step h.1 (.inl ha) h')

/-- How a stream ends: it has released what it held exactly when it leaves nothing behind. -/
def EndsReleased (n : Nat) (s : StreamState × List StreamEv) : Prop :=
  ∀ e ∈ s.2, e.thread = .stream n → ∀ p ∈ connected e, (Released n p.2 s.1 ↔ LeavesNothing n s)

/-- With the task part settled by the body, what is left is the registry. -/
theorem endsReleased_of {s : StreamState × List StreamEv} (hmine : ∀ e ∈ s.2, e.thread = .stream n → ∀ p ∈ connected e, p.2 = r)
    (htask : Escaped n s.2 ∨ NotRunning n s)
    (hreg : (∀ cid, s.1.manager.connections.get cid ≠ some r) ↔ ∀ e ∈ s.2, e.thread = .stream n → ∀ q ∈ leftBehind e,
      ∀ cid, e.pre.manager.connections.get cid ≠ some q) : EndsReleased n s := by
  intro e he ht p hp
  rw [hmine e he ht p hp]
  constructor
  · exact fun h => ⟨hreg.1 h.1, fun _ => h.2⟩
  · intro h
    refine ⟨hreg.2 h.connection, ?_⟩
    rcases htask with hE | hN
    · exact h.task hE
    · exact hN

/-- An `on_disconnect` that raises ends the stream with whatever the registry holds. -/
theorem Settled.raised {s s' : StreamState × List StreamEv} {e : StreamExn} (hs : Settled n r s)
    (h : (anyTeam limits (.stream n)).step (.onDisconnect r) s (.error e) s') : EndsReleased n s' := by
  have htask := hs.task_step h fun q hq => by cases hq
  have hsame : s'.1 = s.1 := by
    obtain ⟨c, -, hexec⟩ := h.1
    exact (congrArg Prod.snd (Option.some.inj hexec)).symm
  have hmine : ∀ e ∈ s'.2, e.thread = .stream n → ∀ p ∈ connected e, p.2 = r := by
    intro x hx ht p hp
    rw [h.2.1] at hx
    rcases List.mem_append.1 hx with hx | hx
    · exact hs.own.mine x hx ht p hp
    · rw [List.mem_singleton.1 hx] at hp
      cases hp
  refine endsReleased_of hmine htask ⟨fun hreg x hx ht q hq => ?_, fun hall cid => ?_⟩
  · rw [h.2.1] at hx
    rcases List.mem_append.1 hx with hx | hx
    · rw [hs.own.kept x hx ht] at hq
      cases hq
    · rw [List.mem_singleton.1 hx] at hq ⊢
      obtain rfl := Option.some.inj hq
      rw [hsame] at hreg
      exact hreg
  · rw [hsame]
    refine hall ⟨.stream n, .onDisconnect r, .error e, s.1, s'.1⟩ ?_ rfl r rfl cid
    rw [h.2.1]
    exact List.mem_append_right _ List.mem_cons_self

/-- The final disconnect leaves nothing registered. -/
theorem Settled.disconnected {s s' : StreamState × List StreamEv} {res : StreamAct.Res (.disconnect r)} (hs : Settled n r s)
    (h : (anyTeam limits (.stream n)).step (.disconnect r) s res s') : EndsReleased n s' := by
  have hown : OwnLog n r s' := hs.own.extend h.2.1 fun _ => ⟨fun _ hp => (by cases hp), rfl⟩
  refine endsReleased_of hown.mine (hs.task_step h fun q hq => by cases hq) ⟨fun _ x hx ht q hq => ?_, fun _ cid => ?_⟩
  · rw [hown.kept x hx ht] at hq
    cases hq
  · obtain ⟨c, -, hexec⟩ := h.1
    have hstate := congrArg (fun p => p.2.manager) (Option.some.inj hexec)
    rw [← hstate]
    exact unregistered_disconnect s.1.manager r cid

/-- **A stream ends as it should**, whatever the others do and the environment chooses. -/
theorem sseStream_endsReleased (args : SSEConnectionManager.ConnectArgs) (fuel : Nat) {s : StreamState × List StreamEv}
    (hs : NotRunning n s) (hlog : ∀ e ∈ s.2, e.thread ≠ .stream n) :
    (anyTeam limits (.stream n)).wp (sseStream args fuel) (fun _ => EndsReleased n) s := by
  have hstable : (anyTeam limits (.stream n)).Stable
      (fun s => NotRunning n s ∧ ∀ e ∈ s.2, e.thread ≠ .stream n) := by
    refine notRunning_stable.and (team_stable fun s e s' he hx _ _ h => ?_)
    intro x hx'
    rw [hx.log] at hx'
    rcases List.mem_append.1 hx' with hx' | hx'
    · exact h x hx'
    · rw [List.mem_singleton.1 hx']
      exact he
  refine Proto.wp_act hstable ⟨hs, hlog⟩ fun s₁ res s₂ h₁ h => ⟨anyTeam_guar h, ?_⟩
  have h₂ : NotRunning n s₂ := not_running_step h.1 (.inl fun q hq => by cases hq) h₁.1
  cases res with
  | error e =>
    intro x hx ht p hp
    rw [h.2.1] at hx
    rcases List.mem_append.1 hx with hx | hx
    · exact absurd ht (h₁.2 x hx)
    · rw [List.mem_singleton.1 hx] at hp
      cases hp
  | ok r =>
    have hown : OwnLog n r s₂ := by
      have hnone : OwnLog n r s₁ := ⟨fun e he ht => absurd ht (h₁.2 e he), fun e he ht => absurd ht (h₁.2 e he)⟩
      refine hnone.extend h.2.1 fun _ => ⟨fun p hp => ?_, rfl⟩
      rw [← Option.some.inj hp]
    have hbody : (anyTeam limits (.stream n)).wp (streamBody r fuel) (fun _ => Settled n r) s₂ :=
      Proto.wp_mono (fun _ _ hI => ⟨hI.1, hI.2⟩) _ _ (Proto.wp_and _ _
        (inner_keeps_ownLog (streamBody_inner r fuel) s₂ hown) (streamBody_releases fuel h₂))
    refine Proto.wp_try hbody fun result s hI => ?_
    refine Proto.wp_act settled_stable hI fun s₃ res s₄ h₃ h => ⟨anyTeam_guar h, ?_⟩
    cases res with
    | error e => exact h₃.raised h
    | ok _ =>
      have hown : OwnLog n r s₄ := h₃.own.extend h.2.1 fun _ => ⟨fun _ hp => (by cases hp), rfl⟩
      have htask := h₃.task_step h fun q hq => by cases hq
      refine Proto.wp_call settled_stable ⟨hown, htask⟩ fun s₅ _ s₆ h₅ h => ⟨anyTeam_guar h, ?_⟩
      have hpost : EndsReleased n s₆ := h₅.disconnected h
      cases result with
      | ok _ => exact hpost
      | error _ => exact hpost

end

/-! ## Runs -/

/-- Every connection of the log has been made. -/
theorem made_of_connected {limits : Limits} {σ : Streams} {c : StreamConf} (hr : StreamRuns limits σ.start c) :
    ∀ e ∈ c.state.2, ∀ p ∈ connected e, p.2 < c.state.1.manager.made := by
  refine hr.invariant (P := fun s => ∀ e ∈ s.2, ∀ p ∈ connected e, p.2 < s.1.manager.made) ?_ (fun _ he => by cases he)
  rintro t a s res s' ⟨hstep, hlog, -⟩ h x hx p hp
  have hmade : s.1.manager.made ≤ s'.1.manager.made := by
    rcases streamSem_cases hstep with ⟨-, -, hcalm⟩ | ⟨args, -, -, hnew⟩ | ⟨q, -, -, hm⟩
    · exact Nat.le_of_eq hcalm.made.symm
    · rw [hnew.made]
      omega
    · rw [hm]
      obtain ⟨-, hsame⟩ | ⟨q', -, -, hmade, -⟩ := s.1.manager.disconnect_cases (s.1.manager.conn q).connectionId
      · exact Nat.le_of_eq (congrArg SSEConnectionManager.made hsame).symm
      · exact Nat.le_of_eq hmade.symm
  rw [hlog] at hx
  rcases List.mem_append.1 hx with hx | hx
  · exact Nat.lt_of_lt_of_le (h x hx p hp) hmade
  · rw [List.mem_singleton.1 hx] at hp
    rcases streamSem_cases hstep with ⟨hn, -, -⟩ | ⟨args, hc, -, hnew⟩ | ⟨q, hn, -, -⟩
    · rw [hn] at hp
      cases hp
    · rw [hc] at hp
      rw [← Option.some.inj hp, hnew.made]
      exact Nat.lt_succ_self _
    · rw [hn] at hp
      cases hp

/-- **What a finished stream has released stays released.** -/
theorem released_of_runs {limits : Limits} {n r : Nat} {c c' : StreamConf} (hr : StreamRuns limits c c')
    (hfin : (c.prog (.stream n)).finished.isSome = true) (hmade : r < c.state.1.manager.made)
    (h : Released n r c.state.1) : Released n r c'.state.1 := by
  suffices (c'.prog (.stream n)).finished.isSome = true ∧ r < c'.state.1.manager.made ∧ Released n r c'.state.1 from this.2.2
  induction hr with
  | refl => exact ⟨hfin, hmade, h⟩
  | tail _ hs ih =>
    obtain ⟨t, hs⟩ := hs
    obtain ⟨hp, hd⟩ := hs
    obtain ⟨hfin, hmade, hreg, htask⟩ := ih
    have ht : t ≠ .stream n := by
      rintro rfl
      rw [hp] at hfin
      cases hfin
    obtain ⟨hmade', hreg'⟩ := unregistered_step hd.1 hmade hreg
    refine ⟨?_, hmade', hreg', not_running_step hd.1 (.inr ht) htask⟩
    dsimp only
    rw [Function.update_of_ne (Ne.symm ht)]
    exact hfin

/-- **A finished stream has released its connection and its events task exactly when it leaves nothing behind**: for every
stream that has connected and takes its last step, in any run, the connection is out of the registry and the task is no longer
running, from then on, if and only if `on_disconnect` did not raise with the connection still registered, and no exception
left the loop with the events task still running now. -/
theorem stream_releases_iff (limits : Limits) (σ : Streams) (n : Nat) (c c' : StreamConf)
    (hr : StreamRuns limits σ.start c)
    (hstep : Conf.Step ((streamSem limits).logged (fun _ _ => True)) (.stream n) c c')
    (hfin : (c'.prog (.stream n)).finished.isSome = true) (e : StreamEv) (he : e ∈ c'.state.2)
    (ht : e.thread = .stream n) (p : String × Nat) (hp : connected e = some p) :
    (∀ c'', StreamRuns limits c' c'' → Released n p.2 c''.state.1) ↔ LeavesNothing n c'.state := by
  have hheld : Conf.Held (anyTeam limits) (fun t _ s => t = .stream n → EndsReleased n s) σ.start := by
    refine Conf.Held.init fun t => ?_
    have any : ∀ q : StreamProg Unit, t ≠ .stream n →
        (anyTeam limits t).wp q (fun _ s => t = .stream n → EndsReleased n s) σ.start.state := fun q hne =>
      Proto.wp_mono (fun _ _ _ h => absurd h hne) q _ (Proto.Keeps.only (I := fun _ => True) (fun _ _ _ h => h)
        (fun _ _ _ _ _ _ h => ⟨anyTeam_guar h, trivial⟩) (Prog.Only.any q) _ trivial)
    by_cases hn : t = .stream n
    · subst hn
      refine Proto.wp_mono (fun _ _ h _ => h) _ _ (sseStream_endsReleased (σ.args n) (σ.fuel n) ?_ ?_)
      · exact fun q hq => by cases hq
      · exact fun _ hx => by cases hx
    · exact any _ hn
  have hwp := ((hheld.runs team_compat hr).step team_compat hstep).2.1
  have hends : EndsReleased n c'.state := by
    cases hprog : c'.prog (.stream n) with
    | ret a =>
      rw [hprog] at hwp
      exact hwp rfl
    | raise x =>
      rw [hprog] at hwp
      exact hwp rfl
    | act a k =>
      rw [hprog] at hfin
      cases hfin
  have hmade := made_of_connected (hr.tail ⟨_, hstep⟩) e he p hp
  rw [← hends e he ht p hp]
  constructor
  · exact fun h => h c' .refl
  · exact fun h c'' hr' => released_of_runs hr' hfin hmade h

/-- A stream whose client goes has released what it held. -/
theorem stream_releases_iff_client_gone : ∃ c, StreamRuns {} (Streams.ofIds fun _ => "x").start c ∧
    (c.prog (.stream 0)).finished.isSome = true ∧ ∀ c', StreamRuns {} c c' → Released 0 0 c'.state.1 := by
  obtain ⟨c, hr, hlast⟩ : ∃ c, StreamRuns {} (Streams.ofIds fun _ => "x").start c ∧
      (c.exec (streamExec {}) (.stream 0) {}).any (fun c' => decide ((c'.prog (.stream 0)).finished.isSome = true ∧
        c'.state.1.task 0 = .finished ∧ (∀ e ∈ c'.state.2, leftBehind e = none) ∧
        ∃ e ∈ c'.state.2, e.thread = .stream 0 ∧ connected e = some ("x", 0))) = true :=
    exists_streamRuns ((.stream 0, {}) :: (oneStream 0).dropLast) (by decide +kernel)
  obtain ⟨c', hexec, hP⟩ := (Option.any_eq_true _ _).1 hlast
  obtain ⟨hfin, htask, hkept, e, he, ht, hp⟩ := of_decide_eq_true hP
  have hstep : Conf.Step ((streamSem {}).logged (fun _ _ => True)) (.stream 0) c c' :=
    Conf.step_of_exec (fun _ => trivial) hexec
  refine ⟨c', hr.tail ⟨_, hstep⟩, hfin, (stream_releases_iff {} _ 0 c c' hr hstep hfin e he ht _ hp).2 ⟨?_, ?_⟩⟩
  · intro x hx _ q hq
    rw [hkept x hx] at hq
    cases hq
  · intro _ q
    rw [htask]
    exact fun h => by cases h

/-- **What a stream can leave behind**: cancelled in its loop it leaves its events task running, and with a callback that
raises it leaves its connection in the registry. -/
theorem stream_leaves_behind :
    (∃ c, StreamRuns {} (Streams.ofIds fun _ => "x").start c ∧ (c.prog (.stream 0)).finished.isSome = true ∧
      ¬ Released 0 0 c.state.1) ∧
    (∃ c, StreamRuns {} (Streams.ofIds fun _ => "x").start c ∧ (c.prog (.stream 0)).finished.isSome = true ∧
      c.state.1.task 0 = .finished ∧ ¬ Released 0 0 c.state.1) := by
  constructor
  · obtain ⟨c, hr, hfin, htask⟩ : ∃ c, StreamRuns {} (Streams.ofIds fun _ => "x").start c ∧
        (c.prog (.stream 0)).finished.isSome = true ∧ c.state.1.task 0 = .running 0 :=
      exists_streamRuns [(.stream 0, {}), (.stream 0, {}), (.stream 0, {}), (.stream 0, { outcome := .error .cancelled }),
        (.stream 0, {}), (.stream 0, {})] (by decide +kernel)
    exact ⟨c, hr, hfin, fun h => h.2 0 htask⟩
  · obtain ⟨c, hr, hfin, htask, hreg⟩ : ∃ c, StreamRuns {} (Streams.ofIds fun _ => "x").start c ∧
        (c.prog (.stream 0)).finished.isSome = true ∧ c.state.1.task 0 = .finished ∧
        c.state.1.manager.connections.get "x" = some 0 :=
      exists_streamRuns ((.stream 0, {}) :: (oneStream 0).dropLast.dropLast ++
        [(.stream 0, { outcome := .error (.exception "boom") })]) (by decide +kernel)
    exact ⟨c, hr, hfin, htask, fun h => h.1 "x" hreg⟩

end Sse
end Pypepper
