import Pypepper.ProgTrace
import Pypepper.Rehydrate
import Pypepper.SoftTimeout
/-!
# JoinGuarantee — what a run leaves in the pool

Every attempt ends with its future done, or, when its join is bounded, with the future as its task's entry in the table,
where the next attempt finds it (`executeOnce_keeps_settled`).  So a workflow whose task ids nobody else uses leaves
nothing of a task that joins without a bound, and at most one unfinished execute of each other task (`join_guarantee`).

This is so while the platform can wait as long as the task asks: a longer wait is refused before anything is joined, and
`run` ends with the execute running (`refused_wait_leaves_execute`).
-/
namespace Pypepper
namespace SoftTimeout

open Conc (Prog Proto Sem Conf Ev Extends team team_guar team_stable team_compat callsOf mem_callsOf)

/-! ## The law -/

/-- Nothing of the task is unfinished when it joins without a bound, and at most one execute of it otherwise. -/
structure Joined (s : Shared) (t : Task) : Prop where
  unbounded : t.roundTimeoutJoin ≤ 0 → ∀ f, s.live f ≠ some t.id
  one       : ∀ f g, s.live f = some t.id → s.live g = some t.id → f = g

/-- It is running, or has run. -/
def Phase.Started : Phase → Prop
  | .running | .finished _ => True
  | _                      => False

/-- The future is cancelled, and was started in no state of the run. -/
structure NeverStarted (s : PoolState) (f : Nat) : Prop where
  cancelled : s.1.phase f = some .cancelled
  before    : ∀ e ∈ s.2, ∀ p, e.post.phase f = some p → ¬ p.Started

/-- The value is what the attempt's own execute answered: its call, or the future that it submitted. -/
def Answered (t : Task) (calls : List (Sigma Call.Res)) (v : Value) (s : Shared) : Prop :=
  (⟨.execute t, .ok v⟩ : Sigma Call.Res) ∈ calls ∨
    ∃ f, (⟨.submit t, f⟩ : Sigma Call.Res) ∈ calls ∧ s.futures[f]? = some ⟨t, .finished (.ok v)⟩

/-! ## Futures only move forward -/

inductive Future.Moves : Future → Future → Prop
  | start (t : Task) : Future.Moves ⟨t, .queued⟩ ⟨t, .running⟩
  | finish (t : Task) (r : Answer) : Future.Moves ⟨t, .running⟩ ⟨t, .finished r⟩
  | cancel (t : Task) : Future.Moves ⟨t, .queued⟩ ⟨t, .cancelled⟩

theorem Shared.phase_eq_some {s : Shared} {f : Nat} {p : Phase} (h : s.phase f = some p) :
    ∃ t, s.futures[f]? = some ⟨t, p⟩ := by
  obtain ⟨⟨t, q⟩, hx, rfl⟩ := Option.map_eq_some_iff.1 h
  exact ⟨t, hx⟩

theorem Shared.setPhase_moves {s : Shared} {f g : Nat} {p q : Phase} {x : Future} (hp : s.phase f = some p)
    (hm : ∀ t, Future.Moves ⟨t, p⟩ ⟨t, q⟩) (hx : s.futures[g]? = some x) :
    ∃ y, (s.setPhase f q).futures[g]? = some y ∧ (y = x ∨ x.Moves y) := by
  unfold setPhase
  by_cases hfg : f = g
  · subst hfg
    obtain ⟨t, ht⟩ := Shared.phase_eq_some hp
    obtain rfl := Option.some.inj (ht.symm.trans hx)
    exact ⟨⟨t, q⟩, by simp [hx], .inr (hm t)⟩
  · exact ⟨x, by simp [hfg, hx], .inl rfl⟩

/-- **One call**, whoever makes it. -/
theorem exec_moves {c : Choice} {a : Call} {s s' : Shared} {r : a.Res} (h : Call.exec c a s = some (r, s')) {f : Nat}
    {x : Future} (hx : s.futures[f]? = some x) : ∃ y, s'.futures[f]? = some y ∧ (y = x ∨ x.Moves y) := by
  have same : s'.futures = s.futures → ∃ y, s'.futures[f]? = some y ∧ (y = x ∨ x.Moves y) := by
    intro hs
    exact ⟨x, by rw [hs, hx], .inl rfl⟩
  cases a with
  | execute t | result g timeout =>
    obtain ⟨_, -, hr⟩ := Option.map_eq_some_iff.1 h
    cases hr
    exact same rfl
  | check id =>
    have hs : (s.check id).2 = s' := congrArg Prod.snd (Option.some.inj h)
    rcases s.check_cases id with ⟨_, -, hc⟩ | ⟨_, hc, hfutures, -, -⟩
    · rw [hc] at hs
      exact same (by rw [← hs])
    · rw [hc] at hs
      exact same (by rw [← hs, hfutures])
  | submit t =>
    have hs : (s.submit t).2 = s' := congrArg Prod.snd (Option.some.inj h)
    subst hs
    obtain ⟨hlt, -⟩ := List.getElem?_eq_some_iff.1 hx
    exact ⟨x, (List.getElem?_append_left hlt).trans hx, .inl rfl⟩
  | cancel g =>
    have hs : (s.cancel g).2 = s' := congrArg Prod.snd (Option.some.inj h)
    subst hs
    unfold Shared.cancel
    split
    · rename_i hq
      exact Shared.setPhase_moves hq .cancel hx
    · exact ⟨x, hx, .inl rfl⟩
    · exact ⟨x, hx, .inl rfl⟩
  | work =>
    obtain ⟨_, hw, hr⟩ := Option.map_eq_some_iff.1 h
    cases hr
    unfold Shared.work at hw
    split at hw
    · split at hw
      · rename_i hq
        cases hw
        exact Shared.setPhase_moves hq .start hx
      · cases hw
    · split at hw
      · rename_i hq
        cases hw
        exact Shared.setPhase_moves hq (fun t => .finish t _) hx
      · cases hw
    · cases hw
  | store id g | done g | remove id | sleep d =>
    cases h
    exact same rfl

/-- **What futures keep as they move** holds of them at the end when it held of them after an event. -/
theorem kept_of_event {T : Future → Prop} (hT : ∀ x y, T x → x.Moves y → T y)
    {c c' : Conf Thread Call Call.Res Failure Unit PoolState} (h0 : c.state.2 = [])
    (hr : Conf.Runs (sem.logged fun _ _ => True) c c') {e : PoolEv} (he : e ∈ c'.state.2) {f : Nat} {x : Future}
    (hx : e.post.futures[f]? = some x) (hTx : T x) : ∃ y, c'.state.1.futures[f]? = some y ∧ T y := by
  refine hr.invariant (P := fun s => ∀ e ∈ s.2, ∀ f x, e.post.futures[f]? = some x → T x →
    ∃ y, s.1.futures[f]? = some y ∧ T y) ?_ (by rw [h0]; simp) e he f x hx hTx
  rintro i a s r s' ⟨⟨ch, -, hexec⟩, hlog, -⟩ hs e he f x hx hTx
  rw [hlog] at he
  rcases List.mem_append.1 he with he | he
  · obtain ⟨y, hy, hTy⟩ := hs e he f x hx hTx
    obtain ⟨z, hz, rfl | hm⟩ := exec_moves hexec hy
    · exact ⟨z, hz, hTy⟩
    · exact ⟨z, hz, hT y z hTy hm⟩
  · obtain rfl := List.mem_singleton.1 he
    exact ⟨x, hx, hTx⟩

/-! ## The futures of one id -/

/-- What holds of the unfinished futures of an id and of its entry. -/
def Unfinished (id : Py.Str) (P : Nat → Option Nat → Prop) (s : Shared) : Prop :=
  ∀ f, s.live f = some id → P f (s.inflight.get id)

/-- The future is the attempt's, and its id's entry. -/
def Stored (future : Nat) (f : Nat) (entry : Option Nat) : Prop := f = future ∧ entry = some future

/-- There is none. -/
def Free (_f : Nat) (_entry : Option Nat) : Prop := False

/-- The id a call is about. -/
def Call.about : Call → Option Py.Str
  | .check id | .store id _ | .remove id => some id
  | .submit t => some t.id
  | _         => none

section
variable {id : Py.Str} {P : Nat → Option Nat → Prop} {s s' : Shared}

theorem Unfinished.mono {P' : Nat → Option Nat → Prop} (h : Unfinished id P s) (hP : ∀ f o, P f o → P' f o) :
    Unfinished id P' s := fun f hf => hP f _ (h f hf)

/-- **A call about another id**, or about none, leaves them. -/
theorem Unfinished.frame {c : Choice} {a : Call} {r : a.Res} (h : Unfinished id P s)
    (hexec : Call.exec c a s = some (r, s')) (ha : ∀ j ∈ a.about, j ≠ id) : Unfinished id P s' := by
  have shrink : (∀ f, s'.live f = some id → s.live f = some id) → s'.inflight.get id = s.inflight.get id →
      Unfinished id P s' := by
    intro hlive hin f hf
    rw [hin]
    exact h f (hlive f hf)
  cases a with
  | check j =>
    have hs : (s.check j).2 = s' := congrArg Prod.snd (Option.some.inj hexec)
    rcases s.check_cases j with ⟨_, -, hc⟩ | ⟨_, hc, hfutures, -, hin⟩
    · rw [hc] at hs
      rwa [← hs]
    · rw [hc] at hs
      subst hs
      refine shrink (fun f hf => ?_) (hin id (ha j rfl).symm)
      rwa [Shared.live, hfutures] at hf
  | submit t =>
    have hs : (s.submit t).2 = s' := congrArg Prod.snd (Option.some.inj hexec)
    subst hs
    refine shrink (fun f hf => ?_) rfl
    rw [Shared.live_submit] at hf
    by_cases hlast : f = s.futures.length
    · rw [if_pos hlast] at hf
      exact absurd (Option.some.inj hf) (ha t.id rfl)
    · rwa [if_neg hlast] at hf
  | store j f =>
    cases hexec
    exact shrink (fun _ hf => hf) (Py.Dict.get_set_of_ne _ _ (ha j rfl).symm)
  | remove j =>
    cases hexec
    refine shrink (fun _ hf => hf) ?_
    rw [Py.Dict.get_pop, if_neg (ha j rfl).symm]
  | _ =>
    obtain ⟨hin, hlive⟩ := exec_inFlight hexec trivial
    exact shrink (fun f hf => hlive f id hf) (by rw [hin])

/-- A check that passes finds none, when the entry would be it. -/
theorem Unfinished.check (h : Unfinished id P s) (hP : ∀ f o, P f o → o = some f)
    (hcheck : s.check id = (false, s')) : Unfinished id (Free) s' := by
  rcases s.check_cases id with ⟨_, -, hc⟩ | ⟨_, hc, hfutures, hentry, -⟩
  · cases hcheck.symm.trans hc
  · cases hcheck.symm.trans hc
    intro f hf
    rw [Shared.live, hfutures] at hf
    have hnone := hentry f (hP f _ (h f hf))
    cases hnone.symm.trans hf

theorem Unfinished.blocked (h : Unfinished id P s) (hcheck : s.check id = (true, s')) : Unfinished id P s' := by
  rcases s.check_cases id with ⟨_, -, hc⟩ | ⟨_, hc, -⟩
  · cases hcheck.symm.trans hc
    exact h
  · cases hcheck.symm.trans hc

/-- None is left when the only one is done. -/
theorem Unfinished.done {f : Nat} (h : Unfinished id P s) (hP : ∀ g o, P g o → g = f) (hdone : s.live f = none) :
    Unfinished id (Free) s := by
  intro g hg
  rw [hP g _ (h g hg), hdone] at hg
  cases hg

/-- A submit where there was none. -/
theorem Unfinished.submit {c : Choice} {t : Task} {future : Nat} (h : Unfinished t.id Free s)
    (hexec : Call.exec c (.submit t) s = some (future, s')) : Unfinished t.id (fun f _ => f = future) s' := by
  obtain ⟨hr, hs⟩ := Prod.mk.inj (Option.some.inj hexec)
  subst hs
  intro f hf
  have hlive : (s.submit t).2.live f = some t.id := hf
  rw [Shared.live_submit] at hlive
  by_cases hlast : f = s.futures.length
  · exact hlast.trans hr
  · rw [if_neg hlast] at hlive
    exact (h f hlive).elim

theorem Unfinished.store {c : Choice} {future : Nat} {r : Unit} (h : Unfinished id (fun f _ => f = future) s)
    (hexec : Call.exec c (.store id future) s = some (r, s')) : Unfinished id (Stored future) s' := by
  cases hexec
  intro f hf
  exact ⟨h f hf, Py.Dict.get_set_self _ _ _⟩

/-- An answer of a future: it is done, or the wait for it was refused, or ran out. -/
theorem Shared.live_result {f : Nat} {timeout : Option Int} {r : Answer} (h : s.result f timeout = some r) :
    s.live f = none ∨ ∃ seconds, timeout = some seconds ∧
      ((timeoutMax < seconds ∧ r = .error .overflow) ∨ ∃ msg traits, r = .error (.timeout msg traits)) := by
  unfold Shared.result at h
  split at h
  · rename_i hp
    obtain ⟨t, ht⟩ := Shared.phase_eq_some hp
    exact .inl (by simp [Shared.live, ht, Phase.live])
  · rename_i hp
    obtain ⟨t, ht⟩ := Shared.phase_eq_some hp
    exact .inl (by simp [Shared.live, ht, Phase.live])
  · cases timeout with
    | none => cases h
    | some seconds =>
      refine .inr ⟨seconds, rfl, ?_⟩
      by_cases hlong : timeoutMax < seconds
      · rw [Shared.waited, if_pos hlong] at h
        exact .inl ⟨hlong, (Option.some.inj h).symm⟩
      · rw [Shared.waited, if_neg hlong] at h
        exact .inr ⟨"", {}, (Option.some.inj h).symm⟩

theorem Shared.phase_of_result {f : Nat} {timeout : Option Int} {v : Value} (h : s.result f timeout = some (.ok v)) :
    ∃ t, s.futures[f]? = some ⟨t, .finished (.ok v)⟩ := by
  unfold Shared.result at h
  split at h
  · rename_i hp
    cases h
    exact Shared.phase_eq_some hp
  · cases h
  · cases timeout <;> cases h

theorem Shared.phase_cancel {f : Nat} (h : s.cancel f = (true, s')) : s'.phase f = some .cancelled := by
  unfold Shared.cancel at h
  split at h
  · rename_i hp
    obtain ⟨t, ht⟩ := Shared.phase_eq_some hp
    cases h
    simp [Shared.phase, Shared.setPhase, ht]
  · rename_i hp
    cases h
    exact hp
  · cases h

theorem Shared.live_of_cancelled {f : Nat} (h : s.phase f = some .cancelled) : s.live f = none := by
  obtain ⟨t, ht⟩ := Shared.phase_eq_some h
  simp [Shared.live, ht, Phase.live]

end

/-! ## The threads -/

/-- The ids of a thread's tasks. -/
def idsOf (workflows : Nat → List Task) : Thread → List Py.Str
  | some i => (workflows i).map Task.id
  | none   => []

/-- The event leaves the futures of the ids that are not its thread's. -/
def Respects (workflows : Nat → List Task) (_before : List PoolEv) (e : PoolEv) : Prop :=
  ∀ id, id ∉ idsOf workflows e.thread → ∀ P, Unfinished id P e.pre → Unfinished id P e.post

/-- What a thread relies on and promises: each leaves the others' ids alone. -/
abbrev joiner (workflows : Nat → List Task) (i : Thread) : Proto Call Call.Res PoolState :=
  team sem (fun _ _ => True) (Respects workflows) i

section
variable {workflows : Nat → List Task} {i : Thread}

/-- A call about the thread's own ids. -/
def Call.Within (ids : List Py.Str) (a : Call) : Prop := ∀ id ∈ a.about, id ∈ ids

theorem guar_within {a : Call} {s s' : PoolState} {r : a.Res} (ha : a.Within (idsOf workflows i))
    (hstep : (joiner workflows i).step a s r s') : (joiner workflows i).guar s s' := by
  obtain ⟨c, -, hexec⟩ := hstep.1
  refine team_guar hstep fun id hid P h => h.frame hexec ?_
  rintro j hj rfl
  exact hid (ha j hj)

theorem executeOnce_within {t : Task} {ids : List Py.Str} (ht : t.id ∈ ids) :
    (executeOnce t).Only (Call.Within ids) := by
  have hown : ∀ {a : Call}, a.about = some t.id → a.Within ids := by
    intro a ha id hid
    rw [ha] at hid
    exact Option.some.inj hid ▸ ht
  have hnone : ∀ {a : Call}, a.about = none → a.Within ids := by
    intro a ha id hid
    rw [ha] at hid
    cases hid
  exact executeOnce_only (hnone rfl) (hown rfl) (hown rfl) (fun _ => hown rfl)
    (fun _ => wait_only (fun _ => hnone rfl) (hnone rfl) (hnone rfl) (hown rfl)) (fun _ => hnone rfl) (hown rfl)

theorem run_within (ts : List Task) : (run ts).Only (Call.Within (ts.map Task.id)) := by
  refine run_built (Prog.Only.closed _) (fun t ht => executeOnce_within (List.mem_map_of_mem ht)) fun t _ => .call ?_
  intro id hid
  cases hid

theorem works_within (ids : List Py.Str) : ∀ n : Nat, (works n).Only (Call.Within ids)
  | 0     => .ret ()
  | n + 1 => by
    refine .bind (.call ?_) fun _ => works_within ids n
    intro id hid
    cases hid

/-- A program about the thread's own ids promises what the thread must. -/
theorem only_keeps_true {α : Type} {p : TaskProg α} (h : p.Only (Call.Within (idsOf workflows i))) :
    (joiner workflows i).Keeps (fun _ => True) p :=
  Proto.Keeps.only (fun _ _ _ _ => trivial) (fun _ ha _ _ _ _ hstep => ⟨guar_within ha hstep, trivial⟩) h

end

/-! ## The attempts of the workflow -/

/-- The future is its id's entry, and its task joins with a bound. -/
def InTable (t : Task) (f : Nat) (entry : Option Nat) : Prop := entry = some f ∧ 0 < t.roundTimeoutJoin

/-- The unfinished futures of the tasks are in the table. -/
def Settled (ts : List Task) (s : PoolState) : Prop := ∀ t ∈ ts, Unfinished t.id (InTable t) s.1

/-- Those of the other tasks are, and those of `t` are as `P` says. -/
structure Around (ts : List Task) (t : Task) (P : Nat → Option Nat → Prop) (s : PoolState) : Prop where
  others : ∀ u ∈ ts, u.id ≠ t.id → Unfinished u.id (InTable u) s.1
  own    : Unfinished t.id P s.1

section
variable {workflows : Nat → List Task} {i : Nat} {t : Task} {P : Nat → Option Nat → Prop} {s : PoolState}

/-- Nobody else uses the workflow's ids. -/
def Alone (workflows : Nat → List Task) (i : Nat) : Prop :=
  ∀ j, j ≠ i → ∀ t ∈ workflows i, ∀ u ∈ workflows j, u.id ≠ t.id

theorem Alone.not_mem (h : Alone workflows i) (ht : t ∈ workflows i) {j : Thread} (hj : j ≠ some i) :
    t.id ∉ idsOf workflows j := by
  intro hmem
  cases j with
  | none   => cases hmem
  | some j =>
    obtain ⟨u, hu, hid⟩ := List.mem_map.1 hmem
    exact h j (fun h => hj (congrArg some h)) t ht u hu hid

theorem unfinished_stable (h : Alone workflows i) (ht : t ∈ workflows i) :
    (joiner workflows (some i)).Stable fun s => Unfinished t.id P s.1 :=
  team_stable fun s e s' he hx _ hg hs => by
    rw [← hx.pre] at hs
    rw [← hx.post]
    exact hg t.id (h.not_mem ht he) P hs

theorem settled_stable (h : Alone workflows i) : (joiner workflows (some i)).Stable (Settled (workflows i)) :=
  fun s s' hrely hs _ ht => unfinished_stable h ht s s' hrely (hs _ ht)

theorem around_stable (h : Alone workflows i) (ht : t ∈ workflows i) :
    (joiner workflows (some i)).Stable (Around (workflows i) t P) :=
  fun s s' hrely hs => ⟨fun _ hu hne => unfinished_stable h hu s s' hrely (hs.others _ hu hne),
    unfinished_stable h ht s s' hrely hs.own⟩

/-- A call about the task leaves the other tasks' futures in the table. -/
theorem Around.step (ht : t ∈ workflows i) {a : Call} (ha : a.Within [t.id]) {s' : PoolState} {r : a.Res}
    (hs : Around (workflows i) t P s) (hstep : (joiner workflows (some i)).step a s r s') :
    (joiner workflows (some i)).guar s s' ∧ ∃ c, Call.exec c a s.1 = some (r, s'.1) ∧
      ∀ P', Unfinished t.id P' s'.1 → Around (workflows i) t P' s' := by
  have hown : t.id ∈ idsOf workflows (some i) := List.mem_map_of_mem ht
  constructor
  · refine guar_within (fun id hid => ?_) hstep
    rw [List.mem_singleton.1 (ha id hid)]
    exact hown
  · obtain ⟨c, -, hexec⟩ := hstep.1
    refine ⟨c, hexec, fun P' hP' => ⟨fun u hu hne => (hs.others u hu hne).frame hexec fun id hid => ?_, hP'⟩⟩
    rw [List.mem_singleton.1 (ha id hid)]
    exact hne.symm

/-- **A call of an attempt**, and the rest where it leads. -/
theorem wp_around (h : Alone workflows i) (ht : t ∈ workflows i) {a : Call} (ha : a.Within [t.id]) {α : Type}
    {f : a.Res → TaskProg α} {Q : Except Failure α → PoolState → Prop} (hs : Around (workflows i) t P s)
    (hcall : ∀ c s₁ r s₂, Unfinished t.id P s₁ → Call.exec c a s₁ = some (r, s₂) → ∃ P', Unfinished t.id P' s₂ ∧
      ∀ s', Around (workflows i) t P' s' → (joiner workflows (some i)).wp (f r) Q s') :
    (joiner workflows (some i)).wp (do_ a >>= f) Q s := by
  refine Proto.wp_call (around_stable h ht) hs fun s₁ r s₂ h₁ hstep => ?_
  obtain ⟨hguar, c, hexec, hnext⟩ := h₁.step ht ha hstep
  obtain ⟨P', hP', hrest⟩ := hcall c s₁.1 r s₂.1 h₁.own hexec
  exact ⟨hguar, hrest s₂ (hnext P' hP')⟩

theorem Around.mono {ts : List Task} {P' : Nat → Option Nat → Prop} (h : Around ts t P s) (hP : ∀ f o, P f o → P' f o) :
    Around ts t P' s := ⟨h.others, h.own.mono hP⟩

theorem Around.of_free {ts : List Task} (h : Around ts t Free s) : Around ts t P s := h.mono fun _ _ hf => hf.elim

/-- A call that submits and stores nothing. -/
def Call.Clears (t : Task) (a : Call) : Prop := a.about = none ∨ a = .remove t.id

theorem Call.Clears.within {a : Call} (ha : a.Clears t) : a.Within [t.id] := by
  intro id hid
  rcases ha with ha | rfl
  · rw [ha] at hid
    cases hid
  · cases hid
    exact List.mem_singleton_self _

/-- After the future is done. -/
theorem clears_keeps (h : Alone workflows i) (ht : t ∈ workflows i) {α : Type} {p : TaskProg α}
    (hp : p.Only (Call.Clears t)) : (joiner workflows (some i)).Keeps (Around (workflows i) t Free) p := by
  refine Proto.Keeps.only (around_stable h ht) (fun a ha s r s' hs hstep => ?_) hp
  obtain ⟨hguar, c, hexec, hnext⟩ := hs.step ht ha.within hstep
  refine ⟨hguar, hnext Free ?_⟩
  rcases ha with ha | rfl
  · exact hs.own.frame hexec fun id hid => by rw [ha] at hid; cases hid
  · have hs' : { s.1 with inflight := s.1.inflight.pop t.id } = s'.1 := congrArg Prod.snd (Option.some.inj hexec)
    rw [← hs']
    exact hs.own

section
variable {future : Nat} {α : Type} {Q : Except Failure α → PoolState → Prop}

theorem wp_result (h : Alone workflows i) (ht : t ∈ workflows i) {timeout : Option Int} {f : Answer → TaskProg α}
    (hs : Around (workflows i) t (Stored future) s)
    (hdone : ∀ r s', Around (workflows i) t Free s' → (joiner workflows (some i)).wp (f r) Q s')
    (hlong : ∀ seconds, timeout = some seconds → timeoutMax < seconds → ∀ s', Around (workflows i) t (Stored future) s' →
      (joiner workflows (some i)).wp (f (.error .overflow)) Q s')
    (hlate : ∀ seconds, timeout = some seconds → ∀ msg traits s', Around (workflows i) t (Stored future) s' →
      (joiner workflows (some i)).wp (f (.error (.timeout msg traits))) Q s') :
    (joiner workflows (some i)).wp (do_ (.result future timeout) >>= f) Q s := by
  refine wp_around h ht (a := .result future timeout) (Call.Clears.within (.inl rfl)) hs fun c s₁ r s₂ h₁ hexec => ?_
  obtain ⟨x, hx, hr⟩ := Option.map_eq_some_iff.1 hexec
  cases hr
  rcases Shared.live_result hx with hlive | ⟨seconds, rfl, ⟨hseconds, rfl⟩ | ⟨msg, traits, rfl⟩⟩
  · exact ⟨Free, h₁.done (fun _ _ hg => hg.1) hlive, hdone r⟩
  · exact ⟨_, h₁, hlong seconds rfl hseconds⟩
  · exact ⟨_, h₁, hlate seconds rfl msg traits⟩

theorem wp_done (h : Alone workflows i) (ht : t ∈ workflows i) {f : Bool → TaskProg α}
    (hs : Around (workflows i) t P s) (hP : ∀ g o, P g o → g = future)
    (hdone : ∀ s', Around (workflows i) t Free s' → (joiner workflows (some i)).wp (f true) Q s')
    (hlive : ∀ s', Around (workflows i) t P s' → (joiner workflows (some i)).wp (f false) Q s') :
    (joiner workflows (some i)).wp (do_ (.done future) >>= f) Q s := by
  refine wp_around h ht (a := .done future) (Call.Clears.within (.inl rfl)) hs fun c s₁ r s₂ h₁ hexec => ?_
  obtain ⟨hr, hs₂⟩ := Prod.mk.inj (Option.some.inj hexec)
  subst hs₂
  cases r with
  | true  => exact ⟨Free, h₁.done hP (Option.isNone_iff_eq_none.1 hr), hdone⟩
  | false => exact ⟨_, h₁, hlive⟩

theorem wp_cancel (h : Alone workflows i) (ht : t ∈ workflows i) {f : Bool → TaskProg α}
    (hs : Around (workflows i) t (Stored future) s)
    (hcancelled : ∀ s', Around (workflows i) t Free s' → (joiner workflows (some i)).wp (f true) Q s')
    (hlive : ∀ s', Around (workflows i) t (Stored future) s' → (joiner workflows (some i)).wp (f false) Q s') :
    (joiner workflows (some i)).wp (do_ (.cancel future) >>= f) Q s := by
  refine wp_around h ht (a := .cancel future) (Call.Clears.within (.inl rfl)) hs fun c s₁ r s₂ h₁ hexec => ?_
  have h₂ := h₁.frame hexec fun _ hid => by cases hid
  cases r with
  | true  =>
    have hlive := Shared.live_of_cancelled (Shared.phase_cancel (Option.some.inj hexec))
    exact ⟨Free, h₂.done (fun _ _ hg => hg.1) hlive, hcancelled⟩
  | false => exact ⟨_, h₂, hlive⟩

end

/-- An attempt starts its own execute, and waits for it no longer than the platform can when its join is unbounded. -/
structure Waits (t : Task) : Prop where
  executor : t.executor ≠ none
  bounded  : t.roundTimeoutJoin ≤ 0 → t.roundTimeout ≤ timeoutMax

/-- The attempt's future, when the task's join is bounded. -/
def Left (t : Task) (future : Nat) (f : Nat) (entry : Option Nat) : Prop := Stored future f entry ∧ 0 < t.roundTimeoutJoin

theorem clears_leaves (h : Alone workflows i) (ht : t ∈ workflows i) {future : Nat} {α : Type} {p : TaskProg α}
    (hp : p.Only (Call.Clears t)) (hs : Around (workflows i) t Free s) :
    (joiner workflows (some i)).wp p (fun _ => Around (workflows i) t (Left t future)) s :=
  Proto.wp_mono (fun _ _ hs => hs.of_free) _ _ (clears_keeps h ht hp s hs)

/-- **The join** ends with the future done, or stored while it is bounded: a wait without a bound is neither refused nor
runs out. -/
theorem join_around (h : Alone workflows i) (ht : t ∈ workflows i) {future : Nat}
    (hs : Around (workflows i) t (Stored future) s) : (joiner workflows (some i)).wp (join t future)
      (fun _ => Around (workflows i) t (Left t future)) s := by
  have hclears : (join t future).Only (Call.Clears t) := join_only fun _ => .inl rfl
  have hbounded : ∀ {seconds s}, (if 0 < t.roundTimeoutJoin then some t.roundTimeoutJoin else none) = some seconds →
      Around (workflows i) t (Stored future) s → Around (workflows i) t (Left t future) s := by
    intro seconds s hjoin hs
    refine hs.mono fun _ _ hf => ⟨hf, ?_⟩
    by_contra hno
    rw [if_neg hno] at hjoin
    cases hjoin
  refine wp_result h ht hs (fun r s hs => ?_) (fun seconds hjoin _ s hs => ?_) fun seconds hjoin msg traits s hs => ?_
  · exact clears_leaves h ht (hclears.2 r) hs
  · exact hbounded hjoin hs
  · exact hbounded hjoin hs

/-- **The wait** ends with the future done, or stored while its task's join is bounded. -/
theorem wait_around (h : Alone workflows i) (ht : t ∈ workflows i) (hwaits : Waits t) {future : Nat}
    (hs : Around (workflows i) t (Stored future) s) : (joiner workflows (some i)).wp (wait t future)
      (fun _ => Around (workflows i) t (Left t future)) s := by
  have hagain : ((do_ (.result future none)).bind Prog.ofExcept).Only (Call.Clears t) :=
    .bind (.call (.inl rfl)) fun _ => .ofExcept _
  have hwait : (wait t future).Only (Call.Clears t) := wait_only (fun _ => .inl rfl) (.inl rfl) (.inl rfl) (.inr rfl)
  -- an executor's own TimeoutError goes the way of a wait that ran out, with the future done
  refine wp_result h ht hs (fun r s hs => clears_leaves h ht (hwait.2 r) hs) (fun seconds hseconds hlong s hs => ?_)
    fun _ _ msg traits s hs => ?_
  · -- a refused wait leaves the future to a bounded join
    obtain rfl := Option.some.inj hseconds
    exact hs.mono fun _ _ hf => ⟨hf, Int.not_le.1 fun hjoin => Int.not_le.2 hlong (hwaits.bounded hjoin)⟩
  refine wp_done h ht hs (fun _ _ hg => hg.1) (fun s hs => clears_leaves h ht hagain hs) fun s hs => ?_
  refine wp_cancel h ht hs (fun s hs => ?_) fun s hs => ?_
  · exact clears_leaves h ht (.bind (.call (.inr rfl)) fun _ => .raise _) hs
  · refine wp_done h ht hs (fun _ _ hg => hg.1) (fun s hs => clears_leaves h ht hagain hs) fun s hs => ?_
    exact join_around h ht hs

/-- **Every attempt** of a workflow leaves its tasks' unfinished futures in the table. -/
theorem executeOnce_keeps_settled (h : Alone workflows i) (hdistinct : ((workflows i).map Task.id).Nodup)
    (ht : t ∈ workflows i) (hwaits : Waits t) :
    (joiner workflows (some i)).Keeps (Settled (workflows i)) (executeOnce t) := by
  intro s hs
  have hsettled : ∀ (r : Except Failure Value) (s : PoolState), Around (workflows i) t (InTable t) s →
      Settled (workflows i) s := by
    intro r s hs u hu
    by_cases hid : u.id = t.id
    · obtain rfl := List.inj_on_of_nodup_map hdistinct hu ht hid
      exact hs.own
    · exact hs.others u hu hid
  refine Proto.wp_mono hsettled _ s ?_
  have hs : Around (workflows i) t (InTable t) s := ⟨fun u hu _ => hs u hu, hs t ht⟩
  have hclear : ∀ {α : Type} {p : TaskProg α} {s : PoolState}, p.Only (Call.Clears t) → Around (workflows i) t Free s →
      (joiner workflows (some i)).wp p (fun _ => Around (workflows i) t (InTable t)) s := by
    intro α p s hp hs
    exact Proto.wp_mono (fun _ _ hs => hs.of_free) _ _ (clears_keeps h ht hp s hs)
  have hwithin : ∀ {a : Call}, a.about = some t.id → a.Within [t.id] := by
    intro a ha id hid
    rw [ha] at hid
    cases hid
    exact List.mem_singleton_self _
  unfold executeOnce
  rw [if_neg hwaits.executor]
  by_cases htimeout : t.roundTimeout ≤ 0
  · rw [if_pos htimeout]
    refine wp_around h ht (a := .execute t) (Call.Clears.within (.inl rfl)) hs fun c s₁ r s₂ h₁ hexec => ?_
    refine ⟨InTable t, h₁.frame hexec ?_, Proto.Keeps.ofExcept r⟩
    rintro _ ⟨⟩
  · rw [if_neg htimeout]
    refine wp_around h ht (a := .check t.id) (hwithin rfl) hs fun c s₁ r s₂ h₁ hexec => ?_
    cases r with
    | true  => exact ⟨_, h₁.blocked (Option.some.inj hexec), fun s hs => hs⟩
    | false =>
      refine ⟨Free, h₁.check (fun _ _ hf => hf.1) (Option.some.inj hexec), fun s hs => ?_⟩
      refine wp_around h ht (a := .submit t) (hwithin rfl) hs fun c s₁ future s₂ h₁ hexec => ?_
      refine ⟨fun f _ => f = future, h₁.submit hexec, fun s hs => ?_⟩
      refine wp_around h ht (a := .store t.id future) (hwithin rfl) hs fun c s₁ _ s₂ h₁ hexec => ?_
      refine ⟨Stored future, h₁.store hexec, fun s hs => ?_⟩
      refine Proto.wp_try (wait_around h ht hwaits hs) fun answer s hs => ?_
      refine wp_done h ht hs (fun _ _ hg => hg.1.1) (fun s hs => ?_) fun s hs => ?_
      · exact hclear (.bind (.call (.inr rfl)) fun _ => .ofExcept answer) hs
      · refine Proto.Keeps.ofExcept answer s (hs.mono fun f o hf => ?_)
        exact ⟨hf.1.1 ▸ hf.1.2, hf.2⟩

theorem sleep_keeps_settled (h : Alone workflows i) (d : Int) :
    (joiner workflows (some i)).Keeps (Settled (workflows i)) (do_ (.sleep d)) := by
  refine Proto.Keeps.call (settled_stable h) fun s r s' hs hstep => ⟨guar_within ?_ hstep, ?_⟩
  · rintro _ ⟨⟩
  · obtain ⟨c, -, hexec⟩ := hstep.1
    have hsame : s.1 = s'.1 := congrArg Prod.snd (Option.some.inj hexec)
    intro t ht
    rw [← hsame]
    exact hs t ht

theorem run_keeps_settled (h : Alone workflows i) (hdistinct : ((workflows i).map Task.id).Nodup)
    (hwaits : ∀ t ∈ workflows i, Waits t) :
    (joiner workflows (some i)).Keeps (Settled (workflows i)) (run (workflows i)) :=
  run_built (Proto.Keeps.closed _) (fun t ht => executeOnce_keeps_settled h hdistinct ht (hwaits t ht))
    fun t _ => sleep_keeps_settled h t.retryDelay

/-- **When the run has ended**, its tasks' unfinished futures are in the table. -/
theorem settled_of_finished (h : Alone workflows i) (hdistinct : ((workflows i).map Task.id).Nodup)
    (hwaits : ∀ t ∈ workflows i, Waits t) (steps : Nat) {c : Conf Thread Call Call.Res Failure Unit PoolState}
    (hr : Conf.Runs (sem.logged fun _ _ => True) (poolRun workflows steps) c) {r : Except Failure Unit}
    (hf : (c.prog (some i)).finished = some r) : Settled (workflows i) c.state := by
  have hwp : ∀ j, (joiner workflows j).wp ((poolRun workflows steps).prog j)
      (fun _ s => j = some i → Settled (workflows i) s) (poolRun workflows steps).state := by
    intro j
    by_cases hj : j = some i
    · subst hj
      have hinit : Settled (workflows i) (poolRun workflows steps).state := by
        intro t _ f hlive
        cases hlive
      have hkeeps := (run_keeps_settled h hdistinct hwaits).bind fun _ => Proto.Keeps.ret ()
      exact Proto.wp_mono (fun _ _ hs _ => hs) _ _ (hkeeps _ hinit)
    · have honly : ((poolRun workflows steps).prog j).Only (Call.Within (idsOf workflows j)) := by
        cases j with
        | none   => exact works_within _ steps
        | some j => exact (run_within (workflows j)).bind fun _ => .ret ()
      exact Proto.wp_mono (fun _ _ _ hji => absurd hji hj) _ _ (only_keeps_true honly _ trivial)
  have hheld := (Conf.Held.init hwp).runs team_compat hr
  exact hheld.post hf (fun s s' hrely hs hi => settled_stable h s s' hrely (hs hi)) rfl

theorem Settled.joined {ts : List Task} (h : Settled ts s) (ht : t ∈ ts) : Joined s.1 t := by
  constructor
  · intro hjoin f hf
    exact Int.not_lt.2 hjoin (h t ht f hf).2
  · intro f g hf hg
    exact Option.some.inj ((h t ht f hf).1.symm.trans (h t ht g hg).1)

end

/-! ## What an attempt answers -/

section
variable {t : Task} {l : List (Sigma Call.Res)} {v : Value}

theorem ends_result {future : Nat} {timeout : Option Int} {r : Answer}
    (h : ((do_ (.result future timeout)).bind Prog.ofExcept : TaskProg Value).Ends l r) :
    l = [⟨.result future timeout, r⟩] := by
  obtain ⟨x, l', rfl, hx⟩ := Prog.ends_do.1 h
  obtain ⟨rfl, rfl⟩ := Prog.ends_ofExcept.1 hx
  rfl

/-- A join returns nothing. -/
theorem not_ends_join {future : Nat} (h : (join t future).Ends l (.ok v)) : False := by
  obtain ⟨x, l₁, rfl, h₁⟩ := Prog.ends_do.1 h
  have hlogged : ∀ {e : Failure}, ((logged e).bind fun _ => Prog.raise (stillRunning t) : TaskProg Value).Ends l₁ (.ok v) →
      False := by
    intro e he
    rcases Prog.ends_bind.1 he with ⟨_, hr, -⟩ | ⟨_, l₂, l₃, -, -, hraise⟩
    · cases hr
    · cases (Prog.ends_raise.1 hraise).2
  cases x with
  | ok w => cases (Prog.ends_raise.1 h₁).2
  | error e =>
    cases e with
    | timeout _ _ => cases (Prog.ends_raise.1 h₁).2
    | cancelled | overflow | broken | raised _ _ => exact hlogged h₁

/-- A wait that returns a value had it from the future. -/
theorem ends_wait {future : Nat} (h : (wait t future).Ends l (.ok v)) :
    ∃ timeout, (⟨.result future timeout, .ok v⟩ : Sigma Call.Res) ∈ l := by
  have again : ∀ {l : List (Sigma Call.Res)} {timeout : Option Int},
      ((do_ (.result future timeout)).bind Prog.ofExcept : TaskProg Value).Ends l (.ok v) →
      (⟨.result future timeout, .ok v⟩ : Sigma Call.Res) ∈ l := by
    intro l timeout hl
    rw [ends_result hl]
    exact List.mem_singleton_self _
  obtain ⟨x, l₁, rfl, h₁⟩ := Prog.ends_do.1 h
  cases x with
  | ok w =>
    obtain ⟨rfl, hv⟩ := Prog.ends_ret.1 h₁
    cases hv
    exact ⟨_, List.mem_cons_self⟩
  | error e =>
    cases e with
    | cancelled | overflow | broken | raised _ _ => cases (Prog.ends_raise.1 h₁).2
    | timeout _ _ =>
      obtain ⟨done, l₂, rfl, h₂⟩ := Prog.ends_do.1 h₁
      cases done with
      | true  => exact ⟨none, by simp [again h₂]⟩
      | false =>
        obtain ⟨cancelled, l₃, rfl, h₃⟩ := Prog.ends_do.1 h₂
        cases cancelled with
        | true  =>
          obtain ⟨_, l₄, rfl, h₄⟩ := Prog.ends_do.1 h₃
          cases (Prog.ends_raise.1 h₄).2
        | false =>
          obtain ⟨done, l₄, rfl, h₄⟩ := Prog.ends_do.1 h₃
          cases done with
          | true  => exact ⟨none, by simp [again h₄]⟩
          | false => exact (not_ends_join h₄).elim

/-- An attempt that returns a value had it from its execute. -/
theorem ends_executeOnce (hexecutor : t.executor ≠ none) (h : (executeOnce t).Ends l (.ok v)) :
    (⟨.execute t, .ok v⟩ : Sigma Call.Res) ∈ l ∨ ∃ future timeout,
      (⟨.submit t, future⟩ : Sigma Call.Res) ∈ l ∧ (⟨.result future timeout, .ok v⟩ : Sigma Call.Res) ∈ l := by
  unfold executeOnce at h
  rw [if_neg hexecutor] at h
  by_cases htimeout : t.roundTimeout ≤ 0
  · rw [if_pos htimeout] at h
    obtain ⟨x, l₁, rfl, hx⟩ := Prog.ends_do.1 h
    obtain ⟨rfl, hr⟩ := Prog.ends_ofExcept.1 hx
    rw [← hr]
    exact .inl List.mem_cons_self
  · rw [if_neg htimeout] at h
    obtain ⟨blocked, l₁, rfl, h₁⟩ := Prog.ends_do.1 h
    cases blocked with
    | true  => cases (Prog.ends_raise.1 h₁).2
    | false =>
      obtain ⟨future, l₂, rfl, h₂⟩ := Prog.ends_do.1 h₁
      obtain ⟨_, l₃, rfl, h₃⟩ := Prog.ends_do.1 h₂
      obtain ⟨answer, l₄, l₅, rfl, hwait, h₅⟩ := Prog.ends_try.1 h₃
      -- the removal at the end does not change the answer
      have hanswer : answer = .ok v := by
        obtain ⟨done, l₆, rfl, h₆⟩ := Prog.ends_do.1 h₅
        cases done with
        | true  =>
          obtain ⟨_, l₇, rfl, h₇⟩ := Prog.ends_do.1 h₆
          exact (Prog.ends_ofExcept.1 h₇).2.symm
        | false => exact (Prog.ends_ofExcept.1 h₆).2.symm
      subst hanswer
      obtain ⟨timeout, hresult⟩ := ends_wait hwait
      refine .inr ⟨future, timeout, by simp, ?_⟩
      simp only [List.mem_cons, List.mem_append]
      exact .inr (.inr (.inr (.inl hresult)))

end

/-! ## Every run -/

section
variable {workflows : Nat → List Task} {steps : Nat} {c : Conf Thread Call Call.Res Failure Unit PoolState}

/-- An event with the call and the answer, and the step it is. -/
theorem event_of_call (hr : Conf.Runs (sem.logged fun _ _ => True) (poolRun workflows steps) c) {j : Thread} {a : Call}
    {r : a.Res} (hc : (⟨a, r⟩ : Sigma Call.Res) ∈ callsOf j c.state.2) :
    ∃ e ∈ c.state.2, ∃ ch, Call.exec ch a e.pre = some (r, e.post) := by
  obtain ⟨e, he, -, hcall⟩ := mem_callsOf hc
  obtain ⟨ch, -, hexec⟩ := hr.events rfl e he
  refine ⟨e, he, ch, ?_⟩
  obtain ⟨thread, act, res, pre, post⟩ := e
  cases hcall
  exact hexec

/-- A future whose `cancel` was granted was never started and never will be. -/
theorem never_started (hr : Conf.Runs (sem.logged fun _ _ => True) (poolRun workflows steps) c) {j : Thread} {f : Nat}
    (hc : (⟨.cancel f, true⟩ : Sigma Call.Res) ∈ callsOf j c.state.2) : NeverStarted c.state f := by
  have hnow : ∃ x, c.state.1.futures[f]? = some x ∧ x.phase = .cancelled := by
    obtain ⟨e, he, ch, hexec⟩ := event_of_call hr hc
    obtain ⟨t, ht⟩ := Shared.phase_eq_some (Shared.phase_cancel (Option.some.inj hexec))
    refine kept_of_event (T := fun x => x.phase = .cancelled) (fun x y hx hm => ?_) rfl hr he ht rfl
    cases hm <;> cases hx
  obtain ⟨x, hx, hcancelled⟩ := hnow
  constructor
  · rw [Shared.phase, hx, Option.map_some, hcancelled]
  · intro e he p hp hstarted
    obtain ⟨t, ht⟩ := Shared.phase_eq_some hp
    obtain ⟨y, hy, hys⟩ : ∃ y, c.state.1.futures[f]? = some y ∧ y.phase.Started := by
      refine kept_of_event (T := fun x => x.phase.Started) (fun x y hx hm => ?_) rfl hr he ht hstarted
      cases hm
      · trivial
      · trivial
      · exact hx
    obtain rfl := Option.some.inj (hx.symm.trans hy)
    rw [hcancelled] at hys
    exact hys

/-- **A value that an attempt returns** is what its own execute answered. -/
theorem answered_of_ends (hr : Conf.Runs (sem.logged fun _ _ => True) (poolRun workflows steps) c) {j : Thread}
    {before l after : List (Sigma Call.Res)} {t : Task} {v : Value} (hexecutor : t.executor ≠ none)
    (hl : callsOf j c.state.2 = before ++ l ++ after) (hends : (executeOnce t).Ends l (.ok v)) : Answered t l v c.state.1 := by
  have hmem : ∀ x ∈ l, x ∈ callsOf j c.state.2 := by
    intro x hx
    rw [hl]
    exact List.mem_append_left _ (List.mem_append_right _ hx)
  rcases ends_executeOnce hexecutor hends with hexecute | ⟨f, timeout, hsubmit, hresult⟩
  · exact .inl hexecute
  · refine .inr ⟨f, hsubmit, ?_⟩
    obtain ⟨x, hx, htask⟩ : ∃ x, c.state.1.futures[f]? = some x ∧ x.task = t := by
      obtain ⟨e, he, ch, hexec⟩ := event_of_call hr (hmem _ hsubmit)
      obtain ⟨hf, hpost⟩ := Prod.mk.inj (Option.some.inj hexec)
      have hnew : e.post.futures[f]? = some ⟨t, .queued⟩ := by
        rw [← hpost, ← hf]
        exact List.getElem?_concat_length
      refine kept_of_event (T := fun x => x.task = t) (fun x y hx hm => ?_) rfl hr he hnew rfl
      cases hm <;> exact hx
    obtain ⟨y, hy, hphase⟩ : ∃ y, c.state.1.futures[f]? = some y ∧ y.phase = .finished (.ok v) := by
      obtain ⟨e, he, ch, hexec⟩ := event_of_call hr (hmem _ hresult)
      obtain ⟨x, hanswer, hstep⟩ := Option.map_eq_some_iff.1 hexec
      obtain ⟨rfl, hpre⟩ := Prod.mk.inj hstep
      rw [hpre] at hanswer
      obtain ⟨u, hu⟩ := Shared.phase_of_result hanswer
      refine kept_of_event (T := fun x => x.phase = .finished (.ok v)) (fun x y hx hm => ?_) rfl hr he hu rfl
      cases hm <;> cases hx
    obtain rfl := Option.some.inj (hx.symm.trans hy)
    rw [hx, ← htask, ← hphase]

/-- What a workflow's thread leaves in a run: its tasks joined when its `run` has returned or raised, no execute of a future
whose cancel was granted, and of each of its attempts that returned a value that attempt's own answer. -/
structure JoinGuarantee (workflows : Nat → List Task) (i : Nat)
    (c : Conf Thread Call Call.Res Failure Unit PoolState) : Prop where
  joined    : ∀ r, (c.prog (some i)).finished = some r → ∀ t ∈ workflows i, Joined c.state.1 t
  cancelled : ∀ f, (⟨.cancel f, true⟩ : Sigma Call.Res) ∈ callsOf (some i) c.state.2 → NeverStarted c.state f
  values    : ∀ before l after t v, t ∈ workflows i → callsOf (some i) c.state.2 = before ++ l ++ after →
    (executeOnce t).Ends l (.ok v) → Answered t l v c.state.1

/-- **Join guarantee**: whatever the pool and the other workflows do, and whatever the executes answer. -/
theorem join_guarantee (workflows : Nat → List Task) (steps i : Nat) (h : Alone workflows i)
    (hdistinct : ((workflows i).map Task.id).Nodup) (hwaits : ∀ t ∈ workflows i, Waits t)
    (hr : Conf.Runs (sem.logged fun _ _ => True) (poolRun workflows steps) c) : JoinGuarantee workflows i c where
  joined _ hf _ ht             := (settled_of_finished h hdistinct hwaits steps hr hf).joined ht
  cancelled _ hc               := never_started hr hc
  values _ _ _ t _ ht hl hends := answered_of_ends hr (hwaits t ht).executor hl hends

end

/-- An optional task that is joined without a bound, and one that is joined for a second. -/
def joinTasks : List Task :=
  [{ copyTask with optional := true }, { copyTask with id := "u", roundTimeoutJoin := 1 }]

def joinRun : Conf Thread Call Call.Res Failure Unit PoolState := poolRun (fun i => if i = 0 then joinTasks else []) 4

/-- Both waits run out; the first execute is joined, and the second is left running when `run` raises. -/
theorem join_guarantee_two_tasks : ∃ c, Conf.Runs (sem.logged fun _ _ => True) joinRun c ∧
    (c.prog (some 0)).finished.isSome = true ∧ c.state.1.live 0 = none ∧ c.state.1.live 1 = some "u" ∧
    JoinGuarantee (fun i => if i = 0 then joinTasks else []) 0 c := by
  have hrun : ∃ c, Conf.Runs (sem.logged fun _ _ => True) joinRun c ∧
      (c.prog (some 0)).finished.isSome = true ∧ c.state.1.live 0 = none ∧ c.state.1.live 1 = some "u" :=
    Conf.exists_runs (calls 3 0 ++ [(none, .start 0)] ++ calls 4 0 ++ [(none, .finish 0 (.ok (some 7)))] ++ calls 3 0 ++ calls 3 0 ++
      [(none, .start 1)] ++ calls 6 0) (fun _ _ _ _ => trivial) (by decide +kernel)
  obtain ⟨c, hrun, hfinished, hfirst, hsecond⟩ := hrun
  refine ⟨c, hrun, hfinished, hfirst, hsecond, join_guarantee _ 4 0 ?_ (by decide) ?_ hrun⟩
  · intro j hj t _ u hu
    simp only [if_neg hj] at hu
    cases hu
  · intro t ht
    simp only [if_pos, joinTasks, List.mem_cons, List.not_mem_nil, or_false] at ht
    rcases ht with rfl | rfl
    · exact ⟨by decide, by decide⟩
    · exact ⟨by decide, by decide⟩

/-- A task whose wait no platform takes. -/
def longTask : Task := { copyTask with roundTimeout := 10000000000 }

def longTasks (i : Nat) : List Task := if i = 0 then [longTask] else []

/-- **A refused wait leaves its execute running**: the constructor takes the task, its first wait is refused, and `run` has
raised while the pool still executes. -/
theorem refused_wait_leaves_execute : longTask.rejected = none ∧ longTask.roundTimeoutJoin = 0 ∧ Alone longTasks 0 ∧
    ((longTasks 0).map Task.id).Nodup ∧ ∃ c, Conf.Runs (sem.logged fun _ _ => True) (poolRun longTasks 1) c ∧
      (c.prog (some 0)).finished = some (.error .overflow) ∧ (c.state.1.running "t").length = 1 ∧
      ¬ JoinGuarantee longTasks 0 c := by
  refine ⟨by decide, rfl, ?_, by decide, ?_⟩
  · intro j hj t _ u hu
    rw [longTasks, if_neg hj] at hu
    cases hu
  · have hrun : ∃ c, Conf.Runs (sem.logged fun _ _ => True) (poolRun longTasks 1) c ∧
        (c.prog (some 0)).finished = some (.error .overflow) ∧ (c.state.1.running "t").length = 1 ∧
        c.state.1.live 0 = some "t" :=
      Conf.exists_runs (calls 3 0 ++ [(none, .start 0)] ++ calls 2 0) (fun _ _ _ _ => trivial) (by decide +kernel)
    obtain ⟨c, hrun, hfinished, hrunning, hlive⟩ := hrun
    refine ⟨c, hrun, hfinished, hrunning, fun hjoin => ?_⟩
    exact (hjoin.joined _ hfinished longTask (List.mem_singleton_self _)).unbounded (by decide) 0 hlive

end SoftTimeout
end Pypepper
