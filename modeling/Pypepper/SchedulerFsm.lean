import Pypepper.FsmReference
/-!
# SchedulerFsm — the job's machine is the general one

`build_scheduler_fsm` builds the event-triggered machine from `_OPTIONS`; a job's model keeps its status and `Fsm.target`
in its place.  Through any events and restores the machine shows that status, and refuses an event exactly when the status
has no target for it (`lifecycle_refines`).
-/
namespace Pypepper

theorem charPoint_lt (c : Char) : c.toNat < 0x110000 := c.valid.elim (fun h => Nat.lt_trans h (by decide)) And.right

/-- The text as code points. -/
def codePoints (s : String) : Py.Str := s.toList.map fun c => ⟨c.toNat, charPoint_lt c⟩

/-- The data of a scheduler event: `event.new(name=...)` leaves the flow empty. -/
def Event.data (e : Event) : Fsm.EventData where
  flow := []
  name := codePoints (match e with
    | .init     => "init"
    | .schedule => "schedule"
    | .run      => "run"
    | .fail     => "fail"
    | .complete => "complete"
    | .cancel   => "cancel")

/-- A state object of a status. -/
def Status.state (s : Status) (ref : Nat) : Fsm.State := ⟨ref, codePoints s.value⟩

namespace Fsm

section
variable {H C W V E B : Type}

/-- One of `_OPTIONS`, each state in an object of its own. -/
def schedulerTransition (tr : Pypepper.Transition) : Transition H C where
  event     := tr.event.data
  fromState := tr.fromState.map (Status.state · 0)
  toState   := tr.toState.state 0

def schedulerOptions : Options H C where
  initial     := Status.unknown.state 0
  transitions := Pypepper.options.map schedulerTransition

/-- The machine shows the status. -/
structure Shows (m : FSM H C) (status : Option Status) : Prop where
  table   : m.transitions = table schedulerOptions.transitions
  current : m.current.map State.value = status.map fun s => codePoints s.value

theorem name_utf16_inj {e e' : Event} (h : e.data.name.utf16 = e'.data.name.utf16) : e = e' := by
  cases e <;> cases e' <;> first | rfl | exact absurd h (by decide)

theorem value_utf16_inj {s s' : Status} (h : (codePoints s.value).utf16 = (codePoints s'.value).utf16) : s = s' := by
  cases s <;> cases s' <;> first | rfl | exact absurd h (by decide)

theorem triple_scheduler {t : Triple} (h : t ∈ triples (schedulerOptions : Options H C).transitions) :
    ∃ e s, t = triple (Event.data e) (Status.state s 0) := by
  obtain ⟨tr, htr, ht⟩ := List.mem_flatMap.1 h
  obtain ⟨tr, -, rfl⟩ := List.mem_map.1 htr
  obtain ⟨from_, hfrom, rfl⟩ := List.mem_map.1 ht
  obtain ⟨s, -, rfl⟩ := List.mem_map.1 hfrom
  exact ⟨tr.event, s, rfl⟩

theorem triple_utf16_inj {e e' : Event} {s s' : Status} {ref ref' : Nat}
    (h : (triple e.data (s.state ref)).utf16 = (triple e'.data (s'.state ref')).utf16) : e = e' ∧ s = s' := by
  injection h with _ h
  injection h with hname h
  injection h with hvalue _
  exact ⟨name_utf16_inj hname, value_utf16_inj hvalue⟩

theorem apart_scheduler (e : Event) (s : Status) (ref : Nat) :
    Apart Triple.key (triple e.data (s.state ref) :: triples (schedulerOptions : Options H C).transitions) := by
  have hall : ∀ t ∈ triple e.data (s.state ref) :: triples (schedulerOptions : Options H C).transitions,
      ∃ e s, t = triple (Event.data e) (Status.state s 0) := by
    intro t ht
    rcases List.mem_cons.1 ht with rfl | ht
    · exact ⟨e, s, rfl⟩
    · exact triple_scheduler ht
  refine apart_key.2 fun t ht u hu h => ?_
  obtain ⟨e₁, s₁, rfl⟩ := hall t ht
  obtain ⟨e₂, s₂, rfl⟩ := hall u hu
  obtain ⟨rfl, rfl⟩ := triple_utf16_inj h
  rfl

/-- **The table's target of an event, found by a JSON text, is the status's.** -/
theorem get_scheduler (e : Event) (s : Status) (ref : Nat) :
    (Fsm.table (schedulerOptions : Options H C).transitions).get (buildTransitionKey e.data (s.state ref)) =
      (target e s).map fun t => ⟨t.state 0, none, none⟩ := by
  have htakes : ∀ tr : Pypepper.Transition,
      decide (Reference.Takes e.data (s.state ref) (schedulerTransition tr : Transition H C)) =
        decide (tr.event = e ∧ s ∈ tr.fromState) := by
    intro tr
    rw [decide_eq_decide]
    constructor
    · rintro ⟨hevent, from_, hfrom, hvalue⟩
      obtain ⟨s', hs', rfl⟩ := List.mem_map.1 hfrom
      obtain rfl := value_utf16_inj (congrArg Py.Str.utf16 hvalue)
      exact ⟨name_utf16_inj (congrArg (fun d : EventData => d.name.utf16) hevent), hs'⟩
    · rintro ⟨rfl, hs⟩
      exact ⟨rfl, _, List.mem_map_of_mem hs, rfl⟩
  rw [get_table_of_apart (apart_scheduler e s ref), Reference.lastListed]
  have hfilter : ((schedulerOptions : Options H C).transitions.filter
      fun tr => decide (Reference.Takes e.data (s.state ref) tr)) =
      (Pypepper.options.filter fun tr => decide (tr.event = e ∧ s ∈ tr.fromState)).map schedulerTransition := by
    rw [schedulerOptions, List.filter_map]
    exact congrArg _ (List.filter_congr fun tr _ => htakes tr)
  rw [hfilter]
  cases e <;> cases s <;> rfl

end

/-! ## The job over its machine -/

/-- No transition has a handler. -/
def handlerless : Runtime Empty Empty Unit Unit Empty Empty := ⟨fun h => h.elim, fun c => c.elim⟩

/-- A job's `_fsm` and `status`. -/
structure Lifecycle where
  machine : FSM Empty Empty
  status  : Py.Str

namespace Lifecycle

/-- `Job._current_status`. -/
def currentStatus (m : FSM Empty Empty) : Py.Str := (m.current.map State.value).getD (codePoints Status.unknown.value)

/-- `Job.apply_event`: `_raise_if_transition_failed` raises the response's error. -/
def applyEvent (x : Lifecycle) (e : Event) : Except Exn Unit × Lifecycle :=
  match x.machine.on handlerless e.data none none () with
  | (.error (.internal msg), m, _) => (.error (.internal msg), { x with machine := m })
  | (.ok r, m, _)                  =>
    match r.error with
    | some (.internal msg) => (.error (.internal msg), { x with machine := m })
    | none                 => (.ok (), ⟨m, currentStatus m⟩)

/-- `Job.restore_lifecycle`, to a state object of a status. -/
def restoreLifecycle (x : Lifecycle) (state : Option (Status × Nat)) (status : String) : Lifecycle :=
  ⟨x.machine.restore (state.map fun p => p.1.state p.2), codePoints status⟩

end Lifecycle

/-- The machine and the status are the job's. -/
structure Lifecycle.Of (x : Lifecycle) (j : Job) : Prop where
  shows  : Shows x.machine j.fsm
  status : x.status = codePoints j.status

theorem Shows.exists_state {m : FSM Empty Empty} {s : Status} (h : Shows m (some s)) :
    ∃ ref, m.current = some (s.state ref) := by
  obtain ⟨st, hcur, hvalue⟩ := Option.map_eq_some_iff.1 h.current
  exact ⟨st.ref, hcur.trans (congrArg _ (congrArg (State.mk st.ref) hvalue))⟩

/-- **`apply_event` on the general machine is the job's.** -/
theorem Lifecycle.Of.applyEvent {x : Lifecycle} {j : Job} (h : x.Of j) (e : Event) :
    (x.applyEvent e).1 = (j.applyEvent e).1 ∧ (x.applyEvent e).2.Of (j.applyEvent e).2 := by
  have hshows := h.shows
  unfold Lifecycle.applyEvent Job.applyEvent FSM.on
  cases hj : j.fsm with
  | none =>
    rw [hj] at hshows
    rw [Option.map_eq_none_iff.1 hshows.current]
    exact ⟨rfl, h⟩
  | some s =>
    rw [hj] at hshows
    obtain ⟨ref, hcur⟩ := hshows.exists_state
    rw [hcur]
    dsimp only
    rw [hshows.table, get_scheduler]
    cases ht : target e s with
    | none => exact ⟨rfl, h⟩
    | some t => exact ⟨rfl, ⟨rfl, rfl⟩, rfl⟩

theorem Lifecycle.Of.restoreLifecycle {x : Lifecycle} {j : Job} (h : x.Of j) (state : Option (Status × Nat))
    (status : String) : (x.restoreLifecycle state status).Of { j with fsm := state.map Prod.fst, status := status } where
  shows := ⟨h.shows.table, by cases state <;> rfl⟩
  status := rfl

/-- A call on a job's lifecycle. -/
inductive LifecycleCall where
  | apply (e : Event)
  | restore (state : Option (Status × Nat)) (status : String)

/-- The call on the general machine and on the job, with both answers. -/
def LifecycleCall.both : LifecycleCall → Lifecycle × Job →
    (Except Exn Unit × Except Exn Unit) × Lifecycle × Job
  | .apply e,              (x, j) => (((x.applyEvent e).1, (j.applyEvent e).1), (x.applyEvent e).2, (j.applyEvent e).2)
  | .restore state status, (x, j) =>
    ((.ok (), .ok ()), x.restoreLifecycle state status, { j with fsm := state.map Prod.fst, status := status })

/-- **A job's machine is the general one**: from a new job, through any calls, both answer alike, and the machine shows the
job's status. -/
theorem lifecycle_refines {j : Job} (hfsm : j.fsm = some .unknown) (hstatus : j.status = Status.unknown.value)
    (l : List LifecycleCall) :
    Calls.Each (fun p (c : LifecycleCall) => (c.both p).2) (⟨FSM.new schedulerOptions, codePoints Status.unknown.value⟩, j)
      (fun _ p c => p.1.Of p.2 ∧ (c.both p).1.1 = (c.both p).1.2) l := by
  have hnew : Lifecycle.Of ⟨FSM.new schedulerOptions, codePoints Status.unknown.value⟩ j :=
    ⟨⟨rfl, by rw [hfsm]; rfl⟩, by rw [hstatus]⟩
  refine Calls.each_of_inv (I := fun _ p => p.1.Of p.2) hnew ?_ ?_ l
  · rintro _ ⟨x, j⟩ c h
    cases c with
    | apply e => exact (h.applyEvent e).2
    | restore state status => exact h.restoreLifecycle state status
  · rintro _ ⟨x, j⟩ c h
    cases c with
    | apply e => exact ⟨h, (h.applyEvent e).1⟩
    | restore state status => exact ⟨h, rfl⟩

end Fsm
end Pypepper
