import Mathlib.Logic.Function.Basic
/-!
# Status — the job lifecycle and its state machine

`scheduler/status.py` and `scheduler/events.py`: the seven statuses with the texts they are stored as, the six events,
the transition table, and the machine's answer to an event (`Fsm.on`).  A state the table does not list for an event
is an invalid event, and the current state stays.
-/
namespace Pypepper

inductive Status where
  | unknown | initializing | scheduled | inProgress | failed | completed | cancelled
  deriving DecidableEq, Repr

namespace Status

/-- The text a status is stored as. -/
def value : Status → String
  | unknown      => "Unknown"
  | initializing => "Initializing"
  | scheduled    => "Scheduled"
  | inProgress   => "InProgress"
  | failed       => "Failed"
  | completed    => "Completed"
  | cancelled    => "Cancelled"

def all : List Status := [unknown, initializing, scheduled, inProgress, failed, completed, cancelled]

/-- `Status(text)`: the status of a stored text. -/
def ofValue (s : String) : Option Status := all.find? (fun st => decide (st.value = s))

def terminal : Status → Bool
  | failed | completed | cancelled => true
  | _                              => false

theorem value_injective : Function.Injective value := by
  intro a b h
  cases a <;> cases b <;> first | rfl | exact absurd h (by decide)

@[simp] theorem value_inj {a b : Status} : a.value = b.value ↔ a = b := value_injective.eq_iff

@[simp] theorem ofValue_value (s : Status) : ofValue s.value = some s := by
  cases s <;> decide

theorem value_of_ofValue {t : String} {s : Status} (h : ofValue t = some s) : s.value = t := by
  simpa using List.find?_some h

end Status

/-- The scheduler's events. -/
inductive Event where
  | init | schedule | run | fail | complete | cancel
  deriving DecidableEq, Repr

/-- One declared transition: an event, the states it leaves, the state it enters. -/
structure Transition where
  event     : Event
  fromState : List Status
  toState   : Status

/-- The declared transitions, `_OPTIONS`. -/
def options : List Transition :=
  [ ⟨.init,     [.unknown],                 .initializing⟩,
    ⟨.schedule, [.initializing],            .scheduled⟩,
    ⟨.run,      [.scheduled],               .inProgress⟩,
    ⟨.fail,     [.inProgress],              .failed⟩,
    ⟨.complete, [.inProgress],              .completed⟩,
    ⟨.cancel,   [.scheduled, .inProgress],  .cancelled⟩ ]

namespace Fsm

/-- The machine's table: one entry for each event and source state, in declaration order. -/
def transitions : List ((Event × Status) × Status) :=
  options.flatMap (fun tr => tr.fromState.map (fun s => ((tr.event, s), tr.toState)))

/-- The target of an event in a state: a later entry of a key overwrites an earlier one. -/
def target (e : Event) (s : Status) : Option Status :=
  (transitions.reverse.find? (fun p => decide (p.1 = (e, s)))).map Prod.snd

/-- **What the machine knows**, read off the table. -/
theorem target_eq (e : Event) (s : Status) :
    target e s = match e, s with
      | .init,     .unknown      => some .initializing
      | .schedule, .initializing => some .scheduled
      | .run,      .scheduled    => some .inProgress
      | .fail,     .inProgress   => some .failed
      | .complete, .inProgress   => some .completed
      | .cancel,   .scheduled    => some .cancelled
      | .cancel,   .inProgress   => some .cancelled
      | _,         _             => none := by
  cases e <;> cases s <;> rfl

/-- **No event leaves a terminal state.** -/
theorem target_terminal (e : Event) (s : Status) (h : s.terminal = true) : target e s = none := by
  cases e <;> cases s <;> first | rfl | cases h

theorem target_run {s t : Status} (h : target .run s = some t) : s = .scheduled ∧ t = .inProgress := by
  rw [target_eq] at h
  cases s <;> simp at h ⊢
  exact h.symm

theorem target_fail {s t : Status} (h : target .fail s = some t) : t = .failed := by
  rw [target_eq] at h
  cases s <;> simp at h ⊢
  exact h.symm

theorem target_complete {s t : Status} (h : target .complete s = some t) : t = .completed := by
  rw [target_eq] at h
  cases s <;> simp at h ⊢
  exact h.symm

theorem target_cancel {s t : Status} (h : target .cancel s = some t) :
    t = .cancelled ∧ (s = .scheduled ∨ s = .inProgress) := by
  rw [target_eq] at h
  cases s <;> simp at h ⊢ <;> exact h.symm

end Fsm
end Pypepper
