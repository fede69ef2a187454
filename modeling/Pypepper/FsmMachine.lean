import Pypepper.CodePoints
import Pypepper.Job
/-!
# FsmMachine — the event-triggered state machine

`fsm/fsm.py`: a table of targets by transition key, built from the listed transitions, and the current state.  A handler is
a value of its own type, and what its call does is the caller's world's (`Runtime`): it returns, raises an `Exception`, or
raises what no `except Exception` catches.
-/
namespace Pypepper
namespace Fsm

/-- The fields of an event's data that a key is built of. -/
structure EventData where
  flow : Py.Str
  name : Py.Str
  deriving DecidableEq

/-- A state object; several may have one value. -/
structure State where
  ref   : Nat
  value : Py.Str
  deriving DecidableEq

/-- What a key is built of. -/
structure Triple where
  flow      : Py.Str
  name      : Py.Str
  fromState : Py.Str
  deriving DecidableEq

structure Transition (H C : Type) where
  event     : EventData
  fromState : List State
  toState   : State
  handler   : Option H := none
  context   : Option C := none

structure Options (H C : Type) where
  initial     : State
  transitions : List (Transition H C)

structure Target (H C : Type) where
  state   : State
  handler : Option H
  context : Option C

/-- How a call of a handler ends. -/
inductive Outcome (V E B : Type) where
  | returns (v : V)
  | raises (e : E)
  | exits (b : B)

inductive Error (E : Type) where
  | internal (msg : String)
  | handler (e : E)

structure Response (V E : Type) where
  state              : State
  error              : Option (Error E)
  eventHandlerResult : Option V := none
  transitionResult   : Option V := none

/-- What `on` raises itself. -/
inductive Raised (B : Type) where
  | internal (msg : String)
  | exits (b : B)

/-- The world of the handlers: a call, with a context or without, and whether a context is true. -/
structure Runtime (H C W V E B : Type) where
  call   : H → Option C → W → Outcome V E B × W
  truthy : C → W → Bool

structure FSM (H C : Type) where
  current     : Option State
  transitions : Py.Dict String (Target H C)

def triple (event : EventData) (fromState : State) : Triple := ⟨event.flow, event.name, fromState.value⟩

def Triple.key (t : Triple) : String :=
  Py.Str.dumpsStrs [("flow", t.flow), ("name", t.name), ("from_state", t.fromState)]

def buildTransitionKey (event : EventData) (fromState : State) : String := (triple event fromState).key

section
variable {H C W V E B : Type}

def Transition.target (tr : Transition H C) : Target H C := ⟨tr.toState, tr.handler, tr.context⟩

/-- The entries of one listed transition. -/
def register (table : Py.Dict String (Target H C)) (tr : Transition H C) : Py.Dict String (Target H C) :=
  tr.fromState.foldl (fun d from_ => d.set (buildTransitionKey tr.event from_) tr.target) table

def table (transitions : List (Transition H C)) : Py.Dict String (Target H C) :=
  transitions.foldl register Py.Dict.empty

/-- `FSM.__init__`. -/
def FSM.new (options : Options H C) : FSM H C := ⟨some options.initial, table options.transitions⟩

/-- `handler(context) if context else handler()`, when there is a handler. -/
def Runtime.run (rt : Runtime H C W V E B) (handler : Option H) (context : Option C) (w : W) :
    Outcome (Option V) E B × W :=
  match handler with
  | none   => (.returns none, w)
  | some h =>
    match rt.call h (context.filter fun c => rt.truthy c w) w with
    | (.returns v, w) => (.returns (some v), w)
    | (.raises e, w)  => (.raises e, w)
    | (.exits b, w)   => (.exits b, w)

namespace FSM

variable (rt : Runtime H C W V E B)

/-- `FSM.on`, which is `_transition`. -/
def on (m : FSM H C) (event : EventData) (handler : Option H) (context : Option C) (w : W) :
    Except (Raised B) (Response V E) × FSM H C × W :=
  match m.current with
  | none      => (.error (.internal errorInvalidEvent), m, w)
  | some prev =>
    match m.transitions.get (buildTransitionKey event prev) with
    | none        => (.ok { state := prev, error := some (.internal errorInvalidEvent) }, m, w)
    | some target =>
      let moved := { m with current := some target.state }
      match rt.run target.handler target.context w with
      | (.exits b, w)  => (.error (.exits b), moved, w)
      | (.raises e, w) =>
        (.ok { state := prev, error := some (.handler e) }, { moved with current := some prev }, w)
      | (.returns v, w) =>
        match rt.run handler context w with
        | (.exits b, w)  => (.error (.exits b), moved, w)
        | (.raises e, w) =>
          (.ok { state := prev, error := some (.handler e), eventHandlerResult := v },
            { moved with current := some prev }, w)
        | (.returns v', w) =>
          (.ok { state := target.state, error := none, eventHandlerResult := v, transitionResult := v' }, moved, w)

def restore (m : FSM H C) (state : Option State) : FSM H C := { m with current := state }

def close (_ : FSM H C) : FSM H C := ⟨none, Py.Dict.empty⟩

end FSM

inductive Call (H C : Type) where
  | on (event : EventData) (handler : Option H) (context : Option C)
  | restore (state : Option State)
  | close

/-- One call on the machine, in the world of its handlers. -/
def step (rt : Runtime H C W V E B) (x : FSM H C × W) : Call H C → FSM H C × W
  | .on event handler context => (x.1.on rt event handler context x.2).2
  | .restore state            => (x.1.restore state, x.2)
  | .close                    => (x.1.close, x.2)

end

end Fsm
end Pypepper
