import Pypepper.Calls
import Pypepper.FsmMachine
/-!
# FsmReference — the machine against its reference interpreter

The reference takes the last listed transition for the event and the state's value, and moves when both handlers return.
The machine finds its transition by a JSON text of ASCII characters, which two triples share exactly when they have the
same UTF-16 code units; a handler's exception that is no `Exception` leaves it in the target state.  Over every run it
behaves as the reference exactly when neither happens (`refines_reference_iff`).
-/
namespace Pypepper
namespace Fsm

/-! ## Keys -/

/-- The code units of a triple's strings. -/
def Triple.utf16 (t : Triple) : List (List Nat) := [t.flow.utf16, t.name.utf16, t.fromState.utf16]

/-- **Two triples share a key exactly when they have the same code units.** -/
theorem Triple.key_inj {t u : Triple} : t.key = u.key ↔ t.utf16 = u.utf16 := Py.Str.dumpsStrs_inj rfl

/-- `f` tells the triples apart. -/
def Apart {α : Type} (f : Triple → α) (ts : List Triple) : Prop := ∀ t ∈ ts, ∀ u ∈ ts, f t = f u → t = u

theorem apart_key {ts : List Triple} : Apart Triple.key ts ↔ Apart Triple.utf16 ts := by
  simp only [Apart, Triple.key_inj]

section
variable {H C W V E B : Type}

def Transition.triples (tr : Transition H C) : List Triple := tr.fromState.map (triple tr.event)

def triples (l : List (Transition H C)) : List Triple := l.flatMap Transition.triples

/-! ## The reference -/

namespace Reference

/-- The listed transition is for the event, and for a state of that value. -/
def Takes (event : EventData) (s : State) (tr : Transition H C) : Prop :=
  tr.event = event ∧ ∃ from_ ∈ tr.fromState, from_.value = s.value

instance (event : EventData) (s : State) (tr : Transition H C) : Decidable (Takes event s tr) :=
  inferInstanceAs (Decidable (_ ∧ ∃ from_ ∈ tr.fromState, from_.value = s.value))

def lastListed (listed : List (Transition H C)) (event : EventData) (s : State) : Option (Transition H C) :=
  (listed.filter fun tr => decide (Takes event s tr)).getLast?

variable (rt : Runtime H C W V E B)

/-- What the listed handler and, when it returns, the caller's handler end with. -/
def handlers (tr : Transition H C) (handler : Option H) (context : Option C) (w : W) : Outcome (Option V) E B :=
  match rt.run tr.handler tr.context w with
  | (.returns _, w) => (rt.run handler context w).1
  | (.raises e, _)  => .raises e
  | (.exits b, _)   => .exits b

/-- The state after an event, and whether there is an error. -/
def on (listed : List (Transition H C)) (s : State) (event : EventData) (handler : Option H) (context : Option C) (w : W) :
    State × Bool :=
  match lastListed listed event s with
  | none    => (s, true)
  | some tr =>
    match handlers rt tr handler context w with
    | .returns _ => (tr.toState, false)
    | _          => (s, true)

end Reference

/-! ## The law -/

/-- The machine's answer, and its state after the call. -/
def FSM.answer (rt : Runtime H C W V E B) (m : FSM H C) (event : EventData) (handler : Option H) (context : Option C)
    (w : W) : Except (Raised B) (Response V E) × Option State :=
  ((m.on rt event handler context w).1, (m.on rt event handler context w).2.1.current)

def Call.isClose : Call H C → Bool
  | .close => true
  | _      => false

/-- The transitions of the options, until they are closed. -/
def listed (options : Options H C) (before : List (Call H C)) : List (Transition H C) :=
  if before.any Call.isClose then [] else options.transitions

section
variable (rt : Runtime H C W V E B) (options : Options H C)

/-- `on` answers with the machine's state after the call, as the reference has it, and tells its triple from the listed
ones; without a state it raises. -/
def BehavesOn (l : List (Transition H C)) (m : FSM H C) (event : EventData) (handler : Option H) (context : Option C)
    (w : W) : Prop :=
  match m.current with
  | none   => m.answer rt event handler context w = (.error (.internal errorInvalidEvent), none)
  | some s => Apart Triple.key (triple event s :: triples l) ∧
    ∃ r, m.answer rt event handler context w = (.ok r, some r.state) ∧
      (r.state, r.error.isSome) = Reference.on rt l s event handler context w

/-- The machine behaves as the reference at a call. -/
def Behaves (before : List (Call H C)) (x : FSM H C × W) : Call H C → Prop
  | .on event handler context => BehavesOn rt (listed options before) x.1 event handler context x.2
  | .restore state            => (x.1.restore state).current = state
  | .close                    => x.1.close.current = none

/-- A triple's code units tell it from the listed ones, and no handler called ends by another exception than an
`Exception`. -/
def SafeOn (l : List (Transition H C)) (m : FSM H C) (event : EventData) (handler : Option H) (context : Option C)
    (w : W) : Prop :=
  ∀ s, m.current = some s → Apart Triple.utf16 (triple event s :: triples l) ∧
    ∀ tr b, Reference.lastListed l event s = some tr → Reference.handlers rt tr handler context w ≠ .exits b

def Safe (before : List (Call H C)) (x : FSM H C × W) : Call H C → Prop
  | .on event handler context => SafeOn rt (listed options before) x.1 event handler context x.2
  | _                         => True

end

/-! ## The table -/

theorem get_register (key : String) (tr : Transition H C) (d : Py.Dict String (Target H C)) :
    (register d tr).get key = if key ∈ tr.triples.map Triple.key then some tr.target else d.get key := by
  unfold register Transition.triples
  generalize tr.fromState = l
  induction l generalizing d with
  | nil => simp
  | cons from_ l ih =>
    rw [List.foldl_cons, ih, Py.Dict.get_set, buildTransitionKey, List.map_cons, List.map_cons]
    by_cases hl : key ∈ (l.map (triple tr.event)).map Triple.key
    · rw [if_pos hl, if_pos (List.mem_cons_of_mem _ hl)]
    · by_cases hk : key = (triple tr.event from_).key
      · rw [if_neg hl, if_pos hk, if_pos (List.mem_cons.2 (.inl hk))]
      · rw [if_neg hl, if_neg hk, if_neg fun h => (List.mem_cons.1 h).elim hk hl]

/-- **The table has the last listed transition of a key.** -/
theorem get_table (key : String) (l : List (Transition H C)) :
    (table l).get key = (l.filter fun tr => decide (key ∈ tr.triples.map Triple.key)).getLast?.map Transition.target := by
  induction l using List.reverseRecOn with
  | nil => rfl
  | append_singleton l tr ih =>
    have htable : table (l ++ [tr]) = register (table l) tr := by
      rw [table, List.foldl_append]
      rfl
    rw [htable, get_register, ih, List.filter_append]
    by_cases hk : key ∈ tr.triples.map Triple.key
    · rw [if_pos hk, List.filter_cons, if_pos (decide_eq_true hk), List.filter_nil, List.getLast?_concat]
      rfl
    · rw [if_neg hk, List.filter_cons, if_neg (by simpa using hk), List.filter_nil, List.append_nil]

/-- **Where triples have keys of their own the machine finds the reference's transition.** -/
theorem get_table_of_apart {l : List (Transition H C)} {event : EventData} {s : State}
    (h : Apart Triple.key (triple event s :: triples l)) :
    (table l).get (buildTransitionKey event s) = (Reference.lastListed l event s).map Transition.target := by
  rw [get_table, Reference.lastListed]
  congr 2
  refine List.filter_congr fun tr htr => ?_
  rw [decide_eq_decide, List.mem_map]
  constructor
  · rintro ⟨t, ht, hkey⟩
    have hmem : t ∈ triple event s :: triples l := List.mem_cons_of_mem _ (List.mem_flatMap.2 ⟨tr, htr, ht⟩)
    have heq := h t hmem (triple event s) List.mem_cons_self hkey
    obtain ⟨from_, hfrom, rfl⟩ := List.mem_map.1 ht
    obtain ⟨hflow, hname, hvalue⟩ := Triple.mk.inj heq
    refine ⟨?_, from_, hfrom, hvalue⟩
    cases htev : tr.event
    cases event
    rw [htev] at hflow hname
    cases hflow
    cases hname
    rfl
  · rintro ⟨rfl, from_, hfrom, hvalue⟩
    refine ⟨triple tr.event s, List.mem_map.2 ⟨from_, hfrom, ?_⟩, rfl⟩
    rw [triple, triple, hvalue]

/-! ## One call -/

variable {rt : Runtime H C W V E B} {options : Options H C} {m : FSM H C} {s : State} {event : EventData}
  {handler : Option H} {context : Option C} {w : W}

theorem answer_closed (hcur : m.current = none) :
    m.answer rt event handler context w = (.error (.internal errorInvalidEvent), none) := by
  simp only [FSM.answer, FSM.on, hcur]

theorem answer_none (hcur : m.current = some s) (hget : m.transitions.get (buildTransitionKey event s) = none) :
    m.answer rt event handler context w = (.ok ⟨s, some (.internal errorInvalidEvent), none, none⟩, some s) := by
  simp only [FSM.answer, FSM.on, hcur, hget]

/-- **The event of a listed transition**, by what its handlers end with. -/
theorem answer_some (rt : Runtime H C W V E B) (handler : Option H) (context : Option C) (w : W) {tr : Transition H C}
    (hcur : m.current = some s)
    (hget : m.transitions.get (buildTransitionKey event s) = some tr.target) :
    match Reference.handlers rt tr handler context w with
    | .returns _ => ∃ v v', m.answer rt event handler context w = (.ok ⟨tr.toState, none, v, v'⟩, some tr.toState)
    | .raises e  => ∃ v, m.answer rt event handler context w = (.ok ⟨s, some (.handler e), v, none⟩, some s)
    | .exits b   => m.answer rt event handler context w = (.error (.exits b), some tr.toState) := by
  simp only [Reference.handlers, FSM.answer, FSM.on, hcur, hget, Transition.target]
  cases hrun : rt.run tr.handler tr.context w with
  | mk o w' =>
    cases o with
    | raises e => exact ⟨none, rfl⟩
    | exits b => rfl
    | returns v =>
      dsimp only
      cases hrun' : rt.run handler context w' with
      | mk o w'' =>
        cases o with
        | returns v' => exact ⟨v, v', rfl⟩
        | raises e => exact ⟨v, rfl⟩
        | exits b => rfl

/-- **One event**: with keys of its own for each triple the machine answers as the reference, unless a handler ends by
another exception. -/
theorem behavesOn_iff {l : List (Transition H C)} (hm : m.transitions = table l) :
    BehavesOn rt l m event handler context w ↔ SafeOn rt l m event handler context w := by
  unfold BehavesOn SafeOn
  cases hcur : m.current with
  | none => simp [answer_closed hcur]
  | some s =>
    dsimp only
    rw [apart_key]
    constructor
    · rintro ⟨hapart, r, hr, -⟩ s' hs'
      obtain rfl := Option.some.inj hs'
      refine ⟨hapart, fun tr b htr hb => ?_⟩
      have hget := get_table_of_apart (apart_key.2 hapart)
      rw [← hm, htr] at hget
      have hanswer := answer_some rt handler context w hcur hget
      rw [hb] at hanswer
      rw [hanswer] at hr
      cases hr
    · intro h
      obtain ⟨hapart, hexit⟩ := h s rfl
      refine ⟨hapart, ?_⟩
      have hget := get_table_of_apart (apart_key.2 hapart)
      rw [← hm] at hget
      unfold Reference.on
      cases htr : Reference.lastListed l event s with
      | none =>
        rw [htr] at hget
        exact ⟨_, answer_none hcur hget, rfl⟩
      | some tr =>
        rw [htr] at hget
        have hanswer := answer_some rt handler context w hcur hget
        have hexit := fun b => hexit tr b htr
        cases hh : Reference.handlers rt tr handler context w with
        | returns v =>
          rw [hh] at hanswer
          obtain ⟨v, v', hanswer⟩ := hanswer
          refine ⟨_, hanswer, ?_⟩
          simp only [hh]
          rfl
        | raises e =>
          rw [hh] at hanswer
          obtain ⟨v, hanswer⟩ := hanswer
          refine ⟨_, hanswer, ?_⟩
          simp only [hh]
          rfl
        | exits b => exact absurd hh (hexit b)

theorem on_transitions : (m.on rt event handler context w).2.1.transitions = m.transitions := by
  unfold FSM.on
  repeat' split
  all_goals rfl

/-! ## Every run -/

/-- **The machine behaves as the reference at every call exactly when** the listed triples, and at each event the triple
asked for, have code units of their own, and no handler called ends by another exception than an `Exception`. -/
theorem refines_reference_iff (rt : Runtime H C W V E B) (options : Options H C) (w : W) (calls : List (Call H C)) :
    (Apart Triple.key (triples options.transitions) ∧
      Calls.Each (step rt) (FSM.new options, w) (Behaves rt options) calls) ↔
    (Apart Triple.utf16 (triples options.transitions) ∧
      Calls.Each (step rt) (FSM.new options, w) (Safe rt options) calls) := by
  rw [apart_key]
  refine and_congr_right fun _ => ?_
  refine Calls.each_iff (I := fun pre x => x.1.transitions = table (listed options pre)) rfl ?_ ?_ calls
  · intro pre x c hx
    cases c with
    | on event handler context => exact behavesOn_iff hx
    | restore state => exact iff_of_true rfl trivial
    | close => exact iff_of_true rfl trivial
  · intro pre x c hx _
    cases c with
    | on event handler context =>
      have hlisted : listed options (pre ++ [Call.on event handler context]) = listed options pre := by
        simp [listed, Call.isClose]
      rw [hlisted, ← hx]
      exact on_transitions
    | restore state =>
      have hlisted : listed options (pre ++ [Call.restore state]) = listed options pre := by
        simp [listed, Call.isClose]
      rw [hlisted, ← hx]
      rfl
    | close =>
      have hlisted : listed options (pre ++ [Call.close]) = [] := by
        simp [listed, Call.isClose]
      rw [hlisted]
      rfl

end

/-! Two runs in which the machine is not as the reference: a state's value in two surrogates finds the transition listed for
the one code point they stand for, and a handler that ends by another exception leaves the machine moved. -/

def opened : State := ⟨1, [0x6f]⟩

/-- One transition, from a state of that value. -/
def door (value : Py.Str) (handler : Option Unit) : Options Unit Unit where
  initial     := ⟨0, [0xd83d, 0xde00]⟩
  transitions := [{ event := ⟨[], []⟩, fromState := [⟨2, value⟩], toState := opened, handler := handler }]

/-- Each handler ends by another exception. -/
def exiting : Runtime Unit Unit Unit Unit Unit Unit where
  call _ _ _ := (.exits (), ())
  truthy _ _ := true

/-- The machine opens where the reference stays. -/
def Opens (o : Options Unit Unit) : Prop :=
  ((FSM.new o).answer exiting ⟨[], []⟩ none none ()).2 = some opened ∧
    Reference.on exiting o.transitions o.initial ⟨[], []⟩ none none () = (o.initial, true)

instance (o : Options Unit Unit) : Decidable (Opens o) := inferInstanceAs (Decidable (_ = _ ∧ _ = _))

theorem not_behaves_of_opens {o : Options Unit Unit} (h : Opens o) (hne : o.initial ≠ opened) :
    ¬ Calls.Each (step exiting) (FSM.new o, ()) (Behaves exiting o) [.on ⟨[], []⟩ none none] := by
  intro hb
  obtain ⟨-, r, hr, href⟩ := hb [] _ [] rfl
  have hstate := (congrArg Prod.fst href).trans (congrArg Prod.fst h.2)
  have hcur : some r.state = some opened := (congrArg Prod.snd hr).symm.trans h.1
  exact hne (hstate.symm.trans (Option.some.inj hcur))

theorem door_opens : Opens (door [0x1f600] none) ∧ Opens (door [0xd83d, 0xde00] (some ())) ∧
    ∀ o ∈ [door [0x1f600] none, door [0xd83d, 0xde00] (some ())],
      ¬ Calls.Each (step exiting) (FSM.new o, ()) (Behaves exiting o) [.on ⟨[], []⟩ none none] := by
  have hpair : Opens (door [0x1f600] none) := by decide +kernel
  have hexit : Opens (door [0xd83d, 0xde00] (some ())) := by decide +kernel
  refine ⟨hpair, hexit, fun o ho => ?_⟩
  simp only [List.mem_cons, List.not_mem_nil, or_false] at ho
  rcases ho with rfl | rfl
  · exact not_behaves_of_opens hpair (by decide)
  · exact not_behaves_of_opens hexit (by decide)

end Fsm
end Pypepper
