import Pypepper.FsmReference
import Mathlib.Logic.Relation
/-!
# FsmNested — handlers that call machines back

A handler is code: it may read and change what lies outside the machines, and it may call any machine, the one that called
it included, whose handlers then run inside it.  A failed `on` puts its machine's state back, whatever ran inside it.  Each
machine ends where its kept calls take it, one after another in the order they began and with no handler: the calls that
neither failed nor ran inside a failed call of the same machine (`nested_calls`).
-/
namespace Pypepper
namespace Fsm
namespace Nested

open Relation (ReflTransGen)

/-- The state is the machine's own when `on` returns, which a handler may have closed. -/
structure Response (V E : Type) where
  state              : Option State
  error              : Option (Error E)
  eventHandlerResult : Option V := none
  transitionResult   : Option V := none

/-- What a handler's code does, until it ends; what an `on` of its own raises it may handle. -/
inductive Body (M H C W V E B : Type) where
  | ends (o : Outcome V E B)
  | read (k : W → Body M H C W V E B)
  | write (w : W) (k : Body M H C W V E B)
  | current (m : M) (k : Option State → Body M H C W V E B)
  | restore (m : M) (state : Option State) (k : Body M H C W V E B)
  | close (m : M) (k : Body M H C W V E B)
  | on (m : M) (event : EventData) (handler : Option H) (context : Option C)
      (k : Except (Raised B) (Response V E) → Body M H C W V E B)

/-- The code of each handler, called with a context or without, and whether a context is true. -/
structure Code (M H C W V E B : Type) where
  body   : H → Option C → Body M H C W V E B
  truthy : C → W → Bool

/-- The machines, and the world outside them. -/
structure St (M H C W : Type) where
  machine : M → FSM H C
  world   : W

/-- A call on a machine, with the calls that ran inside it; an `on` that found no transition leaves no node. -/
inductive Node (M : Type) where
  | on (m : M) (event : EventData) (prev : State) (kept : Bool) (inner : List (Node M))
  | restore (m : M) (state : Option State)
  | close (m : M)

/-- What a run leaves: its end, the state, and the calls made. -/
abbrev Run (M H C W α : Type) : Type := Option (α × St M H C W × List (Node M))

section
variable {M H C W V E B α : Type} [DecidableEq M]

def St.setMachine (s : St M H C W) (m : M) (f : FSM H C) : St M H C W :=
  { s with machine := Function.update s.machine m f }

/-- `restore` of one machine. -/
def St.restore (s : St M H C W) (m : M) (state : Option State) : St M H C W :=
  s.setMachine m ((s.machine m).restore state)

def St.close (s : St M H C W) (m : M) : St M H C W := s.setMachine m (s.machine m).close

/-- `handler(context) if context else handler()`, when there is a handler; `call` runs its code. -/
def runHandler (call : H → Option C → St M H C W → Run M H C W (Outcome V E B)) (truthy : C → W → Bool)
    (handler : Option H) (context : Option C) (s : St M H C W) : Run M H C W (Outcome (Option V) E B) :=
  match handler with
  | none   => some (.returns none, s, [])
  | some h =>
    match call h (context.filter fun c => truthy c s.world) s with
    | none                    => none
    | some (.returns v, s, l) => some (.returns (some v), s, l)
    | some (.raises e, s, l)  => some (.raises e, s, l)
    | some (.exits b, s, l)   => some (.exits b, s, l)

/-- `FSM.on`, which is `_transition`, of one machine. -/
def transition (call : H → Option C → St M H C W → Run M H C W (Outcome V E B)) (truthy : C → W → Bool) (m : M)
    (event : EventData) (handler : Option H) (context : Option C) (s : St M H C W) :
    Run M H C W (Except (Raised B) (Response V E)) :=
  match (s.machine m).current with
  | none      => some (.error (.internal errorInvalidEvent), s, [])
  | some prev =>
    match (s.machine m).transitions.get (buildTransitionKey event prev) with
    | none        => some (.ok { state := prev, error := some (.internal errorInvalidEvent) }, s, [])
    | some target =>
      match runHandler call truthy target.handler target.context (s.restore m (some target.state)) with
      | none                    => none
      | some (.exits b, s, l)   => some (.error (.exits b), s, [.on m event prev true l])
      | some (.raises e, s, l)  =>
        some (.ok { state := prev, error := some (.handler e) }, s.restore m (some prev), [.on m event prev false l])
      | some (.returns v, s, l) =>
        match runHandler call truthy handler context s with
        | none                      => none
        | some (.exits b, s, l')    => some (.error (.exits b), s, [.on m event prev true (l ++ l')])
        | some (.raises e, s, l')   =>
          some (.ok { state := prev, error := some (.handler e), eventHandlerResult := v }, s.restore m (some prev),
            [.on m event prev false (l ++ l')])
        | some (.returns v', s, l') =>
          some (.ok { state := (s.machine m).current, error := none, eventHandlerResult := v, transitionResult := v' }, s,
            [.on m event prev true (l ++ l')])

/-- What ran before comes first. -/
def Run.after (l : List (Node M)) (r : Run M H C W α) : Run M H C W α := r.map fun x => (x.1, x.2.1, l ++ x.2.2)

/-- A body to its end; a run without an end, or with one that takes more fuel, has no answer. -/
def eval (code : Code M H C W V E B) : Nat → Body M H C W V E B → St M H C W → Run M H C W (Outcome V E B)
  | 0,     _,                               _ => none
  | _ + 1, .ends o,                         s => some (o, s, [])
  | n + 1, .read k,                         s => eval code n (k s.world) s
  | n + 1, .write w k,                      s => eval code n k { s with world := w }
  | n + 1, .current m k,                    s => eval code n (k (s.machine m).current) s
  | n + 1, .restore m state k,              s => (eval code n k (s.restore m state)).after [.restore m state]
  | n + 1, .close m k,                      s => (eval code n k (s.close m)).after [.close m]
  | n + 1, .on m event handler context k,   s =>
    match transition (fun h c => eval code n (code.body h c)) code.truthy m event handler context s with
    | none           => none
    | some (r, s, l) => (eval code n (k r) s).after l

/-- A call of `on` from outside the handlers. -/
def on (code : Code M H C W V E B) (n : Nat) (m : M) (event : EventData) (handler : Option H) (context : Option C) :
    St M H C W → Run M H C W (Except (Raised B) (Response V E)) :=
  transition (fun h c => eval code n (code.body h c)) code.truthy m event handler context

/-! ## The calls that are kept -/

mutual

/-- A close of the machine ran, also inside a failed call. -/
def Node.closes (m : M) : Node M → Bool
  | .on _ _ _ _ inner => closed m inner
  | .restore _ _      => false
  | .close k          => decide (k = m)

def closed (m : M) : List (Node M) → Bool
  | []     => false
  | x :: l => x.closes m || closed m l

end

mutual

/-- Of a failed call nothing is kept, but a close empties the table for good. -/
def Node.calls (m : M) : Node M → List (Call H C)
  | .on k event prev kept inner =>
    if k = m then
      if kept then .on event none none :: calls m inner
      else if closed m inner then [.close, .restore (some prev)] else []
    else calls m inner
  | .restore k state => if k = m then [.restore state] else []
  | .close k         => if k = m then [.close] else []

/-- The kept calls on a machine, in the order they began. -/
def calls (m : M) : List (Node M) → List (Call H C)
  | []     => []
  | x :: l => x.calls m ++ calls m l

end

/-- Handlers that do nothing. -/
def quiet : Runtime H C Unit Unit Empty Empty := ⟨fun _ _ _ => (.returns (), ()), fun _ _ => true⟩

/-- The machine after one call, its handlers doing nothing. -/
def after (f : FSM H C) (c : Call H C) : FSM H C := (step quiet (f, ()) c).1

/-- An `on` finds a transition. -/
def Moves (f : FSM H C) : Call H C → Prop
  | .on event _ _ => ∃ prev target, f.current = some prev ∧ f.transitions.get (buildTransitionKey event prev) = some target
  | _             => True

/-- The calls one after another, each moving. -/
inductive Follows : FSM H C → List (Call H C) → FSM H C → Prop where
  | done (f : FSM H C) : Follows f [] f
  | call {f f' : FSM H C} {c : Call H C} {l : List (Call H C)} : Moves f c → Follows (after f c) l f' → Follows f (c :: l) f'

theorem Follows.append {f f' f'' : FSM H C} {l l' : List (Call H C)} (h : Follows f l f') (h' : Follows f' l' f'') :
    Follows f (l ++ l') f'' := by
  induction h with
  | done _ => exact h'
  | call hm _ ih => exact .call hm (ih h')

theorem after_on {f : FSM H C} {event : EventData} {prev : State} {target : Target H C} (hcur : f.current = some prev)
    (hget : f.transitions.get (buildTransitionKey event prev) = some target) (handler : Option H) (context : Option C) :
    after f (.on event handler context) = f.restore (some target.state) := by
  cases hh : target.handler <;> cases handler <;>
    simp [after, step, FSM.on, hcur, hget, Runtime.run, quiet, FSM.restore, hh]

theorem calls_append (m : M) (l l' : List (Node M)) : (calls m (l ++ l') : List (Call H C)) = calls m l ++ calls m l' := by
  induction l with
  | nil => rfl
  | cons x l ih => rw [List.cons_append, calls, calls, ih, List.append_assoc]

theorem closed_append (m : M) (l l' : List (Node M)) : closed m (l ++ l') = (closed m l || closed m l') := by
  induction l with
  | nil => rfl
  | cons x l ih => rw [List.cons_append, closed, closed, ih, Bool.or_assoc]

/-! ## One machine's law -/

/-- From one state to another each machine follows its kept calls, and its table is emptied by a close alone. -/
structure Law (s s' : St M H C W) (l : List (Node M)) : Prop where
  follows : ∀ m, Follows (s.machine m) (calls m l) (s'.machine m)
  table   : ∀ m, (s'.machine m).transitions = if closed m l then Py.Dict.empty else (s.machine m).transitions

theorem Law.refl (s : St M H C W) : Law s s [] := ⟨fun _ => .done _, fun _ => rfl⟩

theorem Law.trans {s s' s'' : St M H C W} {l l' : List (Node M)} (h : Law s s' l) (h' : Law s' s'' l') :
    Law s s'' (l ++ l') where
  follows m := by
    rw [calls_append]
    exact (h.follows m).append (h'.follows m)
  table m := by
    rw [h'.table m, h.table m, closed_append]
    cases closed m l <;> cases closed m l' <;> rfl

theorem St.machine_setMachine (s : St M H C W) (m k : M) (f : FSM H C) :
    (s.setMachine m f).machine k = if k = m then f else s.machine k := Function.update_apply ..

theorem Law.restore (s : St M H C W) (m : M) (state : Option State) : Law s (s.restore m state) [.restore m state] where
  follows k := by
    rw [St.restore, St.machine_setMachine, calls, calls, Node.calls, List.append_nil]
    by_cases hk : k = m
    · rw [if_pos hk, if_pos hk.symm, hk]
      exact .call trivial (.done _)
    · rw [if_neg hk, if_neg (Ne.symm hk)]
      exact .done _
  table k := by
    rw [St.restore, St.machine_setMachine]
    by_cases hk : k = m
    · rw [if_pos hk, hk]
      rfl
    · rw [if_neg hk]
      rfl

theorem Law.close (s : St M H C W) (m : M) : Law s (s.close m) [.close m] where
  follows k := by
    rw [St.close, St.machine_setMachine, calls, calls, Node.calls, List.append_nil]
    by_cases hk : k = m
    · rw [if_pos hk, if_pos hk.symm, hk]
      exact .call trivial (.done _)
    · rw [if_neg hk, if_neg (Ne.symm hk)]
      exact .done _
  table k := by
    rw [St.close, St.machine_setMachine, closed, closed, Node.closes, Bool.or_false]
    by_cases hk : k = m
    · rw [if_pos hk, decide_eq_true hk.symm]
      rfl
    · rw [if_neg hk, decide_eq_false (Ne.symm hk)]
      rfl

/-! ## One `on` -/

variable {s s' : St M H C W} {m : M} {event : EventData} {prev : State} {target : Target H C} {inner : List (Node M)}

theorem St.machine_restore (s : St M H C W) (m k : M) (state : Option State) :
    (s.restore m state).machine k = if k = m then (s.machine m).restore state else s.machine k := s.machine_setMachine m k _

/-- **An `on` that moved**: its transition, and then what its handlers kept. -/
theorem Law.kept (hcur : (s.machine m).current = some prev)
    (hget : (s.machine m).transitions.get (buildTransitionKey event prev) = some target)
    (h : Law (s.restore m (some target.state)) s' inner) : Law s s' [.on m event prev true inner] where
  follows k := by
    have hf := h.follows k
    rw [St.machine_restore] at hf
    rw [calls, calls, Node.calls, List.append_nil, if_pos rfl]
    by_cases hk : k = m
    · subst hk
      rw [if_pos rfl] at hf ⊢
      refine .call ⟨prev, target, hcur, hget⟩ ?_
      rw [after_on hcur hget none none]
      exact hf
    · rw [if_neg hk] at hf
      rw [if_neg (Ne.symm hk)]
      exact hf
  table k := by
    rw [h.table k, St.machine_restore, closed, closed, Node.closes, Bool.or_false]
    by_cases hk : k = m
    · rw [if_pos hk, hk]
      rfl
    · rw [if_neg hk]

/-- **An `on` that failed**: its machine is where it was, closed or not; the others keep what its handlers did. -/
theorem Law.failed {state : Option State} (hcur : (s.machine m).current = some prev) (h : Law (s.restore m state) s' inner) :
    Law s (s'.restore m (some prev)) [.on m event prev false inner] where
  follows k := by
    have hf := h.follows k
    have ht := h.table k
    rw [St.machine_restore] at hf ht
    rw [St.machine_restore, calls, calls, Node.calls, List.append_nil, if_neg Bool.false_ne_true]
    by_cases hk : k = m
    · subst hk
      rw [if_pos rfl] at ht ⊢
      rw [if_pos rfl]
      have hnow : (s'.machine k).restore (some prev) = ⟨some prev, (s'.machine k).transitions⟩ := rfl
      rw [hnow, ht]
      cases closed k inner with
      | true => exact .call trivial (.call trivial (.done _))
      | false =>
        have hwas : (⟨some prev, (s.machine k).transitions⟩ : FSM H C) = s.machine k := by rw [← hcur]
        rw [if_neg Bool.false_ne_true, if_neg Bool.false_ne_true]
        exact hwas ▸ .done _
    · rw [if_neg hk] at hf
      rw [if_neg hk, if_neg (Ne.symm hk)]
      exact hf
  table k := by
    have ht := h.table k
    rw [St.machine_restore] at ht
    rw [St.machine_restore, closed, closed, Node.closes, Bool.or_false]
    by_cases hk : k = m
    · subst hk
      rw [if_pos rfl] at ht ⊢
      exact ht
    · rw [if_neg hk] at ht ⊢
      exact ht

/-- What `on` answers is the machine's state when it returns, and with an error the state it found. -/
def Answers (s s' : St M H C W) (m : M) : Except (Raised B) (Response V E) → Prop
  | .ok r    => r.state = (s'.machine m).current ∧ (r.error.isSome → (s'.machine m).current = (s.machine m).current)
  | .error _ => True

section
variable {call : H → Option C → St M H C W → Run M H C W (Outcome V E B)} {truthy : C → W → Bool} {handler : Option H}
  {context : Option C}

theorem runHandler_law (hcall : ∀ h c s o s' l, call h c s = some (o, s', l) → Law s s' l) {o : Outcome (Option V) E B}
    {l : List (Node M)} (h : runHandler call truthy handler context s = some (o, s', l)) : Law s s' l := by
  unfold runHandler at h
  cases handler with
  | none =>
    cases h
    exact .refl s
  | some f =>
    dsimp only at h
    cases hr : call f (context.filter fun c => truthy c s.world) s with
    | none => rw [hr] at h; cases h
    | some x =>
      obtain ⟨o', s₁, l₁⟩ := x
      rw [hr] at h
      cases o' <;> cases h <;> exact hcall _ _ _ _ _ _ hr

theorem transition_law (hcall : ∀ h c s o s' l, call h c s = some (o, s', l) → Law s s' l)
    {r : Except (Raised B) (Response V E)} {l : List (Node M)}
    (h : transition call truthy m event handler context s = some (r, s', l)) : Law s s' l ∧ Answers s s' m r := by
  unfold transition at h
  cases hcur : (s.machine m).current with
  | none =>
    rw [hcur] at h
    cases h
    exact ⟨.refl s, trivial⟩
  | some prev =>
    rw [hcur] at h
    dsimp only at h
    cases hget : (s.machine m).transitions.get (buildTransitionKey event prev) with
    | none =>
      rw [hget] at h
      cases h
      exact ⟨.refl s, hcur.symm, fun _ => rfl⟩
    | some target =>
      rw [hget] at h
      dsimp only at h
      have hback : ∀ s₁ : St M H C W, ((s₁.restore m (some prev)).machine m).current = some prev := fun s₁ => by
        rw [St.machine_restore, if_pos rfl]
        rfl
      cases hr : runHandler call truthy target.handler target.context (s.restore m (some target.state)) with
      | none => rw [hr] at h; cases h
      | some x =>
        obtain ⟨o, s₁, l₁⟩ := x
        have h₁ := runHandler_law hcall hr
        rw [hr] at h
        cases o with
        | exits b =>
          cases h
          exact ⟨h₁.kept hcur hget, trivial⟩
        | raises e =>
          cases h
          exact ⟨h₁.failed hcur, (hback _).symm, fun _ => (hback _).trans hcur.symm⟩
        | returns v =>
          dsimp only at h
          cases hr' : runHandler call truthy handler context s₁ with
          | none => rw [hr'] at h; cases h
          | some x =>
            obtain ⟨o, s₂, l₂⟩ := x
            have h₂ := h₁.trans (runHandler_law hcall hr')
            rw [hr'] at h
            cases o with
            | exits b =>
              cases h
              exact ⟨h₂.kept hcur hget, trivial⟩
            | raises e =>
              cases h
              exact ⟨h₂.failed hcur, (hback _).symm, fun _ => (hback _).trans hcur.symm⟩
            | returns v' =>
              cases h
              exact ⟨h₂.kept hcur hget, rfl, fun he => by cases he⟩

end

/-! ## Every run -/

omit [DecidableEq M] in
theorem Run.after_eq_some {l l' : List (Node M)} {r : Run M H C W α} {o : α} (h : r.after l = some (o, s', l')) :
    ∃ l₁, r = some (o, s', l₁) ∧ l' = l ++ l₁ := by
  obtain ⟨⟨o', s₁, l₁⟩, hr, he⟩ := Option.map_eq_some_iff.1 h
  cases he
  exact ⟨l₁, hr, rfl⟩

theorem eval_law (code : Code M H C W V E B) : ∀ (n : Nat) (b : Body M H C W V E B) (s : St M H C W) {o : Outcome V E B}
    {s' : St M H C W} {l : List (Node M)}, eval code n b s = some (o, s', l) → Law s s' l := by
  intro n
  induction n with
  | zero =>
    intro b s o s' l h
    cases h
  | succ n ih =>
    intro b s o s' l h
    cases b with
    | ends o' => cases h; exact .refl s
    | read k => exact ih _ s h
    | write w k => exact ⟨(ih k _ h).follows, (ih k _ h).table⟩
    | current m k => exact ih _ s h
    | restore m state k =>
      obtain ⟨l₁, hr, rfl⟩ := Run.after_eq_some h
      exact (Law.restore s m state).trans (ih _ _ hr)
    | close m k =>
      obtain ⟨l₁, hr, rfl⟩ := Run.after_eq_some h
      exact (Law.close s m).trans (ih _ _ hr)
    | on m event handler context k =>
      simp only [eval] at h
      cases ht : transition (fun h c => eval code n (code.body h c)) code.truthy m event handler context s with
      | none => rw [ht] at h; cases h
      | some x =>
        obtain ⟨r, s₁, l₁⟩ := x
        rw [ht] at h
        obtain ⟨l₂, hr, rfl⟩ := Run.after_eq_some h
        exact (transition_law (fun f c s _ _ _ hf => ih (code.body f c) s hf) ht).1.trans (ih _ _ hr)

def isOn : Call H C → Bool
  | .on _ _ _ => true
  | _         => false

/-- Some listed transition leads from a state of `a`'s value to `b`. -/
def Listed (l : List (Transition H C)) (a b : State) : Prop :=
  ∃ event, ∃ tr ∈ l, ∃ t ∈ tr.triples, t.utf16 = (triple event a).utf16 ∧ tr.toState = b

theorem listed_of_get {l : List (Transition H C)} {prev : State}
    (h : (table l).get (buildTransitionKey event prev) = some target) :
    Listed l prev target.state := by
  rw [get_table] at h
  obtain ⟨tr, htr, rfl⟩ := Option.map_eq_some_iff.1 h
  obtain ⟨hmem, hkey⟩ := List.mem_filter.1 (List.mem_of_getLast? htr)
  obtain ⟨t, ht, hkey⟩ := List.mem_map.1 (of_decide_eq_true hkey)
  exact ⟨event, tr, hmem, t, ht, Triple.key_inj.1 hkey, rfl⟩

/-- **A machine that is only sent events moves along its listed transitions.** -/
theorem Follows.reaches {f f' : FSM H C} {cs : List (Call H C)} (h : Follows f cs f') {l : List (Transition H C)} {a : State}
    (htable : f.transitions = table l) (hcur : f.current = some a) (hon : cs.all isOn = true) :
    ∃ b, f'.current = some b ∧ ReflTransGen (Listed l) a b := by
  induction h generalizing a with
  | done f => exact ⟨a, hcur, .refl⟩
  | @call f f' c cs hm _ ih =>
    rw [List.all_cons, Bool.and_eq_true] at hon
    cases c with
    | restore _ => cases hon.1
    | close => cases hon.1
    | on event handler context =>
      obtain ⟨prev, target, hprev, hget⟩ := hm
      rw [hcur] at hprev
      cases hprev
      rw [after_on hcur hget handler context] at ih
      obtain ⟨b, hb, hreach⟩ := ih (a := target.state) htable rfl hon.2
      rw [htable] at hget
      exact ⟨b, hb, .head (listed_of_get hget) hreach⟩

/-- **Handlers that call machines back are nested.**  Wherever an `on` runs, it answers its machine's state at its return,
which with an error is the state it found; and in a whole run each machine ends where its kept calls alone take it, along
its listed transitions when they are events only. -/
theorem nested_calls (code : Code M H C W V E B) (n : Nat) :
    (∀ s m event handler context r s' l, on code n m event handler context s = some (r, s', l) →
      Answers s s' m r ∧ ∀ k, Follows (s.machine k) (calls k l) (s'.machine k)) ∧
    (∀ (options : M → Options H C) body w o s' l, eval code n body ⟨fun k => FSM.new (options k), w⟩ = some (o, s', l) →
      ∀ k, Follows (FSM.new (options k)) (calls k l) (s'.machine k) ∧
        ((calls k l : List (Call H C)).all isOn → ∃ b, (s'.machine k).current = some b ∧
          ReflTransGen (Listed (options k).transitions) (options k).initial b)) := by
  constructor
  · intro s m event handler context r s' l h
    obtain ⟨hlaw, hanswers⟩ := transition_law (fun f c s _ _ _ hf => eval_law code n (code.body f c) s hf) h
    exact ⟨hanswers, hlaw.follows⟩
  · intro options body w o s' l h k
    have hf := (eval_law code n body _ h).follows k
    exact ⟨hf, hf.reaches rfl rfl⟩

/-! A door's handler opens it further and lights a lamp; the caller's handler then fails. -/

def letter (n : Nat) : Py.Str := [⟨n % 0x110000, Nat.mod_lt n (by decide)⟩]

def ev (n : Nat) : EventData := ⟨[], letter n⟩

def st (n : Nat) : State := ⟨0, letter n⟩

def doorAndLamp : Bool → Options Bool Unit
  | true  => ⟨st 0, [⟨ev 1, [st 0], st 1, some true, none⟩, ⟨ev 2, [st 1], st 2, none, none⟩]⟩
  | false => ⟨st 0, [⟨ev 2, [st 0], st 3, none, none⟩]⟩

def doorCode : Code Bool Bool Unit Unit Unit Unit Unit where
  body
    | true,  _ => .on true (ev 2) none none fun _ => .on false (ev 2) none none fun _ => .ends (.returns ())
    | false, _ => .ends (.raises ())
  truthy _ _ := true

/-- The door is as it was; the lamp stays lit. -/
theorem nested_calls_door : ∃ r s' l, on doorCode 4 true (ev 1) (some false) none ⟨fun k => FSM.new (doorAndLamp k), ()⟩ =
      some (.ok r, s', l) ∧ r.error.isSome ∧ (s'.machine true).current = some (st 0) ∧
    (s'.machine false).current = some (st 3) ∧ Follows (FSM.new (doorAndLamp false)) (calls false l) (s'.machine false) := by
  have hrun : (on doorCode 4 true (ev 1) (some false) none ⟨fun k => FSM.new (doorAndLamp k), ()⟩).any
      (fun x => match x.1 with
        | .ok r    => r.error.isSome && decide ((x.2.1.machine false).current = some (st 3))
        | .error _ => false) = true := by
    decide +kernel
  obtain ⟨⟨r, s', l⟩, hx, hcheck⟩ := (Option.any_eq_true _ _).1 hrun
  cases r with
  | error _ => cases hcheck
  | ok r =>
    obtain ⟨herror, hlamp⟩ := Bool.and_eq_true_iff.1 hcheck
    obtain ⟨⟨-, hback⟩, hfollows⟩ := (nested_calls doorCode 4).1 _ _ _ _ _ _ _ _ hx
    exact ⟨r, s', l, hx, herror, hback herror, of_decide_eq_true hlamp, hfollows false⟩

/-! ## Handlers that call no machine -/

/-- Handlers of a runtime: they change the world and end. -/
def plain (rt : Runtime H C W V E B) : Code M H C W V E B where
  body h c := .read fun w => .write (rt.call h c w).2 (.ends (rt.call h c w).1)
  truthy   := rt.truthy

def Response.ofPlain (r : Fsm.Response V E) : Response V E where
  state              := some r.state
  error              := r.error
  eventHandlerResult := r.eventHandlerResult
  transitionResult   := r.transitionResult

section
variable (rt : Runtime H C W V E B) (n : Nat) (s : St M H C W) (m : M) (event : EventData) (handler : Option H)
  (context : Option C)

theorem runHandler_plain : runHandler (fun h c => eval (plain rt) (n + 3) ((plain rt).body h c)) rt.truthy handler context s =
    some ((rt.run handler context s.world).1, { s with world := (rt.run handler context s.world).2 }, []) := by
  cases handler with
  | none => rfl
  | some h =>
    simp only [runHandler, plain, eval, Runtime.run]
    cases rt.call h (context.filter fun c => rt.truthy c s.world) s.world with
    | mk o w => cases o <;> rfl

/-- **With handlers that call no machine, `on` is the plain machine's.** -/
theorem on_plain : (on (plain rt) (n + 3) m event handler context s).map (fun x => (x.1, x.2.1.machine m, x.2.1.world)) =
    some (((s.machine m).on rt event handler context s.world).map (Except.map Response.ofPlain) id) := by
  unfold on transition FSM.on
  have hself : ∀ (s : St M H C W) (state : Option State), (s.restore m state).machine m = (s.machine m).restore state :=
    fun s state => by rw [St.machine_restore, if_pos rfl]
  cases hcur : (s.machine m).current with
  | none => rfl
  | some prev =>
    dsimp only
    cases hget : (s.machine m).transitions.get (buildTransitionKey event prev) with
    | none => rfl
    | some target =>
      dsimp only
      rw [show (plain rt : Code M H C W V E B).truthy = rt.truthy from rfl, runHandler_plain]
      have hworld : (s.restore m (some target.state)).world = s.world := rfl
      rw [hworld]
      cases rt.run target.handler target.context s.world with
      | mk o w =>
        cases o with
        | exits b => simp only [Option.map_some, hself]; rfl
        | raises e => simp only [Option.map_some, hself]; rfl
        | returns v =>
          simp only [runHandler_plain]
          cases rt.run handler context w with
          | mk o w' => cases o <;> simp only [Option.map_some, hself] <;> rfl

end

end
end Nested
end Fsm
end Pypepper
