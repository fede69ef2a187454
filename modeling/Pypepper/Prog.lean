import Mathlib.Logic.Relation
/-!
# Prog — programs of atomic actions

A program is a finite tree: it returns, raises, or performs one atomic action and continues with the answer.  Between
two actions of a program anything may happen, so the actions are the points where threads interleave.  `attempt` is the
`try` of the languages with exceptions, and `tryExcept` its handler.

`Proto.wp` is the weakest precondition of a program whose environment moves by a rely relation between its actions,
with one rule for each way programs are built; `Keeps` is the invariant rule, closed under sequencing and handlers.
-/
namespace Conc

inductive Prog (A : Type) (R : A → Type) (ε α : Type) where
  | ret (a : α)
  | raise (e : ε)
  | act (a : A) (k : R a → Prog A R ε α)

namespace Prog

variable {A : Type} {R : A → Type} {ε α β : Type}

def bind : Prog A R ε α → (α → Prog A R ε β) → Prog A R ε β
  | ret a,   f => f a
  | raise e, _ => raise e
  | act a k, f => act a (fun r => (k r).bind f)

instance : Monad (Prog A R ε) where
  pure := ret
  bind := bind

def attempt : Prog A R ε α → Prog A R ε (Except ε α)
  | ret a   => ret (.ok a)
  | raise e => ret (.error e)
  | act a k => act a (fun r => (k r).attempt)

def ofExcept : Except ε α → Prog A R ε α
  | .ok a    => ret a
  | .error e => raise e

def tryExcept (p : Prog A R ε α) (handler : ε → Prog A R ε α) : Prog A R ε α :=
  p.attempt.bind (fun | .ok a => ret a | .error e => handler e)

def call (a : A) : Prog A R ε (R a) := act a ret

def finished : Prog A R ε α → Option (Except ε α)
  | ret a   => some (.ok a)
  | raise e => some (.error e)
  | act _ _ => none

/-! ### The actions a program may perform -/

def Only (q : A → Prop) : Prog A R ε α → Prop
  | ret _   => True
  | raise _ => True
  | act a k => q a ∧ ∀ r, (k r).Only q

variable {q q' : A → Prop}

theorem Only.ret (a : α) : (ret a : Prog A R ε α).Only q := trivial

theorem Only.raise (e : ε) : (raise e : Prog A R ε α).Only q := trivial

theorem Only.call {a : A} (h : q a) : (call a : Prog A R ε (R a)).Only q := ⟨h, fun _ => trivial⟩

theorem Only.ofExcept (r : Except ε α) : (ofExcept r : Prog A R ε α).Only q := by
  cases r <;> trivial

theorem Only.bind {f : α → Prog A R ε β} : ∀ {p : Prog A R ε α}, p.Only q → (∀ a, (f a).Only q) → (p.bind f).Only q
  | .ret a, _, hf => hf a
  | .raise _, _, _ => trivial
  | .act _ _, ⟨ha, hk⟩, hf => ⟨ha, fun r => (hk r).bind hf⟩

theorem Only.attempt : ∀ {p : Prog A R ε α}, p.Only q → p.attempt.Only q
  | .ret _, _ => trivial
  | .raise _, _ => trivial
  | .act _ _, ⟨ha, hk⟩ => ⟨ha, fun r => (hk r).attempt⟩

theorem Only.tryExcept {p : Prog A R ε α} {h : ε → Prog A R ε α} (hp : p.Only q) (hh : ∀ e, (h e).Only q) :
    (p.tryExcept h).Only q :=
  hp.attempt.bind (fun r => by cases r with | ok a => trivial | error e => exact hh e)

theorem Only.ite {c : Prop} [Decidable c] {p p' : Prog A R ε α} (hp : p.Only q) (hp' : p'.Only q) :
    (if c then p else p').Only q := by
  split
  · exact hp
  · exact hp'

theorem Only.any : ∀ p : Prog A R ε α, p.Only (fun _ => True)
  | .ret _ => trivial
  | .raise _ => trivial
  | .act _ k => ⟨trivial, fun r => Only.any (k r)⟩

theorem Only.mono (h : ∀ a, q a → q' a) : ∀ {p : Prog A R ε α}, p.Only q → p.Only q'
  | .ret _, _ => trivial
  | .raise _, _ => trivial
  | .act _ _, ⟨ha, hk⟩ => ⟨h _ ha, fun r => (hk r).mono h⟩

/-! ### Properties of programs closed under their control flow -/

/-- A property of programs that returning, raising, sequencing and handling keep. -/
structure Closed (K : (α : Type) → Prog A R ε α → Prop) : Prop where
  ret     : ∀ {α : Type} (a : α), K α (.ret a)
  raise   : ∀ {α : Type} (e : ε), K α (.raise e)
  bind    : ∀ {α β : Type} {p : Prog A R ε α} {f : α → Prog A R ε β}, K α p → (∀ a, K β (f a)) → K β (p.bind f)
  attempt : ∀ {α : Type} {p : Prog A R ε α}, K α p → K (Except ε α) p.attempt

namespace Closed

variable {K : (α : Type) → Prog A R ε α → Prop} {α β : Type}

theorem ofExcept (h : Closed K) (r : Except ε α) : K α (.ofExcept r) := by
  cases r with
  | ok a => exact h.ret a
  | error e => exact h.raise e

/-- A `try` whose outcome is matched on. -/
theorem try_ (h : Closed K) {p : Prog A R ε α} {f : Except ε α → Prog A R ε β} (hp : K α p)
    (hok : ∀ a, K β (f (.ok a))) (herr : ∀ e, K β (f (.error e))) : K β (p.attempt.bind f) := by
  refine h.bind (h.attempt hp) fun r => ?_
  cases r with
  | ok a => exact hok a
  | error e => exact herr e

theorem tryExcept (h : Closed K) {p : Prog A R ε α} {handler : ε → Prog A R ε α} (hp : K α p)
    (hh : ∀ e, K α (handler e)) : K α (p.tryExcept handler) := h.try_ hp (fun a => h.ret a) hh

theorem ite {c : Prop} [Decidable c] {p p' : Prog A R ε α} (hp : K α p) (hp' : K α p') : K α (if c then p else p') := by
  split
  · exact hp
  · exact hp'

end Closed

theorem Only.closed (q : A → Prop) : Closed (fun _ (p : Prog A R ε _) => p.Only q) where
  ret _     := trivial
  raise _   := trivial
  bind      := Only.bind
  attempt   := Only.attempt

end Prog

/-! ## One thread in an environment -/

/-- A thread's protocol: what its actions do, what the others may do between them, what it promises of its own. -/
structure Proto (A : Type) (R : A → Type) (S : Type) where
  step : (a : A) → S → R a → S → Prop
  rely : S → S → Prop
  guar : S → S → Prop

namespace Proto

open Relation (ReflTransGen)

variable {A : Type} {R : A → Type} {ε α β S : Type} (π : Proto A R S)

/-- **The weakest precondition**: whatever the environment does between the program's actions, each action keeps the
guarantee and the result satisfies the postcondition in the state the program ends in. -/
def wp : Prog A R ε α → (Except ε α → S → Prop) → S → Prop
  | .ret a,   Q => Q (.ok a)
  | .raise e, Q => Q (.error e)
  | .act a k, Q => fun s => ∀ s₁, ReflTransGen π.rely s s₁ → ∀ r s₂, π.step a s₁ r s₂ → π.guar s₁ s₂ ∧ wp (k r) Q s₂

/-- The program keeps an invariant and its protocol. -/
def Keeps (I : S → Prop) (p : Prog A R ε α) : Prop := ∀ s, I s → π.wp p (fun _ => I) s

def Stable (P : S → Prop) : Prop := ∀ s s', π.rely s s' → P s → P s'

variable {π}

theorem Stable.star {P : S → Prop} (h : π.Stable P) {s s' : S} (hs : ReflTransGen π.rely s s') (hP : P s) : P s' := by
  induction hs with
  | refl => exact hP
  | tail _ hr ih => exact h _ _ hr ih

theorem Stable.and {P P' : S → Prop} (h : π.Stable P) (h' : π.Stable P') : π.Stable (fun s => P s ∧ P' s) :=
  fun s s' hr hs => ⟨h s s' hr hs.1, h' s s' hr hs.2⟩

/-- **The rule for one action**: a stable assertion holds when the action starts. -/
theorem wp_act {P : S → Prop} (hst : π.Stable P) {a : A} {k : R a → Prog A R ε α} {Q : Except ε α → S → Prop} {s : S}
    (hP : P s) (h : ∀ s₁ r s₂, P s₁ → π.step a s₁ r s₂ → π.guar s₁ s₂ ∧ π.wp (k r) Q s₂) : π.wp (.act a k) Q s :=
  fun s₁ hs r s₂ hstep => h s₁ r s₂ (hst.star hs hP) hstep

/-- What the environment does before the program starts. -/
theorem wp_star {Q : Except ε α → S → Prop} (hQ : ∀ r, π.Stable (Q r)) {s s' : S} (hs : ReflTransGen π.rely s s') :
    ∀ {p : Prog A R ε α}, π.wp p Q s → π.wp p Q s'
  | .ret _,   h => (hQ _).star hs h
  | .raise _, h => (hQ _).star hs h
  | .act _ _, h => fun s₁ hs₁ => h s₁ (hs.trans hs₁)

theorem wp_mono {Q Q' : Except ε α → S → Prop} (h : ∀ r s, Q r s → Q' r s) : ∀ (p : Prog A R ε α) (s : S),
    π.wp p Q s → π.wp p Q' s
  | .ret _, s, hp => h _ s hp
  | .raise _, s, hp => h _ s hp
  | .act _ k, _, hp => fun s₁ hs r s₂ hstep => ⟨(hp s₁ hs r s₂ hstep).1, wp_mono h (k r) s₂ (hp s₁ hs r s₂ hstep).2⟩

theorem wp_and {Q Q' : Except ε α → S → Prop} : ∀ (p : Prog A R ε α) (s : S), π.wp p Q s → π.wp p Q' s →
    π.wp p (fun r s => Q r s ∧ Q' r s) s
  | .ret _, _, h, h' => ⟨h, h'⟩
  | .raise _, _, h, h' => ⟨h, h'⟩
  | .act _ k, _, h, h' => fun s₁ hs r s₂ hstep =>
    ⟨(h s₁ hs r s₂ hstep).1, wp_and (k r) s₂ (h s₁ hs r s₂ hstep).2 (h' s₁ hs r s₂ hstep).2⟩

/-- **Sequencing**: a raised exception skips the continuation. -/
theorem wp_bind {f : α → Prog A R ε β} {Q : Except ε β → S → Prop} : ∀ (p : Prog A R ε α) (s : S),
    π.wp (p.bind f) Q s ↔
      π.wp p (fun r s => match r with | .ok a => π.wp (f a) Q s | .error e => Q (.error e) s) s
  | .ret _, _ => .rfl
  | .raise _, _ => .rfl
  | .act _ k, _ => by
    simp only [Prog.bind, wp, wp_bind (k _)]

theorem wp_attempt {Q : Except ε (Except ε α) → S → Prop} : ∀ (p : Prog A R ε α) (s : S),
    π.wp p.attempt Q s ↔ π.wp p (fun r => Q (.ok r)) s
  | .ret _, _ => .rfl
  | .raise _, _ => .rfl
  | .act _ k, _ => by
    simp only [Prog.attempt, wp, wp_attempt (k _)]

theorem wp_tryExcept {handler : ε → Prog A R ε α} {Q : Except ε α → S → Prop} (p : Prog A R ε α) (s : S) :
    π.wp (p.tryExcept handler) Q s ↔
      π.wp p (fun r s => match r with | .ok a => Q (.ok a) s | .error e => π.wp (handler e) Q s) s := by
  rw [Prog.tryExcept, wp_bind, wp_attempt]
  constructor <;> refine wp_mono (fun r s h => ?_) p s <;> cases r <;> exact h

theorem wp_call {P : S → Prop} (hst : π.Stable P) {a : A} {f : R a → Prog A R ε β} {Q : Except ε β → S → Prop} {s : S}
    (hP : P s) (h : ∀ s₁ r s₂, P s₁ → π.step a s₁ r s₂ → π.guar s₁ s₂ ∧ π.wp (f r) Q s₂) :
    π.wp (Prog.call a >>= f) Q s :=
  wp_act hst hP h

theorem wp_seq {p : Prog A R ε α} {f : α → Prog A R ε β} {M : Except ε α → S → Prop} {Q : Except ε β → S → Prop} {s : S}
    (hp : π.wp p M s) (hok : ∀ a s, M (.ok a) s → π.wp (f a) Q s) (herr : ∀ e s, M (.error e) s → Q (.error e) s) :
    π.wp (p >>= f) Q s :=
  (wp_bind p s).2 (wp_mono (fun r s h => by cases r with | ok a => exact hok a s h | error e => exact herr e s h) p s hp)

/-- A `try` whose outcome is matched on. -/
theorem wp_try {p : Prog A R ε α} {f : Except ε α → Prog A R ε β} {M : Except ε α → S → Prop}
    {Q : Except ε β → S → Prop} {s : S} (hp : π.wp p M s) (h : ∀ r s, M r s → π.wp (f r) Q s) :
    π.wp (p.attempt >>= f) Q s :=
  wp_seq ((wp_attempt (Q := fun r s => ∃ x, r = .ok x ∧ M x s) p s).2 (wp_mono (fun r _ hm => ⟨r, rfl, hm⟩) p s hp))
    (fun r s ⟨_, hr, hm⟩ => by obtain rfl := Except.ok.inj hr; exact h r s hm) (fun _ _ ⟨_, hr, _⟩ => by cases hr)

/-! ### Invariants -/

theorem Keeps.ret {I : S → Prop} (a : α) : π.Keeps I (.ret a : Prog A R ε α) := fun _ h => h

theorem Keeps.raise {I : S → Prop} (e : ε) : π.Keeps I (.raise e : Prog A R ε α) := fun _ h => h

theorem Keeps.bind {I : S → Prop} {p : Prog A R ε α} {f : α → Prog A R ε β} (hp : π.Keeps I p)
    (hf : ∀ a, π.Keeps I (f a)) : π.Keeps I (p.bind f) := by
  intro s hs
  rw [wp_bind]
  refine wp_mono (fun r s hI => ?_) p s (hp s hs)
  cases r with
  | ok a => exact hf a s hI
  | error e => exact hI

theorem Keeps.attempt {I : S → Prop} {p : Prog A R ε α} (hp : π.Keeps I p) : π.Keeps I p.attempt := by
  intro s hs
  rw [wp_attempt]
  exact hp s hs

theorem Keeps.tryExcept {I : S → Prop} {p : Prog A R ε α} {h : ε → Prog A R ε α} (hp : π.Keeps I p)
    (hh : ∀ e, π.Keeps I (h e)) : π.Keeps I (p.tryExcept h) :=
  hp.attempt.bind (fun r => by cases r with | ok a => exact .ret a | error e => exact hh e)

theorem Keeps.closed (I : S → Prop) : Prog.Closed (fun _ (p : Prog A R ε _) => π.Keeps I p) where
  ret     := .ret
  raise   := .raise
  bind    := .bind
  attempt := .attempt

theorem Keeps.call {I : S → Prop} (hst : π.Stable I) {a : A}
    (h : ∀ s r s', I s → π.step a s r s' → π.guar s s' ∧ I s') : π.Keeps I (.call a : Prog A R ε (R a)) :=
  fun _ hs => wp_act hst hs h

theorem Keeps.ofExcept {I : S → Prop} (r : Except ε α) : π.Keeps I (.ofExcept r : Prog A R ε α) := by
  cases r with
  | ok a => exact .ret a
  | error e => exact .raise e

theorem Keeps.only {I : S → Prop} (hst : π.Stable I) {q : A → Prop}
    (h : ∀ a, q a → ∀ s r s', I s → π.step a s r s' → π.guar s s' ∧ I s') : ∀ {p : Prog A R ε α}, p.Only q → π.Keeps I p
  | .ret a, _ => .ret a
  | .raise e, _ => .raise e
  | .act a _, ⟨ha, hk⟩ => fun _ hs => wp_act hst hs fun s₁ r s₂ h₁ hstep =>
    ⟨(h a ha s₁ r s₂ h₁ hstep).1, Keeps.only hst h (hk r) s₂ (h a ha s₁ r s₂ h₁ hstep).2⟩

/-! ### What a program raises -/

/-- The program keeps an invariant, and raises only what `E` admits. -/
def Raises (π : Proto A R S) (I : S → Prop) (E : ε → Prop) (p : Prog A R ε α) : Prop :=
  ∀ s, I s → π.wp p (fun r s => I s ∧ ∀ e, r = .error e → E e) s

section
variable {I : S → Prop} {E : ε → Prop}

theorem Raises.ret (a : α) : π.Raises I E (.ret a : Prog A R ε α) := fun _ h => ⟨h, fun _ he => by cases he⟩

theorem Raises.raise {e : ε} (he : E e) : π.Raises I E (.raise e : Prog A R ε α) :=
  fun _ h => ⟨h, fun e' he' => by obtain rfl := Except.error.inj he'; exact he⟩

theorem Raises.bind {p : Prog A R ε α} {f : α → Prog A R ε β} (hp : π.Raises I E p) (hf : ∀ a, π.Raises I E (f a)) :
    π.Raises I E (p.bind f) := by
  intro s hs
  refine wp_seq (hp s hs) (fun a s h => hf a s h.1) (fun e s h => ⟨h.1, fun e' he' => ?_⟩)
  obtain rfl := Except.error.inj he'
  exact h.2 e rfl

/-- A `try` whose outcome is matched on: a handled exception is one the body may raise. -/
theorem Raises.try_ {p : Prog A R ε α} {f : Except ε α → Prog A R ε β} (hp : π.Raises I E p)
    (hok : ∀ a, π.Raises I E (f (.ok a))) (herr : ∀ e, E e → π.Raises I E (f (.error e))) :
    π.Raises I E (p.attempt.bind f) := by
  intro s hs
  refine wp_try (hp s hs) (fun r s h => ?_)
  cases r with
  | ok a => exact hok a s h.1
  | error e => exact herr e (h.2 e rfl) s h.1

theorem Raises.tryExcept {p : Prog A R ε α} {handler : ε → Prog A R ε α} (hp : π.Raises I E p)
    (hh : ∀ e, E e → π.Raises I E (handler e)) : π.Raises I E (p.tryExcept handler) :=
  hp.try_ (fun a => .ret a) hh

theorem Raises.ite {c : Prop} [Decidable c] {p p' : Prog A R ε α} (hp : π.Raises I E p) (hp' : π.Raises I E p') :
    π.Raises I E (if c then p else p') := by
  split
  · exact hp
  · exact hp'

theorem Raises.call (hst : π.Stable I) {a : A} (h : ∀ s r s', I s → π.step a s r s' → π.guar s s' ∧ I s') :
    π.Raises I E (.call a : Prog A R ε (R a)) :=
  fun _ hs => wp_act hst hs fun s₁ r s₂ h₁ hstep =>
    ⟨(h s₁ r s₂ h₁ hstep).1, (h s₁ r s₂ h₁ hstep).2, fun _ he => by cases he⟩

/-- A call whose answer may be an exception. -/
theorem Raises.call_except (hst : π.Stable I) {a : A} (f : R a → Except ε α)
    (h : ∀ s r s', I s → π.step a s r s' → π.guar s s' ∧ I s' ∧ ∀ e, f r = .error e → E e) :
    π.Raises I E ((Prog.call a : Prog A R ε (R a)).bind fun r => Prog.ofExcept (f r)) := by
  intro s hs
  refine wp_act hst hs fun s₁ r s₂ h₁ hstep => ?_
  obtain ⟨hg, hI, he⟩ := h s₁ r s₂ h₁ hstep
  refine ⟨hg, ?_⟩
  show π.wp (Prog.ofExcept (f r)) _ s₂
  cases hr : f r with
  | ok x => exact Raises.ret x s₂ hI
  | error e => exact Raises.raise (he e hr) s₂ hI

end
end Proto

/-! ## A program alone

With nobody else around a program runs to its end, the environment choosing once at each action. -/

section
variable {A : Type} {R : A → Type} {ε α S C : Type} (ex : C → (a : A) → S → R a × S)

def Prog.run : Prog A R ε α → (Nat → C) → S → Except ε α × S
  | .ret a,   _,  s => (.ok a, s)
  | .raise e, _,  s => (.error e, s)
  | .act a k, ch, s => (k (ex (ch 0) a s).1).run (fun n => ch (n + 1)) (ex (ch 0) a s).2

/-- The protocol of a program alone, under the choices that `ok` allows. -/
def Proto.solo (ok : C → Prop) : Proto A R S where
  step a s r s' := ∃ c, ok c ∧ r = (ex c a s).1 ∧ s' = (ex c a s).2
  rely _ _      := False
  guar _ _      := True

variable {ex} {ok : C → Prop}

theorem Proto.solo_stable (P : S → Prop) : (Proto.solo ex ok).Stable P := fun _ _ h => h.elim

/-- An action alone: whatever the environment chooses, the rest starts where the action ends. -/
theorem Proto.wp_solo {β : Type} {a : A} {f : R a → Prog A R ε β} {Q : Except ε β → S → Prop} {s : S}
    (h : ∀ c, ok c → (Proto.solo ex ok).wp (f (ex c a s).1) Q (ex c a s).2) :
    (Proto.solo ex ok).wp (Prog.call a >>= f) Q s := by
  refine Proto.wp_call (Proto.solo_stable (· = s)) rfl (fun s₁ r s₂ h₁ ⟨c, hc, hr, hs⟩ => ⟨trivial, ?_⟩)
  subst h₁ hr hs
  exact h c hc

/-- **What each of its actions keeps, a program alone keeps.** -/
theorem Proto.keeps_solo {I : S → Prop} {q : A → Prop} (h : ∀ a, q a → ∀ c s, ok c → I s → I (ex c a s).2)
    {p : Prog A R ε α} (hp : p.Only q) : (Proto.solo ex ok).Keeps I p := by
  refine .only (Proto.solo_stable I) (fun a ha s r s' hs hst => ?_) hp
  obtain ⟨c, hc, -, rfl⟩ := hst
  exact ⟨trivial, h a ha c s hc hs⟩

theorem Proto.wp_solo_mono {ok' : C → Prop} (hok : ∀ c, ok' c → ok c) {Q : Except ε α → S → Prop} :
    ∀ (p : Prog A R ε α) (s : S), (Proto.solo ex ok).wp p Q s → (Proto.solo ex ok').wp p Q s
  | .ret _, _, h => h
  | .raise _, _, h => h
  | .act _ k, s, h => fun s₁ hs r s₂ ⟨c, hc, he⟩ => by
    have hst : (Proto.solo ex ok').Stable (· = s) := Proto.solo_stable _
    obtain rfl := hst.star hs rfl
    exact ⟨trivial, wp_solo_mono hok (k r) s₂ (h s₁ .refl r s₂ ⟨c, hok c hc, he⟩).2⟩

/-- **The run meets the weakest precondition.** -/
theorem Prog.run_of_wp {Q : Except ε α → S → Prop} : ∀ (p : Prog A R ε α) (ch : Nat → C) (s : S), (∀ n, ok (ch n)) →
    (Proto.solo ex ok).wp p Q s → Q (p.run ex ch s).1 (p.run ex ch s).2
  | .ret _, _, _, _, h => h
  | .raise _, _, _, _, h => h
  | .act _ k, ch, s, hok, h =>
    run_of_wp (k _) (fun n => ch (n + 1)) _ (fun n => hok (n + 1)) (h s .refl _ _ ⟨ch 0, hok 0, rfl, rfl⟩).2

/-- What every action keeps, a run keeps. -/
theorem Prog.run_keeps {B : S → Prop} (hB : ∀ c a s, B s → B (ex c a s).2) : ∀ (p : Prog A R ε α) (ch : Nat → C) (s : S),
    B s → B (p.run ex ch s).2
  | .ret _,   _,  _, h => h
  | .raise _, _,  _, h => h
  | .act _ k, ch, _, h => run_keeps hB (k _) (fun n => ch (n + 1)) _ (hB _ _ _ h)

/-- **A run that may leave the protocol**: its actions are the protocol's until one leads to `B`, which nothing leaves. -/
theorem Prog.run_or_of_wp {π : Proto A R S} {B : S → Prop} (hB : ∀ c a s, B s → B (ex c a s).2)
    {Q : Except ε α → S → Prop} : ∀ (p : Prog A R ε α) (ch : Nat → C) (s : S),
      (∀ n a s, π.step a s (ex (ch n) a s).1 (ex (ch n) a s).2 ∨ B (ex (ch n) a s).2) → π.wp p Q s →
      Q (p.run ex ch s).1 (p.run ex ch s).2 ∨ B (p.run ex ch s).2
  | .ret _,   _,  _, _, h => .inl h
  | .raise _, _,  _, _, h => .inl h
  | .act a k, ch, s, hstep, h => by
    rcases hstep 0 a s with hs | hb
    · exact run_or_of_wp hB (k _) (fun n => ch (n + 1)) _ (fun n => hstep (n + 1)) (h s .refl _ _ hs).2
    · exact .inr (run_keeps hB (k _) (fun n => ch (n + 1)) _ hb)

/-- The program killed after its first `n` actions. -/
def Prog.cut : Nat → Prog A R ε α → Prog A R ε Unit
  | n + 1, .act a k => .act a fun r => (k r).cut n
  | _,     _        => .ret ()

theorem Prog.Only.cut {q : A → Prop} : ∀ (n : Nat) {p : Prog A R ε α}, p.Only q → (p.cut n).Only q
  | 0,     .ret _,   _ => trivial
  | 0,     .raise _, _ => trivial
  | 0,     .act _ _, _ => trivial
  | _ + 1, .ret _,   _ => trivial
  | _ + 1, .raise _, _ => trivial
  | n + 1, .act _ _, h => ⟨h.1, fun r => .cut n (h.2 r)⟩

/-- What every action climbs, a run climbs. -/
theorem Prog.run_climbs {r : S → S → Prop} (hr : ∀ s, r s s) (ht : ∀ s₁ s₂ s₃, r s₁ s₂ → r s₂ s₃ → r s₁ s₃)
    (h : ∀ c a s, r s (ex c a s).2) : ∀ (p : Prog A R ε α) (ch : Nat → C) (s : S), r s (p.run ex ch s).2
  | .ret _,   _,  s => hr s
  | .raise _, _,  s => hr s
  | .act _ k, ch, s => ht _ _ _ (h (ch 0) _ s) (run_climbs hr ht h (k _) (fun n => ch (n + 1)) _)

/-- **A killed run ends below the whole run**, in any order that every action climbs. -/
theorem Prog.run_cut {r : S → S → Prop} (hr : ∀ s, r s s) (ht : ∀ s₁ s₂ s₃, r s₁ s₂ → r s₂ s₃ → r s₁ s₃)
    (h : ∀ c a s, r s (ex c a s).2) : ∀ (n : Nat) (p : Prog A R ε α) (ch : Nat → C) (s : S),
      r ((p.cut n).run ex ch s).2 (p.run ex ch s).2
  | 0,     .ret _,   _,  s => hr s
  | 0,     .raise _, _,  s => hr s
  | 0,     .act a k, ch, s => run_climbs hr ht h (.act a k) ch s
  | _ + 1, .ret _,   _,  s => hr s
  | _ + 1, .raise _, _,  s => hr s
  | n + 1, .act a k, ch, s => run_cut hr ht h n (k _) (fun n => ch (n + 1)) (ex (ch 0) a s).2

end
end Conc
