import Pypepper.ProgPar
/-!
# Monitor — methods under one lock are atomic

An object's methods take its lock, work on its fields action by action, and release the lock whether they return or
raise.  `critical` is such a method's body with what the caller does next, and `expand` a caller whose calls are spelled out
so.  When each body, run alone, does what the specification of its method says (`Implements`), every run of any callers is a
run of the callers whose calls are single steps (`Monitor.refines`): a call takes effect where it releases the lock.  A run
never gets stuck at the lock (`Monitor.progress`).
-/
namespace Conc

open Relation (ReflTransGen)

variable {ι A Op : Type} {R : A → Type} {Ans : Op → Type} {ε ε' α β S T : Type}

/-- What a thread does at an object with a lock. -/
inductive Locked (A : Type) where
  | acquire
  | release
  | inner (a : A)

@[reducible] def Locked.Res (R : A → Type) : Locked A → Type
  | .acquire => Unit
  | .release => Unit
  | .inner a => R a

abbrev LockProg (A : Type) (R : A → Type) (ε α : Type) := Prog (Locked A) (Locked.Res R) ε α

/-- The object's fields and the thread that holds its lock. -/
abbrev Guarded (ι S : Type) := S × Option ι

/-- A free lock is taken, the holder gives it back, and the fields change by the inner actions. -/
def lockSem (δ : (a : A) → S → R a → S → Prop) : Sem ι (Locked A) (Locked.Res R) (Guarded ι S)
  | i, .acquire, s, _, s' => s.2 = none ∧ s' = (s.1, some i)
  | i, .release, s, _, s' => s.2 = some i ∧ s' = (s.1, none)
  | _, .inner a, s, r, s' => δ a s.1 r s'.1 ∧ s'.2 = s.2

namespace Prog

/-- A method's body inside the lock, and what follows its release. -/
def critical (k : Except ε β → LockProg A R ε' α) : Prog A R ε β → LockProg A R ε' α
  | .ret b   => .act .release fun _ => k (.ok b)
  | .raise e => .act .release fun _ => k (.error e)
  | .act a f => .act (.inner a) fun r => critical k (f r)

/-- A caller of the methods, each call spelled out. -/
def expand (body : (o : Op) → Prog A R ε (Ans o)) : Prog Op (fun o => Except ε (Ans o)) ε' α → LockProg A R ε' α
  | .ret a   => .ret a
  | .raise e => .raise e
  | .act o k => .act .acquire fun _ => critical (fun r => expand body (k r)) (body o)

/-- The program run alone: what it may answer and leave. -/
def Alone (δ : (a : A) → S → R a → S → Prop) : Prog A R ε β → S → Except ε β → S → Prop
  | .ret b,   s, r, s' => r = .ok b ∧ s' = s
  | .raise e, s, r, s' => r = .error e ∧ s' = s
  | .act a k, s, r, s' => ∃ x s₁, δ a s x s₁ ∧ Alone δ (k x) s₁ r s'

/-- Where every action has one outcome, a program alone has one. -/
theorem alone_iff {ex : (a : A) → S → R a × S} : ∀ {p : Prog A R ε β} {s : S} {r : Except ε β} {s' : S},
    Alone (fun a s r s' => ex a s = (r, s')) p s r s' ↔ p.run (fun _ : Unit => ex) (fun _ => ()) s = (r, s')
  | .ret b, s, r, s' => by simp [Alone, run, eq_comm]
  | .raise e, s, r, s' => by simp [Alone, run, eq_comm]
  | .act a k, s, r, s' => by
    rw [run, ← alone_iff]
    constructor
    · rintro ⟨x, s₁, hx, h⟩
      rw [hx]
      exact h
    · exact fun h => ⟨_, _, rfl, h⟩

theorem finished_expand {body : (o : Op) → Prog A R ε (Ans o)} (p : Prog Op (fun o => Except ε (Ans o)) ε' α) :
    (p.expand body).finished = p.finished := by
  cases p <;> rfl

theorem finished_critical {k : Except ε β → LockProg A R ε' α} (p : Prog A R ε β) : (p.critical k).finished = none := by
  cases p <;> rfl

end Prog

open Prog (critical expand Alone)

/-- **The bodies do what the specification says**: alone, from fields that represent an abstract value. -/
def Implements (δ : (a : A) → S → R a → S → Prop) (body : (o : Op) → Prog A R ε (Ans o)) (Rep : T → S → Prop)
    (spec : (o : Op) → T → Except ε (Ans o) → T → Prop) : Prop :=
  ∀ o t s r s', Rep t s → Alone δ (body o) s r s' → ∃ t', spec o t r t' ∧ Rep t' s'

namespace Monitor

variable {δ : (a : A) → S → R a → S → Prop} {body : (o : Op) → Prog A R ε (Ans o)} {Rep : T → S → Prop}
  {spec : (o : Op) → T → Except ε (Ans o) → T → Prop}

/-- Callers whose calls are single steps. -/
abbrev Callers (ι : Type) {Op : Type} (Ans : Op → Type) (ε ε' α T : Type) :=
  Conf ι Op (fun o => Except ε (Ans o)) ε' α T

/-- The same callers at the object, its lock free. -/
def spread (body : (o : Op) → Prog A R ε (Ans o)) (d : Callers ι Ans ε ε' α T) (s : S) :
    Conf ι (Locked A) (Locked.Res R) ε' α (Guarded ι S) where
  prog i := (d.prog i).expand body
  state  := (s, none)

/-- **How the callers at the object stand to the callers with single steps**: with the lock free they agree; a thread that
holds it has yet to make its step, and the rest of its body leads where the specification allows. -/
inductive Follows (δ : (a : A) → S → R a → S → Prop) (body : (o : Op) → Prog A R ε (Ans o)) (Rep : T → S → Prop)
    (spec : (o : Op) → T → Except ε (Ans o) → T → Prop) (c : Conf ι (Locked A) (Locked.Res R) ε' α (Guarded ι S))
    (d : Callers ι Ans ε ε' α T) : Prop
  | free : c.state.2 = none → Rep d.state c.state.1 → (∀ i, c.prog i = (d.prog i).expand body) → Follows δ body Rep spec c d
  | held (i : ι) (o : Op) (k : Except ε (Ans o) → Prog Op (fun o => Except ε (Ans o)) ε' α) (q : Prog A R ε (Ans o)) :
      c.state.2 = some i → d.prog i = .act o k → c.prog i = critical (fun r => (k r).expand body) q →
      (∀ r s', Alone δ q c.state.1 r s' → ∃ t', spec o d.state r t' ∧ Rep t' s') →
      (∀ j, j ≠ i → c.prog j = (d.prog j).expand body) → Follows δ body Rep spec c d

variable {c c' : Conf ι (Locked A) (Locked.Res R) ε' α (Guarded ι S)} {d d' : Callers ι Ans ε ε' α T}

/-- A finished thread has finished with the same result. -/
theorem Follows.finished (h : Follows δ body Rep spec c d) {i : ι} {r : Except ε' α}
    (hf : (c.prog i).finished = some r) : (d.prog i).finished = some r := by
  cases h with
  | free _ _ hp =>
    rw [hp, Prog.finished_expand] at hf
    exact hf
  | held j o k q _ _ hc _ hp =>
    by_cases hij : i = j
    · subst hij
      rw [hc, Prog.finished_critical] at hf
      cases hf
    · rw [hp i hij, Prog.finished_expand] at hf
      exact hf

theorem Follows.rep (h : Follows δ body Rep spec c d) (hfree : c.state.2 = none) : Rep d.state c.state.1 := by
  cases h with
  | free _ hs _ => exact hs
  | held i _ _ _ hl =>
    rw [hl] at hfree
    cases hfree

variable [DecidableEq ι]

/-- The release is where the call takes effect. -/
theorem released {i : ι} {o : Op} {k : Except ε (Ans o) → Prog Op (fun o => Except ε (Ans o)) ε' α} {r : Except ε (Ans o)}
    {s : S} (hd : d.prog i = .act o k) (h : ∃ t', spec o d.state r t' ∧ Rep t' s)
    (hprog : ∀ j, j ≠ i → c.prog j = (d.prog j).expand body) :
    ∃ d', Conf.Step (fun _ o t r t' => spec o t r t') i d d' ∧
      Follows δ body Rep spec ⟨Function.update c.prog i ((k r).expand body), (s, none)⟩ d' := by
  obtain ⟨t', hspec, hrep⟩ := h
  refine ⟨_, .mk hd hspec, .free rfl hrep fun j => ?_⟩
  by_cases hj : j = i
  · subst hj
    simp only [Function.update_self]
  · simp only [Function.update_of_ne hj]
    exact hprog j hj

/-- **One step at the object** is a step of nobody, or, at a release, the step of the call that ends. -/
theorem Follows.step (himpl : Implements δ body Rep spec) (h : Follows δ body Rep spec c d) {i : ι}
    (hs : Conf.Step (lockSem δ) i c c') :
    Follows δ body Rep spec c' d ∨
      ∃ d', Conf.Step (fun _ o t r t' => spec o t r t') i d d' ∧ Follows δ body Rep spec c' d' := by
  obtain ⟨hp, hd⟩ := hs
  rename_i a f r s'
  cases h with
  | free hl hrep hprog =>
    -- nobody holds the lock, so the action is the first of a call
    have hexp := hprog i
    rw [hp] at hexp
    cases hdi : d.prog i with
    | ret x => rw [hdi] at hexp; cases hexp
    | raise e => rw [hdi] at hexp; cases hexp
    | act o k =>
      rw [hdi, Prog.expand] at hexp
      cases hexp
      obtain ⟨-, rfl⟩ := hd
      refine .inl (.held i o k (body o) rfl hdi (Function.update_self ..) ?_ fun j hj => ?_)
      · exact fun r s' ha => himpl o _ _ r s' hrep ha
      · simp only [Function.update_of_ne hj]
        exact hprog j
  | held j o k q hl hdj hcj halone hprog =>
    by_cases hij : i = j
    · subst hij
      rw [hp] at hcj
      cases q with
      | act b g =>
        cases hcj
        obtain ⟨hstep, hlock⟩ := hd
        refine .inl (.held i o k (g r) (hlock.trans hl) hdj (Function.update_self ..) (fun r' s₂ ha => ?_) fun j hj => ?_)
        · exact halone r' s₂ ⟨r, s'.1, hstep, ha⟩
        · simp only [Function.update_of_ne hj]
          exact hprog j hj
      | ret b =>
        cases hcj
        obtain ⟨-, rfl⟩ := hd
        exact .inr (released hdj (halone _ _ ⟨rfl, rfl⟩) hprog)
      | raise e =>
        cases hcj
        obtain ⟨-, rfl⟩ := hd
        exact .inr (released hdj (halone _ _ ⟨rfl, rfl⟩) hprog)
    · -- another thread can only wait for the lock
      have hexp := hprog i hij
      rw [hp] at hexp
      cases hdi : d.prog i with
      | ret x => rw [hdi] at hexp; cases hexp
      | raise e => rw [hdi] at hexp; cases hexp
      | act o' k' =>
        rw [hdi, Prog.expand] at hexp
        cases hexp
        rw [lockSem, hl] at hd
        cases hd.1

/-! ### Executing a schedule -/

/-- One action of a thread whose fields answer `ex`; none where it has to wait. -/
def lockExec (ex : (a : A) → S → R a × S) (i : ι) : (a : Locked A) → Guarded ι S → Option (Locked.Res R a × Guarded ι S)
  | .acquire, s => if s.2 = none then some ((), s.1, some i) else none
  | .release, s => if s.2 = some i then some ((), s.1, none) else none
  | .inner a, s => some ((ex a s.1).1, (ex a s.1).2, s.2)

/-- The threads move in the order given. -/
def play (ex : (a : A) → S → R a × S) : List ι → Conf ι (Locked A) (Locked.Res R) ε' α (Guarded ι S) →
    Option (Conf ι (Locked A) (Locked.Res R) ε' α (Guarded ι S))
  | [],       c => some c
  | i :: sch, c =>
    match c.prog i with
    | .act a k => (lockExec ex i a c.state).bind fun p => play ex sch ⟨Function.update c.prog i (k p.1), p.2⟩
    | _        => none

theorem lockSem_of_exec {ex : (a : A) → S → R a × S} {i : ι} {a : Locked A} {s : Guarded ι S}
    {p : Locked.Res R a × Guarded ι S} (h : lockExec ex i a s = some p) :
    lockSem (fun a s r s' => ex a s = (r, s')) i a s p.1 p.2 := by
  cases a with
  | acquire =>
    obtain ⟨hfree, hp⟩ := Option.ite_none_right_eq_some.1 h
    obtain rfl := Option.some.inj hp
    exact ⟨hfree, rfl⟩
  | release =>
    obtain ⟨hheld, hp⟩ := Option.ite_none_right_eq_some.1 h
    obtain rfl := Option.some.inj hp
    exact ⟨hheld, rfl⟩
  | inner a =>
    obtain rfl := Option.some.inj h
    exact ⟨rfl, rfl⟩

/-- **A schedule that was played is a run.** -/
theorem runs_of_play {ex : (a : A) → S → R a × S} : ∀ (sch : List ι)
    {c c' : Conf ι (Locked A) (Locked.Res R) ε' α (Guarded ι S)}, play ex sch c = some c' →
      Conf.Runs (lockSem fun a s r s' => ex a s = (r, s')) c c'
  | [], c, c', h => by obtain rfl := Option.some.inj h; exact .refl
  | i :: sch, c, c', h => by
    rw [play] at h
    split at h
    · rename_i a k hp
      obtain ⟨p, hx, h⟩ := Option.bind_eq_some_iff.1 h
      exact ReflTransGen.head ⟨i, .mk hp (lockSem_of_exec hx)⟩ (runs_of_play sch h)
    · cases h

/-- **Methods under a lock are atomic**: every run of callers at the object is a run of the callers whose calls are single
steps, as far as each caller can tell. -/
theorem refines (himpl : Implements δ body Rep spec) {s : S} (hrep : Rep d.state s)
    (hr : Conf.Runs (lockSem δ) (spread body d s) c) :
    ∃ d', Conf.Runs (fun _ o t r t' => spec o t r t') d d' ∧ Follows δ body Rep spec c d' := by
  induction hr with
  | refl => exact ⟨d, .refl, .free rfl hrep fun _ => rfl⟩
  | tail _ hs ih =>
    obtain ⟨d', hd, hf⟩ := ih
    obtain ⟨i, hs⟩ := hs
    rcases hf.step himpl hs with h | ⟨d'', hstep, h⟩
    · exact ⟨d', hd, h⟩
    · exact ⟨d'', hd.tail ⟨i, hstep⟩, h⟩

theorem exists_step {j : ι} {b : Locked A} {g : Locked.Res R b → LockProg A R ε' α} {r : Locked.Res R b}
    {s : Guarded ι S} (hp : c.prog j = .act b g) (hd : lockSem δ j b c.state r s) :
    ∃ j c', Conf.Step (lockSem δ) j c c' := ⟨j, _, .mk hp hd⟩

/-- **No run gets stuck at the lock**: while a thread has not finished, some thread can move. -/
theorem progress (htotal : ∀ a s, ∃ r s', δ a s r s') (h : Follows δ body Rep spec c d) {i : ι}
    (hi : (c.prog i).finished = none) : ∃ j c', Conf.Step (lockSem δ) j c c' := by
  cases h with
  | free hl _ hprog =>
    cases hdi : d.prog i with
    | ret x => rw [hprog, hdi] at hi; cases hi
    | raise e => rw [hprog, hdi] at hi; cases hi
    | act o k =>
      have hp := hprog i
      rw [hdi, Prog.expand] at hp
      have hd : lockSem δ i .acquire c.state () (c.state.1, some i) := ⟨hl, rfl⟩
      exact exists_step hp hd
  | held j o k q hl _ hcj _ _ =>
    have hrelease : lockSem δ j .release c.state () (c.state.1, none) := ⟨hl, rfl⟩
    cases q with
    | act b g =>
      obtain ⟨r, s', hb⟩ := htotal b c.state.1
      have hd : lockSem δ j (.inner b) c.state r (s', c.state.2) := ⟨hb, rfl⟩
      exact exists_step hcj hd
    | ret b => exact exists_step hcj hrelease
    | raise e => exact exists_step hcj hrelease

end Monitor
end Conc
