import Pypepper.ProgPar
/-!
# Inline — actions carried out by programs

`Prog.inline` replaces each action of a program by a program over finer actions, which other threads may come between.
When every such program takes the effect of its action in one of its own steps, and returns what it was answered there
(`Carries`), each run of the inlined threads follows a run of the threads themselves: the states stay related, and a thread
ends as its original does (`Follows.run`, `Follows.finished`).
-/
namespace Conc

open Relation (ReflTransGen)

variable {ι A B : Type} {R : A → Type} {T : B → Type} {ε α β S S' : Type}

namespace Prog

/-- The program, each action carried out by a program. -/
def inline (impl : (a : A) → Prog B T ε (R a)) : Prog A R ε α → Prog B T ε α
  | ret a   => ret a
  | raise e => raise e
  | act a k => (impl a).bind fun r => (k r).inline impl

/-! ### Programs under an assumption on their answers -/

/-- Every action is one `q` admits, as long as the answers were those `ans` admits. -/
def Under (ans : (a : A) → R a → Prop) (q : A → Prop) : Prog A R ε α → Prop
  | ret _   => True
  | raise _ => True
  | act a k => q a ∧ ∀ r, ans a r → (k r).Under ans q

variable {ans : (a : A) → R a → Prop} {q : A → Prop}

theorem Under.call {a : A} (h : q a) : (call a : Prog A R ε (R a)).Under ans q := ⟨h, fun _ _ => trivial⟩

theorem Under.bind {f : α → Prog A R ε β} : ∀ {p : Prog A R ε α}, p.Under ans q → (∀ a, (f a).Under ans q) →
    (p.bind f).Under ans q
  | .ret a, _, hf => hf a
  | .raise _, _, _ => trivial
  | .act _ _, ⟨ha, hk⟩, hf => ⟨ha, fun r hr => (hk r hr).bind hf⟩

theorem Under.attempt : ∀ {p : Prog A R ε α}, p.Under ans q → p.attempt.Under ans q
  | .ret _, _ => trivial
  | .raise _, _ => trivial
  | .act _ _, ⟨ha, hk⟩ => ⟨ha, fun r hr => (hk r hr).attempt⟩

/-- What holds of every action holds under any assumption. -/
theorem Only.under : ∀ {p : Prog A R ε α}, p.Only q → p.Under ans q
  | .ret _, _ => trivial
  | .raise _, _ => trivial
  | .act _ _, ⟨ha, hk⟩ => ⟨ha, fun r _ => (hk r).under⟩

theorem Under.closed (ans : (a : A) → R a → Prop) (q : A → Prop) :
    Closed (fun _ (p : Prog A R ε _) => p.Under ans q) where
  ret _   := trivial
  raise _ := trivial
  bind    := Under.bind
  attempt := Under.attempt

end Prog

/-! ## What carries an action out -/

section
variable (δ : Sem ι A R S) (δ' : Sem ι B T S') (rel : S' → S → Prop) (guar : S' × S → S' × S → Prop)
  (ans : (a : A) → R a → Prop)

/-- The action waits, or takes effect with an answer. -/
inductive Takes (i : ι) (a : A) : Option (R a) → S → Option (R a) → S → Prop
  | waits {o : Option (R a)} {s : S} : Takes i a o s o s
  | takes {s s' : S} {r : R a} : δ i a s r s' → ans a r → Takes i a none s (some r) s'

/-- **The program carries the action out**: whatever the others do meanwhile, one of its steps takes the action's effect,
every other leaves the coarse state alone, and it returns the answer. -/
def Carries (i : ι) (a : A) : Prog B T ε (R a) → Option (R a) → S' × S → Prop
  | .ret r,   o => fun _ => o = some r
  | .raise _, _ => fun _ => False
  | .act b k, o => fun x => ∀ y, ReflTransGen guar x y → rel y.1 y.2 → ∀ r t, δ' i b y.1 r t →
    ∃ o' s, Takes δ ans i a o y.2 o' s ∧ rel t s ∧ guar y (t, s) ∧ Carries i a (k r) o' (t, s)

variable (impl : (a : A) → Prog B T ε (R a)) (ok : A → Prop)

/-- Where a thread is: between two actions, or carrying one out, before or after it took effect. -/
inductive Stage (i : ι) : Prog B T ε α → Prog A R ε α → S' × S → Prop
  | idle {p : Prog A R ε α} {y : S' × S} : p.Under ans ok → Stage i (p.inline impl) p y
  | before {a : A} {k : R a → Prog A R ε α} {q : Prog B T ε (R a)} {x y : S' × S} :
      (Prog.act a k).Under ans ok → ReflTransGen guar x y → Carries δ δ' rel guar ans i a q none x →
      Stage i (q.bind fun r => (k r).inline impl) (.act a k) y
  | after {a : A} {k : R a → Prog A R ε α} {q : Prog B T ε (R a)} {r : R a} {x y : S' × S} :
      (k r).Under ans ok → ReflTransGen guar x y → Carries δ δ' rel guar ans i a q (some r) x →
      Stage i (q.bind fun r => (k r).inline impl) (k r) y

/-- The threads are where the original ones are, in related states. -/
structure Follows (c' : Conf ι B T ε α S') (c : Conf ι A R ε α S) : Prop where
  states : rel c'.state c.state
  stages : ∀ i, Stage δ δ' rel guar ans impl ok i (c'.prog i) (c.prog i) (c'.state, c.state)

end

section
variable {δ : Sem ι A R S} {δ' : Sem ι B T S'} {rel : S' → S → Prop} {guar : S' × S → S' × S → Prop}
  {ans : (a : A) → R a → Prop} {impl : (a : A) → Prog B T ε (R a)} {ok : A → Prop}

theorem Stage.mono {i : ι} {p' : Prog B T ε α} {p : Prog A R ε α} {x y : S' × S}
    (h : Stage δ δ' rel guar ans impl ok i p' p x) (hg : guar x y) : Stage δ δ' rel guar ans impl ok i p' p y := by
  cases h with
  | idle hp => exact .idle hp
  | before hp hx hc => exact .before hp (hx.tail hg) hc
  | after hp hx hc => exact .after hp (hx.tail hg) hc

/-- A step of the original thread, or none. -/
def Moved (δ : Sem ι A R S) (i : ι) (p : Prog A R ε α) (s : S) (p₁ : Prog A R ε α) (s₁ : S) : Prop :=
  (p₁ = p ∧ s₁ = s) ∨ ∃ a k r, p = .act a k ∧ p₁ = k r ∧ δ i a s r s₁

section
variable {i : ι} {b : B} {kb : T b → Prog B T ε α} {p : Prog A R ε α} {x y : S' × S} {r : T b} {t : S'}

/-- What a step of a thread leaves. -/
def Advances (δ : Sem ι A R S) (δ' : Sem ι B T S') (rel : S' → S → Prop) (guar : S' × S → S' × S → Prop)
    (ans : (a : A) → R a → Prop) (impl : (a : A) → Prog B T ε (R a)) (ok : A → Prop) (i : ι) (p' : Prog B T ε α)
    (p : Prog A R ε α) (y : S' × S) (t : S') : Prop :=
  ∃ p₁ s, Moved δ i p y.2 p₁ s ∧ rel t s ∧ guar y (t, s) ∧ Stage δ δ' rel guar ans impl ok i p' p₁ (t, s)

/-- A step before the action took effect. -/
theorem Carries.advances {a : A} {k : R a → Prog A R ε α} {q : Prog B T ε (R a)} (hp : (Prog.act a k).Under ans ok)
    (hx : ReflTransGen guar x y) (hc : Carries δ δ' rel guar ans i a q none x) (hrel : rel y.1 y.2)
    (hb : (q.bind fun r => (k r).inline impl) = .act b kb) (hd : δ' i b y.1 r t) :
    Advances δ δ' rel guar ans impl ok i (kb r) (.act a k) y t := by
  cases q with
  | ret r₀ => cases hc
  | raise e => exact hc.elim
  | act b₀ kq =>
    obtain ⟨rfl, rfl⟩ := Prog.act.inj hb
    obtain ⟨o', s, htakes, ht, hg, hk⟩ := hc y hx hrel r t hd
    cases htakes with
    | waits => exact ⟨_, _, .inl ⟨rfl, rfl⟩, ht, hg, .before hp .refl hk⟩
    | takes hδ hans => exact ⟨_, _, .inr ⟨_, _, _, rfl, rfl, hδ⟩, ht, hg, .after (hp.2 _ hans) .refl hk⟩

/-- **One step of a thread** is a step of the original one or none, and leaves it at a stage. -/
theorem Stage.advances (hstart : ∀ i a x, ok a → rel x.1 x.2 → Carries δ δ' rel guar ans i a (impl a) none x)
    {p' : Prog B T ε α} (h : Stage δ δ' rel guar ans impl ok i p' p y) (hrel : rel y.1 y.2) (hb : p' = .act b kb)
    (hd : δ' i b y.1 r t) : Advances δ δ' rel guar ans impl ok i (kb r) p y t := by
  have hidle : ∀ p : Prog A R ε α, p.Under ans ok → p.inline impl = .act b kb →
      Advances δ δ' rel guar ans impl ok i (kb r) p y t := by
    intro p hp hb
    cases p with
    | ret a => cases hb
    | raise e => cases hb
    | act a k => exact (hstart i a y hp.1 hrel).advances hp .refl hrel hb hd
  cases h with
  | idle hp => exact hidle _ hp hb
  | before hp hx hc => exact hc.advances hp hx hrel hb hd
  | @after a k q r₀ x y hp hx hc =>
    cases q with
    | ret r₁ =>
      obtain rfl := Option.some.inj hc
      exact hidle _ hp hb
    | raise e => exact hc.elim
    | act b₀ kq =>
      obtain ⟨rfl, rfl⟩ := Prog.act.inj hb
      obtain ⟨o', s, htakes, ht, hg, hk⟩ := hc y hx hrel r t hd
      cases htakes
      exact ⟨_, _, .inl ⟨rfl, rfl⟩, ht, hg, .after hp .refl hk⟩

/-- A thread that has ended, ended as the original did. -/
theorem Stage.finished (hstart : ∀ i a x, ok a → rel x.1 x.2 → Carries δ δ' rel guar ans i a (impl a) none x)
    {p' : Prog B T ε α} (h : Stage δ δ' rel guar ans impl ok i p' p y) (hrel : rel y.1 y.2) {o : Except ε α}
    (hf : p'.finished = some o) : p.finished = some o := by
  have hidle : ∀ p : Prog A R ε α, p.Under ans ok → (p.inline impl).finished = some o → p.finished = some o := by
    intro p hp hf
    cases p with
    | ret a => exact hf
    | raise e => exact hf
    | act a k =>
      have hc := hstart i a y hp.1 hrel
      simp only [Prog.inline] at hf
      cases hq : impl a with
      | ret r₀ =>
        rw [hq] at hc
        cases hc
      | raise e =>
        rw [hq] at hc
        exact hc.elim
      | act b₀ kq =>
        rw [hq] at hf
        cases hf
  cases h with
  | idle hp => exact hidle _ hp hf
  | @before a k q x y hp hx hc =>
    cases q with
    | ret r₀ => cases hc
    | raise e => exact hc.elim
    | act b₀ kq => cases hf
  | @after a k q r₀ x y hp hx hc =>
    cases q with
    | ret r₁ =>
      obtain rfl := Option.some.inj hc
      exact hidle _ hp hf
    | raise e => exact hc.elim
    | act b₀ kq => cases hf

end

/-! ## Runs -/

theorem Follows.init {t : S'} {s : S} (hrel : rel t s) {prog : ι → Prog A R ε α} (hp : ∀ i, (prog i).Under ans ok) :
    Follows δ δ' rel guar ans impl ok ⟨fun i => (prog i).inline impl, t⟩ ⟨prog, s⟩ :=
  ⟨hrel, fun i => .idle (hp i)⟩

variable (hstart : ∀ i a x, ok a → rel x.1 x.2 → Carries δ δ' rel guar ans i a (impl a) none x)
include hstart

/-- **How a thread ended**, its original ended. -/
theorem Follows.finished {c' : Conf ι B T ε α S'} {c : Conf ι A R ε α S}
    (h : Follows δ δ' rel guar ans impl ok c' c) {i : ι} {o : Except ε α} (hf : (c'.prog i).finished = some o) :
    (c.prog i).finished = some o :=
  (h.stages i).finished hstart h.states hf

variable [DecidableEq ι]

/-- One step is followed by one step or none. -/
theorem Follows.step {c' c₁' : Conf ι B T ε α S'} {c : Conf ι A R ε α S}
    (h : Follows δ δ' rel guar ans impl ok c' c) {i : ι} (hs : Conf.Step δ' i c' c₁') :
    ∃ c₁, Conf.Runs δ c c₁ ∧ Follows δ δ' rel guar ans impl ok c₁' c₁ := by
  obtain ⟨hp, hd⟩ := hs
  rename_i b kb r t
  obtain ⟨p₁, s, hmoved, hrel, hg, hstage⟩ := (h.stages i).advances hstart h.states hp hd
  have hfollows : Follows δ δ' rel guar ans impl ok ⟨Function.update c'.prog i (kb r), t⟩
      ⟨Function.update c.prog i p₁, s⟩ := by
    refine ⟨hrel, fun j => ?_⟩
    by_cases hj : j = i
    · subst hj
      simpa using hstage
    · simpa [hj] using (h.stages j).mono hg
  refine ⟨_, ?_, hfollows⟩
  obtain ⟨rfl, rfl⟩ | ⟨a, k, r₀, hact, rfl, hδ⟩ := hmoved
  · rw [Function.update_eq_self]
    exact .refl
  · exact .single ⟨i, .mk hact hδ⟩

/-- **Every run of the inlined threads follows a run of the threads.** -/
theorem Follows.run {c' c₁' : Conf ι B T ε α S'} {c : Conf ι A R ε α S}
    (h : Follows δ δ' rel guar ans impl ok c' c) (hr : Conf.Runs δ' c' c₁') :
    ∃ c₁, Conf.Runs δ c c₁ ∧ Follows δ δ' rel guar ans impl ok c₁' c₁ := by
  induction hr with
  | refl => exact ⟨c, .refl, h⟩
  | tail _ hs ih =>
    obtain ⟨c₁, hrun, hf⟩ := ih
    obtain ⟨i, hs⟩ := hs
    obtain ⟨c₂, hrun', hf'⟩ := hf.step hstart hs
    exact ⟨c₂, hrun.trans hrun', hf'⟩

end
end Conc
