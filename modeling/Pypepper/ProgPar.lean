import Mathlib.Logic.Function.Basic
import Pypepper.Prog
/-!
# ProgPar — threads interleaved at their actions

A configuration is a program for each thread and one shared state; a step lets one thread perform its next action.
When every thread meets its protocol and each guarantee is the others' rely, every run keeps them (`Held.runs`): each step
keeps its thread's guarantee, and a thread's postcondition holds in the state it finishes in (`Held.step`).

`logged` records the actions in the state, so that a property of a run is a property of the state it reaches, and
`execs` executes a schedule.
-/
namespace Conc

open Relation (ReflTransGen)

variable {ι A : Type} {R : A → Type} {ε α S C : Type}

structure Conf (ι A : Type) (R : A → Type) (ε α S : Type) where
  prog  : ι → Prog A R ε α
  state : S

/-- What an action of a thread may answer and leave; no answer means that it blocks. -/
abbrev Sem (ι A : Type) (R : A → Type) (S : Type) := ι → (a : A) → S → R a → S → Prop

namespace Conf

/-- **What a protocol holds of a configuration**: each thread's precondition held at some moment since which only the
others moved. -/
def Held (π : ι → Proto A R S) (Q : ι → Except ε α → S → Prop) (c : Conf ι A R ε α S) : Prop :=
  ∀ i, ∃ s₀, ReflTransGen (π i).rely s₀ c.state ∧ (π i).wp (c.prog i) (Q i) s₀

theorem Held.init {π : ι → Proto A R S} {Q : ι → Except ε α → S → Prop} {c : Conf ι A R ε α S}
    (h : ∀ i, (π i).wp (c.prog i) (Q i) c.state) : Held π Q c :=
  fun i => ⟨c.state, .refl, h i⟩

variable {π : ι → Proto A R S} {Q : ι → Except ε α → S → Prop} {c c' : Conf ι A R ε α S}

/-- **A finished thread's postcondition** holds now, when the others keep it. -/
theorem Held.post (h : Held π Q c) {i : ι} {r : Except ε α} (hf : (c.prog i).finished = some r)
    (hst : (π i).Stable (Q i r)) : Q i r c.state := by
  obtain ⟨s₀, hrely, hwp⟩ := h i
  refine hst.star hrely ?_
  cases hp : c.prog i with
  | ret a => rw [hp] at hf hwp; obtain rfl := Option.some.inj hf; exact hwp
  | raise e => rw [hp] at hf hwp; obtain rfl := Option.some.inj hf; exact hwp
  | act a k => rw [hp] at hf; cases hf

variable [DecidableEq ι]

inductive Step (δ : Sem ι A R S) (i : ι) : Conf ι A R ε α S → Conf ι A R ε α S → Prop
  | mk {c : Conf ι A R ε α S} {a : A} {k : R a → Prog A R ε α} {r : R a} {s' : S} :
      c.prog i = .act a k → δ i a c.state r s' → Step δ i c ⟨Function.update c.prog i (k r), s'⟩

/-- A run: steps of any threads in any order. -/
def Runs (δ : Sem ι A R S) : Conf ι A R ε α S → Conf ι A R ε α S → Prop :=
  ReflTransGen (fun c c' => ∃ i, Step δ i c c')

/-- **One step** keeps its thread's guarantee, leaves its precondition for the rest, and disturbs no other thread. -/
theorem Held.step (hcompat : ∀ i j, i ≠ j → ∀ s s', (π j).guar s s' → (π i).rely s s') (h : Held π Q c) {i : ι}
    (hs : Step (fun i => (π i).step) i c c') :
    (π i).guar c.state c'.state ∧ (π i).wp (c'.prog i) (Q i) c'.state ∧ Held π Q c' := by
  obtain ⟨hp, hd⟩ := hs
  rename_i a k r s'
  obtain ⟨s₀, hrely, hwp⟩ := h i
  rw [hp] at hwp
  obtain ⟨hg, hk⟩ := hwp c.state hrely r s' hd
  refine ⟨hg, by simpa using hk, fun j => ?_⟩
  by_cases hj : j = i
  · subst hj
    exact ⟨s', .refl, by simpa using hk⟩
  · obtain ⟨s₁, hrely₁, hwp₁⟩ := h j
    exact ⟨s₁, hrely₁.tail (hcompat j i hj _ _ hg), by simpa [hj] using hwp₁⟩

/-- **A whole run** keeps the protocols. -/
theorem Held.runs (hcompat : ∀ i j, i ≠ j → ∀ s s', (π j).guar s s' → (π i).rely s s') (h : Held π Q c)
    (hr : Runs (fun i => (π i).step) c c') : Held π Q c' := by
  induction hr with
  | refl => exact h
  | tail _ hs ih =>
    obtain ⟨i, hs⟩ := hs
    exact (ih.step hcompat hs).2.2

/-- An invariant every guarantee keeps holds along the run. -/
theorem Held.invariant (hcompat : ∀ i j, i ≠ j → ∀ s s', (π j).guar s s' → (π i).rely s s') (h : Held π Q c)
    {P : S → Prop} (hP : ∀ i s s', (π i).guar s s' → P s → P s') (h0 : P c.state)
    (hr : Runs (fun i => (π i).step) c c') : P c'.state := by
  suffices Held π Q c' ∧ P c'.state from this.2
  induction hr with
  | refl => exact ⟨h, h0⟩
  | tail _ hs ih =>
    obtain ⟨i, hs⟩ := hs
    obtain ⟨hg, -, hh⟩ := ih.1.step hcompat hs
    exact ⟨hh, hP i _ _ hg ih.2⟩

/-- An invariant that every action keeps holds along the run, whatever the programs. -/
theorem Runs.invariant {δ : Sem ι A R S} {P : S → Prop} (hP : ∀ i a s r s', δ i a s r s' → P s → P s')
    (h0 : P c.state) (hr : Runs δ c c') : P c'.state := by
  induction hr with
  | refl => exact h0
  | tail _ hs ih =>
    obtain ⟨i, ⟨_, hd⟩⟩ := hs
    exact hP _ _ _ _ _ hd ih

end Conf

/-! ## The log -/

/-- One performed action: its answer, and the states before and after it. -/
structure Ev (ι A : Type) (R : A → Type) (S : Type) where
  thread : ι
  act    : A
  res    : R act
  pre    : S
  post   : S

/-- The same actions, each appended to the log, and only those that `K` admits after the log so far. -/
def Sem.logged (δ : Sem ι A R S) (K : List (Ev ι A R S) → Ev ι A R S → Prop) : Sem ι A R (S × List (Ev ι A R S)) :=
  fun i a s r s' => δ i a s.1 r s'.1 ∧ s'.2 = s.2 ++ [⟨i, a, r, s.1, s'.1⟩] ∧ K s.2 ⟨i, a, r, s.1, s'.1⟩

/-- Every event of the log meets `K` after the events before it. -/
def Admits (K : List (Ev ι A R S) → Ev ι A R S → Prop) (log : List (Ev ι A R S)) : Prop :=
  ∀ before e after, log = before ++ e :: after → K before e

theorem Admits.of_append {K : List (Ev ι A R S) → Ev ι A R S → Prop} {log : List (Ev ι A R S)} {e : Ev ι A R S}
    (h : Admits K (log ++ [e])) : Admits K log ∧ K log e :=
  ⟨fun b x a hs => h b x (a ++ [e]) (by rw [hs]; simp), h log e [] rfl⟩

theorem Admits.of_prefix {K : List (Ev ι A R S) → Ev ι A R S → Prop} {log log' : List (Ev ι A R S)} (h : Admits K log')
    (hp : log <+: log') : Admits K log := by
  obtain ⟨rest, rfl⟩ := hp
  exact fun b x a hs => h b x (a ++ rest) (by rw [hs]; simp)

theorem Admits.nil {K : List (Ev ι A R S) → Ev ι A R S → Prop} : Admits K [] :=
  fun b e a h => by simp at h

/-- An element of a list with one more at its end: the last one, or one of the list. -/
theorem append_singleton_split {l b a : List α} {y x : α} (h : l ++ [y] = b ++ x :: a) :
    (b = l ∧ x = y ∧ a = []) ∨ ∃ a', a = a' ++ [y] ∧ l = b ++ x :: a' := by
  rcases List.eq_nil_or_concat a with rfl | ⟨a', z, rfl⟩
  · obtain ⟨rfl, hx⟩ := List.append_inj' h rfl
    exact .inl ⟨rfl, (List.singleton_inj.1 hx).symm, rfl⟩
  · have h' : l ++ [y] = (b ++ x :: a') ++ [z] := by rw [h]; simp
    obtain ⟨rfl, hz⟩ := List.append_inj' h' rfl
    obtain rfl := List.singleton_inj.1 hz
    exact .inr ⟨a', by simp, rfl⟩

theorem Admits.append {K : List (Ev ι A R S) → Ev ι A R S → Prop} {log : List (Ev ι A R S)} {e : Ev ι A R S}
    (h : Admits K log) (he : K log e) : Admits K (log ++ [e]) := by
  intro b x a hs
  obtain ⟨rfl, rfl, -⟩ | ⟨a', -, hlog⟩ := append_singleton_split hs
  · exact he
  · exact h b x a' hlog

/-- The events after `before`, each checked. -/
def admitsFrom (K : List (Ev ι A R S) → Ev ι A R S → Prop) [∀ b e, Decidable (K b e)] :
    List (Ev ι A R S) → List (Ev ι A R S) → Bool
  | _,      []        => true
  | before, e :: rest => decide (K before e) && admitsFrom K (before ++ [e]) rest

theorem admitsFrom_iff (K : List (Ev ι A R S) → Ev ι A R S → Prop) [∀ b e, Decidable (K b e)] :
    ∀ rest before : List (Ev ι A R S), Admits K before →
      (admitsFrom K before rest = true ↔ Admits K (before ++ rest))
  | [], before, h => by simpa [admitsFrom] using h
  | e :: rest, before, h => by
    rw [admitsFrom, Bool.and_eq_true, decide_eq_true_eq]
    constructor
    · rintro ⟨he, hrest⟩
      simpa using (admitsFrom_iff K rest (before ++ [e]) (h.append he)).1 hrest
    · intro hall
      have he : K before e := hall before e rest rfl
      exact ⟨he, (admitsFrom_iff K rest (before ++ [e]) (h.append he)).2 (by simpa using hall)⟩

instance (K : List (Ev ι A R S) → Ev ι A R S → Prop) [∀ b e, Decidable (K b e)] (log : List (Ev ι A R S)) :
    Decidable (Admits K log) :=
  decidable_of_iff (admitsFrom K [] log = true) (admitsFrom_iff K log [] Admits.nil)

/-- The last event of a thread is there and satisfies `P`. -/
def LastBy (i : ι) (P : Ev ι A R S → Prop) (log : List (Ev ι A R S)) : Prop :=
  ∃ before e after, log = before ++ e :: after ∧ e.thread = i ∧ (∀ x ∈ after, x.thread ≠ i) ∧ P e

theorem LastBy.now {i : ι} {P : Ev ι A R S → Prop} {log : List (Ev ι A R S)} {e : Ev ι A R S} (he : e.thread = i)
    (hP : P e) : LastBy i P (log ++ [e]) :=
  ⟨log, e, [], rfl, he, by simp, hP⟩

theorem LastBy.append {i : ι} {P : Ev ι A R S → Prop} {log : List (Ev ι A R S)} {e : Ev ι A R S} (he : e.thread ≠ i)
    (h : LastBy i P log) : LastBy i P (log ++ [e]) := by
  obtain ⟨b, x, a, rfl, hx, ha, hP⟩ := h
  refine ⟨b, x, a ++ [e], by simp, hx, fun y hy => ?_, hP⟩
  rcases List.mem_append.1 hy with hy | hy
  · exact ha y hy
  · rw [List.mem_singleton.1 hy]; exact he

/-- **A run whose log meets a condition is a run under the condition.** -/
theorem Conf.Runs.restrict [DecidableEq ι] {δ : Sem ι A R S} {K K' : List (Ev ι A R S) → Ev ι A R S → Prop}
    {c c' : Conf ι A R ε α (S × List (Ev ι A R S))} (hr : Conf.Runs (δ.logged K) c c') (h : Admits K' c'.state.2) :
    Conf.Runs (δ.logged K') c c' := by
  induction hr with
  | refl => exact .refl
  | tail _ hs ih =>
    obtain ⟨i, hs⟩ := hs
    obtain ⟨hp, hd, hlog, -⟩ := hs
    rename_i a k r s'
    simp only [hlog] at h
    obtain ⟨h₁, h₂⟩ := h.of_append
    exact (ih h₁).tail ⟨i, .mk hp ⟨hd, hlog, h₂⟩⟩

/-- The run without its log. -/
theorem Conf.Runs.unlogged [DecidableEq ι] {δ : Sem ι A R S} {K : List (Ev ι A R S) → Ev ι A R S → Prop}
    {c c' : Conf ι A R ε α (S × List (Ev ι A R S))} (hr : Conf.Runs (δ.logged K) c c') :
    Conf.Runs δ ⟨c.prog, c.state.1⟩ ⟨c'.prog, c'.state.1⟩ := by
  induction hr with
  | refl => exact .refl
  | tail _ hs ih =>
    obtain ⟨i, hs⟩ := hs
    obtain ⟨hp, hd, -, -⟩ := hs
    exact ih.tail ⟨i, .mk hp hd⟩

/-! ## Teams

The threads of a team each perform only events that `G` allows after the log so far, which is also all they rely on of
the others. -/

/-- The event leads from one logged state to the next. -/
structure Extends (s : S × List (Ev ι A R S)) (e : Ev ι A R S) (s' : S × List (Ev ι A R S)) : Prop where
  pre  : e.pre = s.1
  post : e.post = s'.1
  log  : s'.2 = s.2 ++ [e]

def team (δ : Sem ι A R S) (K G : List (Ev ι A R S) → Ev ι A R S → Prop) (i : ι) :
    Proto A R (S × List (Ev ι A R S)) where
  step      := δ.logged K i
  rely s s' := ∃ e, e.thread ≠ i ∧ Extends s e s' ∧ K s.2 e ∧ G s.2 e
  guar s s' := ∃ e, e.thread = i ∧ Extends s e s' ∧ K s.2 e ∧ G s.2 e

section
variable {δ : Sem ι A R S} {K G : List (Ev ι A R S) → Ev ι A R S → Prop}

theorem team_guar {i : ι} {a : A} {s s' : S × List (Ev ι A R S)} {r : R a} (h : (team δ K G i).step a s r s')
    (hG : G s.2 ⟨i, a, r, s.1, s'.1⟩) : (team δ K G i).guar s s' :=
  ⟨_, rfl, ⟨rfl, rfl, h.2.1⟩, h.2.2, hG⟩

theorem team_stable {i : ι} {P : S × List (Ev ι A R S) → Prop}
    (h : ∀ s e s', e.thread ≠ i → Extends s e s' → K s.2 e → G s.2 e → P s → P s') : (team δ K G i).Stable P :=
  fun s s' ⟨e, he, hx, hk, hg⟩ => h s e s' he hx hk hg

theorem team_compat (i j : ι) (hij : i ≠ j) (s s' : S × List (Ev ι A R S)) (hg : (team δ K G j).guar s s') :
    (team δ K G i).rely s s' := by
  obtain ⟨e, he, h⟩ := hg
  exact ⟨e, fun hi => hij (hi.symm.trans he), h⟩

/-- **What a team keeps**: every run of programs that meet the team's protocols keeps what its allowed events keep. -/
theorem team_invariant [DecidableEq ι] {Q : ι → Except ε α → S × List (Ev ι A R S) → Prop}
    {c c' : Conf ι A R ε α (S × List (Ev ι A R S))} (h : ∀ i, (team δ K G i).wp (c.prog i) (Q i) c.state)
    {P : S × List (Ev ι A R S) → Prop}
    (hP : ∀ s e s', Extends s e s' → K s.2 e → G s.2 e → P s → P s') (h0 : P c.state)
    (hr : Conf.Runs (δ.logged K) c c') : P c'.state :=
  (Conf.Held.init h).invariant team_compat (fun _ s s' ⟨e, _, hx, hk, hg⟩ => hP s e s' hx hk hg) h0 hr

end

/-! ## Executing a schedule -/

section
variable [DecidableEq ι] (ex : C → ι → (a : A) → S → Option (R a × S))

/-- What an executable action does under a choice of the environment that `ok` allows. -/
def Sem.ofExec (ok : ι → C → A → S → Prop) : Sem ι A R S :=
  fun i a s r s' => ∃ c, ok i c a s ∧ ex c i a s = some (r, s')

def Conf.exec (i : ι) (c : C) (conf : Conf ι A R ε α (S × List (Ev ι A R S))) :
    Option (Conf ι A R ε α (S × List (Ev ι A R S))) :=
  match conf.prog i with
  | .act a k => (ex c i a conf.state.1).map (fun p => ⟨Function.update conf.prog i (k p.1),
      p.2, conf.state.2 ++ [⟨i, a, p.1, conf.state.1, p.2⟩]⟩)
  | _        => none

def Conf.execs : List (ι × C) → Conf ι A R ε α (S × List (Ev ι A R S)) →
    Option (Conf ι A R ε α (S × List (Ev ι A R S)))
  | [],            conf => some conf
  | (i, c) :: sch, conf => (conf.exec ex i c).bind (Conf.execs sch)

variable {ex}

theorem Conf.step_of_exec {ok : ι → C → A → S → Prop} {i : ι} {ch : C}
    {c c' : Conf ι A R ε α (S × List (Ev ι A R S))} (hok : ∀ a, ok i ch a c.state.1) (h : c.exec ex i ch = some c') :
    Conf.Step ((Sem.ofExec ex ok).logged (fun _ _ => True)) i c c' := by
  unfold Conf.exec at h
  cases hp : c.prog i with
  | ret a => rw [hp] at h; cases h
  | raise e => rw [hp] at h; cases h
  | act a k =>
    rw [hp] at h
    obtain ⟨p, hp', rfl⟩ := Option.map_eq_some_iff.1 h
    exact .mk hp ⟨⟨ch, hok a, hp'⟩, rfl, trivial⟩

/-- **An executed schedule is a run.** -/
theorem Conf.runs_of_execs {ok : ι → C → A → S → Prop} : ∀ (sch : List (ι × C))
    {c c' : Conf ι A R ε α (S × List (Ev ι A R S))}, (∀ p ∈ sch, ∀ a s, ok p.1 p.2 a s) →
      c.execs ex sch = some c' → Conf.Runs ((Sem.ofExec ex ok).logged (fun _ _ => True)) c c'
  | [], c, c', _, h => by obtain rfl := Option.some.inj h; exact .refl
  | (i, ch) :: sch, c, c', hok, h => by
    obtain ⟨c₁, h₁, h₂⟩ := Option.bind_eq_some_iff.1 h
    have hstep := Conf.step_of_exec (fun a => hok (i, ch) List.mem_cons_self a c.state.1) h₁
    exact ReflTransGen.head ⟨i, hstep⟩
      (Conf.runs_of_execs sch (fun p hp => hok p (List.mem_cons_of_mem _ hp)) h₂)

theorem Conf.exists_runs {ok : ι → C → A → S → Prop} {c : Conf ι A R ε α (S × List (Ev ι A R S))}
    {P : Conf ι A R ε α (S × List (Ev ι A R S)) → Prop} [DecidablePred P] (sch : List (ι × C))
    (hok : ∀ p ∈ sch, ∀ a s, ok p.1 p.2 a s) (h : (c.execs ex sch).any (fun c' => decide (P c')) = true) :
    ∃ c', Conf.Runs ((Sem.ofExec ex ok).logged (fun _ _ => True)) c c' ∧ P c' := by
  obtain ⟨c', hc, hP⟩ := (Option.any_eq_true _ _).1 h
  exact ⟨c', Conf.runs_of_execs sch hok hc, of_decide_eq_true hP⟩

end
end Conc
