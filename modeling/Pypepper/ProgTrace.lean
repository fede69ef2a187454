import Pypepper.ProgPar
/-!
# ProgTrace — what a program calls and is answered

The calls of a program to its end, each with its answer: whatever answers, and whoever moves between the calls (`Ends`).
The calls of a sequence are those of its parts, one after the other (`ends_bind`); every way of answering leads a program to
its end (`answered_ends`); and the events of a thread in a run are such calls (`Conf.Runs.leads`).
-/
namespace Conc
namespace Prog

variable {A : Type} {R : A → Type} {ε α β : Type}

/-- The calls, with their answers, that take a program to another. -/
inductive Leads : Prog A R ε α → List (Sigma R) → Prog A R ε α → Prop
  | refl (p : Prog A R ε α) : Leads p [] p
  | act {a : A} {k : R a → Prog A R ε α} {x : R a} {l : List (Sigma R)} {p : Prog A R ε α} :
      Leads (k x) l p → Leads (.act a k) (⟨a, x⟩ :: l) p

/-- The calls, with their answers, of a program to its end. -/
inductive Ends : Prog A R ε α → List (Sigma R) → Except ε α → Prop
  | ret (a : α) : Ends (.ret a) [] (.ok a)
  | raise (e : ε) : Ends (.raise e) [] (.error e)
  | act {a : A} {k : R a → Prog A R ε α} {x : R a} {l : List (Sigma R)} {r : Except ε α} :
      Ends (k x) l r → Ends (.act a k) (⟨a, x⟩ :: l) r

theorem Leads.act_last {p : Prog A R ε α} {l : List (Sigma R)} {a : A} {k : R a → Prog A R ε α}
    (h : Leads p l (.act a k)) (x : R a) : Leads p (l ++ [⟨a, x⟩]) (k x) := by
  generalize hq : Prog.act a k = q at h
  induction h with
  | refl p =>
    subst hq
    exact .act (.refl _)
  | act _ ih => exact .act (ih hq)

theorem Leads.ends {p q : Prog A R ε α} {l l' : List (Sigma R)} {r : Except ε α} (h : Leads p l q) (hq : Ends q l' r) :
    Ends p (l ++ l') r := by
  induction h with
  | refl p   => exact hq
  | act _ ih => exact .act (ih hq)

theorem Ends.of_finished {p : Prog A R ε α} {r : Except ε α} (h : p.finished = some r) : Ends p [] r := by
  cases p with
  | ret a   => obtain rfl := Option.some.inj h; exact .ret a
  | raise e => obtain rfl := Option.some.inj h; exact .raise e
  | act a k => cases h

theorem ends_ret {a : α} {l : List (Sigma R)} {r : Except ε α} :
    Ends (.ret a : Prog A R ε α) l r ↔ l = [] ∧ r = .ok a := by
  constructor
  · rintro ⟨⟩
    exact ⟨rfl, rfl⟩
  · rintro ⟨rfl, rfl⟩
    exact .ret a

theorem ends_raise {e : ε} {l : List (Sigma R)} {r : Except ε α} :
    Ends (.raise e : Prog A R ε α) l r ↔ l = [] ∧ r = .error e := by
  constructor
  · rintro ⟨⟩
    exact ⟨rfl, rfl⟩
  · rintro ⟨rfl, rfl⟩
    exact .raise e

theorem ends_act {a : A} {k : R a → Prog A R ε α} {l : List (Sigma R)} {r : Except ε α} :
    Ends (.act a k) l r ↔ ∃ x l', l = ⟨a, x⟩ :: l' ∧ Ends (k x) l' r := by
  constructor
  · rintro ⟨⟩
    exact ⟨_, _, rfl, by assumption⟩
  · rintro ⟨x, l', rfl, h⟩
    exact .act h

theorem ends_ofExcept {x r : Except ε α} {l : List (Sigma R)} :
    Ends (.ofExcept x : Prog A R ε α) l r ↔ l = [] ∧ r = x := by
  cases x with
  | ok a    => exact ends_ret
  | error e => exact ends_raise

theorem ends_call {a : A} {l : List (Sigma R)} {r : Except ε (R a)} :
    Ends (.call a : Prog A R ε (R a)) l r ↔ ∃ x, l = [⟨a, x⟩] ∧ r = .ok x := by
  constructor
  · intro h
    obtain ⟨x, l', rfl, hx⟩ := ends_act.1 h
    obtain ⟨rfl, rfl⟩ := ends_ret.1 hx
    exact ⟨x, rfl, rfl⟩
  · rintro ⟨x, rfl, rfl⟩
    exact .act (.ret x)

/-- **A sequence** ends where its first part raises, or where its second part does after the first. -/
theorem ends_bind {f : α → Prog A R ε β} : ∀ {p : Prog A R ε α} {l : List (Sigma R)} {r : Except ε β},
    Ends (p.bind f) l r ↔
      (∃ e, r = .error e ∧ Ends p l (.error e)) ∨ ∃ v l₁ l₂, l = l₁ ++ l₂ ∧ Ends p l₁ (.ok v) ∧ Ends (f v) l₂ r := by
  intro p
  induction p with
  | ret a =>
    intro l r
    constructor
    · intro h
      exact .inr ⟨a, [], l, rfl, .ret a, h⟩
    · rintro (⟨e, -, ⟨⟩⟩ | ⟨v, l₁, l₂, rfl, h₁, h₂⟩)
      obtain ⟨rfl, hv⟩ := ends_ret.1 h₁
      cases hv
      exact h₂
  | raise e =>
    intro l r
    constructor
    · intro h
      obtain ⟨rfl, rfl⟩ := ends_raise.1 h
      exact .inl ⟨e, rfl, .raise e⟩
    · rintro (⟨e', rfl, h⟩ | ⟨v, l₁, l₂, -, ⟨⟩, -⟩)
      obtain ⟨rfl, he⟩ := ends_raise.1 h
      cases he
      exact .raise e
  | act a k ih =>
    intro l r
    constructor
    · intro h
      obtain ⟨x, l, rfl, hx⟩ := ends_act.1 h
      rcases (ih x).1 hx with ⟨e, rfl, he⟩ | ⟨v, l₁, l₂, rfl, h₁, h₂⟩
      · exact .inl ⟨e, rfl, .act he⟩
      · exact .inr ⟨v, ⟨a, x⟩ :: l₁, l₂, rfl, .act h₁, h₂⟩
    · rintro (⟨e, rfl, h⟩ | ⟨v, l₁, l₂, rfl, h₁, h₂⟩)
      · obtain ⟨x, l, rfl, hx⟩ := ends_act.1 h
        exact .act ((ih x).2 (.inl ⟨e, rfl, hx⟩))
      · obtain ⟨x, l₁, rfl, hx⟩ := ends_act.1 h₁
        exact .act ((ih x).2 (.inr ⟨v, l₁, l₂, rfl, hx, h₂⟩))

theorem ends_attempt : ∀ {p : Prog A R ε α} {l : List (Sigma R)} {r : Except ε (Except ε α)},
    Ends p.attempt l r ↔ ∃ x, r = .ok x ∧ Ends p l x := by
  intro p
  induction p with
  | ret a =>
    intro l r
    constructor
    · intro h
      obtain ⟨rfl, rfl⟩ := ends_ret.1 h
      exact ⟨_, rfl, .ret a⟩
    · rintro ⟨x, rfl, h⟩
      obtain ⟨rfl, rfl⟩ := ends_ret.1 h
      exact .ret _
  | raise e =>
    intro l r
    constructor
    · intro h
      obtain ⟨rfl, rfl⟩ := ends_ret.1 h
      exact ⟨_, rfl, .raise e⟩
    · rintro ⟨x, rfl, h⟩
      obtain ⟨rfl, rfl⟩ := ends_raise.1 h
      exact .ret _
  | act a k ih =>
    intro l r
    constructor
    · intro h
      obtain ⟨x, l, rfl, hx⟩ := ends_act.1 h
      obtain ⟨y, rfl, hy⟩ := (ih x).1 hx
      exact ⟨y, rfl, .act hy⟩
    · rintro ⟨y, rfl, h⟩
      obtain ⟨x, l, rfl, hx⟩ := ends_act.1 h
      exact .act ((ih x).2 ⟨y, rfl, hx⟩)

/-- A `try` whose outcome is matched on ends with its handler of the outcome. -/
theorem ends_try {p : Prog A R ε α} {f : Except ε α → Prog A R ε β} {l : List (Sigma R)} {r : Except ε β} :
    Ends (p.attempt.bind f) l r ↔ ∃ x l₁ l₂, l = l₁ ++ l₂ ∧ Ends p l₁ x ∧ Ends (f x) l₂ r := by
  rw [ends_bind]
  constructor
  · rintro (⟨e, -, h⟩ | ⟨x, l₁, l₂, hl, h₁, h₂⟩)
    · obtain ⟨_, he, -⟩ := ends_attempt.1 h
      cases he
    · obtain ⟨y, hy, h₁⟩ := ends_attempt.1 h₁
      cases hy
      exact ⟨x, l₁, l₂, hl, h₁, h₂⟩
  · rintro ⟨x, l₁, l₂, hl, h₁, h₂⟩
    exact .inr ⟨x, l₁, l₂, hl, ends_attempt.2 ⟨x, rfl, h₁⟩, h₂⟩

/-- A call, and the rest with its answer. -/
theorem ends_do {a : A} {f : R a → Prog A R ε β} {l : List (Sigma R)} {r : Except ε β} :
    Ends ((call a).bind f) l r ↔ ∃ x l', l = ⟨a, x⟩ :: l' ∧ Ends (f x) l' r := by
  rw [ends_bind]
  constructor
  · rintro (⟨e, -, h⟩ | ⟨x, l₁, l₂, rfl, h₁, h₂⟩)
    · obtain ⟨_, -, he⟩ := ends_call.1 h
      cases he
    · obtain ⟨y, rfl, hy⟩ := ends_call.1 h₁
      cases hy
      exact ⟨x, l₂, rfl, h₂⟩
  · rintro ⟨x, l', rfl, h⟩
    exact .inr ⟨x, [⟨a, x⟩], l', rfl, ends_call.2 ⟨x, rfl, rfl⟩, h⟩

/-- A program that only makes certain calls makes no other. -/
theorem Ends.only {q : A → Prop} {p : Prog A R ε α} {l : List (Sigma R)} {r : Except ε α} (h : Ends p l r)
    (hp : p.Only q) : ∀ c ∈ l, q c.1 := by
  induction h with
  | ret a => simp
  | raise e => simp
  | act _ ih =>
    intro c hc
    rcases List.mem_cons.1 hc with rfl | hc
    · exact hp.1
    · exact ih (hp.2 _) c hc

/-- The calls of a program and its end, when `answer` answers them; it sees the calls before. -/
def answered (answer : List (Sigma R) → (a : A) → R a) : Prog A R ε α → List (Sigma R) → List (Sigma R) × Except ε α
  | ret a,   _    => ([], .ok a)
  | raise e, _    => ([], .error e)
  | act a k, past =>
    let rest := answered answer (k (answer past a)) (past ++ [⟨a, answer past a⟩])
    (⟨a, answer past a⟩ :: rest.1, rest.2)

/-- **Every way of answering leads a program to its end.** -/
theorem answered_ends (answer : List (Sigma R) → (a : A) → R a) : ∀ (p : Prog A R ε α) (past : List (Sigma R)),
    Ends p (p.answered answer past).1 (p.answered answer past).2 ∧
      ∀ pre c post, (p.answered answer past).1 = pre ++ c :: post → c.2 = answer (past ++ pre) c.1 := by
  intro p
  induction p with
  | ret a   => exact fun _ => ⟨.ret a, fun pre c post h => by cases pre <;> cases h⟩
  | raise e => exact fun _ => ⟨.raise e, fun pre c post h => by cases pre <;> cases h⟩
  | act a k ih =>
    intro past
    obtain ⟨hl, hans⟩ := ih (answer past a) (past ++ [⟨a, answer past a⟩])
    refine ⟨.act hl, fun pre c post h => ?_⟩
    cases pre with
    | nil =>
      obtain ⟨rfl, -⟩ := List.cons.inj h
      rw [List.append_nil]
    | cons d pre =>
      obtain ⟨rfl, hl⟩ := List.cons.inj h
      rw [hans pre c post hl, List.append_assoc, List.singleton_append]

end Prog

/-! ## The calls of a thread -/

section
variable {ι A : Type} {R : A → Type} {ε α S : Type} [DecidableEq ι]

/-- The calls of a thread, with their answers. -/
def callsOf (i : ι) (log : List (Ev ι A R S)) : List (Sigma R) :=
  (log.filter fun e => e.thread = i).map fun e => ⟨e.act, e.res⟩

theorem mem_callsOf {i : ι} {log : List (Ev ι A R S)} {c : Sigma R} (h : c ∈ callsOf i log) :
    ∃ e ∈ log, e.thread = i ∧ (⟨e.act, e.res⟩ : Sigma R) = c := by
  obtain ⟨e, he, hc⟩ := List.mem_map.1 h
  obtain ⟨he, hi⟩ := List.mem_filter.1 he
  exact ⟨e, he, of_decide_eq_true hi, hc⟩

/-- The events of a run are its steps. -/
theorem Conf.Runs.events {δ : Sem ι A R S} {K : List (Ev ι A R S) → Ev ι A R S → Prop}
    {c c' : Conf ι A R ε α (S × List (Ev ι A R S))} (h0 : c.state.2 = []) (hr : Conf.Runs (δ.logged K) c c') :
    ∀ e ∈ c'.state.2, δ e.thread e.act e.pre e.res e.post := by
  refine hr.invariant (P := fun s => ∀ e ∈ s.2, δ e.thread e.act e.pre e.res e.post) ?_ (by rw [h0]; simp)
  rintro i a s r s' ⟨hstep, hlog, -⟩ hs e he
  rw [hlog] at he
  rcases List.mem_append.1 he with he | he
  · exact hs e he
  · rw [List.mem_singleton.1 he]
    exact hstep

/-- **In a run each thread makes the calls of its program.** -/
theorem Conf.Runs.leads {δ : Sem ι A R S} {K : List (Ev ι A R S) → Ev ι A R S → Prop}
    {c c' : Conf ι A R ε α (S × List (Ev ι A R S))} (h0 : c.state.2 = []) (hr : Conf.Runs (δ.logged K) c c') (i : ι) :
    (c.prog i).Leads (callsOf i c'.state.2) (c'.prog i) := by
  induction hr with
  | refl =>
    rw [h0]
    exact .refl _
  | tail _ hs ih =>
    obtain ⟨j, ⟨hp, -, hlog, -⟩⟩ := hs
    simp only [hlog, callsOf, List.filter_append, List.map_append]
    by_cases hij : j = i
    · subst hij
      rw [hp] at ih
      simpa [callsOf] using ih.act_last _
    · simpa [callsOf, hij, Ne.symm hij] using ih

/-- The calls of a thread that has finished take its program to its end. -/
theorem Conf.Runs.ends {δ : Sem ι A R S} {K : List (Ev ι A R S) → Ev ι A R S → Prop}
    {c c' : Conf ι A R ε α (S × List (Ev ι A R S))} (h0 : c.state.2 = []) (hr : Conf.Runs (δ.logged K) c c') {i : ι}
    {r : Except ε α} (hf : (c'.prog i).finished = some r) : (c.prog i).Ends (callsOf i c'.state.2) r := by
  have hends := (hr.leads h0 i).ends (.of_finished hf)
  rwa [List.append_nil] at hends

end
end Conc
