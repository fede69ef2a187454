import Pypepper.ProgTrace
import Pypepper.SoftTimeout
/-!
# WorkflowRun — a run whose executes succeed in time

The tasks that a run of `Workflow.run` executed, from its calls.  When every execute answers a value, no wait runs out and no
attempt finds its id in flight, each task with an executor is executed once, in order (`run_succeeds`).
-/
namespace Pypepper
namespace SoftTimeout

open Conc (Prog)

/-- The future has answered a value. -/
def answeredValue (l : List Step) (future : Nat) : Bool := l.any fun
  | ⟨.result f _, .ok _⟩ => decide (f = future)
  | _                    => false

/-- The tasks executed: by the thread itself, or in the pool, whose future has answered. -/
def executedOf (l : List Step) : List Task := l.filterMap fun
  | ⟨.execute t, _⟩     => some t
  | ⟨.submit t, future⟩ => if answeredValue l future then some t else none
  | _                   => none

/-- An execute or a wait that answers a value, or a check that passes. -/
def Timely : Step → Prop
  | ⟨.execute _, r⟩     => ∃ v, r = .ok v
  | ⟨.result _ _, r⟩    => ∃ v, r = .ok v
  | ⟨.check _, blocked⟩ => blocked = false
  | _                   => True

/-- The tasks of the executes and the submits. -/
def attempted (l : List Step) : List Task := l.filterMap fun
  | ⟨.execute t, _⟩ => some t
  | ⟨.submit t, _⟩  => some t
  | _               => none

/-- Every future submitted has answered a value. -/
def AllAnswered (l : List Step) : Prop := ∀ t f, (⟨.submit t, f⟩ : Step) ∈ l → answeredValue l f = true

section
variable {l l' : List Step} {t : Task}

theorem attempted_append (l l' : List Step) : attempted (l ++ l') = attempted l ++ attempted l' := List.filterMap_append

theorem AllAnswered.append (h : AllAnswered l) (h' : AllAnswered l') : AllAnswered (l ++ l') := by
  intro t f hf
  unfold answeredValue
  rw [List.any_append, Bool.or_eq_true]
  exact (List.mem_append.1 hf).imp (h t f) (h' t f)

/-- Then those are the executed ones. -/
theorem AllAnswered.executedOf_eq (h : AllAnswered l) : executedOf l = attempted l := by
  refine List.filterMap_congr fun c hc => ?_
  obtain ⟨a, r⟩ := c
  cases a with
  | submit t => exact if_pos (h t r hc)
  | _        => rfl

/-- **An attempt in time** is one execute, of a task with an executor. -/
theorem executeOnce_timely {r : Answer} (hends : (executeOnce t).Ends l r) (hl : ∀ c ∈ l, Timely c) :
    (∃ v, r = .ok v) ∧ attempted l = (if t.executor = none then [] else [t]) ∧ AllAnswered l := by
  unfold executeOnce at hends
  by_cases hexecutor : t.executor = none
  · rw [if_pos hexecutor] at hends ⊢
    obtain ⟨rfl, rfl⟩ := Prog.ends_ret.1 hends
    exact ⟨⟨none, rfl⟩, rfl, fun _ _ hf => (by cases hf)⟩
  rw [if_neg hexecutor] at hends ⊢
  by_cases htimeout : t.roundTimeout ≤ 0
  · rw [if_pos htimeout] at hends
    obtain ⟨x, l', rfl, hx⟩ := Prog.ends_do.1 hends
    obtain ⟨rfl, rfl⟩ := Prog.ends_ofExcept.1 hx
    refine ⟨hl _ List.mem_cons_self, rfl, fun u f hf => ?_⟩
    cases List.mem_singleton.1 hf
  · rw [if_neg htimeout] at hends
    obtain ⟨blocked, l₁, rfl, h₁⟩ := Prog.ends_do.1 hends
    obtain rfl : blocked = false := hl _ List.mem_cons_self
    obtain ⟨future, l₂, rfl, h₂⟩ := Prog.ends_do.1 h₁
    obtain ⟨_, l₃, rfl, h₃⟩ := Prog.ends_do.1 h₂
    obtain ⟨answer, l₄, l₅, rfl, hwait, h₅⟩ := Prog.ends_try.1 h₃
    obtain ⟨x, l₆, rfl, h₆⟩ := Prog.ends_do.1 hwait
    obtain ⟨v, rfl⟩ : ∃ v, x = .ok v := hl ⟨.result future (some t.roundTimeout), x⟩ (by simp)
    obtain ⟨rfl, rfl⟩ := Prog.ends_ret.1 h₆
    have hrest : r = .ok v ∧ attempted l₅ = [] ∧ ∀ u f, (⟨.submit u, f⟩ : Step) ∉ l₅ := by
      obtain ⟨done, l₆, rfl, h₆⟩ := Prog.ends_do.1 h₅
      cases done with
      | true  =>
        obtain ⟨_, l₇, rfl, h₇⟩ := Prog.ends_do.1 h₆
        obtain ⟨rfl, rfl⟩ := (Prog.ends_ofExcept (x := .ok v) (l := l₇) (r := r)).1 h₇
        exact ⟨rfl, rfl, by simp⟩
      | false =>
        obtain ⟨rfl, rfl⟩ := (Prog.ends_ofExcept (x := .ok v) (l := l₆) (r := r)).1 h₆
        exact ⟨rfl, rfl, by simp⟩
    obtain ⟨rfl, hnone, hsubmits⟩ := hrest
    refine ⟨⟨v, rfl⟩, ?_, fun u f hf => ?_⟩
    · show t :: attempted l₅ = [t]
      rw [hnone]
    · have hf : f = future := by
        simp only [List.mem_cons, List.mem_append, List.not_mem_nil, or_false] at hf
        rcases hf with hf | hf | hf | hf | hf
        · cases hf
        · cases hf
          rfl
        · cases hf
        · cases hf
        · exact absurd hf (hsubmits u f)
      subst hf
      simp [answeredValue]

theorem runTask_timely {r : Answer} (hends : (runTask t).Ends l r) (hl : ∀ c ∈ l, Timely c) :
    (∃ v, r = .ok v) ∧ attempted l = (if t.executor = none then [] else [t]) ∧ AllAnswered l := by
  have hround : ∀ {n last l r}, 0 < n → (runRound t n last).Ends l r → (∀ c ∈ l, Timely c) →
      (∃ v, r = .ok (.ok v)) ∧ attempted l = (if t.executor = none then [] else [t]) ∧ AllAnswered l := by
    intro n last l r hn hends hl
    cases n with
    | zero => exact absurd hn (Nat.lt_irrefl 0)
    | succ n =>
      obtain ⟨x, l₁, l₂, rfl, hexec, hrest⟩ := Prog.ends_try.1 hends
      obtain ⟨⟨v, rfl⟩, htasks, hanswered⟩ := executeOnce_timely hexec fun c hc => hl c (List.mem_append_left _ hc)
      obtain ⟨rfl, rfl⟩ := Prog.ends_ret.1 hrest
      rw [List.append_nil]
      exact ⟨⟨v, rfl⟩, htasks, hanswered⟩
  have hrounds : ∀ {n last l r}, 0 < n → (runRounds t n last).Ends l r → (∀ c ∈ l, Timely c) →
      (∃ v, r = .ok (.ok v)) ∧ attempted l = (if t.executor = none then [] else [t]) ∧ AllAnswered l := by
    intro n last l r hn hends hl
    cases n with
    | zero => exact absurd hn (Nat.lt_irrefl 0)
    | succ n =>
      rcases Prog.ends_bind.1 hends with ⟨e, -, hfirst⟩ | ⟨x, l₁, l₂, rfl, hfirst, hrest⟩
      · obtain ⟨⟨_, hv⟩, -⟩ := hround (Workflow.attemptsPerRound_pos t) hfirst hl
        cases hv
      · obtain ⟨⟨v, hv⟩, htasks, hanswered⟩ := hround (Workflow.attemptsPerRound_pos t) hfirst fun c hc =>
          hl c (List.mem_append_left _ hc)
        cases hv
        obtain ⟨rfl, rfl⟩ := Prog.ends_ret.1 hrest
        rw [List.append_nil]
        exact ⟨⟨v, rfl⟩, htasks, hanswered⟩
  rcases Prog.ends_bind.1 hends with ⟨e, -, hfirst⟩ | ⟨x, l₁, l₂, rfl, hfirst, hrest⟩
  · obtain ⟨⟨_, hv⟩, -⟩ := hrounds (Workflow.rounds_pos t) hfirst hl
    cases hv
  · obtain ⟨⟨v, hv⟩, htasks, hanswered⟩ := hrounds (Workflow.rounds_pos t) hfirst fun c hc =>
      hl c (List.mem_append_left _ hc)
    cases hv
    obtain ⟨rfl, rfl⟩ := Prog.ends_ret.1 hrest
    rw [List.append_nil]
    exact ⟨⟨v, rfl⟩, htasks, hanswered⟩

theorem run_timely : ∀ (ts : List Task) {l : List Step} {r : Except Failure (List Value)}, (run ts).Ends l r →
    (∀ c ∈ l, Timely c) → (∃ rs, r = .ok rs) ∧ attempted l = ts.filter (·.executor.isSome) ∧ AllAnswered l
  | [],      l, r, hends, _  => by
    obtain ⟨rfl, rfl⟩ := Prog.ends_ret.1 hends
    exact ⟨⟨[], rfl⟩, rfl, fun _ _ hf => (by cases hf)⟩
  | t :: ts, l, r, hends, hl => by
    rcases Prog.ends_bind.1 hends with ⟨e, -, htask⟩ | ⟨v, l₁, l₂, rfl, htask, hrest⟩
    · obtain ⟨⟨_, hv⟩, -⟩ := runTask_timely htask hl
      cases hv
    · obtain ⟨-, htasks, hanswered⟩ := runTask_timely htask fun c hc => hl c (List.mem_append_left _ hc)
      have hlater : ∀ c ∈ l₂, Timely c := fun c hc => hl c (List.mem_append_right _ hc)
      have hhead : attempted l₁ ++ ts.filter (·.executor.isSome) = (t :: ts).filter (·.executor.isSome) := by
        rw [htasks]
        cases hexecutor : t.executor <;> simp [hexecutor]
      rcases Prog.ends_bind.1 hrest with ⟨e, -, hrun⟩ | ⟨rs, l₃, l₄, rfl, hrun, hret⟩
      · obtain ⟨⟨_, hv⟩, -⟩ := run_timely ts hrun hlater
        cases hv
      · obtain ⟨rfl, rfl⟩ := Prog.ends_ret.1 hret
        rw [List.append_nil] at hlater ⊢
        obtain ⟨-, hts, hanswered'⟩ := run_timely ts hrun hlater
        exact ⟨⟨v :: rs, rfl⟩, by rw [attempted_append, hts, hhead], hanswered.append hanswered'⟩

/-- **When every execute succeeds in time** the run returns, and each task with an executor is executed once, in order. -/
theorem run_succeeds {ts : List Task} {r : Except Failure (List Value)} (hends : (run ts).Ends l r)
    (hl : ∀ c ∈ l, Timely c) : (∃ rs, r = .ok rs) ∧ executedOf l = ts.filter (·.executor.isSome) := by
  obtain ⟨hr, htasks, hanswered⟩ := run_timely ts hends hl
  exact ⟨hr, hanswered.executedOf_eq.trans htasks⟩

end

end SoftTimeout
end Pypepper
