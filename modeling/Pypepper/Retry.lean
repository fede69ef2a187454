import Pypepper.ProgTrace
import Pypepper.Rehydrate
import Pypepper.SoftTimeout
/-!
# Retry — the retry specification

The two loops of `_run_task` make one loop of attempts: as many as there are rounds times attempts of a round (`Tries`),
with a pause after each failed attempt that does not end its round.  Whatever the executes of a workflow without round
timeouts answer, `Workflow.run` makes exactly the calls that the specification has for these answers when they are
`Regular`, and otherwise leaves the specification (`run_follows_retry_spec_iff`).

Four things are not regular: a task without an executor, an exception whose text cannot be shown, a pause that the platform
refuses, and an exception that is to be raised and is not true.
-/
namespace Pypepper

open Conc (Prog)

/-! ## A loop of attempts -/

section
variable {ε α : Type}

def succeeded : Except ε α → Bool
  | .ok _    => true
  | .error _ => false

/-- At most `n` attempts until one succeeds, what each answers, and what the loop answers: the value, or the last
exception, which was `last` before the loop. -/
inductive Tries : Nat → Option ε → List (Except ε α) → Except (Option ε) α → Prop
  | spent (last : Option ε) : Tries 0 last [] (.error last)
  | value (n : Nat) (last : Option ε) (v : α) : Tries (n + 1) last [.ok v] (.ok v)
  | again {n : Nat} {last : Option ε} {e : ε} {outs : List (Except ε α)} {r : Except (Option ε) α} :
      Tries n (some e) outs r → Tries (n + 1) last (.error e :: outs) r

namespace Tries

variable {n m : Nat} {last last' : Option ε} {outs outs' : List (Except ε α)} {r : Except (Option ε) α} {v : α}

/-- **A loop after a loop that found no success** is one loop. -/
theorem append (h : Tries n last outs (.error last')) (h' : Tries m last' outs' r) :
    Tries (n + m) last (outs ++ outs') r := by
  generalize hx : (Except.error last' : Except (Option ε) α) = x at h
  induction h with
  | spent last =>
    cases hx
    rw [Nat.zero_add]
    exact h'
  | value n last v => cases hx
  | again _ ih =>
    rw [Nat.succ_add]
    exact .again (ih hx)

/-- A loop that found a success finds it with more attempts too. -/
theorem more (h : Tries n last outs (.ok v)) (m : Nat) : Tries (n + m) last outs (.ok v) := by
  generalize hx : (Except.ok v : Except (Option ε) α) = x at h
  induction h with
  | spent last => cases hx
  | value n last w =>
    cases hx
    rw [Nat.succ_add]
    exact .value (n + m) last v
  | again _ ih =>
    rw [Nat.succ_add]
    exact .again (ih hx)

/-- **The number of attempts**: the budget, or the position of the first success. -/
theorem count (h : Tries n last outs r) : outs.length = min n (outs.findIdx succeeded + 1) := by
  induction h with
  | spent last => simp
  | value n last v => simp [List.findIdx_cons, succeeded]
  | again _ ih =>
    simp only [List.length_cons, List.findIdx_cons, succeeded, cond_false]
    omega

theorem findSome (h : Tries n last outs r) : outs.findSome? Except.toOption = r.toOption := by
  induction h with
  | spent last => rfl
  | value n last v => rfl
  | again _ ih => exact ih

/-- A loop without a success has failures only. -/
theorem failed (h : Tries n last outs (.error last')) : ∀ o ∈ outs, succeeded o = false := by
  intro o ho
  have hnone := List.findSome?_eq_none_iff.1 h.findSome o ho
  cases o with
  | ok v    => cases hnone
  | error e => rfl

/-- A loop without a success makes all its attempts. -/
theorem length_error (h : Tries n last outs (.error last')) : outs.length = n := by
  generalize hx : (Except.error last' : Except (Option ε) α) = x at h
  induction h with
  | spent last => rfl
  | value n last v => cases hx
  | again _ ih => rw [List.length_cons, ih hx]

/-- A loop without a success ends with the exception of its last attempt. -/
theorem last_error (h : Tries n last outs (.error last')) :
    (outs = [] ∧ last' = last) ∨ ∃ e, last' = some e ∧ outs.getLast? = some (.error e) := by
  generalize hx : (Except.error last' : Except (Option ε) α) = x at h
  induction h with
  | spent last =>
    cases hx
    exact .inl ⟨rfl, rfl⟩
  | value n last v => cases hx
  | again _ ih =>
    rename_i e outs r _
    right
    rcases ih hx with ⟨rfl, rfl⟩ | ⟨e', rfl, hlast⟩
    · exact ⟨e, rfl, rfl⟩
    · exact ⟨e', rfl, by rw [List.getLast?_cons, hlast]; rfl⟩

end Tries
end

namespace SoftTimeout

/-! ## The specification -/

/-- The attempts of a round. -/
def perRound (t : Task) : Nat :=
  (if t.retryUntilCompleted = true ∧ t.retryCount = 0 then t.retryUntilMax else t.retryCount + 1).toNat

def budget (t : Task) : Nat := t.roundTimes.toNat * perRound t

/-- The pause after the attempt number `k`, counted from `0`, when it failed and is not the last of its round. -/
def pause (t : Task) (k : Nat) (o : Answer) : List Step :=
  if succeeded o = false ∧ (k + 1) % perRound t ≠ 0 ∧ 0 < t.retryDelay then [⟨.sleep t.retryDelay, ()⟩] else []

/-- The attempts of a task from the number `k` on, with their pauses. -/
def attemptsFrom (t : Task) : Nat → List Answer → List Step
  | _, []        => []
  | k, o :: outs => ⟨.execute t, o⟩ :: (pause t k o ++ attemptsFrom t (k + 1) outs)

/-- What a task contributes: the value of its first success, None when it has no success and is optional, and otherwise the
exception of its last attempt. -/
inductive Contributes (t : Task) (outs : List Answer) : Answer → Prop
  | value (v : Value) : outs.findSome? Except.toOption = some v → Contributes t outs (.ok v)
  | skipped : outs.findSome? Except.toOption = none → t.optional = true → Contributes t outs (.ok none)
  | failed (e : Failure) : outs.findSome? Except.toOption = none → t.optional = false →
      outs.getLast? = some (.error e) → Contributes t outs (.error e)

/-- A task of a run: what its executes answered, as many as the budget or the position of the first success, and what it
contributed. -/
structure TaskRun where
  task        : Task
  outs        : List Answer
  result      : Answer
  count       : outs.length = min (budget task) (outs.findIdx succeeded + 1)
  contributes : Contributes task outs result

def TaskRun.steps (x : TaskRun) : List Step := attemptsFrom x.task 0 x.outs

/-- **The specification of `run`**: the tasks one after the other, each with a result; or up to the first that fails, whose
exception is raised. -/
inductive RunSpec (ts : List Task) : List Step → Except Failure (List Value) → Prop
  | returns (xs : List TaskRun) (results : List Value) : xs.map TaskRun.task = ts →
      xs.map TaskRun.result = results.map .ok → RunSpec ts (xs.flatMap TaskRun.steps) (.ok results)
  | raises (xs : List TaskRun) (x : TaskRun) (later : List Task) (results : List Value) (e : Failure) :
      xs.map TaskRun.task ++ x.task :: later = ts → xs.map TaskRun.result = results.map .ok → x.result = .error e →
      RunSpec ts (xs.flatMap TaskRun.steps ++ x.steps) (.error e)

/-- What the executes answer, one after the other. -/
def outcomesOf (l : List Step) : List Answer := l.filterMap fun
  | ⟨.execute _, r⟩ => some r
  | _               => none

/-- The executes answer the outcomes, from the first on. -/
def Follows (outcomes : Nat → Answer) (l : List Step) : Prop :=
  ∀ (k : Nat) (o : Answer), (outcomesOf l)[k]? = some o → o = outcomes k

/-! ## What is regular -/

/-- The outcomes that `n` attempts use: up to the first success. -/
def tried : Nat → (Nat → Answer) → List Answer
  | 0,     _        => []
  | n + 1, outcomes =>
    match outcomes 0 with
    | .ok v    => [.ok v]
    | .error e => .error e :: tried n fun k => outcomes (k + 1)

/-- The exceptions can be shown, and the platform takes the pauses after them. -/
structure Passes (t : Task) (k : Nat) (outs : List Answer) : Prop where
  shown  : ∀ e, .error e ∈ outs → e.traits.shown = true
  sleeps : ∀ d, (⟨.sleep d, ()⟩ : Step) ∈ attemptsFrom t k outs → d ≤ timeoutMax

/-- The task has an executor, its attempts pass, and the exception it is to raise is true. -/
structure Smooth (t : Task) (outs : List Answer) : Prop where
  executor : t.executor ≠ none
  passes   : Passes t 0 outs
  truth    : outs.findSome? Except.toOption = none → t.optional = false → ∀ e, outs.getLast? = some (.error e) →
    e.traits.truth = some true

/-- A task that ends the workflow, by the specification. -/
def Stops (t : Task) (outs : List Answer) : Prop := outs.findSome? Except.toOption = none ∧ t.optional = false

/-- **Regular outcomes**: each task that the specification comes to is smooth on the outcomes that it uses. -/
def Regular : List Task → (Nat → Answer) → Prop
  | [],      _        => True
  | t :: ts, outcomes =>
    Smooth t (tried (budget t) outcomes) ∧ (¬ Stops t (tried (budget t) outcomes) →
      Regular ts fun k => outcomes (k + (tried (budget t) outcomes).length))

/-! ## Outcomes -/

theorem outcomesOf_append (l l' : List Step) : outcomesOf (l ++ l') = outcomesOf l ++ outcomesOf l' := List.filterMap_append

theorem outcomesOf_pause (t : Task) (k : Nat) (o : Answer) : outcomesOf (pause t k o) = [] := by
  unfold pause
  split <;> rfl

theorem outcomesOf_attemptsFrom (t : Task) : ∀ (k : Nat) (outs : List Answer), outcomesOf (attemptsFrom t k outs) = outs
  | _, []        => rfl
  | k, o :: outs => by
    show o :: outcomesOf (pause t k o ++ attemptsFrom t (k + 1) outs) = o :: outs
    rw [outcomesOf_append, outcomesOf_pause, outcomesOf_attemptsFrom t (k + 1) outs, List.nil_append]

theorem TaskRun.outcomesOf_steps (x : TaskRun) : outcomesOf x.steps = x.outs := outcomesOf_attemptsFrom x.task 0 x.outs

section
variable {outcomes : Nat → Answer} {l l' : List Step} {outs outs' : List Answer} {n : Nat}

theorem Follows.left (h : Follows outcomes (l ++ l')) : Follows outcomes l := by
  intro k o ho
  refine h k o ?_
  rw [outcomesOf_append]
  exact List.getElem?_append_left (List.getElem?_eq_some_iff.1 ho).1 ▸ ho

theorem Follows.right (h : Follows outcomes (l ++ l')) : Follows (fun k => outcomes (k + (outcomesOf l).length)) l' := by
  intro k o ho
  refine h (k + (outcomesOf l).length) o ?_
  rw [outcomesOf_append, List.getElem?_append_right (Nat.le_add_left _ _), Nat.add_sub_cancel]
  exact ho

/-- The outcomes of a loop are those that its attempts use. -/
theorem eq_tried {last : Option Failure} {r : Except (Option Failure) Value} (h : Tries n last outs r) :
    ∀ {outcomes : Nat → Answer}, (∀ (k : Nat) (o : Answer), outs[k]? = some o → o = outcomes k) →
      outs = tried n outcomes := by
  induction h with
  | spent last => exact fun _ => rfl
  | value n last v =>
    intro outcomes ho
    rw [tried, ← ho 0 (.ok v) rfl]
  | again _ ih =>
    rename_i n last e outs r _
    intro outcomes ho
    rw [tried, ← ho 0 (.error e) rfl]
    exact congrArg _ (ih fun k o hk => ho (k + 1) o hk)

/-- Failures within the budget are the first of those. -/
theorem prefix_tried : ∀ {n : Nat} {outs : List Answer} {outcomes : Nat → Answer},
    (∀ o ∈ outs, succeeded o = false) → outs.length ≤ n →
    (∀ (k : Nat) (o : Answer), outs[k]? = some o → o = outcomes k) → outs <+: tried n outcomes
  | n,     [],           _,        _,  _,  _  => List.nil_prefix
  | n + 1, .error e :: outs, outcomes, hf, hn, ho => by
    rw [tried, ← ho 0 (.error e) rfl]
    refine List.cons_prefix_cons.2 ⟨rfl, prefix_tried (fun o hm => hf o (List.mem_cons_of_mem _ hm)) ?_ ?_⟩
    · exact Nat.le_of_succ_le_succ hn
    · exact fun k o hk => ho (k + 1) o hk
  | _, .ok v :: outs, _, hf, _, _ => by cases hf (.ok v) List.mem_cons_self

theorem findIdx_of_failed (h : ∀ o ∈ outs, succeeded o = false) : outs.findIdx succeeded = outs.length :=
  List.findIdx_eq_length.2 h

end

/-! ## A task -/

theorem attemptsFrom_append (t : Task) : ∀ (k : Nat) (outs outs' : List Answer),
    attemptsFrom t k (outs ++ outs') = attemptsFrom t k outs ++ attemptsFrom t (k + outs.length) outs'
  | _, [],        _     => rfl
  | k, o :: outs, outs' => by
    rw [List.cons_append, attemptsFrom, attemptsFrom_append t (k + 1) outs outs', attemptsFrom, List.length_cons,
      Nat.add_right_comm k 1, List.cons_append, List.append_assoc, Nat.add_assoc]

theorem Passes.append {t : Task} {k : Nat} {outs outs' : List Answer} (h : Passes t k outs)
    (h' : Passes t (k + outs.length) outs') : Passes t k (outs ++ outs') where
  shown e he := by
    rcases List.mem_append.1 he with he | he
    · exact h.shown e he
    · exact h'.shown e he
  sleeps d hd := by
    rw [attemptsFrom_append] at hd
    rcases List.mem_append.1 hd with hd | hd
    · exact h.sleeps d hd
    · exact h'.sleeps d hd

theorem Passes.right {t : Task} {k : Nat} {outs outs' : List Answer} (h : Passes t k (outs ++ outs')) :
    Passes t (k + outs.length) outs' where
  shown e he  := h.shown e (List.mem_append_right _ he)
  sleeps d hd := h.sleeps d (by rw [attemptsFrom_append]; exact List.mem_append_right _ hd)

theorem Passes.nil (t : Task) (k : Nat) : Passes t k [] := ⟨fun _ he => (by cases he), fun _ hd => (by cases hd)⟩

theorem Passes.ok (t : Task) (k : Nat) (v : Value) : Passes t k [.ok v] := by
  constructor
  · intro e he
    cases List.mem_singleton.1 he
  · intro d hd
    have hnone : pause t k (.ok v) = [] := if_neg fun hp => by cases hp.1
    rw [attemptsFrom, hnone] at hd
    cases List.mem_singleton.1 hd

theorem Passes.error {t : Task} {k : Nat} {e : Failure} (hshown : e.traits.shown = true)
    (hpause : pause t k (.error e) ≠ [] → t.retryDelay ≤ timeoutMax) : Passes t k [.error e] := by
  constructor
  · intro e' he
    cases List.mem_singleton.1 he
    exact hshown
  · intro d hd
    have hmem : (⟨.sleep d, ()⟩ : Step) ∈ pause t k (.error e) := by simpa [attemptsFrom] using hd
    have hd : d = t.retryDelay := by
      unfold pause at hmem
      split at hmem
      · cases List.mem_singleton.1 hmem
        rfl
      · cases hmem
    rw [hd]
    exact hpause (List.ne_nil_of_mem hmem)

/-- What the failure of the attempt number `k` breaks the task off with: its text cannot be shown, or the pause after it is
refused. -/
inductive Breaks (t : Task) (k : Nat) (e : Failure) : Failure → Prop
  | unshown : e.traits.shown = false → Breaks t k e .broken
  | refused : pause t k (.error e) ≠ [] → timeoutMax < t.retryDelay → Breaks t k e .overflow

theorem Breaks.not_passes {t : Task} {k : Nat} {e f : Failure} {outs : List Answer} (h : Breaks t k e f)
    (hp : Passes t k (.error e :: outs)) : False := by
  cases h with
  | unshown hshown => cases hshown.symm.trans (hp.shown e List.mem_cons_self)
  | refused hpause hlong =>
    refine Int.not_le.2 hlong (hp.sleeps t.retryDelay ?_)
    unfold pause at hpause
    split at hpause
    · rename_i hc
      simp [attemptsFrom, pause, hc]
    · exact absurd rfl hpause

/-- A loop of at most `n` attempts, from the number `k` on, that a failure breaks off. -/
def BrokenOff (t : Task) (k n : Nat) (l : List Step) (f : Failure) : Prop :=
  ∃ outs e, l = attemptsFrom t k outs ++ [⟨.execute t, .error e⟩] ∧ (∀ o ∈ outs, succeeded o = false) ∧ outs.length < n ∧
    Breaks t (k + outs.length) e f

theorem BrokenOff.more {t : Task} {k n : Nat} {l : List Step} {f : Failure} (h : BrokenOff t k n l f) (m : Nat) :
    BrokenOff t k (n + m) l f := by
  obtain ⟨outs, e, hl, hfailed, hlt, hbreaks⟩ := h
  exact ⟨outs, e, hl, hfailed, by omega, hbreaks⟩

/-- After failed attempts. -/
theorem BrokenOff.after {t : Task} {k n m : Nat} {l : List Step} {f : Failure} {outs : List Answer}
    (hfailed : ∀ o ∈ outs, succeeded o = false) (hn : outs.length = n) (h : BrokenOff t (k + outs.length) m l f) :
    BrokenOff t k (n + m) (attemptsFrom t k outs ++ l) f := by
  obtain ⟨outs', e, rfl, hfailed', hlt, hbreaks⟩ := h
  refine ⟨outs ++ outs', e, ?_, ?_, ?_, ?_⟩
  · rw [attemptsFrom_append, List.append_assoc]
  · intro o ho
    rcases List.mem_append.1 ho with ho | ho
    · exact hfailed o ho
    · exact hfailed' o ho
  · rw [List.length_append]
    omega
  · rwa [List.length_append, ← Nat.add_assoc]

/-- A task that the constructor accepts, without a round timeout. -/
structure Accepted (t : Task) : Prop where
  accepted  : t.rejected = none
  noTimeout : t.roundTimeout = 0

section
variable {t : Task}

theorem Accepted.bounds (h : Accepted t) :
    1 ≤ t.retryUntilMax ∧ 1 ≤ t.roundTimes ∧ 0 ≤ t.retryCount ∧ 0 ≤ t.retryDelay := by
  obtain ⟨hmax, htimes, -, -, hcount, hdelay⟩ := Task.rejected_eq_none.1 h.accepted
  exact ⟨hmax, htimes, hcount, hdelay⟩

theorem Accepted.attemptsPerRound (h : Accepted t) : Workflow.attemptsPerRound t = perRound t := by
  obtain ⟨hmax, -, hcount, -⟩ := h.bounds
  unfold Workflow.attemptsPerRound perRound
  by_cases huntil : t.retryUntilCompleted = true ∧ t.retryCount = 0
  · rw [if_pos (by simpa using huntil), if_pos huntil]
    omega
  · rw [if_neg (by simpa using huntil), if_neg huntil]
    omega

theorem Accepted.rounds (h : Accepted t) : Workflow.rounds t = t.roundTimes.toNat := by
  obtain ⟨-, htimes, -, -⟩ := h.bounds
  unfold Workflow.rounds
  split <;> omega

theorem Accepted.perRound_pos (h : Accepted t) : 0 < perRound t := by
  obtain ⟨hmax, -, hcount, -⟩ := h.bounds
  unfold perRound
  split <;> omega

theorem Accepted.budget_pos (h : Accepted t) : 0 < budget t := by
  obtain ⟨-, htimes, -, -⟩ := h.bounds
  exact Nat.mul_pos (by omega) h.perRound_pos

/-- The attempt is the last of its round when none is left. -/
theorem last_of_round {k n p : Nat} (hk : p ∣ k + (n + 1)) (hn : n + 1 ≤ p) : (k + 1) % p = 0 ↔ n = 0 := by
  have hsplit : k + (n + 1) = (k + 1) + n := by omega
  rw [hsplit] at hk
  constructor
  · intro hlast
    have hdvd : p ∣ n := (Nat.dvd_add_right (Nat.dvd_of_mod_eq_zero hlast)).1 hk
    exact Nat.eq_zero_of_dvd_of_lt hdvd (by omega)
  · rintro rfl
    exact Nat.mod_eq_zero_of_dvd hk

/-- An attempt without a round timeout is one execute. -/
theorem Accepted.ends_executeOnce (h : Accepted t) (hexecutor : t.executor ≠ none) {l : List Step} {r : Answer}
    (hends : (executeOnce t).Ends l r) : l = [⟨.execute t, r⟩] := by
  unfold executeOnce at hends
  rw [if_neg hexecutor, if_pos (Int.le_of_eq h.noTimeout)] at hends
  obtain ⟨x, l', rfl, hx⟩ := Prog.ends_do.1 hends
  obtain ⟨rfl, rfl⟩ := Prog.ends_ofExcept.1 hx
  rfl

/-- When a pause is due, with `n` attempts left in the round. -/
theorem Accepted.pause_due (h : Accepted t) {n k : Nat} (hk : perRound t ∣ k + (n + 1)) (hn : n + 1 ≤ perRound t)
    (e : Failure) : (succeeded (.error e : Answer) = false ∧ (k + 1) % perRound t ≠ 0 ∧ 0 < t.retryDelay) ↔
      n ≠ 0 ∧ t.retryDelay ≠ 0 := by
  have hdelay := h.bounds.2.2.2
  rw [ne_eq, last_of_round hk hn]
  constructor
  · rintro ⟨-, hleft, hpos⟩
    exact ⟨hleft, by omega⟩
  · rintro ⟨hleft, hne⟩
    exact ⟨rfl, hleft, by omega⟩

/-- **What follows a failed attempt** with `n` attempts left in its round: the pause and the rest, or it breaks off. -/
theorem Accepted.ends_retry (h : Accepted t) {n k : Nat} (hk : perRound t ∣ k + (n + 1)) (hn : n + 1 ≤ perRound t)
    (e : Failure) {β : Type} {p : TaskProg β} {l : List Step} {r : Except Failure β}
    (hends : ((logged e).bind fun _ => if n ≠ 0 ∧ t.retryDelay ≠ 0 then (sleep t).bind fun _ => p else p).Ends l r) :
    (∃ l', l = pause t k (.error e) ++ l' ∧ p.Ends l' r ∧ Passes t k [.error e]) ∨
    (l = [] ∧ ∃ f, r = .error f ∧ Breaks t k e f) := by
  unfold logged at hends
  by_cases hshown : e.traits.shown = true
  · rw [if_pos hshown] at hends
    change (if n ≠ 0 ∧ t.retryDelay ≠ 0 then (sleep t).bind fun _ => p else p).Ends l r at hends
    by_cases hpause : n ≠ 0 ∧ t.retryDelay ≠ 0
    · rw [if_pos hpause] at hends
      have hdue : pause t k (.error e) = [⟨.sleep t.retryDelay, ()⟩] := if_pos ((h.pause_due hk hn e).2 hpause)
      unfold sleep at hends
      by_cases hlong : timeoutMax < t.retryDelay
      · rw [if_pos hlong] at hends
        obtain ⟨rfl, rfl⟩ := Prog.ends_raise.1 hends
        exact .inr ⟨rfl, .overflow, rfl, .refused (by rw [hdue]; exact List.cons_ne_nil _ _) hlong⟩
      · rw [if_neg hlong] at hends
        obtain ⟨_, l', rfl, hp⟩ := Prog.ends_do.1 hends
        exact .inl ⟨l', by rw [hdue]; rfl, hp, .error hshown fun _ => Int.not_lt.1 hlong⟩
    · rw [if_neg hpause] at hends
      have hnone : pause t k (.error e) = [] := if_neg fun hp => hpause ((h.pause_due hk hn e).1 hp)
      exact .inl ⟨l, by rw [hnone]; rfl, hends, .error hshown fun hp => absurd hnone hp⟩
  · rw [if_neg hshown] at hends
    obtain ⟨rfl, rfl⟩ := Prog.ends_raise.1 hends
    exact .inr ⟨rfl, .broken, rfl, .unshown (Bool.eq_false_iff.2 hshown)⟩

/-- **A round** that starts with the attempt number `k`. -/
theorem Accepted.ends_runRound (h : Accepted t) (hexecutor : t.executor ≠ none) : ∀ (n k : Nat) (last : Option Failure)
    {l : List Step} {r : Except Failure (Except (Option Failure) Value)}, perRound t ∣ k + n → n ≤ perRound t →
    (runRound t n last).Ends l r →
    (∃ outs x, r = .ok x ∧ l = attemptsFrom t k outs ∧ Tries n last outs x ∧ Passes t k outs) ∨
      ∃ f, r = .error f ∧ BrokenOff t k n l f
  | 0,     k, last, l, r, _,  _,  hends => by
    obtain ⟨rfl, rfl⟩ := Prog.ends_ret.1 hends
    exact .inl ⟨[], .error last, rfl, rfl, .spent last, .nil t k⟩
  | n + 1, k, last, l, r, hk, hn, hends => by
    obtain ⟨o, l₁, l₂, rfl, hexec, hrest⟩ := Prog.ends_try.1 hends
    obtain rfl := h.ends_executeOnce hexecutor hexec
    cases o with
    | ok v =>
      obtain ⟨rfl, rfl⟩ := Prog.ends_ret.1 hrest
      exact .inl ⟨[.ok v], .ok v, rfl, rfl, .value n last v, .ok t k v⟩
    | error e =>
      rcases h.ends_retry hk hn e hrest with ⟨l', rfl, hp, hpasses⟩ | ⟨rfl, f, rfl, hbreaks⟩
      · have hk' : perRound t ∣ (k + 1) + n := by
          rwa [Nat.add_assoc, Nat.add_comm 1 n]
        have hone : ⟨.execute t, .error e⟩ :: (pause t k (.error e) ++ l') = attemptsFrom t k [.error e] ++ l' := by
          simp [attemptsFrom]
        rcases h.ends_runRound hexecutor n (k + 1) (some e) hk' (by omega) hp with
          ⟨outs, x, rfl, rfl, htries, hpass⟩ | ⟨f, rfl, hbroken⟩
        · exact .inl ⟨.error e :: outs, x, rfl, rfl, .again htries, hpasses.append hpass⟩
        · refine .inr ⟨f, rfl, ?_⟩
          have hone' : (1 : Nat) = [(.error e : Answer)].length := rfl
          have hafter := BrokenOff.after (fun o ho => by rw [List.mem_singleton.1 ho]; rfl) hone'.symm hbroken
          rw [Nat.add_comm 1 n] at hafter
          rw [List.singleton_append, hone]
          exact hafter
      · exact .inr ⟨f, rfl, [], e, rfl, fun _ ho => (by cases ho), Nat.succ_pos n, hbreaks⟩

/-- **All rounds** are one loop of attempts. -/
theorem Accepted.ends_runRounds (h : Accepted t) (hexecutor : t.executor ≠ none) : ∀ (m k : Nat) (last : Option Failure)
    {l : List Step} {r : Except Failure (Except (Option Failure) Value)}, perRound t ∣ k →
    (runRounds t m last).Ends l r →
    (∃ outs x, r = .ok x ∧ l = attemptsFrom t k outs ∧ Tries (m * perRound t) last outs x ∧ Passes t k outs) ∨
      ∃ f, r = .error f ∧ BrokenOff t k (m * perRound t) l f
  | 0,     k, last, l, r, _,  hends => by
    obtain ⟨rfl, rfl⟩ := Prog.ends_ret.1 hends
    refine .inl ⟨[], .error last, rfl, rfl, ?_, .nil t k⟩
    rw [Nat.zero_mul]
    exact .spent last
  | m + 1, k, last, l, r, hk, hends => by
    have hnext : (m + 1) * perRound t = perRound t + m * perRound t := by
      rw [Nat.succ_mul, Nat.add_comm]
    have hround : perRound t ∣ k + perRound t := (Nat.dvd_add_right hk).2 (Nat.dvd_refl _)
    unfold runRounds at hends
    rw [h.attemptsPerRound] at hends
    rw [hnext]
    rcases Prog.ends_bind.1 hends with ⟨e, rfl, hfirst⟩ | ⟨x, l₁, l₂, rfl, hfirst, hrest⟩
    · rcases h.ends_runRound hexecutor _ k last hround (Nat.le_refl _) hfirst with ⟨_, _, hx, -⟩ | ⟨f, hf, hbroken⟩
      · cases hx
      · exact .inr ⟨f, hf, hbroken.more _⟩
    · rcases h.ends_runRound hexecutor _ k last hround (Nat.le_refl _) hfirst with
        ⟨outs, y, hy, rfl, htries, hpasses⟩ | ⟨f, hf, -⟩
      · cases hy
        cases x with
        | ok v =>
          obtain ⟨rfl, rfl⟩ := Prog.ends_ret.1 hrest
          exact .inl ⟨outs, .ok v, rfl, List.append_nil _, htries.more _, hpasses⟩
        | error last' =>
          have hfull : outs.length = perRound t := htries.length_error
          have hk' : perRound t ∣ k + outs.length := by
            rw [hfull]
            exact hround
          rcases h.ends_runRounds hexecutor m (k + outs.length) last' hk' hrest with
            ⟨outs', x, rfl, rfl, htries', hpasses'⟩ | ⟨f, rfl, hbroken⟩
          · exact .inl ⟨outs ++ outs', x, rfl, (attemptsFrom_append t k outs outs').symm, htries.append htries',
              hpasses.append hpasses'⟩
          · exact .inr ⟨f, rfl, .after htries.failed hfull hbroken⟩
      · cases hf

end

theorem taskFailure_eq {t : Task} {e : Failure} : taskFailure t (some e) = e ↔ e.traits.truth = some true := by
  constructor
  · intro h
    cases htruth : e.traits.truth with
    | none =>
      simp only [taskFailure, htruth] at h
      rw [← h] at htruth
      cases htruth
    | some b =>
      cases b with
      | true  => rfl
      | false =>
        simp only [taskFailure, htruth] at h
        rw [← h] at htruth
        cases htruth
  · intro h
    simp only [taskFailure, h]

/-- The outcomes have no success, and leave the budget or end with another exception. -/
structure Unmet (t : Task) (outs : List Answer) (e : Failure) : Prop where
  failed : ∀ o ∈ outs, succeeded o = false
  within : outs.length ≤ budget t
  unmet  : outs.length = budget t → outs.getLast? ≠ some (.error e)

section
variable {t : Task}

theorem BrokenOff.unmet {l : List Step} {f : Failure} (h : BrokenOff t 0 (budget t) l f) : Unmet t (outcomesOf l) f := by
  obtain ⟨outs, e, rfl, hfailed, hlt, hbreaks⟩ := h
  have houts : outcomesOf (attemptsFrom t 0 outs ++ [⟨.execute t, .error e⟩]) = outs ++ [.error e] := by
    rw [outcomesOf_append, outcomesOf_attemptsFrom]
    rfl
  rw [houts]
  refine ⟨fun o ho => ?_, ?_, fun hfull hlast => ?_⟩
  · rcases List.mem_append.1 ho with ho | ho
    · exact hfailed o ho
    · rw [List.mem_singleton.1 ho]
      rfl
  · rw [List.length_append]
    exact hlt
  · rw [List.getLast?_concat] at hlast
    cases hlast
    rw [List.length_append, List.length_singleton] at hfull
    cases hbreaks with
    | unshown hshown      => cases hshown
    | refused hpause hlong =>
      -- a pause is due only within a round
      unfold pause at hpause
      split at hpause
      · rename_i hdue
        rw [Nat.zero_add, hfull] at hdue
        exact hdue.2.1 (Nat.mul_mod_left _ _)
      · exact hpause rfl

/-- **What a task with an executor makes of its outcomes**: what the specification has for them, when they are smooth. -/
theorem Accepted.ends_runTask (h : Accepted t) (hexecutor : t.executor ≠ none) {outcomes : Nat → Answer} {l : List Step}
    {r : Answer} (hends : (runTask t).Ends l r) (hfollows : Follows outcomes l) :
    (∃ x : TaskRun, x.task = t ∧ x.steps = l ∧ x.result = r ∧ x.outs = tried (budget t) outcomes ∧ Smooth t x.outs) ∨
    (¬ Smooth t (tried (budget t) outcomes) ∧ ∃ e, r = .error e ∧ Unmet t (outcomesOf l) e) := by
  unfold runTask at hends
  rw [h.rounds] at hends
  have hbroken : ∀ {l f}, Follows outcomes l → BrokenOff t 0 (budget t) l f → ¬ Smooth t (tried (budget t) outcomes) := by
    intro l f hfollows hbroken hsmooth
    obtain ⟨outs, e, rfl, hfailed, hlt, hbreaks⟩ := hbroken
    have hfollowed : ∀ (k : Nat) (o : Answer), (outs ++ [.error e])[k]? = some o → o = outcomes k := by
      intro k o ho
      refine hfollows k o ?_
      rw [outcomesOf_append, outcomesOf_attemptsFrom]
      exact ho
    have hbegins : outs ++ [.error e] <+: tried (budget t) outcomes := by
      refine prefix_tried (fun o ho => ?_) ?_ hfollowed
      · rcases List.mem_append.1 ho with ho | ho
        · exact hfailed o ho
        · rw [List.mem_singleton.1 ho]
          rfl
      · rw [List.length_append]
        exact hlt
    obtain ⟨later, hlater⟩ := hbegins
    have hpasses := hsmooth.passes
    rw [← hlater, List.append_assoc] at hpasses
    exact hbreaks.not_passes hpasses.right
  rcases Prog.ends_bind.1 hends with ⟨e, rfl, hrounds⟩ | ⟨x, l₁, l₂, rfl, hrounds, hrest⟩
  · rcases h.ends_runRounds hexecutor _ 0 none (Nat.dvd_zero _) hrounds with ⟨_, _, hx, -⟩ | ⟨f, hf, hoff⟩
    · cases hx
    · cases hf
      exact .inr ⟨hbroken hfollows hoff, e, rfl, hoff.unmet⟩
  · rcases h.ends_runRounds hexecutor _ 0 none (Nat.dvd_zero _) hrounds with
      ⟨outs, y, hy, rfl, htries, hpasses⟩ | ⟨f, hf, -⟩
    · cases hy
      have houts : outs = tried (budget t) outcomes := by
        refine eq_tried htries fun k o ho => hfollows.left k o ?_
        rwa [outcomesOf_attemptsFrom]
      have hfind := htries.findSome
      have complete : ∀ {r : Answer}, Contributes t outs r → Smooth t outs → ∃ x : TaskRun, x.task = t ∧
          x.steps = attemptsFrom t 0 outs ++ [] ∧ x.result = r ∧ x.outs = tried (budget t) outcomes ∧ Smooth t x.outs :=
        fun hcon hsmooth => ⟨⟨t, outs, _, htries.count, hcon⟩, rfl, (List.append_nil _).symm, rfl, houts, hsmooth⟩
      cases x with
      | ok v =>
        obtain ⟨rfl, rfl⟩ := Prog.ends_ret.1 hrest
        exact .inl (complete (.value v hfind) ⟨hexecutor, hpasses, fun hnone => by cases hfind.symm.trans hnone⟩)
      | error last =>
        cases hopt : t.optional with
        | true =>
          simp only [hopt, if_true] at hrest
          obtain ⟨rfl, rfl⟩ := Prog.ends_ret.1 hrest
          exact .inl (complete (.skipped hfind hopt) ⟨hexecutor, hpasses, fun _ hno => by cases hopt.symm.trans hno⟩)
        | false =>
          simp only [hopt, Bool.false_eq_true, if_false] at hrest
          obtain ⟨rfl, rfl⟩ := Prog.ends_raise.1 hrest
          rcases htries.last_error with ⟨rfl, -⟩ | ⟨e, rfl, hlast⟩
          · -- a task makes at least one attempt
            exact absurd htries.length_error (Nat.ne_of_lt h.budget_pos)
          · by_cases htruth : e.traits.truth = some true
            · rw [taskFailure_eq.2 htruth]
              refine .inl (complete (.failed e hfind hopt hlast) ⟨hexecutor, hpasses, fun _ _ e' he' => ?_⟩)
              cases hlast.symm.trans he'
              exact htruth
            · refine .inr ⟨fun hsmooth => htruth ?_, taskFailure t (some e), rfl, ?_⟩
              · rw [← houts] at hsmooth
                exact hsmooth.truth hfind hopt e hlast
              · rw [List.append_nil, outcomesOf_attemptsFrom]
                refine ⟨htries.failed, Nat.le_of_eq htries.length_error, fun _ hother => htruth ?_⟩
                have heq : e = taskFailure t (some e) := Except.error.inj (Option.some.inj (hlast.symm.trans hother))
                exact taskFailure_eq.1 heq.symm
    · cases hf

end

/-! ## The run -/

theorem RunSpec.cons {x : TaskRun} {v : Value} {ts : List Task} {l : List Step} {r : Except Failure (List Value)}
    (hx : x.result = .ok v) (h : RunSpec ts l r) : RunSpec (x.task :: ts) (x.steps ++ l) (r.map (v :: ·)) := by
  cases h with
  | returns xs results htasks hresults =>
    exact .returns (x :: xs) (v :: results) (by rw [List.map_cons, htasks]) (by rw [List.map_cons, hx, hresults]; rfl)
  | raises xs y later results e htasks hresults hy =>
    rw [← List.append_assoc]
    exact .raises (x :: xs) y later (v :: results) e (by rw [List.map_cons, List.cons_append, htasks])
      (by rw [List.map_cons, hx, hresults]; rfl) hy

/-- **The first task** of what the specification has: it ends the run, or the others follow it. -/
theorem RunSpec.head {t : Task} {ts : List Task} {l : List Step} {r : Except Failure (List Value)}
    (h : RunSpec (t :: ts) l r) : ∃ x : TaskRun, x.task = t ∧
      ((∃ e, x.result = .error e ∧ r = .error e ∧ l = x.steps) ∨
        ∃ v l' r', x.result = .ok v ∧ l = x.steps ++ l' ∧ r = r'.map (v :: ·) ∧ RunSpec ts l' r') := by
  cases h with
  | returns xs results htasks hresults =>
    cases xs with
    | nil => cases htasks
    | cons x xs =>
      cases results with
      | nil => cases hresults
      | cons v results =>
        obtain ⟨rfl, hlater⟩ := List.cons.inj htasks
        obtain ⟨hx, hresults⟩ := List.cons.inj hresults
        exact ⟨x, rfl, .inr ⟨v, _, .ok results, hx, rfl, rfl, .returns xs results hlater hresults⟩⟩
  | raises xs y later results e htasks hresults hy =>
    cases xs with
    | nil =>
      obtain ⟨rfl, -⟩ := List.cons.inj htasks
      exact ⟨y, rfl, .inl ⟨e, hy, rfl, rfl⟩⟩
    | cons x xs =>
      cases results with
      | nil => cases hresults
      | cons v results =>
        obtain ⟨rfl, hlater⟩ := List.cons.inj htasks
        obtain ⟨hx, hresults⟩ := List.cons.inj hresults
        exact ⟨x, rfl, .inr ⟨v, _, .error e, hx, List.append_assoc _ _ _, rfl, .raises xs y later results e hlater hresults hy⟩⟩

theorem Contributes.unique {t : Task} {outs : List Answer} {r r' : Answer} (h : Contributes t outs r)
    (h' : Contributes t outs r') : r = r' := by
  cases h with
  | value v hv =>
    cases h' with
    | value v' hv'            => exact congrArg _ (Option.some.inj (hv.symm.trans hv'))
    | skipped hnone _         => cases hv.symm.trans hnone
    | failed e hnone _ _      => cases hv.symm.trans hnone
  | skipped hnone hopt =>
    cases h' with
    | value v' hv'            => cases hnone.symm.trans hv'
    | skipped _ _             => rfl
    | failed e _ hno _        => cases hopt.symm.trans hno
  | failed e hnone hno hlast =>
    cases h' with
    | value v' hv'            => cases hnone.symm.trans hv'
    | skipped _ hopt          => cases hopt.symm.trans hno
    | failed e' _ _ hlast'    => exact congrArg _ (Except.error.inj (Option.some.inj (hlast.symm.trans hlast')))

/-- A task that ends a run with an exception has made an attempt. -/
theorem RunSpec.tries_of_error {ts : List Task} {l : List Step} {e : Failure} (h : RunSpec ts l (.error e)) :
    outcomesOf l ≠ [] := by
  cases h with
  | raises xs x later results e htasks hresults hx =>
    rw [outcomesOf_append, x.outcomesOf_steps]
    intro hnil
    have hcon := x.contributes
    rw [hx, (List.append_eq_nil_iff.1 hnil).2] at hcon
    cases hcon with
    | failed _ _ _ hlast => cases hlast

section
variable {outs outs' rest rest' : List Answer} {n : Nat}

/-- Attempts that reached a success, or the budget, are not the beginning of more. -/
theorem length_le_of_begins (h : outs.length = min n (outs.findIdx succeeded + 1))
    (h' : outs'.length = min n (outs'.findIdx succeeded + 1)) (hbegins : outs <+: outs') : outs'.length ≤ outs.length := by
  obtain ⟨more, rfl⟩ := hbegins
  rw [List.findIdx_append] at h'
  split at h'
  · omega
  · rename_i hno
    have hall : outs.findIdx succeeded = outs.length := by
      have hle : outs.findIdx succeeded ≤ outs.length := List.findIdx_le_length
      omega
    rw [List.length_append] at h' ⊢
    omega

/-- **The attempts of a task are determined** by what the executes answer. -/
theorem outs_unique (h : outs.length = min n (outs.findIdx succeeded + 1))
    (h' : outs'.length = min n (outs'.findIdx succeeded + 1)) (heq : outs ++ rest = outs' ++ rest') : outs = outs' := by
  have hone : outs <+: outs ++ rest := List.prefix_append _ _
  have hother : outs' <+: outs ++ rest := by
    rw [heq]
    exact List.prefix_append _ _
  rcases List.prefix_or_prefix_of_prefix hone hother with hp | hp
  · exact hp.eq_of_length_le (length_le_of_begins h h' hp)
  · exact (hp.eq_of_length_le (length_le_of_begins h' h hp)).symm

end

/-- The others follow a task that has a result. -/
theorem RunSpec.tail {x : TaskRun} {v : Value} {ts : List Task} {l : List Step} {r : Except Failure (List Value)}
    (h : RunSpec (x.task :: ts) (x.steps ++ l) (r.map (v :: ·))) (hx : x.result = .ok v) : RunSpec ts l r := by
  obtain ⟨y, htask, hy⟩ := h.head
  have same : ∀ rest, x.steps ++ l = y.steps ++ rest → y.steps = x.steps ∧ y.result = x.result := by
    intro rest hl
    have houts : y.outs ++ outcomesOf rest = x.outs ++ outcomesOf l := by
      rw [← x.outcomesOf_steps, ← y.outcomesOf_steps, ← outcomesOf_append, ← outcomesOf_append, hl]
    have hcount := y.count
    have hcon := y.contributes
    rw [htask] at hcount hcon
    have heq : y.outs = x.outs := outs_unique hcount x.count houts
    rw [heq] at hcon
    refine ⟨?_, hcon.unique x.contributes⟩
    unfold TaskRun.steps
    rw [htask, heq]
  rcases hy with ⟨e, hresult, -, hl⟩ | ⟨w, l', r', hresult, hl, hr, hlater⟩
  · have hsame := (same [] (by rw [hl, List.append_nil])).2
    cases hresult.symm.trans (hsame.trans hx)
  · obtain ⟨hsteps, hsame⟩ := same l' hl
    cases hresult.symm.trans (hsame.trans hx)
    rw [hsteps] at hl
    have hll : l = l' := List.append_cancel_left hl
    have hrr : r = r' := by
      cases r with
      | ok results =>
        cases r' with
        | ok results' =>
          cases hr
          rfl
        | error e => cases hr
      | error e =>
        cases r' with
        | ok results' => cases hr
        | error e' =>
          cases hr
          rfl
    rw [hll, hrr]
    exact hlater

/-- What the specification does not have for a task, it does not have for the run. -/
theorem Unmet.not_runSpec {t : Task} {ts : List Task} {l : List Step} {e : Failure} (h : Unmet t (outcomesOf l) e) :
    ¬ RunSpec (t :: ts) l (.error e) := by
  intro hspec
  obtain ⟨x, rfl, hx⟩ := hspec.head
  have hfull : ∀ {rest}, outcomesOf l = x.outs ++ rest → x.outs.length = budget x.task ∧ rest = [] := by
    intro rest hl
    have hfailed : ∀ o ∈ x.outs, succeeded o = false := by
      intro o ho
      refine h.failed o ?_
      rw [hl]
      exact List.mem_append_left _ ho
    have hcount := x.count
    have hwithin := h.within
    rw [findIdx_of_failed hfailed] at hcount
    rw [hl, List.length_append] at hwithin
    have hnil : rest.length = 0 := by omega
    exact ⟨by omega, List.length_eq_zero_iff.1 hnil⟩
  rcases hx with ⟨_, hresult, he, rfl⟩ | ⟨v, l', r', hresult, rfl, hr, hlater⟩
  · cases he
    have houts : outcomesOf x.steps = x.outs ++ [] := by
      rw [x.outcomesOf_steps, List.append_nil]
    have hcon := x.contributes
    rw [hresult] at hcon
    cases hcon with
    | failed _ _ _ hlast =>
      rw [x.outcomesOf_steps] at h
      exact h.unmet (hfull houts).1 hlast
  · have houts : outcomesOf (x.steps ++ l') = x.outs ++ outcomesOf l' := by
      rw [outcomesOf_append, x.outcomesOf_steps]
    cases r' with
    | ok results => cases hr
    | error e'   => exact hlater.tries_of_error (hfull houts).2

/-- A task without an executor is in no step. -/
theorem run_executes (ts : List Task) : (run ts).Only fun a => ∀ t, a = .execute t → t.executor ≠ none := by
  refine run_built (Prog.Only.closed _) (fun t _ => ?_) fun t _ => .call fun _ h => (by cases h)
  by_cases hexecutor : t.executor = none
  · unfold executeOnce
    rw [if_pos hexecutor]
    exact .ret none
  · refine executeOnce_only ?_ ?_ ?_ ?_ ?_ ?_ ?_
    · intro u hu
      cases hu
      exact hexecutor
    · exact fun _ h => (by cases h)
    · exact fun _ h => (by cases h)
    · exact fun _ _ h => (by cases h)
    · exact fun _ => wait_only (fun _ _ h => (by cases h)) (fun _ h => (by cases h)) (fun _ h => (by cases h))
        fun _ h => (by cases h)
    · exact fun _ _ h => (by cases h)
    · exact fun _ h => (by cases h)

/-- The specification executes the first task. -/
theorem RunSpec.executes {t : Task} {ts : List Task} {l : List Step} {r : Except Failure (List Value)} (h : Accepted t)
    (hspec : RunSpec (t :: ts) l r) : ∃ o, (⟨.execute t, o⟩ : Step) ∈ l := by
  obtain ⟨x, rfl, hx⟩ := hspec.head
  have hcount := x.count
  have hpos := h.budget_pos
  have hmem : ∃ o, (⟨.execute x.task, o⟩ : Step) ∈ x.steps := by
    unfold TaskRun.steps
    cases houts : x.outs with
    | nil =>
      rw [houts, List.length_nil] at hcount
      omega
    | cons o outs => exact ⟨o, List.mem_cons_self⟩
  obtain ⟨o, ho⟩ := hmem
  rcases hx with ⟨_, -, -, rfl⟩ | ⟨_, _, _, -, rfl, -, -⟩
  · exact ⟨o, ho⟩
  · exact ⟨o, List.mem_append_left _ ho⟩

/-- **A run** and its outcomes: it is the specification's exactly when they are regular. -/
theorem runSpec_iff : ∀ (ts : List Task) {outcomes : Nat → Answer} {l : List Step} {r : Except Failure (List Value)},
    (∀ t ∈ ts, Accepted t) → (run ts).Ends l r → Follows outcomes l → (RunSpec ts l r ↔ Regular ts outcomes)
  | [],      outcomes, l, r, _, hends, _ => by
    obtain ⟨rfl, rfl⟩ := Prog.ends_ret.1 hends
    exact ⟨fun _ => trivial, fun _ => .returns [] [] rfl rfl⟩
  | t :: ts, outcomes, l, r, h, hends, hfollows => by
    have ht := h t List.mem_cons_self
    have hlater := fun u hu => h u (List.mem_cons_of_mem t hu)
    by_cases hexecutor : t.executor = none
    · constructor
      · intro hspec
        obtain ⟨o, ho⟩ := hspec.executes ht
        exact absurd hexecutor (hends.only (run_executes (t :: ts)) _ ho t rfl)
      · intro hregular
        exact absurd hexecutor hregular.1.executor
    · rcases Prog.ends_bind.1 hends with ⟨e, rfl, htask⟩ | ⟨v, l₁, l₂, rfl, htask, hrest⟩
      · rcases ht.ends_runTask hexecutor htask hfollows with
          ⟨x, rfl, rfl, hx, houts, hsmooth⟩ | ⟨hrough, e', he, hunmet⟩
        · have hstops : Stops x.task (tried (budget x.task) outcomes) := by
            have hcon := x.contributes
            rw [hx, houts] at hcon
            cases hcon with
            | failed _ hnone hno _ => exact ⟨hnone, hno⟩
          rw [houts] at hsmooth
          exact ⟨fun _ => ⟨hsmooth, fun hgo => absurd hstops hgo⟩, fun _ => .raises [] x ts [] e rfl rfl hx⟩
        · cases he
          exact ⟨fun hspec => absurd hspec hunmet.not_runSpec, fun hregular => absurd hregular.1 hrough⟩
      · rcases ht.ends_runTask hexecutor htask hfollows.left with
          ⟨x, rfl, rfl, hx, houts, hsmooth⟩ | ⟨-, e', he, -⟩
        · have hgoes : ¬ Stops x.task (tried (budget x.task) outcomes) := by
            rintro ⟨hnone, hno⟩
            have hcon := x.contributes
            rw [hx, houts] at hcon
            cases hcon with
            | value _ hv       => cases hnone.symm.trans hv
            | skipped _ hopt   => cases hopt.symm.trans hno
          have hfollows := hfollows.right
          rw [x.outcomesOf_steps, houts] at hfollows
          rw [houts] at hsmooth
          obtain ⟨r', rfl, hrun⟩ : ∃ r', r = r'.map (v :: ·) ∧ (run ts).Ends l₂ r' := by
            rcases Prog.ends_bind.1 hrest with ⟨e, rfl, hrun⟩ | ⟨rs, l₁, l₂, rfl, hrun, hret⟩
            · exact ⟨.error e, rfl, hrun⟩
            · obtain ⟨rfl, rfl⟩ := Prog.ends_ret.1 hret
              exact ⟨.ok rs, rfl, by rwa [List.append_nil]⟩
          have hiff := runSpec_iff ts hlater hrun hfollows
          constructor
          · intro hspec
            refine ⟨hsmooth, fun _ => hiff.1 ?_⟩
            exact hspec.tail hx
          · intro hregular
            exact (hiff.2 (hregular.2 hgoes)).cons hx
        · cases he

/-- The answers of the executes, in the order of their calls; the other calls are not made. -/
def answersOf (outcomes : Nat → Answer) (past : List Step) : (a : Call) → a.Res
  | .execute _  => outcomes (outcomesOf past).length
  | .check _    => false
  | .submit _   => 0
  | .store _ _  => ()
  | .result _ _ => .error .cancelled
  | .done _     => true
  | .cancel _   => false
  | .remove _   => ()
  | .sleep _    => ()
  | .work       => ()

theorem outcomesOf_answers {outcomes : Nat → Answer} : ∀ {l : List Step},
    (∀ pre c post, l = pre ++ c :: post → c.2 = answersOf outcomes pre c.1) → Follows outcomes l := by
  intro l
  induction l using List.reverseRecOn with
  | nil =>
    intro _ k o ho
    cases ho
  | append_singleton l c ih =>
    intro hans k o ho
    have hbefore : ∀ pre d post, l = pre ++ d :: post → d.2 = answersOf outcomes pre d.1 := by
      rintro pre d post rfl
      exact hans pre d (post ++ [c]) (by simp)
    have hc := hans l c [] rfl
    rw [outcomesOf_append] at ho
    by_cases hlt : k < (outcomesOf l).length
    · rw [List.getElem?_append_left hlt] at ho
      exact ih hbefore k o ho
    · rw [List.getElem?_append_right (by omega)] at ho
      obtain ⟨a, x⟩ := c
      cases a with
      | execute t =>
        obtain ⟨hk, rfl⟩ : k - (outcomesOf l).length = 0 ∧ x = o := by
          simpa [outcomesOf, List.getElem?_singleton] using ho
        have hlast : k = (outcomesOf l).length := by omega
        rw [hlast]
        exact hc
      | _ => cases ho

/-- Two rounds of two attempts with pauses, then an optional task. -/
def retryTasks : List Task :=
  [{ copyTask with roundTimeout := 0, roundTimes := 2, retryCount := 1, retryDelay := 5 },
   { copyTask with roundTimeout := 0, optional := true }]

/-- The first task succeeds at its third attempt, and the second one fails. -/
def retryOutcomes : Nat → Answer
  | 2 => .ok (some 7)
  | _ => .error (.raised "no")

theorem retryTasks_regular : Regular retryTasks retryOutcomes := by
  constructor
  · refine ⟨by decide, ⟨fun e he => ?_, fun d hd => ?_⟩, fun hnone => (by cases hnone)⟩
    · have he : (.error e : Answer) ∈ [.error (.raised "no"), .error (.raised "no"), .ok (some 7)] := he
      simp at he
      rw [he]
      rfl
    · have hd : (⟨.sleep d, ()⟩ : Step) ∈ [⟨.execute retryTasks[0], .error (.raised "no")⟩, ⟨.sleep 5, ()⟩,
          ⟨.execute retryTasks[0], .error (.raised "no")⟩, ⟨.execute retryTasks[0], .ok (some 7)⟩] := hd
      simp at hd
      rw [hd]
      decide
  · refine fun _ => ⟨⟨by decide, ⟨fun e he => ?_, fun d hd => ?_⟩, fun _ hno => (by cases hno)⟩, fun _ => trivial⟩
    · have he : (.error e : Answer) ∈ [.error (.raised "no")] := he
      simp at he
      rw [he]
      rfl
    · have hd : (⟨.sleep d, ()⟩ : Step) ∈ [⟨.execute retryTasks[1], .error (.raised "no")⟩] := hd
      simp at hd

/-- A task of one attempt. -/
def onceTask : Task := { copyTask with roundTimeout := 0 }

/-- The constructor takes the task, and when each of its executes answers `o` the run makes other calls than the
specification's or raises another exception. -/
def LeavesSpec (t : Task) (o : Answer) : Prop :=
  Accepted t ∧ ∃ l r, (run [t]).Ends l r ∧ Follows (fun _ => o) l ∧ ¬ RunSpec [t] l r

theorem leavesSpec_of_rough {t : Task} {o : Answer} (ht : Accepted t) (hrough : ¬ Smooth t (tried (budget t) fun _ => o)) :
    LeavesSpec t o := by
  obtain ⟨hends, hans⟩ := Prog.answered_ends (answersOf fun _ => o) (run [t]) []
  have hfollows := outcomesOf_answers (by simpa using hans)
  refine ⟨ht, _, _, hends, hfollows, fun hspec => hrough ?_⟩
  exact ((runSpec_iff [t] (fun u hu => by rwa [List.mem_singleton.1 hu]) hends hfollows).1 hspec).1

/-- **A workflow among others** follows it too: a thread that finishes has made its calls. -/
theorem pool_follows_retry_spec_iff (workflows : Nat → List Task) (steps : Nat)
    {c : Conc.Conf Thread Call Call.Res Failure Unit PoolState}
    (hr : Conc.Conf.Runs (sem.logged fun _ _ => True) (poolRun workflows steps) c) {i : Nat}
    (h : ∀ t ∈ workflows i, Accepted t) {x : Except Failure Unit} (hf : (c.prog (some i)).finished = some x)
    {outcomes : Nat → Answer} (hfollows : Follows outcomes (Conc.callsOf (some i) c.state.2)) :
    ∃ r, x = r.map (fun _ => ()) ∧ (RunSpec (workflows i) (Conc.callsOf (some i) c.state.2) r ↔ Regular (workflows i) outcomes) := by
  have hends : ((run (workflows i)).bind fun _ => .ret ()).Ends (Conc.callsOf (some i) c.state.2) x :=
    hr.ends rfl hf
  rcases Prog.ends_bind.1 hends with ⟨e, rfl, hrun⟩ | ⟨rs, l₁, l₂, hl, hrun, hret⟩
  · exact ⟨.error e, rfl, runSpec_iff _ h hrun hfollows⟩
  · obtain ⟨rfl, rfl⟩ := Prog.ends_ret.1 hret
    rw [List.append_nil] at hl
    rw [hl] at hfollows ⊢
    exact ⟨.ok rs, rfl, runSpec_iff _ h hrun hfollows⟩

end SoftTimeout
end Pypepper
