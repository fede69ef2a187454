import Pypepper.Worker
/-!
# JobSys — one job under several threads

Threads share one job object, its channel and the store; `jobSem` performs their actions under the environment's
choices, of which a property names those it considers.  `race` is a worker processing a job while another thread
cancels it.
-/
namespace Pypepper

open Conc (Prog Proto Sem Conf Ev Admits)

variable {ι : Type}

abbrev JobEv (ι : Type) := Ev ι Act Act.Res Ctx

def jobExec (c : Choice) (_ : ι) (a : Act) (x : Ctx) : Option (a.Res × Ctx) := x.step c a

def jobSem (ok : Choice → Prop) : Sem ι Act Act.Res Ctx := Sem.ofExec jobExec (fun _ c _ _ => ok c)

theorem jobSem_step {ok : Choice → Prop} {t : ι} {a : Act} {x x' : Ctx} {r : a.Res} (h : jobSem ok t a x r x') :
    ∃ c, ok c ∧ x.blocked a = false ∧ r = (Ctx.exec c a x).1 ∧ x' = (Ctx.exec c a x).2 := by
  obtain ⟨c, hc, h⟩ := h
  obtain ⟨hb, hp⟩ := Ctx.step_eq_some h
  exact ⟨c, hc, hb, (congrArg Prod.fst hp).symm, (congrArg Prod.snd hp).symm⟩

/-- **An executed schedule of a job is a run**, when the environment may choose as it does. -/
theorem exists_jobRuns [DecidableEq ι] {α : Type} {ok : Choice → Prop}
    {c : Conf ι Act Act.Res Exn α (Ctx × List (JobEv ι))} {P : Conf ι Act Act.Res Exn α (Ctx × List (JobEv ι)) → Prop}
    [DecidablePred P] (sch : List (ι × Choice)) (hok : ∀ p ∈ sch, ok p.2)
    (h : (c.execs jobExec sch).any (fun c' => decide (P c')) = true) :
    ∃ c', Conf.Runs ((jobSem ok).logged (fun _ _ => True)) c c' ∧ P c' :=
  Conf.exists_runs sch (fun p hp _ _ => hok p hp) h

/-- The workflows started, in order. -/
def starts (log : List (JobEv ι)) : List Nat := log.filterMap (fun e => e.act.start)

theorem starts_append (log : List (JobEv ι)) (e : JobEv ι) :
    starts (log ++ [e]) = starts log ++ e.act.start.toList := by
  unfold starts
  rw [List.filterMap_append]
  cases h : e.act.start <;> simp [h]

/-- A store on which no call fails. -/
def faultFree (c : Choice) : Prop := c.fault = .none

theorem faultFree.ne_raises {c : Choice} (h : faultFree c) : c.fault ≠ .raises := by
  intro hr
  cases h.symm.trans hr

instance : DecidablePred faultFree := fun c => inferInstanceAs (Decidable (c.fault = .none))

/-- A schedule's `n` steps of one thread, without faults. -/
def turns (n : Nat) (t : ι) : List (ι × Choice) := List.replicate n (t, {})

inductive Side where
  | dispatcher | worker
  deriving DecidableEq, Repr

inductive Party where
  | worker | canceller
  deriving DecidableEq, Repr

abbrev RaceConf := Conf Party Act Act.Res Exn Unit (Ctx × List (JobEv Party))

/-- `Worker._process` of a job, and `Job.cancel` of the same job by another thread. -/
def race (x : Ctx) : RaceConf where
  prog
    | .worker    => Worker.process x.job.ident
    | .canceller => Job.cancel
  state := (x, [])

/-- `cancel` has moved the job to Cancelled. -/
def CancelWon (log : List (JobEv Party)) : Prop :=
  ∃ e ∈ log, e.thread = .canceller ∧ e.act.event e.res = some .cancel

instance (log : List (JobEv Party)) : Decidable (CancelWon log) :=
  inferInstanceAs (Decidable (∃ e ∈ log, e.thread = .canceller ∧ e.act.event e.res = some .cancel))

theorem cancelWon_append {log : List (JobEv Party)} {e : JobEv Party} :
    CancelWon (log ++ [e]) ↔ CancelWon log ∨ (e.thread = .canceller ∧ e.act.event e.res = some .cancel) := by
  simp [CancelWon, List.mem_append, or_and_right, exists_or]

/-- A scheduled job with no row yet. -/
def scheduledCtx : Ctx where
  job   := { ref := 0, id := "j", workflows := [⟨[]⟩], fsm := some .scheduled, status := Status.scheduled.value }
  chan  := ⟨[], 0, false⟩
  store := InMemoryJobStore.empty

/-- The same job with its Scheduled row at version 1. -/
def savedCtx : Ctx :=
  { scheduledCtx with store := InMemoryJobStore.empty.setRow (scheduledCtx.job.record "t0") }

end Pypepper
