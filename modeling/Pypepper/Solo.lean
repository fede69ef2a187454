import Pypepper.JobRules
import Pypepper.JobSys
/-!
# Solo — a thread alone with its job

One program on a job, its actions performed one after the other and logged.  At each the environment chooses once: what
the store call and the channel do, and what other writers did to the store just before (`Turn`).
-/
namespace Pypepper

open Conc (Prog Proto Ev Admits)

/-- The environment at one action: its choice, and what other writers did to the store just before. -/
structure Turn where
  choice : Choice := {}
  others : InMemoryJobStore → InMemoryJobStore := id

abbrev SoloState := Ctx × List (JobEv Unit)

def Turn.before (t : Turn) (x : Ctx) : Ctx := { x with store := t.others x.store }

def turnExec (t : Turn) (a : Act) (s : SoloState) : a.Res × SoloState :=
  let x := t.before s.1
  ((Ctx.exec t.choice a x).1, (Ctx.exec t.choice a x).2,
    s.2 ++ [⟨(), a, (Ctx.exec t.choice a x).1, x, (Ctx.exec t.choice a x).2⟩])

theorem Turn.before_of_alone {t : Turn} (h : t.others = id) (x : Ctx) : t.before x = x := by
  rw [Turn.before, h]
  rfl

/-- What an action does when nobody else writes. -/
theorem turnExec_alone {t : Turn} (h : t.others = id) {a : Act} {s : SoloState} {r : a.Res} {x : Ctx}
    (hx : Ctx.exec t.choice a s.1 = (r, x)) : turnExec t a s = (r, x, s.2 ++ [⟨(), a, r, s.1, x⟩]) := by
  simp only [turnExec, Turn.before_of_alone h s.1, hx]

theorem length_turnExec (t : Turn) (a : Act) (s : SoloState) : (turnExec t a s).2.2.length = s.2.length + 1 := by
  simp only [turnExec, List.length_append, List.length_singleton]

/-- The events since the log had `n` entries: those before the action, and the action's. -/
theorem mem_drop_turnExec {n : Nat} {t : Turn} {a : Act} {s : SoloState} {e : JobEv Unit} (hn : n ≤ s.2.length)
    (h : e ∈ (turnExec t a s).2.2.drop n) :
    e ∈ s.2.drop n ∨ e = ⟨(), a, (turnExec t a s).1, t.before s.1, (turnExec t a s).2.1⟩ := by
  simp only [turnExec, List.drop_append_of_le_length hn] at h
  exact (List.mem_append.1 h).imp_right List.mem_singleton.1

/-- Every awaited workflow returned, or raised an `Exception`. -/
def Caught {ι : Type} (log : List (JobEv ι)) : Prop := ∀ e ∈ log, e.act.abrupt e.res = false

instance {ι : Type} (log : List (JobEv ι)) : Decidable (Caught log) :=
  inferInstanceAs (Decidable (∀ e ∈ log, e.act.abrupt e.res = false))

theorem caught_nil {ι : Type} : Caught ([] : List (JobEv ι)) := by simp [Caught]

theorem caught_turnExec {t : Turn} {a : Act} {s : SoloState} :
    Caught (turnExec t a s).2.2 ↔ Caught s.2 ∧ a.abrupt (turnExec t a s).1 = false := by
  simp only [Caught, turnExec, List.mem_append, List.mem_singleton, or_imp, forall_and, forall_eq]

/-- With nobody else at the store or the channel. -/
def aloneExec (c : Choice) (a : Act) (s : SoloState) : a.Res × SoloState :=
  turnExec { choice := { c with race := none } } a s

theorem aloneExec_eq (c : Choice) (a : Act) (s : SoloState) :
    aloneExec c a s = ((Ctx.exec { c with race := none } a s.1).1, (Ctx.exec { c with race := none } a s.1).2,
      s.2 ++ [⟨(), a, (Ctx.exec { c with race := none } a s.1).1, s.1, (Ctx.exec { c with race := none } a s.1).2⟩]) :=
  turnExec_alone rfl rfl

end Pypepper
