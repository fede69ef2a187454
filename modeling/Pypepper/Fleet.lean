import Pypepper.JobSys
/-!
# Fleet — several job objects over one store

A fleet is any number of job objects, each with its own channel, over one store on which no call fails.  Each thread works
for one copy: its actions see that copy's job and channel, and the store.
-/
namespace Pypepper

open Conc (Prog Sem Conf Ev)

structure Fleet where
  job   : Nat → Job
  chan  : Nat → Channel
  store : InMemoryJobStore

namespace Fleet

variable {ι : Type}

def view (f : Fleet) (i : Nat) : Ctx := ⟨f.job i, f.chan i, f.store, false⟩

def put (f : Fleet) (i : Nat) (x : Ctx) : Fleet :=
  ⟨Function.update f.job i x.job, Function.update f.chan i x.chan, x.store⟩

/-- An action of a thread, on the copy it works for. -/
def exec (copy : ι → Nat) (c : Choice) (t : ι) (a : Act) (f : Fleet) : Option (a.Res × Fleet) :=
  ((f.view (copy t)).step c a).map (fun p => (p.1, f.put (copy t) p.2))

def sem (copy : ι → Nat) : Sem ι Act Act.Res Fleet := Sem.ofExec (exec copy) (fun _ c _ _ => faultFree c)

theorem sem_step {copy : ι → Nat} {t : ι} {a : Act} {f f' : Fleet} {r : a.Res} (h : sem copy t a f r f') :
    ∃ c, faultFree c ∧ (f.view (copy t)).blocked a = false ∧ r = (Ctx.exec c a (f.view (copy t))).1 ∧
      f' = f.put (copy t) (Ctx.exec c a (f.view (copy t))).2 := by
  obtain ⟨c, hc, h⟩ := h
  obtain ⟨p, hp, hf⟩ := Option.map_eq_some_iff.1 h
  obtain ⟨hb, rfl⟩ := Ctx.step_eq_some hp
  cases hf
  exact ⟨c, hc, hb, rfl, rfl⟩

theorem put_job_of_ne (f : Fleet) {i j : Nat} (x : Ctx) (h : j ≠ i) : (f.put i x).job j = f.job j := by
  simp [put, h]

@[simp] theorem put_job_self (f : Fleet) (i : Nat) (x : Ctx) : (f.put i x).job i = x.job := by simp [put]

@[simp] theorem put_store (f : Fleet) (i : Nat) (x : Ctx) : (f.put i x).store = x.store := rfl

end Fleet

abbrev FleetEv (ι : Type) := Ev ι Act Act.Res Fleet

/-! A row, Scheduled at version 1, and any number of jobs of its id. -/

def scheduledRow : JobRecord :=
  { id := "j", category := none, channelId := "c", status := Status.scheduled.value, created := "t0", updated := "t0",
    workflowCount := 0, version := 1, payload := none }

def sampleFleet : Fleet :=
  ⟨fun i => { ref := i, id := "j" }, fun _ => ⟨[], 0, false⟩, InMemoryJobStore.empty.setRow scheduledRow⟩

end Pypepper
