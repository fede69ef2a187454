import Pypepper.Fleet
import Pypepper.JobRules
/-!
# Copies — several job objects of one id over one store

A copy of a job is built by `from_record` from the row and then saved any number of times, its lifecycle moving
arbitrarily in between; the threads interleave at the actions of `save`.

The version a copy may call its own is the one it was built from, or the one its last applied put wrote (`own`).  While
every refresh reads such a version, an applied update replaces exactly that version (`refresh_own_no_lost_update`).
The refresh is a separate read, and another copy's put may come before it: then the copy takes a version it never wrote
and overwrites an update it never read (`save_overwrites_unread_update`).
-/
namespace Pypepper

open Conc (Prog Proto Sem Conf Ev Admits)

/-! ## A copy's own version -/

def builtStep (i : Nat) (v : Option Int) : FleetEv Nat → Option Int
  | ⟨t, .fromRecord _, some r, _, _⟩ => if t = i then some r.version else v
  | _                                => v

/-- The version of the record copy `i` was built from. -/
def builtFrom (i : Nat) (log : List (FleetEv Nat)) : Option Int := log.foldl (builtStep i) none

def wroteStep (i : Nat) (v : Option Int) : FleetEv Nat → Option Int
  | ⟨t, .fromRecord _, some _, _, _⟩ => if t = i then none else v
  | ⟨t, .put rec, .ok true, _, post⟩ => if t = i then (post.store.get rec.id).map JobRecord.version else v
  | _                                => v

/-- The version copy `i`'s previous applied put wrote. -/
def lastWrote (i : Nat) (log : List (FleetEv Nat)) : Option Int := log.foldl (wroteStep i) none

def own (i : Nat) (log : List (FleetEv Nat)) : Option Int := (lastWrote i log).or (builtFrom i log)

/-- An applied update replaces the version its copy's previous applied put wrote, or the one it was built from. -/
def ReplacesOwn (before : List (FleetEv Nat)) (e : FleetEv Nat) : Prop :=
  ∀ rec ∈ e.act.applied e.res, ∀ d ∈ e.pre.store.get rec.id,
    lastWrote e.thread before = some d.version ∨ builtFrom e.thread before = some d.version

/-- A refresh reads the version its copy's own put wrote: nobody put in between. -/
def RefreshesOwn (before : List (FleetEv Nat)) (e : FleetEv Nat) : Prop :=
  e.act.isRefresh → ∀ d ∈ e.pre.store.get (e.pre.job e.thread).id, lastWrote e.thread before = some d.version

instance (before : List (FleetEv Nat)) (e : FleetEv Nat) : Decidable (ReplacesOwn before e) :=
  inferInstanceAs (Decidable (∀ rec ∈ e.act.applied e.res, ∀ d ∈ e.pre.store.get rec.id, _ ∨ _))

instance (before : List (FleetEv Nat)) (e : FleetEv Nat) : Decidable (RefreshesOwn before e) :=
  inferInstanceAs (Decidable (e.act.isRefresh → ∀ d ∈ e.pre.store.get (e.pre.job e.thread).id, _ = _))

theorem own_append (i : Nat) (log : List (FleetEv Nat)) (e : FleetEv Nat) :
    own i (log ++ [e]) = (wroteStep i (lastWrote i log) e).or (builtStep i (builtFrom i log) e) := by
  simp [own, lastWrote, builtFrom]

theorem own_of_ne (i : Nat) (log : List (FleetEv Nat)) (e : FleetEv Nat) (h : e.thread ≠ i) :
    own i (log ++ [e]) = own i log := by
  have hw : wroteStep i (lastWrote i log) e = lastWrote i log := by
    unfold wroteStep
    split
    · exact if_neg h
    · exact if_neg h
    · rfl
  have hb : builtStep i (builtFrom i log) e = builtFrom i log := by
    unfold builtStep
    split
    · exact if_neg h
    · rfl
  rw [own_append, hw, hb]
  rfl

theorem own_eq_some {i : Nat} {log : List (FleetEv Nat)} {v : Int} (h : own i log = some v) :
    lastWrote i log = some v ∨ builtFrom i log = some v :=
  (Option.or_eq_some_iff.1 h).imp_right And.right

/-! ## The threads -/

/-- What a copy's owner does with it: an event, a restore of its lifecycle, a save. -/
inductive CopyOp where
  | event (e : Event)
  | restore (s : Status)
  | save

def copyOps : List CopyOp → JobProg Unit
  | []               => return ()
  | .event e :: ops   => do
    (Job.applyEventP e).tryExcept (fun _ => return ())
    copyOps ops
  | .restore s :: ops => do
    Job.do_ (.restoreLifecycle (some s) s.value)
    copyOps ops
  | .save :: ops      => do
    let _ ← Job.save
    copyOps ops

/-- A copy's thread: rebuild the job from the row, then use it. -/
def copyThread (workflows : List Workflow) (ops : List CopyOp) : JobProg Unit := do
  match ← Job.do_ (.fromRecord workflows) with
  | none   => return ()
  | some _ => copyOps ops

/-- Any number of copies, each with its workflows and its uses, before anyone moved. -/
def copiesConf (f : Fleet) (workflows : Nat → List Workflow) (ops : Nat → List CopyOp) :
    Conf Nat Act Act.Res Exn Unit (Fleet × List (FleetEv Nat)) :=
  ⟨fun i => copyThread (workflows i) (ops i), f, []⟩

/-! ## The protocol -/

/-- Copy `i` acts under the condition, and the others leave its job alone. -/
def copyProto (i : Nat) : Proto Act Act.Res (Fleet × List (FleetEv Nat)) where
  step := (Fleet.sem id).logged RefreshesOwn i
  rely s s' := ∃ e, e.thread ≠ i ∧ s'.2 = s.2 ++ [e] ∧ s'.1.job i = s.1.job i ∧
    ∀ j, (s.1.store.get j).isSome → (s'.1.store.get j).isSome
  guar s s' := ∃ e, e.thread = i ∧ s'.2 = s.2 ++ [e] ∧ (∀ j, j ≠ i → s'.1.job j = s.1.job j) ∧
    (∀ j, (s.1.store.get j).isSome → (s'.1.store.get j).isSome) ∧ (Admits ReplacesOwn s.2 → Admits ReplacesOwn s'.2)

theorem copyProto_compat (i j : Nat) (h : i ≠ j) (s s' : Fleet × List (FleetEv Nat)) (hg : (copyProto j).guar s s') :
    (copyProto i).rely s s' := by
  obtain ⟨e, he, hlog, hjob, hrow, -⟩ := hg
  exact ⟨e, fun hi => h (hi.symm.trans he), hlog, hjob i h, hrow⟩

/-- The copy's version is its own. -/
def Mine (i : Nat) (s : Fleet × List (FleetEv Nat)) : Prop := own i s.2 = some (s.1.job i).version

theorem Mine.stable (i : Nat) : (copyProto i).Stable (Mine i) := by
  rintro s s' ⟨e, he, hlog, hjob, -⟩ h
  unfold Mine
  rw [hlog, own_of_ne i s.2 e he, hjob]
  exact h

/-- The guarantee of one action, from what it does to the rows and to the update it applies. -/
theorem copyProto_guar {i : Nat} {a : Act} {s s' : Fleet × List (FleetEv Nat)} {r : a.Res}
    (h : (copyProto i).step a s r s') (hrow : ∀ j, (s.1.store.get j).isSome → (s'.1.store.get j).isSome)
    (hown : ReplacesOwn s.2 ⟨i, a, r, s.1, s'.1⟩) : (copyProto i).guar s s' := by
  obtain ⟨hd, hlog, -⟩ := h
  obtain ⟨c, -, -, -, hf⟩ := Fleet.sem_step hd
  refine ⟨⟨i, a, r, s.1, s'.1⟩, rfl, hlog, fun j hj => ?_, hrow, fun hA => ?_⟩
  · rw [hf]; exact Fleet.put_job_of_ne _ _ hj
  · rw [hlog]; exact hA.append hown

/-- An action that neither puts, refreshes nor rebuilds leaves the copy's version and the rows. -/
theorem quiet_step {i : Nat} {a : Act} {s s' : Fleet × List (FleetEv Nat)} {r : a.Res} (hp : ∀ rec, a ≠ .put rec)
    (hr : ∀ u, a ≠ .refresh u) (hb : ∀ ws, a ≠ .fromRecord ws) (h : (copyProto i).step a s r s') (hm : Mine i s) :
    (copyProto i).guar s s' ∧ Mine i s' := by
  obtain ⟨c, -, -, -, hf⟩ := Fleet.sem_step h.1
  have hstore : s'.1.store = s.1.store := by
    rw [hf, Fleet.put_store, Ctx.exec_store c a _ hp]; rfl
  have hver : (s'.1.job i).version = (s.1.job i).version := by
    rw [hf, id, Fleet.put_job_self, Ctx.exec_version c a _ hr hb]; rfl
  have hown : own i s'.2 = own i s.2 := by
    rw [h.2.1, own_append]
    cases a with
    | put rec => exact absurd rfl (hp rec)
    | fromRecord ws => exact absurd rfl (hb ws)
    | _ => rfl
  have hrep : ReplacesOwn s.2 ⟨i, a, r, s.1, s'.1⟩ := by
    intro rec hrec
    rw [Act.applied_eq_none hp] at hrec
    cases hrec
  refine ⟨copyProto_guar h (fun j hj => by rw [hstore]; exact hj) hrep, ?_⟩
  unfold Mine
  rw [hown, hver]
  exact hm

/-- **A save keeps the copy's version its own**: the put replaces it, and the refresh, under the condition, reads back what
the put wrote. -/
theorem save_keeps_mine (i : Nat) : (copyProto i).Keeps (Mine i) Job.save := by
  intro s hs
  refine wp_save (P := Mine i) (B := fun rec s => Mine i s ∧ own i s.2 = some rec.version ∧ rec.id = (s.1.job i).id)
    (W := fun _ s => (s.1.store.get (s.1.job i).id).isSome) (Mine.stable i) ?_ ?_ ?_ ?_ ?_ hs
  · intro rec
    refine (Mine.stable i).and ?_
    rintro s s' ⟨e, he, hlog, hjob, -⟩ h
    rw [hlog, own_of_ne i s.2 e he, hjob]
    exact h
  · rintro - s s' ⟨e, he, hlog, hjob, hrow⟩ hr
    rw [hjob]
    exact hrow _ hr
  · intro s rec s' h hst
    obtain ⟨hg, hm⟩ := quiet_step (by simp) (by simp) (by simp) hst h
    obtain ⟨c, -, -, hr, hf⟩ := Fleet.sem_step hst.1
    refine ⟨hg, hm, ?_, ?_⟩
    · rw [hm, hf, hr]; simp [Ctx.exec, Job.record]
    · rw [hf, hr]; simp [Ctx.exec, Job.record, Fleet.view]
  · rintro rec s r s' ⟨hm, hown, hid⟩ hst
    obtain ⟨c, hc, -, hr, hf⟩ := Fleet.sem_step hst.1
    rw [id, Ctx.exec_put_healthy c rec (s.1.view i) hc] at hr hf
    have hstore : s'.1.store = (s.1.store.put rec).2 := by rw [hf]; rfl
    have hjob : s'.1.job i = s.1.job i := by rw [hf]; simp [Fleet.view]
    have hrow : ∀ j, (s.1.store.get j).isSome → (s'.1.store.get j).isSome := fun j hj => by
      rw [hstore]; exact InMemoryJobStore.isSome_get_put _ _ _ hj
    obtain rfl : r = .ok (s.1.store.put rec).1 := hr
    obtain ⟨hnone, hp⟩ | ⟨d, hd, hw, hp⟩ | ⟨d, hd, hw, hp⟩ := InMemoryJobStore.put_cases s.1.store rec
    · rw [hp] at hst hstore ⊢
      refine ⟨copyProto_guar hst hrow (fun q hq d hd => ?_), ?_⟩
      · obtain rfl := Option.some.inj hq
        rw [hnone] at hd; cases hd
      · rw [hstore, hjob, ← hid]; simp
    · rw [hp] at hst hstore ⊢
      have hnext : (s.1.store.setRow (InMemoryJobStore.updated d rec)).get rec.id =
          some (InMemoryJobStore.updated d rec) := InMemoryJobStore.get_setRow_self _ _
      refine ⟨copyProto_guar hst hrow (fun q hq d' hd' => ?_), ?_⟩
      · obtain rfl := Option.some.inj hq
        obtain rfl : d = d' := Option.some.inj (hd.symm.trans hd')
        rw [hw.2]
        exact own_eq_some hown
      · rw [hstore, hjob, ← hid, hnext]; rfl
    · rw [hp] at hst ⊢
      refine ⟨copyProto_guar hst hrow (fun q hq => by cases hq), ?_⟩
      unfold Mine
      rw [hst.2.1, own_append, hjob]
      exact hm
  · rintro rec s r s' hrow hst
    obtain ⟨d, hd⟩ := Option.isSome_iff_exists.1 hrow
    have hback : lastWrote i s.2 = some d.version := hst.2.2 rfl d hd
    obtain ⟨c, hc, -, hr, hf⟩ := Fleet.sem_step hst.1
    rw [id, Ctx.exec_refresh_some c _ (s.1.view i) hc.ne_raises hd] at hr hf
    subst hr
    refine ⟨copyProto_guar hst (fun j hj => by rw [hf]; exact hj) (fun q hq => by cases hq), ?_⟩
    show own i s'.2 = some (s'.1.job i).version
    rw [hst.2.1, own_append, hf]
    simp [wroteStep, hback]

/-! ## Every run -/

theorem copyOps_keeps_mine (i : Nat) : ∀ ops, (copyProto i).Keeps (Mine i) (copyOps ops)
  | [] => .ret ()
  | .event e :: ops =>
    have hev : (copyProto i).Keeps (Mine i) (Job.applyEventP e) :=
      (Proto.Keeps.call (Mine.stable i) fun _ _ _ hm hst => quiet_step (by simp) (by simp) (by simp) hst hm).bind
        fun _ => .ofExcept _
    (hev.tryExcept fun _ => .ret ()).bind fun _ => copyOps_keeps_mine i ops
  | .restore s :: ops =>
    (Proto.Keeps.call (Mine.stable i) fun _ _ _ hm hst => quiet_step (by simp) (by simp) (by simp) hst hm).bind
      fun _ => copyOps_keeps_mine i ops
  | .save :: ops => (save_keeps_mine i).bind fun _ => copyOps_keeps_mine i ops

theorem copyThread_wp (i : Nat) (ws : List Workflow) (ops : List CopyOp) (s : Fleet × List (FleetEv Nat)) :
    (copyProto i).wp (copyThread ws ops) (fun _ _ => True) s := by
  refine Proto.wp_act (P := fun _ => True) (fun _ _ _ _ => trivial) trivial (fun s₁ r s₂ _ hst => ?_)
  obtain ⟨c, -, -, hr, hf⟩ := Fleet.sem_step hst.1
  have hstore : s₂.1.store = s₁.1.store := by
    rw [hf, Fleet.put_store, Ctx.exec_store c _ _ (by simp)]; rfl
  refine ⟨copyProto_guar hst (fun j hj => by rw [hstore]; exact hj) (fun q hq => by cases hq), ?_⟩
  match r, hr, hst with
  | none, _, _ => exact trivial
  | some d, hr, hst =>
    have hrow : (s₁.1.view i).row = some d := by
      cases hrow : (s₁.1.view i).row with
      | none => simp [Ctx.exec, Ctx.fromRecord, hrow] at hr
      | some d' => simp only [Ctx.exec, Ctx.fromRecord, id, hrow, Option.some.injEq] at hr; rw [hr]
    have hm : Mine i s₂ := by
      unfold Mine
      rw [hst.2.1, own_append, hf]
      simp [wroteStep, builtStep, Ctx.exec, Ctx.fromRecord, hrow, Job.ofRecord]
    exact Proto.wp_mono (fun _ _ _ => trivial) _ _ (copyOps_keeps_mine i ops s₂ hm)

/-- **No lost update**: in every run whose refreshes each read the version the copy's own put wrote, every applied update
replaces that version, or the one its copy was built from. -/
theorem refresh_own_no_lost_update (f : Fleet) (workflows : Nat → List Workflow) (ops : Nat → List CopyOp)
    {c : Conf Nat Act Act.Res Exn Unit (Fleet × List (FleetEv Nat))}
    (hrun : Conf.Runs ((Fleet.sem id).logged (fun _ _ => True)) (copiesConf f workflows ops) c)
    (hread : Admits RefreshesOwn c.state.2) : Admits ReplacesOwn c.state.2 := by
  have hheld : Conf.Held copyProto (fun _ _ _ => True) (copiesConf f workflows ops) :=
    .init fun i => copyThread_wp i (workflows i) (ops i) _
  exact hheld.invariant copyProto_compat (P := fun s => Admits ReplacesOwn s.2)
    (fun i s s' ⟨_, _, _, _, _, hrep⟩ => hrep) Admits.nil (hrun.restrict hread)

/-! Copies of the sample row, each scheduled and saved twice. -/

def sampleOps : Nat → List CopyOp := fun _ => [.event .init, .event .schedule, .save, .save]

def schedule (threads : List Nat) : List (Nat × Choice) := threads.map (·, {})

theorem schedule_healthy (threads : List Nat) : ∀ p ∈ schedule threads, ∀ (_ : Act) (_ : Fleet), faultFree p.2 := by
  simp [schedule, faultFree]

/-- Copy 0 saves twice, and copy 1, built before the second save, is refused. -/
theorem refresh_own_no_lost_update_run : ∃ c, Conf.Runs ((Fleet.sem id).logged (fun _ _ => True))
    (copiesConf sampleFleet (fun _ => []) sampleOps) c ∧ Admits RefreshesOwn c.state.2 ∧
    (c.state.2.filterMap (fun e => e.act.applied e.res)).length = 2 ∧ Admits ReplacesOwn c.state.2 := by
  have hrun : ∃ c, Conf.Runs ((Fleet.sem id).logged (fun _ _ => True))
      (copiesConf sampleFleet (fun _ => []) sampleOps) c ∧ Admits RefreshesOwn c.state.2 ∧
      (c.state.2.filterMap (fun e => e.act.applied e.res)).length = 2 :=
    Conf.exists_runs (schedule [0, 0, 0, 0, 0, 0, 1, 1, 1, 1, 0, 0, 0, 1]) (schedule_healthy _) (by decide +kernel)
  obtain ⟨c, hrun, hread, hlen⟩ := hrun
  exact ⟨c, hrun, hread, hlen, refresh_own_no_lost_update _ _ _ hrun hread⟩

/-- **The separate refresh loses an update**: copy 0 puts version 2; copy 1, built from it, puts version 3; copy 0's
refresh takes version 3, and its next put replaces that update without having read it. -/
theorem save_overwrites_unread_update : ∃ c, Conf.Runs ((Fleet.sem id).logged (fun _ _ => True))
    (copiesConf sampleFleet (fun _ => []) sampleOps) c ∧ ¬ Admits ReplacesOwn c.state.2 :=
  Conf.exists_runs (schedule [0, 0, 0, 0, 0, 1, 1, 1, 1, 1, 0, 0, 0]) (schedule_healthy _) (by decide +kernel)

end Pypepper
