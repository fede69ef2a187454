import Mathlib.Data.List.Induction
import Pypepper.Store
/-!
# StoreHistory — a row's history between deletions

Runs of the in-memory store over any sequence of calls.  Between two points with no deletion of an id and no clear, the
row's `created` stays, its version counts the applied updates and its status only moves up the lifecycle order
(`run_row`); a row found in a run from the empty store was inserted by one put of the run, and everything since then is
updates (`run_birth`).
-/
namespace Pypepper
namespace InMemoryJobStore

/-- One call of the store's interface. -/
inductive Call where
  | put (record : JobRecord)
  | get (jobId : String)
  | list (channelId : Option String)
  | delete (jobId : String)
  | clear

/-- The store one call leaves. -/
def apply (s : InMemoryJobStore) : Call → InMemoryJobStore
  | .put record => (s.put record).2
  | .get _      => s
  | .list _     => s
  | .delete j   => s.delete j
  | .clear      => s.clear

def run (s : InMemoryJobStore) (calls : List Call) : InMemoryJobStore := calls.foldl apply s

/-- The call takes the row of `id` away: a deletion of it, or a clear. -/
def Call.removes (id : String) : Call → Bool
  | .delete j => decide (j = id)
  | .clear    => true
  | _         => false

/-- The call is an applied update of the row of `id`: a put that finds a row and returns true. -/
def updates1 (id : String) (s : InMemoryJobStore) : Call → Bool
  | .put record => decide (record.id = id) && (s.get id).isSome && (s.put record).1
  | _           => false

/-- The number of applied updates of the row of `id` along a run. -/
def updates (id : String) : InMemoryJobStore → List Call → Nat
  | _, []      => 0
  | s, c :: cs => (if updates1 id s c then 1 else 0) + updates id (s.apply c) cs

theorem run_append (s : InMemoryJobStore) (a b : List Call) : s.run (a ++ b) = (s.run a).run b :=
  List.foldl_append

theorem updates_append (id : String) : ∀ (a b : List Call) (s : InMemoryJobStore),
    updates id s (a ++ b) = updates id s a + updates id (s.run a) b
  | [], b, s => by simp [updates, run]
  | c :: a, b, s => by
    rw [List.cons_append, updates, updates, updates_append id a b, Nat.add_assoc]
    rfl

/-- The row `r₁` continues the row `r₀` after `n` applied updates. -/
structure Continues (r₀ r₁ : JobRecord) (n : Nat) : Prop where
  created : r₁.created = r₀.created
  version : r₁.version = r₀.version + n
  status  : StatusLe r₀.status r₁.status

theorem Continues.refl (r : JobRecord) : Continues r r 0 := ⟨rfl, by simp, .refl _⟩

theorem Continues.trans {r₀ r₁ r₂ : JobRecord} {m n : Nat} (h₁ : Continues r₀ r₁ m) (h₂ : Continues r₁ r₂ n) :
    Continues r₀ r₂ (m + n) :=
  ⟨h₂.created.trans h₁.created, by rw [h₂.version, h₁.version]; omega, h₁.status.trans h₂.status⟩

/-- **One call continues the row**: it is untouched, or updated once. -/
theorem apply_row (id : String) (s : InMemoryJobStore) (c : Call) (hc : c.removes id = false) (r₀ : JobRecord)
    (h : s.get id = some r₀) :
    ∃ r₁, (s.apply c).get id = some r₁ ∧ Continues r₀ r₁ (if updates1 id s c then 1 else 0) := by
  cases c with
  | get j => exact ⟨r₀, h, .refl _⟩
  | list ch => exact ⟨r₀, h, .refl _⟩
  | clear => cases hc
  | delete j =>
    have hj : id ≠ j := fun hj => by simp [Call.removes, hj] at hc
    exact ⟨r₀, by rw [apply, get_delete, if_neg hj]; exact h, .refl _⟩
  | put record =>
    by_cases hid : record.id = id
    · subst hid
      obtain ⟨hn, -⟩ | ⟨e, he, hw, hp⟩ | ⟨e, he, -, hp⟩ := put_cases s record
      · rw [hn] at h; cases h
      · obtain rfl : e = r₀ := Option.some.inj (he.symm.trans h)
        refine ⟨updated e record, by rw [apply, hp]; exact get_setRow_self _ _, ?_⟩
        simp only [updates1, hp, h, decide_true, Option.isSome_some, Bool.and_self, if_true]
        exact ⟨rfl, rfl, hw.1⟩
      · refine ⟨r₀, by rw [apply, hp]; exact h, ?_⟩
        simp only [updates1, hp, Bool.and_false, Bool.false_eq_true, if_false]
        exact .refl _
    · refine ⟨r₀, by rw [apply, get_put_of_ne _ _ (fun h => hid h.symm)]; exact h, ?_⟩
      simp only [updates1, hid, decide_false, Bool.false_and, Bool.false_eq_true, if_false]
      exact .refl _

/-- **A run that never takes the row away continues it**, by as many versions as it applies updates. -/
theorem run_row (id : String) : ∀ (cs : List Call) (s : InMemoryJobStore) (r₀ : JobRecord),
    (∀ c ∈ cs, c.removes id = false) → s.get id = some r₀ →
      ∃ r₁, (s.run cs).get id = some r₁ ∧ Continues r₀ r₁ (updates id s cs)
  | [], _, r₀, _, h => ⟨r₀, h, .refl _⟩
  | c :: cs, s, r₀, hcs, h => by
    obtain ⟨r, hr, hc⟩ := apply_row id s c (hcs c List.mem_cons_self) r₀ h
    obtain ⟨r₁, hr₁, hc₁⟩ := run_row id cs (s.apply c) r (fun x hx => hcs x (List.mem_cons_of_mem _ hx)) hr
    exact ⟨r₁, hr₁, hc.trans hc₁⟩

/-- A call that makes a row appear is the put that inserts it, as it is. -/
theorem apply_birth (id : String) (s : InMemoryJobStore) (c : Call) (h : s.get id = none) (r : JobRecord)
    (hr : (s.apply c).get id = some r) : c = .put r ∧ r.id = id := by
  cases c with
  | get j => rw [apply, h] at hr; cases hr
  | list ch => rw [apply, h] at hr; cases hr
  | clear => cases hr
  | delete j =>
    rw [apply, get_delete] at hr
    split at hr
    · cases hr
    · rw [h] at hr; cases hr
  | put record =>
    by_cases hid : record.id = id
    · subst hid
      obtain ⟨-, hp⟩ | ⟨e, he, -, -⟩ | ⟨e, he, -, -⟩ := put_cases s record
      · rw [apply, hp, get_setRow_self] at hr
        obtain rfl := Option.some.inj hr
        exact ⟨rfl, rfl⟩
      · rw [h] at he; cases he
      · rw [h] at he; cases he
    · rw [apply, get_put_of_ne _ _ (fun h => hid h.symm), h] at hr; cases hr

/-- **A row was inserted by one put and only updated since**: in any run from a store without the row, a row found at
the end has an inserting put after which nothing took it away. -/
theorem run_birth (id : String) : ∀ (cs : List Call) (s : InMemoryJobStore) (r₁ : JobRecord),
    s.get id = none → (s.run cs).get id = some r₁ →
      ∃ a r b, cs = a ++ .put r :: b ∧ r.id = id ∧ (s.run a).get id = none ∧ (∀ c ∈ b, c.removes id = false) ∧
        Continues r r₁ (updates id (s.run (a ++ [.put r])) b) := by
  intro cs
  induction cs using List.reverseRecOn with
  | nil => intro s r₁ h hr; rw [run, List.foldl_nil, h] at hr; cases hr
  | append_singleton cs c ih =>
    intro s r₁ h hr
    rw [run_append] at hr
    cases hm : (s.run cs).get id with
    | none =>
      -- the last call is the insertion
      obtain ⟨rfl, hid⟩ := apply_birth id (s.run cs) c hm r₁ hr
      exact ⟨cs, r₁, [], rfl, hid, hm, by simp, .refl _⟩
    | some r =>
      obtain ⟨a, r₀, b, rfl, hid, ha, hb, hc⟩ := ih s r h hm
      have hcr : c.removes id = false := by
        cases hrem : c.removes id with
        | false => rfl
        | true =>
          have hgone : ((s.run (a ++ .put r₀ :: b)).apply c).get id = none := by
            cases c with
            | delete j =>
              have hj : j = id := by simpa [Call.removes] using hrem
              rw [apply, get_delete, if_pos hj.symm]
            | clear => rfl
            | _ => cases hrem
          rw [run, List.foldl_cons, List.foldl_nil, hgone] at hr
          cases hr
      obtain ⟨r', hr', hc'⟩ := apply_row id _ c hcr r hm
      obtain rfl : r' = r₁ := Option.some.inj (hr'.symm.trans hr)
      refine ⟨a, r₀, b ++ [c], by simp, hid, ha, ?_, ?_⟩
      · intro x hx
        rcases List.mem_append.1 hx with hx | hx
        · exact hb x hx
        · rw [List.mem_singleton.1 hx]; exact hcr
      · have hu : updates id (s.run (a ++ [.put r₀])) (b ++ [c]) = updates id (s.run (a ++ [.put r₀])) b +
            (if updates1 id (s.run (a ++ .put r₀ :: b)) c then 1 else 0) := by
          rw [updates_append, ← run_append]
          simp [updates]
        rw [hu]
        exact hc.trans hc'

/-- **Durable history is monotone.**  After any run from the empty store, between that point and any later one reached
without a deletion of the id or a clear: a row keeps its `created`, counts the applied updates in its version and moves
up the lifecycle order; a row that appears in between starts at its inserting record and continues it; a row already
there goes back to one inserting put with only updates since.  A refused put changes nothing, and no put touches
another id. -/
theorem durable_history_monotone (before between : List Call) (id : String)
    (hkeep : ∀ c ∈ between, c.removes id = false) :
    (∀ r₀, (empty.run before).get id = some r₀ →
      (∃ r₁, ((empty.run before).run between).get id = some r₁ ∧
        Continues r₀ r₁ (updates id (empty.run before) between)) ∧
      (∃ a r b, before = a ++ .put r :: b ∧ r.id = id ∧ (empty.run a).get id = none ∧
        (∀ c ∈ b, c.removes id = false) ∧ Continues r r₀ (updates id (empty.run (a ++ [.put r])) b))) ∧
    (∀ r₁, (empty.run before).get id = none → ((empty.run before).run between).get id = some r₁ →
      ∃ a r b, between = a ++ .put r :: b ∧ r.id = id ∧ ((empty.run before).run a).get id = none ∧
        Continues r r₁ (updates id ((empty.run before).run (a ++ [.put r])) b)) ∧
    (∀ record, ((empty.run before).put record).1 = false → ((empty.run before).put record).2 = empty.run before) ∧
    (∀ record j, j ≠ record.id → ((empty.run before).put record).2.get j = (empty.run before).get j) := by
  refine ⟨fun r₀ h₀ => ⟨run_row id between _ r₀ hkeep h₀, run_birth id before empty r₀ rfl h₀⟩, fun r₁ hn hr => ?_,
    fun record h => put_refused _ _ h, fun record j h => get_put_of_ne _ _ h⟩
  obtain ⟨a, r, b, hs, hid, ha, -, hc⟩ := run_birth id between _ r₁ hn hr
  exact ⟨a, r, b, hs, hid, ha, hc⟩

/-- The record of a fixed job at a status and a version. -/
def sample (status : Status) (version : Int) : JobRecord :=
  { id := "job", category := none, channelId := "default", status := status.value, created := "t0", updated := "t0",
    version := version }

theorem durable_history_monotone_run :
    (∀ c ∈ [Call.put (sample .inProgress 1), Call.put (sample .scheduled 2)], c.removes "job" = false) ∧
    (∃ r₁, ((empty.run [.put (sample .scheduled 1)]).run
        [.put (sample .inProgress 1), .put (sample .scheduled 2)]).get "job" = some r₁ ∧
      Continues (sample .scheduled 1) r₁ 1) := by
  refine ⟨by decide, ?_⟩
  have h := (durable_history_monotone [.put (sample .scheduled 1)]
    [.put (sample .inProgress 1), .put (sample .scheduled 2)] "job" (by decide)).1 (sample .scheduled 1) rfl
  exact h.1

end InMemoryJobStore
end Pypepper
