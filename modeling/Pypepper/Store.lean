import Pypepper.Dict
import Pypepper.Json
import Pypepper.Status
/-!
# Store — job records, the status fence and the in-memory store

`scheduler/store/interfaces.py`, `lifecycle.py` and `memory.py`.  A record is a snapshot of a job; its status is a
text, listed or not.  `putMayWrite` is the fence every backend applies to an update: the incoming status may replace
the durable one, and the versions agree.  The fence is the lifecycle order (`putApplies_iff`).
-/
namespace Pypepper

structure JobRecord where
  id            : String
  category      : Option String
  channelId     : String
  status        : String
  created       : String
  updated       : String
  workflowCount : Int := 0
  version       : Int := 1
  payload       : Option (Py.Json Py.Str) := none

/-! ## The fence -/

/-- `_NON_TERMINAL`. -/
def nonTerminal : List String :=
  [Status.unknown.value, Status.initializing.value, Status.scheduled.value, Status.inProgress.value]

/-- `_REPLACEABLE`: the statuses an incoming status may replace, itself included. -/
def replaceable : List (String × List String) :=
  [ (Status.unknown.value,      [Status.unknown.value]),
    (Status.initializing.value, [Status.unknown.value, Status.initializing.value]),
    (Status.scheduled.value,    [Status.unknown.value, Status.initializing.value, Status.scheduled.value]),
    (Status.inProgress.value,   nonTerminal),
    (Status.failed.value,       nonTerminal ++ [Status.failed.value]),
    (Status.completed.value,    nonTerminal ++ [Status.completed.value]),
    (Status.cancelled.value,    nonTerminal ++ [Status.cancelled.value]) ]

def existingStatusesPutMayReplace (incoming : String) : List String :=
  match Py.Dict.lookup incoming replaceable with
  | some allowed => allowed
  | none         => [incoming]

def putApplies (existing : Option String) (incoming : String) : Bool :=
  match existing with
  | none   => true
  | some e => (existingStatusesPutMayReplace incoming).contains e

def putMayWrite (existingStatus : Option String) (existingVersion : Option Int) (incomingStatus : String)
    (incomingVersion : Int) : Bool :=
  match existingStatus with
  | none   => true
  | some e => putApplies (some e) incomingStatus && decide (existingVersion = some incomingVersion)

/-! ## The lifecycle order -/

/-- How far along the lifecycle a status is; the three terminals are at the same height. -/
def Status.rank : Status → Nat
  | .unknown                          => 0
  | .initializing                     => 1
  | .scheduled                        => 2
  | .inProgress                       => 3
  | .failed | .completed | .cancelled => 4

/-- Every event moves forward. -/
theorem Fsm.rank_lt_of_target {e : Event} {s t : Status} (h : Fsm.target e s = some t) : s.rank < t.rank := by
  rw [Fsm.target_eq] at h
  cases e <;> cases s <;> simp at h <;> subst h <;> decide

/-- **The lifecycle order on stored texts**: equal, or both listed with the first strictly earlier. -/
def StatusLe (a b : String) : Prop :=
  a = b ∨ ∃ s t : Status, s.value = a ∧ t.value = b ∧ s.rank < t.rank

theorem StatusLe.refl (a : String) : StatusLe a a := .inl rfl

theorem StatusLe.trans {a b c : String} (h₁ : StatusLe a b) (h₂ : StatusLe b c) : StatusLe a c := by
  rcases h₁ with rfl | ⟨s, t, hs, ht, hst⟩
  · exact h₂
  · rcases h₂ with rfl | ⟨t', u, ht', hu, htu⟩
    · exact .inr ⟨s, t, hs, ht, hst⟩
    · obtain rfl : t = t' := Status.value_injective (ht.trans ht'.symm)
      exact .inr ⟨s, u, hs, hu, Nat.lt_trans hst htu⟩

theorem StatusLe.antisymm {a b : String} (h₁ : StatusLe a b) (h₂ : StatusLe b a) : a = b := by
  rcases h₁ with rfl | ⟨s, t, hs, ht, hst⟩
  · rfl
  · rcases h₂ with h | ⟨t', s', ht', hs', hts⟩
    · exact h.symm
    · obtain rfl : t = t' := Status.value_injective (ht.trans ht'.symm)
      obtain rfl : s = s' := Status.value_injective (hs.trans hs'.symm)
      omega

theorem statusLe_value {s t : Status} : StatusLe s.value t.value ↔ s = t ∨ s.rank < t.rank := by
  constructor
  · rintro (h | ⟨s', t', hs, ht, hst⟩)
    · exact .inl (Status.value_injective h)
    · obtain rfl := Status.value_injective hs
      obtain rfl := Status.value_injective ht
      exact .inr hst
  · rintro (rfl | h)
    · exact .refl _
    · exact .inr ⟨s, t, rfl, rfl, h⟩

/-- A text that is one of the terminal statuses. -/
def terminalText (t : String) : Bool := (Status.ofValue t).any Status.terminal

theorem terminalText_iff {t : String} : terminalText t = true ↔ ∃ v : Status, v.terminal = true ∧ v.value = t := by
  unfold terminalText
  rw [Option.any_eq_true]
  constructor
  · rintro ⟨v, hv, ht⟩
    exact ⟨v, ht, Status.value_of_ofValue hv⟩
  · rintro ⟨v, ht, rfl⟩
    exact ⟨v, Status.ofValue_value v, ht⟩

/-- **Nothing is above a terminal status.** -/
theorem StatusLe.of_terminal {a b : String} (ha : terminalText a = true) (h : StatusLe a b) : b = a := by
  obtain ⟨v, hv, rfl⟩ := terminalText_iff.1 ha
  rcases h with h | ⟨s, t, hs, -, hst⟩
  · exact h.symm
  · obtain rfl := Status.value_injective hs
    cases s <;> cases hv <;> cases t <;> simp [Status.rank] at hst

theorem lookup_replaceable_none {incoming : String} (h : ∀ s : Status, s.value ≠ incoming) :
    Py.Dict.lookup incoming replaceable = none := by
  simp only [replaceable, Py.Dict.lookup, h, if_false]

theorem putApplies_value (s t : Status) : putApplies (some s.value) t.value = decide (s = t ∨ s.rank < t.rank) := by
  cases s <;> cases t <;> decide

/-- **The fence is the lifecycle order.** -/
theorem putApplies_iff (existing incoming : String) :
    putApplies (some existing) incoming = true ↔ StatusLe existing incoming := by
  by_cases hin : ∃ t : Status, t.value = incoming
  · obtain ⟨t, rfl⟩ := hin
    by_cases hex : ∃ s : Status, s.value = existing
    · obtain ⟨s, rfl⟩ := hex
      rw [putApplies_value, decide_eq_true_eq, statusLe_value]
    · -- an unlisted durable status is in no entry of the table
      have hne : ∀ s : Status, ¬ existing = s.value := fun s hs => hex ⟨s, hs.symm⟩
      constructor
      · intro h
        cases t <;> simp [putApplies, existingStatusesPutMayReplace, replaceable, nonTerminal, Py.Dict.lookup,
          hne] at h
      · rintro (h | ⟨s, _, hs, _⟩)
        · exact absurd h (hne t)
        · exact absurd hs.symm (hne s)
  · have hnone := lookup_replaceable_none (fun s hs => hin ⟨s, hs⟩)
    simp only [putApplies, existingStatusesPutMayReplace, hnone, List.contains_cons, List.contains_nil, Bool.or_false,
      beq_iff_eq]
    constructor
    · rintro rfl; exact .refl _
    · rintro (h | ⟨_, t, _, ht, _⟩)
      · exact h
      · exact absurd ⟨t, ht⟩ hin

/-! ## The in-memory store -/

/-- `InMemoryJobStore`: its dictionary, each record under its own id.  Every method holds the store's lock, so each call
is one step. -/
structure InMemoryJobStore where
  store : Py.Dict String JobRecord
  keyed : ∀ j r, store.get j = some r → r.id = j

namespace InMemoryJobStore

def empty : InMemoryJobStore := ⟨Py.Dict.empty, fun _ _ h => by cases h⟩

def get (s : InMemoryJobStore) (jobId : String) : Option JobRecord := s.store.get jobId

def setRow (s : InMemoryJobStore) (r : JobRecord) : InMemoryJobStore where
  store := s.store.set r.id r
  keyed := fun j q h => by
    rw [Py.Dict.get_set] at h
    split at h
    · rename_i hj; rw [hj, Option.some.inj h]
    · exact s.keyed j q h

/-- What an applied update leaves in the row: the record, with the durable `created` and the next version. -/
def updated (existing record : JobRecord) : JobRecord :=
  { record with created := existing.created, version := existing.version + 1 }

def put (s : InMemoryJobStore) (record : JobRecord) : Bool × InMemoryJobStore :=
  match s.get record.id with
  | none          => (true, s.setRow record)
  | some existing =>
    if putMayWrite (some existing.status) (some existing.version) record.status record.version then
      (true, s.setRow (updated existing record))
    else (false, s)

def delete (s : InMemoryJobStore) (jobId : String) : InMemoryJobStore where
  store := s.store.pop jobId
  keyed := fun j q h => by
    rw [Py.Dict.get_pop] at h
    split at h
    · cases h
    · exact s.keyed j q h

def list (s : InMemoryJobStore) (channelId : Option String) : List JobRecord :=
  match channelId with
  | none   => s.store.values
  | some c => s.store.values.filter (fun r => decide (r.channelId = c))

def clear (_s : InMemoryJobStore) : InMemoryJobStore := empty

theorem get_setRow (s : InMemoryJobStore) (r : JobRecord) (j : String) :
    (s.setRow r).get j = if j = r.id then some r else s.get j := Py.Dict.get_set _ _ _ _

@[simp] theorem get_setRow_self (s : InMemoryJobStore) (r : JobRecord) : (s.setRow r).get r.id = some r := by
  simp [get_setRow]

theorem get_delete (s : InMemoryJobStore) (i j : String) : (s.delete i).get j = if j = i then none else s.get j :=
  Py.Dict.get_pop _ _ _

/-- An update is allowed: the lifecycle order and the optimistic version. -/
def MayWrite (existing record : JobRecord) : Prop :=
  StatusLe existing.status record.status ∧ existing.version = record.version

theorem putMayWrite_iff (existing record : JobRecord) :
    putMayWrite (some existing.status) (some existing.version) record.status record.version = true ↔
      MayWrite existing record := by
  simp only [putMayWrite, Bool.and_eq_true, decide_eq_true_eq, putApplies_iff, Option.some.injEq, MayWrite]

/-- **Everything a put can do**: insert a first row, update an allowed one, or refuse. -/
theorem put_cases (s : InMemoryJobStore) (record : JobRecord) :
    (s.get record.id = none ∧ s.put record = (true, s.setRow record)) ∨
    (∃ e, s.get record.id = some e ∧ MayWrite e record ∧ s.put record = (true, s.setRow (updated e record))) ∨
    (∃ e, s.get record.id = some e ∧ ¬ MayWrite e record ∧ s.put record = (false, s)) := by
  unfold put
  cases hg : s.get record.id with
  | none => exact .inl ⟨rfl, rfl⟩
  | some e =>
    by_cases hw : putMayWrite (some e.status) (some e.version) record.status record.version = true
    · exact .inr (.inl ⟨e, rfl, (putMayWrite_iff e record).1 hw, by simp [hw]⟩)
    · exact .inr (.inr ⟨e, rfl, fun h => hw ((putMayWrite_iff e record).2 h), by simp [hw]⟩)

theorem put_refused (s : InMemoryJobStore) (record : JobRecord) (h : (s.put record).1 = false) :
    (s.put record).2 = s := by
  obtain ⟨-, hp⟩ | ⟨_, -, -, hp⟩ | ⟨_, -, -, hp⟩ := put_cases s record
  · rw [hp] at h; cases h
  · rw [hp] at h; cases h
  · rw [hp]

theorem get_put_of_ne (s : InMemoryJobStore) (record : JobRecord) {j : String} (h : j ≠ record.id) :
    (s.put record).2.get j = s.get j := by
  obtain ⟨-, hp⟩ | ⟨e, -, -, hp⟩ | ⟨_, -, -, hp⟩ := put_cases s record <;> rw [hp]
  · simp [get_setRow, h]
  · simp [get_setRow, updated, h]

theorem isSome_get_put (s : InMemoryJobStore) (record : JobRecord) (j : String) (h : (s.get j).isSome) :
    ((s.put record).2.get j).isSome := by
  by_cases hj : j = record.id
  · subst hj
    obtain ⟨-, hp⟩ | ⟨e, -, -, hp⟩ | ⟨_, -, -, hp⟩ := put_cases s record <;> rw [hp]
    · simp
    · simp [get_setRow, updated]
    · exact h
  · rw [get_put_of_ne s record hj]; exact h

/-- **What a put leaves of a row**: the row, or, applied to it, the record at the next version. -/
theorem get_put_next (s : InMemoryJobStore) (record : JobRecord) {j : String} {d : JobRecord} (hd : s.get j = some d) :
    ((s.put record).2.get j = some d ∧ (record.id = j → (s.put record).1 = false)) ∨
    (record.id = j ∧ MayWrite d record ∧ (s.put record).2.get j = some (updated d record)) := by
  by_cases hj : j = record.id
  · subst hj
    obtain ⟨hn, -⟩ | ⟨e, he, hw, hp⟩ | ⟨e, -, -, hp⟩ := put_cases s record
    · rw [hd] at hn; cases hn
    · obtain rfl := Option.some.inj (hd.symm.trans he)
      rw [hp]
      exact .inr ⟨rfl, hw, get_setRow_self _ (updated d record)⟩
    · rw [hp]; exact .inl ⟨hd, fun _ => rfl⟩
  · rw [get_put_of_ne s record hj]; exact .inl ⟨hd, fun h => absurd h.symm hj⟩

/-- **A row only moves up.** -/
theorem get_put_up (s : InMemoryJobStore) (record : JobRecord) {j : String} {d : JobRecord} (hd : s.get j = some d) :
    ∃ d', (s.put record).2.get j = some d' ∧ StatusLe d.status d'.status := by
  obtain ⟨h, -⟩ | ⟨-, hw, h⟩ := get_put_next s record hd
  · exact ⟨d, h, .refl _⟩
  · exact ⟨_, h, hw.1⟩

/-- An applied put leaves its status in the row. -/
theorem get_put_applied (s : InMemoryJobStore) (record : JobRecord) (h : (s.put record).1 = true) :
    ∃ d, (s.put record).2.get record.id = some d ∧ d.status = record.status := by
  obtain ⟨-, hp⟩ | ⟨e, -, -, hp⟩ | ⟨_, -, -, hp⟩ := put_cases s record
  · rw [hp]; exact ⟨record, get_setRow_self _ record, rfl⟩
  · rw [hp]; exact ⟨updated e record, get_setRow_self _ (updated e record), rfl⟩
  · rw [hp] at h; cases h

end InMemoryJobStore
end Pypepper
