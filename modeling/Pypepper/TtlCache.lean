import Mathlib.Algebra.Order.Ring.Rat
import Mathlib.Data.List.Dedup
/-!
# TtlCache — a bounded cache whose entries expire

What a cache with a time to live answers, from the assignments made to it: an entry is there until its time to live has
passed since its last assignment, unless so many other keys were assigned since that it was evicted (`recalled`).  A cache
is lawful when it answers so after every log of assignments made in the order of their times.
-/
namespace Ttl

structure Assignment (κ α : Type) where
  time  : ℚ
  key   : κ
  value : α

section
variable {κ α : Type}

/-- Newest first. -/
def Sorted (log : List (Assignment κ α)) : Prop := log.Pairwise fun a b => b.time ≤ a.time

theorem Sorted.cons {log : List (Assignment κ α)} {a : Assignment κ α} (h : Sorted log) (ha : ∀ b ∈ log, b.time ≤ a.time) :
    Sorted (a :: log) := List.pairwise_cons.2 ⟨ha, h⟩

variable [DecidableEq κ]

/-- The last assignment to a key; logs have the newest assignment first. -/
def last (key : κ) (log : List (Assignment κ α)) : Option (Assignment κ α) := log.find? fun a => decide (a.key = key)

/-- The other keys assigned since. -/
def since (key : κ) (log : List (Assignment κ α)) : List κ :=
  ((log.takeWhile fun a => decide (a.key ≠ key)).map Assignment.key).dedup

def recalled (maxsize : Nat) (ttl : ℚ) (log : List (Assignment κ α)) (now : ℚ) (key : κ) : Option α :=
  (last key log).bind fun a => if now < a.time + ttl ∧ (since key log).length < maxsize then some a.value else none

/-- The assignments to one key. -/
def of (key : κ) (log : List (Assignment κ α)) : List (Assignment κ α) := log.filter fun a => decide (a.key = key)

/-- A cache: its state, an assignment at a time and a lookup at a time. -/
structure TTLCache (κ α : Type) where
  State : Type
  new   : State
  set   : State → ℚ → κ → α → State
  get   : State → ℚ → κ → Option α

namespace TTLCache

/-- The cache after a log. -/
def after (T : TTLCache κ α) : List (Assignment κ α) → T.State
  | []       => T.new
  | a :: log => T.set (after T log) a.time a.key a.value

/-- It keeps an entry for `ttl` from its last assignment, and of more than `maxsize` keys the last assigned ones. -/
def Lawful (T : TTLCache κ α) (maxsize : Nat) (ttl : ℚ) : Prop :=
  ∀ log now key, Sorted log → (∀ a ∈ log, a.time ≤ now) → T.get (T.after log) now key = recalled maxsize ttl log now key

/-- The cache that keeps its log. -/
def ofLog (maxsize : Nat) (ttl : ℚ) : TTLCache κ α where
  State               := List (Assignment κ α)
  new                 := []
  set s now key value := ⟨now, key, value⟩ :: s
  get s now key       := recalled maxsize ttl s now key

theorem after_ofLog (maxsize : Nat) (ttl : ℚ) : ∀ log : List (Assignment κ α), (ofLog maxsize ttl).after log = log
  | [] => rfl
  | a :: log => by
    rw [after, after_ofLog maxsize ttl log]
    rfl

theorem lawful_ofLog (maxsize : Nat) (ttl : ℚ) : (ofLog maxsize ttl : TTLCache κ α).Lawful maxsize ttl := by
  intro log now key _ _
  rw [after_ofLog]
  rfl

end TTLCache

/-! ## Assignments to one key -/

theorem last_eq (key : κ) (log : List (Assignment κ α)) : last key log = (of key log).head? := by
  rw [last, of, List.head?_filter]

theorem recalled_eq_some {maxsize : Nat} {ttl : ℚ} {log : List (Assignment κ α)} {now : ℚ} {key : κ} {v : α} :
    recalled maxsize ttl log now key = some v ↔
      ∃ a, last key log = some a ∧ now < a.time + ttl ∧ (since key log).length < maxsize ∧ a.value = v := by
  simp only [recalled, Option.bind_eq_some_iff, Option.ite_none_right_eq_some, Option.some.injEq, and_assoc]

theorem Sorted.of {log : List (Assignment κ α)} (h : Sorted log) (key : κ) : Sorted (of key log) :=
  List.Pairwise.filter _ h

theorem of_cons (key : κ) (a : Assignment κ α) (log : List (Assignment κ α)) :
    of key (a :: log) = if a.key = key then a :: of key log else of key log := by
  by_cases h : a.key = key
  · rw [if_pos h, of, List.filter_cons, if_pos (decide_eq_true h)]
    rfl
  · rw [if_neg h, of, List.filter_cons, if_neg (by simpa using h)]
    rfl

end

end Ttl
