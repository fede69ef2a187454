import Mathlib.Tactic.Linarith
import Pypepper.Calls
import Pypepper.TtlCache
/-!
# RateLimit — the request counter of a client

`SSESecurityManager._check_rate_limit`: a counter for each client in one cache of 1000 keys, each kept for 60 seconds from
its last assignment.  The answers given so far determine what was assigned (`assigned`): a client's counters are the runs
1, 2, 3, … of its admitted requests (`Counted`).
-/
namespace Pypepper
namespace RateLimit

open Ttl (Assignment TTLCache recalled last since of Sorted)

structure Config where
  enabled              : Bool
  maxRequestsPerMinute : Int

def rateLimitKey (clientId : String) : String := "rate_limit:" ++ clientId

def maxsize : Nat := 1000

def ttl : ℚ := 60

/-- `_check_rate_limit` at a time. -/
def checkRateLimit (T : TTLCache String Int) (config : Config) (now : ℚ) (clientId : String) (cache : T.State) :
    Bool × T.State :=
  if !config.enabled then (true, cache)
  else
    let count := (T.get cache now (rateLimitKey clientId)).getD 0
    if config.maxRequestsPerMinute ≤ count then (false, cache)
    else (true, T.set cache now (rateLimitKey clientId) (count + 1))

/-! ## Timed requests -/

/-- A request of a client, some time after the one before it. -/
structure Request where
  wait     : ℚ
  clientId : String
  nonneg   : 0 ≤ wait

structure Answer where
  time     : ℚ
  clientId : String
  ok       : Bool

/-- The time, the cache, and the answers given, the newest first. -/
structure Limiter (T : TTLCache String Int) where
  now     : ℚ
  cache   : T.State
  answers : List Answer

def Limiter.new (T : TTLCache String Int) (now : ℚ) : Limiter T := ⟨now, T.new, []⟩

/-- The configuration of a limiter that is on. -/
def limit (m : Int) : Config := ⟨true, m⟩

/-- One call of `check_rate_limit`. -/
def Limiter.request {T : TTLCache String Int} (m : Int) (x : Limiter T) (r : Request) : Limiter T where
  now     := x.now + r.wait
  cache   := (checkRateLimit T (limit m) (x.now + r.wait) r.clientId x.cache).2
  answers := ⟨x.now + r.wait, r.clientId, (checkRateLimit T (limit m) (x.now + r.wait) r.clientId x.cache).1⟩ :: x.answers

/-- The times of a client's calls that returned True, the newest first. -/
def admitted (clientId : String) (answers : List Answer) : List ℚ :=
  (answers.filter fun a => decide (a.clientId = clientId ∧ a.ok = true)).map Answer.time

/-- The assignments behind the answers: each True is one more than the counter it found. -/
def assigned : List Answer → List (Assignment String Int)
  | []     => []
  | a :: l =>
    if a.ok then
      ⟨a.time, rateLimitKey a.clientId,
        (recalled maxsize ttl (assigned l) a.time (rateLimitKey a.clientId)).getD 0 + 1⟩ :: assigned l
    else assigned l

/-- The counter a client finds. -/
def counter (answers : List Answer) (now : ℚ) (clientId : String) : Int :=
  (recalled maxsize ttl (assigned answers) now (rateLimitKey clientId)).getD 0

/-- The assignments to a client's counter. -/
def counts (answers : List Answer) (clientId : String) : List (Assignment String Int) :=
  of (rateLimitKey clientId) (assigned answers)

theorem rateLimitKey_inj {c d : String} : rateLimitKey c = rateLimitKey d ↔ c = d := by
  constructor
  · intro h
    have h := congrArg String.toList h
    simp only [rateLimitKey, String.toList_append, List.append_cancel_left_eq] at h
    exact String.toList_inj.1 h
  · rintro rfl
    rfl

theorem counts_cons (a : Answer) (l : List Answer) (clientId : String) :
    counts (a :: l) clientId = if a.clientId = clientId ∧ a.ok = true then
      ⟨a.time, rateLimitKey clientId, counter l a.time clientId + 1⟩ :: counts l clientId else counts l clientId := by
  rw [counts, assigned]
  by_cases hok : a.ok = true
  · rw [if_pos hok, Ttl.of_cons]
    simp only [rateLimitKey_inj]
    by_cases hc : a.clientId = clientId
    · rw [if_pos hc, if_pos ⟨hc, hok⟩, hc]
      rfl
    · rw [if_neg hc, if_neg fun h => hc h.1]
      rfl
  · rw [if_neg hok, if_neg fun h => hok h.2]
    rfl

/-- A client's admitted calls are the assignments to its counter. -/
theorem counts_times (clientId : String) : ∀ l : List Answer,
    (counts l clientId).map Assignment.time = admitted clientId l
  | [] => rfl
  | a :: l => by
    rw [counts_cons, admitted, List.filter_cons]
    by_cases h : a.clientId = clientId ∧ a.ok = true
    · rw [if_pos h, if_pos (decide_eq_true h), List.map_cons, List.map_cons, counts_times clientId l]
      rfl
    · rw [if_neg h, if_neg (by simpa using h), counts_times clientId l]
      rfl

/-! ## A client's counters -/

/-- Each value is 1, or one more than the value before it. -/
def Counted : List (Assignment String Int) → Prop
  | []     => True
  | a :: l => (a.value = 1 ∨ ∃ b ∈ l.head?, a.value = b.value + 1) ∧ Counted l

theorem counted_counts (clientId : String) : ∀ l : List Answer, Counted (counts l clientId)
  | [] => trivial
  | a :: l => by
    rw [counts_cons]
    split
    · refine ⟨?_, counted_counts clientId l⟩
      dsimp only
      cases hr : recalled maxsize ttl (assigned l) a.time (rateLimitKey clientId) with
      | none =>
        left
        simp [counter, hr]
      | some v =>
        obtain ⟨b, hb, -, -, rfl⟩ := Ttl.recalled_eq_some.1 hr
        right
        refine ⟨b, ?_, by simp [counter, hr]⟩
        rw [Ttl.last_eq] at hb
        exact hb
    · exact counted_counts clientId l

/-- **The newest counter**: its assignments from the newest down to the one that started it at 1. -/
theorem Counted.split : ∀ {l : List (Assignment String Int)} {a : Assignment String Int}, Counted (a :: l) →
    ∃ pre start post, a :: l = pre ++ start :: post ∧ (pre.length : Int) + 1 = a.value ∧ start.value = 1 ∧
      ∀ b ∈ pre, b.value ≠ 1
  | l, a, ⟨ha, hl⟩ => by
    by_cases h1 : a.value = 1
    · exact ⟨[], a, l, rfl, by simp [h1], h1, by simp⟩
    · obtain ⟨b, hb, hab⟩ := ha.resolve_left h1
      cases l with
      | nil => cases hb
      | cons c l =>
        obtain rfl := Option.some.inj hb
        obtain ⟨pre, start, post, hsplit, hlen, hstart, hpre⟩ := Counted.split hl
        refine ⟨a :: pre, start, post, by rw [hsplit]; rfl, ?_, hstart, ?_⟩
        · rw [hab, ← hlen, List.length_cons]
          omega
        · intro d hd
          rcases List.mem_cons.1 hd with rfl | hd
          · exact h1
          · exact hpre d hd

/-! ## Every run -/

/-- The cache is the one of the answers, whose assignments are in order and up to `m`. -/
structure Accounted {T : TTLCache String Int} (m : Int) (x : Limiter T) : Prop where
  cache  : x.cache = T.after (assigned x.answers)
  sorted : Sorted (assigned x.answers)
  past   : ∀ a ∈ assigned x.answers, a.time ≤ x.now
  atMost : ∀ a ∈ assigned x.answers, a.value ≤ m

section
variable {T : TTLCache String Int} {m : Int} {x : Limiter T}

theorem accounted_new (now : ℚ) : Accounted m (Limiter.new T now) where
  cache  := rfl
  sorted := List.Pairwise.nil
  past   := by simp [Limiter.new, assigned]
  atMost := by simp [Limiter.new, assigned]

/-- **A call is admitted when the counter it finds is below the limit.** -/
theorem Accounted.check (hT : T.Lawful maxsize ttl) (h : Accounted m x) (r : Request) :
    checkRateLimit T (limit m) (x.now + r.wait) r.clientId x.cache =
      if m ≤ counter x.answers (x.now + r.wait) r.clientId then (false, x.cache)
      else (true, T.set x.cache (x.now + r.wait) (rateLimitKey r.clientId)
        (counter x.answers (x.now + r.wait) r.clientId + 1)) := by
  have hget : T.get x.cache (x.now + r.wait) (rateLimitKey r.clientId) =
      recalled maxsize ttl (assigned x.answers) (x.now + r.wait) (rateLimitKey r.clientId) := by
    rw [h.cache]
    refine hT _ _ _ h.sorted fun a ha => ?_
    have hpast := h.past a ha
    have hwait := r.nonneg
    linarith
  simp only [checkRateLimit, limit, Bool.not_true, Bool.false_eq_true, if_false, hget]
  rfl

theorem Accounted.request (hT : T.Lawful maxsize ttl) (h : Accounted m x) (r : Request) : Accounted m (x.request m r) := by
  have hwait := r.nonneg
  have hpast : ∀ a ∈ assigned x.answers, a.time ≤ x.now + r.wait := by
    intro a ha
    have := h.past a ha
    linarith
  have hcheck := h.check hT r
  by_cases hfull : m ≤ counter x.answers (x.now + r.wait) r.clientId
  · rw [if_pos hfull] at hcheck
    have hreq : x.request m r = ⟨x.now + r.wait, x.cache, ⟨x.now + r.wait, r.clientId, false⟩ :: x.answers⟩ := by
      rw [Limiter.request, hcheck]
    rw [hreq]
    exact ⟨h.cache, h.sorted, hpast, h.atMost⟩
  · rw [if_neg hfull] at hcheck
    have hreq : x.request m r = ⟨x.now + r.wait, T.set x.cache (x.now + r.wait) (rateLimitKey r.clientId)
        (counter x.answers (x.now + r.wait) r.clientId + 1), ⟨x.now + r.wait, r.clientId, true⟩ :: x.answers⟩ := by
      rw [Limiter.request, hcheck]
    have hassigned : assigned (⟨x.now + r.wait, r.clientId, true⟩ :: x.answers) =
        ⟨x.now + r.wait, rateLimitKey r.clientId, counter x.answers (x.now + r.wait) r.clientId + 1⟩ ::
          assigned x.answers := rfl
    rw [hreq]
    refine ⟨?_, ?_, ?_, ?_⟩
    · rw [hassigned, h.cache]
      rfl
    · rw [hassigned]
      exact h.sorted.cons hpast
    · rw [hassigned]
      intro a ha
      rcases List.mem_cons.1 ha with rfl | ha
      · exact le_refl _
      · exact hpast a ha
    · rw [hassigned]
      intro a ha
      rcases List.mem_cons.1 ha with rfl | ha
      · dsimp only
        omega
      · exact h.atMost a ha

end

end RateLimit
end Pypepper
