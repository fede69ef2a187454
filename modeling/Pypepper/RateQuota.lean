import Pypepper.RateLimit
/-!
# RateQuota — a client within its quota

A rejected call finds its client's counter at the limit, and the counter lives on as long as no gap between admitted calls
reaches 60 seconds.  So a client that keeps calling is rejected for requests older than a minute: the answer False stands
for `m` requests of the last 60 seconds exactly when the counter was started in them (`within_quota_iff`).
-/
namespace Pypepper
namespace RateLimit

open Ttl (Assignment TTLCache recalled last since of Sorted)

/-- The assignment that started a client's counter. -/
def started (answers : List Answer) (clientId : String) : Option (Assignment String Int) :=
  (counts answers clientId).find? fun a => decide (a.value = 1)

section
variable {T : TTLCache String Int}

/-- A False comes after `m` Trues of the same client in the preceding 60 seconds. -/
def WithinQuota (m : Int) (_ : List Request) (x : Limiter T) (r : Request) : Prop :=
  (checkRateLimit T (limit m) (x.now + r.wait) r.clientId x.cache).1 = false →
    m ≤ ((admitted r.clientId x.answers).filter fun u => decide (x.now + r.wait - 60 < u)).length

/-- A counter found at the limit was started in the preceding 60 seconds. -/
def Timely (m : Int) (_ : List Request) (x : Limiter T) (r : Request) : Prop :=
  m ≤ counter x.answers (x.now + r.wait) r.clientId →
    ∃ a ∈ started x.answers r.clientId, x.now + r.wait - 60 < a.time

/-- **Of the calls that a counter counts, all are in the window exactly when the first is.** -/
theorem quota_iff {pre post : List (Assignment String Int)} {start : Assignment String Int}
    (h : Sorted (pre ++ start :: post)) (lo : ℚ) :
    pre.length + 1 ≤ (((pre ++ start :: post).map Assignment.time).filter fun u => decide (lo < u)).length ↔
      lo < start.time := by
  obtain ⟨-, hpost, hpre⟩ := List.pairwise_append.1 h
  constructor
  · intro hlen
    by_contra hlo
    have hnone : ((start :: post).map Assignment.time).filter (fun u => decide (lo < u)) = [] := by
      rw [List.filter_eq_nil_iff]
      intro u hu
      obtain ⟨b, hb, rfl⟩ := List.mem_map.1 hu
      rw [decide_eq_true_eq]
      rcases List.mem_cons.1 hb with rfl | hb
      · exact hlo
      · have := (List.pairwise_cons.1 hpost).1 b hb
        linarith
    rw [List.map_append, List.filter_append, hnone, List.append_nil] at hlen
    have hle := List.length_filter_le (fun u => decide (lo < u)) (pre.map Assignment.time)
    rw [List.length_map] at hle
    omega
  · intro hlo
    have hall : (pre.map Assignment.time).filter (fun u => decide (lo < u)) = pre.map Assignment.time := by
      rw [List.filter_eq_self]
      intro u hu
      obtain ⟨b, hb, rfl⟩ := List.mem_map.1 hu
      have := hpre b hb start List.mem_cons_self
      rw [decide_eq_true_eq]
      linarith
    rw [List.map_append, List.filter_append, hall, List.map_cons, List.filter_cons, if_pos (decide_eq_true hlo),
      List.length_append, List.length_map, List.length_cons]
    omega

/-- **One call**: rejected within its quota exactly when it is not timely. -/
theorem Accounted.withinQuota_iff {m : Int} {x : Limiter T} (hT : T.Lawful maxsize ttl) (hm : 1 ≤ m) (h : Accounted m x)
    (pre : List Request) (r : Request) : WithinQuota m pre x r ↔ Timely m pre x r := by
  unfold WithinQuota Timely
  rw [h.check hT r]
  by_cases hfull : m ≤ counter x.answers (x.now + r.wait) r.clientId
  · rw [if_pos hfull]
    simp only [hfull, forall_const]
    -- the counter found is the newest assignment, at the limit
    cases hr : recalled maxsize ttl (assigned x.answers) (x.now + r.wait) (rateLimitKey r.clientId) with
    | none =>
      rw [counter, hr] at hfull
      simp only [Option.getD_none] at hfull
      omega
    | some v =>
      obtain ⟨a, ha, -, -, rfl⟩ := Ttl.recalled_eq_some.1 hr
      have hmem : a ∈ assigned x.answers := List.mem_of_find?_eq_some ha
      have hvalue : a.value = m := by
        have hle := h.atMost a hmem
        rw [counter, hr] at hfull
        simp only [Option.getD_some] at hfull
        omega
      rw [Ttl.last_eq] at ha
      obtain ⟨l, hl⟩ : ∃ l, counts x.answers r.clientId = a :: l := by
        cases hc : counts x.answers r.clientId with
        | nil =>
          rw [counts] at hc
          rw [hc] at ha
          cases ha
        | cons b l =>
          rw [counts] at hc
          rw [hc] at ha
          cases ha
          exact ⟨l, rfl⟩
      have hcounted := counted_counts r.clientId x.answers
      rw [hl] at hcounted
      obtain ⟨newer, start, older, hsplit, hlen, hstart, hnewer⟩ := hcounted.split
      have hstarted : started x.answers r.clientId = some start := by
        have hnone : newer.find? (fun a => decide (a.value = 1)) = none := by
          rw [List.find?_eq_none]
          intro b hb
          simpa using hnewer b hb
        rw [started, hl, hsplit, List.find?_append, hnone, List.find?_cons, hstart]
        rfl
      have hsorted : Sorted (counts x.answers r.clientId) := h.sorted.of _
      rw [hl, hsplit] at hsorted
      rw [hstarted, ← counts_times, hl, hsplit]
      have hiff := quota_iff hsorted (x.now + r.wait - 60)
      simp only [Option.mem_def, Option.some.injEq, exists_eq_left']
      rw [← hiff]
      omega
  · rw [if_neg hfull]
    simp [hfull]

/-- **A client within its quota is not rejected exactly when** every counter found at the limit was started in the
preceding 60 seconds: at every call of every timed sequence of calls, of any clients. -/
theorem within_quota_iff (T : TTLCache String Int) (hT : T.Lawful maxsize ttl) (m : Int) (hm : 1 ≤ m) (now : ℚ)
    (requests : List Request) :
    Calls.Each (Limiter.request m) (Limiter.new T now) (WithinQuota m) requests ↔
      Calls.Each (Limiter.request m) (Limiter.new T now) (Timely m) requests :=
  Calls.each_iff (I := fun _ x => Accounted m x) (accounted_new now) (fun pre _ r h => h.withinQuota_iff hT hm pre r)
    (fun _ _ r h _ => h.request hT r) requests

end

/-! One client calls every 31 seconds, three calls a minute being allowed: its fourth call is rejected after one True in the
preceding 60 seconds. -/

def logged : TTLCache String Int := .ofLog maxsize ttl

def steady : List Request :=
  [⟨0, "a", by decide⟩, ⟨31, "a", by decide⟩, ⟨31, "a", by decide⟩, ⟨31, "a", by decide⟩]

theorem steady_rejected : ¬ Calls.Each (Limiter.request 3) (Limiter.new logged 0) (WithinQuota 3) steady := by
  intro h
  have hlast := h (steady.take 3) ⟨31, "a", by decide⟩ [] rfl
  revert hlast
  unfold WithinQuota
  decide +kernel

/-- Three calls at once and a fourth are within the quota. -/
def burst : List Request := [⟨0, "a", by decide⟩, ⟨0, "a", by decide⟩, ⟨0, "a", by decide⟩, ⟨59, "a", by decide⟩]

theorem within_quota_iff_burst : Calls.Each (Limiter.request 3) (Limiter.new logged 0) (WithinQuota 3) burst := by
  refine (within_quota_iff logged (Ttl.TTLCache.lawful_ofLog maxsize ttl) 3 (by decide) 0 burst).2 ?_
  simp only [burst, Calls.each_cons]
  refine ⟨?_, ?_, ?_, ?_, Calls.each_nil⟩
  all_goals
    unfold Timely
    decide +kernel

end RateLimit
end Pypepper
