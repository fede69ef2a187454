import Pypepper.RateQuota
/-!
# RateWindow — at most `m` admitted requests in any minute

While no live counter is evicted, the admitted calls of a client that are less than 60 seconds apart count on, so any
window of 60 seconds has at most `m` of them (`window_bounded`).  The cache has 1000 keys for all clients: after 1000 others
a client starts again (`evicted_client_exceeds`).
-/
namespace Pypepper
namespace RateLimit

open Ttl (Assignment TTLCache recalled last since of Sorted)

/-- Assignments less than 60 seconds apart count on. -/
def Tight : List (Assignment String Int) → Prop
  | []     => True
  | a :: l => (∀ b ∈ l.head?, a.time < b.time + ttl → a.value = b.value + 1) ∧ Tight l

theorem Counted.pos : ∀ {l : List (Assignment String Int)}, Counted l → ∀ a ∈ l, 1 ≤ a.value
  | a :: l, h, b, hb => by
    rcases List.mem_cons.1 hb with rfl | hb
    · obtain ⟨pre, start, post, -, hlen, -⟩ := h.split
      omega
    · exact Counted.pos h.2 b hb

/-- **The newest assignment of a window counts all of it.** -/
theorem Tight.window {p : ℚ → Prop} [DecidablePred p] (hconvex : ∀ x y z, p x → p z → x ≤ y → y ≤ z → p y)
    (hwidth : ∀ x z, p x → p z → z < x + ttl) : ∀ {l : List (Assignment String Int)}, Tight l → Sorted l →
    (∀ a ∈ l, 1 ≤ a.value) → ∀ a ∈ (l.filter fun a => decide (p a.time)).head?,
      ((l.filter fun a => decide (p a.time)).length : Int) ≤ a.value
  | [], _, _, _, a, ha => by cases ha
  | b :: l, ht, hs, hpos, a, ha => by
    obtain ⟨hb, hl⟩ := List.pairwise_cons.1 hs
    have ih := Tight.window hconvex hwidth ht.2 hl fun c hc => hpos c (List.mem_cons_of_mem b hc)
    by_cases hp : p b.time
    · rw [List.filter_cons, if_pos (decide_eq_true hp)] at ha ⊢
      obtain rfl := Option.some.inj ha
      cases hf : l.filter fun a => decide (p a.time) with
      | nil => simpa using hpos b List.mem_cons_self
      | cons c rest =>
        -- the next assignment is in the window too, so it is less than 60 seconds older
        have hmem : c ∈ l.filter fun a => decide (p a.time) := by
          rw [hf]
          exact List.mem_cons_self
        obtain ⟨hc, hpc⟩ := List.mem_filter.1 hmem
        cases l with
        | nil => cases hc
        | cons d l =>
          have hpd : p d.time := by
            refine hconvex c.time d.time b.time (of_decide_eq_true hpc) hp ?_ (hb d List.mem_cons_self)
            rcases List.mem_cons.1 hc with rfl | hc
            · exact le_refl _
            · exact (List.pairwise_cons.1 hl).1 c hc
          have hcount := ht.1 d rfl (hwidth d.time b.time hpd hp)
          have hd := ih d (by rw [List.filter_cons, if_pos (decide_eq_true hpd)]; rfl)
          rw [hf] at hd
          simp only [List.length_cons] at hd ⊢
          omega
    · rw [List.filter_cons, if_neg (by simpa using hp)] at ha ⊢
      exact ih a ha

section
variable {T : TTLCache String Int} {m : Int} {x : Limiter T}

/-- The caller's counter was not evicted before its time. -/
def Kept (_ : List Request) (x : Limiter T) (r : Request) : Prop :=
  ∀ a ∈ last (rateLimitKey r.clientId) (assigned x.answers), x.now + r.wait < a.time + ttl →
    (since (rateLimitKey r.clientId) (assigned x.answers)).length < maxsize

/-- The answers of a run, and every client's counters without a gap. -/
structure Unforgotten (m : Int) (x : Limiter T) : Prop extends Accounted m x where
  tight : ∀ clientId, Tight (counts x.answers clientId)

/-- **One call**, the caller's counter being there while it is live. -/
theorem Unforgotten.request (hT : T.Lawful maxsize ttl) {pre : List Request} {r : Request} (h : Unforgotten m x)
    (hkept : Kept pre x r) : Unforgotten m (x.request m r) := by
  refine ⟨h.toAccounted.request hT r, fun clientId => ?_⟩
  rw [Limiter.request, counts_cons]
  split
  · rename_i hc
    obtain ⟨rfl, -⟩ := hc
    refine ⟨fun b hb hlt => ?_, h.tight r.clientId⟩
    rw [counts, ← Ttl.last_eq] at hb
    have hrecall : recalled maxsize ttl (assigned x.answers) (x.now + r.wait) (rateLimitKey r.clientId) = some b.value :=
      Ttl.recalled_eq_some.2 ⟨b, hb, hlt, hkept b hb hlt, rfl⟩
    simp only [counter, hrecall, Option.getD_some]
  · exact h.tight clientId

/-- **At most `m` in a window.** -/
theorem Unforgotten.window (h : Unforgotten m x) (clientId : String) {p : ℚ → Prop} [DecidablePred p]
    (hconvex : ∀ x y z, p x → p z → x ≤ y → y ≤ z → p y) (hwidth : ∀ x z, p x → p z → z < x + ttl) :
    ((admitted clientId x.answers).filter fun u => decide (p u)).length ≤ m.toNat := by
  have hsorted : Sorted (counts x.answers clientId) := h.sorted.of _
  have hwindow := (h.tight clientId).window hconvex hwidth hsorted (counted_counts clientId x.answers).pos
  rw [← counts_times, List.filter_map, List.length_map]
  show ((counts x.answers clientId).filter fun a => decide (p a.time)).length ≤ _
  cases hf : (counts x.answers clientId).filter fun a => decide (p a.time) with
  | nil => exact Nat.zero_le _
  | cons a l =>
    rw [hf] at hwindow
    have hle := hwindow a rfl
    have ha : a ∈ (counts x.answers clientId).filter fun a => decide (p a.time) := by
      rw [hf]
      exact List.mem_cons_self
    have hmem : a ∈ assigned x.answers := (List.mem_filter.1 (List.mem_filter.1 ha).1).1
    have hm := h.atMost a hmem
    omega

end

/-- **No client has more than `m` calls returning True in a half-open window of 60 seconds**, after any timed sequence of
calls of any clients in which no caller's live counter was evicted. -/
theorem window_bounded (T : TTLCache String Int) (hT : T.Lawful maxsize ttl) (m : Int) (now : ℚ) (requests : List Request)
    (h : Calls.Each (Limiter.request m) (Limiter.new T now) Kept requests) (clientId : String) (lo : ℚ) :
    (((admitted clientId (Calls.run (Limiter.request m) (Limiter.new T now) requests).answers).filter fun u =>
      decide (lo ≤ u ∧ u < lo + 60)).length ≤ m.toNat) ∧
    (((admitted clientId (Calls.run (Limiter.request m) (Limiter.new T now) requests).answers).filter fun u =>
      decide (lo < u ∧ u ≤ lo + 60)).length ≤ m.toNat) := by
  have hrun : Unforgotten m (Calls.run (Limiter.request m) (Limiter.new T now) requests) := by
    refine h.inv (I := fun _ x => Unforgotten m x) ⟨accounted_new now, fun _ => trivial⟩ ?_
    intro pre x r hx hkept
    exact hx.request hT hkept
  constructor
  · refine hrun.window clientId (p := fun u => lo ≤ u ∧ u < lo + 60) ?_ ?_
    · intro x y z hx hz hxy hyz
      exact ⟨hx.1.trans hxy, hyz.trans_lt hz.2⟩
    · intro x z hx hz
      unfold ttl
      linarith [hx.1, hz.2]
  · refine hrun.window clientId (p := fun u => lo < u ∧ u ≤ lo + 60) ?_ ?_
    · intro x y z hx hz hxy hyz
      exact ⟨hx.1.trans_le hxy, hyz.trans hz.2⟩
    · intro x z hx hz
      unfold ttl
      linarith [hx.1, hz.2]

/-! ## A run that forgets a client

As many clients as the cache has keys call after the first one, all at once. -/

def nthClient (i : Nat) : String := String.ofList (List.replicate i 'x')

theorem no_wait : (0 : ℚ) ≤ 0 := Rat.le_refl

def nthRequest (i : Nat) : Request := ⟨0, nthClient i, no_wait⟩

/-- The requests of the first `n` clients. -/
def flood : Nat → List Request
  | 0     => []
  | n + 1 => flood n ++ [nthRequest n]

def floodAnswers : Nat → List Answer
  | 0     => []
  | n + 1 => ⟨0, nthClient n, true⟩ :: floodAnswers n

theorem nthClient_inj {i j : Nat} (h : nthClient i = nthClient j) : i = j := by
  have h := congrArg (fun s => s.toList.length) h
  simpa [nthClient] using h

theorem mem_assigned_flood : ∀ {n : Nat} {a : Assignment String Int}, a ∈ assigned (floodAnswers n) →
    ∃ i < n, a.key = rateLimitKey (nthClient i)
  | n + 1, a, h => by
    rw [floodAnswers, assigned] at h
    rcases List.mem_cons.1 h with rfl | h
    · exact ⟨n, by omega, rfl⟩
    · obtain ⟨i, hi, ha⟩ := mem_assigned_flood h
      exact ⟨i, by omega, ha⟩

/-- A client that has not called yet has no counter. -/
theorem counter_flood {n k : Nat} (h : n ≤ k) : counter (floodAnswers n) 0 (nthClient k) = 0 := by
  have hlast : last (rateLimitKey (nthClient k)) (assigned (floodAnswers n)) = none := by
    rw [last, List.find?_eq_none]
    intro a ha hk
    obtain ⟨i, hi, hai⟩ := mem_assigned_flood ha
    have hik := nthClient_inj (rateLimitKey_inj.1 (hai.symm.trans (of_decide_eq_true hk)))
    omega
  simp [counter, recalled, hlast]

theorem lawful_logged : logged.Lawful maxsize ttl := Ttl.TTLCache.lawful_ofLog maxsize ttl

/-- A client without a counter is admitted. -/
theorem request_nth {x : Limiter logged} (h : Accounted 1 x) (hnow : x.now = 0) {k : Nat}
    (hc : counter x.answers 0 (nthClient k) = 0) : (x.request 1 (nthRequest k)).now = 0 ∧
      (x.request 1 (nthRequest k)).answers = ⟨0, nthClient k, true⟩ :: x.answers := by
  have htime : x.now + (nthRequest k).wait = 0 := by
    rw [hnow]
    exact zero_add 0
  have hcheck := h.check lawful_logged (nthRequest k)
  have hcount : counter x.answers 0 (nthRequest k).clientId = 0 := hc
  rw [htime, hcount, if_neg (by decide)] at hcheck
  refine ⟨htime, ?_⟩
  rw [Limiter.request, htime]
  dsimp only
  rw [hcheck]
  rfl

/-- Each of them is admitted. -/
theorem run_flood : ∀ n : Nat, Accounted 1 (Calls.run (Limiter.request 1) (Limiter.new logged 0) (flood n)) ∧
    (Calls.run (Limiter.request 1) (Limiter.new logged 0) (flood n)).now = 0 ∧
    (Calls.run (Limiter.request 1) (Limiter.new logged 0) (flood n)).answers = floodAnswers n
  | 0 => ⟨accounted_new 0, rfl, rfl⟩
  | n + 1 => by
    obtain ⟨hacc, hnow, hanswers⟩ := run_flood n
    rw [flood, Calls.run_concat]
    have hcounter := counter_flood (le_refl n)
    rw [← hanswers] at hcounter
    obtain ⟨hnow', hanswers'⟩ := request_nth hacc hnow hcounter
    exact ⟨hacc.request lawful_logged _, hnow', by rw [hanswers', hanswers, floodAnswers]⟩

theorem nodup_flood : ∀ n : Nat, ((assigned (floodAnswers n)).map Assignment.key).Nodup
  | 0 => List.nodup_nil
  | n + 1 => by
    rw [floodAnswers, assigned, if_pos rfl, List.map_cons, List.nodup_cons]
    refine ⟨fun h => ?_, nodup_flood n⟩
    obtain ⟨a, ha, hkey⟩ := List.mem_map.1 h
    obtain ⟨i, hi, hai⟩ := mem_assigned_flood ha
    have := nthClient_inj (rateLimitKey_inj.1 (hkey.symm.trans hai))
    omega

theorem takeWhile_flood : ∀ n : Nat, ((assigned (floodAnswers (n + 1))).takeWhile fun a =>
    decide (a.key ≠ rateLimitKey (nthClient 0))).length = n
  | 0 => rfl
  | n + 1 => by
    have hne : rateLimitKey (nthClient (n + 1)) ≠ rateLimitKey (nthClient 0) := by
      intro h
      cases nthClient_inj (rateLimitKey_inj.1 h)
    rw [floodAnswers, assigned, if_pos rfl, List.takeWhile_cons, if_pos (decide_eq_true hne), List.length_cons,
      takeWhile_flood n]

theorem since_flood (n : Nat) : (since (rateLimitKey (nthClient 0)) (assigned (floodAnswers (n + 1)))).length = n := by
  rw [since, List.Nodup.dedup, List.length_map, takeWhile_flood]
  exact (nodup_flood (n + 1)).sublist ((List.takeWhile_sublist _).map _)

theorem admitted_flood : ∀ n : Nat, admitted (nthClient 0) (floodAnswers (n + 1)) = [0]
  | 0 => rfl
  | n + 1 => by
    have hne : ¬ (nthClient (n + 1) = nthClient 0 ∧ true = true) := by
      rintro ⟨h, -⟩
      cases nthClient_inj h
    rw [floodAnswers, admitted, List.filter_cons, if_neg (by simpa using hne)]
    exact admitted_flood n

/-- With one request a minute allowed, the first client is admitted twice at once. -/
theorem evicted_client_exceeds : ¬ ((admitted (nthClient 0) (Calls.run (Limiter.request 1) (Limiter.new logged 0)
    (flood 1001 ++ [nthRequest 0])).answers).filter fun u => decide (0 ≤ u ∧ u < 0 + 60)).length ≤ (1 : Int).toNat := by
  obtain ⟨hacc, hnow, hanswers⟩ := run_flood 1001
  have hcounter : counter (floodAnswers 1001) 0 (nthClient 0) = 0 := by
    have hrecall : recalled maxsize ttl (assigned (floodAnswers 1001)) 0 (rateLimitKey (nthClient 0)) = none := by
      cases hr : recalled maxsize ttl (assigned (floodAnswers 1001)) 0 (rateLimitKey (nthClient 0)) with
      | none => rfl
      | some v =>
        obtain ⟨a, -, -, hlt, -⟩ := Ttl.recalled_eq_some.1 hr
        rw [since_flood 1000] at hlt
        exact absurd hlt (by decide)
    rw [counter, hrecall]
    rfl
  rw [← hanswers] at hcounter
  obtain ⟨-, hlast⟩ := request_nth hacc hnow hcounter
  have hadmitted : admitted (nthClient 0) (⟨0, nthClient 0, true⟩ :: floodAnswers 1001) = [0, 0] := by
    rw [admitted, List.filter_cons, if_pos (by decide), List.map_cons]
    exact congrArg (0 :: ·) (admitted_flood 1000)
  rw [Calls.run_concat, hlast, hanswers, hadmitted]
  decide +kernel

/-- Two clients, one request a minute each. -/
theorem window_bounded_two_clients :
    (((admitted (nthClient 0) (Calls.run (Limiter.request 1) (Limiter.new logged 0)
      [nthRequest 0, nthRequest 1, nthRequest 0]).answers).filter fun u => decide (0 ≤ u ∧ u < 0 + 60)).length ≤
        (1 : Int).toNat) := by
  refine (window_bounded logged lawful_logged 1 0 [nthRequest 0, nthRequest 1, nthRequest 0]
    ?_ (nthClient 0) 0).1
  simp only [Calls.each_cons]
  refine ⟨?_, ?_, ?_, Calls.each_nil⟩
  all_goals
    unfold Kept
    decide +kernel

end RateLimit
end Pypepper
