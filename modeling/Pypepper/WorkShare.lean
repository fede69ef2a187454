import Mathlib.Data.DFinsupp.WellFounded
import Mathlib.Logic.Relation
/-!
# WorkShare — one queue of work and several takers

Work is numbered in the order it is accepted.  A taker with an empty hand fetches the first number of the queue, and then
starts it; it leaves when the queue is closed and empty.  In every reachable state each accepted number is in one place,
every taker starts its numbers in the order they were accepted, and when nothing is in hand and one taker has left,
everything accepted was started once (`Ledger`).

`finitely_many` is the other half: where some steps lower a well-founded measure and the others keep it, a run has finitely
many of the first.
-/
namespace Conc

open Relation (ReflTransGen)

structure Share (W : Type) where
  accepted : Nat := 0
  closed   : Bool := false
  queue    : List Nat := []
  hand     : W → Option Nat := fun _ => none
  started  : W → List Nat := fun _ => []
  left     : W → Bool := fun _ => false

namespace Share

variable {W : Type} {s s' : Share W}

inductive Step [DecidableEq W] (s : Share W) : Share W → Prop
  | accept : s.closed = false → Step s { s with accepted := s.accepted + 1, queue := s.queue ++ [s.accepted] }
  | close : Step s { s with closed := true }
  | fetch {w : W} {n : Nat} {q : List Nat} : s.hand w = none → s.queue = n :: q →
      Step s { s with queue := q, hand := Function.update s.hand w (some n) }
  | start {w : W} {n : Nat} : s.hand w = some n → Step s { s with
      hand := Function.update s.hand w none, started := Function.update s.started w (s.started w ++ [n]) }
  | leave {w : W} : s.closed = true → s.queue = [] → Step s { s with left := Function.update s.left w true }

/-- What a taker was given, in order. -/
def given (s : Share W) (w : W) : List Nat := s.started w ++ (s.hand w).toList

/-- Where a number may be. -/
inductive Spot (W : Type) where
  | queue
  | hand (w : W)
  | started (w : W)

def held (s : Share W) : Spot W → List Nat
  | .queue     => s.queue
  | .hand w    => (s.hand w).toList
  | .started w => s.started w

/-- **The ledger**: a taker is given numbers in the order of the queue and before what is still queued, no two takers are
given the same one, and what was accepted is what is queued or given. -/
structure Ledger (s : Share W) : Prop where
  sorted : s.queue.Pairwise (· < ·)
  order  : ∀ w, (s.given w ++ s.queue).Pairwise (· < ·)
  apart  : ∀ w w' n, n ∈ s.given w → n ∈ s.given w' → w = w'
  cover  : ∀ n, n < s.accepted ↔ n ∈ s.queue ∨ ∃ w, n ∈ s.given w
  left   : ∀ w, s.left w = true → s.closed = true ∧ s.queue = []

theorem ledger_start : Ledger ({} : Share W) where
  sorted := .nil
  order _ := .nil
  apart := by
    intro w w' n h
    cases h
  cover n := by simp [given]
  left := by
    intro w h
    cases h

section
variable [DecidableEq W]

theorem given_fetch {w : W} {n : Nat} {q : List Nat} (hhand : s.hand w = none) (v : W) :
    given { s with queue := q, hand := Function.update s.hand w (some n) } v =
      if v = w then s.given v ++ [n] else s.given v := by
  by_cases hv : v = w
  · subst hv
    simp [given, hhand]
  · simp [given, hv]

theorem given_start {w : W} {n : Nat} (hhand : s.hand w = some n) (v : W) :
    given { s with
      hand := Function.update s.hand w none, started := Function.update s.started w (s.started w ++ [n]) } v =
        s.given v := by
  by_cases hv : v = w
  · subst hv
    simp [given, hhand]
  · simp [given, hv]

end

/-- Work that is accepted goes behind everything there is. -/
theorem Ledger.accept (h : Ledger s) (hopen : s.closed = false) :
    Ledger { s with accepted := s.accepted + 1, queue := s.queue ++ [s.accepted] } where
  sorted := by
    refine List.pairwise_append.2 ⟨h.sorted, List.pairwise_singleton _ _, fun n hn m hm => ?_⟩
    rw [List.mem_singleton.1 hm]
    exact (h.cover n).2 (.inl hn)
  order w := by
    show (s.given w ++ (s.queue ++ [s.accepted])).Pairwise (· < ·)
    rw [← List.append_assoc]
    refine List.pairwise_append.2 ⟨h.order w, List.pairwise_singleton _ _, fun n hn m hm => ?_⟩
    rw [List.mem_singleton.1 hm]
    rcases List.mem_append.1 hn with hn | hn
    · exact (h.cover n).2 (.inr ⟨w, hn⟩)
    · exact (h.cover n).2 (.inl hn)
  apart := h.apart
  cover n := by
    show n < s.accepted + 1 ↔ n ∈ s.queue ++ [s.accepted] ∨ ∃ w, n ∈ s.given w
    rw [Nat.lt_succ_iff_lt_or_eq, h.cover n, List.mem_append, List.mem_singleton]
    exact or_right_comm
  left w hw := by
    obtain ⟨hclosed, -⟩ := h.left w hw
    rw [hopen] at hclosed
    cases hclosed

section
variable [DecidableEq W]

/-- The first number of the queue goes to one taker, behind what that was given. -/
theorem Ledger.fetch (h : Ledger s) {w : W} {n : Nat} {q : List Nat} (hhand : s.hand w = none)
    (hq : s.queue = n :: q) : Ledger { s with queue := q, hand := Function.update s.hand w (some n) } := by
  have hfresh : ∀ v, n ∉ s.given v := by
    intro v hv
    have horder := h.order v
    rw [hq] at horder
    exact absurd ((List.pairwise_append.1 horder).2.2 n hv n List.mem_cons_self) (Nat.lt_irrefl n)
  have hsorted := h.sorted
  rw [hq] at hsorted
  refine ⟨(List.pairwise_cons.1 hsorted).2, fun v => ?_, fun v v' m hm hm' => ?_, fun m => ?_, fun v hv => ?_⟩
  · rw [given_fetch hhand]
    have horder := h.order v
    rw [hq] at horder
    split
    · simpa only [List.append_assoc, List.singleton_append] using horder
    · exact horder.sublist ((List.sublist_cons_self n q).append_left _)
  · rw [given_fetch hhand] at hm hm'
    split at hm <;> split at hm'
    · exact (‹v = w›).trans (‹v' = w›).symm
    · rcases List.mem_append.1 hm with hm | hm
      · exact h.apart v v' m hm hm'
      · rw [List.mem_singleton.1 hm] at hm'
        exact absurd hm' (hfresh v')
    · rcases List.mem_append.1 hm' with hm' | hm'
      · exact h.apart v v' m hm hm'
      · rw [List.mem_singleton.1 hm'] at hm
        exact absurd hm (hfresh v)
    · exact h.apart v v' m hm hm'
  · rw [h.cover m]
    simp only [given_fetch hhand, hq, List.mem_cons]
    constructor
    · rintro ((rfl | hm) | ⟨v, hm⟩)
      · exact .inr ⟨w, by simp⟩
      · exact .inl hm
      · refine .inr ⟨v, ?_⟩
        split
        · exact List.mem_append_left _ hm
        · exact hm
    · rintro (hm | ⟨v, hm⟩)
      · exact .inl (.inr hm)
      · split at hm
        · rcases List.mem_append.1 hm with hm | hm
          · exact .inr ⟨v, hm⟩
          · exact .inl (.inl (List.mem_singleton.1 hm))
        · exact .inr ⟨v, hm⟩
  · obtain ⟨-, hempty⟩ := h.left v hv
    rw [hq] at hempty
    cases hempty

theorem Ledger.start (h : Ledger s) {w : W} {n : Nat} (hhand : s.hand w = some n) :
    Ledger { s with
      hand := Function.update s.hand w none, started := Function.update s.started w (s.started w ++ [n]) } where
  sorted := h.sorted
  order v := by
    rw [given_start hhand]
    exact h.order v
  apart v v' m hm hm' := by
    rw [given_start hhand] at hm hm'
    exact h.apart v v' m hm hm'
  cover m := by
    simp only [given_start hhand]
    exact h.cover m
  left := h.left

theorem Ledger.leave (h : Ledger s) {w : W} (hclosed : s.closed = true) (hempty : s.queue = []) :
    Ledger { s with left := Function.update s.left w true } where
  sorted := h.sorted
  order := h.order
  apart := h.apart
  cover := h.cover
  left _ _ := ⟨hclosed, hempty⟩

theorem Ledger.step (h : Ledger s) (hs : Step s s') : Ledger s' := by
  cases hs with
  | accept hopen => exact h.accept hopen
  | close => exact ⟨h.sorted, h.order, h.apart, h.cover, fun w hw => ⟨rfl, (h.left w hw).2⟩⟩
  | fetch hhand hq => exact h.fetch hhand hq
  | start hhand => exact h.start hhand
  | leave hclosed hempty => exact h.leave hclosed hempty

theorem Ledger.steps (h : Ledger s) (hr : ReflTransGen Step s s') : Ledger s' := by
  induction hr with
  | refl => exact h
  | tail _ hs ih => exact ih.step hs

end

/-- **Each accepted number is in one place**, once. -/
theorem Ledger.one_spot (h : Ledger s) {n : Nat} (hn : n < s.accepted) :
    ∃ p, (s.held p).count n = 1 ∧ ∀ p', p' ≠ p → n ∉ s.held p' := by
  have hnodup : ∀ w, (s.given w ++ s.queue).Nodup := fun w => (h.order w).imp Nat.ne_of_lt
  have hwhere : ∀ p, n ∈ s.held p → n ∈ s.queue ∧ p = .queue ∨ ∃ w, n ∈ s.given w ∧ (p = .hand w ∨ p = .started w) := by
    intro p hp
    cases p with
    | queue => exact .inl ⟨hp, rfl⟩
    | hand w => exact .inr ⟨w, List.mem_append_right _ hp, .inl rfl⟩
    | started w => exact .inr ⟨w, List.mem_append_left _ hp, .inr rfl⟩
  have hqueue : n ∈ s.queue → ∀ w, n ∉ s.given w := fun hq w hw =>
    (List.disjoint_of_nodup_append (hnodup w)) hw hq
  rcases (h.cover n).1 hn with hq | ⟨w, hw⟩
  · refine ⟨.queue, List.count_eq_one_of_mem (h.sorted.imp Nat.ne_of_lt) hq, fun p' hp' hmem => ?_⟩
    obtain ⟨-, hp⟩ | ⟨v, hv, -⟩ := hwhere p' hmem
    · exact hp' hp
    · exact hqueue hq v hv
  · have hgiven := (hnodup w).sublist (List.sublist_append_left _ _)
    rcases List.mem_append.1 hw with hst | hhand
    · refine ⟨.started w, List.count_eq_one_of_mem (hgiven.sublist (List.sublist_append_left _ _)) hst,
        fun p' hp' hmem => ?_⟩
      obtain ⟨hq, -⟩ | ⟨v, hv, rfl | rfl⟩ := hwhere p' hmem
      · exact hqueue hq w hw
      · obtain rfl := h.apart w v n hw hv
        exact (List.disjoint_of_nodup_append hgiven) hst hmem
      · exact hp' (by rw [h.apart w v n hw hv])
    · refine ⟨.hand w, List.count_eq_one_of_mem (hgiven.sublist (List.sublist_append_right _ _)) hhand,
        fun p' hp' hmem => ?_⟩
      obtain ⟨hq, -⟩ | ⟨v, hv, rfl | rfl⟩ := hwhere p' hmem
      · exact hqueue hq w hw
      · exact hp' (by rw [h.apart w v n hw hv])
      · obtain rfl := h.apart w v n hw hv
        exact (List.disjoint_of_nodup_append hgiven) hmem hhand

theorem Ledger.started_sorted (h : Ledger s) (w : W) : (s.started w).Pairwise (· < ·) :=
  (h.order w).sublist ((List.sublist_append_left _ _).trans (List.sublist_append_left _ _))

/-- **Nothing is left over** when a taker has left and no hand holds anything. -/
theorem Ledger.all_started (h : Ledger s) {w : W} (hleft : s.left w = true) (hhand : ∀ v, s.hand v = none) {n : Nat}
    (hn : n < s.accepted) : ∃ v, (s.started v).count n = 1 ∧ ∀ v', v' ≠ v → n ∉ s.started v' := by
  obtain ⟨p, hone, hother⟩ := h.one_spot hn
  have hmem : n ∈ s.held p := List.count_pos_iff.1 (by omega)
  cases p with
  | queue =>
    rw [show s.held .queue = [] from (h.left w hleft).2] at hmem
    cases hmem
  | hand v =>
    rw [show s.held (.hand v) = [] by simp [held, hhand v]] at hmem
    cases hmem
  | started v => exact ⟨v, hone, fun v' hv' => hother (.started v') (by simpa using hv')⟩

end Share

/-! ## Measures -/

section
variable {ι α : Type} {r : α → α → Prop}

/-- One member of a family goes down, and the others stay. -/
def Lowers (r : α → α → Prop) (f g : ι → α) : Prop := ∃ i, r (f i) (g i) ∧ ∀ j, j ≠ i → f j = g j

/-- **A finite family goes down only so often.** -/
theorem Lowers.wellFounded [Finite ι] (hr : WellFounded r) : WellFounded (Lowers (ι := ι) r) := by
  classical
  have hlex := Pi.Lex.wellFounded (ι := ι) (α := fun _ => α) (r := WellOrderingRel) (s := fun _ => r) fun _ => hr
  refine Subrelation.wf ?_ hlex
  rintro f g ⟨i, hi, hother⟩
  exact ⟨i, fun j hj => hother j (fun he => (irrefl i (he ▸ hj))), hi⟩

end

section
variable {S L : Type} {M : Type} {r : M → M → Prop}

/-- **Finitely many steps of one kind**: where a step of that kind lowers a well-founded measure and the others leave it,
every run has a last one. -/
theorem finitely_many (hr : WellFounded r) (step : S → L → S → Prop) (kind : L → Prop) (keep : S → Prop) (μ : S → M)
    (hkeep : ∀ {s l s'}, keep s → step s l s' → keep s') (hlow : ∀ {s l s'}, keep s → step s l s' → kind l → r (μ s') (μ s))
    (hsame : ∀ {s l s'}, keep s → step s l s' → ¬ kind l → μ s' = μ s) :
    ∀ (s : Nat → S) (l : Nat → L), keep (s 0) → (∀ k, step (s k) (l k) (s (k + 1))) → ∃ N, ∀ k, N ≤ k → ¬ kind (l k) := by
  suffices h : ∀ m (s : Nat → S) (l : Nat → L), μ (s 0) = m → keep (s 0) → (∀ k, step (s k) (l k) (s (k + 1))) →
      ∃ N, ∀ k, N ≤ k → ¬ kind (l k) from fun s l => h (μ (s 0)) s l rfl
  intro m
  induction m using hr.induction with
  | _ m ih =>
  intro s l hm hk hs
  by_cases hnone : ∃ k, kind (l k)
  · classical
    -- The first such step lowers the measure, and the run goes on from there.
    obtain ⟨k, hkind, hfirst⟩ : ∃ k, kind (l k) ∧ ∀ j, j < k → ¬ kind (l j) :=
      ⟨Nat.find hnone, Nat.find_spec hnone, fun j hj => Nat.find_min hnone hj⟩
    have hupto : ∀ j, j ≤ k → keep (s j) ∧ μ (s j) = m := by
      intro j
      induction j with
      | zero => exact fun _ => ⟨hk, hm⟩
      | succ j ihj =>
        intro hj
        obtain ⟨hkj, hmj⟩ := ihj (by omega)
        exact ⟨hkeep hkj (hs j), (hsame hkj (hs j) (hfirst j hj)).trans hmj⟩
    obtain ⟨hkk, hmk⟩ := hupto k (Nat.le_refl k)
    have hlower := hlow hkk (hs k) hkind
    rw [hmk] at hlower
    obtain ⟨N, hN⟩ := ih _ hlower (fun j => s (k + 1 + j)) (fun j => l (k + 1 + j)) rfl (hkeep hkk (hs k))
      fun j => hs (k + 1 + j)
    refine ⟨k + 1 + N, fun j hj => ?_⟩
    have := hN (j - (k + 1)) (by omega)
    rwa [show k + 1 + (j - (k + 1)) = j by omega] at this
  · exact ⟨0, fun k _ hkind => hnone ⟨k, hkind⟩⟩

end
end Conc
