import Mathlib.Data.List.Infix
import Pypepper.ChannelReceive
/-!
# ChannelConserve — no value of a channel is lost

Every value that was sent is in the queue, with a call, returned, or in a get task that a cancelled call left behind
(`Tallied`).  The last are lost: nobody asks the task for the value.  Without such a task nothing is lost, nothing enters
the channel after a stop, and one consumer is given the values in the order they were sent (`meets_iff_spares`).
-/
namespace Pypepper
namespace Chan

/-! ## Conservation -/

section
variable {α β : Type} [DecidableEq β]

/-- One entry of a list replaced. -/
theorem count_flatMap_set (f : α → List β) (b : β) : ∀ {l : List α} {i : Nat} {x y : α}, l[i]? = some x →
    ((l.set i y).flatMap f).count b + (f x).count b = (l.flatMap f).count b + (f y).count b
  | [], _, _, _, h => by cases h
  | z :: l, 0, x, y, h => by
    obtain rfl : z = x := by simpa using h
    simp only [List.set_cons_zero, List.flatMap_cons, List.count_append]
    omega
  | z :: l, i + 1, x, y, h => by
    have ih := count_flatMap_set f b (l := l) (i := i) (y := y) (by simpa using h)
    simp only [List.set_cons_succ, List.flatMap_cons, List.count_append]
    omega

end

section
variable {V : Type} {s s' : ChannelState V} {st : ChannelStep V}

/-- A value is nowhere until it is sent, and then in one place. -/
def Tallied (s : ChannelState V) : Prop :=
  ∀ n, s.chan.queue.count n + s.held.count n + s.returned.count n + s.lost.count n = if n < s.sent.length then 1 else 0

/-- A turn of a call moves a value from one place to another. -/
theorem Turn.count {i : Nat} {l q q' : List Nat} {c c' : Receive} (h : Turn i st l q c q' c') (n : Nat) :
    q'.count n + c'.held.count n + c'.returned?.count n + c'.lost.count n =
      q.count n + c.held.count n + c.returned?.count n + c.lost.count n ∧ c'.lost.count n = c.lost.count n + l.count n := by
  cases h with
  | still _ _ hheld hret hlost => simp [hheld, hret, hlost]
  | take => simp [Receive.held, Receive.returned?, Receive.lost, LoopTask.result, List.count_cons]
  | takeLeft => simp [Receive.held, Receive.returned?, Receive.lost, LoopTask.result, List.count_cons]
  | hand => simp [Receive.held, Receive.returned?, Receive.lost, LoopTask.result]
  | drain hget => simp [Receive.held, Receive.returned?, Receive.lost, hget, List.count_cons]
  | empty hget => simp [Receive.held, Receive.returned?, Receive.lost, hget]
  | cancel =>
    simp only [Receive.held, Receive.returned?, Receive.lost]
    simp

theorem Begins.count {q q' : List Nat} {c : Receive} (h : Begins q c q') (n : Nat) :
    q'.count n + c.held.count n + c.returned?.count n + c.lost.count n = q.count n ∧ c.lost.count n = 0 := by
  cases h with
  | wait => simp [Receive.held, Receive.returned?, Receive.lost, LoopTask.result]
  | drain => simp [Receive.held, Receive.returned?, Receive.lost, List.count_cons]
  | empty => simp [Receive.held, Receive.returned?, Receive.lost]

theorem Moves.lost (h : Moves s st s') (n : Nat) : s'.lost.count n = s.lost.count n + (s.loses st).count n := by
  cases h with
  | sent v hl _ => simp [hl, ChannelState.lost]
  | quiet stop hl _ => simp [hl, ChannelState.lost]
  | begins hl _ hb => simp [hl, ChannelState.lost, (hb.count n).2]
  | @turn i c c' q hi ht =>
    have hset := count_flatMap_set Receive.lost n (y := c') hi
    have := (ht.count n).2
    simp only [ChannelState.lost]
    omega

theorem Moves.tallied (h : Moves s st s') (ht : Tallied s) : Tallied s' := by
  intro n
  have hn := ht n
  cases h with
  | sent v _ _ =>
    simp only [ChannelState.held, ChannelState.returned, ChannelState.lost, List.count_append, List.length_append,
      List.length_singleton, List.count_singleton, beq_iff_eq] at hn ⊢
    split at hn <;> split <;> split <;> omega
  | quiet stop _ _ => exact hn
  | begins _ _ hb =>
    have := (hb.count n).1
    simp only [ChannelState.held, ChannelState.returned, ChannelState.lost, List.flatMap_append, List.count_append,
      List.flatMap_singleton] at hn ⊢
    omega
  | @turn i c c' q hi hturn =>
    have hheld := count_flatMap_set Receive.held n (y := c') hi
    have hret := count_flatMap_set Receive.returned? n (y := c') hi
    have hlost := count_flatMap_set Receive.lost n (y := c') hi
    have := (hturn.count n).1
    simp only [ChannelState.held, ChannelState.returned, ChannelState.lost] at hn ⊢
    omega

theorem Moves.sent_eq (h : Moves s st s') : s'.sent = s.sent ∨ (s.loses st = [] ∧ ∃ v, s'.sent = s.sent ++ [v]) := by
  cases h with
  | sent v hl _ => exact .inr ⟨hl, v, rfl⟩
  | quiet => exact .inl rfl
  | begins => exact .inl rfl
  | turn => exact .inl rfl

theorem Tallied.lt_of_mem_lost (h : Tallied s) {n : Nat} (hn : n ∈ s.lost) : n < s.sent.length := by
  have hcount := h n
  have hpos := List.count_pos_iff.2 hn
  by_cases hlt : n < s.sent.length
  · exact hlt
  · rw [if_neg hlt] at hcount
    omega

/-- What is conserved is what is not lost. -/
theorem Tallied.conserved_iff (h : Tallied s) : s.Conserved ↔ ∀ n ∈ s.lost, ∀ v, s.sent[n]? ≠ some (some v) := by
  constructor
  · intro hc n hn v hv
    have hcount := h n
    have hpos := List.count_pos_iff.2 hn
    have hone := hc n v hv
    rw [if_pos (h.lt_of_mem_lost hn)] at hcount
    omega
  · intro hlost n v hv
    have hn := h n
    have hlt : n < s.sent.length := (List.getElem?_eq_some_iff.1 hv).1
    have hzero : s.lost.count n = 0 := List.count_eq_zero.2 fun hmem => hlost n hmem v hv
    rw [if_pos hlt] at hn
    omega

/-- **One step**: what was conserved still is when, and only when, the step spares every value. -/
theorem Moves.conserved_iff (h : Moves s st s') (ht : Tallied s) (hc : s.Conserved) : s'.Conserved ↔ s.Spares st := by
  rw [(h.tallied ht).conserved_iff]
  have hlost := ht.conserved_iff.1 hc
  have hmem : ∀ n, n ∈ s'.lost ↔ n ∈ s.lost ∨ n ∈ s.loses st := by
    intro n
    have := h.lost n
    rw [← List.count_pos_iff, ← List.count_pos_iff, ← List.count_pos_iff]
    omega
  rcases h.sent_eq with hsame | ⟨hnone, v, hsent⟩
  · rw [hsame]
    constructor
    · exact fun h' n hn => h' n ((hmem n).2 (.inr hn))
    · rintro hs n hn
      rcases (hmem n).1 hn with hn | hn
      · exact hlost n hn
      · exact hs n hn
  · constructor
    · intro _ n hn
      rw [hnone] at hn
      cases hn
    · intro _ n hn
      rcases (hmem n).1 hn with hn | hn
      · rw [hsent, List.getElem?_append_left (ht.lt_of_mem_lost hn)]
        exact hlost n hn
      · rw [hnone] at hn
        cases hn

/-! ## After the stop -/

theorem Turn.suffix {i : Nat} {l q q' : List Nat} {c c' : Receive} (h : Turn i st l q c q' c') : q' <:+ q := by
  cases h with
  | still => exact List.suffix_rfl
  | take => exact List.suffix_cons _ _
  | takeLeft => exact List.suffix_cons _ _
  | hand => exact List.suffix_rfl
  | drain => exact List.suffix_cons _ _
  | empty => exact List.suffix_rfl
  | cancel => exact List.suffix_rfl

theorem Begins.suffix {q q' : List Nat} {c : Receive} (h : Begins q c q') : q' <:+ q := by
  cases h with
  | wait => exact List.suffix_rfl
  | drain => exact List.suffix_cons _ _
  | empty => exact List.suffix_rfl

/-- Nothing enters a stopped channel. -/
theorem Moves.stopped (h : Moves s st s') (hstop : s.chan.stop = true) :
    s'.chan.stop = true ∧ s'.sent = s.sent ∧ s'.chan.queue <:+ s.chan.queue := by
  cases h with
  | sent v _ hrun =>
    rw [hstop] at hrun
    cases hrun
  | quiet stop _ hkeep => exact ⟨hkeep hstop, rfl, List.suffix_rfl⟩
  | begins _ _ hb => exact ⟨hstop, rfl, hb.suffix⟩
  | turn _ ht => exact ⟨hstop, rfl, ht.suffix⟩

/-! ## One consumer -/

/-- What was returned, what the one open call holds and what is queued are in the order they were sent; only the last call
can be open. -/
structure Ordered (s : ChannelState V) : Prop where
  order : (s.returned ++ s.held ++ s.chan.queue).Pairwise (· < ·)
  last  : ∀ i c, s.calls[i]? = some c → c.isLive = true → i + 1 = s.calls.length

theorem Turn.live {i : Nat} {l q q' : List Nat} {c c' : Receive} (h : Turn i st l q c q' c') (hl : c'.isLive = true) : c.isLive = true := by
  cases h with
  | still hsame => rw [← hsame, hl]
  | take => rfl
  | takeLeft => cases hl
  | hand => rfl
  | drain => rfl
  | empty => rfl
  | cancel => rfl

theorem held_of_not_live {calls : List Receive} (h : ∀ c ∈ calls, c.isLive = false) : calls.flatMap Receive.held = [] := by
  refine List.flatMap_eq_nil_iff.2 fun c hc => ?_
  cases c with
  | live => exact absurd (h _ hc) (by simp [Receive.isLive])
  | returned => rfl
  | cancelled => rfl

/-- A turn of a call that is over: only the queue may get shorter. -/
theorem Turn.over {i : Nat} {l q q' : List Nat} {c c' : Receive} (h : Turn i st l q c q' c') (hover : c.isLive = false) :
    c'.held = c.held ∧ c'.returned? = c.returned? := by
  cases h with
  | still _ _ hheld hret _ => exact ⟨hheld, hret⟩
  | takeLeft => exact ⟨rfl, rfl⟩
  | take => cases hover
  | hand => cases hover
  | drain => cases hover
  | empty => cases hover
  | cancel => cases hover

/-- A turn of an open call keeps the order of its value and the queue, and drops what it loses. -/
theorem Turn.sublist {i : Nat} {l q q' : List Nat} {c c' : Receive} (h : Turn i st l q c q' c') (hlive : c.isLive = true) :
    (c'.returned? ++ c'.held ++ q').Sublist (c.returned? ++ c.held ++ q) := by
  cases h with
  | still _ _ hheld hret _ => rw [hheld, hret]
  | take => simp [Receive.held, Receive.returned?, LoopTask.result]
  | takeLeft => cases hlive
  | hand => simp [Receive.held, Receive.returned?, LoopTask.result]
  | drain hget => simp [Receive.held, Receive.returned?, hget]
  | empty hget => simp [Receive.held, Receive.returned?, hget]
  | cancel => simp [Receive.held, Receive.returned?]

theorem flatMap_set_same {f : Receive → List Nat} {c c' : Receive} (hf : f c' = f c) : ∀ {l : List Receive} {i : Nat},
    l[i]? = some c → (l.set i c').flatMap f = l.flatMap f
  | [], _, h => by cases h
  | z :: l, 0, h => by
    obtain rfl : z = c := by simpa using h
    rw [List.set_cons_zero, List.flatMap_cons, List.flatMap_cons, hf]
  | z :: l, i + 1, h => by
    rw [List.set_cons_succ, List.flatMap_cons, List.flatMap_cons, flatMap_set_same hf (by simpa using h)]

theorem Ordered.turn {l q : List Nat} {i : Nat} {c c' : Receive} (h : Ordered s) (hi : s.calls[i]? = some c)
    (ht : Turn i st l s.chan.queue c q c') :
    Ordered { s with chan := { s.chan with queue := q }, calls := s.calls.set i c' } := by
  have hlast : ∀ j d, (s.calls.set i c')[j]? = some d → d.isLive = true → j + 1 = (s.calls.set i c').length := by
    intro j d hj hd
    rw [List.length_set]
    by_cases hij : i = j
    · subst hij
      rw [List.getElem?_set_self (List.getElem?_eq_some_iff.1 hi).1, Option.some.injEq] at hj
      subst hj
      exact h.last i c hi (ht.live hd)
    · rw [List.getElem?_set_ne hij] at hj
      exact h.last j d hj hd
  refine ⟨?_, hlast⟩
  cases hlive : c.isLive with
  | false =>
    obtain ⟨hheld, hret⟩ := ht.over hlive
    simp only [ChannelState.returned, ChannelState.held, flatMap_set_same hheld hi, flatMap_set_same hret hi]
    exact h.order.sublist (ht.suffix.sublist.append_left _)
  | true =>
    -- The open call is the last one, and no other holds a value.
    have hlen := h.last i c hi hlive
    rcases List.eq_nil_or_concat s.calls with hnil | ⟨init, z, hcalls⟩
    · rw [hnil] at hi
      cases hi
    rw [List.concat_eq_append] at hcalls
    have hinit : init.length = i := by
      rw [hcalls, List.length_append, List.length_singleton] at hlen
      omega
    obtain rfl : z = c := by
      rw [hcalls, ← hinit, List.getElem?_concat_length, Option.some.injEq] at hi
      exact hi
    have hover : ∀ d ∈ init, d.isLive = false := by
      intro d hd
      obtain ⟨j, hj, hjd⟩ := List.mem_iff_getElem.1 hd
      refine Bool.eq_false_iff.2 fun hdl => ?_
      have := h.last j d (by rw [hcalls, List.getElem?_append_left hj, List.getElem?_eq_getElem hj, hjd]) hdl
      omega
    have horder := h.order
    have hset : (init ++ [z]).set i c' = init ++ [c'] := by
      rw [← hinit]
      simp
    simp only [ChannelState.returned, ChannelState.held, hcalls, hset, List.flatMap_append, List.flatMap_singleton,
      held_of_not_live hover, List.nil_append, List.append_assoc] at horder ⊢
    refine horder.sublist ?_
    have := (ht.sublist hlive).append_left (init.flatMap Receive.returned?)
    simpa only [List.append_assoc] using this

theorem Moves.ordered (h : Moves s st s') (ht : Tallied s) (ho : Ordered s)
    (hone : st = .receive → ∀ c ∈ s.calls, c.isLive = false) : Ordered s' := by
  cases h with
  | sent v _ _ =>
    refine ⟨?_, ho.last⟩
    show (s.returned ++ s.held ++ (s.chan.queue ++ [s.sent.length])).Pairwise (· < ·)
    rw [← List.append_assoc]
    refine List.pairwise_append.2 ⟨ho.order, List.pairwise_singleton _ _, fun n hn m hm => ?_⟩
    rw [List.mem_singleton.1 hm]
    have hcount := ht n
    have hpos := List.count_pos_iff.2 hn
    simp only [List.count_append] at hpos
    by_cases hlt : n < s.sent.length
    · exact hlt
    · rw [if_neg hlt] at hcount
      omega
  | quiet stop _ _ => exact ⟨ho.order, ho.last⟩
  | @begins c q _ hst hb =>
    have hover := hone hst
    have horder := ho.order
    rw [show s.held = [] from held_of_not_live hover] at horder
    refine ⟨?_, fun i d hi hd => ?_⟩
    · show ((s.calls ++ [c]).flatMap Receive.returned? ++ (s.calls ++ [c]).flatMap Receive.held ++ q).Pairwise (· < ·)
      rw [List.flatMap_append, List.flatMap_append, held_of_not_live hover]
      generalize hqueue : s.chan.queue = queue at hb horder
      cases hb with
      | wait => simpa [ChannelState.returned, Receive.held, Receive.returned?, LoopTask.result] using horder
      | drain => simpa [ChannelState.returned, Receive.held, Receive.returned?] using horder
      | empty => simpa [ChannelState.returned, Receive.held, Receive.returned?] using horder
    · by_cases hlt : i < s.calls.length
      · rw [List.getElem?_append_left hlt] at hi
        rw [hover d (List.mem_of_getElem? hi)] at hd
        cases hd
      · have := (List.getElem?_eq_some_iff.1 hi).1
        simp only [List.length_append, List.length_singleton] at this ⊢
        omega
  | turn hi hturn => exact ho.turn hi hturn

end

/-! ## Runs -/

section
variable {V : Type}

/-- Every call is made after the ones before it have ended. -/
def SingleConsumer (hist : List (ChannelState V × ChannelStep V)) : Prop :=
  ∀ p ∈ hist, p.2 = .receive → ∀ c ∈ p.1.calls, c.isLive = false

/-- What a run is to keep: in every state the values are conserved, nothing enters the channel after a stop, and one consumer
is given the values in the order they were sent. -/
structure Meets (hist : List (ChannelState V × ChannelStep V)) (s : ChannelState V) : Prop where
  conserved : ∀ s' ∈ hist.map Prod.fst ++ [s], s'.Conserved
  stopped   : ∀ p ∈ hist, p.1.chan.stop = true → s.sent = p.1.sent ∧ s.chan.queue <:+ p.1.chan.queue
  inOrder   : SingleConsumer hist → s.returned.Pairwise (· < ·)

variable {maxsize : Nat} {hist : List (ChannelState V × ChannelStep V)} {s : ChannelState V}

theorem ChannelRun.tallied (h : ChannelRun maxsize hist s) : Tallied s := by
  induction h with
  | start => exact fun n => rfl
  | step _ hstep ih => exact (step_moves hstep).tallied ih

theorem ChannelRun.conserved_iff (h : ChannelRun maxsize hist s) :
    (∀ s' ∈ hist.map Prod.fst ++ [s], s'.Conserved) ↔ ∀ p ∈ hist, p.1.Spares p.2 := by
  induction h with
  | start =>
    constructor
    · exact fun _ p hp => by cases hp
    · intro _ s' hs' n v hv
      obtain rfl : s' = ChannelState.new maxsize := by simpa using hs'
      cases hv
  | @step hist s s' st hrun hstep ih =>
    have hmoves := step_moves hstep
    have hsplit : (∀ s'' ∈ (hist ++ [(s, st)]).map Prod.fst ++ [s'], s''.Conserved) ↔
        (∀ s'' ∈ hist.map Prod.fst ++ [s], s''.Conserved) ∧ s'.Conserved := by
      rw [List.map_append, List.map_singleton]
      simp only [List.mem_append, List.mem_singleton, or_imp, forall_and, forall_eq]
    rw [hsplit, ih]
    simp only [List.mem_append, List.mem_singleton, or_imp, forall_and, forall_eq]
    refine and_congr_right fun hspares => ?_
    exact hmoves.conserved_iff hrun.tallied (ih.2 hspares s (by simp))

theorem ChannelRun.stopped (h : ChannelRun maxsize hist s) : ∀ p ∈ hist, p.1.chan.stop = true →
    s.chan.stop = true ∧ s.sent = p.1.sent ∧ s.chan.queue <:+ p.1.chan.queue := by
  induction h with
  | start => exact fun p hp => by cases hp
  | step _ hstep ih =>
    intro p hp hstop
    rcases List.mem_append.1 hp with hp | hp
    · obtain ⟨hrest, hsent, hqueue⟩ := ih p hp hstop
      obtain ⟨hstop', hsent', hqueue'⟩ := (step_moves hstep).stopped hrest
      exact ⟨hstop', hsent'.trans hsent, hqueue'.trans hqueue⟩
    · obtain rfl := List.mem_singleton.1 hp
      exact (step_moves hstep).stopped hstop

theorem ChannelRun.ordered (h : ChannelRun maxsize hist s) (hone : SingleConsumer hist) : Ordered s := by
  induction h with
  | start => exact ⟨List.Pairwise.nil, fun _ _ hi => by cases hi⟩
  | step hrun hstep ih =>
    have hbefore := ih fun p hp => hone p (List.mem_append_left _ hp)
    exact (step_moves hstep).ordered hrun.tallied hbefore (hone (_, _) (List.mem_append_right _ List.mem_cons_self))

/-- No call is cancelled in `asyncio.wait`. -/
def NeverCancelled (hist : List (ChannelState V × ChannelStep V)) : Prop :=
  ∀ p ∈ hist, ∀ i get stop, p.2 = .cancel i → p.1.calls[i]? ≠ some (.live .wait get stop)

theorem loses_of_not_cancelled {st : ChannelStep V} (hno : ∀ c ∈ s.calls, c.isCancelled = false)
    (hst : ∀ i get stop, st = .cancel i → s.calls[i]? ≠ some (.live .wait get stop)) : s.loses st = [] := by
  unfold ChannelState.loses
  split
  · rename_i i
    split
    · rename_i hi
      exact absurd hi (hst i _ _ rfl)
    · rfl
  · split
    · rename_i hi
      exact absurd (hno _ (List.mem_of_getElem? hi)) (by simp [Receive.isCancelled])
    · rfl
  · rfl

/-- Only a caller's cancel leaves a call cancelled. -/
theorem Turn.uncancelled {st : ChannelStep V} {i : Nat} {l q q' : List Nat} {c c' : Receive} (h : Turn i st l q c q' c')
    (hst : ∀ get stop, st = .cancel i → c ≠ .live .wait get stop) (hc : c.isCancelled = false) : c'.isCancelled = false := by
  cases h with
  | still _ hsame => rw [hsame, hc]
  | take => rfl
  | takeLeft => cases hc
  | hand => rfl
  | drain => rfl
  | empty => rfl
  | cancel => exact absurd rfl (hst _ _ rfl)

theorem Begins.uncancelled {q q' : List Nat} {c : Receive} (h : Begins q c q') : c.isCancelled = false := by
  cases h with
  | wait => rfl
  | drain => rfl
  | empty => rfl

theorem Moves.uncancelled {st : ChannelStep V} {s' : ChannelState V} (h : Moves s st s')
    (hst : ∀ i get stop, st = .cancel i → s.calls[i]? ≠ some (.live .wait get stop))
    (hc : ∀ c ∈ s.calls, c.isCancelled = false) : ∀ c ∈ s'.calls, c.isCancelled = false := by
  cases h with
  | sent => exact hc
  | quiet => exact hc
  | begins _ _ hb =>
    intro c hmem
    rcases List.mem_append.1 hmem with hmem | hmem
    · exact hc c hmem
    · obtain rfl := List.mem_singleton.1 hmem
      exact hb.uncancelled
  | turn hi ht =>
    intro c hmem
    rcases List.mem_or_eq_of_mem_set hmem with hmem | rfl
    · exact hc c hmem
    · exact ht.uncancelled (fun get stop h he => hst _ get stop h (he ▸ hi)) (hc _ (List.mem_of_getElem? hi))

theorem ChannelRun.spares (h : ChannelRun maxsize hist s) (hnever : NeverCancelled hist) :
    (∀ p ∈ hist, p.1.Spares p.2) ∧ ∀ c ∈ s.calls, c.isCancelled = false := by
  induction h with
  | start =>
    constructor
    · exact fun p hp => by cases hp
    · exact fun c hc => by cases hc
  | @step hist s s' st hrun hstep ih =>
    obtain ⟨hspares, hcalls⟩ := ih fun p hp => hnever p (List.mem_append_left _ hp)
    have hst := hnever (s, st) (List.mem_append_right _ List.mem_cons_self)
    refine ⟨fun p hp => ?_, (step_moves hstep).uncancelled hst hcalls⟩
    rcases List.mem_append.1 hp with hp | hp
    · exact hspares p hp
    · obtain rfl := List.mem_singleton.1 hp
      intro n hn
      rw [loses_of_not_cancelled hcalls hst] at hn
      cases hn

/-- **When a channel keeps its values**: a run does all it is to do if and only if none of its steps takes a value away, by a
cancel of a call in `asyncio.wait` whose get task has one, or by a get task that such a cancel left behind; so in every run
without a cancel in `asyncio.wait`. -/
theorem meets_iff_spares (maxsize : Nat) (hist : List (ChannelState V × ChannelStep V)) (s : ChannelState V)
    (h : ChannelRun maxsize hist s) :
    (Meets hist s ↔ ∀ p ∈ hist, p.1.Spares p.2) ∧ (NeverCancelled hist → Meets hist s) := by
  have hmeets : (∀ p ∈ hist, p.1.Spares p.2) → Meets hist s := by
    intro hspares
    refine ⟨h.conserved_iff.2 hspares, fun p hp hstop => (h.stopped p hp hstop).2, fun hone => ?_⟩
    have horder := (h.ordered hone).order
    rw [List.append_assoc] at horder
    exact (List.pairwise_append.1 horder).1
  exact ⟨⟨fun hm => h.conserved_iff.1 hm.conserved, hmeets⟩, fun hnever => hmeets (h.spares hnever).1⟩

/-- The steps of a list, with the state before each. -/
def ChannelState.steps : List (ChannelStep V) → List (ChannelState V × ChannelStep V) → ChannelState V →
    Option (List (ChannelState V × ChannelStep V) × ChannelState V)
  | [],        hist, s => some (hist, s)
  | st :: sts, hist, s => (s.step st).bind (fun s' => ChannelState.steps sts (hist ++ [(s, st)]) s')

theorem ChannelRun.steps : ∀ (sts : List (ChannelStep V)) {hist hist' : List (ChannelState V × ChannelStep V)}
    {s s' : ChannelState V}, ChannelRun maxsize hist s → s.steps sts hist = some (hist', s') → ChannelRun maxsize hist' s'
  | [], _, _, _, _, h, hs => by
    cases hs
    exact h
  | st :: sts, _, _, _, _, h, hs => by
    obtain ⟨s₁, hstep, hrest⟩ := Option.bind_eq_some_iff.1 hs
    exact (h.step hstep).steps sts hrest

end

/-- A call that is given a value, and that its caller tries to cancel while it awaits its stop task. -/
theorem meets_iff_spares_suppressed : ∃ (hist : List (ChannelState String × ChannelStep String)) (s : ChannelState String),
    ChannelRun 1 hist s ∧ s.returned = [0] ∧ s.sent = [some "job"] ∧ Meets hist s := by
  have hrun : ((ChannelState.new 1).steps [.receive, .send (some "job"), .runGet 0, .resume 0, .cancel 0, .runStop 0,
      .resume 0] []).any (fun p => decide (p.2.returned = [0] ∧ p.2.sent = [some "job"] ∧
        ∀ q ∈ p.1, q.1.loses q.2 = [])) = true := by decide
  obtain ⟨⟨hist, s⟩, hs, hp⟩ := (Option.any_eq_true _ _).1 hrun
  obtain ⟨hret, hsent, hloses⟩ := of_decide_eq_true hp
  have h : ChannelRun 1 hist s := ChannelRun.start.steps _ hs
  refine ⟨hist, s, h, hret, hsent, (meets_iff_spares 1 hist s h).1.2 fun p hp n hn => ?_⟩
  rw [hloses p hp] at hn
  cases hn

/-- **A cancelled call loses a value**: the get task it leaves behind takes the next value that is sent. -/
theorem cancelled_receive_loses : ∃ (hist : List (ChannelState String × ChannelStep String)) (s : ChannelState String),
    ChannelRun 0 hist s ∧ s.sent = [some "job"] ∧ s.chan.queue = [] ∧ s.held = [] ∧ s.returned = [] ∧ ¬ s.Conserved := by
  have hrun : ((ChannelState.new 0).steps [.receive, .cancel 0, .send (some "job"), .runGet 0] []).any
      (fun p => decide (p.2.sent = [some "job"] ∧ p.2.chan.queue = [] ∧ p.2.held = [] ∧ p.2.returned = [])) = true := by
    decide
  obtain ⟨⟨hist, s⟩, hs, hp⟩ := (Option.any_eq_true _ _).1 hrun
  obtain ⟨hsent, hqueue, hheld, hret⟩ := of_decide_eq_true hp
  have hlost : ¬ s.Conserved := by
    intro hc
    have hzero := hc 0 "job" (by rw [hsent]; rfl)
    rw [hqueue, hheld, hret] at hzero
    cases hzero
  exact ⟨hist, s, ChannelRun.start.steps _ hs, hsent, hqueue, hheld, hret, hlost⟩

end Chan
end Pypepper
