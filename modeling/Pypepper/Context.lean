import Mathlib.Data.List.Nodup
/-!
# Context — chained contexts

`common/context/context.py`.  A context is made once, with or without a parent, and its index counts the contexts above
it, so a chain holds each index from 0 to its last one once (`mem_chain_iff`).  `born` makes children until one has the
index asked for; only a parent below that index ever meets it (`born_chain_iff`).
-/
namespace Pypepper

/-- A context object: its identity, its id and its index, under its parent when it has one. -/
inductive Context where
  | root (ref : Nat) (contextId : Option String) (index : Nat)
  | under (parent : Context) (ref : Nat) (contextId : Option String) (index : Nat)
deriving DecidableEq

/-- `InternalException` and `ValueError`. -/
inductive ContextError where
  | internal (msg : String)
  | value (msg : String)
deriving DecidableEq

namespace Context

def index : Context → Nat
  | .root _ _ i    => i
  | .under _ _ _ i => i

def parent : Context → Option Context
  | .root _ _ _    => none
  | .under p _ _ _ => some p

/-- `new`: the index is 0, or one more than the parent's. -/
def new (ref : Nat) (contextId : Option String) : Option Context → Context
  | none   => .root ref contextId 0
  | some p => .under p ref contextId (p.index + 1)

def trace (index : Int) : Context → Except ContextError Context
  | .root r id i    => if i = index then .ok (.root r id i) else .error (.internal "context index not found")
  | .under p r id i => if i = index then .ok (.under p r id i) else p.trace index

def length (c : Context) : Nat := c.index + 1

def head (c : Context) : Except ContextError Context := c.trace 0

/-- `born`, to a depth of `fuel` calls; `nextId k` is the id that `id_provider` or `uuid.new_uuid` gives the object `k`. -/
def born (nextId : Nat → String) : Nat → Int → Option Context → Nat → Option (Except ContextError Context)
  | 0,        _,      _,      _ => none
  | fuel + 1, length, parent, k =>
    if length < 1 then some (.error (.value ("born length must be >= 1, got " ++ toString length)))
    else
      match parent with
      | some p =>
        if p.index = length - 1 then some (.ok p)
        else born nextId fuel length (some (new k (some (nextId k)) (some p))) (k + 1)
      | none   => born nextId fuel length (some (new k (some (nextId k)) none)) (k + 1)

/-- The contexts that `new` and `born` make, whatever ids they are given. -/
inductive Reachable : Context → Prop where
  | new (ref : Nat) (contextId : Option String) {parent : Option Context} :
      (∀ p, parent = some p → Reachable p) → Reachable (Context.new ref contextId parent)
  | born {nextId : Nat → String} {fuel : Nat} {length : Int} {parent : Option Context} {k : Nat} {c : Context} :
      (∀ p, parent = some p → Reachable p) → Context.born nextId fuel length parent k = some (.ok c) → Reachable c

/-! ## Chains -/

/-- The context and those above it. -/
def chain : Context → List Context
  | .root r id i    => [.root r id i]
  | .under p r id i => .under p r id i :: p.chain

/-- Every context of the chain has the index that it was made with. -/
def Indexed : Context → Prop
  | .root _ _ i    => i = 0
  | .under p _ _ i => i = p.index + 1 ∧ p.Indexed

theorem indexed_new (ref : Nat) (contextId : Option String) {parent : Option Context}
    (h : ∀ p, parent = some p → p.Indexed) : (new ref contextId parent).Indexed := by
  cases parent with
  | none   => rfl
  | some p => exact ⟨rfl, h p rfl⟩

theorem self_mem_chain (c : Context) : c ∈ c.chain := by
  cases c <;> exact List.mem_cons_self

theorem Indexed.le {c d : Context} (h : c.Indexed) (hd : d ∈ c.chain) : d.index ≤ c.index := by
  induction c with
  | root r id i => exact Nat.le_of_eq (congrArg index (List.mem_singleton.1 hd))
  | under p r id i ih =>
    have hi := h.1
    rcases List.mem_cons.1 hd with rfl | hd
    · exact Nat.le_refl _
    · exact Nat.le_trans (ih h.2 hd) (show p.index ≤ i by omega)

/-- Two contexts of a chain with one index are one context. -/
theorem Indexed.unique {c d e : Context} (h : c.Indexed) (hd : d ∈ c.chain) (he : e ∈ c.chain)
    (hi : d.index = e.index) : d = e := by
  induction c with
  | root r id i => rw [List.mem_singleton.1 hd, List.mem_singleton.1 he]
  | under p r id i ih =>
    have habove : ∀ x ∈ p.chain, x.index < i := fun x hx => by
      have := h.2.le hx
      have := h.1
      omega
    rcases List.mem_cons.1 hd with rfl | hd
    · rcases List.mem_cons.1 he with rfl | he
      · rfl
      · exact absurd hi.symm (Nat.ne_of_lt (habove e he))
    · rcases List.mem_cons.1 he with rfl | he
      · exact absurd hi (Nat.ne_of_lt (habove d hd))
      · exact ih h.2 hd he

/-- Every index up to a context's own is on its chain. -/
theorem Indexed.exists_index {c : Context} (h : c.Indexed) {i : Nat} (hi : i ≤ c.index) :
    ∃ d ∈ c.chain, d.index = i := by
  induction c with
  | root r id j =>
    have hj : j = 0 := h
    have hi : i ≤ j := hi
    exact ⟨_, List.mem_cons_self, show j = i by omega⟩
  | under p r id j ih =>
    by_cases hij : i = j
    · exact ⟨_, List.mem_cons_self, hij.symm⟩
    · have hj := h.1
      have hi : i ≤ j := hi
      obtain ⟨d, hd, hdi⟩ := ih h.2 (by omega)
      exact ⟨d, List.mem_cons_of_mem _ hd, hdi⟩

/-- **A trace finds the context of the chain with its index.** -/
theorem Indexed.trace_iff {c d : Context} (h : c.Indexed) {i : Int} :
    c.trace i = .ok d ↔ d ∈ c.chain ∧ (d.index : Int) = i := by
  induction c with
  | root r id j =>
    unfold trace chain
    rw [List.mem_singleton]
    by_cases hj : (j : Int) = i
    · rw [if_pos hj]
      constructor
      · intro hd
        cases hd
        exact ⟨rfl, hj⟩
      · rintro ⟨rfl, -⟩
        rfl
    · rw [if_neg hj]
      constructor
      · intro hd
        cases hd
      · rintro ⟨rfl, hi⟩
        exact absurd hi hj
  | under p r id j ih =>
    unfold trace
    by_cases hj : (j : Int) = i
    · rw [if_pos hj]
      constructor
      · intro hd
        cases hd
        exact ⟨List.mem_cons_self, hj⟩
      · rintro ⟨hd, hdi⟩
        have hdj : d.index = j := by omega
        rw [h.unique hd (self_mem_chain _) hdj]
    · rw [if_neg hj, ih h.2]
      constructor
      · rintro ⟨hd, hdi⟩
        exact ⟨List.mem_cons_of_mem _ hd, hdi⟩
      · rintro ⟨hd, hdi⟩
        rcases List.mem_cons.1 hd with rfl | hd
        · exact absurd hdi hj
        · exact ⟨hd, hdi⟩

/-- A trace succeeds for the indices of the chain. -/
theorem Indexed.trace_isOk_iff {c : Context} (h : c.Indexed) (i : Int) :
    (∃ d, c.trace i = .ok d) ↔ 0 ≤ i ∧ i < c.length := by
  constructor
  · rintro ⟨d, hd⟩
    obtain ⟨hmem, hi⟩ := h.trace_iff.1 hd
    have := h.le hmem
    unfold length
    omega
  · rintro ⟨h0, hlt⟩
    unfold length at hlt
    obtain ⟨d, hd, hi⟩ := h.exists_index (i := i.toNat) (by omega)
    exact ⟨d, h.trace_iff.2 ⟨hd, by omega⟩⟩

/-- A chain that holds another one is traced to the same contexts. -/
theorem Indexed.trace_eq {c p d e : Context} (h : c.Indexed) (hp : p.Indexed) (hsub : ∀ x ∈ p.chain, x ∈ c.chain)
    {i : Int} (hd : p.trace i = .ok d) (he : c.trace i = .ok e) : d = e := by
  obtain ⟨hd, hdi⟩ := hp.trace_iff.1 hd
  obtain ⟨he, hei⟩ := h.trace_iff.1 he
  exact h.unique (hsub d hd) he (by omega)

/-! ## born -/

/-- A context of length `n`, whose chain goes on from its parent's. -/
structure Chained (n : Int) (parent : Option Context) (c : Context) : Prop where
  length : c.length = n
  trace  : ∀ i, (∃ d, c.trace i = .ok d) ↔ 0 ≤ i ∧ i < n
  unique : ∀ i d, c.trace i = .ok d → (d ∈ c.chain ∧ d.index = i) ∧ ∀ e ∈ c.chain, (e.index : Int) = i → e = d
  shared : ∀ p, parent = some p → ∀ i d e, p.trace i = .ok d → c.trace i = .ok e → d = e
  head   : ∀ p, parent = some p → c.head = p.head

/-- What `born` makes of an indexed parent. -/
structure Descends (n : Int) (parent : Option Context) (c : Context) : Prop where
  indexed : c.Indexed
  length  : c.length = n
  above   : ∀ p, parent = some p → ∀ x ∈ p.chain, x ∈ c.chain

theorem Descends.chained {n : Int} {parent : Option Context} {c : Context} (h : Descends n parent c)
    (hp : ∀ p, parent = some p → p.Indexed) : Chained n parent c := by
  constructor
  · exact h.length
  · intro i
    rw [h.indexed.trace_isOk_iff, h.length]
  · intro i d hd
    obtain ⟨hmem, hi⟩ := h.indexed.trace_iff.1 hd
    exact ⟨⟨hmem, hi⟩, fun e he hei => h.indexed.unique he hmem (by omega)⟩
  · intro p hparent i d e
    exact h.indexed.trace_eq (hp p hparent) (h.above p hparent)
  · intro p hparent
    obtain ⟨d, hd⟩ := ((hp p hparent).trace_isOk_iff 0).2 ⟨Int.le_refl 0, by unfold Context.length; omega⟩
    obtain ⟨e, he⟩ := (h.indexed.trace_isOk_iff 0).2 ⟨Int.le_refl 0, by unfold Context.length; omega⟩
    unfold head
    rw [hd, he, h.indexed.trace_eq (hp p hparent) (h.above p hparent) hd he]

variable {nextId : Nat → String} {n : Int}

/-- Without a parent, `born` goes on under a first context. -/
theorem born_none (hn : 1 ≤ n) (fuel k : Nat) : born nextId (fuel + 1) n none k =
    born nextId fuel n (some (new k (some (nextId k)) none)) (k + 1) := by
  rw [born, if_neg (by omega)]

theorem born_some (hn : 1 ≤ n) (fuel k : Nat) (p : Context) : born nextId (fuel + 1) n (some p) k =
    if p.index = n - 1 then some (.ok p) else born nextId fuel n (some (new k (some (nextId k)) (some p))) (k + 1) := by
  rw [born, if_neg (by omega)]

theorem one_le_of_born {fuel : Nat} {parent : Option Context} {k : Nat} {c : Context}
    (h : born nextId fuel n parent k = some (.ok c)) : 1 ≤ n := by
  by_cases hn : n < 1
  · cases fuel with
    | zero => cases h
    | succ fuel =>
      unfold born at h
      rw [if_pos hn] at h
      cases h
  · omega

/-- What `born` returns descends from an indexed parent. -/
theorem born_descends (fuel : Nat) {p c : Context} {k : Nat} (hp : p.Indexed)
    (h : born nextId fuel n (some p) k = some (.ok c)) : Descends n (some p) c := by
  induction fuel generalizing p k with
  | zero => cases h
  | succ fuel ih =>
    rw [born_some (one_le_of_born h)] at h
    by_cases hi : (p.index : Int) = n - 1
    · rw [if_pos hi] at h
      cases h
      constructor
      · exact hp
      · unfold Context.length
        omega
      · rintro _ ⟨rfl⟩ x hx
        exact hx
    · rw [if_neg hi] at h
      have hd := ih (indexed_new k (some (nextId k)) (by rintro _ ⟨rfl⟩; exact hp)) h
      constructor
      · exact hd.indexed
      · exact hd.length
      · rintro _ ⟨rfl⟩ x hx
        exact hd.above _ rfl x (List.mem_cons_of_mem _ hx)

theorem born_descends_of {fuel : Nat} {parent : Option Context} {c : Context} {k : Nat}
    (hp : ∀ p, parent = some p → p.Indexed) (h : born nextId fuel n parent k = some (.ok c)) :
    Descends n parent c := by
  cases parent with
  | some p => exact born_descends fuel (hp p rfl) h
  | none =>
    cases fuel with
    | zero => cases h
    | succ fuel =>
      rw [born_none (one_le_of_born h)] at h
      have hd := born_descends fuel (indexed_new k (some (nextId k)) hp) h
      exact ⟨hd.indexed, hd.length, fun p hnone => nomatch hnone⟩

theorem Reachable.indexed {c : Context} (h : Reachable c) : c.Indexed := by
  induction h with
  | new ref contextId _ ih => exact indexed_new ref contextId ih
  | born _ hborn ih        => exact (born_descends_of ih hborn).indexed

/-- **A parent at or above the length never meets the index, at any depth.** -/
theorem born_diverges (hn : 1 ≤ n) (fuel : Nat) {p : Context} (hp : n ≤ p.index) (k : Nat) :
    born nextId fuel n (some p) k = none := by
  induction fuel generalizing p k with
  | zero => rfl
  | succ fuel ih =>
    rw [born_some hn, if_neg (by omega)]
    have hnext : n ≤ ((p.index + 1 : Nat) : Int) := by omega
    exact ih (p := new k (some (nextId k)) (some p)) hnext (k + 1)

/-- A parent below the length meets the index after the contexts that are missing. -/
theorem born_returns (hn : 1 ≤ n) (missing : Nat) {p : Context} (hp : p.index + missing = n - 1) (k : Nat) :
    ∃ c, born nextId (missing + 1) n (some p) k = some (.ok c) := by
  induction missing generalizing p k with
  | zero =>
    rw [born_some hn, if_pos (by omega)]
    exact ⟨p, rfl⟩
  | succ missing ih =>
    rw [born_some hn, if_neg (by omega)]
    have hnext : ((p.index + 1 : Nat) : Int) + missing = n - 1 := by omega
    exact ih (p := new k (some (nextId k)) (some p)) hnext (k + 1)

theorem born_returns_of (hn : 1 ≤ n) {parent : Option Context} (hp : ∀ p, parent = some p → (p.index : Int) < n)
    (k : Nat) : ∃ fuel c, born nextId fuel n parent k = some (.ok c) := by
  cases parent with
  | some p =>
    have hlt := hp p rfl
    exact ⟨_, born_returns hn (n - 1 - p.index).toNat (by omega) k⟩
  | none =>
    have hroot : ((new k (some (nextId k)) none).index : Int) + (n - 1).toNat = n - 1 := by
      show ((0 : Nat) : Int) + (n - 1).toNat = n - 1
      omega
    obtain ⟨c, hc⟩ := born_returns hn (n - 1).toNat hroot (k + 1)
    exact ⟨_, c, (born_none hn _ k).trans hc⟩

/-- **`born` makes the chain exactly for a parent below its length.** -/
theorem born_chain_iff (hn : 1 ≤ n) {parent : Option Context} (hp : ∀ p, parent = some p → Reachable p)
    (k : Nat) :
    (∃ fuel c, born nextId fuel n parent k = some (.ok c) ∧ Chained n parent c) ↔
      ∀ p, parent = some p → (p.index : Int) < n := by
  constructor
  · rintro ⟨fuel, c, hborn, -⟩ p rfl
    by_contra hle
    rw [born_diverges hn fuel (by omega) k] at hborn
    cases hborn
  · intro hlt
    obtain ⟨fuel, c, hborn⟩ := born_returns_of hn hlt k
    have hindexed : ∀ p, parent = some p → p.Indexed := fun p h => (hp p h).indexed
    exact ⟨fuel, c, hborn, (born_descends_of hindexed hborn).chained hindexed⟩

/-- A first context, and one under it. -/
def pair : Context := new 1 (some "1") (some (new 0 (some "0") none))

theorem pair_reachable : Reachable pair := by
  refine .new 1 (some "1") ?_
  rintro _ ⟨rfl⟩
  exact .new 0 (some "0") fun p hnone => nomatch hnone

/-- A chain of three goes on from the pair. -/
theorem born_three_of_pair :
    ∃ fuel c, born toString fuel 3 (some pair) 2 = some (.ok c) ∧ Chained 3 (some pair) c :=
  (born_chain_iff (by decide) (by rintro _ ⟨rfl⟩; exact pair_reachable) 2).2
    (by rintro _ ⟨rfl⟩; decide)

/-- A chain of one is asked for under the pair: `born` never returns. -/
theorem born_one_of_pair : Reachable pair ∧
    ¬ ∃ fuel c, born toString fuel 1 (some pair) 2 = some (.ok c) ∧ Chained 1 (some pair) c := by
  constructor
  · exact pair_reachable
  · rintro ⟨fuel, c, hborn, -⟩
    rw [born_diverges (by decide) fuel (by decide) 2] at hborn
    cases hborn

end Context
end Pypepper
