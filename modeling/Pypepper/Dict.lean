import Mathlib.Data.List.Nodup
/-!
# Dict — an insertion-ordered dictionary

The built-in dictionary as a list of entries with distinct keys: a lookup finds the one entry of its key, an assignment
replaces the value in place or appends a new entry, a removal drops the entry.  The values come back in insertion
order.  `get_set` and `get_pop` say what every later lookup reads.
-/
namespace Py

/-- A dictionary: its entries in insertion order, each key once. -/
structure Dict (κ α : Type) where
  entries : List (κ × α)
  nodup   : (entries.map Prod.fst).Nodup

namespace Dict

variable {κ α : Type} [DecidableEq κ]

def empty : Dict κ α := ⟨[], List.nodup_nil⟩

def lookup (k : κ) : List (κ × α) → Option α
  | []     => none
  | p :: l => if p.1 = k then some p.2 else lookup k l

def get (d : Dict κ α) (k : κ) : Option α := lookup k d.entries

def values (d : Dict κ α) : List α := d.entries.map Prod.snd

/-- An assignment's entries: the value replaced in place, or a new entry at the end. -/
def assign (k : κ) (v : α) : List (κ × α) → List (κ × α)
  | []     => [(k, v)]
  | p :: l => if p.1 = k then (k, v) :: l else p :: assign k v l

theorem mem_keys_assign (k : κ) (v : α) (j : κ) : ∀ (l : List (κ × α)),
    j ∈ (assign k v l).map Prod.fst ↔ j = k ∨ j ∈ l.map Prod.fst
  | [] => by simp [assign]
  | p :: l => by
    unfold assign
    by_cases hp : p.1 = k
    · simp [hp]
    · rw [if_neg hp, List.map_cons, List.mem_cons, mem_keys_assign k v j l, List.map_cons, List.mem_cons]
      exact or_left_comm

theorem nodup_assign (k : κ) (v : α) : ∀ (l : List (κ × α)),
    (l.map Prod.fst).Nodup → ((assign k v l).map Prod.fst).Nodup
  | [], _ => by simp [assign]
  | p :: l, h => by
    rw [List.map_cons, List.nodup_cons] at h
    unfold assign
    by_cases hp : p.1 = k
    · rw [if_pos hp, List.map_cons, List.nodup_cons]
      exact ⟨hp ▸ h.1, h.2⟩
    · rw [if_neg hp, List.map_cons, List.nodup_cons, mem_keys_assign]
      refine ⟨fun hm => ?_, nodup_assign k v l h.2⟩
      rcases hm with hm | hm
      · exact hp hm
      · exact h.1 hm

def set (d : Dict κ α) (k : κ) (v : α) : Dict κ α := ⟨assign k v d.entries, nodup_assign k v _ d.nodup⟩

def pop (d : Dict κ α) (k : κ) : Dict κ α :=
  ⟨d.entries.filter (fun p => decide (p.1 ≠ k)), d.nodup.sublist (List.filter_sublist.map Prod.fst)⟩

theorem lookup_assign (k : κ) (v : α) (j : κ) : ∀ (l : List (κ × α)),
    lookup j (assign k v l) = if j = k then some v else lookup j l
  | [] => by
    by_cases h : j = k
    · simp [assign, lookup, h]
    · have : ¬ k = j := fun hk => h hk.symm
      simp [assign, lookup, h, this]
  | p :: l => by
    unfold assign
    by_cases hp : p.1 = k
    · rw [if_pos hp]
      by_cases hj : j = k
      · simp [lookup, hj]
      · have : ¬ k = j := fun h => hj h.symm
        simp [lookup, hj, hp, this]
    · rw [if_neg hp, lookup, lookup_assign k v j l]
      by_cases hj : j = k
      · subst hj; simp [hp]
      · simp [lookup, hj]

theorem lookup_filter (k j : κ) : ∀ (l : List (κ × α)),
    lookup j (l.filter (fun p => decide (p.1 ≠ k))) = if j = k then none else lookup j l
  | [] => by simp [lookup]
  | p :: l => by
    by_cases hp : p.1 = k
    · rw [List.filter_cons_of_neg (by simpa using hp), lookup_filter k j l]
      by_cases hj : j = k
      · simp [hj]
      · have : ¬ k = j := fun h => hj h.symm
        simp [lookup, hj, hp, this]
    · rw [List.filter_cons_of_pos (by simpa using hp), lookup, lookup_filter k j l]
      by_cases hj : j = k
      · subst hj; simp [hp]
      · simp [lookup, hj]

/-- **A lookup after an assignment** reads the assigned value at its key and the old one elsewhere. -/
theorem get_set (d : Dict κ α) (k j : κ) (v : α) : (d.set k v).get j = if j = k then some v else d.get j :=
  lookup_assign k v j d.entries

@[simp] theorem get_set_self (d : Dict κ α) (k : κ) (v : α) : (d.set k v).get k = some v := by simp [get_set]

theorem get_set_of_ne (d : Dict κ α) {k j : κ} (v : α) (h : j ≠ k) : (d.set k v).get j = d.get j := by
  simp [get_set, h]

/-- **A lookup after a removal** reads nothing at the removed key and the old value elsewhere. -/
theorem get_pop (d : Dict κ α) (k j : κ) : (d.pop k).get j = if j = k then none else d.get j :=
  lookup_filter k j d.entries

/-! ## Entries and values -/

theorem assign_new {k : κ} {v : α} : ∀ {l : List (κ × α)}, k ∉ l.map Prod.fst → assign k v l = l ++ [(k, v)]
  | [], _ => rfl
  | p :: l, h => by
    rw [List.map_cons, List.mem_cons, not_or] at h
    rw [assign, if_neg (fun hp => h.1 hp.symm), assign_new h.2]
    rfl

theorem lookup_eq_none {k : κ} : ∀ {l : List (κ × α)}, lookup k l = none → k ∉ l.map Prod.fst
  | [], _ => by simp
  | p :: l, h => by
    rw [lookup] at h
    by_cases hp : p.1 = k
    · rw [if_pos hp] at h
      cases h
    · rw [if_neg hp] at h
      rw [List.map_cons, List.mem_cons, not_or]
      exact ⟨fun hk => hp hk.symm, lookup_eq_none h⟩

theorem mem_of_lookup {k : κ} {v : α} : ∀ {l : List (κ × α)}, lookup k l = some v → (k, v) ∈ l
  | [], h => by cases h
  | p :: l, h => by
    rw [lookup] at h
    by_cases hp : p.1 = k
    · rw [if_pos hp, Option.some.injEq] at h
      rw [← hp, ← h]
      exact List.mem_cons_self
    · rw [if_neg hp] at h
      exact List.mem_cons_of_mem _ (mem_of_lookup h)

theorem lookup_of_mem {k : κ} {v : α} : ∀ {l : List (κ × α)}, (l.map Prod.fst).Nodup → (k, v) ∈ l → lookup k l = some v
  | [], _, h => by cases h
  | p :: l, hn, h => by
    rw [List.map_cons, List.nodup_cons] at hn
    rcases List.mem_cons.1 h with rfl | h
    · simp [lookup]
    · have hp : ¬ p.1 = k := fun hk => hn.1 (hk ▸ List.mem_map.2 ⟨(k, v), h, rfl⟩)
      rw [lookup, if_neg hp, lookup_of_mem hn.2 h]

theorem get_of_mem_values {d : Dict κ α} {v : α} (h : v ∈ d.values) : ∃ k, d.get k = some v := by
  obtain ⟨⟨k, v⟩, hm, rfl⟩ := List.mem_map.1 h
  exact ⟨k, lookup_of_mem d.nodup hm⟩

theorem mem_values_of_get {d : Dict κ α} {k : κ} {v : α} (h : d.get k = some v) : v ∈ d.values :=
  List.mem_map.2 ⟨(k, v), mem_of_lookup h, rfl⟩

theorem entries_set_new {d : Dict κ α} {k : κ} (v : α) (h : d.get k = none) :
    (d.set k v).entries = d.entries ++ [(k, v)] := assign_new (lookup_eq_none h)

theorem values_set_new {d : Dict κ α} {k : κ} (v : α) (h : d.get k = none) : (d.set k v).values = d.values ++ [v] := by
  rw [values, entries_set_new v h, List.map_append]
  rfl

theorem entries_pop_sublist (d : Dict κ α) (k : κ) : (d.pop k).entries.Sublist d.entries := List.filter_sublist

theorem values_pop_sublist (d : Dict κ α) (k : κ) : (d.pop k).values.Sublist d.values :=
  (d.entries_pop_sublist k).map Prod.snd

end Dict
end Py
