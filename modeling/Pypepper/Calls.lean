import Mathlib.Data.List.Induction
/-!
# Calls — properties of every call of a sequence

A run of calls on a state, and what holds at each call with the calls before it and the state it finds (`Each`).  Two such
properties that agree wherever an invariant holds, one of them keeping it, agree over every run (`each_iff`).
-/
namespace Calls

variable {σ κ : Type} (step : σ → κ → σ) (s₀ : σ)

/-- The state after the calls. -/
def run (l : List κ) : σ := l.foldl step s₀

@[simp] theorem run_nil : run step s₀ [] = s₀ := rfl

@[simp] theorem run_concat (l : List κ) (c : κ) : run step s₀ (l ++ [c]) = step (run step s₀ l) c := by
  simp [run]

/-- `P` holds at each call: of the calls before it, the state it finds and the call. -/
def Each (P : List κ → σ → κ → Prop) (l : List κ) : Prop :=
  ∀ pre c post, l = pre ++ c :: post → P pre (run step s₀ pre) c

variable {step s₀} {P Q : List κ → σ → κ → Prop}

theorem each_nil : Each step s₀ P [] := by
  intro pre c post h
  cases pre <;> cases h

theorem each_concat {l : List κ} {c : κ} : Each step s₀ P (l ++ [c]) ↔ Each step s₀ P l ∧ P l (run step s₀ l) c := by
  constructor
  · intro h
    constructor
    · intro pre d post hl
      exact h pre d (post ++ [c]) (by rw [hl, List.append_assoc, List.cons_append])
    · exact h l c [] rfl
  · intro h pre d post hl
    rcases List.eq_nil_or_concat post with rfl | ⟨post, e, rfl⟩
    · obtain ⟨rfl, hd⟩ := List.append_inj' hl rfl
      cases hd
      exact h.2
    · rw [List.concat_eq_append, ← List.cons_append, ← List.append_assoc] at hl
      obtain ⟨rfl, -⟩ := List.append_inj' hl rfl
      exact h.1 pre d post rfl

/-- The first call, and the calls after it from where it leads. -/
theorem each_cons {c : κ} {l : List κ} : Each step s₀ P (c :: l) ↔
    P [] s₀ c ∧ Each step (step s₀ c) (fun pre => P (c :: pre)) l := by
  constructor
  · intro h
    exact ⟨h [] c l rfl, fun pre d post hl => h (c :: pre) d post (by rw [hl]; rfl)⟩
  · intro h pre d post hl
    cases pre with
    | nil =>
      obtain ⟨rfl, rfl⟩ := List.cons.inj hl
      exact h.1
    | cons e pre =>
      obtain ⟨he, htail⟩ := List.cons.inj hl
      subst he
      exact h.2 pre d post htail

/-- What holds at the start holds after every part of a run exactly when it holds after each call. -/
theorem each_after {I : List κ → σ → Prop} (h0 : I [] s₀) {l : List κ} :
    (∀ pre post, l = pre ++ post → I pre (run step s₀ pre)) ↔
      Each step s₀ (fun pre s c => I (pre ++ [c]) (step s c)) l := by
  constructor
  · intro h pre c post hl
    have hi := h (pre ++ [c]) post (by rw [hl, List.append_assoc, List.singleton_append])
    rw [run_concat] at hi
    exact hi
  · intro h pre post hl
    rcases List.eq_nil_or_concat pre with rfl | ⟨pre, c, rfl⟩
    · exact h0
    · rw [List.concat_eq_append, run_concat]
      exact h pre c post (by rw [hl, List.concat_eq_append, List.append_assoc, List.singleton_append])

/-- An invariant that each call keeps under `P` holds after a run whose calls meet `P`. -/
theorem Each.inv {I : List κ → σ → Prop} (h0 : I [] s₀)
    (hstep : ∀ pre s c, I pre s → P pre s c → I (pre ++ [c]) (step s c)) :
    ∀ l, Each step s₀ P l → I l (run step s₀ l) := by
  intro l
  induction l using List.reverseRecOn with
  | nil => exact fun _ => h0
  | append_singleton l c ih =>
    intro h
    rw [each_concat] at h
    rw [run_concat]
    exact hstep l _ c (ih h.1) h.2

/-- What an invariant of the calls implies at each of them. -/
theorem each_of_inv {I : List κ → σ → Prop} (h0 : I [] s₀) (hstep : ∀ pre s c, I pre s → I (pre ++ [c]) (step s c))
    (h : ∀ pre s c, I pre s → P pre s c) (l : List κ) : Each step s₀ P l := by
  intro pre c post _
  have htrue : Each step s₀ (fun _ _ _ => True) pre := fun _ _ _ _ => trivial
  exact h pre _ c (htrue.inv h0 (fun pre s c hi _ => hstep pre s c hi))

/-- **Two properties that agree under an invariant that one of them keeps agree over every run.** -/
theorem each_iff {I : List κ → σ → Prop} (h0 : I [] s₀) (hiff : ∀ pre s c, I pre s → (P pre s c ↔ Q pre s c))
    (hstep : ∀ pre s c, I pre s → P pre s c → I (pre ++ [c]) (step s c)) (l : List κ) :
    Each step s₀ P l ↔ Each step s₀ Q l := by
  induction l using List.reverseRecOn with
  | nil => exact iff_of_true each_nil each_nil
  | append_singleton l c ih =>
    rw [each_concat, each_concat, ← ih]
    constructor
    · intro h
      exact ⟨h.1, (hiff l _ c (h.1.inv h0 hstep)).1 h.2⟩
    · intro h
      exact ⟨h.1, (hiff l _ c (h.1.inv h0 hstep)).2 h.2⟩

end Calls
