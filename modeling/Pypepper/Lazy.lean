import Pypepper.Monitor
import Mathlib.Data.List.Nodup
/-!
# Lazy — objects made on first use

Slots that hold one object each once somebody has asked for it.  A thread takes the lock, reads the slot, makes the object
when there is none and writes it, and reads the slot back or keeps what it has (`ensure`); it may first read the slot
without the lock (`checked`).  Whatever the order of the threads' accesses, those that ask for a slot all get its one object,
and none is made twice (`once`).
-/
namespace Conc
namespace Lazy

variable {ι κ ε : Type} [DecidableEq κ]

/-- The slots, and what each object was made for; an object is its number. -/
structure Slots (κ : Type) where
  slot : κ → Option Nat := fun _ => none
  made : List κ := []

inductive Access (κ : Type) where
  | read (k : κ)
  | make (k : κ)
  | write (k : κ) (o : Nat)

@[reducible] def Access.Res : Access κ → Type
  | .read _    => Option Nat
  | .make _    => Nat
  | .write _ _ => Unit

def Access.exec : (a : Access κ) → Slots κ → a.Res × Slots κ
  | .read k,    s => (s.slot k, s)
  | .make k,    s => (s.made.length, { s with made := s.made ++ [k] })
  | .write k o, s => ((), { s with slot := Function.update s.slot k (some o) })

abbrev SlotProg (κ ε α : Type) := LockProg (Access κ) Access.Res ε α

abbrev SlotState (ι κ : Type) := Guarded ι (Slots κ)

def access (a : Access κ) : SlotProg κ ε a.Res := Prog.call (Locked.inner a)

def acquire : SlotProg κ ε Unit := Prog.call Locked.acquire

def release : SlotProg κ ε Unit := Prog.call Locked.release

/-- The object found, or a new one, which the slot then has. -/
def orMake (k : κ) : Option Nat → SlotProg κ ε Nat
  | some o => return o
  | none   => do
    let o ← access (.make k)
    access (.write k o)
    return o

/-- The answer of a method: the slot read back, or the object at hand. -/
def answer (back : Bool) (k : κ) (o : Nat) : SlotProg κ ε (Option Nat) :=
  match back with
  | true  => access (.read k)
  | false => return some o

/-- Under the lock: the object of the slot, made if need be. -/
def ensure (back : Bool) (k : κ) : SlotProg κ ε (Option Nat) := do
  acquire
  let found ← access (.read k)
  let o ← orMake k found
  let r ← answer back k o
  release
  return r

/-- First without the lock; the slot is read again for the answer. -/
def checked (k : κ) : SlotProg κ ε (Option Nat) := do
  let found ← access (.read k)
  match found with
  | some _ => access (.read k)
  | none   => ensure true k

/-! ## What the threads rely on -/

/-- Objects are in the slots they were made for, at most one for each; with the lock free there is no other. -/
structure Sound (s : SlotState ι κ) : Prop where
  inSlot : ∀ k o, s.1.slot k = some o → s.1.made[o]? = some k
  once   : s.1.made.Nodup
  full   : s.2 = none → ∀ k ∈ s.1.made, (s.1.slot k).isSome

/-- What a step of one thread leaves to the others. -/
structure Leaves (i : ι) (s s' : SlotState ι κ) : Prop where
  kept  : ∀ k o, s.1.slot k = some o → s'.1.slot k = some o
  sound : Sound s → Sound s'
  held  : ∀ j, j ≠ i → s.2 = some j → s' = s
  taken : ∀ j, j ≠ i → s.2 ≠ some j → s'.2 ≠ some j

def accessSem : Sem ι (Locked (Access κ)) (Locked.Res Access.Res) (SlotState ι κ) :=
  lockSem fun a s r s' => Access.exec a s = (r, s')

def slotProto (i : ι) : Proto (Locked (Access κ)) (Locked.Res Access.Res) (SlotState ι κ) where
  step      := accessSem i
  rely s s' := ∃ j, j ≠ i ∧ Leaves j s s'
  guar s s' := Leaves i s s'

/-- The thread is outside. -/
structure Outside (i : ι) (s : SlotState ι κ) : Prop where
  sound : Sound s
  out   : s.2 ≠ some i

/-- The thread holds the lock. -/
structure Inside (i : ι) (s : SlotState ι κ) : Prop where
  sound : Sound s
  mine  : s.2 = some i
  full  : ∀ k ∈ s.1.made, (s.1.slot k).isSome

/-- It holds the lock and has made the slot's object. -/
structure Making (i : ι) (k : κ) (o : Nat) (s : SlotState ι κ) : Prop where
  sound : Sound s
  mine  : s.2 = some i
  fresh : s.1.made[o]? = some k
  rest  : ∀ k' ∈ s.1.made, k' ≠ k → (s.1.slot k').isSome
  empty : s.1.slot k = none

variable {i : ι} {k : κ} {o : Nat} {s s' : SlotState ι κ}

theorem outside_stable : (slotProto i).Stable (Outside (κ := κ) i) := by
  rintro s s' ⟨j, hj, h⟩ hs
  exact ⟨h.sound hs.sound, h.taken i hj.symm hs.out⟩

theorem held_stable {P : SlotState ι κ → Prop} (hP : ∀ s, P s → s.2 = some i) : (slotProto i).Stable P := by
  rintro s s' ⟨j, hj, h⟩ hs
  rw [h.held i hj.symm (hP s hs)]
  exact hs

/-- Outside, with the slot's object known. -/
def Knows (i : ι) (k : κ) (o : Nat) (s : SlotState ι κ) : Prop := Outside i s ∧ s.1.slot k = some o

theorem knows_stable : (slotProto i).Stable (Knows (κ := κ) i k o) := by
  rintro s s' hrely ⟨hs, hk⟩
  refine ⟨outside_stable s s' hrely hs, ?_⟩
  obtain ⟨j, -, h⟩ := hrely
  exact h.kept k o hk

omit [DecidableEq κ] in
theorem leaves_refl : Leaves i s s := ⟨fun _ _ h => h, id, fun _ _ _ => rfl, fun _ _ h => h⟩

theorem step_read {r : Option Nat} (h : (slotProto i).step (.inner (.read k)) s r s') : s' = s ∧ r = s.1.slot k := by
  obtain ⟨hx, hl⟩ := h
  obtain ⟨rfl, hs⟩ := Prod.mk.inj hx
  exact ⟨Prod.ext hs.symm hl, rfl⟩

omit [DecidableEq κ] in
/-- What the holder of the lock does is seen by nobody until it releases. -/
theorem leaves_of_mine (hmine : s.2 = some i) (hmine' : ∀ j, j ≠ i → s'.2 ≠ some j)
    (hkept : ∀ k o, s.1.slot k = some o → s'.1.slot k = some o) (hsound : Sound s → Sound s') : Leaves i s s' := by
  refine ⟨hkept, hsound, fun j hj hs => ?_, fun j hj _ => hmine' j hj⟩
  rw [hmine] at hs
  exact absurd (Option.some.inj hs).symm hj

theorem Outside.acquire {u : Unit} (h : Outside i s) (hst : (slotProto i).step .acquire s u s') :
    Leaves i s s' ∧ Inside i s' := by
  obtain ⟨hfree, rfl⟩ := hst
  have hsound : Sound (s.1, some i) := ⟨h.sound.inSlot, h.sound.once, fun hn => by cases hn⟩
  refine ⟨⟨fun _ _ hk => hk, fun _ => hsound, fun j _ hj => ?_, fun j hj _ hs => ?_⟩, hsound, rfl, h.sound.full hfree⟩
  · rw [hfree] at hj
    cases hj
  · exact hj (Option.some.inj hs).symm

theorem Inside.release {u : Unit} (h : Inside i s) (hst : (slotProto i).step .release s u s') :
    Leaves i s s' ∧ Outside i s' ∧ s'.1 = s.1 := by
  obtain ⟨hmine, rfl⟩ := hst
  have hsound : Sound (s.1, (none : Option ι)) := ⟨h.sound.inSlot, h.sound.once, fun _ => h.full⟩
  exact ⟨leaves_of_mine hmine (fun j _ => by simp) (fun _ _ hk => hk) (fun _ => hsound), ⟨hsound, by simp⟩, rfl⟩

/-- An empty slot's object was never made. -/
theorem Inside.make {o : Nat} (h : Inside i s) (hk : s.1.slot k = none)
    (hst : (slotProto i).step (.inner (.make k)) s o s') : Leaves i s s' ∧ Making i k o s' := by
  obtain ⟨hx, hl⟩ := hst
  obtain ⟨rfl, hs⟩ := Prod.mk.inj hx
  have hnew : k ∉ s.1.made := fun hm => by
    have hsome := h.full k hm
    rw [hk] at hsome
    cases hsome
  have hmine : s'.2 = some i := hl.trans h.mine
  have hsound : Sound s' := by
    refine ⟨fun k' o hk' => ?_, ?_, fun hn => ?_⟩
    · rw [← hs] at hk' ⊢
      have hin := h.sound.inSlot k' o hk'
      exact (List.getElem?_append_left (List.getElem?_eq_some_iff.1 hin).1).trans hin
    · rw [← hs]
      exact List.nodup_append.2 ⟨h.sound.once, List.nodup_singleton k, fun a ha b hb hab => by
        rw [List.mem_singleton.1 hb] at hab
        exact hnew (hab ▸ ha)⟩
    · rw [hmine] at hn
      cases hn
  refine ⟨leaves_of_mine h.mine ?_ ?_ fun _ => hsound, hsound, hmine, ?_, ?_, by rw [← hs]; exact hk⟩
  · intro j hj hs'
    rw [hmine] at hs'
    exact hj (Option.some.inj hs').symm
  · intro k' o hk'
    rw [← hs]
    exact hk'
  · rw [← hs]
    exact List.getElem?_concat_length
  · intro k' hk' hne
    rw [← hs] at hk' ⊢
    rcases List.mem_append.1 hk' with hk' | hk'
    · exact h.full k' hk'
    · exact absurd (List.mem_singleton.1 hk') hne

theorem Making.write {u : Unit} (h : Making i k o s)
    (hst : (slotProto i).step (.inner (.write k o)) s u s') : Leaves i s s' ∧ Inside i s' ∧ s'.1.slot k = some o := by
  obtain ⟨hx, hl⟩ := hst
  obtain ⟨-, hs⟩ := Prod.mk.inj hx
  have hmine : s'.2 = some i := hl.trans h.mine
  have hslot : ∀ k', s'.1.slot k' = if k' = k then some o else s.1.slot k' := fun k' => by
    rw [← hs]
    exact Function.update_apply ..
  have hmade : s'.1.made = s.1.made := by rw [← hs]
  have hsound : Sound s' := by
    refine ⟨fun k' o' hk' => ?_, hmade ▸ h.sound.once, fun hn => ?_⟩
    · rw [hslot] at hk'
      rw [hmade]
      split at hk'
      · rename_i heq
        obtain rfl := Option.some.inj hk'
        rw [heq]
        exact h.fresh
      · exact h.sound.inSlot k' o' hk'
    · rw [hmine] at hn
      cases hn
  refine ⟨leaves_of_mine h.mine ?_ ?_ fun _ => hsound, ⟨hsound, hmine, ?_⟩, by rw [hslot, if_pos rfl]⟩
  · intro j hj hs'
    rw [hmine] at hs'
    exact hj (Option.some.inj hs').symm
  · intro k' o' hk'
    rw [hslot, if_neg]
    · exact hk'
    · rintro rfl
      rw [h.empty] at hk'
      cases hk'
  · intro k' hk'
    rw [hslot]
    rw [hmade] at hk'
    split
    · rfl
    · rename_i hne
      exact h.rest k' hk' hne

/-! ## The programs -/

/-- The thread got the slot's object. -/
def Got (i : ι) (k : κ) (r : Except ε (Option Nat)) (s : SlotState ι κ) : Prop := ∃ o, r = .ok (some o) ∧ Knows i k o s

theorem answer_wp (back : Bool) (h : Inside i s) (hk : s.1.slot k = some o) :
    (slotProto i).wp (do
      let r ← answer back k o
      release
      return r : SlotProg κ ε (Option Nat)) (Got i k) s := by
  have hin : (slotProto i).Stable (fun s : SlotState ι κ => Inside i s ∧ s.1.slot k = some o) := held_stable fun _ h => h.1.mine
  have hrelease : ∀ s, Inside i s ∧ s.1.slot k = some o →
      (slotProto i).wp (do release; return some o : SlotProg κ ε (Option Nat)) (Got i k) s := by
    intro s hs
    refine Proto.wp_call hin hs fun s₁ u s₂ h hst => ?_
    obtain ⟨hl, hout, hsame⟩ := h.1.release hst
    exact ⟨hl, o, rfl, hout, hsame ▸ h.2⟩
  cases back with
  | false => exact hrelease s ⟨h, hk⟩
  | true =>
    refine Proto.wp_call hin ⟨h, hk⟩ fun s₁ r s₂ h hst => ?_
    obtain ⟨rfl, rfl⟩ := step_read hst
    refine ⟨leaves_refl, ?_⟩
    rw [h.2]
    exact hrelease s₂ h

theorem ensure_wp (back : Bool) (k : κ) (hs : Outside i s) :
    (slotProto i).wp (ensure back k : SlotProg κ ε (Option Nat)) (Got i k) s := by
  refine Proto.wp_call outside_stable hs fun s₁ u s₂ h hst => ?_
  obtain ⟨hl, hin⟩ := h.acquire hst
  refine ⟨hl, ?_⟩
  refine Proto.wp_call (held_stable fun _ h => h.mine) hin fun s₃ r s₄ h hst => ?_
  obtain ⟨rfl, rfl⟩ := step_read hst
  refine ⟨leaves_refl, ?_⟩
  cases hk : s₄.1.slot k with
  | some o => exact answer_wp back h hk
  | none =>
    have hempty : (slotProto i).Stable (fun s : SlotState ι κ => Inside i s ∧ s.1.slot k = none) :=
      held_stable fun _ h => h.1.mine
    refine Proto.wp_call hempty ⟨h, hk⟩ fun s₅ o s₆ h hst => ?_
    obtain ⟨hl, hmaking⟩ := h.1.make h.2 hst
    refine ⟨hl, ?_⟩
    refine Proto.wp_call (held_stable fun _ h => h.mine) hmaking fun s₇ u s₈ h hst => ?_
    obtain ⟨hl, hin, hk⟩ := h.write hst
    exact ⟨hl, answer_wp back hin hk⟩

theorem checked_wp (k : κ) (hs : Outside i s) : (slotProto i).wp (checked k : SlotProg κ ε (Option Nat)) (Got i k) s := by
  refine Proto.wp_call outside_stable hs fun s₁ r s₂ h hst => ?_
  obtain ⟨rfl, rfl⟩ := step_read hst
  refine ⟨leaves_refl, ?_⟩
  cases hk : s₂.1.slot k with
  | none => exact ensure_wp true k h
  | some o =>
    -- what was there is still there at the second read
    have hknows : Knows i k o s₂ := ⟨h, hk⟩
    refine Proto.wp_call (f := Prog.ret) knows_stable hknows fun s₃ r s₄ h hst => ?_
    obtain ⟨rfl, rfl⟩ := step_read hst
    exact ⟨leaves_refl, o, congrArg Except.ok h.2, h⟩

/-! ## Every run -/

/-- A thread's way of asking for its slot. -/
inductive Way where
  | locked (back : Bool)
  | checked

def Way.prog : Way → κ → SlotProg κ ε (Option Nat)
  | .locked back, k => ensure back k
  | .checked,     k => Lazy.checked k

omit [DecidableEq κ] in
theorem sound_new : Sound (({} : Slots κ), (none : Option ι)) where
  inSlot _ _ h := by cases h
  once         := List.nodup_nil
  full _ _ h   := by cases h

variable [DecidableEq ι]

/-- **Each object is made once**: of any threads, each asking for a slot in its way, those that have finished got the object
that the slot has, and the slots are sound. -/
theorem once (way : ι → Way) (key : ι → κ) {s₀ : Slots κ} (h₀ : Sound ((s₀, none) : SlotState ι κ))
    {c : Conf ι (Locked (Access κ)) (Locked.Res Access.Res) ε (Option Nat) (SlotState ι κ)}
    (hr : Conf.Runs accessSem ⟨fun i => (way i).prog (key i), s₀, none⟩ c) :
    (∀ i r, (c.prog i).finished = some r → ∃ o, r = .ok (some o) ∧ c.state.1.slot (key i) = some o) ∧
      Sound c.state := by
  have hcompat : ∀ i j : ι, i ≠ j → ∀ s s' : SlotState ι κ, (slotProto j).guar s s' → (slotProto i).rely s s' :=
    fun i j hij s s' h => ⟨j, hij.symm, h⟩
  have hheld : Conf.Held slotProto (fun i => Got (ε := ε) i (key i)) ⟨fun i => (way i).prog (key i), s₀, none⟩ := by
    refine .init fun i => ?_
    have hout : Outside i ((s₀, none) : SlotState ι κ) := ⟨h₀, by simp⟩
    dsimp only
    cases way i with
    | locked back => exact ensure_wp back _ hout
    | checked => exact checked_wp _ hout
  constructor
  · intro i r hf
    have hstable : (slotProto i).Stable (Got (ε := ε) i (key i) r) := by
      rintro s s' hrely ⟨o, ho, hk⟩
      exact ⟨o, ho, knows_stable s s' hrely hk⟩
    obtain ⟨o, ho, -, hk⟩ := (hheld.runs hcompat hr).post hf hstable
    exact ⟨o, ho, hk⟩
  · exact hheld.invariant (P := Sound) hcompat (fun i s s' h => h.sound) h₀ hr

end Lazy
end Conc
