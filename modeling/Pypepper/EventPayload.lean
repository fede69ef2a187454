import Pypepper.Calls
import Pypepper.SignedEvent
/-!
# EventPayload — what the payload's digest describes

Runs of `add_payload` on a new event.  A call without an algorithm keeps the digest of an earlier one, and a call whose
digest raises has replaced the id, the category and the raw bytes before it raises: the digest describes the payload, and a
call that raises changes nothing, exactly in the runs where neither happens (`digest_describes_iff`).
-/
namespace Pypepper
namespace Signed

variable (hashlib : Hashlib)

/-! ## One call -/

/-- What a call does to the payload. -/
theorem Payload.add_cases (p : Payload) (c : AddPayload) :
    (∃ msg, c.invalid = some msg ∧ p.add hashlib c = (.error (.value msg), p)) ∨
    (c.invalid = none ∧ c.alg = none ∧
      p.add hashlib c = (.ok (), { p with id := c.payloadId, category := c.category, raw := some c.raw })) ∨
    (∃ alg d, c.invalid = none ∧ c.alg = some alg ∧ digestGet hashlib c.raw alg = .ok d ∧
      p.add hashlib c =
        (.ok (), { p with id := c.payloadId, category := c.category, digest := some d, raw := some c.raw })) ∨
    (∃ alg x, c.invalid = none ∧ c.alg = some alg ∧ digestGet hashlib c.raw alg = .error x ∧
      p.add hashlib c = (.error x, { p with id := c.payloadId, category := c.category, raw := some c.raw })) := by
  unfold add
  cases hi : c.invalid with
  | some msg => exact .inl ⟨msg, rfl, rfl⟩
  | none =>
    cases ha : c.alg with
    | none => exact .inr (.inl ⟨rfl, rfl, rfl⟩)
    | some alg =>
      dsimp only
      cases hd : digestGet hashlib c.raw alg with
      | ok d => exact .inr (.inr (.inl ⟨alg, d, rfl, rfl, hd, rfl⟩))
      | error x => exact .inr (.inr (.inr ⟨alg, x, rfl, rfl, hd, rfl⟩))

/-! ## The property and its condition -/

/-- The digest is that of the raw bytes under an algorithm that a call has passed with them. -/
def DigestOf (calls : List AddPayload) (raw : Bytes) (digest : Option Bytes) : Prop :=
  digest = none ∨ ∃ c ∈ calls, ∃ alg d, c.alg = some alg ∧ c.raw = raw ∧ digestGet hashlib raw alg = .ok d ∧
    digest = some d

/-- The digest describes the payload. -/
def Described (calls : List AddPayload) (p : Payload) : Prop :=
  p.digest = none ∨ ∃ raw, p.raw = some raw ∧ DigestOf hashlib calls raw p.digest

def Event.add (e : Event) (c : AddPayload) : Event := (e.addPayload hashlib c).2

/-- After the call the digest describes the payload, and a call that raises has changed none of its fields. -/
def Describes (pre : List AddPayload) (e : Event) (c : AddPayload) : Prop :=
  Described hashlib (pre ++ [c]) (e.add hashlib c).data.payload ∧
    ∀ x, (e.addPayload hashlib c).1 = .error x → (e.add hashlib c).data.payload = e.data.payload

/-- The call neither replaces a payload without its digest nor has its digest refused after replacing it: with an
algorithm that raises the payload already is the one it passes, and without an algorithm the digest there is none or
already one of the raw bytes it passes. -/
def Harmless (pre : List AddPayload) (e : Event) (c : AddPayload) : Prop :=
  c.invalid = none →
    (∀ alg x, c.alg = some alg → digestGet hashlib c.raw alg = .error x →
      e.data.payload.id = c.payloadId ∧ e.data.payload.category = c.category ∧ e.data.payload.raw = some c.raw) ∧
    (c.alg = none → DigestOf hashlib pre c.raw e.data.payload.digest)

variable {hashlib}

theorem DigestOf.mono {calls calls' : List AddPayload} {raw : Bytes} {digest : Option Bytes}
    (h : DigestOf hashlib calls raw digest) (hsub : ∀ c ∈ calls, c ∈ calls') : DigestOf hashlib calls' raw digest := by
  rcases h with h | ⟨c, hc, h⟩
  · exact .inl h
  · exact .inr ⟨c, hsub c hc, h⟩

/-- A call without an algorithm adds no digest. -/
theorem DigestOf.of_concat {calls : List AddPayload} {c : AddPayload} {raw : Bytes} {digest : Option Bytes}
    (h : DigestOf hashlib (calls ++ [c]) raw digest) (hc : c.alg = none) : DigestOf hashlib calls raw digest := by
  rcases h with h | ⟨c', hm, alg, d, ha, h⟩
  · exact .inl h
  · rcases List.mem_append.1 hm with hm | hm
    · exact .inr ⟨c', hm, alg, d, ha, h⟩
    · rw [List.mem_singleton.1 hm, hc] at ha
      cases ha

theorem Described.mono {calls : List AddPayload} {p : Payload} (h : Described hashlib calls p) (c : AddPayload) :
    Described hashlib (calls ++ [c]) p := by
  rcases h with h | ⟨raw, hraw, h⟩
  · exact .inl h
  · exact .inr ⟨raw, hraw, h.mono fun _ hm => List.mem_append_left _ hm⟩

theorem described_raw {calls : List AddPayload} {p : Payload} {raw : Bytes} (h : p.raw = some raw) :
    Described hashlib calls p ↔ DigestOf hashlib calls raw p.digest := by
  constructor
  · rintro (hd | ⟨raw', hr, hd⟩)
    · exact .inl hd
    · rw [h] at hr
      cases hr
      exact hd
  · intro hd
    exact .inr ⟨raw, h, hd⟩

/-- **One call describes the payload exactly when it is harmless**, where the digest has described it so far. -/
theorem describes_iff {pre : List AddPayload} {e : Event} (h : Described hashlib pre e.data.payload) (c : AddPayload) :
    Describes hashlib pre e c ↔ Harmless hashlib pre e c := by
  unfold Describes Harmless Event.add Event.addPayload Event.setPayload
  dsimp only
  rcases e.data.payload.add_cases hashlib c with ⟨msg, hi, hadd⟩ | ⟨hi, ha, hadd⟩ | ⟨alg, d, hi, ha, hd, hadd⟩ |
    ⟨alg, x, hi, ha, hd, hadd⟩
  · rw [hadd, hi]
    exact iff_of_true ⟨h.mono c, fun _ _ => rfl⟩ (fun hn => by cases hn)
  · rw [hadd, described_raw rfl]
    constructor
    · intro hp _
      refine ⟨fun alg _ halg => ?_, fun _ => hp.1.of_concat ha⟩
      rw [ha] at halg
      cases halg
    · intro hc
      exact ⟨((hc hi).2 ha).mono fun _ hm => List.mem_append_left _ hm, fun _ hx => by cases hx⟩
  · rw [hadd, described_raw rfl]
    refine iff_of_true ⟨?_, fun _ hx => by cases hx⟩ (fun _ => ⟨fun alg' x halg hx => ?_, fun halg => ?_⟩)
    · exact .inr ⟨c, List.mem_append_right _ List.mem_cons_self, alg, d, ha, rfl, hd, rfl⟩
    · rw [ha] at halg
      cases halg
      rw [hd] at hx
      cases hx
    · rw [ha] at halg
      cases halg
  · rw [hadd]
    constructor
    · intro hp _
      have heq := hp.2 x rfl
      refine ⟨fun _ _ _ _ => ?_, fun halg => ?_⟩
      · rw [← heq]
        exact ⟨rfl, rfl, rfl⟩
      · rw [ha] at halg
        cases halg
    · intro hc
      obtain ⟨hid, hcat, hraw⟩ := (hc hi).1 alg x ha hd
      have heq : { e.data.payload with id := c.payloadId, category := c.category, raw := some c.raw } =
          e.data.payload := by
        cases hp : e.data.payload
        simp_all
      rw [heq]
      exact ⟨h.mono c, fun _ _ => rfl⟩

/-! ## Runs -/

/-- **In every run of `add_payload` on a new event the digest describes the payload after each call, and no call that
raises changes it, exactly when each call is harmless.** -/
theorem digest_describes_iff (hashlib : Hashlib) (id timestamp : String) (name src : Option String)
    (calls : List AddPayload) :
    Calls.Each (Event.add hashlib) (.new id timestamp name src) (Describes hashlib) calls ↔
      Calls.Each (Event.add hashlib) (.new id timestamp name src) (Harmless hashlib) calls :=
  Calls.each_iff (I := fun pre e => Described hashlib pre e.data.payload) (.inl rfl)
    (fun _ _ c h => describes_iff h c) (fun _ _ _ _ h => h.1) calls

/-- What `hashlib` answers on the bytes `x` under SHA-256; it is asked for nothing else here. -/
def sha256OfX : Hashlib := fun alg raw =>
  if alg = "sha256" ∧ raw = [120] then
    .ok [45, 113, 22, 66, 183, 38, 176, 68, 1, 98, 124, 169, 251, 172, 50, 245, 200, 83, 15, 177, 144, 60, 196, 219, 2,
      37, 135, 23, 146, 26, 72, 129]
  else .error (.library "unsupported")

/-- A refused algorithm leaves the call's id, category and raw bytes behind, and a call without an algorithm leaves the
digest of the raw bytes before it. -/
theorem digest_stale :
    ¬ Calls.Each (Event.add sha256OfX) (.new "e" "t" none none) (Describes sha256OfX) [⟨"p", "c", [120], some "md5"⟩] ∧
    ¬ Calls.Each (Event.add sha256OfX) (.new "e" "t" none none) (Describes sha256OfX)
      [⟨"p", "c", [120], some "sha256"⟩, ⟨"p", "c", [121], none⟩] := by
  constructor
  · intro h
    have hp := (h [] ⟨"p", "c", [120], some "md5"⟩ [] rfl).2 _ rfl
    exact absurd (congrArg Payload.id hp) (by decide)
  · intro h
    have hp := (h [⟨"p", "c", [120], some "sha256"⟩] ⟨"p", "c", [121], none⟩ [] rfl).1
    have hdigest : DigestOf sha256OfX _ [121] _ := (described_raw rfl).1 hp
    rcases hdigest with hp | ⟨c, hc, alg, d, halg, hraw, -⟩
    · exact absurd hp (by decide)
    · simp only [List.cons_append, List.nil_append, List.mem_cons, List.not_mem_nil, or_false] at hc
      rcases hc with rfl | rfl
      · exact absurd hraw (by decide)
      · cases halg

end Signed
end Pypepper
