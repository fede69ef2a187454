import Pypepper.JsonRoundTrip
import Pypepper.SignedEvent
/-!
# EventSignature — what a signature binds

The canonical bytes of an event's data are injective: the sorted document, its compact text and that text's bytes can
each be read back.  Under an ideal scheme a signed event, changed by any setters and payload calls, verifies exactly when
its data is the data that was signed.
-/
namespace Pypepper
namespace Signed

/-! ## The document -/

@[simp] theorem sortKeys_textJson (o : Option String) : (textJson o).sortKeys = textJson o := by
  cases o <;> rfl

theorem textJson_injective : Function.Injective textJson := by
  intro a b h
  cases a <;> cases b
  · rfl
  · cases h
  · cases h
  · exact congrArg some (Py.Json.str.inj h)

theorem bytesJson_injective : Function.Injective bytesJson := by
  intro a b h
  exact Option.map_injective (fun _ _ => Py.b64encode_injective) (textJson_injective h)

theorem wf_textJson (o : Option String) : (textJson o).Wf := by
  cases o <;> trivial

/-- The document with its keys in order. -/
theorem Data.sortKeys_toDict (d : Data) : d.toDict.sortKeys =
    .obj
      [ ("flow", .str d.flow),
        ("header", .obj
          [ ("id", .str d.header.id), ("namespace", .str d.header.nameSpace),
            ("request_id", textJson d.header.requestId), ("sender", .str d.header.sender),
            ("timestamp", .str d.header.timestamp), ("version", .str d.header.version) ]),
        ("name", .str d.name),
        ("payload", .obj
          [ ("category", .str d.payload.category), ("digest", bytesJson d.payload.digest),
            ("id", .str d.payload.id), ("raw", bytesJson d.payload.raw) ]),
        ("src", .str d.src) ] := by
  simp [Data.toDict, Py.Json.sortKeys, Py.Json.sortMembers, Py.Json.insertKey, Py.Json.keyBefore, bytesJson]

theorem Data.wf_sortKeys_toDict (d : Data) : d.toDict.sortKeys.Wf := by
  rw [sortKeys_toDict]
  simp [Py.Json.Wf, Py.Json.WfMembers, wf_textJson, bytesJson]

theorem Data.sortKeys_toDict_injective {d e : Data} (h : d.toDict.sortKeys = e.toDict.sortKeys) : d = e := by
  rw [sortKeys_toDict, sortKeys_toDict] at h
  simp only [Py.Json.obj.injEq, List.cons.injEq, Prod.mk.injEq, Py.Json.str.injEq, true_and, and_true,
    textJson_injective.eq_iff, bytesJson_injective.eq_iff] at h
  obtain ⟨hflow, ⟨hid, hns, hreq, hsender, htime, hversion⟩, hname, ⟨hcat, hdigest, hpid, hraw⟩, hsrc⟩ := h
  have hheader : d.header = e.header := by
    cases hd : d.header
    cases he : e.header
    simp_all
  have hpayload : d.payload = e.payload := by
    cases hd : d.payload
    cases he : e.payload
    simp_all
  cases d
  cases e
  simp_all

theorem utf8_injective : Function.Injective utf8 := by
  intro s t h
  exact String.toByteArray_inj.1 (ByteArray.ext (Array.toList_inj.1 h))

/-- **The canonical bytes are those of one data.** -/
theorem Data.eq_of_canonicalBytes {d e : Data} (h : d.canonicalBytes = e.canonicalBytes) : d = e :=
  sortKeys_toDict_injective
    (Py.Json.dumpsCompact_injective d.wf_sortKeys_toDict e.wf_sortKeys_toDict (utf8_injective h))

theorem Data.canonicalBytes_inj {d e : Data} : d.canonicalBytes = e.canonicalBytes ↔ d = e := by
  constructor
  · exact eq_of_canonicalBytes
  · intro h
    rw [h]

/-! ## Changes of a signed event -/

inductive Change where
  | eventId (id : String)
  | eventNamespace (nameSpace : String)
  | eventVersion (version : String)
  | requestId (reqId : Option String)
  | sender (sender : String)
  | flow (flow : String)
  | name (name : String)
  | src (src : String)
  | payload (payload : Payload)
  | addPayload (c : AddPayload)

namespace Event

variable (hashlib : Hashlib)

/-- One call; an `add_payload` may raise. -/
def change (e : Event) : Change → Event
  | .eventId id               => e.setEventId id
  | .eventNamespace nameSpace => e.setEventNamespace nameSpace
  | .eventVersion version     => e.setEventVersion version
  | .requestId reqId          => e.setRequestId reqId
  | .sender sender            => e.setSender sender
  | .flow flow                => e.setFlow flow
  | .name name                => e.setName name
  | .src src                  => e.setSrc src
  | .payload payload          => e.setPayload payload
  | .addPayload c             => (e.addPayload hashlib c).2

def changes (e : Event) (l : List Change) : Event := l.foldl (change hashlib) e

theorem change_signature (e : Event) (c : Change) : (e.change hashlib c).signature = e.signature := by
  cases c <;> rfl

theorem changes_signature : ∀ (l : List Change) (e : Event), (e.changes hashlib l).signature = e.signature
  | [], _ => rfl
  | c :: l, e => (changes_signature l (e.change hashlib c)).trans (change_signature hashlib e c)

end Event

/-! ## The signature -/

/-- An ideal scheme, for a matching pair of keys and an algorithm: exactly the signed bytes are accepted. -/
def Ecdsa.Ideal (S : Ecdsa) (key certificate : Bytes) (hashAlg : String) (passphrase : Option Bytes) : Prop :=
  ∀ m sig, S.sign m key hashAlg passphrase = .ok sig →
    ∀ m', S.verify m' certificate sig hashAlg = .ok (decide (m' = m))

theorem Event.sign_signature {S : Ecdsa} {e : Event} {key sig : Bytes} {hashAlg : String} {passphrase : Option Bytes}
    (h : (e.sign S key hashAlg passphrase).1 = .ok sig) :
    S.sign e.data.canonicalBytes key hashAlg passphrase = .ok sig ∧
      (e.sign S key hashAlg passphrase).2.signature = some sig := by
  unfold sign at h ⊢
  cases hs : S.sign e.data.canonicalBytes key hashAlg passphrase with
  | error x =>
    rw [hs] at h
    cases h
  | ok s =>
    rw [hs] at h
    cases h
    exact ⟨rfl, rfl⟩

/-- **A signature binds every field of an event**: the canonical bytes are injective, and a signed event verifies, after
any changes, exactly when its data is the data it was signed with. -/
theorem Event.signature_binds (hashlib : Hashlib) {S : Ecdsa} {key certificate : Bytes} {hashAlg : String}
    {passphrase : Option Bytes} (hS : S.Ideal key certificate hashAlg passphrase) :
    (∀ d₁ d₂ : Data, d₁.canonicalBytes = d₂.canonicalBytes → d₁ = d₂) ∧
    ∀ (e : Event) (sig : Bytes) (l : List Change), (e.sign S key hashAlg passphrase).1 = .ok sig →
      ((e.sign S key hashAlg passphrase).2.changes hashlib l).verify S certificate hashAlg =
        .ok (decide (((e.sign S key hashAlg passphrase).2.changes hashlib l).data = e.data)) := by
  constructor
  · intro d₁ d₂ h
    exact Data.eq_of_canonicalBytes h
  · intro e sig l h
    obtain ⟨hsign, hsig⟩ := sign_signature h
    have hverify : ∀ d : Data, S.verify d.canonicalBytes certificate sig hashAlg = .ok (decide (d = e.data)) := by
      intro d
      rw [hS _ _ hsign, decide_eq_decide.2 Data.canonicalBytes_inj]
    rw [verify, changes_signature, hsig]
    exact hverify _

/-- The scheme whose signature is the signed bytes. -/
def Ecdsa.plain : Ecdsa where
  sign m _ _ _      := .ok m
  verify m _ sig _  := .ok (decide (m = sig))

theorem Ecdsa.plain_ideal (key certificate : Bytes) (hashAlg : String) (passphrase : Option Bytes) :
    plain.Ideal key certificate hashAlg passphrase := by
  intro m sig h m'
  cases h
  rfl

/-- An event signed, renamed, and named back. -/
theorem Event.signature_binds_rename :
    (((new "e1" "t" (some "a") none).sign .plain [1] "sha256" none).2.changes (fun _ _ => .ok []) [.name "b"]).verify
      .plain [2] "sha256" = .ok false ∧
    (((new "e1" "t" (some "a") none).sign .plain [1] "sha256" none).2.changes (fun _ _ => .ok [])
      [.name "b", .name "a"]).verify .plain [2] "sha256" = .ok true := by
  have h := fun l => (signature_binds (fun _ _ => .ok []) (Ecdsa.plain_ideal [1] [2] "sha256" none)).2
    (new "e1" "t" (some "a") none) _ l rfl
  constructor
  · rw [h]
    congr 1
  · rw [h]
    congr 1

end Signed
end Pypepper
