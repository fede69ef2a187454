import Pypepper.EventSignature
/-!
# EventMarshal — what travels in the text of an event

`marshal` puts the canonical document and the base64 of the signature into one compact text.  The text holds the signed
bytes literally, `unmarshal` reads the event back, and whoever holds only the text verifies what the sender signed.
-/
namespace Pypepper
namespace Signed

/-! ## The text -/

/-- The signature that travels: an empty one is falsy and goes as none. -/
def Event.sent (e : Event) : Option Bytes := e.signature.filter fun sig => decide (sig ≠ [])

/-- The document `marshal` dumps. -/
def Event.envelope (e : Event) : Py.Json := .obj [("data", e.data.toDict), ("signature", bytesJson e.sent)]

def Event.marshal (e : Event) : String := Py.Json.dumpsCompact false e.envelope.sortKeys

theorem Event.sortKeys_envelope (e : Event) : e.envelope.sortKeys =
    .obj [("data", e.data.toDict.sortKeys), ("signature", bytesJson e.sent)] := by
  simp [envelope, Py.Json.sortKeys, Py.Json.sortMembers, Py.Json.insertKey, Py.Json.keyBefore, bytesJson]

theorem Event.wf_sortKeys_envelope (e : Event) : e.envelope.sortKeys.Wf := by
  rw [sortKeys_envelope]
  simp [Py.Json.Wf, Py.Json.WfMembers, e.data.wf_sortKeys_toDict, wf_textJson, bytesJson]

/-- **The signed text stands in the marshaled one**, between the two member names. -/
theorem Event.marshal_eq (e : Event) : e.marshal =
    "\x7b\"data\":" ++ Py.Json.dumpsCompact false e.data.toDict.sortKeys ++ ",\"signature\":" ++
      Py.Json.dumpsCompact false (bytesJson e.sent) ++ "\x7d" := by
  have hdata : Py.Json.encodeString false "data" = "\"data\"".toList := by decide
  have hsig : Py.Json.encodeString false "signature" = "\"signature\"".toList := by decide
  apply String.toList_inj.1
  simp only [marshal, sortKeys_envelope, Py.Json.dumpsCompact, String.toList_append, String.toList_ofList,
    Py.Json.encodeWith, Py.Json.encodeMembersWith, Py.Json.separatorWith, hdata, hsig]
  simp

/-! ## Reading it back -/

def member (k : String) : Py.Json → Option Py.Json
  | .obj ms => Py.Dict.lookup k ms
  | _       => none

/-- A text or `null`. -/
def textOf : Py.Json → Option (Option String)
  | .null  => some none
  | .str s => some (some s)
  | _      => none

def stringOf (j : Py.Json) : Option String := (textOf j).join

/-- The bytes of a base64 text, or `null`. -/
def bytesOf (j : Py.Json) : Option (Option Bytes) := do
  match ← textOf j with
  | none   => some none
  | some s => (Py.b64decode s).map some

def Header.ofDict (j : Py.Json) : Option Header := do
  let id ← (member "id" j).bind stringOf
  let nameSpace ← (member "namespace" j).bind stringOf
  let timestamp ← (member "timestamp" j).bind stringOf
  let version ← (member "version" j).bind stringOf
  let requestId ← (member "request_id" j).bind textOf
  let sender ← (member "sender" j).bind stringOf
  some { id, nameSpace, timestamp, version, requestId, sender }

def Payload.ofDict (j : Py.Json) : Option Payload := do
  let id ← (member "id" j).bind stringOf
  let category ← (member "category" j).bind stringOf
  let digest ← (member "digest" j).bind bytesOf
  let raw ← (member "raw" j).bind bytesOf
  some { id, category, digest, raw }

def Data.ofDict (j : Py.Json) : Option Data := do
  let flow ← (member "flow" j).bind stringOf
  let name ← (member "name" j).bind stringOf
  let src ← (member "src" j).bind stringOf
  let header ← (member "header" j).bind Header.ofDict
  let payload ← (member "payload" j).bind Payload.ofDict
  some { flow, name, src, header, payload }

/-- The event a text describes. -/
def Event.unmarshal (text : String) : Option Event := do
  let envelope ← Py.Json.loads text
  let data ← (member "data" envelope).bind Data.ofDict
  let signature ← (member "signature" envelope).bind bytesOf
  some { data, signature }

@[simp] theorem textOf_textJson (o : Option String) : textOf (textJson o) = some o := by
  cases o <;> rfl

@[simp] theorem stringOf_str (s : String) : stringOf (.str s) = some s := rfl

@[simp] theorem bytesOf_bytesJson (o : Option Bytes) : bytesOf (bytesJson o) = some o := by
  cases o with
  | none       => rfl
  | some bytes =>
    change (Py.b64decode (Py.b64encode bytes)).map some = some (some bytes)
    rw [Py.b64decode_b64encode]
    rfl

theorem Data.ofDict_sortKeys (d : Data) : ofDict d.toDict.sortKeys = some d := by
  rw [sortKeys_toDict]
  simp [ofDict, Header.ofDict, Payload.ofDict, member, Py.Dict.lookup]

/-- **A marshaled event is read back**, but for an empty signature. -/
theorem Event.unmarshal_marshal (e : Event) :
    unmarshal e.marshal = some { e with signature := e.sent } := by
  rw [unmarshal, marshal, Py.Json.loads_dumpsCompact false _ e.wf_sortKeys_envelope, sortKeys_envelope]
  simp [member, Py.Dict.lookup, Data.ofDict_sortKeys]

/-! ## The receiver -/

theorem utf8_append (s t : String) : utf8 (s ++ t) = utf8 s ++ utf8 t := by
  simp [utf8, String.toByteArray_append]

/-- The signed bytes are a part of the text's bytes. -/
theorem Event.utf8_marshal (e : Event) :
    ∃ rest, utf8 e.marshal = utf8 "\x7b\"data\":" ++ e.data.canonicalBytes ++ rest := by
  refine ⟨utf8 ",\"signature\":" ++ utf8 (Py.Json.dumpsCompact false (bytesJson e.sent)) ++ utf8 "\x7d", ?_⟩
  rw [marshal_eq]
  simp only [utf8_append, List.append_assoc, Data.canonicalBytes]

theorem Event.marshal_inj {e₁ e₂ : Event} : e₁.marshal = e₂.marshal ↔ e₁.data = e₂.data ∧ e₁.sent = e₂.sent := by
  constructor
  · intro h
    have hread := unmarshal_marshal e₁
    rw [h, unmarshal_marshal e₂, Option.some.injEq] at hread
    exact ⟨(congrArg Event.data hread).symm, (congrArg Event.signature hread).symm⟩
  · rintro ⟨hdata, hsent⟩
    rw [marshal, marshal, envelope, envelope, hdata, hsent]

/-- What the holder of a text alone checks. -/
def receive (S : Ecdsa) (text : String) (certificate : Bytes) (hashAlg : String) : Except Error Bool :=
  match Event.unmarshal text with
  | none   => .ok false
  | some e => e.verify S certificate hashAlg

/-- A text under one of the sender's signatures is accepted exactly when its data is what was signed. -/
theorem receive_signed {S : Ecdsa} {key certificate : Bytes} {hashAlg : String} {passphrase : Option Bytes}
    (hS : S.Ideal key certificate hashAlg passphrase) {e : Event} {sig : Bytes}
    (h : (e.sign S key hashAlg passphrase).1 = .ok sig) {text : String} {e' : Event}
    (hread : Event.unmarshal text = some e') (hsig : e'.signature = some sig) :
    receive S text certificate hashAlg = .ok (decide (e'.data = e.data)) := by
  simp only [receive, hread, Event.verify, hsig]
  rw [hS _ _ (Event.sign_signature h).1, decide_eq_decide.2 Data.canonicalBytes_inj]

/-- A text that is no event's, or that has no signature, is refused. -/
theorem receive_unsigned (S : Ecdsa) {text : String} (certificate : Bytes) (hashAlg : String)
    (h : ∀ e' : Event, Event.unmarshal text = some e' → e'.signature = none) :
    receive S text certificate hashAlg = .ok false := by
  rw [receive]
  cases hread : Event.unmarshal text with
  | none    => rfl
  | some e' =>
    have hnone := h e' hread
    simp only [Event.verify, hnone]

/-- A signed event, changed and marshaled, as its receiver finds it. -/
theorem receive_marshal (hashlib : Hashlib) {S : Ecdsa} {key certificate : Bytes} {hashAlg : String}
    {passphrase : Option Bytes} (hS : S.Ideal key certificate hashAlg passphrase) {e : Event} {sig : Bytes}
    (h : (e.sign S key hashAlg passphrase).1 = .ok sig) (l : List Change) :
    receive S ((e.sign S key hashAlg passphrase).2.changes hashlib l).marshal certificate hashAlg =
      .ok (decide (sig ≠ [] ∧ ((e.sign S key hashAlg passphrase).2.changes hashlib l).data = e.data)) := by
  have hread := Event.unmarshal_marshal ((e.sign S key hashAlg passphrase).2.changes hashlib l)
  rw [Event.sent, Event.changes_signature, (Event.sign_signature h).2] at hread
  by_cases hempty : sig = []
  · rw [Option.filter_some, if_neg (by simp [hempty])] at hread
    simp [receive, hread, Event.verify, hempty]
  · rw [Option.filter_some, if_pos (by simp [hempty])] at hread
    rw [receive_signed hS h hread rfl]
    simp [hempty]

/-- **A marshaled event carries all that was signed**: the text holds the signed bytes literally, it is read back as the
event, two events share a text only when they share data and signature, and a text with no signature is refused.  Under an
ideal scheme whoever holds a text alone, one that still carries the signature, accepts it exactly when its data is what was
signed, whatever else was done to the text, or to the event before it was marshaled. -/
theorem marshal_carries (hashlib : Hashlib) {S : Ecdsa} {key certificate : Bytes} {hashAlg : String}
    {passphrase : Option Bytes} (hS : S.Ideal key certificate hashAlg passphrase) :
    (∀ e : Event, ∃ rest, utf8 e.marshal = utf8 "\x7b\"data\":" ++ e.data.canonicalBytes ++ rest) ∧
    (∀ e : Event, Event.unmarshal e.marshal = some { e with signature := e.sent }) ∧
    (∀ e₁ e₂ : Event, e₁.marshal = e₂.marshal ↔ e₁.data = e₂.data ∧ e₁.sent = e₂.sent) ∧
    (∀ text : String, (∀ e' : Event, Event.unmarshal text = some e' → e'.signature = none) →
      receive S text certificate hashAlg = .ok false) ∧
    ∀ (e : Event) (sig : Bytes), (e.sign S key hashAlg passphrase).1 = .ok sig →
      (∀ (text : String) (e' : Event), Event.unmarshal text = some e' → e'.signature = some sig →
        receive S text certificate hashAlg = .ok (decide (e'.data = e.data))) ∧
      ∀ l : List Change,
        receive S ((e.sign S key hashAlg passphrase).2.changes hashlib l).marshal certificate hashAlg =
          .ok (decide (sig ≠ [] ∧ ((e.sign S key hashAlg passphrase).2.changes hashlib l).data = e.data)) := by
  refine ⟨Event.utf8_marshal, Event.unmarshal_marshal, fun _ _ => Event.marshal_inj, ?_, ?_⟩
  · intro text h
    exact receive_unsigned S certificate hashAlg h
  intro e sig h
  constructor
  · intro text e' hread hsig
    exact receive_signed hS h hread hsig
  · intro l
    exact receive_marshal hashlib hS h l

/-- The scheme whose signature is the signed bytes after a mark. -/
def Ecdsa.marked : Ecdsa where
  sign m _ _ _     := .ok (0 :: m)
  verify m _ sig _ := .ok (decide (0 :: m = sig))

theorem Ecdsa.marked_ideal (key certificate : Bytes) (hashAlg : String) (passphrase : Option Bytes) :
    marked.Ideal key certificate hashAlg passphrase := by
  intro m sig h m'
  cases h
  simp [marked]

/-- Renamed after it was signed, an event is marshaled and refused; named back, it is accepted. -/
theorem marshal_carries_rename :
    receive .marked (((Event.new "e1" "t" (some "a") none).sign .marked [1] "sha256" none).2.changes
      (fun _ _ => .ok []) [.name "b"]).marshal [2] "sha256" = .ok false ∧
    receive .marked (((Event.new "e1" "t" (some "a") none).sign .marked [1] "sha256" none).2.changes
      (fun _ _ => .ok []) [.name "b", .name "a"]).marshal [2] "sha256" = .ok true := by
  have h := ((marshal_carries (fun _ _ => .ok []) (Ecdsa.marked_ideal [1] [2] "sha256" none)).2.2.2.2
    (Event.new "e1" "t" (some "a") none) _ rfl).2
  constructor
  · rw [h]
    simp [Event.sign, Ecdsa.marked, Event.changes, Event.change, Event.setName, Event.new]
  · rw [h]
    simp [Event.sign, Ecdsa.marked, Event.changes, Event.change, Event.setName, Event.new]

end Signed
end Pypepper
