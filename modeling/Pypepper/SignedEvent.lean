import Pypepper.Base64
import Pypepper.JsonText
/-!
# SignedEvent — domain events, their payload and their signature

`event/event.py`: an event's data, the setters, `add_payload` with the digest of `crypto/digest.py`, and the canonical
bytes that `sign` signs and `verify` checks.  `hashlib` and the elliptic curve scheme are the caller's: what they answer
is a parameter.
-/
namespace Pypepper
namespace Signed

abbrev Bytes := List UInt8

structure Header where
  id        : String
  nameSpace : String := ""
  timestamp : String
  version   : String := "1"
  requestId : Option String := some ""
  sender    : String := ""
  deriving DecidableEq

structure Payload where
  id       : String := ""
  category : String := ""
  digest   : Option Bytes := none
  raw      : Option Bytes := none
  deriving DecidableEq

structure Data where
  flow    : String := ""
  name    : String := ""
  src     : String := ""
  header  : Header
  payload : Payload := {}
  deriving DecidableEq

structure Event where
  data      : Data
  signature : Option Bytes := none

/-- What a call raises: its own `ValueError`, or what `hashlib` or the signature library raises. -/
inductive Error where
  | value (msg : String)
  | library (msg : String)
  deriving DecidableEq

/-! ## The setters -/

namespace Event

def mapHeader (e : Event) (f : Header → Header) : Event := { e with data := { e.data with header := f e.data.header } }

def setEventId (e : Event) (id : String) : Event := e.mapHeader fun h => { h with id := id }

def setEventNamespace (e : Event) (nameSpace : String) : Event := e.mapHeader fun h => { h with nameSpace := nameSpace }

def setEventVersion (e : Event) (version : String) : Event := e.mapHeader fun h => { h with version := version }

def setRequestId (e : Event) (reqId : Option String) : Event := e.mapHeader fun h => { h with requestId := reqId }

def setSender (e : Event) (sender : String) : Event := e.mapHeader fun h => { h with sender := sender }

def setFlow (e : Event) (flow : String) : Event := { e with data := { e.data with flow := flow } }

def setName (e : Event) (name : String) : Event := { e with data := { e.data with name := name } }

def setSrc (e : Event) (src : String) : Event := { e with data := { e.data with src := src } }

def setPayload (e : Event) (payload : Payload) : Event := { e with data := { e.data with payload := payload } }

/-- `event.new`, with the id and the time it draws. -/
def new (id timestamp : String) (name src : Option String) : Event :=
  { data := { name := name.getD "", src := src.getD "", header := { id := id, timestamp := timestamp } } }

end Event

/-! ## The digest and `add_payload` -/

/-- `hashlib`: the digest of some bytes under an algorithm, or what it raises. -/
abbrev Hashlib := String → Bytes → Except Error Bytes

def lower (s : String) : String := String.ofList (s.toList.map Char.toLower)

def rejectedDigestAlgs : List String := ["md5", "sha1"]

def errorDigestNotAllowed (alg : String) : String :=
  "digest algorithm '" ++ alg ++ "' is not allowed; use sha256 or stronger"

/-- `digest.get`. -/
def digestGet (hashlib : Hashlib) (raw : Bytes) (alg : String) : Except Error Bytes :=
  if rejectedDigestAlgs.contains (lower alg) then .error (.value (errorDigestNotAllowed alg)) else hashlib alg raw

/-- The arguments of one `add_payload`; an empty algorithm is none. -/
structure AddPayload where
  payloadId : String
  category  : String
  raw       : Bytes
  hashAlg   : Option String := none

def AddPayload.invalid (c : AddPayload) : Option String :=
  if c.payloadId = "" then some "payload ID is empty"
  else if c.category = "" then some "category is empty"
  else if c.raw = [] then some "payload raw is empty"
  else none

def AddPayload.alg (c : AddPayload) : Option String := c.hashAlg.filter (fun a => decide (a ≠ ""))

/-- `add_payload` on the payload: the id, the category and the raw bytes are assigned before the digest is asked for. -/
def Payload.add (hashlib : Hashlib) (p : Payload) (c : AddPayload) : Except Error Unit × Payload :=
  match c.invalid with
  | some msg => (.error (.value msg), p)
  | none     =>
    let p := { p with id := c.payloadId, category := c.category, raw := some c.raw }
    match c.alg with
    | none     => (.ok (), p)
    | some alg =>
      match digestGet hashlib c.raw alg with
      | .ok d    => (.ok (), { p with digest := some d })
      | .error x => (.error x, p)

def Event.addPayload (hashlib : Hashlib) (e : Event) (c : AddPayload) : Except Error Unit × Event :=
  ((e.data.payload.add hashlib c).1, e.setPayload (e.data.payload.add hashlib c).2)

/-! ## The canonical bytes -/

/-- A text field that may be absent. -/
def textJson : Option String → Py.Json
  | none   => .null
  | some s => .str s

/-- Bytes as the text of their base64. -/
def bytesJson (b : Option Bytes) : Py.Json := textJson (b.map Py.b64encode)

/-- `_data_to_dict`. -/
def Data.toDict (d : Data) : Py.Json :=
  .obj
    [ ("flow", .str d.flow), ("name", .str d.name), ("src", .str d.src),
      ("header", .obj
        [ ("id", .str d.header.id), ("namespace", .str d.header.nameSpace), ("timestamp", .str d.header.timestamp),
          ("version", .str d.header.version), ("request_id", textJson d.header.requestId),
          ("sender", .str d.header.sender) ]),
      ("payload", .obj
        [ ("id", .str d.payload.id), ("category", .str d.payload.category), ("digest", bytesJson d.payload.digest),
          ("raw", bytesJson d.payload.raw) ]) ]

def utf8 (s : String) : Bytes := s.toUTF8.data.toList

/-- `_canonical_bytes`: compact, with sorted keys, nothing but what JSON wants escaped. -/
def Data.canonicalBytes (d : Data) : Bytes := utf8 (Py.Json.dumpsCompact false d.toDict.sortKeys)

/-! ## Signing and verifying -/

/-- The signature scheme: what it signs under a private key, and what it accepts under a public one. -/
structure Ecdsa where
  sign   : Bytes → Bytes → String → Option Bytes → Except Error Bytes
  verify : Bytes → Bytes → Bytes → String → Except Error Bool

namespace Event

def sign (S : Ecdsa) (e : Event) (certificate : Bytes) (hashAlg : String) (passphrase : Option Bytes) :
    Except Error Bytes × Event :=
  match S.sign e.data.canonicalBytes certificate hashAlg passphrase with
  | .ok sig  => (.ok sig, { e with signature := some sig })
  | .error x => (.error x, e)

def verify (S : Ecdsa) (e : Event) (certificate : Bytes) (hashAlg : String) : Except Error Bool :=
  match e.signature with
  | none     => .ok false
  | some sig => S.verify e.data.canonicalBytes certificate sig hashAlg

end Event
end Signed
end Pypepper
