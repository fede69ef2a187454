import Pypepper.JobStoreConfig
import Pypepper.RateLimit
/-!
# SseGate — API keys at the door

`require_sse_api_key` of `sse/security.py`.  A request is refused with 503, 401 or 429 or reaches the handler, except
where the keys are compared: `hmac.compare_digest` raises for a text that is not ASCII, and nothing catches it
(`gate_iff`).
-/
namespace Pypepper
namespace SseSecurity

open Ttl (TTLCache)
open RateLimit (checkRateLimit rateLimitKey)

/-- `sse.authentication`; a valid key that is no text is `none`. -/
structure Authentication where
  enabled   : Bool
  validKeys : Option (List (Option String))

structure Config where
  authentication : Authentication
  rateLimit      : RateLimit.Config

/-- A request: two of its headers, and the host of its client. -/
structure Request where
  xApiKey       : Option String
  authorization : Option String
  clientHost    : Option String

/-- The manager's cache of counters, and what was warned of. -/
structure Security (T : TTLCache String Int) where
  cache                : T.State
  authDisabledWarned   : Bool := false
  authOffBlockedWarned : Bool := false
  log                  : List String := []

structure HTTPException where
  statusCode : Nat
  detail     : String
  headers    : List (String × String) := []

/-- How a call of the wrapper ends: it raises `HTTPException`, it raises `TypeError`, or it calls the handler, with the
key and the client's host that it has stored in the request's state. -/
inductive Outcome where
  | http (e : HTTPException)
  | typeError (msg : String)
  | handler (apiKey : Option String) (clientIp : Option String)

/-! ## Authentication off -/

def authOffTruthy : List String := ["1", "true", "yes", "on"]

/-- `str.lower`, as far as a text of ASCII letters is looked for in it: no other character is lowered to one of theirs. -/
def lower (s : String) : String := String.ofList (s.toList.map Char.toLower)

/-- `_auth_off_allowed`, for the value of the environment variable. -/
def authOffAllowed (env : Option String) : Bool := authOffTruthy.contains (lower (StoreConfig.strip (env.getD "")))

def authOffBlockedDetail : String :=
  "SSE authentication cannot be disabled without PYPEPPER_SSE_ALLOW_AUTH_OFF=1 (or true/yes/on); " ++
    "set sse.authentication.enabled: true and inject validKeys, " ++
    "or export PYPEPPER_SSE_ALLOW_AUTH_OFF=1 for local experiments only"

def authDisabledWarning : String :=
  "sse.authentication.enabled is false and PYPEPPER_SSE_ALLOW_AUTH_OFF is set: any non-empty API key is accepted; " ++
    "rate limiting buckets by presented key and is not a security boundary. " ++
    "Enable authentication and inject validKeys for production."

def authOffBlockedWarning : String :=
  "sse.authentication.enabled is false but PYPEPPER_SSE_ALLOW_AUTH_OFF is not set: rejecting requests. " ++
    "Export PYPEPPER_SSE_ALLOW_AUTH_OFF=1 to allow auth-off locally, or enable authentication and inject validKeys."

namespace Security

variable {T : TTLCache String Int} (s : Security T)

def warnAuthDisabledOnce : Security T :=
  if s.authDisabledWarned then s else { s with authDisabledWarned := true, log := s.log ++ [authDisabledWarning] }

def warnAuthOffBlockedOnce : Security T :=
  if s.authOffBlockedWarned then s else { s with authOffBlockedWarned := true, log := s.log ++ [authOffBlockedWarning] }

@[simp] theorem cache_warnAuthDisabledOnce : s.warnAuthDisabledOnce.cache = s.cache := by
  unfold warnAuthDisabledOnce
  split <;> rfl

@[simp] theorem cache_warnAuthOffBlockedOnce : s.warnAuthOffBlockedOnce.cache = s.cache := by
  unfold warnAuthOffBlockedOnce
  split <;> rfl

end Security

/-! ## Keys -/

def Ascii (s : String) : Prop := ∀ c ∈ s.toList, c.toNat < 128

instance (s : String) : Decidable (Ascii s) := List.decidableBAll _ _

/-- `hmac.compare_digest` of two texts. -/
def compareDigest (a b : String) : Except String Bool :=
  if Ascii a ∧ Ascii b then .ok (decide (a = b))
  else .error "comparing strings with non-ASCII characters is not supported"

/-- `any(compare_digest(api_key, key) for key in valid_keys if isinstance(key, str))`. -/
def anyMatch (apiKey : String) : List (Option String) → Except String Bool
  | []               => .ok false
  | none :: keys     => anyMatch apiKey keys
  | some key :: keys =>
    match compareDigest apiKey key with
    | .error e  => .error e
    | .ok true  => .ok true
    | .ok false => anyMatch apiKey keys

/-- The token of `Authorization: Bearer token`. -/
def bearer (authorization : String) : String :=
  if (lower authorization).toList.take 7 = "bearer ".toList then
    StoreConfig.strip (String.ofList (authorization.toList.drop 7))
  else ""

/-- The key a request presents: its `X-API-Key`, or its Bearer token. -/
def Request.apiKey (r : Request) : Option String :=
  (r.xApiKey.filter (· ≠ "")).or ((some (bearer (r.authorization.getD ""))).filter (· ≠ ""))

/-! ## The gate -/

section

variable {T : TTLCache String Int} (cfg : Config) (env : Option String)

/-- `_validate_api_key`. -/
def validateApiKey (apiKey : Option String) (s : Security T) : Except String Bool × Security T :=
  match apiKey.filter (· ≠ "") with
  | none     => (.ok false, s)
  | some key =>
    if !cfg.authentication.enabled then
      if !authOffAllowed env then (.ok false, s.warnAuthOffBlockedOnce) else (.ok true, s.warnAuthDisabledOnce)
    else (anyMatch key (cfg.authentication.validKeys.getD []), s)

/-- `require_sse_api_key`'s wrapper, at the time `now`. -/
def requireSseApiKey (now : ℚ) (r : Request) (s : Security T) : Outcome × Security T :=
  if !cfg.authentication.enabled && !authOffAllowed env then
    (.http { statusCode := 503, detail := authOffBlockedDetail }, s.warnAuthOffBlockedOnce)
  else
    match validateApiKey cfg env r.apiKey s with
    | (.error msg, s) => (.typeError msg, s)
    | (.ok false, s)  =>
      (.http { statusCode := 401, detail := "Invalid or missing API key", headers := [("WWW-Authenticate", "Bearer")] }, s)
    | (.ok true, s)   =>
      match checkRateLimit T cfg.rateLimit now (r.apiKey.getD "") s.cache with
      | (false, cache) =>
        (.http { statusCode := 429
                 detail := "Rate limit exceeded (max " ++ toString cfg.rateLimit.maxRequestsPerMinute ++
                   " requests/minute)" }, { s with cache := cache })
      | (true, cache)  => (.handler r.apiKey r.clientHost, { s with cache := cache })

/-! ## What the gate is to do -/

/-- The key a request presents, empty when it has none. -/
def Request.key (r : Request) : String := r.apiKey.getD ""

/-- The request passes authentication: it has a key, a valid one, or any with authentication off by permission. -/
def Passes (r : Request) : Prop :=
  r.key ≠ "" ∧ if cfg.authentication.enabled then some r.key ∈ cfg.authentication.validKeys.getD []
    else authOffAllowed env = true

/-- The wrapper raises one of three `HTTPException`s or calls the handler: that for a request that passes authentication
and the rate limit.  It assigns no counter but the key's, and that for a request that passes authentication. -/
structure Gated (now : ℚ) (r : Request) (s : Security T) : Prop where
  outcome : (∃ e, (requireSseApiKey cfg env now r s).1 = .http e ∧ e.statusCode ∈ [503, 401, 429]) ∨
    ∃ apiKey clientIp, (requireSseApiKey cfg env now r s).1 = .handler apiKey clientIp
  handler : (∃ apiKey clientIp, (requireSseApiKey cfg env now r s).1 = .handler apiKey clientIp) ↔
    Passes cfg env r ∧ (checkRateLimit T cfg.rateLimit now r.key s.cache).1 = true
  counter : (requireSseApiKey cfg env now r s).2.cache = s.cache ∨
    Passes cfg env r ∧ ∃ n, (requireSseApiKey cfg env now r s).2.cache = T.set s.cache now (rateLimitKey r.key) n

/-- A valid key is compared with the request's, none before it being equal, and one of the two is not ASCII. -/
def ComparesNonAscii (r : Request) : Prop :=
  cfg.authentication.enabled = true ∧ r.key ≠ "" ∧ ∃ pre key post,
    cfg.authentication.validKeys.getD [] = pre ++ some key :: post ∧ some r.key ∉ pre ∧ ¬ (Ascii r.key ∧ Ascii key)

end

/-! ## The comparison -/

/-- A comparison with the keys is reached, none before it matching, of texts that are not both ASCII. -/
def Raises (k : String) (keys : List (Option String)) : Prop :=
  ∃ pre key post, keys = pre ++ some key :: post ∧ some k ∉ pre ∧ ¬ (Ascii k ∧ Ascii key)

theorem not_raises_nil (k : String) : ¬ Raises k [] := by
  rintro ⟨pre, key, post, h, -⟩
  cases pre <;> cases h

theorem raises_cons {k : String} {o : Option String} {keys : List (Option String)} :
    Raises k (o :: keys) ↔ (∃ key, o = some key ∧ ¬ (Ascii k ∧ Ascii key)) ∨ (some k ≠ o ∧ Raises k keys) := by
  constructor
  · rintro ⟨pre, key, post, h, hpre, hascii⟩
    cases pre with
    | nil =>
      obtain ⟨rfl, -⟩ := List.cons.inj h
      exact .inl ⟨key, rfl, hascii⟩
    | cons p pre =>
      obtain ⟨rfl, htail⟩ := List.cons.inj h
      rw [List.mem_cons, not_or] at hpre
      exact .inr ⟨hpre.1, pre, key, post, htail, hpre.2, hascii⟩
  · rintro (⟨key, rfl, hascii⟩ | ⟨hne, pre, key, post, rfl, hpre, hascii⟩)
    · exact ⟨[], key, keys, rfl, by simp, hascii⟩
    · refine ⟨o :: pre, key, post, rfl, ?_, hascii⟩
      rw [List.mem_cons, not_or]
      exact ⟨hne, hpre⟩

/-- **The scan raises where a comparison does, and otherwise looks for the key.** -/
theorem anyMatch_spec (k : String) : ∀ keys : List (Option String),
    (Raises k keys ∧ ∃ msg, anyMatch k keys = .error msg) ∨
    (¬ Raises k keys ∧ anyMatch k keys = .ok (decide (some k ∈ keys)))
  | [] => .inr ⟨not_raises_nil k, rfl⟩
  | none :: keys => by
    have hraises : Raises k (none :: keys) ↔ Raises k keys := by simp [raises_cons]
    rw [hraises, anyMatch]
    simpa using anyMatch_spec k keys
  | some key :: keys => by
    rw [anyMatch, compareDigest]
    by_cases hascii : Ascii k ∧ Ascii key
    · rw [if_pos hascii]
      have hfirst : ¬ ∃ key', some key = some key' ∧ ¬ (Ascii k ∧ Ascii key') := by
        rintro ⟨_, ⟨rfl⟩, h⟩
        exact h hascii
      by_cases hk : k = key
      · subst hk
        rw [decide_eq_true rfl, raises_cons]
        refine .inr ⟨?_, by simp⟩
        rintro (h | ⟨h, -⟩)
        · exact hfirst h
        · exact h rfl
      · have hne : some k ≠ some key := fun h => hk (Option.some.inj h)
        have hraises : Raises k (some key :: keys) ↔ Raises k keys := by
          rw [raises_cons, or_iff_right hfirst, and_iff_right hne]
        have hmem : some k ∈ some key :: keys ↔ some k ∈ keys := by rw [List.mem_cons, or_iff_right hne]
        rw [decide_eq_false hk, hraises, decide_eq_decide.2 hmem]
        exact anyMatch_spec k keys
    · rw [if_neg hascii, raises_cons]
      exact .inl ⟨.inl ⟨key, rfl, hascii⟩, _, rfl⟩

/-! ## The gate's decision -/

section

variable {T : TTLCache String Int} {cfg : Config} {env : Option String} {now : ℚ} {r : Request} {s : Security T}

theorem comparesNonAscii_iff : ComparesNonAscii cfg r ↔
    cfg.authentication.enabled = true ∧ r.key ≠ "" ∧ Raises r.key (cfg.authentication.validKeys.getD []) := Iff.rfl

theorem apiKey_filter (r : Request) : r.apiKey.filter (· ≠ "") = if r.key = "" then none else some r.key := by
  have hfilter : r.apiKey.filter (· ≠ "") = r.apiKey := by
    unfold Request.apiKey
    cases hx : r.xApiKey.filter (· ≠ "") with
    | some x =>
      rw [Option.some_or, ← hx, Option.filter_filter]
      simp
    | none =>
      rw [Option.none_or, Option.filter_filter]
      simp
  cases hkey : r.apiKey with
  | none => simp [Request.key, hkey]
  | some k =>
    have hk : k ≠ "" := by
      intro he
      rw [hkey, he] at hfilter
      cases hfilter
    simp [Request.key, hkey, hk]

/-- **What validation answers**, where no comparison raises: whether the request passes authentication. -/
theorem validateApiKey_spec (cfg : Config) (env : Option String) (r : Request) (s : Security T) :
    (ComparesNonAscii cfg r ∧ ∃ msg, (validateApiKey cfg env r.apiKey s).1 = .error msg) ∨
    (¬ ComparesNonAscii cfg r ∧
      ∃ b, (validateApiKey cfg env r.apiKey s).1 = .ok b ∧ (b = true ↔ Passes cfg env r)) := by
  unfold validateApiKey Passes
  rw [apiKey_filter, comparesNonAscii_iff]
  by_cases hkey : r.key = ""
  · rw [if_pos hkey]
    exact .inr ⟨fun h => h.2.1 hkey, false, rfl, by simp [hkey]⟩
  · rw [if_neg hkey]
    by_cases hon : cfg.authentication.enabled = true
    · simp only [hon, Bool.not_true, Bool.false_eq_true, if_false, if_true]
      rcases anyMatch_spec r.key (cfg.authentication.validKeys.getD []) with ⟨hraises, hmsg⟩ | ⟨hno, hmatch⟩
      · exact .inl ⟨⟨trivial, hkey, hraises⟩, hmsg⟩
      · refine .inr ⟨fun h => hno h.2.2, _, hmatch, ?_⟩
        rw [decide_eq_true_eq, and_iff_right hkey]
    · refine .inr ⟨fun h => hon h.1, ?_⟩
      by_cases hallowed : authOffAllowed env = true
      · exact ⟨true, by simp [hon, hallowed], by simp [hon, hallowed, hkey]⟩
      · exact ⟨false, by simp [hon, hallowed], by simp [hon, hallowed]⟩

theorem cache_validateApiKey (apiKey : Option String) (s : Security T) :
    (validateApiKey cfg env apiKey s).2.cache = s.cache := by
  unfold validateApiKey
  cases apiKey.filter (· ≠ "") with
  | none => rfl
  | some key =>
    dsimp only
    split
    · split
      · exact s.cache_warnAuthOffBlockedOnce
      · exact s.cache_warnAuthDisabledOnce
    · rfl

/-- A limiter's answer assigns no counter but the client's. -/
theorem checkRateLimit_cache (config : RateLimit.Config) (now : ℚ) (clientId : String) (cache : T.State) :
    (checkRateLimit T config now clientId cache).2 = cache ∨
      ∃ n, (checkRateLimit T config now clientId cache).2 = T.set cache now (rateLimitKey clientId) n := by
  unfold checkRateLimit
  split
  · exact .inl rfl
  · dsimp only
    split
    · exact .inl rfl
    · exact .inr ⟨_, rfl⟩

/-- With authentication off and not allowed to be, nobody passes. -/
theorem not_passes_of_blocked (h : (!cfg.authentication.enabled && !authOffAllowed env) = true) :
    ¬ Passes cfg env r := by
  rw [Bool.and_eq_true, Bool.not_eq_true', Bool.not_eq_true'] at h
  simp [Passes, h.1, h.2]

/-- A request that does not pass authentication, refused with no counter touched. -/
theorem gated_of_refused (h : ¬ Passes cfg env r) (e : HTTPException) (he : e.statusCode ∈ [503, 401, 429])
    (hr : (requireSseApiKey cfg env now r s).1 = .http e) (hs : (requireSseApiKey cfg env now r s).2.cache = s.cache) :
    Gated cfg env now r s := by
  constructor
  · exact .inl ⟨e, hr, he⟩
  · rw [hr]
    constructor
    · rintro ⟨_, _, hh⟩
      cases hh
    · intro hpass
      exact absurd hpass.1 h
  · exact .inl hs

/-- Past the first check, the wrapper goes by what validation answers, and then by the rate limit. -/
theorem requireSseApiKey_valid (hblocked : ¬ (!cfg.authentication.enabled && !authOffAllowed env) = true)
    {s' : Security T} (hv : validateApiKey cfg env r.apiKey s = (.ok true, s')) :
    (requireSseApiKey cfg env now r s).2.cache = (checkRateLimit T cfg.rateLimit now r.key s'.cache).2 ∧
    if (checkRateLimit T cfg.rateLimit now r.key s'.cache).1 = true then
      (requireSseApiKey cfg env now r s).1 = .handler r.apiKey r.clientHost
    else ∃ e, (requireSseApiKey cfg env now r s).1 = .http e ∧ e.statusCode = 429 := by
  unfold requireSseApiKey
  rw [if_neg hblocked, hv]
  dsimp only
  rw [show r.apiKey.getD "" = r.key from rfl]
  cases checkRateLimit T cfg.rateLimit now r.key s'.cache with
  | mk ok cache =>
    cases ok with
    | true  => exact ⟨rfl, rfl⟩
    | false => exact ⟨rfl, _, rfl, rfl⟩

/-- A request that passes authentication is left to the rate limit. -/
theorem gated_of_passes (h : Passes cfg env r)
    (hblocked : ¬ (!cfg.authentication.enabled && !authOffAllowed env) = true)
    (hvalid : (validateApiKey cfg env r.apiKey s).1 = .ok true) : Gated cfg env now r s := by
  obtain ⟨s', hv⟩ : ∃ s', validateApiKey cfg env r.apiKey s = (.ok true, s') := ⟨_, Prod.ext hvalid rfl⟩
  have hcache : s'.cache = s.cache := by
    have hsame : (validateApiKey cfg env r.apiKey s).2.cache = s.cache := cache_validateApiKey r.apiKey s
    rwa [hv] at hsame
  obtain ⟨hcounter, houtcome⟩ := requireSseApiKey_valid (T := T) hblocked hv
  rw [hcache] at hcounter houtcome
  by_cases hok : (checkRateLimit T cfg.rateLimit now r.key s.cache).1 = true
  · rw [if_pos hok] at houtcome
    constructor
    · exact .inr ⟨_, _, houtcome⟩
    · exact iff_of_true ⟨_, _, houtcome⟩ ⟨h, hok⟩
    · rw [hcounter]
      exact (checkRateLimit_cache cfg.rateLimit now r.key s.cache).imp_right fun hset => ⟨h, hset⟩
  · rw [if_neg hok] at houtcome
    obtain ⟨e, he, hstatus⟩ := houtcome
    constructor
    · exact .inl ⟨e, he, by simp [hstatus]⟩
    · refine iff_of_false ?_ fun hpass => hok hpass.2
      rintro ⟨_, _, hh⟩
      rw [he] at hh
      cases hh
    · rw [hcounter]
      exact (checkRateLimit_cache cfg.rateLimit now r.key s.cache).imp_right fun hset => ⟨h, hset⟩

/-- A comparison that raises goes through the gate. -/
theorem not_gated_of_raises (hblocked : ¬ (!cfg.authentication.enabled && !authOffAllowed env) = true) {msg : String}
    (hv : (validateApiKey cfg env r.apiKey s).1 = .error msg) : ¬ Gated cfg env now r s := by
  obtain ⟨s', hv⟩ : ∃ s', validateApiKey cfg env r.apiKey s = (.error msg, s') := ⟨_, Prod.ext hv rfl⟩
  have hraise : (requireSseApiKey cfg env now r s).1 = .typeError msg := by
    unfold requireSseApiKey
    rw [if_neg hblocked, hv]
  intro h
  rcases h.outcome with ⟨e, he, -⟩ | ⟨_, _, hh⟩
  · rw [hraise] at he
    cases he
  · rw [hraise] at hh
    cases hh

/-- A key that validation refuses. -/
theorem gated_of_invalid (h : ¬ Passes cfg env r)
    (hblocked : ¬ (!cfg.authentication.enabled && !authOffAllowed env) = true)
    (hvalid : (validateApiKey cfg env r.apiKey s).1 = .ok false) : Gated cfg env now r s := by
  obtain ⟨s', hv⟩ : ∃ s', validateApiKey cfg env r.apiKey s = (.ok false, s') := ⟨_, Prod.ext hvalid rfl⟩
  have hcache : (validateApiKey cfg env r.apiKey s).2.cache = s.cache := cache_validateApiKey r.apiKey s
  rw [hv] at hcache
  have hrefused : ∃ e, requireSseApiKey cfg env now r s = (.http e, s') ∧ e.statusCode = 401 := by
    unfold requireSseApiKey
    rw [if_neg hblocked, hv]
    exact ⟨_, rfl, rfl⟩
  obtain ⟨e, he, hstatus⟩ := hrefused
  exact gated_of_refused h e (by simp [hstatus]) (congrArg Prod.fst he) (by rw [he]; exact hcache)

/-- **The gate holds exactly when no comparison of a text that is not ASCII is reached.** -/
theorem gate_iff (cfg : Config) (env : Option String) (now : ℚ) (r : Request) (s : Security T) :
    Gated cfg env now r s ↔ ¬ ComparesNonAscii cfg r := by
  by_cases hblocked : (!cfg.authentication.enabled && !authOffAllowed env) = true
  · have hon : ¬ cfg.authentication.enabled = true := by
      rw [Bool.and_eq_true, Bool.not_eq_true'] at hblocked
      simp [hblocked.1]
    refine iff_of_true ?_ fun h => hon h.1
    have hwrapper : requireSseApiKey cfg env now r s =
        (.http { statusCode := 503, detail := authOffBlockedDetail }, s.warnAuthOffBlockedOnce) := if_pos hblocked
    exact gated_of_refused (not_passes_of_blocked hblocked) _ (by simp) (congrArg Prod.fst hwrapper)
      (by rw [hwrapper]; exact s.cache_warnAuthOffBlockedOnce)
  · rcases validateApiKey_spec cfg env r s with ⟨hcompares, msg, hmsg⟩ | ⟨hno, b, hb, hpass⟩
    · exact iff_of_false (not_gated_of_raises hblocked hmsg) fun h => h hcompares
    · refine iff_of_true ?_ hno
      cases b with
      | true  => exact gated_of_passes (hpass.1 rfl) hblocked hb
      | false => exact gated_of_invalid (fun h => nomatch hpass.2 h) hblocked hb

/-- One valid key, and a request with another that is not ASCII: the comparison raises. -/
theorem non_ascii_key_raises :
    ¬ Gated ⟨⟨true, some [some "secret"]⟩, ⟨false, 0⟩⟩ none 0 ⟨some "é", none, none⟩
      ({ cache := [] } : Security (TTLCache.ofLog RateLimit.maxsize RateLimit.ttl)) :=
  not_gated_of_raises (by decide) (by rfl)

end

end SseSecurity
end Pypepper
