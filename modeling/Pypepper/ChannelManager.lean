import Mathlib.Logic.Function.Basic
import Pypepper.Calls
import Pypepper.Dict
/-!
# ChannelManager — the registry of channels by key

`ChannelManager` of `scheduler/channel.py`: a dictionary of channels under a lock, so that its calls come one after
another.  `MapCall` is a finite map whose values are channels.  Every call is one of its calls but the `remove` of a
key that is not bound while another key is: the key is taken from the dictionary without a default, and only the
empty registry answers before that (`channel_map_iff`).
-/
namespace Pypepper

/-- A channel object: its identity, and the bound of its queue. -/
structure ChannelObject where
  ref     : Nat
  maxsize : Int
deriving DecidableEq

/-- `ValueError`, or the `KeyError` of a dictionary. -/
inductive ManagerError where
  | value (msg : String)
  | key (k : String)
deriving DecidableEq

/-- The registry and the debug log: a key that had a channel, that channel's bound and the one asked for. -/
structure ChannelManager where
  jobChannel : Py.Dict String ChannelObject := .empty
  debug      : List (String × Int × Int) := []

namespace ChannelManager

variable (m : ChannelManager)

/-- `put`; `none` is the channel `None`. -/
def put (key : String) (chan : Option ChannelObject) : Except ManagerError Unit × ChannelManager :=
  if key = "" then (.error (.value "invalid key"), m)
  else
    match chan with
    | none   => (.error (.value "invalid channel"), m)
    | some c => (.ok (), { m with jobChannel := m.jobChannel.set key c })

def get (key : String) : Except ManagerError (Option ChannelObject) :=
  if key = "" then .error (.value "invalid key")
  else if m.jobChannel.entries.length = 0 then .ok none
  else .ok (m.jobChannel.get key)

/-- `remove`: the dictionary's `pop` has no default. -/
def remove (key : String) : Except ManagerError (Option ChannelObject) × ChannelManager :=
  if key = "" then (.error (.value "invalid key"), m)
  else if m.jobChannel.entries.length = 0 then (.ok none, m)
  else
    match m.jobChannel.get key with
    | none   => (.error (.key key), m)
    | some c => (.ok (some c), { m with jobChannel := m.jobChannel.pop key })

/-- `new`; `ref` is the identity of the channel it constructs, when it does. -/
def new (key : String) (maxsize : Int) (ref : Nat) : Except ManagerError ChannelObject × ChannelManager :=
  if key = "" then (.error (.value "invalid key"), m)
  else
    match m.jobChannel.get key with
    | none      => (.ok ⟨ref, maxsize⟩, { m with jobChannel := m.jobChannel.set key ⟨ref, maxsize⟩ })
    | some chan =>
      if maxsize ≠ 0 ∧ chan.maxsize ≠ maxsize then
        (.ok chan, { m with debug := m.debug ++ [(key, chan.maxsize, maxsize)] })
      else (.ok chan, m)

def available (key : String) (maxsize : Int) (ref : Nat) : Except ManagerError ChannelObject × ChannelManager :=
  m.new key maxsize ref

/-- The finite map the registry stands for. -/
def map : String → Option ChannelObject := m.jobChannel.get

end ChannelManager

/-! ## Calls -/

inductive ManagerCall where
  | put (key : String) (chan : Option ChannelObject)
  | get (key : String)
  | remove (key : String)
  | new (key : String) (maxsize : Int)
  | available (key : String) (maxsize : Int)

namespace ManagerCall

def key : ManagerCall → String
  | .put key _       => key
  | .get key         => key
  | .remove key      => key
  | .new key _       => key
  | .available key _ => key

/-- The channel the call is given. -/
def given : ManagerCall → Option ChannelObject
  | .put _ chan => chan
  | _           => none

/-- An empty key, or the channel `None`. -/
def Invalid (c : ManagerCall) : Prop := c.key = "" ∨ ∃ key, c = .put key none

end ManagerCall

/-- The manager, and a bound of the identities of the channel objects there are. -/
structure Registry where
  manager : ChannelManager := {}
  objects : Nat := 0

namespace Registry

variable (w : Registry)

/-- The manager's part of a call: its answer (nothing from `put`) and the manager it leaves. -/
def onManager : ManagerCall → Except ManagerError (Option ChannelObject) × ChannelManager
  | .put key chan          => ((w.manager.put key chan).1.map fun _ => none, (w.manager.put key chan).2)
  | .get key               => (w.manager.get key, w.manager)
  | .remove key            => w.manager.remove key
  | .new key maxsize       =>
    ((w.manager.new key maxsize w.objects).1.map some, (w.manager.new key maxsize w.objects).2)
  | .available key maxsize =>
    ((w.manager.available key maxsize w.objects).1.map some, (w.manager.available key maxsize w.objects).2)

def answer (c : ManagerCall) : Except ManagerError (Option ChannelObject) := (w.onManager c).1

/-- The objects there are after a call: one it may have constructed, and the one it is given. -/
def step (c : ManagerCall) : Registry where
  manager := (w.onManager c).2
  objects := c.given.elim (w.objects + 1) fun d => max (w.objects + 1) (d.ref + 1)

/-- The channels a call shows: the one it is given and the one it answers. -/
def shows (c : ManagerCall) : List ChannelObject := c.given.toList ++ ((w.answer c).toOption.bind id).toList

/-- The channels the calls have shown. -/
def shown (w : Registry) : List ManagerCall → List ChannelObject
  | []     => []
  | c :: l => w.shows c ++ (w.step c).shown l

end Registry

/-! ## The map -/

/-- One call on a finite map of channels: its answer and the map after it.  A channel it constructs is `Fresh`. -/
inductive MapCall (Fresh : ChannelObject → Prop) (f : String → Option ChannelObject) :
    ManagerCall → Except ManagerError (Option ChannelObject) → (String → Option ChannelObject) → Prop where
  | noKey {c : ManagerCall} : c.key = "" → MapCall Fresh f c (.error (.value "invalid key")) f
  | noChannel {k : String} : k ≠ "" → MapCall Fresh f (.put k none) (.error (.value "invalid channel")) f
  | put {k : String} {chan : ChannelObject} :
      k ≠ "" → MapCall Fresh f (.put k (some chan)) (.ok none) (Function.update f k (some chan))
  | get {k : String} : k ≠ "" → MapCall Fresh f (.get k) (.ok (f k)) f
  | remove {k : String} : k ≠ "" → MapCall Fresh f (.remove k) (.ok (f k)) (Function.update f k none)
  | bound {c : ManagerCall} {k : String} {n : Int} {chan : ChannelObject} :
      c = .new k n ∨ c = .available k n → k ≠ "" → f k = some chan → MapCall Fresh f c (.ok (some chan)) f
  | fresh {c : ManagerCall} {k : String} {chan : ChannelObject} :
      c = .new k chan.maxsize ∨ c = .available k chan.maxsize → k ≠ "" → f k = none → Fresh chan →
      MapCall Fresh f c (.ok (some chan)) (Function.update f k (some chan))

namespace MapCall

variable {Fresh : ChannelObject → Prop} {f g : String → Option ChannelObject} {c : ManagerCall}
  {r : Except ManagerError (Option ChannelObject)}

/-- **No call of the map touches another key.** -/
theorem others (h : MapCall Fresh f c r g) {k : String} (hk : k ≠ c.key) : g k = f k := by
  cases h with
  | noKey _     => rfl
  | noChannel _ => rfl
  | get _       => rfl
  | bound _ _ _ => rfl
  | put _       => exact Function.update_of_ne hk _ _
  | remove _    => exact Function.update_of_ne hk _ _
  | fresh hc _ _ _ =>
    rcases hc with rfl | rfl
    · exact Function.update_of_ne hk _ _
    · exact Function.update_of_ne hk _ _

theorem mono {Fresh' : ChannelObject → Prop} (h : MapCall Fresh f c r g) (hf : ∀ d, Fresh d → Fresh' d) :
    MapCall Fresh' f c r g := by
  cases h with
  | noKey hk           => exact .noKey hk
  | noChannel hk       => exact .noChannel hk
  | put hk             => exact .put hk
  | get hk             => exact .get hk
  | remove hk          => exact .remove hk
  | bound hc hk hb     => exact .bound hc hk hb
  | fresh hc hk hn hfr => exact .fresh hc hk hn (hf _ hfr)

/-- A channel the map's call answers was bound or is fresh. -/
theorem answer_cases (h : MapCall Fresh f c r g) {d : ChannelObject} (hr : r = .ok (some d)) :
    (∃ k, f k = some d) ∨ Fresh d := by
  cases h with
  | noKey _       => cases hr
  | noChannel _   => cases hr
  | put _         => cases hr
  | get _         => exact .inl ⟨_, Except.ok.inj hr⟩
  | remove _      => exact .inl ⟨_, Except.ok.inj hr⟩
  | bound _ _ hb  => exact .inl ⟨_, hb.trans (Except.ok.inj hr)⟩
  | fresh _ _ _ hfr =>
    cases hr
    exact .inr hfr

/-- A channel that is bound after the map's call was bound before it, is given or is fresh. -/
theorem bound_cases (h : MapCall Fresh f c r g) {j : String} {d : ChannelObject} (hj : g j = some d) :
    f j = some d ∨ c.given = some d ∨ Fresh d := by
  have hupdate : ∀ (k : String) (o : Option ChannelObject),
      Function.update f k o j = some d → f j = some d ∨ o = some d := by
    intro k o ho
    rw [Function.update_apply] at ho
    by_cases hk : j = k
    · rw [if_pos hk] at ho
      exact .inr ho
    · rw [if_neg hk] at ho
      exact .inl ho
  cases h with
  | noKey _     => exact .inl hj
  | noChannel _ => exact .inl hj
  | get _       => exact .inl hj
  | bound _ _ _ => exact .inl hj
  | put _       => exact (hupdate _ _ hj).imp_right .inl
  | remove _ =>
    rcases hupdate _ _ hj with hf | hf
    · exact .inl hf
    · cases hf
  | fresh _ _ _ hfr =>
    rcases hupdate _ _ hj with hf | hf
    · exact .inl hf
    · cases hf
      exact .inr (.inr hfr)

end MapCall

/-- What a call is to do after the calls `pre`: the map's call, with no other key touched, and nothing changed by a
call it rejects. -/
structure Registry.Agrees (pre : List ManagerCall) (w : Registry) (c : ManagerCall) : Prop where
  mapCall  : MapCall (fun chan => ∀ d ∈ ({} : Registry).shown pre, d.ref ≠ chan.ref) w.manager.map c (w.answer c)
    (w.step c).manager.map
  others   : ∀ k, k ≠ c.key → (w.step c).manager.map k = w.manager.map k
  rejected : c.Invalid → (w.step c).manager = w.manager

/-! ## One lemma for each method -/

namespace ChannelManager

variable (m : ChannelManager) {k : String} (hk : k ≠ "")

theorem empty_iff : m.jobChannel.entries.length = 0 ↔ ∀ k, m.map k = none := by
  rw [List.length_eq_zero_iff]
  constructor
  · intro h k
    unfold map Py.Dict.get
    rw [h]
    rfl
  · intro h
    cases he : m.jobChannel.entries with
    | nil => rfl
    | cons p l =>
      have hp := h p.1
      unfold map Py.Dict.get at hp
      rw [he, Py.Dict.lookup, if_pos rfl] at hp
      cases hp

theorem map_set (k : String) (chan : ChannelObject) :
    ({ m with jobChannel := m.jobChannel.set k chan } : ChannelManager).map = Function.update m.map k (some chan) := by
  funext j
  unfold map
  rw [Py.Dict.get_set, Function.update_apply]

theorem map_pop (k : String) :
    ({ m with jobChannel := m.jobChannel.pop k } : ChannelManager).map = Function.update m.map k none := by
  funext j
  unfold map
  rw [Py.Dict.get_pop, Function.update_apply]

/-- The key is not bound and another one is. -/
def OthersOnly (k : String) : Prop := m.map k = none ∧ ∃ j, (m.map j).isSome

include hk

theorem put_none : m.put k none = (.error (.value "invalid channel"), m) := by
  unfold put
  rw [if_neg hk]

theorem put_some (chan : ChannelObject) :
    (m.put k (some chan)).1 = .ok () ∧ (m.put k (some chan)).2.map = Function.update m.map k (some chan) := by
  unfold put
  rw [if_neg hk]
  exact ⟨rfl, m.map_set k chan⟩

theorem get_eq : m.get k = .ok (m.map k) := by
  unfold get
  rw [if_neg hk]
  by_cases he : m.jobChannel.entries.length = 0
  · rw [if_pos he, m.empty_iff.1 he k]
  · rw [if_neg he]
    rfl

/-- `new` answers the bound channel, or binds the one it constructs. -/
theorem new_eq (n : Int) (ref : Nat) :
    (∃ chan, m.map k = some chan ∧ (m.new k n ref).1 = .ok chan ∧ (m.new k n ref).2.map = m.map) ∨
    (m.map k = none ∧ (m.new k n ref).1 = .ok ⟨ref, n⟩ ∧
      (m.new k n ref).2.map = Function.update m.map k (some ⟨ref, n⟩)) := by
  unfold new
  rw [if_neg hk]
  cases hget : m.jobChannel.get k with
  | none      => exact .inr ⟨hget, rfl, m.map_set k _⟩
  | some chan =>
    left
    refine ⟨chan, hget, ?_⟩
    dsimp only
    by_cases hmax : n ≠ 0 ∧ chan.maxsize ≠ n
    · rw [if_pos hmax]
      exact ⟨rfl, rfl⟩
    · rw [if_neg hmax]
      exact ⟨rfl, rfl⟩

theorem remove_eq (h : ¬ m.OthersOnly k) :
    (m.remove k).1 = .ok (m.map k) ∧ (m.remove k).2.map = Function.update m.map k none := by
  unfold remove
  rw [if_neg hk]
  by_cases he : m.jobChannel.entries.length = 0
  · have hnone := m.empty_iff.1 he k
    rw [if_pos he, hnone]
    exact ⟨rfl, (Function.update_eq_self_iff.2 hnone.symm).symm⟩
  · rw [if_neg he]
    cases hget : m.jobChannel.get k with
    | some c => exact ⟨congrArg Except.ok hget.symm, m.map_pop k⟩
    | none   =>
      rw [empty_iff, not_forall] at he
      obtain ⟨j, hj⟩ := he
      exact absurd ⟨hget, j, Option.isSome_iff_ne_none.2 hj⟩ h

/-- Removing a key that is not bound raises when another key is bound. -/
theorem remove_raises (h : m.OthersOnly k) : m.remove k = (.error (.key k), m) := by
  obtain ⟨hnone, j, hj⟩ := h
  have he : ¬ m.jobChannel.entries.length = 0 := by
    intro he
    rw [m.empty_iff.1 he j] at hj
    cases hj
  have hget : m.jobChannel.get k = none := hnone
  unfold remove
  rw [if_neg hk, if_neg he, hget]

end ChannelManager

/-! ## The registry against the map -/

namespace Registry

/-- The call removes a key that is not bound while another is. -/
def RemovesUnbound (w : Registry) (c : ManagerCall) : Prop :=
  ∃ k, c = .remove k ∧ k ≠ "" ∧ w.manager.OthersOnly k

/-- The registry the calls lead to; every channel they have shown, or that is bound, is one of its objects. -/
structure Known (pre : List ManagerCall) (w : Registry) : Prop where
  reached : w = Calls.run step {} pre
  shown   : ∀ d ∈ ({} : Registry).shown pre, d.ref < w.objects
  bound   : ∀ k d, w.manager.map k = some d → d.ref < w.objects

variable {pre : List ManagerCall} {w : Registry}

theorem onManager_noKey (w : Registry) {c : ManagerCall} (h : c.key = "") :
    w.onManager c = (.error (.value "invalid key"), w.manager) := by
  cases c <;> simp only [ManagerCall.key] at h <;> subst h <;> rfl

theorem onManager_invalid (w : Registry) {c : ManagerCall} (h : c.Invalid) : (w.onManager c).2 = w.manager := by
  by_cases hkey : c.key = ""
  · rw [w.onManager_noKey hkey]
  · rcases h with hempty | ⟨k, rfl⟩
    · exact absurd hempty hkey
    · exact congrArg Prod.snd (w.manager.put_none hkey)

theorem mapCall_new (w : Registry) {c : ManagerCall} {k : String} {n : Int} (hc : c = .new k n ∨ c = .available k n)
    (hk : k ≠ "") :
    MapCall (fun chan => chan.ref = w.objects) w.manager.map c ((w.manager.new k n w.objects).1.map some)
      (w.manager.new k n w.objects).2.map := by
  rcases w.manager.new_eq hk n w.objects with ⟨chan, hbound, hanswer, hmap⟩ | ⟨hfree, hanswer, hmap⟩
  · rw [hanswer, hmap]
    exact .bound hc hk hbound
  · rw [hanswer, hmap]
    exact .fresh hc hk hfree rfl

/-- A call is the map's call when it does not remove an unbound key from a registry with another. -/
theorem mapCall_of (w : Registry) {c : ManagerCall} (h : ¬ w.RemovesUnbound c) :
    MapCall (fun chan => chan.ref = w.objects) w.manager.map c (w.answer c) (w.step c).manager.map := by
  unfold answer step
  dsimp only
  by_cases hkey : c.key = ""
  · rw [w.onManager_noKey hkey]
    exact .noKey hkey
  · cases c with
    | put k chan =>
      have hk : k ≠ "" := hkey
      cases chan with
      | none =>
        simp only [onManager, w.manager.put_none hk]
        exact .noChannel hk
      | some chan =>
        obtain ⟨hanswer, hmap⟩ := w.manager.put_some hk chan
        simp only [onManager, hanswer, hmap]
        exact .put hk
    | get k =>
      have hk : k ≠ "" := hkey
      simp only [onManager, w.manager.get_eq hk]
      exact .get hk
    | remove k =>
      have hk : k ≠ "" := hkey
      obtain ⟨hanswer, hmap⟩ := w.manager.remove_eq hk fun ho => h ⟨k, rfl, hk, ho⟩
      simp only [onManager, hanswer, hmap]
      exact .remove hk
    | new k n       => exact w.mapCall_new (.inl rfl) hkey
    | available k n => exact w.mapCall_new (.inr rfl) hkey

theorem onManager_removesUnbound {c : ManagerCall} (h : w.RemovesUnbound c) :
    w.onManager c = (.error (.key c.key), w.manager) := by
  obtain ⟨k, rfl, hk, hothers⟩ := h
  exact w.manager.remove_raises hk hothers

/-- **A call is the map's call exactly when it does not remove an unbound key from a registry with another.** -/
theorem mapCall_iff {Fresh : ChannelObject → Prop} (hf : ∀ d, d.ref = w.objects → Fresh d) (c : ManagerCall) :
    MapCall Fresh w.manager.map c (w.answer c) (w.step c).manager.map ↔ ¬ w.RemovesUnbound c := by
  constructor
  · intro hcall hremoves
    have hanswer : w.answer c = .error (.key c.key) := congrArg Prod.fst (onManager_removesUnbound hremoves)
    rw [hanswer] at hcall
    cases hcall
  · intro h
    exact (w.mapCall_of h).mono hf

/-! ## The objects there are -/

theorem objects_lt (w : Registry) (c : ManagerCall) : w.objects < (w.step c).objects := by
  unfold step
  cases c.given with
  | none   => exact Nat.lt_succ_self _
  | some d => exact Nat.le_max_left _ _

theorem given_lt (w : Registry) {c : ManagerCall} {d : ChannelObject} (h : c.given = some d) :
    d.ref < (w.step c).objects := by
  unfold step
  rw [h]
  exact Nat.le_max_right _ _

theorem answer_lt (h : ∀ k d, w.manager.map k = some d → d.ref < w.objects) {c : ManagerCall} {d : ChannelObject}
    (hd : w.answer c = .ok (some d)) : d.ref < (w.step c).objects := by
  by_cases hremoves : w.RemovesUnbound c
  · rw [answer, onManager_removesUnbound hremoves] at hd
    cases hd
  · rcases (w.mapCall_of hremoves).answer_cases hd with ⟨k, hk⟩ | hfresh
    · exact Nat.lt_trans (h k d hk) (w.objects_lt c)
    · exact hfresh ▸ w.objects_lt c

theorem bound_lt (h : ∀ k d, w.manager.map k = some d → d.ref < w.objects) {c : ManagerCall} {k : String}
    {d : ChannelObject} (hd : (w.step c).manager.map k = some d) : d.ref < (w.step c).objects := by
  by_cases hremoves : w.RemovesUnbound c
  · have hsame : (w.step c).manager = w.manager := congrArg Prod.snd (onManager_removesUnbound hremoves)
    rw [hsame] at hd
    exact Nat.lt_trans (h k d hd) (w.objects_lt c)
  · rcases (w.mapCall_of hremoves).bound_cases hd with hk | hgiven | hfresh
    · exact Nat.lt_trans (h k d hk) (w.objects_lt c)
    · exact w.given_lt hgiven
    · exact hfresh ▸ w.objects_lt c

theorem shown_concat (w : Registry) (l : List ManagerCall) (c : ManagerCall) :
    w.shown (l ++ [c]) = w.shown l ++ (Calls.run step w l).shows c := by
  induction l generalizing w with
  | nil => simp [shown]
  | cons d l ih =>
    rw [List.cons_append, shown, shown, ih, List.append_assoc]
    rfl

theorem known_step (h : Known pre w) (c : ManagerCall) : Known (pre ++ [c]) (w.step c) := by
  constructor
  · rw [Calls.run_concat, ← h.reached]
  · intro d hd
    rw [shown_concat, ← h.reached, List.mem_append] at hd
    rcases hd with hd | hd
    · exact Nat.lt_trans (h.shown d hd) (w.objects_lt c)
    · rcases List.mem_append.1 hd with hd | hd
      · exact w.given_lt (Option.mem_toList.1 hd)
      · refine answer_lt h.bound ?_
        cases hanswer : w.answer c with
        | error e => simp [hanswer, Except.toOption] at hd
        | ok o    =>
          have ho : o = some d := by simpa [hanswer, Except.toOption] using hd
          rw [ho]
  · intro k d
    exact bound_lt h.bound

/-- **The registry is a map of channels, call by call, exactly when no call removes an unbound key from a registry
with another.** -/
theorem channel_map_iff (calls : List ManagerCall) :
    Calls.Each step {} Agrees calls ↔ Calls.Each step {} (fun _ w c => ¬ w.RemovesUnbound c) calls := by
  have hinit : Known [] {} := by
    constructor
    · rfl
    · intro d hd
      cases hd
    · intro k d hd
      cases hd
  refine Calls.each_iff (I := Known) hinit ?_ (fun pre w c h _ => known_step h c) calls
  intro pre w c h
  rw [← mapCall_iff (fun chan hchan d hd => Nat.ne_of_lt (hchan ▸ h.shown d hd))]
  constructor
  · exact Agrees.mapCall
  · intro hcall
    exact ⟨hcall, fun k hk => hcall.others hk, w.onManager_invalid⟩

/-- Another key is bound: removing one that is not raises. -/
theorem remove_unbound_raises : ¬ Calls.Each step {} Agrees [.new "a" 0, .remove "b"] := by
  intro h
  have hcall := (h [.new "a" 0] (.remove "b") [] rfl).mapCall
  cases hcall

end Registry
end Pypepper
