import Pypepper.JsonRoundTrip
/-!
# CodePoints — strings of code points and their JSON text

In ASCII `json.dumps` writes a string of code points by its UTF-16 code units, so two strings have one text exactly when
they have the same units (`encodeStr_append_inj`), and two dictionaries of strings with the same keys have one text exactly
when their values have (`dumpsStrs_inj`).
-/
namespace Py

namespace Str

/-! ## The text -/

/-- The UTF-16 code units of a code point: itself, or a pair of surrogates. -/
def units (c : CodePoint) : List Nat :=
  if c.val < 0x10000 then [c.val] else [0xd800 + (c.val - 0x10000) / 0x400, 0xdc00 + (c.val - 0x10000) % 0x400]

def utf16 (s : Str) : List Nat := s.flatMap units

/-- What the encoder writes for a code point. -/
def escapePoint (c : CodePoint) : List Char :=
  match Dict.lookup (Char.ofNat c.val) Json.shortEscapes with
  | some e => ['\\', e]
  | none   =>
    if 0x20 ≤ c.val ∧ c.val ≤ 0x7e then [Char.ofNat c.val]
    else if c.val < 0x10000 then '\\' :: 'u' :: Json.hex4 c.val
    else '\\' :: 'u' :: Json.hex4 (0xd800 + (c.val - 0x10000) / 0x400) ++
      '\\' :: 'u' :: Json.hex4 (0xdc00 + (c.val - 0x10000) % 0x400)

def encodeStr (s : Str) : List Char := '"' :: s.flatMap escapePoint ++ ['"']

/-- The members of a dictionary of strings. -/
def encodeStrs : List (String × Str) → List Char
  | []           => []
  | (k, s) :: ms => Json.encodeString true k ++ [':', ' '] ++ encodeStr s ++ Json.separator ms ++ encodeStrs ms

/-- `json.dumps` of a dictionary of strings. -/
def dumpsStrs (ms : List (String × Str)) : String := String.ofList ('{' :: encodeStrs ms ++ ['}'])

/-! ## By code units -/

/-- The text of one code unit. -/
def unitText (u : Nat) : List Char :=
  match Dict.lookup (Char.ofNat u) Json.shortEscapes with
  | some e => ['\\', e]
  | none   => if 0x20 ≤ u ∧ u ≤ 0x7e then [Char.ofNat u] else '\\' :: 'u' :: Json.hex4 u

/-- The code unit that a text starts with. -/
def scanUnit : List Char → Option (Nat × List Char)
  | []     => none
  | c :: r =>
    if c = '"' then none
    else if c = '\\' then
      if r.head? = some 'u' then Json.scanHex4 r.tail
      else (r.head?.bind fun e => Dict.lookup e Json.shortUnescapes).map fun x => (x.toNat, r.tail)
    else some (c.toNat, r)

theorem toNat_ofNat {u : Nat} (h : u.isValidChar) : (Char.ofNat u).toNat = u := by
  rw [Char.ofNat, dif_pos h]
  rfl

theorem lookup_ofNat_invalid {u : Nat} (h : ¬ u.isValidChar) : Dict.lookup (Char.ofNat u) Json.shortEscapes = none := by
  rw [Char.ofNat, dif_neg h]
  rfl

/-- No short escape above ASCII. -/
theorem lookup_ofNat_large {u : Nat} (h : 0x7e < u) : Dict.lookup (Char.ofNat u) Json.shortEscapes = none := by
  by_cases hv : u.isValidChar
  · have hu := toNat_ofNat hv
    cases he : Dict.lookup (Char.ofNat u) Json.shortEscapes with
    | none => rfl
    | some e =>
      have hsmall : (Char.ofNat u).toNat ≤ 0x7e := by
        revert he
        generalize Char.ofNat u = c
        intro he
        simp only [Json.shortEscapes, Dict.lookup] at he
        repeat' split at he
        all_goals cases he
        all_goals subst_vars; decide
      omega
  · exact lookup_ofNat_invalid hv

theorem units_lt (c : CodePoint) : ∀ u ∈ units c, u < 0x10000 := by
  have hc := c.isLt
  intro u hu
  unfold units at hu
  split at hu
  · rw [List.mem_singleton.1 hu]
    assumption
  · simp only [List.mem_cons, List.not_mem_nil, or_false] at hu
    rcases hu with hu | hu <;> omega

theorem utf16_lt (s : Str) : ∀ u ∈ s.utf16, u < 0x10000 := by
  intro u hu
  obtain ⟨c, -, hc⟩ := List.mem_flatMap.1 hu
  exact units_lt c u hc

/-- **A string's text is that of its code units.** -/
theorem escapePoint_eq (c : CodePoint) : escapePoint c = (units c).flatMap unitText := by
  unfold escapePoint units
  by_cases hsmall : c.val < 0x10000
  · rw [if_pos hsmall, if_pos hsmall, List.flatMap_singleton]
    rfl
  · have hc := c.isLt
    rw [lookup_ofNat_large (by omega), if_neg hsmall, if_neg hsmall, if_neg (by omega)]
    have htext : ∀ u, 0x7e < u → unitText u = '\\' :: 'u' :: Json.hex4 u := by
      intro u hu
      have hprint : ¬ (0x20 ≤ u ∧ u ≤ 0x7e) := by omega
      simp only [unitText, lookup_ofNat_large hu, if_neg hprint]
    simp [htext (0xd800 + (c.val - 0x10000) / 0x400) (by omega), htext (0xdc00 + (c.val - 0x10000) % 0x400) (by omega)]

theorem flatMap_escapePoint (s : Str) : s.flatMap escapePoint = s.utf16.flatMap unitText := by
  unfold utf16
  rw [List.flatMap_assoc]
  exact List.flatMap_congr fun c _ => escapePoint_eq c

theorem scanUnit_unitText {u : Nat} (hu : u < 0x10000) (r : List Char) : scanUnit (unitText u ++ r) = some (u, r) := by
  unfold unitText
  cases he : Dict.lookup (Char.ofNat u) Json.shortEscapes with
  | some e =>
    have hv : u.isValidChar := by
      by_contra hv
      rw [lookup_ofNat_invalid hv] at he
      cases he
    obtain ⟨hne, hback⟩ := Json.shortEscapes_back he
    simp [scanUnit, hne, hback, toNat_ofNat hv]
  | none =>
    dsimp only
    split
    · rename_i hp
      have hv : u.isValidChar := by
        left
        omega
      obtain ⟨hq, hb⟩ := Json.shortEscapes_none he
      simp [scanUnit, hq, hb, toNat_ofNat hv]
    · simp [scanUnit, Json.scanHex4_hex4 hu]

/-- **Up to the closing quote the units can be read back.** -/
theorem flatMap_unitText_inj : ∀ {us vs : List Nat} {r r' : List Char}, (∀ u ∈ us, u < 0x10000) →
    (∀ v ∈ vs, v < 0x10000) → us.flatMap unitText ++ '"' :: r = vs.flatMap unitText ++ '"' :: r' → us = vs ∧ r = r'
  | [], [], r, r', _, _, h => ⟨rfl, (List.cons.inj h).2⟩
  | [], v :: vs, r, r', _, hv, h => by
    have hscan := scanUnit_unitText (hv v List.mem_cons_self) (vs.flatMap unitText ++ '"' :: r')
    rw [List.flatMap_cons, List.append_assoc] at h
    rw [← h] at hscan
    cases hscan
  | u :: us, [], r, r', hu, _, h => by
    have hscan := scanUnit_unitText (hu u List.mem_cons_self) (us.flatMap unitText ++ '"' :: r)
    rw [List.flatMap_cons, List.append_assoc] at h
    rw [h] at hscan
    cases hscan
  | u :: us, v :: vs, r, r', hu, hv, h => by
    have hscan := scanUnit_unitText (hu u List.mem_cons_self) (us.flatMap unitText ++ '"' :: r)
    have hscan' := scanUnit_unitText (hv v List.mem_cons_self) (vs.flatMap unitText ++ '"' :: r')
    rw [List.flatMap_cons, List.append_assoc, List.flatMap_cons, List.append_assoc] at h
    rw [h, hscan'] at hscan
    obtain ⟨huv, hrest⟩ := Prod.mk.inj (Option.some.inj hscan)
    obtain ⟨hus, hr⟩ := flatMap_unitText_inj (fun x hx => hu x (List.mem_cons_of_mem u hx))
      (fun x hx => hv x (List.mem_cons_of_mem v hx)) hrest.symm
    exact ⟨by rw [huv, hus], hr⟩

/-- **One text, the same units.** -/
theorem encodeStr_append_inj {s t : Str} {r r' : List Char} :
    encodeStr s ++ r = encodeStr t ++ r' ↔ s.utf16 = t.utf16 ∧ r = r' := by
  simp only [encodeStr, List.cons_append, List.append_assoc, List.nil_append, flatMap_escapePoint, List.cons.injEq,
    true_and]
  constructor
  · exact flatMap_unitText_inj s.utf16_lt t.utf16_lt
  · rintro ⟨h, rfl⟩
    rw [h]

theorem separator_congr {α β : Type} : ∀ {l : List α} {m : List β}, l.length = m.length →
    Json.separator l = Json.separator m
  | [], [], _ => rfl
  | _ :: _, _ :: _, _ => rfl

theorem encodeStrs_append_inj : ∀ {ms ns : List (String × Str)} {r r' : List Char},
    ms.map Prod.fst = ns.map Prod.fst → (encodeStrs ms ++ r = encodeStrs ns ++ r' ↔
      ms.map (fun m => m.2.utf16) = ns.map (fun n => n.2.utf16) ∧ r = r')
  | [], [], r, r', _ => by simp [encodeStrs]
  | (k, s) :: ms, (k', t) :: ns, r, r', h => by
    obtain ⟨hk, hks⟩ := List.cons.inj h
    obtain rfl : k = k' := hk
    have hlen : ms.length = ns.length := by simpa using congrArg List.length hks
    simp only [encodeStrs, List.append_assoc, List.append_cancel_left_eq, encodeStr_append_inj, separator_congr hlen,
      encodeStrs_append_inj hks, List.map_cons, List.cons.injEq, and_assoc]

/-- **Dictionaries of strings with the same keys have one text exactly when their values have the same units.** -/
theorem dumpsStrs_inj {ms ns : List (String × Str)} (h : ms.map Prod.fst = ns.map Prod.fst) :
    dumpsStrs ms = dumpsStrs ns ↔ ms.map (fun m => m.2.utf16) = ns.map (fun n => n.2.utf16) := by
  have hiff : encodeStrs ms ++ ['}'] = encodeStrs ns ++ ['}'] ↔ _ ∧ ['}'] = ['}'] := encodeStrs_append_inj h
  unfold dumpsStrs
  constructor
  · intro hd
    have hd := congrArg String.toList hd
    simp only [String.toList_ofList, List.cons_append, List.cons.injEq, true_and] at hd
    exact (hiff.1 hd).1
  · intro hu
    rw [List.cons_append, List.cons_append, hiff.2 ⟨hu, rfl⟩]

end Str
end Py
