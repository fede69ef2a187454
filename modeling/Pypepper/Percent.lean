import Mathlib.Data.List.Basic
/-!
# Percent — percent-encoding of a text

`quote_plus` and `unquote` of `urllib.parse`.  `quote_plus` writes a space as `+` and every other byte of the text's
UTF-8 as itself or as `%XX`; `unquote` reads `%XX` back and leaves `+` alone.  So the second after the first puts a `+`
for each space, and no more (`unquote_quotePlus`).
-/
namespace Py

/-! ## UTF-8 -/

/-- `str.encode("utf-8")`. -/
def utf8Bytes (l : List Char) : List UInt8 := l.flatMap String.utf8EncodeChar

/-- The second bytes a first byte may have in well-formed UTF-8, and how many bytes follow it. -/
def leadByte (b : Nat) : Option ((Nat × Nat) × Nat) :=
  if 0xC2 ≤ b ∧ b ≤ 0xDF then some ((0x80, 0xBF), 1)
  else if b = 0xE0 then some ((0xA0, 0xBF), 2)
  else if b = 0xED then some ((0x80, 0x9F), 2)
  else if 0xE1 ≤ b ∧ b ≤ 0xEF then some ((0x80, 0xBF), 2)
  else if b = 0xF0 then some ((0x90, 0xBF), 3)
  else if 0xF1 ≤ b ∧ b ≤ 0xF3 then some ((0x80, 0xBF), 3)
  else if b = 0xF4 then some ((0x80, 0x8F), 3)
  else none

/-- The length of the longest start of the bytes that starts a well-formed sequence, 1 when none does. -/
def maximalSubpart : List UInt8 → Nat
  | []      => 1
  | b :: bs =>
    match leadByte b.toNat, bs with
    | some ((lo, hi), more), c :: cs =>
      if lo ≤ c.toNat ∧ c.toNat ≤ hi then
        2 + ((cs.take (more - 1)).takeWhile fun d => decide (0x80 ≤ d.toNat ∧ d.toNat ≤ 0xBF)).length
      else 1
    | _, _ => 1

def utf8Decode? (bs : List UInt8) : Option (List Char) := bs.toByteArray.utf8Decode?.map Array.toList

/-- `bytes.decode("utf-8", "replace")` of bytes that are not well-formed, a character at a time. -/
def decodeInvalid : Nat → List UInt8 → List Char
  | 0,     _  => []
  | n + 1, bs =>
    if bs = [] then []
    else
      match [1, 2, 3, 4].findSome? fun k => (utf8Decode? (bs.take k)).map fun cs => (cs, k) with
      | some (cs, k) => cs ++ decodeInvalid n (bs.drop k)
      | none         => Char.ofNat 0xFFFD :: decodeInvalid n (bs.drop (maximalSubpart bs))

/-- `bytes.decode("utf-8", "replace")`. -/
def decodeReplace (bs : List UInt8) : List Char := (utf8Decode? bs).getD (decodeInvalid bs.length bs)

theorem utf8Decode?_utf8Bytes (l : List Char) : utf8Decode? (utf8Bytes l) = some l := by
  have h : (utf8Bytes l).toByteArray = l.utf8Encode := rfl
  unfold utf8Decode?
  rw [h, List.utf8Decode?_utf8Encode]
  simp

theorem decodeReplace_utf8Bytes (l : List Char) : decodeReplace (utf8Bytes l) = l := by
  rw [decodeReplace, utf8Decode?_utf8Bytes]
  rfl

/-- The byte of an ASCII character. -/
def byteOf (c : Char) : UInt8 := UInt8.ofNat c.toNat

theorem utf8EncodeChar_ascii {c : Char} (h : c.toNat < 128) : String.utf8EncodeChar c = [byteOf c] := by
  have hv : c.val.toNat ≤ 127 := Nat.le_of_lt_succ h
  unfold String.utf8EncodeChar
  dsimp only
  rw [if_pos hv]
  rfl

/-- The bytes of a character past ASCII are past ASCII. -/
theorem le_of_mem_utf8EncodeChar {c : Char} (hc : 128 ≤ c.toNat) {b : UInt8} (h : b ∈ String.utf8EncodeChar c) :
    128 ≤ b.toNat := by
  have hbyte : ∀ n m k : Nat, 0 < m → 128 ≤ k → m + k ≤ 256 → 128 ≤ (UInt8.ofNat (n % m + k)).toNat := by
    intro n m k hm hk hle
    have := Nat.mod_lt n hm
    rw [UInt8.toNat_ofNat']
    omega
  have htail : ∀ n : Nat, 128 ≤ (UInt8.ofNat (n % 64 + 128)).toNat :=
    fun n => hbyte n 64 128 (by decide) (by decide) (by decide)
  have hv : ¬ c.val.toNat ≤ 127 := Nat.not_le_of_lt hc
  unfold String.utf8EncodeChar at h
  dsimp only at h
  rw [if_neg hv] at h
  split at h
  · simp only [List.mem_cons, List.not_mem_nil, or_false] at h
    rcases h with rfl | rfl
    · exact hbyte _ 32 192 (by decide) (by decide) (by decide)
    · exact htail _
  · split at h
    · simp only [List.mem_cons, List.not_mem_nil, or_false] at h
      rcases h with rfl | rfl | rfl
      · exact hbyte _ 16 224 (by decide) (by decide) (by decide)
      · exact htail _
      · exact htail _
    · simp only [List.mem_cons, List.not_mem_nil, or_false] at h
      rcases h with rfl | rfl | rfl | rfl
      · exact hbyte _ 8 240 (by decide) (by decide) (by decide)
      · exact htail _
      · exact htail _
      · exact htail _

theorem utf8Bytes_ascii {l : List Char} (h : ∀ c ∈ l, c.toNat < 128) : utf8Bytes l = l.map byteOf := by
  induction l with
  | nil => rfl
  | cons c l ih =>
    rw [utf8Bytes, List.flatMap_cons, utf8EncodeChar_ascii (h c List.mem_cons_self), List.map_cons,
      ← ih fun d hd => h d (List.mem_cons_of_mem _ hd)]
    rfl

/-! ## quote -/

/-- The letters, the digits and `_.-~`. -/
def alwaysSafe (b : UInt8) : Bool :=
  (65 ≤ b.toNat && b.toNat ≤ 90) || (97 ≤ b.toNat && b.toNat ≤ 122) || (48 ≤ b.toNat && b.toNat ≤ 57) ||
    [95, 46, 45, 126].contains b.toNat

def hexDigit (n : Nat) : Char := Char.ofNat (if n < 10 then 48 + n else 55 + n)

def quoteByte (safe : List Char) (b : UInt8) : List Char :=
  if alwaysSafe b || safe.contains (Char.ofNat b.toNat) then [Char.ofNat b.toNat]
  else ['%', hexDigit (b.toNat / 16), hexDigit (b.toNat % 16)]

def quote (safe l : List Char) : List Char := (utf8Bytes l).flatMap (quoteByte safe)

/-- `string.replace(" ", "+")`. -/
def plusForSpace (l : List Char) : List Char := l.map fun c => if c = ' ' then '+' else c

/-- `quote_plus`: spaces pass the quoting and become `+` after it. -/
def quotePlus (s : String) : String :=
  String.ofList (if ' ' ∈ s.toList then plusForSpace (quote [' '] s.toList) else quote [] s.toList)

/-! ## unquote -/

def hexVal (c : Char) : Option Nat :=
  if 48 ≤ c.toNat ∧ c.toNat ≤ 57 then some (c.toNat - 48)
  else if 65 ≤ c.toNat ∧ c.toNat ≤ 70 then some (c.toNat - 55)
  else if 97 ≤ c.toNat ∧ c.toNat ≤ 102 then some (c.toNat - 87)
  else none

/-- `unquote_to_bytes` of ASCII characters: a `%` that two hexadecimal digits do not follow stands for itself. -/
def unquoteToBytes : List Char → List UInt8
  | []               => []
  | [c]              => [byteOf c]
  | [c, d]           => [byteOf c, byteOf d]
  | c :: a :: b :: l =>
    match if c = '%' then (hexVal a).bind fun hi => (hexVal b).map fun lo => 16 * hi + lo else none with
    | some n => UInt8.ofNat n :: unquoteToBytes l
    | none   => byteOf c :: unquoteToBytes (a :: b :: l)

/-- The runs of ASCII characters decoded, `run` being the one that was begun, and the others as they are. -/
def unquoteParts (run : List Char) : List Char → List Char
  | []     => decodeReplace (unquoteToBytes run)
  | c :: l =>
    if c.toNat < 128 then unquoteParts (run ++ [c]) l
    else decodeReplace (unquoteToBytes run) ++ c :: unquoteParts [] l

def unquote (s : String) : String := if '%' ∈ s.toList then String.ofList (unquoteParts [] s.toList) else s

/-! ## The one after the other -/

theorem unquoteParts_ascii {run l : List Char} (h : ∀ c ∈ l, c.toNat < 128) :
    unquoteParts run l = decodeReplace (unquoteToBytes (run ++ l)) := by
  induction l generalizing run with
  | nil => rw [List.append_nil]; rfl
  | cons c l ih =>
    rw [unquoteParts, if_pos (h c List.mem_cons_self), ih fun d hd => h d (List.mem_cons_of_mem _ hd),
      List.append_assoc]
    rfl

theorem unquoteToBytes_cons {c : Char} (h : c ≠ '%') (l : List Char) :
    unquoteToBytes (c :: l) = byteOf c :: unquoteToBytes l := by
  cases l with
  | nil => rfl
  | cons a l =>
    cases l with
    | nil => rfl
    | cons b l => rw [unquoteToBytes, if_neg h]

theorem hexVal_hexDigit {n : Nat} (h : n < 16) : hexVal (hexDigit n) = some n := by
  have hall : ∀ k < 16, hexVal (hexDigit k) = some k := by decide
  exact hall n h

theorem unquoteToBytes_percent (b : UInt8) (l : List Char) :
    unquoteToBytes ('%' :: hexDigit (b.toNat / 16) :: hexDigit (b.toNat % 16) :: l) = b :: unquoteToBytes l := by
  have hb : b.toNat < 256 := b.toNat_lt
  rw [unquoteToBytes, if_pos rfl, hexVal_hexDigit (by omega), hexVal_hexDigit (by omega)]
  have hn : 16 * (b.toNat / 16) + b.toNat % 16 = b.toNat := by omega
  dsimp only [Option.bind_some, Option.map_some]
  rw [hn, UInt8.ofNat_toNat]

/-- A text of ASCII characters without `%` is its own bytes. -/
theorem unquoteToBytes_plain {l : List Char} (h : '%' ∉ l) : unquoteToBytes l = l.map byteOf := by
  induction l with
  | nil => rfl
  | cons c l ih =>
    rw [List.mem_cons, not_or] at h
    rw [unquoteToBytes_cons (Ne.symm h.1), ih h.2, List.map_cons]

/-- **An ASCII text is unquoted by its bytes.** -/
theorem unquote_ascii {l : List Char} (h : ∀ c ∈ l, c.toNat < 128) :
    unquote (String.ofList l) = String.ofList (decodeReplace (unquoteToBytes l)) := by
  unfold unquote
  rw [String.toList_ofList]
  by_cases hp : '%' ∈ l
  · rw [if_pos hp, unquoteParts_ascii h, List.nil_append]
  · rw [if_neg hp, unquoteToBytes_plain hp, ← utf8Bytes_ascii h, decodeReplace_utf8Bytes]

/-- What `quote_plus` makes of a byte. -/
def plusByte (b : UInt8) : List Char := if b = 32 then ['+'] else quoteByte [] b

/-- What `unquote` reads for it. -/
def unplusByte (b : UInt8) : UInt8 := if b = 32 then byteOf '+' else b

theorem byte_forall {P : UInt8 → Prop} (h : ∀ n < 256, P (UInt8.ofNat n)) (b : UInt8) : P b := by
  have hb := h b.toNat b.toNat_lt
  rwa [UInt8.ofNat_toNat] at hb

theorem plusForSpace_quoteByte : ∀ b, plusForSpace (quoteByte [' '] b) = plusByte b :=
  byte_forall (by decide +kernel)

/-- The characters of `quote_plus`: ASCII, and none of those that delimit a URI's parts. -/
theorem plusByte_chars : ∀ b, ∀ c ∈ plusByte b, c.toNat < 128 ∧ c ∉ [':', '/', '?', '@', ' '] := by
  have hall : ∀ b, ((plusByte b).all fun c =>
      decide (c.toNat < 128) && !List.contains [':', '/', '?', '@', ' '] c) = true := byte_forall (by decide +kernel)
  intro b c hc
  simpa using List.all_eq_true.1 (hall b) c hc

theorem space_of_mem_utf8Bytes {l : List Char} (h : 32 ∈ utf8Bytes l) : ' ' ∈ l := by
  obtain ⟨c, hc, hb⟩ := List.mem_flatMap.1 h
  by_cases hascii : c.toNat < 128
  · rw [utf8EncodeChar_ascii hascii, List.mem_singleton] at hb
    have hn := congrArg UInt8.toNat hb
    rw [byteOf, UInt8.toNat_ofNat', Nat.mod_eq_of_lt (by omega)] at hn
    have hspace : c = ' ' := Char.toNat_inj.1 hn.symm
    exact hspace ▸ hc
  · have := le_of_mem_utf8EncodeChar (Nat.le_of_not_lt hascii) hb
    simp at this

/-- **`quote_plus` writes the text's bytes one by one.** -/
theorem quotePlus_toList (s : String) : (quotePlus s).toList = (utf8Bytes s.toList).flatMap plusByte := by
  unfold quotePlus quote
  rw [String.toList_ofList]
  by_cases hs : ' ' ∈ s.toList
  · rw [if_pos hs, plusForSpace, List.map_flatMap]
    exact List.flatMap_congr fun b _ => plusForSpace_quoteByte b
  · rw [if_neg hs]
    refine List.flatMap_congr fun b hb => ?_
    unfold plusByte
    rw [if_neg]
    rintro rfl
    exact hs (space_of_mem_utf8Bytes hb)

theorem quotePlus_chars {s : String} {c : Char} (h : c ∈ (quotePlus s).toList) :
    c.toNat < 128 ∧ c ∉ [':', '/', '?', '@', ' '] := by
  rw [quotePlus_toList] at h
  obtain ⟨b, -, hc⟩ := List.mem_flatMap.1 h
  exact plusByte_chars b c hc

theorem unquoteToBytes_plusByte (b : UInt8) (l : List Char) :
    unquoteToBytes (plusByte b ++ l) = unplusByte b :: unquoteToBytes l := by
  unfold plusByte unplusByte quoteByte
  by_cases hb : b = 32
  · rw [if_pos hb, if_pos hb]
    exact unquoteToBytes_cons (by decide) l
  · rw [if_neg hb, if_neg hb]
    by_cases hsafe : (alwaysSafe b || [].contains (Char.ofNat b.toNat)) = true
    · have hfacts : ∀ b : UInt8, (alwaysSafe b || [].contains (Char.ofNat b.toNat)) = true →
          Char.ofNat b.toNat ≠ '%' ∧ byteOf (Char.ofNat b.toNat) = b := byte_forall (by decide +kernel)
      rw [if_pos hsafe]
      refine (unquoteToBytes_cons (hfacts b hsafe).1 l).trans ?_
      rw [(hfacts b hsafe).2]
    · rw [if_neg hsafe]
      exact unquoteToBytes_percent b l

theorem unquoteToBytes_flatMap (bs : List UInt8) : unquoteToBytes (bs.flatMap plusByte) = bs.map unplusByte := by
  induction bs with
  | nil => rfl
  | cons b bs ih => rw [List.flatMap_cons, unquoteToBytes_plusByte, ih, List.map_cons]

/-- Reading the bytes back is reading the text with a `+` for each space. -/
theorem map_unplusByte (l : List Char) : (utf8Bytes l).map unplusByte = utf8Bytes (plusForSpace l) := by
  unfold utf8Bytes plusForSpace
  rw [List.map_flatMap, List.flatMap_map]
  refine List.flatMap_congr fun c _ => ?_
  by_cases hc : c = ' '
  · subst hc
    decide
  · rw [if_neg hc]
    refine (List.map_congr_left fun b hb => ?_).trans (List.map_id _)
    unfold unplusByte
    rw [if_neg]
    · rfl
    · rintro rfl
      have := space_of_mem_utf8Bytes (l := [c]) (by simpa [utf8Bytes] using hb)
      exact hc (List.mem_singleton.1 this).symm

/-- **`unquote` after `quote_plus` gives the text with a `+` for each space.** -/
theorem unquote_quotePlus (s : String) : unquote (quotePlus s) = String.ofList (plusForSpace s.toList) := by
  have hs : quotePlus s = String.ofList ((utf8Bytes s.toList).flatMap plusByte) := by
    rw [← quotePlus_toList, String.ofList_toList]
  rw [hs, unquote_ascii, unquoteToBytes_flatMap, map_unplusByte, decodeReplace_utf8Bytes]
  intro c hc
  obtain ⟨b, -, hc⟩ := List.mem_flatMap.1 hc
  exact (plusByte_chars b c hc).1

/-- **The text comes back exactly when it has no space.** -/
theorem unquote_quotePlus_iff (s : String) : unquote (quotePlus s) = s ↔ ' ' ∉ s.toList := by
  rw [unquote_quotePlus]
  constructor
  · intro h hspace
    have hl : plusForSpace s.toList = s.toList := by
      rw [← String.toList_ofList (l := plusForSpace s.toList), h]
    rw [← hl, plusForSpace, List.mem_map] at hspace
    obtain ⟨c, -, hc⟩ := hspace
    by_cases hcs : c = ' '
    · rw [if_pos hcs] at hc
      cases hc
    · rw [if_neg hcs] at hc
      exact hcs hc
  · intro h
    have hl : plusForSpace s.toList = s.toList := by
      refine (List.map_congr_left fun c hc => ?_).trans (List.map_id _)
      rw [if_neg]
      · rfl
      · rintro rfl
        exact h hc
    rw [hl, String.ofList_toList]

end Py
