import Mathlib.Data.Option.Basic
import Pypepper.JsonText
/-!
# JsonRoundTrip — encoded texts are decoded as they were

The scanner reads back each encoded value, whatever follows it, but for what the decoder makes of its texts (`scansWith`); so
when no object of it has a key twice `json.loads` of `json.dumps` is the value with these texts (`loads_dumps_back`), and of
Unicode texts it is the value (`loads_dumps`).  No encoded text has a line break (`printable_encode`).
-/
namespace Py
namespace Json

/-! ## Strings -/

/-- What the decoder makes of an encoded text. -/
class TextCodec (τ : Type) (ascii : Bool) [TextEncoder τ ascii] [TextDecoder τ] where
  back        : τ → τ
  scan_escape : ∀ (s : τ) (r : List Char),
    TextDecoder.scan ((TextEncoder.escape ascii s ++ '"' :: r).length + 1) (TextEncoder.escape ascii s ++ '"' :: r) =
      some (back s, r)

variable {ascii : Bool} {blank : List Char} {τ : Type}

theorem hexValue_digitChar : ∀ d, d < 16 → hexValue (Nat.digitChar d) = some d := by decide

theorem scanHex4_hex4 {n : Nat} (h : n < 0x10000) (r : List Char) : scanHex4 (hex4 n ++ r) = some (n, r) := by
  have hn : n / 4096 % 16 * 4096 + n / 256 % 16 * 256 + n / 16 % 16 * 16 + n % 16 = n := by omega
  simp [hex4, scanHex4, hexValue_digitChar _ (Nat.mod_lt _ (by decide : 16 > 0)), hn]

/-- A character is no surrogate. -/
theorem not_surrogate (c : Char) : ¬ (0xd800 ≤ c.toNat ∧ c.toNat ≤ 0xdfff) := by
  have h : c.toNat < 0xd800 ∨ 0xdfff < c.toNat ∧ c.toNat < 0x110000 := c.valid
  omega

theorem toNat_lt (c : Char) : c.toNat < 0x110000 := by
  have h : c.toNat < 0xd800 ∨ 0xdfff < c.toNat ∧ c.toNat < 0x110000 := c.valid
  omega

theorem scanUnicode_unit {c : Char} (h : c.toNat < 0x10000) (r : List Char) :
    scanUnicode (hex4 c.toNat ++ r) = some (c, r) := by
  have hs := not_surrogate c
  have hhi : ¬ (0xd800 ≤ c.toNat ∧ c.toNat ≤ 0xdbff) := by omega
  have hlo : ¬ (0xdc00 ≤ c.toNat ∧ c.toNat ≤ 0xdfff) := by omega
  simp only [scanUnicode, scanHex4_hex4 h, Option.bind_eq_bind, Option.bind_some, if_neg hhi, if_neg hlo,
    Char.ofNat_toNat, Option.pure_def]

theorem scanUnicode_surrogates {hi lo : Nat} (hhi : 0xd800 ≤ hi ∧ hi ≤ 0xdbff) (hlo : 0xdc00 ≤ lo ∧ lo ≤ 0xdfff)
    (r : List Char) : scanUnicode (hex4 hi ++ '\\' :: 'u' :: (hex4 lo ++ r)) =
      some (Char.ofNat (0x10000 + (hi - 0xd800) * 0x400 + (lo - 0xdc00)), r) := by
  have hhi' : hi < 0x10000 := by omega
  have hlo' : lo < 0x10000 := by omega
  simp only [scanUnicode, scanHex4_hex4 hhi', Option.bind_eq_bind, Option.bind_some, if_pos hhi, scanHex4_hex4 hlo',
    if_pos hlo, Option.pure_def]

theorem scanUnicode_pair {c : Char} (h : 0x10000 ≤ c.toNat) (r : List Char) :
    scanUnicode (hex4 (0xd800 + (c.toNat - 0x10000) / 0x400) ++
      '\\' :: 'u' :: (hex4 (0xdc00 + (c.toNat - 0x10000) % 0x400) ++ r)) = some (c, r) := by
  have hlt := toNat_lt c
  rw [scanUnicode_surrogates ⟨by omega, by omega⟩ ⟨by omega, by omega⟩]
  have hc : 0x10000 + (0xd800 + (c.toNat - 0x10000) / 0x400 - 0xd800) * 0x400 +
      (0xdc00 + (c.toNat - 0x10000) % 0x400 - 0xdc00) = c.toNat := by omega
  rw [hc, Char.ofNat_toNat]

theorem shortEscapes_back {c e : Char} (h : Dict.lookup c shortEscapes = some e) :
    e ≠ 'u' ∧ Dict.lookup e shortUnescapes = some c := by
  simp only [shortEscapes, Dict.lookup] at h
  repeat' split at h
  all_goals cases h
  all_goals subst_vars; decide

theorem shortEscapes_none {c : Char} (h : Dict.lookup c shortEscapes = none) : c ≠ '"' ∧ c ≠ '\\' := by
  constructor <;> rintro rfl <;> simp [shortEscapes, Dict.lookup] at h

/-- The escape of a character, read back. -/
theorem scanString_escapeChar (f : Nat) (c : Char) (r : List Char) :
    scanString (f + 1) (escapeChar ascii c ++ r) = (scanString f r).bind (fun p => some (c :: p.1, p.2)) := by
  have escaped : ∀ t, scanEscape (t ++ r) = some (c, r) → scanString (f + 1) ('\\' :: (t ++ r)) =
      (scanString f r).bind (fun p => some (c :: p.1, p.2)) := fun t ht => by
    have hq : ¬ '\\' = '"' := by decide
    simp only [scanString, if_neg hq, if_true, ht, Option.bind_eq_bind, Option.bind_some, Option.pure_def]
  unfold escapeChar
  cases he : Dict.lookup c shortEscapes with
  | some e =>
    obtain ⟨hu, hb⟩ := shortEscapes_back he
    refine escaped [e] ?_
    simp only [List.cons_append, List.nil_append, scanEscape, if_neg hu, hb, Option.map_some]
  | none =>
    obtain ⟨hq, hb⟩ := shortEscapes_none he
    dsimp only
    split
    · rename_i hp
      have hctl : ¬ c.toNat < 0x20 := by omega
      simp only [List.cons_append, List.nil_append, scanString, if_neg hq, if_neg hb, if_neg hctl, Option.bind_eq_bind,
        Option.pure_def]
    · split
      · rename_i hn
        refine escaped ('u' :: hex4 c.toNat) ?_
        simp only [List.cons_append, scanEscape, if_true, scanUnicode_unit hn]
      · rename_i hn
        have hn : 0x10000 ≤ c.toNat := by omega
        refine escaped ('u' :: hex4 (0xd800 + (c.toNat - 0x10000) / 0x400) ++
          '\\' :: 'u' :: hex4 (0xdc00 + (c.toNat - 0x10000) % 0x400)) ?_
        have hpair := scanUnicode_pair hn r
        simp only [List.cons_append, List.append_assoc, scanEscape, if_true]
        exact hpair

theorem scanString_flatMap : ∀ (s : List Char) (f : Nat) (r : List Char), s.length < f →
    scanString f (s.flatMap (escapeChar ascii) ++ '"' :: r) = some (s, r)
  | [], f + 1, r, _ => rfl
  | c :: s, f + 1, r, h => by
    have hs : s.length < f := by simpa using h
    rw [List.flatMap_cons, List.append_assoc, scanString_escapeChar, scanString_flatMap s f r hs]
    rfl

theorem escapeChar_length (ascii : Bool) (c : Char) : 0 < (escapeChar ascii c).length := by
  unfold escapeChar
  repeat' split
  all_goals simp

theorem length_le_flatMap : ∀ s : List Char, s.length ≤ (s.flatMap (escapeChar ascii)).length
  | [] => Nat.zero_le _
  | c :: s => by
    have hc := escapeChar_length ascii c
    have hs := length_le_flatMap s
    rw [List.flatMap_cons, List.length_append, List.length_cons]
    omega

theorem scanString_encodeString (ascii : Bool) (s : String) (r : List Char) :
    scanString ((s.toList.flatMap (escapeChar ascii) ++ '"' :: r).length + 1) (s.toList.flatMap (escapeChar ascii) ++ '"' :: r) =
      some (s.toList, r) := by
  refine scanString_flatMap s.toList _ r ?_
  have hs : s.toList.length ≤ (s.toList.flatMap (escapeChar ascii)).length := length_le_flatMap _
  rw [List.length_append]
  omega

/-- A Unicode text comes back as it was. -/
instance (ascii : Bool) : TextCodec String ascii where
  back := id
  scan_escape s r := by
    have hs := scanString_encodeString ascii s r
    simp only [TextDecoder.scan, TextEncoder.escape, hs, Option.map_some, String.ofList_toList, id]

/-! ## Numbers -/

/-- What may follow a value inside an encoded text. -/
def Closes (r : List Char) : Prop := ∀ c ∈ r.head?, c = ',' ∨ c = ']' ∨ c = '}'

/-- No digit follows. -/
def Stops (r : List Char) : Prop := ∀ c ∈ r.head?, c.isDigit = false

theorem Closes.stops {r : List Char} (h : Closes r) : Stops r := by
  intro c hc
  rcases h c hc with rfl | rfl | rfl <;> rfl

theorem Stops.not_digit {r : List Char} (h : Stops r) :
    r.takeWhile Char.isDigit = [] ∧ r.dropWhile Char.isDigit = r := by
  cases r with
  | nil => exact ⟨rfl, rfl⟩
  | cons c r =>
    have hc : c.isDigit = false := h c rfl
    exact ⟨by rw [List.takeWhile_cons, hc]; rfl, by rw [List.dropWhile_cons, hc]; rfl⟩

/-- Digits up to what follows them. -/
theorem Stops.digits {ds r : List Char} (hall : ∀ c ∈ ds, c.isDigit = true) (h : Stops r) :
    (ds ++ r).takeWhile Char.isDigit = ds ∧ (ds ++ r).dropWhile Char.isDigit = r := by
  constructor
  · rw [List.takeWhile_append_of_pos hall, h.not_digit.1, List.append_nil]
  · rw [List.dropWhile_append_of_pos hall, h.not_digit.2]

theorem toDigits_head (n : Nat) (hn : 0 < n) : (Nat.toDigits 10 n).head? ≠ some '0' := by
  induction n using Nat.strongRecOn with
  | ind n ih =>
    by_cases hlt : n < 10
    · have hd : ∀ d, d < 10 → 0 < d → Nat.digitChar d ≠ '0' := by decide
      rw [Nat.toDigits_of_lt_base hlt]
      exact fun h => hd n hlt hn (Option.some.inj h)
    · have h := ih (n / 10) (by omega) (by omega)
      rw [Nat.toDigits_of_base_le (by omega) (by omega), List.head?_append_of_ne_nil _ Nat.toDigits_ne_nil]
      exact h

theorem scanNat_toDigits (n : Nat) {r : List Char} (h : Stops r) :
    scanNat (Nat.toDigits 10 n ++ r) = some (n, r) := by
  by_cases hn : n = 0
  · subst hn
    rw [Nat.toDigits_zero]
    rfl
  · have hall : ∀ c ∈ Nat.toDigits 10 n, c.isDigit = true := fun c hc =>
      Nat.isDigit_of_mem_toDigits (by omega) (by omega) hc
    have hhead := toDigits_head n (by omega)
    obtain ⟨htake, hdrop⟩ := Stops.digits hall h
    cases hd : Nat.toDigits 10 n with
    | nil => exact absurd hd Nat.toDigits_ne_nil
    | cons d ds =>
      rw [hd] at hhead htake hdrop hall
      have h0 : ¬ d = '0' := fun h => hhead (by rw [h]; rfl)
      have hdig : d.isDigit = true := hall d List.mem_cons_self
      rw [List.cons_append] at htake hdrop ⊢
      rw [scanNat, if_neg h0, if_pos hdig, htake, hdrop, ← hd, Nat.ofDigitChars_ten_toDigits]

theorem digit_ne {c : Char} (h : c.isDigit = true) (d : Char) (hd : d.isDigit = false) : ¬ c = d := by
  rintro rfl
  rw [h] at hd
  cases hd

theorem toDigits_cons (n : Nat) : ∃ c t, Nat.toDigits 10 n = c :: t ∧ c.isDigit = true := by
  cases h : Nat.toDigits 10 n with
  | nil => exact absurd h Nat.toDigits_ne_nil
  | cons c t =>
    have hc : c ∈ Nat.toDigits 10 n := by rw [h]; exact List.mem_cons_self
    exact ⟨c, t, rfl, Nat.isDigit_of_mem_toDigits (by omega) (by omega) hc⟩

theorem scanDigits_append (ds : Digits) {r : List Char} (h : Stops r) :
    scanDigits (ds.ds ++ r) = some (ds, r) := by
  obtain ⟨htake, hdrop⟩ := Stops.digits ds.digits h
  have hne : ¬ (ds.ds ++ r).takeWhile Char.isDigit = [] := by
    rw [htake]
    exact ds.nonempty
  rw [scanDigits, dif_neg hne]
  simp only [hdrop, htake]

theorem scanFrac_fracText (frac : Option Digits) {r : List Char} (h : Stops r) (hp : r.head? ≠ some '.') :
    scanFrac (fracText frac ++ r) = (frac, r) := by
  cases frac with
  | none => exact if_neg hp
  | some ds => simp only [fracText, scanFrac, List.cons_append, List.head?_cons, if_true, List.tail_cons,
      scanDigits_append ds h]

theorem scanExp_expText (exp : Option (Bool × Digits)) {r : List Char} (h : Closes r) :
    scanExp (expText exp ++ r) = (exp, r) := by
  cases exp with
  | none =>
    refine if_neg ?_
    rintro (hc | hc) <;> rcases h _ hc with hc | hc | hc <;> cases hc
  | some p =>
    obtain ⟨neg, ds⟩ := p
    have hn : ¬ some '+' = some '-' := by decide
    cases neg
    · simp only [expText, scanExp, List.cons_append, List.head?_cons, List.tail_cons, Bool.false_eq_true, if_false, true_or,
        if_true, or_true, scanDigits_append ds h.stops, decide_eq_false hn]
    · simp only [expText, scanExp, List.cons_append, List.head?_cons, List.tail_cons, if_true, true_or,
        scanDigits_append ds h.stops, decide_true]

/-- The text of an exponent, and what closes after it, starts with no digit and no point. -/
theorem stops_expText (exp : Option (Bool × Digits)) {r : List Char} (h : Closes r) :
    Stops (expText exp ++ r) ∧ (expText exp ++ r).head? ≠ some '.' := by
  cases exp with
  | none =>
    refine ⟨h.stops, fun hc => ?_⟩
    rcases h _ hc with hc | hc | hc <;> cases hc
  | some p => exact ⟨fun c hc => by cases hc; rfl, fun hc => by cases hc⟩

theorem stops_fracText (frac : Option Digits) {r : List Char} (h : Stops r) : Stops (fracText frac ++ r) := by
  cases frac with
  | none => exact h
  | some ds => exact fun c hc => by cases hc; rfl

/-- **The text of a number is scanned back to the number.** -/
theorem scanNumber_text (neg : Bool) (n : Nat) (frac : Option Digits) (exp : Option (Bool × Digits)) {r : List Char}
    (h : Closes r) : scanNumber (signText neg ++ Nat.toDigits 10 n ++ fracText frac ++ expText exp ++ r) =
      some ((number neg n frac exp : Json τ), r) := by
  obtain ⟨hs, hp⟩ := stops_expText exp h
  have hnat := scanNat_toDigits n (stops_fracText frac hs)
  have hhead : ∀ t, (Nat.toDigits 10 n ++ t).head? ≠ some '-' := by
    obtain ⟨c, t, hc, hd⟩ := toDigits_cons n
    rw [hc]
    exact fun _ h => digit_ne hd '-' rfl (Option.some.inj h)
  cases neg
  · simp only [signText, Bool.false_eq_true, if_false, List.nil_append, List.append_assoc, scanNumber, hhead, hnat,
      Option.map_some, decide_false, scanFrac_fracText frac hs hp, scanExp_expText exp h]
  · simp only [signText, if_true, List.cons_append, List.nil_append, List.append_assoc, scanNumber, List.head?_cons,
      List.tail_cons, hnat, Option.map_some, decide_true, scanFrac_fracText frac hs hp, scanExp_expText exp h]

theorem encodeInt_eq (n : Int) :
    encodeInt n = signText (decide (n < 0)) ++ Nat.toDigits 10 n.natAbs ++ fracText none ++ expText none := by
  cases n with
  | ofNat n => simp [encodeInt, signText, fracText, expText]
  | negSucc n => simp [encodeInt, signText, fracText, expText]

theorem number_int (n : Int) : (number (decide (n < 0)) n.natAbs none none : Json τ) = .int n := by
  have hn : ¬ ((none : Option Digits).isSome = true ∨ (none : Option (Bool × Digits)).isSome = true) := by simp
  rw [number, dif_neg hn]
  by_cases h : n < 0
  · rw [decide_eq_true h, if_pos rfl]
    congr 1
    omega
  · rw [decide_eq_false h, if_neg (by simp)]
    congr 1
    omega

/-- The first character of a number. -/
def NumberHead (c : Char) : Prop := c.isDigit = true ∨ c = '-'

theorem signText_cons (neg : Bool) (n : Nat) : ∃ c t, signText neg ++ Nat.toDigits 10 n = c :: t ∧ NumberHead c := by
  cases neg
  · obtain ⟨c, t, hc, hd⟩ := toDigits_cons n
    exact ⟨c, t, hc, .inl hd⟩
  · exact ⟨'-', _, rfl, .inr rfl⟩

theorem encodeInt_cons (n : Int) : ∃ c t, encodeInt n = c :: t ∧ NumberHead c := by
  obtain ⟨c, t, hc, hd⟩ := signText_cons (decide (n < 0)) n.natAbs
  exact ⟨c, t ++ fracText none ++ expText none, by rw [encodeInt_eq, hc, List.cons_append, List.cons_append], hd⟩

/-- The first character of a float: of a number, or of a word. -/
theorem encodeFloat_cons (x : Float) : ∃ c t, encodeFloat x = c :: t ∧ (NumberHead c ∨ c = 'N' ∨ c = 'I') := by
  cases x with
  | nan => exact ⟨'N', _, rfl, .inr (.inl rfl)⟩
  | infinity neg =>
    cases neg
    · exact ⟨'I', _, rfl, .inr (.inr rfl)⟩
    · exact ⟨'-', _, rfl, .inl (.inr rfl)⟩
  | finite d =>
    obtain ⟨c, t, hc, hd⟩ := signText_cons d.neg d.whole
    exact ⟨c, t ++ fracText d.frac ++ expText d.exp, by rw [encodeFloat, hc, List.cons_append, List.cons_append], .inl hd⟩

/-- A character that starts a number is any of these only when it is a digit or the sign. -/
theorem NumberHead.ne {c : Char} (h : NumberHead c) (d : Char) (hd : d.isDigit = false) (hs : d ≠ '-') : ¬ c = d := by
  rcases h with h | rfl
  · exact digit_ne h d hd
  · exact fun h => hs h.symm

theorem encodeWith_cons (ascii : Bool) [TextEncoder τ ascii] (blank : List Char) (j : Json τ) :
    ∃ c t, encodeWith ascii blank j = c :: t ∧ isSpace c = false ∧ c ≠ ']' ∧ c ≠ '}' := by
  have number : ∀ c, NumberHead c → isSpace c = false ∧ c ≠ ']' ∧ c ≠ '}' := by
    intro c h
    refine ⟨?_, h.ne _ rfl (by decide), h.ne _ rfl (by decide)⟩
    simp [isSpace, h.ne ' ' rfl (by decide), h.ne '\t' rfl (by decide), h.ne '\n' rfl (by decide),
      h.ne '\r' rfl (by decide)]
  cases j with
  | null => exact ⟨_, _, by rw [encodeWith], by decide⟩
  | bool b => cases b <;> exact ⟨_, _, by rw [encodeWith], by decide⟩
  | str s => exact ⟨'"', _, by rw [encodeWith, encodeString, List.cons_append], by decide⟩
  | arr xs => exact ⟨'[', _, by rw [encodeWith, List.cons_append], by decide⟩
  | obj ms => exact ⟨'{', _, by rw [encodeWith, List.cons_append], by decide⟩
  | int n =>
    obtain ⟨c, t, hc, hd⟩ := encodeInt_cons n
    exact ⟨c, t, by rw [encodeWith, hc], number c hd⟩
  | float x =>
    obtain ⟨c, t, hc, hd | rfl | rfl⟩ := encodeFloat_cons x
    · exact ⟨c, t, by rw [encodeWith, hc], number c hd⟩
    · exact ⟨_, t, by rw [encodeWith, hc], by decide⟩
    · exact ⟨_, t, by rw [encodeWith, hc], by decide⟩

/-! ## The round trip -/

mutual

/-- No object has a key twice. -/
def Wf : Json τ → Prop
  | .arr xs => WfElems xs
  | .obj ms => (ms.map Prod.fst).Nodup ∧ WfMembers ms
  | _       => True

def WfElems : List (Json τ) → Prop
  | []      => True
  | x :: xs => x.Wf ∧ WfElems xs

def WfMembers : List (String × Json τ) → Prop
  | []           => True
  | (_, v) :: ms => v.Wf ∧ WfMembers ms

end

theorem wfElems_iff : ∀ {xs : List (Json τ)}, WfElems xs ↔ ∀ x ∈ xs, x.Wf
  | [] => by simp [WfElems]
  | x :: xs => by simp [WfElems, wfElems_iff]

theorem wfMembers_iff : ∀ {ms : List (String × Json τ)}, WfMembers ms ↔ ∀ m ∈ ms, m.2.Wf
  | [] => by simp [WfMembers]
  | (k, v) :: ms => by simp [WfMembers, wfMembers_iff]

theorem foldl_assign : ∀ (ms acc : List (String × Json τ)), ((acc ++ ms).map Prod.fst).Nodup →
    ms.foldl (fun l m => Dict.assign m.1 m.2 l) acc = acc ++ ms
  | [], acc, _ => (List.append_nil acc).symm
  | (k, v) :: ms, acc, h => by
    have hk : k ∉ acc.map Prod.fst := by
      rw [List.map_append, List.map_cons] at h
      exact fun hm => (List.nodup_append.1 h).2.2 k hm k List.mem_cons_self rfl
    rw [List.foldl_cons, Dict.assign_new hk, foldl_assign ms _ (by simpa using h), List.append_assoc]
    rfl

/-- What follows a comma or a colon is white space. -/
def Blank (blank : List Char) : Prop := ∀ c ∈ blank, isSpace c = true

/-- Nothing before the first character is skipped. -/
theorem skipSpace_cons {c : Char} (hs : isSpace c = false) (t : List Char) : skipSpace (c :: t) = c :: t := by
  rw [skipSpace, List.dropWhile_cons, hs]
  rfl

theorem skipSpace_blank {blank : List Char} (hb : Blank blank) (t : List Char) : skipSpace (blank ++ t) = skipSpace t :=
  List.dropWhile_append_of_pos hb

section
variable [TextEncoder τ ascii]

theorem encodeElemsWith_cons (blank : List Char) (x : Json τ) (xs : List (Json τ)) :
    ∃ c t, encodeElemsWith ascii blank (x :: xs) = c :: t ∧ isSpace c = false ∧ c ≠ ']' := by
  obtain ⟨c, t, hc, hs, hb, -⟩ := encodeWith_cons ascii blank x
  exact ⟨c, _, by rw [encodeElemsWith, hc, List.cons_append, List.cons_append], hs, hb⟩

theorem encodeMembersWith_cons (blank : List Char) (m : String × Json τ) (ms : List (String × Json τ)) :
    ∃ t, encodeMembersWith ascii blank (m :: ms) = '"' :: t :=
  ⟨_, by rw [encodeMembersWith, encodeString, List.cons_append, List.cons_append, List.cons_append, List.cons_append,
    List.cons_append]⟩

end

section
variable [TextEncoder τ ascii] [TextDecoder τ] [TextCodec τ ascii]

/-- A value as it comes back: with its texts as the decoder reads them. -/
def readBack (ascii : Bool) [TextEncoder τ ascii] [TextCodec τ ascii] : Json τ → Json τ := mapText (TextCodec.back ascii)

/-- **The text of a value is scanned back to the value**, whatever closes after it. -/
def ScansWith (ascii : Bool) [TextEncoder τ ascii] [TextCodec τ ascii] (blank : List Char) (j : Json τ) : Prop :=
  ∀ (f : Nat) (r : List Char), (encodeWith ascii blank j).length ≤ f → Closes r →
    scanValue f (encodeWith ascii blank j ++ r) = some (j.readBack ascii, r)

omit [TextEncoder τ ascii] [TextCodec τ ascii] in
/-- A text that starts a number is scanned as one. -/
theorem scanValue_number {c : Char} {t r : List Char} {j : Json τ} (hd : NumberHead c)
    (hn : scanNumber (c :: t) = some (j, r)) (f : Nat) : scanValue (f + 1) (c :: t) = some (j, r) := by
  have hne := fun d h₁ h₂ => hd.ne d h₁ h₂
  simp only [scanValue, if_neg (hne '"' rfl (by decide)), if_neg (hne '[' rfl (by decide)),
    if_neg (hne '\x7b' rfl (by decide)), if_neg (hne 'n' rfl (by decide)), if_neg (hne 't' rfl (by decide)),
    if_neg (hne 'f' rfl (by decide)), if_neg (hne 'N' rfl (by decide)), if_neg (hne 'I' rfl (by decide)), hn]

theorem scansWith_int (n : Int) : ScansWith ascii blank (.int n : Json τ) := by
  intro f r hf hr
  obtain ⟨c, t, hc, hd⟩ := encodeInt_cons n
  have hn : scanNumber (encodeInt n ++ r) = some ((.int n : Json τ), r) := by
    rw [encodeInt_eq, scanNumber_text _ _ _ _ hr, number_int]
  rw [encodeWith] at hf ⊢
  rw [hc, List.cons_append] at hn ⊢
  rw [hc] at hf
  cases f with
  | zero => cases hf
  | succ f => exact scanValue_number hd hn f

theorem scansWith_float (x : Float) : ScansWith ascii blank (.float x : Json τ) := by
  intro f r hf hr
  rw [encodeWith] at hf ⊢
  cases f with
  | zero =>
    obtain ⟨c, t, hc, -⟩ := encodeFloat_cons x
    rw [hc] at hf
    cases hf
  | succ f =>
    cases x with
    | nan => rfl
    | infinity neg => cases neg <;> rfl
    | finite d =>
      obtain ⟨c, t, hc, hd⟩ := signText_cons d.neg d.whole
      have hn := @scanNumber_text τ d.neg d.whole d.frac d.exp r hr
      rw [number, dif_pos d.isFloat] at hn
      rw [encodeFloat]
      rw [hc] at hn ⊢
      exact scanValue_number hd hn f

theorem scansWith_str (s : τ) : ScansWith ascii blank (.str s) := by
  intro f r hf _
  rw [encodeWith, encodeString] at hf ⊢
  cases f with
  | zero => cases hf
  | succ f =>
    have htext : '"' :: TextEncoder.escape ascii s ++ ['"'] ++ r = '"' :: (TextEncoder.escape ascii s ++ '"' :: r) := by simp
    rw [htext]
    simp only [scanValue, if_true, TextCodec.scan_escape, Option.map_some]
    rfl

theorem scanElems_encode (hb : Blank blank) : ∀ (x : Json τ) (xs : List (Json τ)) (f : Nat) (r : List Char),
    (∀ y ∈ x :: xs, ScansWith ascii blank y) → (encodeElemsWith ascii blank (x :: xs)).length < f →
    scanElems f (encodeElemsWith ascii blank (x :: xs) ++ ']' :: r) = some ((x :: xs).map (readBack ascii), r)
  | x, [], f, r, hs, hf => by
    have htext : encodeElemsWith ascii blank [x] = encodeWith ascii blank x := by simp [encodeElemsWith, separatorWith]
    rw [htext] at hf ⊢
    obtain ⟨f, rfl⟩ : ∃ g, f = g + 1 := ⟨f - 1, by omega⟩
    have hx := hs x List.mem_cons_self f (']' :: r) (by omega) (fun c hc => by cases hc; exact .inr (.inl rfl))
    simp only [scanElems, hx, Option.bind_eq_bind, Option.bind_some]
    rfl
  | x, y :: ys, f, r, hs, hf => by
    have htext : encodeElemsWith ascii blank (x :: y :: ys) =
        encodeWith ascii blank x ++ ',' :: (blank ++ encodeElemsWith ascii blank (y :: ys)) := by
      simp [encodeElemsWith, separatorWith]
    rw [htext] at hf ⊢
    rw [List.length_append, List.length_cons, List.length_append] at hf
    obtain ⟨f, rfl⟩ : ∃ g, f = g + 1 := ⟨f - 1, by omega⟩
    have hx := hs x List.mem_cons_self f (',' :: (blank ++ (encodeElemsWith ascii blank (y :: ys) ++ ']' :: r)))
      (by omega) (fun c hc => by cases hc; exact .inl rfl)
    have hys := scanElems_encode hb y ys f r (fun z hz => hs z (List.mem_cons_of_mem _ hz)) (by omega)
    have hskip : skipSpace (blank ++ (encodeElemsWith ascii blank (y :: ys) ++ ']' :: r)) =
        encodeElemsWith ascii blank (y :: ys) ++ ']' :: r := by
      obtain ⟨c, t, hc, hs, -⟩ := @encodeElemsWith_cons ascii τ _ blank y ys
      rw [skipSpace_blank hb, hc]
      exact skipSpace_cons hs _
    have hcomma : ∀ t, skipSpace (',' :: t) = ',' :: t := skipSpace_cons rfl
    rw [List.append_assoc, List.cons_append, List.append_assoc]
    simp only [scanElems, hx, Option.bind_eq_bind, Option.bind_some, hcomma, hskip, hys, Option.pure_def,
      List.map_cons]

theorem scansWith_arr (hb : Blank blank) {xs : List (Json τ)} (hs : ∀ x ∈ xs, ScansWith ascii blank x) :
    ScansWith ascii blank (.arr xs) := by
  intro f r hf _
  rw [encodeWith] at hf ⊢
  have htext : '[' :: encodeElemsWith ascii blank xs ++ [']'] ++ r =
      '[' :: (encodeElemsWith ascii blank xs ++ ']' :: r) := by simp
  have hlen : (encodeElemsWith ascii blank xs).length + 2 ≤ f := by
    simp only [List.length_append, List.length_cons, List.length_nil] at hf
    omega
  obtain ⟨f, rfl⟩ : ∃ g, f = g + 1 := ⟨f - 1, by omega⟩
  have h₁ : ¬ '[' = '"' := by decide
  rw [htext]
  simp only [scanValue, if_neg h₁, if_true]
  cases xs with
  | nil => rfl
  | cons x xs =>
    obtain ⟨c, t, hc, hsp, hne⟩ := @encodeElemsWith_cons ascii τ _ blank x xs
    have hskip : skipSpace (encodeElemsWith ascii blank (x :: xs) ++ ']' :: r) =
        encodeElemsWith ascii blank (x :: xs) ++ ']' :: r := by
      rw [hc]
      exact skipSpace_cons hsp _
    have hhead : ¬ (encodeElemsWith ascii blank (x :: xs) ++ ']' :: r).head? = some ']' := by
      rw [hc]
      exact fun h => hne (Option.some.inj h)
    rw [hskip, if_neg hhead, scanElems_encode hb x xs f r hs (by omega), readBack, mapText, mapElems_eq]
    rfl

/-- One member and what follows it. -/
theorem scanMembers_member (hb : Blank blank) {k : String} {v : Json τ} (hv : ScansWith ascii blank v) {f : Nat}
    {c : Char} {t : List Char} (hc : c = ',' ∨ c = '\x7d') (hf : (encodeWith ascii blank v).length ≤ f) :
    scanMembers (f + 1) (encodeString ascii k ++ ':' :: blank ++ encodeWith ascii blank v ++ c :: t) =
      if c = ',' then (scanMembers f (skipSpace t)).bind (fun p => some ((k, v.readBack ascii) :: p.1, p.2))
      else some ([(k, v.readBack ascii)], t) := by
  have htext : encodeString ascii k ++ ':' :: blank ++ encodeWith ascii blank v ++ c :: t =
      '"' :: (k.toList.flatMap (escapeChar ascii) ++ '"' :: ':' :: (blank ++ (encodeWith ascii blank v ++ c :: t))) := by
    simp [encodeString, TextEncoder.escape]
  have hk := scanString_encodeString ascii k (':' :: (blank ++ (encodeWith ascii blank v ++ c :: t)))
  have hv := hv f (c :: t) hf (fun d hd => by cases hd; exact hc.imp_right .inr)
  have hskip : skipSpace (blank ++ (encodeWith ascii blank v ++ c :: t)) = encodeWith ascii blank v ++ c :: t := by
    obtain ⟨d, u, hd, hs, -⟩ := encodeWith_cons ascii blank v
    rw [skipSpace_blank hb, hd]
    exact skipSpace_cons hs _
  have hcolon : ∀ t, skipSpace (':' :: t) = ':' :: t := skipSpace_cons rfl
  have hclose : skipSpace (c :: t) = c :: t := skipSpace_cons (by rcases hc with rfl | rfl <;> rfl) t
  rw [htext]
  simp only [scanMembers, List.head?_cons, guard_true, List.length_cons, List.tail_cons, hk, hcolon, hskip, hv, hclose,
    Option.bind_eq_bind, Option.bind_some, Option.pure_def, String.ofList_toList]
  rcases hc with rfl | rfl
  · rfl
  · rfl

theorem scanMembers_encode (hb : Blank blank) : ∀ (m : String × Json τ) (ms : List (String × Json τ)) (f : Nat)
    (r : List Char), (∀ p ∈ m :: ms, ScansWith ascii blank p.2) → (encodeMembersWith ascii blank (m :: ms)).length < f →
    scanMembers f (encodeMembersWith ascii blank (m :: ms) ++ '\x7d' :: r) =
      some (mapMembers (TextCodec.back ascii) (m :: ms), r)
  | (k, v), [], f, r, hs, hf => by
    have htext : encodeMembersWith ascii blank [(k, v)] =
        encodeString ascii k ++ ':' :: blank ++ encodeWith ascii blank v := by
      simp [encodeMembersWith, separatorWith]
    rw [htext] at hf ⊢
    rw [List.length_append] at hf
    obtain ⟨f, rfl⟩ : ∃ g, f = g + 1 := ⟨f - 1, by omega⟩
    have hv : ScansWith ascii blank v := hs (k, v) List.mem_cons_self
    rw [scanMembers_member hb hv (.inr rfl) (by omega), if_neg (by decide)]
    rfl
  | (k, v), m :: ms, f, r, hs, hf => by
    have htext : encodeMembersWith ascii blank ((k, v) :: m :: ms) = encodeString ascii k ++ ':' :: blank ++
        encodeWith ascii blank v ++ ',' :: (blank ++ encodeMembersWith ascii blank (m :: ms)) := by
      simp [encodeMembersWith, separatorWith]
    rw [htext] at hf ⊢
    simp only [List.length_append, List.length_cons] at hf
    obtain ⟨f, rfl⟩ : ∃ g, f = g + 1 := ⟨f - 1, by omega⟩
    have hms := scanMembers_encode hb m ms f r (fun p hp => hs p (List.mem_cons_of_mem _ hp)) (by omega)
    have hskip : skipSpace (blank ++ (encodeMembersWith ascii blank (m :: ms) ++ '\x7d' :: r)) =
        encodeMembersWith ascii blank (m :: ms) ++ '\x7d' :: r := by
      obtain ⟨t, hc⟩ := @encodeMembersWith_cons ascii τ _ blank m ms
      rw [skipSpace_blank hb, hc]
      rfl
    have hv : ScansWith ascii blank v := hs (k, v) List.mem_cons_self
    rw [List.append_assoc (encodeString ascii k ++ ':' :: blank ++ encodeWith ascii blank v), List.cons_append,
      List.append_assoc blank, scanMembers_member hb hv (.inl rfl) (by omega), if_pos rfl]
    simp only [hskip, hms, Option.bind_some]
    rfl

theorem scansWith_obj (hb : Blank blank) {ms : List (String × Json τ)} (hn : (ms.map Prod.fst).Nodup)
    (hs : ∀ m ∈ ms, ScansWith ascii blank m.2) : ScansWith ascii blank (.obj ms) := by
  intro f r hf _
  rw [encodeWith] at hf ⊢
  have htext : '\x7b' :: encodeMembersWith ascii blank ms ++ ['\x7d'] ++ r =
      '\x7b' :: (encodeMembersWith ascii blank ms ++ '\x7d' :: r) := by simp
  have hlen : (encodeMembersWith ascii blank ms).length + 2 ≤ f := by
    simp only [List.length_append, List.length_cons, List.length_nil] at hf
    omega
  obtain ⟨f, rfl⟩ : ∃ g, f = g + 1 := ⟨f - 1, by omega⟩
  have h₁ : ¬ '\x7b' = '"' := by decide
  have h₂ : ¬ '\x7b' = '[' := by decide
  rw [htext]
  simp only [scanValue, if_neg h₁, if_neg h₂, if_true]
  cases ms with
  | nil => rfl
  | cons m ms =>
    obtain ⟨t, hc⟩ := @encodeMembersWith_cons ascii τ _ blank m ms
    have hskip : skipSpace (encodeMembersWith ascii blank (m :: ms) ++ '\x7d' :: r) =
        encodeMembersWith ascii blank (m :: ms) ++ '\x7d' :: r := by
      rw [hc]
      rfl
    have hhead : ¬ (encodeMembersWith ascii blank (m :: ms) ++ '\x7d' :: r).head? = some '\x7d' := by
      rw [hc]
      exact fun h => by cases h
    have hkeys : (([] ++ mapMembers (TextCodec.back ascii) (m :: ms)).map Prod.fst).Nodup := by
      rw [List.nil_append, keys_mapMembers]
      exact hn
    rw [hskip, if_neg hhead, scanMembers_encode hb m ms f r hs (by omega), Option.map_some, ofMembers,
      foldl_assign _ [] hkeys]
    rfl

theorem scansWith (ascii : Bool) [TextEncoder τ ascii] [TextCodec τ ascii] (hb : Blank blank) (j : Json τ) :
    j.Wf → ScansWith ascii blank j := by
  induction j using Json.induct with
  | null => exact fun _ f r hf _ => by cases f <;> [cases hf; rfl]
  | bool b => cases b <;> exact fun _ f r hf _ => by cases f <;> [cases hf; rfl]
  | int n => exact fun _ => scansWith_int n
  | float x => exact fun _ => scansWith_float x
  | str s => exact fun _ => scansWith_str s
  | arr xs ih =>
    intro h
    rw [Wf, wfElems_iff] at h
    exact scansWith_arr hb fun x hx => ih x hx (h x hx)
  | obj ms ih =>
    intro h
    rw [Wf, wfMembers_iff] at h
    exact scansWith_obj hb h.1 fun m hm => ih m hm (h.2 m hm)

end

/-! The default separators are a comma and a colon with one space. -/

section
variable [TextEncoder τ ascii]

theorem encodeElemsWith_space : ∀ {xs : List (Json τ)}, (∀ x ∈ xs, encodeWith ascii [' '] x = encode ascii x) →
    encodeElemsWith ascii [' '] xs = encodeElems ascii xs
  | [], _ => by rw [encodeElemsWith, encodeElems]
  | x :: xs, h => by
    rw [encodeElemsWith, encodeElems, h x List.mem_cons_self,
      encodeElemsWith_space fun y hy => h y (List.mem_cons_of_mem _ hy)]
    cases xs <;> rfl

theorem encodeMembersWith_space : ∀ {ms : List (String × Json τ)},
    (∀ m ∈ ms, encodeWith ascii [' '] m.2 = encode ascii m.2) →
    encodeMembersWith ascii [' '] ms = encodeMembers ascii ms
  | [], _ => by rw [encodeMembersWith, encodeMembers]
  | (k, v) :: ms, h => by
    rw [encodeMembersWith, encodeMembers, h (k, v) List.mem_cons_self,
      encodeMembersWith_space fun m hm => h m (List.mem_cons_of_mem _ hm)]
    cases ms <;> rfl

theorem encodeWith_space (ascii : Bool) [TextEncoder τ ascii] (j : Json τ) : encodeWith ascii [' '] j = encode ascii j := by
  induction j using Json.induct with
  | null => rw [encodeWith, encode]
  | bool b => cases b <;> rw [encodeWith, encode]
  | int n => rw [encodeWith, encode]
  | float x => rw [encodeWith, encode]
  | str s => rw [encodeWith, encode]
  | arr xs ih => rw [encodeWith, encode, encodeElemsWith_space ih]
  | obj ms ih => rw [encodeWith, encode, encodeMembersWith_space ih]

theorem blank_space : Blank [' '] := by
  intro c hc
  rw [List.mem_singleton.1 hc]
  rfl

theorem encode_cons (ascii : Bool) [TextEncoder τ ascii] (j : Json τ) :
    ∃ c t, encode ascii j = c :: t ∧ isSpace c = false ∧ c ≠ ']' ∧ c ≠ '}' :=
  encodeWith_space ascii j ▸ encodeWith_cons ascii [' '] j

end

/-! ## No line break -/

/-- No control character. -/
def Printable (cs : List Char) : Prop := ∀ c ∈ cs, 0x20 ≤ c.toNat

instance (cs : List Char) : Decidable (Printable cs) := List.decidableBAll (fun c : Char => 0x20 ≤ c.toNat) cs

theorem Printable.append {xs ys : List Char} (hx : Printable xs) (hy : Printable ys) : Printable (xs ++ ys) := by
  intro c hc
  rcases List.mem_append.1 hc with hc | hc
  · exact hx c hc
  · exact hy c hc

theorem Printable.cons {c : Char} {cs : List Char} (hc : 0x20 ≤ c.toNat) (hcs : Printable cs) : Printable (c :: cs) := by
  intro d hd
  rcases List.mem_cons.1 hd with rfl | hd
  · exact hc
  · exact hcs d hd

theorem printable_nil : Printable [] := by
  intro c hc
  cases hc

theorem printable_hex4 (n : Nat) : Printable (hex4 n) := by
  have hd : ∀ d, d < 16 → 0x20 ≤ (Nat.digitChar d).toNat := by decide
  have h16 : ∀ k, 0x20 ≤ (Nat.digitChar (k % 16)).toNat := fun k => hd _ (Nat.mod_lt _ (by decide))
  exact .cons (h16 _) (.cons (h16 _) (.cons (h16 _) (.cons (h16 _) printable_nil)))

theorem printable_escape {e : Char} {c : Char} (h : Dict.lookup c shortEscapes = some e) : 0x20 ≤ e.toNat := by
  simp only [shortEscapes, Dict.lookup] at h
  repeat' split at h
  all_goals cases h
  all_goals decide

theorem printable_escapeChar (c : Char) : Printable (escapeChar ascii c) := by
  have hb : 0x20 ≤ '\\'.toNat := by decide
  have hu : 0x20 ≤ 'u'.toNat := by decide
  unfold escapeChar
  cases he : Dict.lookup c shortEscapes with
  | some e => exact .cons hb (.cons (printable_escape he) printable_nil)
  | none =>
    dsimp only
    split
    · rename_i hc
      exact .cons hc.1 printable_nil
    · split
      · exact .cons hb (.cons hu (printable_hex4 _))
      · exact .append (.cons hb (.cons hu (printable_hex4 _))) (.cons hb (.cons hu (printable_hex4 _)))

theorem printable_encodeString (s : String) : Printable (encodeString ascii s) := by
  have hs : Printable (s.toList.flatMap (escapeChar ascii)) := by
    intro c hc
    obtain ⟨d, -, hd⟩ := List.mem_flatMap.1 hc
    exact printable_escapeChar d c hd
  exact .cons (by decide) (hs.append (.cons (by decide) printable_nil))

theorem printable_digits {ds : List Char} (h : ∀ c ∈ ds, c.isDigit = true) : Printable ds := by
  intro c hc
  have hd := h c hc
  simp only [Char.isDigit, Bool.and_eq_true, decide_eq_true_eq, UInt32.le_iff_toNat_le] at hd
  exact Nat.le_trans (by decide) hd.1

theorem printable_toDigits (n : Nat) : Printable (Nat.toDigits 10 n) :=
  printable_digits fun _ hc => Nat.isDigit_of_mem_toDigits (by omega) (by omega) hc

theorem printable_signText (neg : Bool) : Printable (signText neg) := by
  cases neg
  · exact printable_nil
  · exact .cons (by decide) printable_nil

theorem printable_fracText (frac : Option Digits) : Printable (fracText frac) := by
  cases frac with
  | none => exact printable_nil
  | some ds => exact .cons (by decide) (printable_digits ds.digits)

theorem printable_expText (exp : Option (Bool × Digits)) : Printable (expText exp) := by
  cases exp with
  | none => exact printable_nil
  | some p =>
    obtain ⟨neg, ds⟩ := p
    have hsign : 0x20 ≤ (if neg = true then '-' else '+').toNat := by cases neg <;> decide
    exact .cons (by decide) (.cons hsign (printable_digits ds.digits))

theorem printable_number (neg : Bool) (n : Nat) (frac : Option Digits) (exp : Option (Bool × Digits)) :
    Printable (signText neg ++ Nat.toDigits 10 n ++ fracText frac ++ expText exp) :=
  (((printable_signText neg).append (printable_toDigits n)).append (printable_fracText frac)).append
    (printable_expText exp)

theorem printable_encodeFloat (x : Float) : Printable (encodeFloat x) := by
  cases x with
  | nan => decide
  | infinity neg => cases neg <;> decide
  | finite d => exact printable_number _ _ _ _

theorem printable_separator {α : Type} (l : List α) : Printable (separator l) := by
  cases l with
  | nil => exact printable_nil
  | cons _ _ => exact .cons (by decide) (.cons (by decide) printable_nil)

theorem printable_encodeElems : ∀ {xs : List Json}, (∀ x ∈ xs, Printable (encode ascii x)) →
    Printable (encodeElems ascii xs)
  | [], _ => by
    rw [encodeElems]
    exact printable_nil
  | x :: xs, h => by
    rw [encodeElems]
    exact ((h x List.mem_cons_self).append (printable_separator xs)).append
      (printable_encodeElems fun y hy => h y (List.mem_cons_of_mem _ hy))

theorem printable_encodeMembers : ∀ {ms : List (String × Json)}, (∀ m ∈ ms, Printable (encode ascii m.2)) →
    Printable (encodeMembers ascii ms)
  | [], _ => by
    rw [encodeMembers]
    exact printable_nil
  | (k, v) :: ms, h => by
    have hk : Printable (encodeString ascii k ++ [':', ' ']) := (printable_encodeString k).append (by decide)
    rw [encodeMembers]
    exact ((hk.append (h (k, v) List.mem_cons_self)).append (printable_separator ms)).append
      (printable_encodeMembers fun m hm => h m (List.mem_cons_of_mem _ hm))

/-- **An encoded text has no control character**, so it is one line. -/
theorem printable_encode (j : Json) : Printable (encode ascii j) := by
  induction j using Json.induct with
  | null => rw [encode]; decide
  | bool b => cases b <;> rw [encode] <;> decide
  | int n =>
    rw [encode, encodeInt_eq]
    exact printable_number _ _ _ _
  | float x =>
    rw [encode]
    exact printable_encodeFloat x
  | str s =>
    rw [encode]
    exact printable_encodeString s
  | arr xs ih =>
    rw [encode]
    exact .cons (by decide) ((printable_encodeElems ih).append (by decide))
  | obj ms ih =>
    rw [encode]
    exact .cons (by decide) ((printable_encodeMembers ih).append (by decide))

/-! ## The texts -/

section
variable [TextDecoder τ]

/-- A text scanned to its value, with nothing after it, is loaded as the value. -/
theorem loads_of_scan {cs : List Char} {j : Json τ} (hskip : skipSpace cs = cs)
    (hscan : scanValue (cs.length + 1) cs = some (j, [])) : loads (String.ofList cs) = some j := by
  simp only [loads, String.toList_ofList, hskip, String.length_ofList, hscan, Option.bind_eq_bind, Option.bind_some]
  rfl

theorem loads_encodeWith (ascii : Bool) [TextEncoder τ ascii] [TextCodec τ ascii] (hb : Blank blank) (j : Json τ)
    (h : j.Wf) : loads (String.ofList (encodeWith ascii blank j)) = some (j.readBack ascii) := by
  have hscan := scansWith ascii hb j h ((encodeWith ascii blank j).length + 1) [] (by omega) (fun c hc => by cases hc)
  obtain ⟨c, t, hc, hs, -⟩ := encodeWith_cons ascii blank j
  rw [List.append_nil] at hscan
  refine loads_of_scan ?_ hscan
  rw [hc]
  exact skipSpace_cons hs t

/-- **What was dumped is loaded back**, with the texts the decoder reads. -/
theorem loads_dumps_back [TextEncoder τ true] [TextCodec τ true] (j : Json τ) (h : j.Wf) :
    loads (dumps j) = some (j.readBack true) := by
  rw [dumps, dumpsWith, ← encodeWith_space]
  exact loads_encodeWith true blank_space j h

end

@[simp] theorem readBack_string (j : Json) : j.readBack ascii = j := mapText_id j

theorem loads_dumpsWith (j : Json) (h : j.Wf) : loads (dumpsWith ascii j) = some j := by
  rw [dumpsWith, ← encodeWith_space, loads_encodeWith ascii blank_space j h, readBack_string]

/-- **What was dumped is loaded back.** -/
theorem loads_dumps (j : Json) (h : j.Wf) : loads (dumps j) = some j := loads_dumpsWith j h

/-- **What was dumped compactly is loaded back.** -/
theorem loads_dumpsCompact (ascii : Bool) (j : Json) (h : j.Wf) : loads (dumpsCompact ascii j) = some j := by
  rw [dumpsCompact, loads_encodeWith ascii (fun c hc => by cases hc) j h, readBack_string]

/-- Different values have different texts. -/
theorem dumpsCompact_injective {ascii : Bool} {j k : Json} (hj : j.Wf) (hk : k.Wf)
    (h : dumpsCompact ascii j = dumpsCompact ascii k) : j = k := by
  have hload := loads_dumpsCompact ascii j hj
  rw [h, loads_dumpsCompact ascii k hk] at hload
  exact (Option.some.inj hload).symm

theorem dumps_ne_empty [TextEncoder τ true] (j : Json τ) : dumps j ≠ "" := by
  obtain ⟨c, t, hc, -⟩ := encode_cons true j
  intro h
  have := congrArg String.toList h
  rw [dumps, dumpsWith, String.toList_ofList, hc] at this
  cases this

end Json
end Py
