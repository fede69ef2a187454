import Mathlib.Algebra.Group.Nat.Defs
import Mathlib.Data.List.Chain
import Pypepper.CodePoints
/-!
# JsonStr — `json.dumps` and `json.loads` on texts of code points

In ASCII the encoder writes a lone surrogate like any other code unit, and the decoder reads the escapes of a high
surrogate and of the low one directly after it as one code point.  So a text comes back with such pairs joined
(`Str.join`), and a value comes back as it was exactly when none of its texts has one (`readBack_eq_iff`).

An integer of too many digits is no value of `json.dumps`: the language's `str` raises for it (`Json.short`).
-/
namespace Py

namespace Str

/-! ## Surrogates -/

def IsHigh (n : Nat) : Prop := 0xd800 ≤ n ∧ n ≤ 0xdbff

def IsLow (n : Nat) : Prop := 0xdc00 ≤ n ∧ n ≤ 0xdfff

instance (n : Nat) : Decidable (IsHigh n) := inferInstanceAs (Decidable (_ ∧ _))

instance (n : Nat) : Decidable (IsLow n) := inferInstanceAs (Decidable (_ ∧ _))

/-- The code point of a pair of surrogates. -/
def pair (hi lo : Nat) : CodePoint := Fin.ofNat 0x110000 (0x10000 + (hi - 0xd800) * 0x400 + (lo - 0xdc00))

/-- The text with every high surrogate joined to the low one directly after it. -/
def join : Str → Str
  | []          => []
  | [c]         => [c]
  | c :: d :: s => if IsHigh c.val ∧ IsLow d.val then pair c.val d.val :: join s else c :: join (d :: s)

/-- No high surrogate stands directly before a low one, as in every valid Unicode text. -/
def Joinless (s : Str) : Prop := s.IsChain fun c d => ¬ (IsHigh c.val ∧ IsLow d.val)

instance (s : Str) : Decidable s.Joinless :=
  inferInstanceAs (Decidable (s.IsChain fun c d => ¬ (IsHigh c.val ∧ IsLow d.val)))

theorem length_join_le : ∀ s : Str, s.join.length ≤ s.length
  | []          => Nat.le_refl _
  | [_]         => Nat.le_refl _
  | c :: d :: s => by
    have hs := length_join_le s
    have hds := length_join_le (d :: s)
    rw [join]
    split
    · simp only [List.length_cons]
      omega
    · simp only [List.length_cons] at hds ⊢
      omega

/-- **Nothing is joined exactly in a text without such a pair**: a joined text is shorter. -/
theorem join_eq_iff : ∀ s : Str, s.join = s ↔ s.Joinless
  | []          => by simp [join, Joinless]
  | [c]         => by simp [join, Joinless]
  | c :: d :: s => by
    rw [join, Joinless, List.isChain_cons_cons]
    split
    · rename_i h
      have hs := length_join_le s
      constructor
      · intro he
        have hlen := congrArg List.length he
        simp only [List.length_cons] at hlen
        omega
      · exact fun hc => absurd h hc.1
    · rename_i h
      rw [List.cons.injEq, join_eq_iff (d :: s)]
      exact ⟨fun hc => ⟨h, hc.2⟩, fun hc => ⟨rfl, hc.2⟩⟩

theorem join_eq_nil : ∀ s : Str, s.join = [] ↔ s = []
  | []          => by simp [join]
  | [c]         => by simp [join]
  | c :: d :: s => by
    rw [join]
    split <;> simp

/-- A text of characters has no surrogate. -/
theorem joinless_ofString (s : String) : (ofString s).Joinless := by
  unfold ofString
  induction s.toList with
  | nil => exact .nil
  | cons c cs ih =>
    cases cs with
    | nil => exact .singleton _
    | cons d ds =>
      refine List.isChain_cons_cons.2 ⟨fun h => ?_, ih⟩
      have hc := Json.not_surrogate c
      have hhigh : 0xd800 ≤ c.toNat ∧ c.toNat ≤ 0xdbff := h.1
      omega

end Str

namespace Json

open Str (IsHigh IsLow escapePoint)

/-! ## The decoder -/

/-- The escape of a low surrogate, if one comes next. -/
def scanLow : List Char → Option (Option (Nat × List Char))
  | '\\' :: 'u' :: r => (scanHex4 r).map fun p => if IsLow p.1 then some p else none
  | _                => some none

/-- The escape after `\u`: one code unit, or a pair of surrogates. -/
def scanPoint (r : List Char) : Option (CodePoint × List Char) := do
  let (n, r) ← scanHex4 r
  if IsHigh n then
    match ← scanLow r with
    | some (m, r) => return (Str.pair n m, r)
    | none        => return (Fin.ofNat 0x110000 n, r)
  else return (Fin.ofNat 0x110000 n, r)

def scanEscapePoint : List Char → Option (CodePoint × List Char)
  | []     => none
  | c :: r => if c = 'u' then scanPoint r else (Dict.lookup c shortUnescapes).map fun x => (Str.ofChar x, r)

/-- The code points up to the closing quote; each step takes one. -/
def scanStr : Nat → List Char → Option (Str × List Char)
  | 0,     _      => none
  | _ + 1, []     => none
  | f + 1, c :: r =>
    if c = '"' then some ([], r)
    else if c = '\\' then do
      let (x, r) ← scanEscapePoint r
      let (s, r) ← scanStr f r
      return (x :: s, r)
    else if c.toNat < 0x20 then none
    else do
      let (s, r) ← scanStr f r
      return (Str.ofChar c :: s, r)

instance : TextEncoder Str true := ⟨fun s => s.flatMap escapePoint⟩

instance : TextDecoder Str := ⟨scanStr⟩

/-! ## What it reads -/

theorem ofNat_val (c : CodePoint) : Fin.ofNat 0x110000 c.val = c := Fin.ext (Nat.mod_eq_of_lt c.isLt)

theorem ofChar_ofNat {c : CodePoint} (h : c.val.isValidChar) : Str.ofChar (Char.ofNat c.val) = c :=
  Fin.ext (Str.toNat_ofNat h)

/-- The escape of a code point beyond the basic plane. -/
theorem pair_units {c : CodePoint} (h : ¬ c.val < 0x10000) :
    Str.pair (0xd800 + (c.val - 0x10000) / 0x400) (0xdc00 + (c.val - 0x10000) % 0x400) = c := by
  have hc := c.isLt
  refine Fin.ext ?_
  have hval : 0x10000 + (0xd800 + (c.val - 0x10000) / 0x400 - 0xd800) * 0x400 +
      (0xdc00 + (c.val - 0x10000) % 0x400 - 0xdc00) = c.val := by omega
  rw [Str.pair, hval]
  exact Nat.mod_eq_of_lt hc

/-- The next code point's escape is a low surrogate's exactly when the code point is one. -/
theorem scanLow_escapePoint (d : CodePoint) (r : List Char) :
    scanLow (escapePoint d ++ r) = some (if IsLow d.val then some (d.val, r) else none) := by
  unfold escapePoint
  cases he : Dict.lookup (Char.ofNat d.val) shortEscapes with
  | some e =>
    have hu := (shortEscapes_back he).1
    have hlow : ¬ IsLow d.val := fun h => by
      rw [Str.lookup_ofNat_large (by have := h.1; omega)] at he
      cases he
    rw [if_neg hlow]
    unfold scanLow
    split
    · rename_i h
      exact absurd (List.cons.inj (List.cons.inj h).2).1 hu
    · rfl
  | none =>
    dsimp only
    split
    · rename_i hp
      have hlow : ¬ IsLow d.val := fun h => by
        have := h.1
        omega
      have hb := (shortEscapes_none he).2
      rw [if_neg hlow]
      unfold scanLow
      split
      · rename_i h
        exact absurd (List.cons.inj h).1 hb
      · rfl
    · split
      · rename_i hsmall
        simp only [List.cons_append, scanLow, scanHex4_hex4 hsmall, Option.map_some]
      · rename_i hlarge
        have hc := d.isLt
        have hlow : ¬ IsLow d.val := fun h => by
          have := h.2
          omega
        have hhigh : ¬ IsLow (0xd800 + (d.val - 0x10000) / 0x400) := fun h => by
          have := h.1
          omega
        simp only [List.cons_append, List.append_assoc, scanLow]
        rw [scanHex4_hex4 (by omega), Option.map_some, if_neg hhigh, if_neg hlow]

theorem scanPoint_unit {n : Nat} (h : n < 0x10000) {r : List Char} (hr : IsHigh n → scanLow r = some none) :
    scanPoint (hex4 n ++ r) = some (Fin.ofNat 0x110000 n, r) := by
  simp only [scanPoint, scanHex4_hex4 h, Option.bind_eq_bind, Option.bind_some]
  split
  · rename_i hhigh
    rw [hr hhigh]
    rfl
  · rfl

theorem scanPoint_surrogates {hi lo : Nat} (hhi : IsHigh hi) (hlo : IsLow lo) (r : List Char) :
    scanPoint (hex4 hi ++ '\\' :: 'u' :: (hex4 lo ++ r)) = some (Str.pair hi lo, r) := by
  have hhi' : hi < 0x10000 := Nat.lt_of_le_of_lt hhi.2 (by decide)
  have hlo' : lo < 0x10000 := Nat.lt_of_le_of_lt hlo.2 (by decide)
  simp only [scanPoint, scanHex4_hex4 hhi', Option.bind_eq_bind, Option.bind_some, if_pos hhi, scanLow,
    scanHex4_hex4 hlo', Option.map_some, if_pos hlo, Option.pure_def]

/-- **One code point is read from its escape**, but for a high surrogate before the escape of a low one. -/
theorem scanStr_escapePoint (f : Nat) (c : CodePoint) {r : List Char} (h : IsHigh c.val → scanLow r = some none) :
    scanStr (f + 1) (escapePoint c ++ r) = (scanStr f r).bind fun p => some (c :: p.1, p.2) := by
  have escaped : ∀ t, scanEscapePoint (t ++ r) = some (c, r) → scanStr (f + 1) ('\\' :: (t ++ r)) =
      (scanStr f r).bind fun p => some (c :: p.1, p.2) := fun t ht => by
    have hq : ¬ '\\' = '"' := by decide
    simp only [scanStr, if_neg hq, if_true, ht, Option.bind_eq_bind, Option.bind_some, Option.pure_def]
  unfold escapePoint
  cases he : Dict.lookup (Char.ofNat c.val) shortEscapes with
  | some e =>
    have hv : c.val.isValidChar := by
      by_contra hv
      rw [Str.lookup_ofNat_invalid hv] at he
      cases he
    obtain ⟨hu, hb⟩ := shortEscapes_back he
    refine escaped [e] ?_
    simp only [List.cons_append, List.nil_append, scanEscapePoint, if_neg hu, hb, Option.map_some, ofChar_ofNat hv]
  | none =>
    obtain ⟨hq, hb⟩ := shortEscapes_none he
    dsimp only
    split
    · rename_i hp
      have hv : c.val.isValidChar := .inl (by omega)
      have hctl : ¬ (Char.ofNat c.val).toNat < 0x20 := by
        rw [Str.toNat_ofNat hv]
        omega
      simp only [List.cons_append, List.nil_append, scanStr, if_neg hq, if_neg hb, if_neg hctl, ofChar_ofNat hv,
        Option.bind_eq_bind, Option.pure_def]
    · split
      · rename_i hsmall
        refine escaped ('u' :: hex4 c.val) ?_
        simp only [List.cons_append, scanEscapePoint, if_true, scanPoint_unit hsmall h, ofNat_val]
      · rename_i hlarge
        have hc := c.isLt
        refine escaped ('u' :: hex4 (0xd800 + (c.val - 0x10000) / 0x400) ++
          '\\' :: 'u' :: hex4 (0xdc00 + (c.val - 0x10000) % 0x400)) ?_
        have hhigh : IsHigh (0xd800 + (c.val - 0x10000) / 0x400) := ⟨by omega, by omega⟩
        have hlow : IsLow (0xdc00 + (c.val - 0x10000) % 0x400) := ⟨by omega, by omega⟩
        have hpair := scanPoint_surrogates hhigh hlow r
        rw [pair_units hlarge] at hpair
        simp only [List.cons_append, List.append_assoc, scanEscapePoint, if_true, hpair]

theorem escapePoint_high {c : CodePoint} (h : IsHigh c.val) : escapePoint c = '\\' :: 'u' :: hex4 c.val := by
  obtain ⟨hlo, hhi⟩ := h
  have hprint : ¬ (0x20 ≤ c.val ∧ c.val ≤ 0x7e) := by omega
  have hsmall : c.val < 0x10000 := by omega
  rw [escapePoint, Str.lookup_ofNat_large (by omega)]
  dsimp only
  rw [if_neg hprint, if_pos hsmall]

/-- **A high surrogate and a low one after it are read as one code point.** -/
theorem scanStr_pair (f : Nat) {c d : CodePoint} (hc : IsHigh c.val) (hd : IsLow d.val) (r : List Char) :
    scanStr (f + 1) (escapePoint c ++ (escapePoint d ++ r)) =
      (scanStr f r).bind fun p => some (Str.pair c.val d.val :: p.1, p.2) := by
  have hlow := scanLow_escapePoint d r
  rw [if_pos hd] at hlow
  have hq : ¬ '\\' = '"' := by decide
  have hsmall : c.val < 0x10000 := by
    have := hc.2
    omega
  rw [escapePoint_high hc]
  simp only [List.cons_append, scanStr, if_neg hq, if_true, scanEscapePoint, scanPoint, scanHex4_hex4 hsmall,
    Option.bind_eq_bind, Option.bind_some, if_pos hc, hlow, Option.pure_def]

/-- **An encoded text is read back with its surrogates joined.** -/
theorem scanStr_flatMap : ∀ (s : Str) (f : Nat) (r : List Char), s.length < f →
    scanStr f (s.flatMap escapePoint ++ '"' :: r) = some (s.join, r)
  | [], f + 1, r, _ => rfl
  | [c], f + 1, r, h => by
    obtain ⟨f, rfl⟩ : ∃ g, f = g + 1 := ⟨f - 1, by simp only [List.length_cons] at h; omega⟩
    rw [List.flatMap_cons, List.flatMap_nil, List.append_nil, scanStr_escapePoint (f + 1) c fun _ => rfl]
    rfl
  | c :: d :: s, f + 1, r, h => by
    simp only [List.length_cons] at h
    have htext : (c :: d :: s).flatMap escapePoint ++ '"' :: r =
        escapePoint c ++ (escapePoint d ++ (s.flatMap escapePoint ++ '"' :: r)) := by simp
    rw [htext, Str.join]
    by_cases hcd : IsHigh c.val ∧ IsLow d.val
    · rw [if_pos hcd, scanStr_pair f hcd.1 hcd.2, scanStr_flatMap s f r (by omega)]
      rfl
    · have hlow : IsHigh c.val → scanLow (escapePoint d ++ (s.flatMap escapePoint ++ '"' :: r)) = some none := by
        intro hc
        rw [scanLow_escapePoint, if_neg fun hd => hcd ⟨hc, hd⟩]
      have hds := scanStr_flatMap (d :: s) f r (by simp only [List.length_cons]; omega)
      rw [List.flatMap_cons, List.append_assoc] at hds
      rw [if_neg hcd, scanStr_escapePoint f c hlow, hds]
      rfl

theorem escapePoint_length (c : CodePoint) : 0 < (escapePoint c).length := by
  unfold escapePoint
  repeat' split
  all_goals simp

theorem length_le_flatMap_escapePoint : ∀ s : Str, s.length ≤ (s.flatMap escapePoint).length
  | []     => Nat.zero_le _
  | c :: s => by
    have hc := escapePoint_length c
    have hs := length_le_flatMap_escapePoint s
    rw [List.flatMap_cons, List.length_append, List.length_cons]
    omega

/-- A text of code points comes back joined. -/
instance : TextCodec Str true where
  back := Str.join
  scan_escape s r := by
    refine scanStr_flatMap s _ r ?_
    have hs := length_le_flatMap_escapePoint s
    rw [List.length_append]
    show s.length < (s.flatMap escapePoint).length + _ + 1
    omega

/-! ## What comes back, and what is written -/

section
variable {τ : Type}

/-- The most digits of an integer that the language's `str` writes. -/
def maxStrDigits : Nat := 4300

def short (j : Json τ) : Bool := j.ints.all fun n => decide (n.natAbs < 10 ^ maxStrDigits)

theorem short_iff {j : Json τ} : j.short = true ↔ ∀ n ∈ j.ints, n.natAbs < 10 ^ maxStrDigits := by
  simp only [short, List.all_eq_true, decide_eq_true_eq]

end

def Joinless (j : Json Str) : Prop := ∀ s ∈ j.texts, s.Joinless

/-- **A value comes back as it was exactly when its texts are joinless.** -/
theorem readBack_eq_iff {j : Json Str} : j.readBack true = j ↔ j.Joinless := by
  constructor
  · intro h s hs
    have htexts := texts_mapText Str.join j
    have hback : mapText Str.join j = j := h
    rw [hback] at htexts
    exact (Str.join_eq_iff s).1 (List.map_inj_left.1 (htexts.symm.trans (List.map_id _).symm) s hs)
  · exact fun h => mapText_of_texts j fun s hs => (Str.join_eq_iff s).2 (h s hs)

end Json
end Py
