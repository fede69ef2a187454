import Mathlib.Data.List.Basic
/-!
# Base64 — `base64.b64encode`

Three bytes are four characters of the alphabet; one or two bytes left at the end are padded with `=`.  Different bytes have
different texts (`b64encode_injective`).
-/
namespace Py

def b64alphabet : List Char := "ABCDEFGHIJKLMNOPQRSTUVWXYZabcdefghijklmnopqrstuvwxyz0123456789+/".toList

/-- The character of six bits. -/
def b64char (n : Nat) : Char := b64alphabet.getD n 'A'

def b64chars : List UInt8 → List Char
  | []              => []
  | [a]             => [b64char (a.toNat / 4), b64char (a.toNat % 4 * 16), '=', '=']
  | [a, b]          =>
    [b64char (a.toNat / 4), b64char (a.toNat % 4 * 16 + b.toNat / 16), b64char (b.toNat % 16 * 4), '=']
  | a :: b :: c :: r =>
    b64char (a.toNat / 4) :: b64char (a.toNat % 4 * 16 + b.toNat / 16) ::
      b64char (b.toNat % 16 * 4 + c.toNat / 64) :: b64char (c.toNat % 64) :: b64chars r

def b64encode (bytes : List UInt8) : String := String.ofList (b64chars bytes)

theorem b64char_index : ∀ n, n < 64 → b64alphabet.idxOf (b64char n) = n := by decide +kernel

theorem b64char_inj {m n : Nat} (hm : m < 64) (hn : n < 64) (h : b64char m = b64char n) : m = n := by
  rw [← b64char_index m hm, h, b64char_index n hn]

theorem b64char_ne_pad (n : Nat) : b64char n ≠ '=' := by
  have hlow : ∀ n, n < 64 → b64char n ≠ '=' := by decide +kernel
  by_cases hn : n < 64
  · exact hlow n hn
  · have hlen : b64alphabet.length = 64 := by decide
    rw [b64char, List.getD_eq_getElem?_getD, List.getElem?_eq_none (by omega)]
    decide

theorem b64chars_injective : ∀ {xs ys : List UInt8}, b64chars xs = b64chars ys → xs = ys
  | [], [], _ => rfl
  | [], [_], h => by cases h
  | [], [_, _], h => by cases h
  | [], _ :: _ :: _ :: _, h => by cases h
  | [_], [], h => by cases h
  | [_, _], [], h => by cases h
  | _ :: _ :: _ :: _, [], h => by cases h
  | [a], [a'], h => by
    simp only [b64chars, List.cons.injEq] at h
    have h₁ := b64char_inj (by have := a.toNat_lt; omega) (by have := a'.toNat_lt; omega) h.1
    have h₂ := b64char_inj (by omega) (by omega) h.2.1
    rw [(UInt8.toNat_inj (a := a) (b := a')).1 (by omega)]
  | [_], [_, b'], h => by
    simp only [b64chars, List.cons.injEq] at h
    exact absurd h.2.2.1.symm (b64char_ne_pad _)
  | [_], _ :: _ :: _ :: _, h => by
    simp only [b64chars, List.cons.injEq] at h
    exact absurd h.2.2.1.symm (b64char_ne_pad _)
  | [_, _], [_], h => by
    simp only [b64chars, List.cons.injEq] at h
    exact absurd h.2.2.1 (b64char_ne_pad _)
  | _ :: _ :: _ :: _, [_], h => by
    simp only [b64chars, List.cons.injEq] at h
    exact absurd h.2.2.1 (b64char_ne_pad _)
  | [a, b], [a', b'], h => by
    have ha := a.toNat_lt
    have ha' := a'.toNat_lt
    have hb := b.toNat_lt
    have hb' := b'.toNat_lt
    simp only [b64chars, List.cons.injEq] at h
    have h₁ := b64char_inj (by omega) (by omega) h.1
    have h₂ := b64char_inj (by omega) (by omega) h.2.1
    have h₃ := b64char_inj (by omega) (by omega) h.2.2.1
    rw [(UInt8.toNat_inj (a := a) (b := a')).1 (by omega), (UInt8.toNat_inj (a := b) (b := b')).1 (by omega)]
  | [_, _], _ :: _ :: _ :: _, h => by
    simp only [b64chars, List.cons.injEq] at h
    exact absurd h.2.2.2.1.symm (b64char_ne_pad _)
  | _ :: _ :: _ :: _, [_, _], h => by
    simp only [b64chars, List.cons.injEq] at h
    exact absurd h.2.2.2.1 (b64char_ne_pad _)
  | a :: b :: c :: r, a' :: b' :: c' :: r', h => by
    have ha := a.toNat_lt
    have ha' := a'.toNat_lt
    have hb := b.toNat_lt
    have hb' := b'.toNat_lt
    have hc := c.toNat_lt
    have hc' := c'.toNat_lt
    simp only [b64chars, List.cons.injEq] at h
    obtain ⟨h₁, h₂, h₃, h₄, hr⟩ := h
    have h₁ := b64char_inj (by omega) (by omega) h₁
    have h₂ := b64char_inj (by omega) (by omega) h₂
    have h₃ := b64char_inj (by omega) (by omega) h₃
    have h₄ := b64char_inj (by omega) (by omega) h₄
    rw [(UInt8.toNat_inj (a := a) (b := a')).1 (by omega), (UInt8.toNat_inj (a := b) (b := b')).1 (by omega),
      (UInt8.toNat_inj (a := c) (b := c')).1 (by omega), b64chars_injective hr]

theorem b64encode_injective {xs ys : List UInt8} (h : b64encode xs = b64encode ys) : xs = ys :=
  b64chars_injective (String.ofList_injective h)

example : b64encode [104, 105, 33, 10] = "aGkhCg==" := by decide

/-! ## Reading it back -/

/-- The six bits of a character. -/
def b64value (c : Char) : Option Nat := if b64alphabet.idxOf c < 64 then some (b64alphabet.idxOf c) else none

/-- The byte of eight bits. -/
def b64byte (n : Nat) : UInt8 := UInt8.ofNat n

/-- The strict reader: groups of four, padding in the last group only. -/
def b64bytes : List Char → Option (List UInt8)
  | []                  => some []
  | p :: q :: r :: s :: rest => do
    let p ← b64value p
    let q ← b64value q
    if s = '=' then
      if rest ≠ [] then none
      else if r = '=' then some [b64byte (p * 4 + q / 16)]
      else do
        let r ← b64value r
        some [b64byte (p * 4 + q / 16), b64byte (q % 16 * 16 + r / 4)]
    else do
      let r ← b64value r
      let s ← b64value s
      let bytes ← b64bytes rest
      some (b64byte (p * 4 + q / 16) :: b64byte (q % 16 * 16 + r / 4) :: b64byte (r % 4 * 64 + s) :: bytes)
  | _ => none

def b64decode (s : String) : Option (List UInt8) := b64bytes s.toList

theorem b64value_char {n : Nat} (h : n < 64) : b64value (b64char n) = some n := by
  rw [b64value, b64char_index n h, if_pos h]

theorem b64byte_of {n : Nat} {a : UInt8} (h : n = a.toNat) : b64byte n = a := by
  rw [b64byte, h, UInt8.ofNat_toNat]

theorem b64bytes_b64chars : ∀ xs : List UInt8, b64bytes (b64chars xs) = some xs
  | [] => rfl
  | [a] => by
    have ha := a.toNat_lt
    have hp := b64value_char (n := a.toNat / 4) (by omega)
    have hq := b64value_char (n := a.toNat % 4 * 16) (by omega)
    have h₁ : b64byte (a.toNat / 4 * 4 + a.toNat % 4 * 16 / 16) = a := b64byte_of (by omega)
    simp only [b64chars, b64bytes, hp, hq, h₁, ↓reduceIte, ne_eq, not_true_eq_false, Option.bind_eq_bind, Option.bind_some]
  | [a, b] => by
    have ha := a.toNat_lt
    have hb := b.toNat_lt
    have hp := b64value_char (n := a.toNat / 4) (by omega)
    have hq := b64value_char (n := a.toNat % 4 * 16 + b.toNat / 16) (by omega)
    have hr := b64value_char (n := b.toNat % 16 * 4) (by omega)
    have h₁ : b64byte (a.toNat / 4 * 4 + (a.toNat % 4 * 16 + b.toNat / 16) / 16) = a := b64byte_of (by omega)
    have h₂ : b64byte ((a.toNat % 4 * 16 + b.toNat / 16) % 16 * 16 + b.toNat % 16 * 4 / 4) = b := b64byte_of (by omega)
    simp only [b64chars, b64bytes, hp, hq, hr, h₁, h₂, b64char_ne_pad, ↓reduceIte, ne_eq, not_true_eq_false,
      Option.bind_eq_bind, Option.bind_some]
  | a :: b :: c :: r => by
    have ha := a.toNat_lt
    have hb := b.toNat_lt
    have hc := c.toNat_lt
    have hp := b64value_char (n := a.toNat / 4) (by omega)
    have hq := b64value_char (n := a.toNat % 4 * 16 + b.toNat / 16) (by omega)
    have hr := b64value_char (n := b.toNat % 16 * 4 + c.toNat / 64) (by omega)
    have hs := b64value_char (n := c.toNat % 64) (by omega)
    have h₁ : b64byte (a.toNat / 4 * 4 + (a.toNat % 4 * 16 + b.toNat / 16) / 16) = a := b64byte_of (by omega)
    have h₂ : b64byte ((a.toNat % 4 * 16 + b.toNat / 16) % 16 * 16 + (b.toNat % 16 * 4 + c.toNat / 64) / 4) = b :=
      b64byte_of (by omega)
    have h₃ : b64byte ((b.toNat % 16 * 4 + c.toNat / 64) % 4 * 64 + c.toNat % 64) = c := b64byte_of (by omega)
    simp only [b64chars, b64bytes, hp, hq, hr, hs, h₁, h₂, h₃, b64char_ne_pad, b64bytes_b64chars r, ↓reduceIte,
      Option.bind_eq_bind, Option.bind_some]

/-- **Encoded bytes are read back.** -/
theorem b64decode_b64encode (xs : List UInt8) : b64decode (b64encode xs) = some xs := by
  rw [b64decode, b64encode, String.toList_ofList, b64bytes_b64chars]

end Py
