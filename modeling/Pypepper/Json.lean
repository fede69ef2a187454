import Mathlib.Data.List.Basic
/-!
# Json — strings and JSON values

The values the standard library's encoder and decoder exchange: an object is its members in order, an integer is
unbounded, a float is the text of its `repr`, which the language reads back as the same float.  `Json.induct` is
induction over a value and the values in it.

The built-in string is a sequence of code points, lone surrogates among them (`Str`).  A value's texts are of a type `τ`:
Unicode texts, unless it says otherwise.
-/
namespace Py

abbrev CodePoint := Fin 0x110000

-- the zero is the one that the literals of `Fin` ask for
instance CodePoint.neZero : @NeZero Nat Zero.ofOfNat0 0x110000 := ⟨by decide⟩

abbrev Str := List CodePoint

def Str.ofChar (c : Char) : CodePoint := ⟨c.toNat, by
  have h : c.toNat < 0xd800 ∨ 0xdfff < c.toNat ∧ c.toNat < 0x110000 := c.valid
  omega⟩

def Str.ofString (s : String) : Str := s.toList.map ofChar

instance : Coe String Str := ⟨Str.ofString⟩

/-- The digits of a fraction or an exponent. -/
structure Digits where
  ds       : List Char
  nonempty : ds ≠ []
  digits   : ∀ c ∈ ds, c.isDigit = true

/-- The `repr` of a finite float; with neither a fraction nor an exponent it would be an integer's. -/
structure Decimal where
  neg     : Bool
  whole   : Nat
  frac    : Option Digits
  exp     : Option (Bool × Digits)
  isFloat : frac.isSome ∨ exp.isSome

inductive Float where
  | nan
  | infinity (neg : Bool)
  | finite (d : Decimal)

inductive Json (τ : Type := String) where
  | null
  | bool  (b : Bool)
  | int   (n : Int)
  | float (x : Float)
  | str   (s : τ)
  | arr   (xs : List (Json τ))
  | obj   (members : List (String × Json τ))

theorem Json.induct {τ : Type} {P : Json τ → Prop} (null : P .null) (bool : ∀ b, P (.bool b)) (int : ∀ n, P (.int n))
    (float : ∀ x, P (.float x)) (str : ∀ s, P (.str s)) (arr : ∀ xs, (∀ x ∈ xs, P x) → P (.arr xs))
    (obj : ∀ ms, (∀ m ∈ ms, P m.2) → P (.obj ms)) : ∀ j, P j
  | .null    => null
  | .bool b  => bool b
  | .int n   => int n
  | .float x => float x
  | .str s   => str s
  | .arr xs  => arr xs fun x _ => induct null bool int float str arr obj x
  | .obj ms  => obj ms fun m _ => induct null bool int float str arr obj m.2
termination_by j => sizeOf j
decreasing_by
  · rename_i h
    have := List.sizeOf_lt_of_mem h
    simp only [Json.arr.sizeOf_spec]
    omega
  · rename_i h
    have := List.sizeOf_lt_of_mem h
    have : sizeOf m.2 < sizeOf m := by
      cases m
      simp only [Prod.mk.sizeOf_spec]
      omega
    simp only [Json.obj.sizeOf_spec]
    omega

/-- The truth value of a text: whether it has a character. -/
class Truth (τ : Type) where
  truth : τ → Bool

instance : Truth String := ⟨fun s => decide (s ≠ "")⟩

instance : Truth Str := ⟨fun s => decide (s ≠ [])⟩

/-- A float that is zero, whatever its exponent. -/
def Float.isZero : Float → Bool
  | .finite d => decide (d.whole = 0) && (d.frac.elim [] Digits.ds).all (fun c => decide (c = '0'))
  | _         => false

namespace Json

variable {τ : Type}

/-- The truth value of a condition. -/
def truthy [Truth τ] : Json τ → Bool
  | .null    => false
  | .bool b  => b
  | .int n   => decide (n ≠ 0)
  | .float x => !x.isZero
  | .str s   => Truth.truth s
  | .arr xs  => !xs.isEmpty
  | .obj ms  => !ms.isEmpty

/-- The operator `or`. -/
def orElse [Truth τ] (j d : Json τ) : Json τ := if j.truthy then j else d

mutual

/-- The value with `f` of its texts. -/
def mapText {σ : Type} (f : τ → σ) : Json τ → Json σ
  | .null    => .null
  | .bool b  => .bool b
  | .int n   => .int n
  | .float x => .float x
  | .str s   => .str (f s)
  | .arr xs  => .arr (mapElems f xs)
  | .obj ms  => .obj (mapMembers f ms)

def mapElems {σ : Type} (f : τ → σ) : List (Json τ) → List (Json σ)
  | []      => []
  | x :: xs => mapText f x :: mapElems f xs

def mapMembers {σ : Type} (f : τ → σ) : List (String × Json τ) → List (String × Json σ)
  | []           => []
  | (k, v) :: ms => (k, mapText f v) :: mapMembers f ms

end

theorem mapElems_eq {σ : Type} (f : τ → σ) : ∀ xs : List (Json τ), mapElems f xs = xs.map (mapText f)
  | []      => rfl
  | x :: xs => by rw [mapElems, mapElems_eq f xs, List.map_cons]

theorem mapMembers_eq {σ : Type} (f : τ → σ) : ∀ ms : List (String × Json τ),
    mapMembers f ms = ms.map fun m => (m.1, mapText f m.2)
  | []           => rfl
  | (k, v) :: ms => by rw [mapMembers, mapMembers_eq f ms, List.map_cons]

@[simp] theorem keys_mapMembers {σ : Type} (f : τ → σ) (ms : List (String × Json τ)) :
    (mapMembers f ms).map Prod.fst = ms.map Prod.fst := by
  rw [mapMembers_eq, List.map_map]
  rfl

mutual

/-- What `f` reads off the values that hold no others. -/
def collect {β : Type} (f : Json τ → List β) : Json τ → List β
  | .arr xs => collectElems f xs
  | .obj ms => collectMembers f ms
  | j       => f j

def collectElems {β : Type} (f : Json τ → List β) : List (Json τ) → List β
  | []      => []
  | x :: xs => collect f x ++ collectElems f xs

def collectMembers {β : Type} (f : Json τ → List β) : List (String × Json τ) → List β
  | []           => []
  | (_, v) :: ms => collect f v ++ collectMembers f ms

end

theorem collectElems_eq {β : Type} (f : Json τ → List β) : ∀ xs : List (Json τ), collectElems f xs = xs.flatMap (collect f)
  | []      => rfl
  | x :: xs => by rw [collectElems, collectElems_eq f xs, List.flatMap_cons]

theorem collectMembers_eq {β : Type} (f : Json τ → List β) : ∀ ms : List (String × Json τ),
    collectMembers f ms = ms.flatMap fun m => collect f m.2
  | []           => rfl
  | (k, v) :: ms => by rw [collectMembers, collectMembers_eq f ms, List.flatMap_cons]

/-- The texts of a value, but for its keys. -/
def texts : Json τ → List τ := collect fun
  | .str s => [s]
  | _      => []

def ints : Json τ → List Int := collect fun
  | .int n => [n]
  | _      => []

/-- A value is what it was when each of its texts is. -/
theorem mapText_of_texts {f : τ → τ} (j : Json τ) : (∀ s ∈ j.texts, f s = s) → mapText f j = j := by
  induction j using Json.induct with
  | null | bool b | int n | float x => exact fun _ => rfl
  | str s => exact fun h => by rw [mapText, h s (by simp [texts, collect])]
  | arr xs ih =>
    intro h
    rw [texts, collect, collectElems_eq] at h
    have hxs : xs.map (mapText f) = xs.map id :=
      List.map_congr_left fun x hx => ih x hx fun s hs => h s (List.mem_flatMap.2 ⟨x, hx, hs⟩)
    rw [mapText, mapElems_eq, hxs, List.map_id]
  | obj ms ih =>
    intro h
    rw [texts, collect, collectMembers_eq] at h
    have hms : ms.map (fun m => (m.1, mapText f m.2)) = ms.map id :=
      List.map_congr_left fun m hm => Prod.ext rfl (ih m hm fun s hs => h s (List.mem_flatMap.2 ⟨m, hm, hs⟩))
    rw [mapText, mapMembers_eq, hms, List.map_id]

theorem mapText_id (j : Json τ) : mapText id j = j := mapText_of_texts j fun _ _ => rfl

theorem texts_mapText {σ : Type} (f : τ → σ) (j : Json τ) : (mapText f j).texts = j.texts.map f := by
  induction j using Json.induct with
  | null | bool b | int n | float x | str s => rfl
  | arr xs ih =>
    rw [mapText, mapElems_eq, texts, texts, collect, collect, collectElems_eq, collectElems_eq, List.flatMap_map,
      List.map_flatMap]
    exact List.flatMap_congr ih
  | obj ms ih =>
    rw [mapText, mapMembers_eq, texts, texts, collect, collect, collectMembers_eq, collectMembers_eq, List.flatMap_map,
      List.map_flatMap]
    exact List.flatMap_congr ih

end Json
end Py
