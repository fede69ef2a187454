import Pypepper.Dict
import Pypepper.Json
/-!
# JsonText — `json.dumps` and `json.loads`

The standard library's encoder with its default separators, `", "` and `": "`, or with compact ones, and its decoder on
the values of `Json`.
With `ensure_ascii` everything outside printable ASCII is escaped, beyond the basic plane as a pair of surrogates;
without, only what JSON itself wants escaped is.  A value's texts may be of any type with an encoder and a decoder; of a
lone surrogate the decoder makes no Unicode text.
-/
namespace Py
namespace Json

/-! ## Encoding -/

def hex4 (n : Nat) : List Char :=
  [Nat.digitChar (n / 4096 % 16), Nat.digitChar (n / 256 % 16), Nat.digitChar (n / 16 % 16), Nat.digitChar (n % 16)]

/-- The short escapes. -/
def shortEscapes : List (Char × Char) :=
  [('"', '"'), ('\\', '\\'), ('\n', 'n'), ('\r', 'r'), ('\t', 't'), ('\x0c', 'f'), ('\x08', 'b')]

section encoding

/-- What the encoder writes between the quotes of a text. -/
class TextEncoder (τ : Type) (ascii : Bool) where
  escape : τ → List Char

variable (ascii : Bool)

def escapeChar (c : Char) : List Char :=
  match Dict.lookup c shortEscapes with
  | some e => ['\\', e]
  | none   =>
    if 0x20 ≤ c.toNat ∧ (ascii = true → c.toNat ≤ 0x7e) then [c]
    else if c.toNat < 0x10000 then '\\' :: 'u' :: hex4 c.toNat
    else '\\' :: 'u' :: hex4 (0xd800 + (c.toNat - 0x10000) / 0x400) ++
      '\\' :: 'u' :: hex4 (0xdc00 + (c.toNat - 0x10000) % 0x400)

instance : TextEncoder String ascii := ⟨fun s => s.toList.flatMap (escapeChar ascii)⟩

def encodeString {τ : Type} [TextEncoder τ ascii] (s : τ) : List Char := '"' :: TextEncoder.escape ascii s ++ ['"']

def encodeInt : Int → List Char
  | .ofNat n   => Nat.toDigits 10 n
  | .negSucc n => '-' :: Nat.toDigits 10 (n + 1)

def fracText : Option Digits → List Char
  | none    => []
  | some ds => '.' :: ds.ds

def expText : Option (Bool × Digits) → List Char
  | none           => []
  | some (neg, ds) => 'e' :: (if neg then '-' else '+') :: ds.ds

def signText (neg : Bool) : List Char := if neg then ['-'] else []

def encodeFloat : Float → List Char
  | .nan          => ['N', 'a', 'N']
  | .infinity neg => signText neg ++ ['I', 'n', 'f', 'i', 'n', 'i', 't', 'y']
  | .finite d     => signText d.neg ++ Nat.toDigits 10 d.whole ++ fracText d.frac ++ expText d.exp

def separator {α : Type} : List α → List Char
  | []     => []
  | _ :: _ => [',', ' ']

variable {τ : Type} [TextEncoder τ ascii]

mutual

def encode : Json τ → List Char
  | .null       => ['n', 'u', 'l', 'l']
  | .bool true  => ['t', 'r', 'u', 'e']
  | .bool false => ['f', 'a', 'l', 's', 'e']
  | .int n      => encodeInt n
  | .float x    => encodeFloat x
  | .str s      => encodeString ascii s
  | .arr xs     => '[' :: encodeElems xs ++ [']']
  | .obj ms     => '{' :: encodeMembers ms ++ ['}']

def encodeElems : List (Json τ) → List Char
  | []      => []
  | x :: xs => encode x ++ separator xs ++ encodeElems xs

def encodeMembers : List (String × Json τ) → List Char
  | []           => []
  | (k, v) :: ms => encodeString ascii k ++ [':', ' '] ++ encode v ++ separator ms ++ encodeMembers ms

end

/-! The encoder with separators of its caller: a comma and a colon, each followed by `blank`. -/

variable (blank : List Char)

def separatorWith {α : Type} : List α → List Char
  | []     => []
  | _ :: _ => ',' :: blank

mutual

def encodeWith : Json τ → List Char
  | .null       => ['n', 'u', 'l', 'l']
  | .bool true  => ['t', 'r', 'u', 'e']
  | .bool false => ['f', 'a', 'l', 's', 'e']
  | .int n      => encodeInt n
  | .float x    => encodeFloat x
  | .str s      => encodeString ascii s
  | .arr xs     => '[' :: encodeElemsWith xs ++ [']']
  | .obj ms     => '{' :: encodeMembersWith ms ++ ['}']

def encodeElemsWith : List (Json τ) → List Char
  | []      => []
  | x :: xs => encodeWith x ++ separatorWith blank xs ++ encodeElemsWith xs

def encodeMembersWith : List (String × Json τ) → List Char
  | []           => []
  | (k, v) :: ms => encodeString ascii k ++ ':' :: blank ++ encodeWith v ++ separatorWith blank ms ++ encodeMembersWith ms

end

end encoding

section
variable {τ : Type}

def dumpsWith (ascii : Bool) [TextEncoder τ ascii] (j : Json τ) : String := String.ofList (encode ascii j)

def dumps [TextEncoder τ true] : Json τ → String := dumpsWith true

/-- `json.dumps` with the separators `","` and `":"`. -/
def dumpsCompact (ascii : Bool) [TextEncoder τ ascii] (j : Json τ) : String := String.ofList (encodeWith ascii [] j)

end

/-! ## Sorted keys -/

/-- Strings are compared by their code points. -/
def keyBefore (j k : String) : Bool := j.toList.lex k.toList fun c d => decide (c.toNat < d.toNat)

def insertKey (m : String × Json) : List (String × Json) → List (String × Json)
  | []     => [m]
  | p :: l => if keyBefore m.1 p.1 then m :: p :: l else p :: insertKey m l

mutual

/-- The value `sort_keys` encodes: every object's members in the order of their keys. -/
def sortKeys : Json → Json
  | .arr xs => .arr (sortElems xs)
  | .obj ms => .obj (sortMembers ms)
  | j       => j

def sortElems : List Json → List Json
  | []      => []
  | x :: xs => sortKeys x :: sortElems xs

def sortMembers : List (String × Json) → List (String × Json)
  | []           => []
  | (k, v) :: ms => insertKey (k, sortKeys v) (sortMembers ms)

end

/-! ## Decoding -/

def isSpace (c : Char) : Bool := c = ' ' || c = '\t' || c = '\n' || c = '\r'

def skipSpace (cs : List Char) : List Char := cs.dropWhile isSpace

def hexValue (c : Char) : Option Nat :=
  if '0' ≤ c ∧ c ≤ '9' then some (c.toNat - '0'.toNat)
  else if 'a' ≤ c ∧ c ≤ 'f' then some (c.toNat - 'a'.toNat + 10)
  else if 'A' ≤ c ∧ c ≤ 'F' then some (c.toNat - 'A'.toNat + 10)
  else none

def scanHex4 : List Char → Option (Nat × List Char)
  | a :: b :: c :: d :: r => do
    let a ← hexValue a
    let b ← hexValue b
    let c ← hexValue c
    let d ← hexValue d
    return (a * 4096 + b * 256 + c * 16 + d, r)
  | _ => none

/-- The escape after `\u`: one code unit, or a pair of surrogates. -/
def scanUnicode (r : List Char) : Option (Char × List Char) := do
  let (n, r) ← scanHex4 r
  if 0xd800 ≤ n ∧ n ≤ 0xdbff then
    match r with
    | '\\' :: 'u' :: r => do
      let (m, r) ← scanHex4 r
      if 0xdc00 ≤ m ∧ m ≤ 0xdfff then return (Char.ofNat (0x10000 + (n - 0xd800) * 0x400 + (m - 0xdc00)), r)
      else none
    | _ => none
  else if 0xdc00 ≤ n ∧ n ≤ 0xdfff then none
  else return (Char.ofNat n, r)

def shortUnescapes : List (Char × Char) :=
  [('"', '"'), ('\\', '\\'), ('/', '/'), ('n', '\n'), ('r', '\r'), ('t', '\t'), ('f', '\x0c'), ('b', '\x08')]

/-- The escape after a backslash. -/
def scanEscape : List Char → Option (Char × List Char)
  | []     => none
  | c :: r => if c = 'u' then scanUnicode r else (Dict.lookup c shortUnescapes).map (·, r)

/-- The characters up to the closing quote; each step takes one. -/
def scanString : Nat → List Char → Option (List Char × List Char)
  | 0,     _      => none
  | _ + 1, []     => none
  | f + 1, c :: r =>
    if c = '"' then some ([], r)
    else if c = '\\' then do
      let (x, r) ← scanEscape r
      let (s, r) ← scanString f r
      return (x :: s, r)
    else if c.toNat < 0x20 then none
    else do
      let (s, r) ← scanString f r
      return (c :: s, r)

def scanNat : List Char → Option (Nat × List Char)
  | []     => none
  | c :: r =>
    if c = '0' then some (0, r)
    else if c.isDigit then
      some (Nat.ofDigitChars 10 ((c :: r).takeWhile Char.isDigit) 0, (c :: r).dropWhile Char.isDigit)
    else none

theorem isDigit_takeWhile (cs : List Char) : ∀ c ∈ cs.takeWhile Char.isDigit, c.isDigit = true :=
  fun _ hc => List.all_eq_true.1 List.all_takeWhile _ hc

def scanDigits (cs : List Char) : Option (Digits × List Char) :=
  if h : cs.takeWhile Char.isDigit = [] then none
  else some (⟨cs.takeWhile Char.isDigit, h, isDigit_takeWhile cs⟩, cs.dropWhile Char.isDigit)

/-- A fraction; without digits after the point there is none. -/
def scanFrac (cs : List Char) : Option Digits × List Char :=
  if cs.head? = some '.' then
    match scanDigits cs.tail with
    | some (ds, r) => (some ds, r)
    | none         => (none, cs)
  else (none, cs)

def scanExp (cs : List Char) : Option (Bool × Digits) × List Char :=
  if cs.head? = some 'e' ∨ cs.head? = some 'E' then
    match scanDigits (if cs.tail.head? = some '-' ∨ cs.tail.head? = some '+' then cs.tail.tail else cs.tail) with
    | some (ds, r) => (some (decide (cs.tail.head? = some '-'), ds), r)
    | none         => (none, cs)
  else (none, cs)

/-- A number with a fraction or an exponent is a float, any other an integer. -/
def number {τ : Type} (neg : Bool) (n : Nat) (frac : Option Digits) (exp : Option (Bool × Digits)) : Json τ :=
  if h : frac.isSome ∨ exp.isSome then .float (.finite ⟨neg, n, frac, exp, h⟩) else .int (if neg then -n else n)

def scanNumber {τ : Type} (cs : List Char) : Option (Json τ × List Char) :=
  (scanNat (if cs.head? = some '-' then cs.tail else cs)).map (fun p =>
    (number (decide (cs.head? = some '-')) p.1 (scanFrac p.2).1 (scanExp (scanFrac p.2).2).1,
      (scanExp (scanFrac p.2).2).2))

def scanWord {τ : Type} (word : List Char) (j : Json τ) (cs : List Char) : Option (Json τ × List Char) :=
  if word.isPrefixOf cs then some (j, cs.drop word.length) else none

/-- What the decoder reads up to the closing quote of a text. -/
class TextDecoder (τ : Type) where
  scan : Nat → List Char → Option (τ × List Char)

instance : TextDecoder String := ⟨fun f cs => (scanString f cs).map fun p => (String.ofList p.1, p.2)⟩

section decoding

variable {τ : Type} [TextDecoder τ]

/-- The dictionary of the members: of a key's values the last. -/
def ofMembers (ms : List (String × Json τ)) : Json τ := .obj (ms.foldl (fun l m => Dict.assign m.1 m.2 l) [])

mutual

def scanValue : Nat → List Char → Option (Json τ × List Char)
  | 0,     _  => none
  | f + 1, cs =>
    match cs with
    | []     => none
    | c :: r =>
      if c = '"' then (TextDecoder.scan (r.length + 1) r).map (fun p => (.str p.1, p.2))
      else if c = '[' then
        if (skipSpace r).head? = some ']' then some (.arr [], (skipSpace r).tail)
        else (scanElems f (skipSpace r)).map (fun p => (.arr p.1, p.2))
      else if c = '{' then
        if (skipSpace r).head? = some '}' then some (.obj [], (skipSpace r).tail)
        else (scanMembers f (skipSpace r)).map (fun p => (ofMembers p.1, p.2))
      else if c = 'n' then scanWord ['u', 'l', 'l'] .null r
      else if c = 't' then scanWord ['r', 'u', 'e'] (.bool true) r
      else if c = 'f' then scanWord ['a', 'l', 's', 'e'] (.bool false) r
      else if c = 'N' then scanWord ['a', 'N'] (.float .nan) r
      else if c = 'I' then scanWord ['n', 'f', 'i', 'n', 'i', 't', 'y'] (.float (.infinity false)) r
      else match scanNumber (c :: r) with
        | some p => some p
        | none   => scanWord (encodeFloat (.infinity true)) (.float (.infinity true)) (c :: r)

/-- At least one element, up to the closing bracket. -/
def scanElems : Nat → List Char → Option (List (Json τ) × List Char)
  | 0,     _  => none
  | f + 1, cs => do
    let (x, r) ← scanValue f cs
    match skipSpace r with
    | ']' :: r => return ([x], r)
    | ',' :: r => do
      let (xs, r) ← scanElems f (skipSpace r)
      return (x :: xs, r)
    | _ => none

/-- At least one member, up to the closing brace. -/
def scanMembers : Nat → List Char → Option (List (String × Json τ) × List Char)
  | 0,     _  => none
  | f + 1, cs => do
    guard (cs.head? = some '"')
    let (k, r) ← scanString cs.length cs.tail
    guard ((skipSpace r).head? = some ':')
    let (v, r) ← scanValue f (skipSpace (skipSpace r).tail)
    match skipSpace r with
    | '}' :: r => return ([(String.ofList k, v)], r)
    | ',' :: r => do
      let (ms, r) ← scanMembers f (skipSpace r)
      return ((String.ofList k, v) :: ms, r)
    | _ => none

end

/-- `json.loads`; no value when it raises. -/
def loads (s : String) : Option (Json τ) := do
  let (j, r) ← scanValue (s.length + 1) (skipSpace s.toList)
  if skipSpace r = [] then return j else none

end decoding

end Json
end Py
