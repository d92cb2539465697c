import Mathlib.Data.List.TakeWhile
import PosixThreads.Common.Io

/-!
# URLs

`url_t` keeps one buffer and, for each component, a slice of it. While a URL is
being parsed the buffer moves around in memory, so `url_region_t` records offsets
instead of pointers; since a slice is the start of the buffer plus an offset, the
two are the same data and `Url` is a `UrlRegion` together with its buffer.

The character classes and percent-encode sets are those of the source, on bytes.
`char` is signed on the platforms the program is built for, which matters for
`percencContains` only.
-/

namespace PosixThreads

/-! ## Character classes -/

def isC0Space (c : UInt8) : Bool := c ≤ 0x20

def isAsciiUpperAlpha (c : UInt8) : Bool := 'A'.toUInt8 ≤ c && c ≤ 'Z'.toUInt8

def isAsciiLowerAlpha (c : UInt8) : Bool := 'a'.toUInt8 ≤ c && c ≤ 'z'.toUInt8

def isAsciiAlpha (c : UInt8) : Bool := isAsciiLowerAlpha c || isAsciiUpperAlpha c

def isAsciiAlphanum (c : UInt8) : Bool := isAsciiAlpha c || isAsciiDigit c

def isAsciiLowerHex (c : UInt8) : Bool :=
  isAsciiDigit c || ('a'.toUInt8 ≤ c && c ≤ 'f'.toUInt8)

def isAsciiUpperHex (c : UInt8) : Bool :=
  isAsciiDigit c || ('A'.toUInt8 ≤ c && c ≤ 'F'.toUInt8)

def isAsciiHex (c : UInt8) : Bool := isAsciiLowerHex c || isAsciiUpperHex c

/-- `tolower` in the C locale. -/
def toLower (c : UInt8) : UInt8 := if isAsciiUpperAlpha c then c + 0x20 else c

theorem isAsciiUpperAlpha_iff (c : UInt8) :
    isAsciiUpperAlpha c = true ↔ 65 ≤ c.toNat ∧ c.toNat ≤ 90 := by
  simp only [isAsciiUpperAlpha, Bool.and_eq_true, decide_eq_true_eq, UInt8.le_iff_toNat_le]
  exact Iff.rfl

theorem isAsciiLowerAlpha_iff (c : UInt8) :
    isAsciiLowerAlpha c = true ↔ 97 ≤ c.toNat ∧ c.toNat ≤ 122 := by
  simp only [isAsciiLowerAlpha, Bool.and_eq_true, decide_eq_true_eq, UInt8.le_iff_toNat_le]
  exact Iff.rfl

theorem isAsciiAlpha_toLower {c : UInt8} (h : isAsciiAlpha c = true) :
    isAsciiAlpha (toLower c) = true := by
  unfold toLower
  split
  · rename_i hupper
    rw [isAsciiUpperAlpha_iff] at hupper
    have hadd : (c + 0x20).toNat = c.toNat + 32 := by
      rw [UInt8.toNat_add]
      exact Nat.mod_eq_of_lt (by simp; omega)
    have hlower : isAsciiLowerAlpha (c + 0x20) = true := by
      rw [isAsciiLowerAlpha_iff, hadd]
      omega
    simp [isAsciiAlpha, hlower]
  · exact h

def isWindowsDriveLetter : List UInt8 → Bool
  | [c, d] => isAsciiAlpha c && (d == ':'.toUInt8 || d == '|'.toUInt8)
  | _ => false

theorem length_of_isWindowsDriveLetter {s : List UInt8} (h : isWindowsDriveLetter s = true) :
    s.length = 2 := by
  unfold isWindowsDriveLetter at h
  split at h
  · rfl
  · simp at h

def isUrlAscii (c : UInt8) : Bool :=
  -- `0x27` is the apostrophe
  isAsciiAlphanum c || c = 0x27 ||
    c ∈ ['!', '$', '&', '(', ')', '*', '+', ',', '-', '.', '/', ':', ';', '=', '?', '@',
      '_', '~'].map Char.toUInt8

/-- `is_invalid_percent_escape`, on the bytes after the `%`. -/
def isInvalidPercentEscape : List UInt8 → Bool
  | c :: d :: _ => !isAsciiHex c || !isAsciiHex d
  | _ => true

/-! ## Percent encoding -/

inductive PercencSet
  | c0
  | fragment
  | query
  | specQuery
  | path
  | userinfo
  | component
  deriving DecidableEq, Repr

/-- The value of a `char`, which is signed. -/
def charValue (c : UInt8) : ℤ := c.toInt8.toInt

/-! The cases of `percenc_contains`, each by its own name since they refer to one
another. The quotation marks and braces stand as their codes: `0x22` and `0x27`
are the double and the single one, `0x60` is the backquote and `0x7b`, `0x7d`
are the curly braces. -/

def percencC0 (c : UInt8) : Bool := charValue c < 0x20 || charValue c > 0x7e

def percencFragment (c : UInt8) : Bool :=
  c = ' '.toUInt8 || c = 0x22 || c = '<'.toUInt8 || c = '>'.toUInt8 || c = 0x60 || percencC0 c

def percencQuery (c : UInt8) : Bool :=
  c = ' '.toUInt8 || c = 0x22 || c = '#'.toUInt8 || c = '<'.toUInt8 || c = '>'.toUInt8 ||
    percencC0 c

def percencSpecQuery (c : UInt8) : Bool := c = 0x27 || percencQuery c

def percencPath (c : UInt8) : Bool :=
  c = '?'.toUInt8 || c = 0x60 || c = 0x7b || c = 0x7d || percencQuery c

def percencUserinfo (c : UInt8) : Bool :=
  c = '/'.toUInt8 || c = ':'.toUInt8 || c = ';'.toUInt8 || c = '='.toUInt8 ||
    c = '@'.toUInt8 || ('['.toUInt8 ≤ c && c ≤ '^'.toUInt8) || c = '|'.toUInt8 || percencPath c

def percencComponent (c : UInt8) : Bool :=
  ('$'.toUInt8 ≤ c && c ≤ '&'.toUInt8) || c = '+'.toUInt8 || c = ','.toUInt8 ||
    percencUserinfo c

def percencContains (c : UInt8) : PercencSet → Bool
  | .c0 => percencC0 c
  | .fragment => percencFragment c
  | .query => percencQuery c
  | .specQuery => percencSpecQuery c
  | .path => percencPath c
  | .userinfo => percencUserinfo c
  | .component => percencComponent c

/-- A digit of the conversion `%x`. -/
def hexDigit (n : ℕ) : UInt8 :=
  if n < 10 then '0'.toUInt8 + UInt8.ofNat n else 'a'.toUInt8 + UInt8.ofNat (n - 10)

/-- The text `percent_encode` appends for one byte. -/
def percentEncode (set : PercencSet) (c : UInt8) : List UInt8 :=
  if percencContains c set then
    ['%'.toUInt8, hexDigit (c.toNat / 16), hexDigit (c.toNat % 16)]
  else [c]

def percentEncodeAll (set : PercencSet) (s : List UInt8) : List UInt8 :=
  s.flatMap (percentEncode set)

@[simp] theorem percentEncodeAll_nil (set : PercencSet) : percentEncodeAll set [] = [] := rfl

@[simp] theorem percentEncodeAll_cons (set : PercencSet) (c : UInt8) (s : List UInt8) :
    percentEncodeAll set (c :: s) = percentEncode set c ++ percentEncodeAll set s := rfl

@[simp] theorem percentEncodeAll_append (set : PercencSet) (s t : List UInt8) :
    percentEncodeAll set (s ++ t) = percentEncodeAll set s ++ percentEncodeAll set t := by
  simp [percentEncodeAll]

theorem length_percentEncode (set : PercencSet) (c : UInt8) :
    (percentEncode set c).length = if percencContains c set then 3 else 1 := by
  unfold percentEncode
  split <;> rfl

theorem length_percentEncode_pos (set : PercencSet) (c : UInt8) :
    0 < (percentEncode set c).length := by
  rw [length_percentEncode]
  split <;> omega

theorem length_le_length_percentEncodeAll (set : PercencSet) (s : List UInt8) :
    s.length ≤ (percentEncodeAll set s).length := by
  induction s with
  | nil => simp
  | cons c s ih =>
      have hc := length_percentEncode_pos set c
      simp only [percentEncodeAll_cons, List.length_cons, List.length_append]
      omega

/-! ## Components -/

structure Region where
  start : ℕ
  len : ℕ
  deriving DecidableEq, Repr

namespace Region

def empty : Region := ⟨0, 0⟩

def stop (r : Region) : ℕ := r.start + r.len

def text (r : Region) (buf : List UInt8) : List UInt8 := (buf.drop r.start).take r.len

@[simp] theorem stop_empty : empty.stop = 0 := rfl

theorem text_congr {r : Region} {buf buf' : List UInt8} {n : ℕ} (h : buf.take n = buf'.take n)
    (hn : r.stop ≤ n) : r.text buf = r.text buf' := by
  have htext : ∀ l : List UInt8, r.text l = ((l.take n).drop r.start).take r.len := by
    intro l
    simp only [Region.text, List.drop_take, List.take_take]
    congr 1
    simp only [Region.stop] at hn
    omega
  rw [htext, htext, h]

end Region

structure UrlRegion where
  scheme : Region
  username : Region
  password : Region
  host : Region
  path : Region
  query : Region
  fragment : Region
  port : UInt16
  hostNull : Bool
  portNull : Bool
  queryNull : Bool
  fragmentNull : Bool
  deriving DecidableEq, Repr

/-- The value `url_parse` starts from. -/
def UrlRegion.initial : UrlRegion where
  scheme := .empty
  username := .empty
  password := .empty
  host := .empty
  path := .empty
  query := .empty
  fragment := .empty
  port := 0
  hostNull := true
  portNull := true
  queryNull := true
  fragmentNull := true

/-- `url_t`: the offsets of the components in `buf`. -/
structure Url extends UrlRegion where
  buf : List UInt8
  deriving DecidableEq, Repr

/-- The seven slices of a URL. -/
def UrlRegion.regions (u : UrlRegion) : List Region :=
  [u.scheme, u.username, u.password, u.host, u.path, u.query, u.fragment]

end PosixThreads
