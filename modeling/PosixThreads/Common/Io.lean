import Mathlib.Algebra.Order.Group.Unbundled.Int
import Mathlib.Data.List.TakeWhile
import PosixThreads.Common.Error

/-!
# Reading integers

`parse_integer` hands a NUL-terminated buffer to `strtoll` and checks that the
conversion has consumed all of it. `strtoll` is modelled after its description in
the C standard for base ten: white space, an optional sign, digits, and a result
that saturates with `ERANGE` outside the range of `long long`.
-/

namespace PosixThreads

def isAsciiDigit (c : UInt8) : Bool := '0'.toUInt8 ≤ c && c ≤ '9'.toUInt8

/-- The characters that `isspace` accepts in the C locale. -/
def isSpace (c : UInt8) : Bool := c == 0x20 || (0x09 ≤ c && c ≤ 0x0d)

def llongMax : ℤ := 2 ^ 63 - 1

def llongMin : ℤ := -2 ^ 63

/-- The number that a string of digits denotes, with the digits read before it. -/
def digitsValue : List UInt8 → ℕ → ℕ
  | [], acc => acc
  | c :: rest, acc => digitsValue rest (10 * acc + (c.toNat - '0'.toUInt8.toNat))

/-- The outcome of `strtoll`: the value, the number of consumed bytes and whether
`errno` was set to `ERANGE`. -/
structure StrtollResult where
  value : ℤ
  used : ℕ
  erange : Bool
  deriving DecidableEq, Repr

/-- The optional sign of a number: whether it is a minus, and its length. -/
def strtollSign : List UInt8 → Bool × ℕ
  | c :: _ =>
      if c = '-'.toUInt8 then (true, 1) else if c = '+'.toUInt8 then (false, 1) else (false, 0)
  | [] => (false, 0)

/-- `strtoll` with base ten. Without any digit nothing is consumed. -/
def strtoll (buf : List UInt8) : StrtollResult :=
  let spaces := (buf.takeWhile isSpace).length
  let (negative, sign) := strtollSign (buf.drop spaces)
  let digits := (buf.drop (spaces + sign)).takeWhile isAsciiDigit
  if digits = [] then ⟨0, 0, false⟩
  else
    let magnitude : ℤ := digitsValue digits 0
    let value := if negative then -magnitude else magnitude
    let used := spaces + sign + digits.length
    if value > llongMax then ⟨llongMax, used, true⟩
    else if value < llongMin then ⟨llongMin, used, true⟩
    else ⟨value, used, false⟩

/-- `parse_integer`. A failed conversion leaves the result variable alone, so it
carries no value here. -/
def parseInteger (buf : List UInt8) : Except CommonErrorCode ℤ :=
  if buf.length = 0 then .error .malformedNumber
  else
    let conversion := strtoll buf
    if conversion.used ≠ buf.length then
      if conversion.erange then .error .numberTooLarge else .error .malformedNumber
    else .ok conversion.value

theorem isSpace_eq_false_of_digit {c : UInt8} (h : isAsciiDigit c = true) :
    isSpace c = false := by
  simp only [isAsciiDigit, Bool.and_eq_true, decide_eq_true_eq, UInt8.le_iff_toNat_le] at h
  have h0 : '0'.toUInt8.toNat = 48 := by decide
  have h9 : '9'.toUInt8.toNat = 57 := by decide
  simp only [isSpace, Bool.or_eq_false_iff, Bool.and_eq_false_iff, beq_eq_false_iff_ne, ne_eq,
    decide_eq_false_iff_not, UInt8.le_iff_toNat_le, ← UInt8.toNat_inj]
  simp only [UInt8.toNat_ofNat]
  omega

theorem strtollSign_of_digit {c : UInt8} (rest : List UInt8) (h : isAsciiDigit c = true) :
    strtollSign (c :: rest) = (false, 0) := by
  have hminus : c ≠ '-'.toUInt8 := by rintro rfl; exact absurd h (by decide)
  have hplus : c ≠ '+'.toUInt8 := by rintro rfl; exact absurd h (by decide)
  simp [strtollSign, hminus, hplus]

theorem parseInteger_digits {buf : List UInt8} (hne : buf ≠ [])
    (hdigits : ∀ c ∈ buf, isAsciiDigit c = true) :
    parseInteger buf = .ok (min (digitsValue buf 0 : ℤ) llongMax) := by
  obtain ⟨c, rest, rfl⟩ := List.exists_cons_of_ne_nil hne
  have hc : isAsciiDigit c = true := hdigits c (by simp)
  have hspaces : ((c :: rest).takeWhile isSpace) = [] := by
    simp [isSpace_eq_false_of_digit hc]
  have htake : (c :: rest).takeWhile isAsciiDigit = c :: rest :=
    List.takeWhile_eq_self_iff.mpr hdigits
  have hmin : ¬ (digitsValue (c :: rest) 0 : ℤ) < llongMin := by
    have h0 : (0 : ℤ) ≤ digitsValue (c :: rest) 0 := Int.natCast_nonneg _
    simp only [llongMin]
    omega
  have hstrtoll : strtoll (c :: rest) =
      if (digitsValue (c :: rest) 0 : ℤ) > llongMax then ⟨llongMax, (c :: rest).length, true⟩
      else ⟨digitsValue (c :: rest) 0, (c :: rest).length, false⟩ := by
    simp only [strtoll, hspaces, List.length_nil, List.drop_zero, strtollSign_of_digit rest hc,
      Nat.zero_add, htake]
    simp [hmin]
  simp only [parseInteger, hstrtoll]
  by_cases hmax : (digitsValue (c :: rest) 0 : ℤ) > llongMax
  · simp [hmax, min_eq_right hmax.le]
  · simp [hmax, min_eq_left (not_lt.mp hmax)]

end PosixThreads
