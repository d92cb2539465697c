import Mathlib.Algebra.Order.Ring.Nat
import Mathlib.Tactic.Ring
import PosixThreads.Common.Io

/-!
# Reading an integer from a stream

`read_integer` collects the digits of a number in a buffer, without the leading zeros, and hands
them to `parse_integer` with the sign in front. A stream is the list of the bytes that have yet
to be read; behind them `fgetc` reports the end of the file or an error.

`strtoll` saturates and sets `errno`, but `parse_integer` looks at `errno` only if a part of the
buffer has not been converted. A number that is too large is therefore noticed by the size of
the buffer or not at all.
-/

namespace PosixThreads

/-- What is left of a `FILE`. `failing` tells that it ends in an error of `fgetc`. -/
structure File where
  input : List UInt8
  failing : Bool
  deriving DecidableEq, Repr

def maxInt64CharLen : ℕ := 20

structure IntegerState where
  digits : List UInt8
  negative : Bool
  minusAllowed : Bool
  leadingZeroes : Bool
  metDigit : Bool
  firstChar : Bool
  deriving DecidableEq, Repr

def integerStart : IntegerState := ⟨[], false, true, true, false, true⟩

/-- `convert_ferr` of an `EOF` of `fgetc`. -/
def convertEof (failing : Bool) : CommonErrorCode := if failing then .fileError else .notFound

/-- `convert_ferr` of `ungetc`. One character can be pushed back in any case; whether there is
room for it is `room`. -/
def ungetc (room : Bool) (ch : UInt8) (file : File) : Except CommonErrorCode File :=
  if room then .ok { file with input := ch :: file.input } else .error .fileError

/-- The loop of `read_integer`. -/
def readIntegerLoop (failing : Bool) : IntegerState → List UInt8 →
    Except CommonErrorCode IntegerState × List UInt8
  | s, [] =>
      match convertEof failing with
      | .notFound => if s.firstChar then (.error .unexpectedEof, []) else (.ok s, [])
      | error => (.error error, [])
  | s, ch :: rest =>
      if ch = '0'.toUInt8 ∧ s.leadingZeroes = true then
        readIntegerLoop failing
          { s with metDigit := true, minusAllowed := false, firstChar := false } rest
      else if ch = '-'.toUInt8 ∧ s.minusAllowed = true then
        readIntegerLoop failing
          { s with negative := true, minusAllowed := false, firstChar := false } rest
      else if isAsciiDigit ch then
        if s.digits.length < maxInt64CharLen then
          readIntegerLoop failing
            { s with
              digits := s.digits ++ [ch]
              minusAllowed := false
              leadingZeroes := false
              metDigit := true
              firstChar := false } rest
        else (.error .numberTooLarge, rest)
      else (.ok s, ch :: rest)

/-- What `read_integer` does with the characters that it has collected. -/
def finishInteger (room : Bool) (s : IntegerState) (file : File) :
    Except CommonErrorCode ℤ × File :=
  let digits := if s.digits.length = 0 ∧ s.metDigit = true then ['0'.toUInt8] else s.digits
  if digits.length = 0 then
    if s.negative then
      match ungetc room '-'.toUInt8 file with
      | .error error => (.error error, file)
      | .ok file => (.error .malformedNumber, file)
    else (.error .malformedNumber, file)
  else if s.negative then (parseInteger ('-'.toUInt8 :: digits), file)
  else (parseInteger digits, file)

/-- `read_integer`. The result variable is left alone if an error is returned. The character
behind the number has room in the buffer of the stream, and a minus sign before it has if `room`
is true. -/
def readInteger (room : Bool) (file : File) : Except CommonErrorCode ℤ × File :=
  match readIntegerLoop file.failing integerStart file.input with
  | (.error error, rest) => (.error error, { file with input := rest })
  | (.ok s, rest) => finishInteger room s { file with input := rest }

/-! ## The value of a string of digits -/

theorem digitsValue_eq (digits : List UInt8) (acc : ℕ) :
    digitsValue digits acc = acc * 10 ^ digits.length + digitsValue digits 0 := by
  induction digits generalizing acc with
  | nil => simp [digitsValue]
  | cons c rest ih =>
      rw [digitsValue, digitsValue, ih, ih (10 * 0 + _), List.length_cons, pow_succ]
      ring

theorem digit_toNat {c : UInt8} (h : isAsciiDigit c = true) : 48 ≤ c.toNat ∧ c.toNat ≤ 57 := by
  simp only [isAsciiDigit, Bool.and_eq_true, decide_eq_true_eq, UInt8.le_iff_toNat_le] at h
  exact h

def significant (digits : List UInt8) : List UInt8 :=
  digits.dropWhile fun c => c = '0'.toUInt8

theorem digitsValue_significant (digits : List UInt8) :
    digitsValue (significant digits) 0 = digitsValue digits 0 := by
  induction digits with
  | nil => rfl
  | cons c rest ih =>
      by_cases hc : c = '0'.toUInt8
      · have hzero : 10 * 0 + (c.toNat - '0'.toUInt8.toNat) = 0 := by
          rw [hc, Nat.sub_self]
        rw [significant, List.dropWhile_cons_of_pos (by simpa using hc), digitsValue, hzero]
        exact ih
      · rw [significant, List.dropWhile_cons_of_neg (by simpa using hc)]

/-- A number with more significant digits than the buffer has room for is out of range. -/
theorem digitsValue_of_long {digits : List UInt8} (hdigits : ∀ c ∈ digits, isAsciiDigit c = true)
    (hlong : maxInt64CharLen < (significant digits).length) :
    10 ^ maxInt64CharLen ≤ digitsValue digits 0 := by
  rw [← digitsValue_significant]
  cases hsig : significant digits with
  | nil => simp [hsig] at hlong
  | cons c rest =>
      have hmem : c ∈ digits := List.dropWhile_subset _ (by
        rw [← significant, hsig]
        exact List.mem_cons_self)
      have hne : c ≠ '0'.toUInt8 := by
        have hhead := List.head?_dropWhile_not (fun c => decide (c = '0'.toUInt8)) digits
        rw [← significant, hsig] at hhead
        simpa using hhead
      have hc := digit_toNat (hdigits c hmem)
      have hpos : 1 ≤ c.toNat - '0'.toUInt8.toNat := by
        have h48 : c.toNat ≠ 48 := fun heq => hne (UInt8.toNat_inj.mp heq)
        have hzero : '0'.toUInt8.toNat = 48 := by decide
        omega
      have hlen : maxInt64CharLen ≤ rest.length := by
        rw [hsig, List.length_cons] at hlong
        omega
      calc
        10 ^ maxInt64CharLen ≤ 10 ^ rest.length := Nat.pow_le_pow_right (by decide) hlen
        _ ≤ (c.toNat - '0'.toUInt8.toNat) * 10 ^ rest.length := Nat.le_mul_of_pos_left _ hpos
        _ ≤ digitsValue (c :: rest) 0 := by
          rw [digitsValue, digitsValue_eq, Nat.mul_zero, Nat.zero_add]
          exact Nat.le_add_right _ _

/-! ## The loop -/

section Loop

variable {s : IntegerState} {digits rest : List UInt8} {failing : Bool}

def IntegerState.collects (s : IntegerState) (digits : List UInt8) : List UInt8 :=
  if s.leadingZeroes then significant digits else digits

theorem digit_ne_minus {c : UInt8} (h : isAsciiDigit c = true) : c ≠ '-'.toUInt8 := by
  rintro rfl
  exact absurd h (by decide)

/-- A run of digits is collected, unless there are more than the buffer has room for. -/
theorem readIntegerLoop_digits (rest : List UInt8) (failing : Bool)
    (hdigits : ∀ c ∈ digits, isAsciiDigit c = true)
    (hlen : s.digits.length ≤ maxInt64CharLen) :
    (maxInt64CharLen < (s.digits ++ s.collects digits).length ∧
      ∃ left, readIntegerLoop failing s (digits ++ rest) = (.error .numberTooLarge, left)) ∨
    ((s.digits ++ s.collects digits).length ≤ maxInt64CharLen ∧
      ∃ s', readIntegerLoop failing s (digits ++ rest) = readIntegerLoop failing s' rest ∧
        s'.digits = s.digits ++ s.collects digits ∧ s'.negative = s.negative ∧
        s'.minusAllowed = (s.minusAllowed && digits.isEmpty) ∧
        s'.metDigit = (s.metDigit || !digits.isEmpty) ∧
        s'.firstChar = (s.firstChar && digits.isEmpty)) := by
  induction digits generalizing s with
  | nil =>
      have hnil : s.collects [] = [] := by simp [IntegerState.collects, significant]
      rw [hnil, List.append_nil]
      exact .inr ⟨hlen, s, by simp⟩
  | cons c digits ih =>
      have hc : isAsciiDigit c = true := hdigits c (by simp)
      have hrest : ∀ c ∈ digits, isAsciiDigit c = true := fun c hmem => hdigits c (by simp [hmem])
      rw [List.cons_append, readIntegerLoop]
      by_cases hzero : c = '0'.toUInt8 ∧ s.leadingZeroes = true
      · have hcollects : s.collects (c :: digits) =
            IntegerState.collects
              { s with metDigit := true, minusAllowed := false, firstChar := false } digits := by
          simp [IntegerState.collects, significant, hzero.1, hzero.2]
        rw [if_pos hzero, hcollects]
        rcases ih (s := { s with metDigit := true, minusAllowed := false, firstChar := false })
          hrest hlen with hlong | ⟨hshort, s', hloop, hs', hnegative, hminus, hmet, hfirst⟩
        · exact .inl hlong
        · exact .inr ⟨hshort, s', hloop, hs', hnegative, by simpa using hminus, by simpa using hmet,
            by simpa using hfirst⟩
      · have hcollects : s.collects (c :: digits) = c :: digits := by
          by_cases hleading : s.leadingZeroes = true
          · have hne : c ≠ '0'.toUInt8 := fun heq => hzero ⟨heq, hleading⟩
            simp only [IntegerState.collects, hleading, if_true, significant]
            exact List.dropWhile_cons_of_neg (by simpa using hne)
          · simp [IntegerState.collects, hleading]
        have hminus : ¬(c = '-'.toUInt8 ∧ s.minusAllowed = true) :=
          fun h => digit_ne_minus hc h.1
        rw [if_neg hzero, if_neg hminus, if_pos hc, hcollects, List.append_cons]
        by_cases hfull : s.digits.length < maxInt64CharLen
        · rw [if_pos hfull]
          have hnext := ih (s := { s with
              digits := s.digits ++ [c]
              minusAllowed := false
              leadingZeroes := false
              metDigit := true
              firstChar := false }) hrest (by
            rw [List.length_append, List.length_singleton]
            exact hfull)
          simpa [IntegerState.collects] using hnext
        · rw [if_neg hfull]
          refine .inl ⟨?_, _, rfl⟩
          simp only [List.length_append, List.length_singleton]
          omega

theorem readIntegerLoop_stop (hstop : ∀ c ∈ rest.head?, isAsciiDigit c = false)
    (hread : rest = [] → failing = false) (hminus : s.minusAllowed = false)
    (hfirst : s.firstChar = false) : readIntegerLoop failing s rest = (.ok s, rest) := by
  cases rest with
  | nil => simp [readIntegerLoop, convertEof, hread rfl, hfirst]
  | cons c rest =>
      have hc : isAsciiDigit c = false := hstop c (by simp)
      have hzero : c ≠ '0'.toUInt8 := by
        rintro rfl
        exact absurd hc (by decide)
      simp [readIntegerLoop, hzero, hminus, hc]

end Loop

/-! ## The number -/

/-- A number as it is written, with a minus sign in front of it or without. -/
def signed (negative : Bool) (digits : List UInt8) : List UInt8 :=
  if negative then '-'.toUInt8 :: digits else digits

def signedValue (negative : Bool) (digits : List UInt8) : ℤ :=
  if negative then -(digitsValue digits 0 : ℤ) else digitsValue digits 0

def InInt64 (n : ℤ) : Prop := llongMin ≤ n ∧ n ≤ llongMax

instance (n : ℤ) : Decidable (InInt64 n) := inferInstanceAs (Decidable (_ ∧ _))

section Number

variable {negative : Bool} {digits rest : List UInt8} {file : File}

theorem takeWhile_digits (hdigits : ∀ c ∈ digits, isAsciiDigit c = true) :
    digits.takeWhile isAsciiDigit = digits := List.takeWhile_eq_self_iff.mpr hdigits

theorem strtoll_signed (hne : digits ≠ []) (hdigits : ∀ c ∈ digits, isAsciiDigit c = true) :
    strtoll (signed negative digits) =
      ⟨max llongMin (min (signedValue negative digits) llongMax),
        (signed negative digits).length, decide (¬InInt64 (signedValue negative digits))⟩ := by
  have hsaturate : ∀ (n : ℤ) (used : ℕ),
      (if n > llongMax then (⟨llongMax, used, true⟩ : StrtollResult)
        else if n < llongMin then ⟨llongMin, used, true⟩ else ⟨n, used, false⟩) =
        ⟨max llongMin (min n llongMax), used, decide (¬InInt64 n)⟩ := by
    intro n used
    have hrange : llongMin ≤ llongMax := by decide
    split_ifs with hmax hmin
    · simp [InInt64, hmax, min_eq_right hmax.le, max_eq_right hrange]
    · simp [InInt64, hmin, min_eq_left (not_lt.mp hmax), max_eq_left hmin.le]
    · rw [min_eq_left (not_lt.mp hmax), max_eq_right (not_lt.mp hmin)]
      simp [InInt64, not_lt.mp hmax, not_lt.mp hmin]
  obtain ⟨c, tail, rfl⟩ := List.exists_cons_of_ne_nil hne
  have hc : isAsciiDigit c = true := hdigits c (by simp)
  have htake := takeWhile_digits hdigits
  rw [← hsaturate]
  cases negative with
  | true =>
      have hspaces : ('-'.toUInt8 :: c :: tail).takeWhile isSpace = [] := by
        rw [List.takeWhile_cons_of_neg (by decide)]
      simp only [strtoll, signed, signedValue, if_true, hspaces, List.length_nil, List.drop_zero,
        strtollSign, Nat.zero_add, List.drop_succ_cons, htake, List.length_cons]
      simp [Nat.add_comm]
  | false =>
      have hspaces : (c :: tail).takeWhile isSpace = [] := by
        simp [isSpace_eq_false_of_digit hc]
      simp only [strtoll, signed, signedValue, Bool.false_eq_true, if_false, hspaces,
        List.length_nil, List.drop_zero, strtollSign_of_digit tail hc, Nat.zero_add, htake]
      simp

/-- `errno` is never looked at, because all of the number has been converted. -/
theorem parseInteger_signed (negative : Bool) (hne : digits ≠ [])
    (hdigits : ∀ c ∈ digits, isAsciiDigit c = true) :
    parseInteger (signed negative digits) =
      .ok (max llongMin (min (signedValue negative digits) llongMax)) := by
  have hlen : (signed negative digits).length ≠ 0 := by
    cases negative <;> simp [signed, hne]
  simp [parseInteger, strtoll_signed hne hdigits, hlen]

theorem signedValue_collected :
    signedValue negative (if significant digits = [] then ['0'.toUInt8] else significant digits) =
      signedValue negative digits := by
  have hvalue := digitsValue_significant digits
  split_ifs with hnil
  · rw [hnil] at hvalue
    have hzero : digitsValue ['0'.toUInt8] 0 = digitsValue [] 0 := by decide
    rw [signedValue, signedValue, hzero, hvalue]
  · rw [signedValue, signedValue, hvalue]

/-- `read_integer` refuses the numbers that its buffer has no room for, and saturates the
others. -/
theorem readInteger_signed (room : Bool) (hne : digits ≠ [])
    (hdigits : ∀ c ∈ digits, isAsciiDigit c = true)
    (hstop : ∀ c ∈ rest.head?, isAsciiDigit c = false)
    (hread : rest = [] → file.failing = false)
    (hinput : file.input = signed negative digits ++ rest) :
    (readInteger room file).1 =
      if maxInt64CharLen < (significant digits).length then .error .numberTooLarge
      else .ok (max llongMin (min (signedValue negative digits) llongMax)) := by
  -- the loop behind the sign
  obtain ⟨s, hstart, hs, hleading, hnegative⟩ :
      ∃ s, readIntegerLoop file.failing integerStart file.input =
          readIntegerLoop file.failing s (digits ++ rest) ∧
        s.digits = [] ∧ s.leadingZeroes = true ∧ s.negative = negative := by
    rw [hinput]
    cases negative with
    | true =>
        refine ⟨{ integerStart with negative := true, minusAllowed := false, firstChar := false },
          ?_, rfl, rfl, rfl⟩
        rw [signed, if_pos rfl, List.cons_append, readIntegerLoop, if_neg (by decide),
          if_pos (by decide)]
    | false => exact ⟨integerStart, rfl, rfl, rfl, rfl⟩
  have hcollects : s.digits ++ s.collects digits = significant digits := by
    rw [hs, List.nil_append, IntegerState.collects, if_pos hleading]
  have hshort : s.digits.length ≤ maxInt64CharLen := by simp [hs]
  have hloop := readIntegerLoop_digits rest file.failing hdigits hshort
  rw [hcollects] at hloop
  rcases hloop with ⟨hlong, left, hloop⟩ |
    ⟨hshort, s', hloop, hs', hnegative', hminus, hmet, hfirst⟩
  · rw [readInteger, hstart, hloop, if_pos hlong]
  · have hempty : digits.isEmpty = false := by simpa using hne
    rw [hempty, Bool.and_false] at hminus hfirst
    rw [hempty, Bool.not_false, Bool.or_true] at hmet
    rw [readIntegerLoop_stop hstop hread hminus hfirst] at hloop
    rw [readInteger, hstart, hloop, if_neg (not_lt.mpr hshort)]
    have hcollected : (if s'.digits.length = 0 ∧ s'.metDigit = true then ['0'.toUInt8]
        else s'.digits) =
          if significant digits = [] then ['0'.toUInt8] else significant digits := by
      simp only [hs', hmet, and_true, List.length_eq_zero_iff]
    have hne' : (if significant digits = [] then ['0'.toUInt8] else significant digits) ≠ [] := by
      split_ifs with hnil
      · simp
      · exact hnil
    have hdigits' : ∀ c ∈ (if significant digits = [] then ['0'.toUInt8] else significant digits),
        isAsciiDigit c = true := by
      split_ifs with hnil
      · simp only [List.mem_singleton, forall_eq]
        decide
      · exact fun c hc => hdigits c (List.dropWhile_subset _ hc)
    have hparse := parseInteger_signed negative hne' hdigits'
    rw [signedValue_collected] at hparse
    simp only [finishInteger, hcollected]
    rw [if_neg (by rwa [List.length_eq_zero_iff]), hnegative', hnegative, ← hparse]
    cases negative <;> rfl

/-- An integer in the range is returned as it is, and another one is refused. -/
def IntegerExact (outcome : Except CommonErrorCode ℤ) (n : ℤ) : Prop :=
  (InInt64 n → outcome = .ok n) ∧ (¬InInt64 n → outcome = .error .numberTooLarge)

theorem saturate_of_inInt64 {n : ℤ} (h : InInt64 n) : max llongMin (min n llongMax) = n := by
  rw [min_eq_left h.2, max_eq_right h.1]

theorem integerExact_saturated_iff (n : ℤ) :
    IntegerExact (.ok (max llongMin (min n llongMax))) n ↔ InInt64 n := by
  constructor
  · intro h
    by_contra hn
    have herror := h.2 hn
    simp at herror
  · exact fun hn => ⟨fun _ => by rw [saturate_of_inInt64 hn], fun hnot => absurd hn hnot⟩

theorem not_inInt64_of_long (hdigits : ∀ c ∈ digits, isAsciiDigit c = true)
    (hlong : maxInt64CharLen < (significant digits).length) :
    ¬InInt64 (signedValue negative digits) := by
  have hvalue := digitsValue_of_long hdigits hlong
  rintro ⟨hmin, hmax⟩
  have hpow : 10 ^ maxInt64CharLen = 100000000000000000000 := by decide
  rw [hpow] at hvalue
  unfold llongMin at hmin
  unfold llongMax at hmax
  cases negative with
  | true =>
      rw [signedValue, if_pos rfl] at hmin
      omega
  | false =>
      rw [signedValue, if_neg (by simp)] at hmax
      omega

/-- `parse_integer` is exact for the integers in the range, and `read_integer` also for those
with more than 20 digits behind the leading zeros. The numbers in between are saturated. -/
theorem integerExact_iff (room : Bool) (hne : digits ≠ [])
    (hdigits : ∀ c ∈ digits, isAsciiDigit c = true)
    (hstop : ∀ c ∈ rest.head?, isAsciiDigit c = false)
    (hread : rest = [] → file.failing = false)
    (hinput : file.input = signed negative digits ++ rest) :
    (IntegerExact (readInteger room file).1 (signedValue negative digits) ↔
        InInt64 (signedValue negative digits) ∨
          maxInt64CharLen < (significant digits).length) ∧
      (IntegerExact (parseInteger (signed negative digits)) (signedValue negative digits) ↔
        InInt64 (signedValue negative digits)) := by
  rw [readInteger_signed room hne hdigits hstop hread hinput,
    parseInteger_signed negative hne hdigits]
  refine ⟨?_, integerExact_saturated_iff _⟩
  split_ifs with hlong
  · have hnot : ¬InInt64 (signedValue negative digits) := not_inInt64_of_long hdigits hlong
    exact iff_of_true ⟨fun h => absurd h hnot, fun _ => rfl⟩ (.inr hlong)
  · rw [integerExact_saturated_iff, or_iff_left hlong]

end Number

/-- Zeros, a number of 19 digits and a space. -/
theorem integerExact_minimum :
    "0009223372036854775808".toList.map Char.toUInt8 ≠ [] ∧
      IntegerExact (readInteger true ⟨"-0009223372036854775808 ".toList.map Char.toUInt8, false⟩).1
        (signedValue true ("0009223372036854775808".toList.map Char.toUInt8)) :=
  ⟨by decide,
    (@integerExact_iff _ _ [0x20] _ true (by decide) (List.all_eq_true.mp (by decide))
      (by rintro c ⟨⟩; rfl) (by decide) (by decide)).1.mpr (.inl (by decide))⟩

/-- The first number behind either end of the range is returned as the end of the range. -/
theorem integerExact_fails_behind_range :
    (readInteger true ⟨"9223372036854775808".toList.map Char.toUInt8, false⟩).1 =
        .ok 9223372036854775807 ∧
      ¬IntegerExact (readInteger true ⟨"9223372036854775808".toList.map Char.toUInt8, false⟩).1
        (signedValue false ("9223372036854775808".toList.map Char.toUInt8)) ∧
      parseInteger ("-9223372036854775809".toList.map Char.toUInt8) =
        .ok (-9223372036854775808) ∧
      ¬IntegerExact (parseInteger ("-9223372036854775809".toList.map Char.toUInt8))
        (signedValue true ("9223372036854775809".toList.map Char.toUInt8)) := by
  have hread : (readInteger true ⟨"9223372036854775808".toList.map Char.toUInt8, false⟩).1 =
      .ok 9223372036854775807 := by decide
  have hparse : parseInteger ("-9223372036854775809".toList.map Char.toUInt8) =
      .ok (-9223372036854775808) := by decide
  refine ⟨hread, fun h => ?_, hparse, fun h => ?_⟩
  · have herror := h.2 (by decide)
    rw [hread] at herror
    cases herror
  · have herror := h.2 (by decide)
    rw [hparse] at herror
    cases herror

end PosixThreads
