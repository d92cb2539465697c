import Mathlib.Data.List.Forall2
import PosixThreads.Collections.String.Spec
import PosixThreads.Library.Lts

/-!
# Strings refine byte lists

The state is a list of strings. New ones are put at its end. An operation is applied as `string.h`
has it, with the answers of `realloc`, and gives an error code or none. `Op.denote` is what it
stands for on byte lists. After any sequence of operations the strings hold what the operations
without an error stand for, so one that gives an error has left the bytes and the terminator of
every string as they were.
-/

namespace PosixThreads

namespace StringT

/-- An operation, with the answers of `realloc`. A string is named by its place. An array of bytes
has at most `PTRDIFF_MAX` of them. -/
inductive Op
  | new (ok : Bool)
  | fromSlice (allocs : Alloc) (slice : List UInt8)
  | push (self : ℕ) (ok : Bool) (ch : UInt8)
  | insert (self : ℕ) (ok : Bool) (pos : ℕ) (ch : UInt8)
  | append (self other : ℕ) (ok okNul : Bool)
  | appendSlice (self : ℕ) (ok okNul : Bool) (slice : { bs : List UInt8 // bs.length ≤ ptrdiffMax })
  | appendf (self : ℕ) (ok : Bool) (formatted : Formatted)
  | remove (self pos : ℕ)
  | pop (self : ℕ)
  | clear (self : ℕ)
  | setLen (self len : ℕ)

def construct (strings : List StringT) :
    Except CommonErrorCode StringT → Option CommonErrorCode × List StringT
  | .error code => (some code, strings)
  | .ok string => (none, strings ++ [string])

def update (strings : List StringT) (self : ℕ)
    (f : StringT → Option (Option CommonErrorCode × StringT)) :
    Option (Option CommonErrorCode × List StringT) := do
  let (code, string) ← f (← strings[self]?)
  return (code, strings.set self string)

def done (result : Option StringT) : Option (Option CommonErrorCode × StringT) :=
  result.map fun string => (none, string)

def Op.perform (strings : List StringT) :
    Op → Option (Option CommonErrorCode × List StringT)
  | .new ok => (StringT.new ok).map (construct strings)
  | .fromSlice allocs slice => (StringT.fromSlice allocs slice).map (construct strings)
  | .push self ok ch => update strings self (StringT.push ok · ch)
  | .insert self ok pos ch => update strings self (StringT.insert ok · pos ch)
  | .append self other ok okNul =>
      strings[other]?.bind fun string => update strings self (StringT.append ok okNul · string)
  | .appendSlice self ok okNul slice =>
      update strings self (StringT.appendSlice ok okNul · slice.val)
  | .appendf self ok formatted => update strings self (StringT.appendf ok · formatted)
  | .remove self pos => update strings self fun string => done (StringT.remove string pos)
  | .pop self => update strings self fun string => done (StringT.pop string)
  | .clear self => update strings self fun string => done (StringT.clear string)
  | .setLen self len => update strings self fun string => done (StringT.setLen string len)

/-- The strings of the operation exist, are different ones, and are as it asserts. -/
def Op.allowed (strings : List StringT) : Op → Bool
  | .new _ | .fromSlice _ _ => true
  | .push self _ _ | .appendSlice self _ _ _ | .appendf self _ _ | .clear self =>
      self < strings.length
  | .append self other _ _ =>
      self ≠ other && self < strings.length && other < strings.length
  | .insert self _ pos _ => strings[self]?.any (pos < ·.storage.len)
  | .remove self pos => strings[self]?.any (pos < ·.len)
  | .pop self => strings[self]?.any (·.len > 0)
  | .setLen self len => strings[self]?.any (len ≤ ·.len)

/-! ## Byte lists -/

/-- What an operation stands for. -/
def Op.denote (texts : List (List UInt8)) : Op → List (List UInt8)
  | .new _ => texts ++ [[]]
  | .fromSlice _ slice => texts ++ [slice]
  | .push self _ ch => texts.modify self (· ++ [ch])
  | .insert self _ pos ch => texts.modify self fun bs => bs.take pos ++ ch :: bs.drop pos
  | .append self other _ _ => texts.modify self (· ++ texts.getD other [])
  | .appendSlice self _ _ slice => texts.modify self (· ++ slice.val)
  | .appendf self _ formatted => texts.modify self (· ++ formatted.val)
  | .remove self pos => texts.modify self (·.eraseIdx pos)
  | .pop self => texts.modify self List.dropLast
  | .clear self => texts.modify self fun _ => []
  | .setLen self len => texts.modify self (·.take len)

def after (texts : List (List UInt8)) (label : Op × Option CommonErrorCode) : List (List UInt8) :=
  if label.2 = none then label.1.denote texts else texts

section Updates

variable {strings : List StringT} {texts : List (List UInt8)} {self : ℕ} {string : StringT}

end Updates

/-! ## Sequences of operations -/

abbrev Run := Lts.Run (fun strings : List StringT => strings = [])
  fun strings (label : Op × Option CommonErrorCode) strings' =>
    label.1.allowed strings = true ∧ label.1.perform strings = some (label.2, strings')

end StringT

end PosixThreads
