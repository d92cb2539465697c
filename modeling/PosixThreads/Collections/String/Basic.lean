import PosixThreads.Collections.Vec.Bulk

/-!
# Strings

The functions of `string.c`. A string is a vector of bytes whose last element is the terminator.
Whether `realloc` succeeds is a parameter of each call that may need memory.

`vsnprintf` is given the formatted text, which is what its format and its arguments stand for. It
has at most `INT_MAX` bytes, as `vsnprintf` returns their number as an `int`.
-/

namespace PosixThreads

structure StringT where
  storage : Vec
  deriving DecidableEq, Repr

def byteElem (ch : UInt8) : Elem 1 := ⟨[some ch], rfl⟩

/-- What `vsnprintf` writes if there is room. -/
abbrev Formatted := { text : List UInt8 // text.length ≤ intMax }

/-- `vsnprintf` with `n` bytes of room at `pos`. It ends what it writes with a null byte. -/
def vsnprintf (storage : List Cell) (pos n : ℕ) (text : List UInt8) : Option (List Cell) :=
  if n = 0 then some storage
  else Block.write storage pos ((text.take (n - 1)).map some ++ [some 0])

/-- The conversion of `length + 1` to `size_t`. The sum is one of `int` and wraps around. -/
def sizeOfSucc (length : ℕ) : ℕ :=
  if length = intMax then 0xffffffff80000000 else length + 1

namespace StringT

def len (self : StringT) : ℕ := sizeSub self.storage.len 1

/-- A function of vectors that is used for strings. -/
def lift (result : Option (Option CommonErrorCode × Vec)) :
    Option (Option CommonErrorCode × StringT) :=
  result.map fun (code, storage) => (code, ⟨storage⟩)

/-- `string_new`. Without memory there is no string. -/
def new (ok : Bool) : Option (Except CommonErrorCode StringT) := do
  let (code, storage) ← Vec.push 1 ok Vec.new (byteElem 0)
  match code with
  | some code => return .error code
  | none => return .ok ⟨storage⟩

def insert (ok : Bool) (self : StringT) (pos : ℕ) (ch : UInt8) :
    Option (Option CommonErrorCode × StringT) := do
  assertThat (pos < self.storage.len)
  lift (Vec.insert 1 ok self.storage pos (byteElem ch))

def push (ok : Bool) (self : StringT) (ch : UInt8) : Option (Option CommonErrorCode × StringT) :=
  insert ok self (sizeSub self.storage.len 1) ch

/-- The loop of `string_from_slice`. The string is freed if it cannot be finished. -/
def pushAll (allocs : Alloc) (self : StringT) :
    List UInt8 → Option (Except CommonErrorCode StringT)
  | [] => some (.ok self)
  | ch :: rest => do
      let (code, self) ← push (allocs 0) self ch
      match code with
      | some code => return .error code
      | none => pushAll (fun i => allocs (i + 1)) self rest

def fromSlice (allocs : Alloc) (slice : List UInt8) : Option (Except CommonErrorCode StringT) := do
  match ← new (allocs 0) with
  | .error code => return .error code
  | .ok result => pushAll (fun i => allocs (i + 1)) result slice

def appendf (ok : Bool) (self : StringT) (formatted : Formatted) :
    Option (Option CommonErrorCode × StringT) := do
  let length := formatted.val.length
  let start := if self.storage.len > 0 then self.storage.len - 1 else self.storage.len
  let newSize := sizeT (start + length + 1)
  let (code, storage) ← Vec.resize 1 ok self.storage newSize
  match code with
  | some code => return (some code, ⟨storage⟩)
  | none =>
      let storage ← storage.setLen newSize
      -- without elements there is no pointer to write to
      assertThat (storage.len ≠ 0)
      let bytes ← vsnprintf storage.storage start (sizeOfSucc length) formatted.val
      return (none, ⟨{ storage with storage := bytes }⟩)

/-- `string_append` for another string. -/
def append (ok okNul : Bool) (self other : StringT) :
    Option (Option CommonErrorCode × StringT) := do
  let storage ← Vec.remove 1 self.storage (sizeSub self.storage.len 1)
  let (code, storage) ← Vec.append 1 ok storage (some other.storage)
  match code with
  | none => return (none, ⟨storage⟩)
  | some code =>
      let (_, storage) ← Vec.push 1 okNul storage (byteElem 0)
      return (some code, ⟨storage⟩)

/-- `string_append_slice` for a slice outside of the string. -/
def appendSlice (ok okNul : Bool) (self : StringT) (slice : List UInt8) :
    Option (Option CommonErrorCode × StringT) := do
  let len := self.storage.len
  let storage ← Vec.remove 1 self.storage (sizeSub len 1)
  let (status, storage) ← Vec.appendSlice 1 ok storage (slice.map some) slice.length
  let (nullStatus, storage) ← Vec.push 1 okNul storage (byteElem 0)
  match status.or nullStatus with
  | none => return (none, ⟨storage⟩)
  | some code =>
      let storage ← Vec.setAt 1 storage (sizeSub len 1) (byteElem 0)
      let storage ← storage.setLen len
      return (some code, ⟨storage⟩)

def remove (self : StringT) (pos : ℕ) : Option StringT := do
  assertThat (pos < self.len)
  return ⟨← Vec.remove 1 self.storage pos⟩

def pop (self : StringT) : Option StringT := do
  assertThat (self.len > 0)
  remove self (sizeSub self.len 1)

def clear (self : StringT) : Option StringT := do
  let storage ← self.storage.setLen 1
  return ⟨← Vec.setAt 1 storage 0 (byteElem 0)⟩

def removeSlice (self : StringT) (start stop : ℕ) : Option StringT := do
  assertThat (start ≤ stop)
  let stop := if stop > self.len then self.len else stop
  return ⟨← Vec.removeSlice 1 self.storage start stop⟩

def setLen (self : StringT) (len : ℕ) : Option StringT := do
  assertThat (len ≤ self.len)
  let storage ← self.storage.setLen (sizeT (len + 1))
  return ⟨← Vec.setAt 1 storage len (byteElem 0)⟩

/-! ## What a string holds -/

/-- The first bytes are `bs`, and the next one, which is in the storage, is null. -/
structure Agrees (self : StringT) (bs : List UInt8) : Prop where
  len_eq : self.len = bs.length
  bytes : self.storage.storage.take self.len = bs.map some
  terminated : self.storage.storage[self.len]? = some (some 0)
  inside : self.len < self.storage.capacity

/-- The elements are the bytes of the string and the terminator. -/
def Holds (self : StringT) (bs : List UInt8) : Prop :=
  self.storage.Represents ((bs ++ [0]).map byteElem)

end StringT

end PosixThreads
