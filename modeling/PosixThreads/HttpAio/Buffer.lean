import PosixThreads.Collections.Vec.Basic
import PosixThreads.HttpAio.Error

/-!
# The byte buffer

This is `buf_t` with its reading and writing positions. Free room is behind the writing position,
and there is more in front of the reading position if the unread bytes are moved. The memory of
the buffer is a block of cells. An access outside of it has no result.

A write without a pointer takes over what has been put into the memory already, by whatever means;
its bytes are not known here.
-/

namespace PosixThreads

namespace HttpAio

structure Buf where
  buf : List Cell
  capacity : ℕ
  readEnd : ℕ
  writePos : ℕ
  readPos : ℕ
  autoCompact : Bool
  deriving DecidableEq, Repr

/-- What a write gets: a pointer to bytes, or `NULL` and their number. -/
inductive WriteData
  | bytes (bs : List UInt8)
  | null (count : ℕ)
  deriving DecidableEq, Repr

def WriteData.count : WriteData → ℕ
  | .bytes bs => bs.length
  | .null count => count

def WriteData.pointer : WriteData → Bool
  | .bytes _ => true
  | .null _ => false

namespace Buf

def new (ok : Bool) (capacity : ℕ) (autoCompact : Bool) : Except Err Buf :=
  match realloc ok [] capacity with
  | none => .error (.bool "could not allocate memory for a buffer")
  | some buf => .ok ⟨buf, capacity, 0, 0, 0, autoCompact⟩

def free (self : Buf) : Buf :=
  { self with buf := [], capacity := 0, readEnd := 0, writePos := 0, readPos := 0 }

def immediatelyAvailableWriteSize (self : Buf) : ℕ := sizeSub self.capacity self.writePos

def availableWriteSize (self : Buf) : ℕ :=
  sizeT (self.immediatelyAvailableWriteSize + self.readPos)

def availableReadSize (self : Buf) : ℕ := sizeSub self.readEnd self.readPos

def resize (ok : Bool) (self : Buf) (newCapacity : ℕ) : Option (Option Err × Buf) :=
  if newCapacity = 0 then some (none, self.free)
  else
    let readSize := self.availableReadSize
    match errFromBool (readSize ≤ newCapacity) "resizing would truncate data" with
    | some error => some (some error, self)
    | none =>
        match realloc ok (if self.readPos ≠ 0 then [] else self.buf) newCapacity with
        | none => some (some (.bool "could not allocate memory for the buffer"), self)
        | some buf => do
            let buf ← if self.readPos ≠ 0 then do
                Block.write buf 0 (← Block.read self.buf self.readPos readSize)
              else some buf
            return (none, { self with
              buf := buf
              capacity := newCapacity
              writePos := sizeSub self.writePos self.readPos
              readPos := 0
              readEnd := readSize })

def compact (self : Buf) : Option Buf :=
  if self.readPos = 0 then some self
  else do
    let readSize := self.availableReadSize
    let buf ← Block.move self.buf 0 self.readPos readSize
    return { self with
      buf := buf
      readEnd := readSize
      writePos := sizeSub self.writePos self.readPos
      readPos := 0 }

/-- The copy of the bytes in `buf_write`. -/
def copyIn (self : Buf) : WriteData → Option Buf
  | .null _ => some self
  | .bytes bs => do
      let self ←
        if self.autoCompact && self.immediatelyAvailableWriteSize < bs.length then self.compact
        else some self
      return { self with buf := ← Block.write self.buf self.writePos (bs.map some) }

def write (self : Buf) (data : WriteData) : Option (Option Err × Buf) :=
  match errFromBool (data.count ≤ self.availableWriteSize)
    "there was not enough space for writing into the buffer" with
  | some error => some (some error, self)
  | none => do
      let self ← self.copyIn data
      let writePos := sizeT (self.writePos + data.count)
      return (none, { self with
        writePos := writePos
        readEnd := if self.readEnd < writePos then writePos else self.readEnd })

/-- `buf_read`, with what it stores if it gets a pointer. -/
def read (self : Buf) (pointer : Bool) (count : ℕ) : Option (Option Err × List Cell × Buf) :=
  match errFromBool (count ≤ self.availableReadSize)
    "requested a read of more bytes than was written to the buffer" with
  | some error => some (some error, [], self)
  | none => do
      let stored ← if pointer then Block.read self.buf self.readPos count else some []
      let self := { self with readPos := sizeT (self.readPos + count) }
      let self := if self.autoCompact && self.readPos = self.readEnd then
          { self with readPos := 0, writePos := 0, readEnd := 0 }
        else self
      return (none, stored, self)

/-- The first `if` of `buf_ensure_enough_write_space`. -/
def compactFor (self : Buf) (count : ℕ) : Option Buf :=
  if self.immediatelyAvailableWriteSize < count then self.compact else some self

def ensureEnoughWriteSpace (ok : Bool) (self : Buf) (count : ℕ) : Option (Option Err × Buf) := do
  let self ← self.compactFor count
  if self.availableWriteSize < count then
    let (error, self) ← self.resize ok (sizeT (self.availableReadSize + count))
    return (errFromErr error none, self)
  else return (none, self)

def writeResizing (ok : Bool) (self : Buf) (data : WriteData) : Option (Option Err × Buf) := do
  let (error, self) ← self.ensureEnoughWriteSpace ok data.count
  match errFromErr error (some "failed to ensure enough available write space") with
  | some error => return (some error, self)
  | none =>
      let (error, self) ← self.write data
      return (errFromErr error none, self)

def reset (self : Buf) : Buf := { self with readEnd := 0, readPos := 0, writePos := 0 }

end Buf

/-- The operations. The answer of the allocator is `ok`. -/
inductive BufOp
  | write (data : WriteData)
  | read (pointer : Bool) (count : ℕ)
  | writeResizing (data : WriteData) (ok : Bool)
  | ensureEnoughWriteSpace (count : ℕ) (ok : Bool)
  | resize (newCapacity : ℕ) (ok : Bool)
  | compact
  | reset
  deriving DecidableEq, Repr

def BufOp.size : BufOp → ℕ
  | .write data => data.count
  | .read _ count => count
  | .writeResizing data _ => data.count
  | .ensureEnoughWriteSpace count _ => count
  | .resize newCapacity _ => newCapacity
  | .compact => 0
  | .reset => 0

/-- What an operation returns: the error, and the bytes that have been read. -/
structure BufResult where
  error : Option Err
  stored : List Cell
  deriving DecidableEq, Repr

namespace Buf

def exec (self : Buf) : BufOp → Option (BufResult × Buf)
  | .write data => do
      let (error, self) ← self.write data
      return (⟨error, []⟩, self)
  | .read pointer count => do
      let (error, stored, self) ← self.read pointer count
      return (⟨error, stored⟩, self)
  | .writeResizing data ok => do
      let (error, self) ← self.writeResizing ok data
      return (⟨error, []⟩, self)
  | .ensureEnoughWriteSpace count ok => do
      let (error, self) ← self.ensureEnoughWriteSpace ok count
      return (⟨error, []⟩, self)
  | .resize newCapacity ok => do
      let (error, self) ← self.resize ok newCapacity
      return (⟨error, []⟩, self)
  | .compact => do
      let self ← self.compact
      return (⟨none, []⟩, self)
  | .reset => some (⟨none, []⟩, self.reset)

end Buf

end HttpAio

end PosixThreads
