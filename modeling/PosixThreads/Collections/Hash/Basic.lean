import PosixThreads.Common.Error
import PosixThreads.Common.Memory
import PosixThreads.Library.Iterate

/-!
# The hash table

This is the table of `hash.h`, with open addressing and double hashing. Keys and
values are arbitrary types, and what the template takes as function pointers is the
structure `HashFns`.

A call that fails an assertion, or that would never return, is `none`. The probing
loop of `index_for_key` is run for as many turns as there are slots: the places it
comes to repeat after that, so that a loop which has not ended by then never ends.
`insert` and `rehash` call each other in the source; a table that is being rehashed
must not be rehashed again, hence `rehash` uses `reinsert`, which is `insert` with
this assertion in place of the call.
-/

namespace PosixThreads

/-- The two hashers, the comparison and the size of a slot in bytes. -/
structure HashFns (K : Type) where
  primary : K → ℕ
  secondary : K → ℕ
  eq : K → K → Bool
  elementSize : ℕ

/-- A slot. The key and the value of a deleted one are never read again. -/
inductive HashSlot (K V : Type)
  | free
  | deleted
  | occupied (key : K) (value : V)
  deriving DecidableEq, Repr

structure Hash (K V : Type) where
  storage : List (HashSlot K V)
  len : ℕ
  nonFreeEntries : ℕ
  rehashing : Bool
  deriving DecidableEq, Repr

namespace Hash

variable {K V : Type}

def minCapacity : ℕ := 8

def enlargementMultiplier : ℕ := 2

def capacity (t : Hash K V) : ℕ := t.storage.length

/-- `should_rehash`, with `HASH_MAX_LOAD_FACTOR` one half. The quotient of the source is
a `double`; it compares like the exact one, as the counters of a table that fits
in memory have less than 53 bits. -/
def shouldRehash (nonFreeEntries capacity : ℕ) : Bool := capacity ≤ 2 * nonFreeEntries

/-- The loop of `index_for_key` ends at this slot. -/
def probeStops (H : HashFns K) (key : K) (skipDeleted : Bool) : HashSlot K V → Bool
  | .free => true
  | .deleted => !skipDeleted
  | .occupied key' _ => H.eq key key'

def probeOffset (H : HashFns K) (capacity : ℕ) (key : K) : ℕ :=
  if H.secondary key % capacity = 0 then 1 else H.secondary key % capacity

/-- One turn of the loop of `index_for_key`, on `index` and `offset`. -/
def probeTurn (H : HashFns K) (t : Hash K V) (key : K) (skipDeleted : Bool) :
    ℕ × ℕ → (ℕ × ℕ) ⊕ Option ℕ
  | (index, offset) =>
      match t.storage[index]? with
      | none => .inr none
      | some slot =>
          if probeStops H key skipDeleted slot then .inr (some index)
          else
            let offset := if offset = 0 then probeOffset H t.capacity key else offset
            .inl ((index + offset) % t.capacity, offset)

def indexForKey (H : HashFns K) (t : Hash K V) (key : K) (skipDeleted : Bool) : Option ℕ :=
  (Iterate.iterate (probeTurn H t key skipDeleted) t.capacity
    (H.primary key % t.capacity, 0)).join

/-- The part of `insert` behind the rehash. -/
def put (H : HashFns K) (t : Hash K V) (key : K) (value : V) : Option (Hash K V) := do
  let pos ← indexForKey H t key false
  return { t with
    storage := t.storage.set pos (.occupied key value)
    len := t.len + 1
    nonFreeEntries := t.nonFreeEntries + 1 }

/-- One turn of the loop of `rehash`: a call of `insert` for an occupied slot. -/
def reinsert (H : HashFns K) (t : Hash K V) : HashSlot K V → Option (Hash K V)
  | .occupied key value =>
      if shouldRehash t.nonFreeEntries t.capacity then none else put H t key value
  | _ => some t

def newCapacity (capacity : ℕ) : ℕ :=
  if capacity * enlargementMultiplier = 0 then minCapacity else capacity * enlargementMultiplier

/-- A table with free slots only, as `rehash` starts from. -/
def blank (capacity : ℕ) : Hash K V := ⟨List.replicate capacity .free, 0, 0, true⟩

/-- `rehash`. The answer of the allocator is `ok`. -/
def rehash (H : HashFns K) (ok : Bool) (t : Hash K V) :
    Option (Option CommonErrorCode × Hash K V) :=
  if t.rehashing then none
  else if ok && newCapacity t.capacity * H.elementSize ≤ ptrdiffMax then do
    let newMap ← t.storage.foldlM (reinsert H) (blank (newCapacity t.capacity))
    return (none, { newMap with rehashing := false })
  else return (some .memoryAllocationFailure, t)

def new (H : HashFns K) (ok : Bool) : Option (Option CommonErrorCode × Hash K V) :=
  rehash H ok ⟨[], 0, 0, false⟩

def insert (H : HashFns K) (ok : Bool) (t : Hash K V) (key : K) (value : V) :
    Option (Option CommonErrorCode × Hash K V) :=
  if t.capacity = 0 then none
  else if shouldRehash t.nonFreeEntries t.capacity then do
    let (err, t) ← rehash H ok t
    if err.isSome then return (err, t)
    else return (none, ← put H t key value)
  else return (none, ← put H t key value)

/-- `remove`: the stored value, or `none` for `COMMON_ERROR_CODE_NOT_FOUND`. -/
def remove (H : HashFns K) (t : Hash K V) (key : K) : Option (Option V × Hash K V) := do
  let pos ← indexForKey H t key true
  match t.storage[pos]? with
  | some (.occupied _ value) =>
      return (some value, { t with storage := t.storage.set pos .deleted, len := t.len - 1 })
  | _ => return (none, t)

def get (H : HashFns K) (t : Hash K V) (key : K) : Option (Option V) := do
  let pos ← indexForKey H t key true
  match t.storage[pos]? with
  | some (.occupied _ value) => return some value
  | _ => return none

/-- The live keys with their values, in the order of `for_each`. -/
def bindings (t : Hash K V) : List (K × V) :=
  t.storage.filterMap fun
    | .occupied key value => some (key, value)
    | _ => none

end Hash

end PosixThreads
