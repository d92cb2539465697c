import PosixThreads.Collections.Dlist.Basic
import PosixThreads.Waxy.Url.Eq

/-!
# The cache

This is `cache.c`. A `World` holds one cache together with everything that can be
reached from it or from the handles its users hold: the nodes of the list, the
reference-counted entries, and the read and write handles. Each kind of object has a
heap of its own, and pointers are addresses.

Every operation of `cache.h` is one function on worlds. The functions take the locks
that make them atomic in this sense, so the locks are left out, as are the log
messages and the wake-up of the event loop behind `handler_force`. The outcome is
`none` if an assertion fails or a freed object is read.

The table maps pointers into the entries to nodes. The URL of an entry is never
changed and the entry outlives its binding, so here the table has the URLs as keys.
-/

namespace PosixThreads

inductive CacheEntryState
  | entryComplete
  | entryPartial
  | entryInvalid
  deriving DecidableEq, Repr

structure CacheEntry where
  url : Url
  handles : List ℕ
  buf : List UInt8
  cache : Option ℕ
  state : CacheEntryState
  committed : Bool
  deriving DecidableEq, Repr

def CacheEntry.new (self : ℕ) (url : Url) : CacheEntry where
  url := url
  handles := []
  buf := []
  cache := some self
  state := .entryPartial
  committed := false

/-- `arc_entry_t`. -/
structure ArcEntry where
  refCount : ℕ
  data : CacheEntry
  deriving DecidableEq, Repr

/-- A write handle. It has no entry between its allocation and its assignment. -/
structure CacheWr where
  entry : Option ℕ
  deriving DecidableEq, Repr

/-- A read handle, with the flag `force` of its handler. The initial value `-1` of
`last_state` is `none`. -/
structure CacheRd where
  force : Bool
  entry : ℕ
  count : ℕ
  lastState : Option CacheEntryState
  registered : Bool
  deriving DecidableEq, Repr

structure Cache where
  map : Hash Url ℕ
  entries : Dlist
  sizeLimit : ℕ
  currentSize : ℕ
  deriving DecidableEq, Repr

/-- The cache, which has the address `self`, and the objects around it. The number of
answers of the allocator that have been used up is `allocs`. -/
structure World where
  self : ℕ
  cache : Cache
  nodes : Heap (DlistNode ℕ)
  arcs : Heap ArcEntry
  rds : Heap CacheRd
  wrs : Heap CacheWr
  allocs : ℕ
  deriving DecidableEq, Repr

namespace World

def entry (w : World) (arc : ℕ) : Option CacheEntry := (w.arcs.get arc).map (·.data)

def asked (w : World) : World := { w with allocs := w.allocs + 1 }

/-- Allocations in a row, each with the error that its failure leads to. -/
def askAll (alloc : Alloc) (w : World) : List Error → Option Error × World
  | [] => (none, w)
  | err :: errs => if alloc w.allocs then w.asked.askAll alloc errs else (some err, w.asked)

/-! ## Reference counting -/

def arcShare (w : World) (arc : ℕ) : Option World := do
  let a ← w.arcs.get arc
  assertThat (1 ≤ a.refCount)
  return { w with arcs := w.arcs.set arc { a with refCount := a.refCount + 1 } }

def arcFree (w : World) (arc : ℕ) : Option World := do
  let a ← w.arcs.get arc
  if 1 < a.refCount then
    return { w with arcs := w.arcs.set arc { a with refCount := a.refCount - 1 } }
  else
    assertThat (a.refCount = 1)
    return { w with arcs := w.arcs.free arc }

def arcGet (w : World) (arc : ℕ) : Option CacheEntry := do
  let a ← w.arcs.get arc
  assertThat (0 < a.refCount)
  return a.data

def setEntry (w : World) (arc : ℕ) (e : CacheEntry) : Option World := do
  let a ← w.arcs.get arc
  return { w with arcs := w.arcs.set arc { a with data := e } }

/-! ## Waking readers -/

def handlerForce (w : World) (rd : ℕ) : Option World := do
  let r ← w.rds.get rd
  return { w with rds := w.rds.set rd { r with force := true } }

def cacheEntryWake (w : World) (arc : ℕ) : Option World := do
  let e ← w.entry arc
  e.handles.foldlM handlerForce w

/-- The assignment of `cache_entry_set_state_unsync`, and whether the readers are woken. -/
def cacheEntryPutState (w : World) (arc : ℕ) (state : CacheEntryState) :
    Option (Bool × World) := do
  let e ← w.entry arc
  if e.state = state then return (false, w)
  else if e.state = .entryInvalid then return (false, w)
  else return (true, ← w.setEntry arc { e with state := state })

def cacheEntrySetState (w : World) (arc : ℕ) (state : CacheEntryState) : Option World := do
  let (changed, w) ← w.cacheEntryPutState arc state
  if changed then w.cacheEntryWake arc else return w

/-! ## Read handles -/

/-- `handler_free` with `rd_free`. -/
def cacheRdFree (w : World) (rd : ℕ) : Option World := do
  let r ← w.rds.get rd
  let w ←
    if r.registered then do
      let e ← w.arcGet r.entry
      w.setEntry r.entry { e with handles := e.handles.erase rd }
    else some w
  let w ← w.arcFree r.entry
  return { w with rds := w.rds.free rd }

/-- `cache_entry_new_rd_unsync`, which owns a reference to the entry. -/
def cacheEntryNewRdUnsync (alloc : Alloc) (w : World) (arc : ℕ) :
    Option (Except Error ℕ × World) := do
  let _ ← w.arcGet arc
  if alloc w.allocs then
    let w ← w.asked.arcShare arc
    let rd := w.rds.next
    let w := { w with rds := w.rds.alloc ⟨false, arc, 0, none, false⟩ }
    if alloc w.allocs then
      let w := w.asked
      let e ← w.arcGet arc
      let w ← w.setEntry arc { e with handles := e.handles ++ [rd] }
      let w := { w with rds := w.rds.set rd ⟨0 < e.buf.length, arc, 0, none, true⟩ }
      return (.ok rd, ← w.arcFree arc)
    else
      let w ← w.asked.cacheRdFree rd
      return (.error (.wrap "Could not register the created handle"
        (.fromCommon .memoryAllocationFailure)), ← w.arcFree arc)
  else
    return (.error (.wrap "Could not allocate a read handle" (.okIf "rd != NULL")),
      ← w.asked.arcFree arc)

/-- `cache_entry_new_rd`, which owns a reference to the entry. -/
def cacheEntryNewRd (alloc : Alloc) (w : World) (arc : ℕ) :
    Option (Except Error ℕ × World) := do
  let w ← w.arcShare arc
  let (result, w) ← w.cacheEntryNewRdUnsync alloc arc
  return (result, ← w.arcFree arc)

/-- `cache_rd_read`: the bytes that are copied, and whether `*eof` is set. -/
def cacheRdRead (w : World) (rd size : ℕ) : Option ((List UInt8 × Bool) × World) := do
  let r ← w.rds.get rd
  let e ← w.arcGet r.entry
  -- `unread_count` would wrap around
  assertThat (r.count ≤ e.buf.length)
  let unreadCount := e.buf.length - r.count
  let size := if size > unreadCount then unreadCount else size
  let chunk := (e.buf.drop r.count).take size
  let count := r.count + size
  let eof := e.state ≠ .entryPartial && e.buf.length ≤ count
  return ((chunk, eof), { w with rds := w.rds.set rd { r with count := count } })

/-! ## Eviction -/

/-- `cache_remove_entry_unsync`. -/
def cacheRemoveEntry (w : World) (node : ℕ) : Option World := do
  let (arc, nodes, entries) ← Dlist.remove w.nodes w.cache.entries node
  let w := { w with nodes := nodes, cache := { w.cache with entries := entries } }
  let e ← w.arcGet arc
  let w ← w.setEntry arc { e with cache := none }
  let size := e.buf.length
  let (removed, map) ← w.cache.map.remove urlHashFns e.url
  -- the call is wrapped in `error_assert`
  let removedNode ← removed
  let w ← { w with cache := { w.cache with map := map } }.arcFree arc
  assertThat (size ≤ w.cache.currentSize)
  assertThat (node = removedNode)
  return { w with cache := { w.cache with currentSize := w.cache.currentSize - size } }

/-- One turn of the loop of `cache_evict_if_necessary_unsync`. -/
def cacheEvictTurn (w : World) : World ⊕ Option World :=
  if w.cache.currentSize > w.cache.sizeLimit then
    match w.cache.entries.head with
    | none => .inr (some w)
    | some head =>
        match w.cacheRemoveEntry head with
        | none => .inr none
        | some w => .inl w
  else .inr (some w)

/-- `cache_evict_if_necessary_unsync`. Every turn removes an entry, so there are no more
turns than entries. -/
def cacheEvictIfNecessary (w : World) : Option World :=
  (Iterate.iterate cacheEvictTurn (w.cache.entries.len + 1) w).join

/-! ## Fetching -/

/-- The part of `cache_create_entry_unsync` between the write handle and the entry: the
mutex, the copy of the URL, the buffer and the memory for the reference count. -/
def cacheEntryInit (alloc : Alloc) (w : World) (url : Url) : Except Error Url × World :=
  match w.askAll alloc [
      .wrap "Could not initialize mutex attributes" (.fromPosix "pthread_mutexattr_init"),
      .wrap "Could not initialize a mutex" (.fromPosix "pthread_mutex_init")] with
  | (some err, w) => (.error err, w)
  | (none, w) =>
      match urlCopy (alloc w.allocs) url with
      | .error err => (.error (.wrap "Could not copy the URL" err), w.asked)
      | .ok url =>
          match w.asked.askAll alloc [
              .wrap "Could not create a buffer" (.fromCommon .memoryAllocationFailure),
              .wrap "Could not allocate an entry" (.okIf "arc != NULL")] with
          | (some err, w) => (.error err, w)
          | (none, w) => (.ok url, w)

/-- `cache_create_entry_unsync`: a read and a write handle to a new entry. If there is no
memory for the read handle, the write handle is never freed. -/
def cacheCreateEntry (alloc : Alloc) (w : World) (url : Url) :
    Option (Except Error (ℕ × ℕ) × World) :=
  match w.askAll alloc [
      .wrap "Could not allocate an entry" (.okIf "entry != NULL"),
      .wrap "Could not allocate a write handle" (.okIf "wr != NULL")] with
  | (some err, w) => some (.error err, w)
  | (none, w) =>
      let wr := w.wrs.next
      match { w with wrs := w.wrs.alloc ⟨none⟩ }.cacheEntryInit alloc url with
      | (.error err, w) => some (.error err, { w with wrs := w.wrs.free wr })
      | (.ok url, w) => do
          let arc := w.arcs.next
          let w := { w with arcs := w.arcs.alloc ⟨1, .new w.self url⟩ }
          let w ← w.arcShare arc
          match ← w.cacheEntryNewRd alloc arc with
          | (.error err, w) => return (.error err, ← w.arcFree arc)
          | (.ok rd, w) =>
              let w ← w.arcShare arc
              let w := { w with wrs := w.wrs.set wr ⟨some arc⟩ }
              return (.ok (rd, wr), ← w.arcFree arc)

/-- `cache_create_handle_unsync`: a hit returns no write handle. -/
def cacheCreateHandle (alloc : Alloc) (w : World) (node : ℕ) (url : Url) :
    Option (Except Error (ℕ × Option ℕ) × World) := do
  let arc ← Dlist.get w.nodes node
  let e ← w.arcGet arc
  if e.state = .entryInvalid then
    let w ← w.cacheEvictIfNecessary
    let (result, w) ← w.cacheCreateEntry alloc url
    return (result.map fun (rd, wr) => (rd, some wr), w)
  else
    let w ← w.arcShare arc
    match ← w.cacheEntryNewRdUnsync alloc arc with
    | (.error err, w) => return (.error err, w)
    | (.ok rd, w) =>
        let (nodes, entries) ← Dlist.moveBefore w.nodes w.cache.entries node none
        return (.ok (rd, none),
          { w with nodes := nodes, cache := { w.cache with entries := entries } })

/-- `cache_fetch` up to the callbacks, which get the handles. -/
def cacheFetch (alloc : Alloc) (w : World) (url : Url) :
    Option (Except Error (ℕ × Option ℕ) × World) := do
  match ← w.cache.map.get urlHashFns url with
  | none =>
      let w ← w.cacheEvictIfNecessary
      let (result, w) ← w.cacheCreateEntry alloc url
      return (result.map fun (rd, wr) => (rd, some wr), w)
  | some node => w.cacheCreateHandle alloc node url

/-! ## Write handles -/

def wrEntry (w : World) (wr : ℕ) : Option ℕ := do (← w.wrs.get wr).entry

def cacheWrFree (w : World) (wr : ℕ) : Option World := do
  let arc ← w.wrEntry wr
  let e ← w.arcGet arc
  let w ← if e.state = .entryPartial then w.cacheEntrySetState arc .entryInvalid else some w
  let w ← w.arcFree arc
  return { w with wrs := w.wrs.free wr }

/-- `cache_wr_write` up to the wake-up of the readers of an entry. -/
def cacheWrAppend (alloc : Alloc) (w : World) (wr : ℕ) (slice : List UInt8) :
    Option (Option Error × Option ℕ × World) :=
  if slice.length = 0 then some (none, none, w)
  else do
    let arc ← w.wrEntry wr
    let e ← w.arcGet arc
    if e.state = .entryComplete then
      return (some (.wrap "Writing to a complete entry"
        (.okIf "entry->state != CACHE_ENTRY_COMPLETE")), none, w)
    else if alloc w.allocs && e.buf.length + slice.length < ptrdiffMax then
      let w ← w.asked.setEntry arc { e with buf := e.buf ++ slice }
      let w ←
        if e.cache.isSome && e.committed then do
          assertThat (e.cache = some w.self)
          pure { w with cache := { w.cache with
            currentSize := w.cache.currentSize + slice.length } }
        else some w
      return (none, some arc, w)
    else return (some (.fromCommon .memoryAllocationFailure), none, w.asked)

def cacheWrWrite (alloc : Alloc) (w : World) (wr : ℕ) (slice : List UInt8) :
    Option (Option Error × World) := do
  let (err, woken, w) ← w.cacheWrAppend alloc wr slice
  match woken with
  | none => return (err, w)
  | some arc => return (err, ← w.cacheEntryWake arc)

def cacheWrComplete (w : World) (wr : ℕ) : Option World := do
  let arc ← w.wrEntry wr
  let _ ← w.arcGet arc
  w.cacheEntrySetState arc .entryComplete

/-- The part of `cache_wr_commit` behind the removal of a stored entry. -/
def cacheCommitInsert (alloc : Alloc) (w : World) (arc : ℕ) : Option (Option Error × World) := do
  let w ← w.arcShare arc
  let (err, nodes, entries, node) ← Dlist.append (alloc w.allocs) w.nodes w.cache.entries arc
  match err with
  | some code =>
      return (some (.wrap "Could not register the entry in the cache" (.fromCommon code)),
        ← w.asked.arcFree arc)
  | none =>
      let node ← node
      let w := { w.asked with nodes := nodes, cache := { w.cache with entries := entries } }
      let e ← w.arcGet arc
      let (err, map) ← w.cache.map.insert urlHashFns (alloc w.allocs) e.url node
      let w := { w.asked with cache := { w.cache with map := map } }
      match err with
      | some code =>
          let (arcShared, nodes, entries) ← Dlist.remove w.nodes w.cache.entries node
          let w := { w with nodes := nodes, cache := { w.cache with entries := entries } }
          return (some (.wrap "Could not bind the URL to the entry" (.fromCommon code)),
            ← w.arcFree arcShared)
      | none =>
          let w := { w with cache := { w.cache with
            currentSize := w.cache.currentSize + e.buf.length } }
          return (none, ← w.setEntry arc { e with committed := true })

def cacheWrCommit (alloc : Alloc) (w : World) (wr : ℕ) : Option (Option Error × World) := do
  let arc ← w.wrEntry wr
  let e ← w.arcGet arc
  if e.committed then return (none, w)
  else
    assertThat (e.cache = some w.self)
    match ← w.cache.map.get urlHashFns e.url with
    | none => w.cacheCommitInsert alloc arc
    | some storedNode =>
        let storedArc ← Dlist.get w.nodes storedNode
        let storedEntry ← w.arcGet storedArc
        if storedEntry.buf.length < e.buf.length then return (none, w)
        else
          let w ← w.cacheRemoveEntry storedNode
          w.cacheCommitInsert alloc arc

end World

/-- `cache_new`, for a cache that is allocated at the address `self`. -/
def cacheNew (alloc : Alloc) (self sizeLimit : ℕ) : Option (Except Error World) :=
  if alloc 0 then
    if alloc 1 then
      if alloc 2 then do
        let (err, map) ← Hash.new urlHashFns (alloc 3)
        match err with
        | some code => return .error (.fromCommon code)
        | none => return .ok {
            self := self
            cache := ⟨map, Dlist.new, sizeLimit, 0⟩
            nodes := .empty
            arcs := .empty
            rds := .empty
            wrs := .empty
            allocs := 4 }
      else return .error (.wrap "Could not initialize a mutex" (.fromPosix "pthread_mutex_init"))
    else return .error (.wrap "Could not initialize mutex attributes"
      (.fromPosix "pthread_mutexattr_init"))
  else return .error (.wrap "Could not allocate memory for the cache" (.okIf "self != NULL"))

end PosixThreads
