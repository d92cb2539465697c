import PosixThreads.Waxy.Cache.Run

/-!
# The locks of the cache

Here the operations of `cache.c` are cut at their locks. A thread is in the middle of an
operation, which its program counter tells, and a step takes it to its next call of
`assert_mutex_lock` or `assert_mutex_unlock` or to the next place where it decides what to do.
Any number of threads take such steps in turn.

`cache_fetch` takes the lock of the cache and then that of an entry. `cache_wr_commit` takes the
lock of its entry, then that of the cache and then that of another entry. It is safe because its
own entry is not in the cache: all entries in the cache are committed, and nothing is known in
the cache of an entry that is being made.

The callbacks of `cache_fetch` and of `rd_process` are called without a lock, so that for the
locks these operations end there. A failed assertion stops the thread where it is. Entries and
handles stay when they are freed, and no address is used twice.
-/

namespace PosixThreads

/-- `cache->mtx` and `entry->mtx`. -/
inductive CacheLock
  | cache
  | entry (a : ℕ)
  deriving DecidableEq, Repr

/-- What is needed of a read handle here. -/
structure LockRd where
  entry : ℕ
  registered : Bool
  deriving DecidableEq, Repr

/-- The operations that take the lock of one entry. -/
inductive EntryOp
  | write (slice : List UInt8)
  | complete
  | wrFree
  | read
  | process
  | rdFree (rd : ℕ)
  deriving DecidableEq, Repr

/-- Where `cache_remove_entry_unsync` is called: in `cache_evict_if_necessary_unsync` on the way
to a new entry, or in `cache_wr_commit`. -/
inductive RemoveSite
  | evict (url : Url)
  | commit (own : ℕ)
  deriving DecidableEq, Repr

/-- Where `cache_entry_new_rd_unsync` is called: for an entry of the cache or for a new one. -/
inductive NewRdSite
  | hit
  | fresh
  deriving DecidableEq, Repr

/-- Where a thread is. A name that ends in `Lock` or `Unlock` stands for the call, one that ends
in `Held` for what is done with the lock of an entry. -/
inductive LockPc
  | idle
  | entryLock (op : EntryOp) (a : ℕ)
  | entryHeld (op : EntryOp) (a : ℕ)
  | entryUnlock (a : ℕ)
  -- `cache_fetch` and `cache_create_handle_unsync`
  | fetchLock (url : Url)
  | fetchLookup (url : Url)
  | handleLock (url : Url) (a : ℕ)
  | handleHeld (url : Url) (a : ℕ)
  | handleInvalid (url : Url) (a : ℕ)
  | evict (url : Url)
  | create (url : Url)
  | newRdLock (a : ℕ)
  | newRdHeld (site : NewRdSite) (a : ℕ)
  | newRdFree (site : NewRdSite) (rd : LockRd)
  | newRdUnlock (site : NewRdSite) (a : ℕ) (ok : Bool)
  | fetchUnlock
  -- `cache_remove_entry_unsync`
  | removeLock (site : RemoveSite) (a : ℕ)
  | removeHeld (site : RemoveSite) (a : ℕ)
  | removeUnlock (site : RemoveSite) (a size : ℕ)
  | removeEnd (site : RemoveSite) (a size : ℕ)
  -- `cache_wr_commit`
  | commitLock (own : ℕ)
  | commitHeld (own : ℕ)
  | commitCacheLock (own : ℕ)
  | commitLookup (own : ℕ)
  | storedLock (own a : ℕ)
  | storedHeld (own a : ℕ)
  | storedUnlock (own a size : ℕ)
  | storedCompare (own a size : ℕ)
  | commitInsert (own : ℕ)
  | commitCacheUnlock (own : ℕ)
  | commitUnlock (own : ℕ)
  deriving DecidableEq, Repr

/-- The cache, its entries and handles, the owners of the locks, and where the threads are. The
list `map` has the entries that the table has bindings to. -/
structure LockState where
  self : ℕ
  sizeLimit : ℕ
  currentSize : ℕ
  entries : List ℕ
  map : List ℕ
  arcs : Heap CacheEntry
  rds : List LockRd
  wrs : List ℕ
  owner : CacheLock → Option ℕ
  pc : ℕ → LockPc

/-- The operations of `cache.h`, and `rd_process`. -/
inductive LockOp
  | call (op : CacheOp)
  | process (rd : ℕ)
  deriving DecidableEq, Repr

/-- A thread begins an operation, or goes on with the one it is in. The answers of the allocator
in this step are `alloc`. -/
inductive LockAct
  | start (t : ℕ) (op : LockOp)
  | go (t : ℕ) (alloc : Alloc)

/-- `cache_entry_set_state_unsync`. -/
def CacheEntry.putState (e : CacheEntry) (state : CacheEntryState) : CacheEntry :=
  if e.state = state then e
  else if e.state = .entryInvalid then e
  else { e with state := state }

/-- What is done with the lock of one entry: the entry, and what is added to `current_size`. -/
def EntryOp.run (alloc : Alloc) (e : CacheEntry) : EntryOp → CacheEntry × ℕ
  | .write slice =>
      if e.state = .entryComplete then (e, 0)
      else if alloc 0 && e.buf.length + slice.length < ptrdiffMax then
        ({ e with buf := e.buf ++ slice },
          if e.cache.isSome && e.committed then slice.length else 0)
      else (e, 0)
  | .complete => (e.putState .entryComplete, 0)
  | .wrFree => (if e.state = .entryPartial then e.putState .entryInvalid else e, 0)
  | .read => (e, 0)
  | .process => (e, 0)
  | .rdFree rd => ({ e with handles := e.handles.erase rd }, 0)

/-- Where the caller of `cache_remove_entry_unsync` goes on. -/
def RemoveSite.next : RemoveSite → LockPc
  | .evict url => .evict url
  | .commit own => .commitInsert own

namespace LockState

def goto (s : LockState) (t : ℕ) (pc : LockPc) : LockState :=
  { s with pc := Function.update s.pc t pc }

/-- `assert_mutex_lock`, which returns when the lock is free. -/
def acquire (s : LockState) (t : ℕ) (l : CacheLock) (pc : LockPc) : Option LockState :=
  if s.owner l = none then
    some { s.goto t pc with owner := Function.update s.owner l (some t) }
  else none

/-- `assert_mutex_unlock`. -/
def release (s : LockState) (t : ℕ) (l : CacheLock) (pc : LockPc) : LockState :=
  { s.goto t pc with owner := Function.update s.owner l none }

def setEntry (s : LockState) (a : ℕ) (e : CacheEntry) : LockState :=
  { s with arcs := s.arcs.set a e }

/-- `hash_entry_get_mut`. -/
def lookup (s : LockState) (url : Url) : Option ℕ :=
  s.map.find? fun a => (s.arcs.get a).any fun e => urlEq url e.url

/-- What is done behind the unlocking of an entry that has a new reader. -/
def finishRd (s : LockState) (a : ℕ) (ok : Bool) : NewRdSite → LockState
  | .hit => if ok then { s with entries := s.entries.erase a ++ [a] } else s
  | .fresh => if ok then { s with wrs := s.wrs ++ [a] } else s

/-- One step of a thread that is in an operation. -/
def step (alloc : Alloc) (s : LockState) (t : ℕ) : Option LockState :=
  match s.pc t with
  | .idle => none
  | .entryLock op a => s.acquire t (.entry a) (.entryHeld op a)
  | .entryHeld op a => do
      let (e, added) := op.run alloc (← s.arcs.get a)
      return { s.setEntry a e with currentSize := s.currentSize + added }.goto t (.entryUnlock a)
  | .entryUnlock a => some (s.release t (.entry a) .idle)
  | .fetchLock url => s.acquire t .cache (.fetchLookup url)
  | .fetchLookup url =>
      match s.lookup url with
      | none => some (s.goto t (.evict url))
      | some a => some (s.goto t (.handleLock url a))
  | .handleLock url a => s.acquire t (.entry a) (.handleHeld url a)
  | .handleHeld url a => do
      let e ← s.arcs.get a
      if e.state = .entryInvalid then return s.goto t (.handleInvalid url a)
      else return s.goto t (.newRdHeld .hit a)
  | .handleInvalid url a => some (s.release t (.entry a) (.evict url))
  | .evict url =>
      if s.currentSize > s.sizeLimit then
        match s.entries with
        | [] => some (s.goto t (.create url))
        | a :: entries =>
            some ({ s with entries := entries }.goto t (.removeLock (.evict url) a))
      else some (s.goto t (.create url))
  | .create url =>
      -- the entry, the write handle, the mutex and its attributes, the URL, the buffer, the arc
      if (List.range 7).all alloc then
        some ({ s with arcs := s.arcs.alloc (.new s.self url) }.goto t (.newRdLock s.arcs.next))
      else some (s.goto t .fetchUnlock)
  | .newRdLock a => s.acquire t (.entry a) (.newRdHeld .fresh a)
  | .newRdHeld site a => do
      let e ← s.arcs.get a
      if alloc 0 then
        if alloc 1 then
          let s := s.setEntry a { e with handles := e.handles ++ [s.rds.length] }
          return { s with rds := s.rds ++ [LockRd.mk a true] }.goto t (.newRdUnlock site a true)
        else return s.goto t (.newRdFree site ⟨a, false⟩)
      else return s.goto t (.newRdUnlock site a false)
  | .newRdFree site rd =>
      -- `rd_free` takes the lock of a registered handle, which this thread has already
      if rd.registered then none else some (s.goto t (.newRdUnlock site rd.entry false))
  | .newRdUnlock site a ok => some ((s.finishRd a ok site).release t (.entry a) .fetchUnlock)
  | .fetchUnlock => some (s.release t .cache .idle)
  | .removeLock site a => s.acquire t (.entry a) (.removeHeld site a)
  | .removeHeld site a => do
      let e ← s.arcs.get a
      return (s.setEntry a { e with cache := none }).goto t (.removeUnlock site a e.buf.length)
  | .removeUnlock site a size => some (s.release t (.entry a) (.removeEnd site a size))
  | .removeEnd site a size => do
      let e ← s.arcs.get a
      assertThat (s.lookup e.url = some a)
      assertThat (size ≤ s.currentSize)
      return { s with map := s.map.erase a, currentSize := s.currentSize - size }.goto t site.next
  | .commitLock own => s.acquire t (.entry own) (.commitHeld own)
  | .commitHeld own => do
      let e ← s.arcs.get own
      if e.committed then return s.goto t (.commitUnlock own)
      else
        assertThat (e.cache.isSome = true)
        return s.goto t (.commitCacheLock own)
  | .commitCacheLock own => s.acquire t .cache (.commitLookup own)
  | .commitLookup own => do
      let e ← s.arcs.get own
      match s.lookup e.url with
      | none => return s.goto t (.commitInsert own)
      | some a => return s.goto t (.storedLock own a)
  | .storedLock own a => s.acquire t (.entry a) (.storedHeld own a)
  | .storedHeld own a => do
      let e ← s.arcs.get a
      return s.goto t (.storedUnlock own a e.buf.length)
  | .storedUnlock own a size => some (s.release t (.entry a) (.storedCompare own a size))
  | .storedCompare own a size => do
      let e ← s.arcs.get own
      if size < e.buf.length then return s.goto t (.commitCacheUnlock own)
      else return { s with entries := s.entries.erase a }.goto t (.removeLock (.commit own) a)
  | .commitInsert own => do
      let e ← s.arcs.get own
      -- the node of the list and the binding in the table
      if alloc 0 && alloc 1 then
        let s := s.setEntry own { e with committed := true }
        return { s with
          entries := s.entries ++ [own]
          map := s.map ++ [own]
          currentSize := s.currentSize + e.buf.length }.goto t (.commitCacheUnlock own)
      else return s.goto t (.commitCacheUnlock own)
  | .commitCacheUnlock own => some (s.release t .cache (.commitUnlock own))
  | .commitUnlock own => some (s.release t (.entry own) .idle)

/-- The first step of an operation. Some return at once. -/
def begin (s : LockState) (t : ℕ) : LockOp → Option LockState
  | .call (.fetch url) => some (s.goto t (.fetchLock url))
  | .call (.write wr slice) => do
      let a ← s.wrs[wr]?
      if slice.length = 0 then return s
      else return s.goto t (.entryLock (.write slice) a)
  | .call (.commit wr) => do return s.goto t (.commitLock (← s.wrs[wr]?))
  | .call (.complete wr) => do return s.goto t (.entryLock .complete (← s.wrs[wr]?))
  | .call (.wrFree wr) => do return s.goto t (.entryLock .wrFree (← s.wrs[wr]?))
  | .call (.rdFree rd) => do
      let r ← s.rds[rd]?
      if r.registered then return s.goto t (.entryLock (.rdFree rd) r.entry)
      else return s
  | .call (.read rd _) => do return s.goto t (.entryLock .read (← s.rds[rd]?).entry)
  | .process rd => do return s.goto t (.entryLock .process (← s.rds[rd]?).entry)

def exec (s : LockState) : LockAct → Option LockState
  | .start t op => if s.pc t = .idle then s.begin t op else none
  | .go t alloc => s.step alloc t

def new (self sizeLimit : ℕ) : LockState where
  self := self
  sizeLimit := sizeLimit
  currentSize := 0
  entries := []
  map := []
  arcs := .empty
  rds := []
  wrs := []
  owner := fun _ => none
  pc := fun _ => .idle

def Init (s : LockState) : Prop := ∃ self sizeLimit, s = .new self sizeLimit

def Step (s : LockState) (act : LockAct) (s' : LockState) : Prop := s.exec act = some s'

end LockState

def LockPc.waits : LockPc → Option CacheLock
  | .entryLock _ a | .handleLock _ a | .newRdLock a | .removeLock _ a | .commitLock a
  | .storedLock _ a => some (.entry a)
  | .fetchLock _ | .commitCacheLock _ => some .cache
  | .newRdFree _ rd => if rd.registered then some (.entry rd.entry) else none
  | _ => none

def LockState.Holds (s : LockState) (t : ℕ) (l : CacheLock) : Prop := s.owner l = some t

/-- The thread is in a call of `assert_mutex_lock`. -/
def LockState.Waits (s : LockState) (t : ℕ) (l : CacheLock) : Prop := (s.pc t).waits = some l

end PosixThreads
