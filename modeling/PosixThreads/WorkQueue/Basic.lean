import Mathlib.Data.Int.Notation
import PosixThreads.Library.Threads

/-!
# The queue of strings

The queue of `lab25.c` is a ring of strings that any number of threads put in and pop, with one
semaphore for the strings in it, one for the free places, and a third one as a mutex. At any time
`wqInvalidate` makes it invalid and wakes who waits.

A step goes from one access to what the threads share to the next one. What a thread does with the
mutex locked to the strings and their cursors is one step, as nobody looks at them without the
mutex; `valid` and `waiting` are read without it, so each access to them is a step. A `sem_wait`
that was interrupted by a signal is repeated, and is a step only when it succeeds.
-/

namespace PosixThreads

def wqQueueCap : ℕ := 10

def wqStringCap : ℕ := 80

inductive WqSem
  | semFull
  | semFree
  deriving DecidableEq, Repr

def WqSem.other : WqSem → WqSem
  | .semFull => .semFree
  | .semFree => .semFull

def WqSem.start : WqSem → ℕ
  | .semFull => 0
  | .semFree => wqQueueCap

/-- The calls of `wqPut` and `wqPop`. A buffer goes up to its terminator, or to the end of the
list. -/
inductive WqCall
  | put (buf : List UInt8)
  | pop (bufsize : ℕ)
  deriving DecidableEq, Repr

/-- The semaphore that `_wqSemDecrLockIncr` decrements. -/
def WqCall.decr : WqCall → WqSem
  | .put _ => .semFree
  | .pop _ => .semFull

/-- The semaphore that `_wqSemDecrLockIncr` increments. -/
def WqCall.incr : WqCall → WqSem
  | .put _ => .semFull
  | .pop _ => .semFree

/-- The queue, which strings have been put in, and which bytes have been popped so far, each time
with the size of the buffer for them. -/
structure WorkQueue where
  strungs : List (List UInt8)
  sem : WqSem → ℕ
  mutex : ℕ
  head : ℕ
  tail : ℕ
  valid : Bool
  waiting : ℤ
  puts : List (List UInt8)
  gets : List (ℕ × List UInt8)

namespace WorkQueue

/-- `wqInit`. What is in the strings is not known. -/
def wqInit (strungs : List (List UInt8)) : WorkQueue where
  strungs := strungs
  sem := WqSem.start
  mutex := 1
  head := 0
  tail := 0
  valid := true
  waiting := 0
  puts := []
  gets := []

/-- `sem_wait`, which blocks at zero. -/
def semWait (q : WorkQueue) (m : WqSem) : Option WorkQueue :=
  if q.sem m = 0 then none
  else some { q with sem := Function.update q.sem m (q.sem m - 1) }

def semPost (q : WorkQueue) (m : WqSem) : WorkQueue :=
  { q with sem := Function.update q.sem m (q.sem m + 1) }

def wqLock (q : WorkQueue) : Option WorkQueue :=
  if q.mutex = 0 then none else some { q with mutex := q.mutex - 1 }

def wqUnlock (q : WorkQueue) : WorkQueue := { q with mutex := q.mutex + 1 }

end WorkQueue

/-- `_wqWrap`, for a cursor in the ring. -/
def wqWrap (n add : ℕ) : ℕ := (n + add) % wqQueueCap

/-- The loop of `wqPut` that copies a string, and how many bytes it counts. It stops behind the
terminator, or where the string in the queue ends. -/
def copyString : List UInt8 → List UInt8 → List UInt8 × ℕ
  | [], _ => ([], 0)
  | _ :: str, [] => (0 :: str, 0)
  | _ :: str, c :: buf =>
      if c = 0 then (0 :: str, 0)
      else
        let r := copyString str buf
        (c :: r.1, r.2 + 1)

namespace WorkQueue

/-- What `wqPut` does with the mutex locked. -/
def putString (q : WorkQueue) (buf : List UInt8) : Option (WorkQueue × ℕ) :=
  q.strungs[q.head]?.map fun str =>
    let r := copyString str buf
    ({ q with
      head := wqWrap q.head 1
      strungs := q.strungs.set q.head r.1
      puts := q.puts ++ [buf] }, r.2)

/-- What `wqPop` does with the mutex locked. -/
def popString (q : WorkQueue) (bufsize : ℕ) : Option (WorkQueue × ℕ) :=
  q.strungs[q.tail]?.map fun str =>
    let cpySize := if bufsize < wqStringCap then bufsize else wqStringCap
    ({ q with tail := wqWrap q.tail 1, gets := q.gets ++ [(bufsize, str.take cpySize)] }, cpySize)

def transfer (q : WorkQueue) : WqCall → Option (WorkQueue × ℕ)
  | .put buf => q.putString buf
  | .pop bufsize => q.popString bufsize

end WorkQueue

/-- Where a thread is. It is outside with the result of its last call; those up to `copying` are
in `wqPut` or `wqPop`, and those from `peeking` on in `wqInvalidate`. -/
inductive WqPlace
  | outside (result : Option ℕ)
  | entering (c : WqCall)
  | checking (c : WqCall)
  | counted (c : WqCall)
  | blocked (c : WqCall)
  | woken (c : WqCall)
  | committed (c : WqCall)
  | locked (c : WqCall)
  | posting (c : WqCall)
  | copying (c : WqCall)
  | unlocking (result : Option ℕ)
  | peeking
  | skipping
  | dropping
  | marking
  | waking (i : ℕ)
  | freeing (i : ℕ)
  | resetting
  deriving DecidableEq, Repr

def wqGo (q : WorkQueue) : WqPlace → Option (WorkQueue × WqPlace)
  | .outside _ => none
  | .entering c => q.wqLock.map fun q => (q, .checking c)
  | .checking c =>
      if q.valid then some ({ q with waiting := q.waiting + 1 }, .counted c)
      else some (q, .unlocking (some 0))
  | .counted c => some (q.wqUnlock, .blocked c)
  | .blocked c => (q.semWait c.decr).map fun q => (q, .woken c)
  | .woken c => if q.valid then some (q, .committed c) else some (q, .outside (some 0))
  | .committed c => q.wqLock.map fun q => (q, .locked c)
  | .locked c => some ({ q with waiting := q.waiting - 1 }, .posting c)
  | .posting c => some (q.semPost c.incr, .copying c)
  | .copying c => (q.transfer c).map fun r => (r.1, .unlocking (some r.2))
  | .unlocking result => some (q.wqUnlock, .outside result)
  | .peeking => some (q, if q.waiting = 0 then .skipping else .dropping)
  | .skipping => some (q, if q.valid then .dropping else .outside none)
  | .dropping => q.wqLock.map fun q => (q, .marking)
  | .marking => some ({ q with valid := false }, .waking 0)
  | .waking i =>
      if i < q.waiting then some (q.semPost .semFull, .freeing i) else some (q, .resetting)
  | .freeing i => some (q.semPost .semFree, .waking (i + 1))
  | .resetting => some ({ q with waiting := 0 }, .unlocking none)

inductive WqRequest
  | call (c : WqCall)
  | invalidate
  deriving DecidableEq, Repr

def WqRequest.place : WqRequest → WqPlace
  | .call c => .entering c
  | .invalidate => .peeking

/-- A step of a thread: it goes on, or begins something. -/
def wqStep (q : WorkQueue) : WqPlace → Option WqRequest → Option (WorkQueue × WqPlace)
  | p, none => wqGo q p
  | .outside _, some request => some (q, request.place)
  | _, some _ => none

section Runs

variable (T : Type*)

abbrev WqState := Threads.Config T WorkQueue WqPlace

def WqStart (s : WqState T) : Prop :=
  ∃ strungs : List (List UInt8), strungs.length = wqQueueCap ∧
    (∀ str ∈ strungs, str.length = wqStringCap) ∧ s.shared = .wqInit strungs ∧
      ∀ t, s.pc t = .outside none

theorem wqStart_sevens : WqStart T ⟨.wqInit (List.replicate 10 (List.replicate 80 7)),
    fun _ => .outside none⟩ :=
  ⟨_, rfl, fun str hstr => by rw [List.eq_of_mem_replicate hstr]; rfl, rfl, fun _ => rfl⟩

abbrev WqRun [DecidableEq T] : List (T × Option WqRequest) → WqState T → Prop :=
  Threads.Run (WqStart T) fun _ => wqStep

end Runs

end PosixThreads
