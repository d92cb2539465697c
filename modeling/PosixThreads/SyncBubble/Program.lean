import PosixThreads.Common.ReadLine
import PosixThreads.Library.Threads
import PosixThreads.SyncBubble.Sorted

/-!
# The list and its threads

The main thread reads lines. It puts one that is not empty into the list, and an empty one has it
print the list. The child sorts the list whenever the time of its `pthread_cond_timedwait` is up.
Both have the mutex locked meanwhile, and the end of the input or SIGINT ends them.

The time of the child may be up at any moment, and it may be woken up for no reason, so that
nothing depends on the signal of the main thread. The handler of SIGINT runs in the main thread.
-/

namespace PosixThreads

namespace SyncBubble

inductive SbThread
  | main
  | child
  deriving DecidableEq, Repr

/-- What is done with the list: a line is put into it, it is printed, and it is sorted. -/
inductive SbEvent
  | line (bytes : List UInt8)
  | listing (lines : List (List UInt8))
  | sorted
  deriving DecidableEq, Repr

/-- What the threads share, and what has been done with the list. `eof` tells that `read_line` has
reported the end of the input, and `joinable` that the child has ended. -/
structure SbState where
  heap : Heap (DlistNode StringT)
  list : Dlist
  file : File
  mtx : Option SbThread
  interrupted : Bool
  eof : Bool
  joinable : Bool
  log : List SbEvent

/-- Where a thread is: the main thread in `process_line` and at its end, and the child. -/
inductive SbPlace
  | testing
  | reading
  | locking (line : StringT)
  | holding (line : StringT)
  | unlocking (failed : Bool)
  | finishing
  | signalling
  | joining
  | childLocking
  | childTesting
  | childWaiting
  | childSorting
  | childUnlocking
  | exited
  deriving DecidableEq, Repr

/-- A step of a thread, with the answers of the allocator and whether the time is up, or SIGINT,
which may interrupt `read_line` behind the given number of characters. -/
inductive SbLabel
  | go (allocs : Alloc) (ok timedOut : Bool)
  | sigint (interrupts : Option ℕ)

/-- The loop of `print_list`, for at most the given number of nodes. -/
def printFrom (h : Heap (DlistNode StringT)) : ℕ → Option ℕ → Option (List (List UInt8))
  | _, none => some []
  | 0, some _ => none
  | fuel + 1, some node => do
      let str ← Dlist.get h node
      let lines ← printFrom h fuel (← Dlist.nextMut h (some node))
      return str.bytes :: lines

def printList (h : Heap (DlistNode StringT)) (list : Dlist) : Option (List (List UInt8)) :=
  printFrom h list.len list.head

namespace SbState

def lock (s : SbState) (t : SbThread) : Option SbState :=
  if s.mtx = none then some { s with mtx := some t } else none

/-- `string_new` and `read_line` in `process_line`, and what becomes of their errors. -/
def readStep (s : SbState) (allocs : Alloc) (ok : Bool) : Option (SbState × SbPlace) :=
  match StringT.new ok with
  | none => none
  | some (.error _) => some (s, .finishing)
  | some (.ok line) =>
      (readLine allocs s.file line).map fun (code, line, file) =>
        match code with
        | none => ({ s with file := file }, .locking line)
        | some .notFound => ({ s with file := file, interrupted := true, eof := true }, .testing)
        | some _ => ({ s with file := file }, .finishing)

/-- What `process_line` does with the mutex locked. -/
def processLine (s : SbState) (line : StringT) (ok : Bool) : Option (SbState × SbPlace) :=
  if line.len = 0 then
    (printList s.heap s.list).map fun lines =>
      ({ s with log := s.log ++ [.listing lines] }, .unlocking false)
  else
    (Dlist.append ok s.heap s.list line).map fun (code, heap, list, _) =>
      match code with
      | none =>
          ({ s with heap := heap, list := list, log := s.log ++ [.line line.bytes] },
            .unlocking false)
      | some _ => ({ s with heap := heap, list := list }, .unlocking true)

/-- `bubble_sort`, which does not need more turns. -/
def sortStep (s : SbState) : Option (SbState × SbPlace) :=
  (bubbleSort (2 * s.list.len + 1) s.heap s.list).map fun (heap, list) =>
    ({ s with heap := heap, list := list, log := s.log ++ [.sorted] }, .childTesting)

end SbState

def sbGo (t : SbThread) (s : SbState) (allocs : Alloc) (ok timedOut : Bool) :
    SbPlace → Option (SbState × SbPlace)
  | .testing => some (s, if s.interrupted then .finishing else .reading)
  | .reading => s.readStep allocs ok
  | .locking line => (s.lock t).map fun s => (s, .holding line)
  | .holding line => s.processLine line ok
  | .unlocking failed => some ({ s with mtx := none }, if failed then .finishing else .testing)
  | .finishing => some ({ s with interrupted := true }, .signalling)
  | .signalling => some (s, .joining)
  | .joining => if s.joinable then some (s, .exited) else none
  | .childLocking => (s.lock t).map fun s => (s, .childTesting)
  | .childTesting =>
      if s.interrupted then some (s, .childUnlocking)
      else some ({ s with mtx := none }, .childWaiting)
  | .childWaiting =>
      (s.lock t).map fun s => (s, if timedOut then .childSorting else .childTesting)
  | .childSorting => s.sortStep
  | .childUnlocking => some ({ s with mtx := none, joinable := true }, .exited)
  | .exited => none

/-- `handle_sigint`. A `read_line` that it interrupts fails with `EINTR`. -/
def handleSigint (s : SbState) : Option ℕ → SbPlace → Option (SbState × SbPlace)
  | none, p => if p = .exited then none else some ({ s with interrupted := true }, p)
  | some count, .reading =>
      if count ≤ (s.file.input.takeWhile isNotLf).length then
        some ({ s with
          interrupted := true
          file := { s.file with input := s.file.input.drop count } }, .testing)
      else none
  | some _, _ => none

def sbStep (t : SbThread) (s : SbState) (p : SbPlace) : SbLabel → Option (SbState × SbPlace)
  | .go allocs ok timedOut => sbGo t s allocs ok timedOut p
  | .sigint interrupts => if t = .main then handleSigint s interrupts p else none

abbrev SbConfig := Threads.Config SbThread SbState SbPlace

def SbStart (input : List UInt8) (s : SbConfig) : Prop :=
  ∃ heap failing, s.shared = ⟨heap, .new, ⟨input, failing⟩, none, false, false, false, []⟩ ∧
    s.pc = fun | .main => .testing | .child => .childLocking

abbrev SbRun (input : List UInt8) : List (SbThread × SbLabel) → SbConfig → Prop :=
  Threads.Run (SbStart input) sbStep

theorem lock_eq_some {s s' : SbState} {t : SbThread} :
    s.lock t = some s' ↔ s.mtx = none ∧ s' = { s with mtx := some t } := by
  rw [SbState.lock]
  split
  · rename_i hfree
    simp [hfree, eq_comm]
  · rename_i hfree
    simp [hfree]

end SyncBubble

end PosixThreads
