import PosixThreads.Library.Heap
import PosixThreads.Library.Lts
import PosixThreads.Quasi.Buffer

/-!
# The message queue

`quasi_push`, `quasi_pop` and `quasi_drop` work on the queue under its mutex, which they give back
only in `pthread_cond_wait` and at their end. What a thread does from getting the mutex to giving
it back is therefore one step. Between its steps, a thread is outside of the queue, or it sleeps on
a condition variable, or it waits for the mutex. A thread may wake up without having been
signalled.

A step that fails an assertion is `none`. Which steps are possible at all is said by `enabled`.
-/

namespace PosixThreads

inductive QuasiState
  | ok
  | dropped
  deriving DecidableEq, Repr

inductive QuasiCall (α : Type)
  | push (message : α)
  | pop
  deriving DecidableEq, Repr

/-- Where a thread is: outside, in the `quasi_lock_clean` of a call, in that of `quasi_drop`, or in
the loop of a call. In each of these it sleeps, or waits for the mutex. -/
inductive QuasiThread (α : Type)
  | outside
  | entering (call : QuasiCall α) (asleep : Bool)
  | dropping (asleep : Bool)
  | inside (call : QuasiCall α) (asleep : Bool)
  deriving DecidableEq, Repr

/-- What happens to the queue: a thread has come into `quasi_push` or `quasi_pop`, and later leaves
with `QUASI_STATE_OK` or with `QUASI_STATE_DROPPED`. A drop comes with the messages it frees. -/
inductive QuasiEvent (α : Type)
  | entered (thread : ℕ)
  | pushed (thread : ℕ) (message : α)
  | popped (thread : ℕ) (message : α)
  | refused (thread : ℕ)
  | drop (thread : ℕ) (messages : List α)
  deriving DecidableEq, Repr

/-- `quasi_t`, with the threads that use it and what has happened. -/
structure Quasi (α : Type) where
  buffer : QuasiBuffer α
  blockedCount : ℕ
  state : QuasiState
  threads : List (QuasiThread α)
  log : List (QuasiEvent α)
  deriving DecidableEq, Repr

variable {α : Type}

namespace QuasiThread

def sleepsOnDrop : QuasiThread α → Bool
  | .entering _ asleep => asleep
  | .dropping asleep => asleep
  | _ => false

def sleepsOnRd : QuasiThread α → Bool
  | .inside .pop asleep => asleep
  | _ => false

def sleepsOnWr : QuasiThread α → Bool
  | .inside (.push _) asleep => asleep
  | _ => false

def asleep (thread : QuasiThread α) : Bool :=
  thread.sleepsOnDrop || thread.sleepsOnRd || thread.sleepsOnWr

def runnable : QuasiThread α → Bool
  | .outside => false
  | .entering _ asleep => !asleep
  | .dropping asleep => !asleep
  | .inside _ asleep => !asleep

def isOutside : QuasiThread α → Bool
  | .outside => true
  | _ => false

def isInside : QuasiThread α → Bool
  | .inside _ _ => true
  | _ => false

def wake : QuasiThread α → QuasiThread α
  | .outside => .outside
  | .entering call _ => .entering call false
  | .dropping _ => .dropping false
  | .inside call _ => .inside call false

end QuasiThread

namespace Quasi

def new (capacity : ℕ) (zero : α) (threads : ℕ) : Quasi α where
  buffer := .new capacity zero
  blockedCount := 0
  state := .ok
  threads := List.replicate threads .outside
  log := []

def setThread (s : Quasi α) (t : ℕ) (thread : QuasiThread α) : Quasi α :=
  { s with threads := s.threads.set t thread }

def record (s : Quasi α) (event : QuasiEvent α) : Quasi α := { s with log := s.log ++ [event] }

/-- `pthread_cond_broadcast`, on the condition variable that the given threads sleep on. -/
def condBroadcast (s : Quasi α) (sleeps : QuasiThread α → Bool) : Quasi α :=
  { s with threads := s.threads.map fun thread => if sleeps thread then thread.wake else thread }

/-- `pthread_cond_signal`, which wakes up the thread that is given if there is one. -/
def condSignal (s : Quasi α) (woken : Option ℕ) : Quasi α :=
  match woken with
  | none => s
  | some w =>
      match s.threads[w]? with
      | none => s
      | some thread => s.setThread w thread.wake

/-- The end of `quasi_unlock`. -/
def unlockClean (s : Quasi α) : Quasi α :=
  if s.state = .dropped ∧ s.blockedCount = 0 then
    { s with state := .ok }.condBroadcast QuasiThread.sleepsOnDrop
  else s

/-- `quasi_unlock` at the end of `quasi_push` and `quasi_pop`. -/
def unlock (s : Quasi α) (t : ℕ) : Option (Quasi α) := do
  assertThat (0 < s.blockedCount)
  return ({ s with blockedCount := s.blockedCount - 1 }.setThread t .outside).unlockClean

/-- `quasi_push` after `quasi_lock_clean`, or after a `pthread_cond_wait`. -/
def push (s : Quasi α) (t : ℕ) (message : α) (woken : Option ℕ) : Option (Quasi α) :=
  match s.state with
  | .dropped => (s.record (.refused t)).unlock t
  | .ok => do
      if ← s.buffer.isFull then return s.setThread t (.inside (.push message) true)
      else
        let wasEmpty := s.buffer.isEmpty
        -- `assert(pushed)`
        let buffer ← (← s.buffer.pushUnsync message)
        let s := { s with buffer := buffer }.record (.pushed t message)
        if wasEmpty then (s.condSignal woken).unlock t else s.unlock t

/-- `quasi_pop` after `quasi_lock_clean`, or after a `pthread_cond_wait`. -/
def pop (s : Quasi α) (t : ℕ) (woken : Option ℕ) : Option (Quasi α) :=
  match s.state with
  | .dropped => (s.record (.refused t)).unlock t
  | .ok => do
      if s.buffer.isEmpty then return s.setThread t (.inside .pop true)
      else
        let wasFull ← s.buffer.isFull
        -- `assert(popped)`
        let (message, buffer) ← (← s.buffer.popUnsync)
        let s := { s with buffer := buffer }.record (.popped t message)
        if wasFull then (s.condSignal woken).unlock t else s.unlock t

def perform (s : Quasi α) (t : ℕ) (woken : Option ℕ) : QuasiCall α → Option (Quasi α)
  | .push message => s.push t message woken
  | .pop => s.pop t woken

/-- `quasi_lock_clean` and what follows it in a call. -/
def enter (s : Quasi α) (t : ℕ) (woken : Option ℕ) (call : QuasiCall α) : Option (Quasi α) :=
  match s.state with
  | .dropped => some (s.setThread t (.entering call true))
  | .ok =>
      let s := { s with blockedCount := s.blockedCount + 1 }.record (.entered t)
      (s.setThread t (.inside call false)).perform t woken call

def drop (s : Quasi α) (t : ℕ) : Option (Quasi α) :=
  match s.state with
  | .dropped => some (s.setThread t (.dropping true))
  | .ok => do
      let (messages, buffer) ← s.buffer.popAll (s.buffer.capacity + 1)
      let s := { s with
        state := .dropped
        buffer := { buffer with
          wrIdx := 0
          rdIdx := 0 } }.record (.drop t messages)
      let s := (s.condBroadcast QuasiThread.sleepsOnRd).condBroadcast QuasiThread.sleepsOnWr
      return (s.setThread t .outside).unlockClean

end Quasi

/-- What a thread can do. A thread that gets the mutex may signal another one, which is given. -/
inductive QuasiAct (α : Type)
  | call (t : ℕ) (call : QuasiCall α)
  | callDrop (t : ℕ)
  | wake (t : ℕ)
  | run (t : ℕ) (woken : Option ℕ)
  deriving DecidableEq, Repr

namespace Quasi

def canSignal (s : Quasi α) (sleeps : QuasiThread α → Bool) : Option ℕ → Bool
  | none => !s.threads.any sleeps
  | some w => s.threads[w]?.any sleeps

/-- Who can be woken up by a thread: `quasi_push` signals `rd_cond`, and `quasi_pop` `wr_cond`. -/
def signals (s : Quasi α) (woken : Option ℕ) : QuasiThread α → Bool
  | .entering (.push _) _ => s.canSignal QuasiThread.sleepsOnRd woken
  | .entering .pop _ => s.canSignal QuasiThread.sleepsOnWr woken
  | .inside (.push _) _ => s.canSignal QuasiThread.sleepsOnRd woken
  | .inside .pop _ => s.canSignal QuasiThread.sleepsOnWr woken
  | _ => woken.isNone

def enabled (s : Quasi α) : QuasiAct α → Bool
  | .call t _ => s.threads[t]?.any QuasiThread.isOutside
  | .callDrop t => s.threads[t]?.any QuasiThread.isOutside
  | .wake t => s.threads[t]?.any QuasiThread.asleep
  | .run t woken => s.threads[t]?.any fun thread => thread.runnable && s.signals woken thread

def run (s : Quasi α) (t : ℕ) (woken : Option ℕ) : QuasiThread α → Option (Quasi α)
  | .outside => none
  | .entering call _ => s.enter t woken call
  | .dropping _ => s.drop t
  | .inside call _ => s.perform t woken call

def exec (s : Quasi α) : QuasiAct α → Option (Quasi α)
  | .call t call => some (s.setThread t (.entering call false))
  | .callDrop t => some (s.setThread t (.dropping false))
  | .wake t => do return s.setThread t (← s.threads[t]?).wake
  | .run t woken => do s.run t woken (← s.threads[t]?)

def Init (capacity : ℕ) (s : Quasi α) : Prop := ∃ zero threads, s = new capacity zero threads

def Step (s : Quasi α) (act : QuasiAct α) (s' : Quasi α) : Prop :=
  s.exec act = some s' ∧ s.enabled act = true

end Quasi

end PosixThreads
