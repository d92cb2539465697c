import Mathlib.Data.Nat.Notation
import Mathlib.Logic.Function.Basic
import PosixThreads.Library.Lts

/-!
# Two threads that print in turn

`print_loop` is run by two threads, which pass three mutexes on to each other. A thread holds one
mutex, locks the next one, and only then gives back the one it has held. Locking, unlocking,
waiting at the barrier, and printing are steps of their own. The mutexes check for errors: a
thread must not lock a mutex that it holds already, nor unlock one that it does not hold.
-/

namespace PosixThreads

inductive PrintThread
  | zero
  | one
  deriving DecidableEq, Repr

def PrintThread.id : PrintThread → ℕ
  | .zero => 0
  | .one => 1

/-- Where a thread is in `print_loop`: in front of locking `mtxes[1]`, in front of locking
`mtxes[mtx_id]`, in front of the barrier, at the barrier, at the condition of the loop, in front of
the lock, of the line and of the unlock in its body, in front of the unlock after it, or at the
end. -/
inductive PrintPc
  | lockSecond
  | lockFirst
  | arrive
  | barrier
  | loop
  | lock
  | body
  | unlock
  | last
  | done
  deriving DecidableEq, Repr

structure PrintWorker where
  pc : PrintPc
  mtxId : ℕ
  i : ℕ
  initialized : Bool
  deriving DecidableEq, Repr

/-- What the threads share: the holders of the mutexes, the number of threads that have come to the
barrier, and the lines that were printed, each with its thread. -/
structure PrintShared where
  mtxes : ℕ → Option PrintThread
  arrived : ℕ
  lines : List (ℕ × ℕ)

inductive PrintOutcome
  | moved (worker : PrintWorker) (shared : PrintShared)
  | blocked
  | failed
  | finished

def nextMtxId (id : ℕ) : ℕ := (id + 1) % 3

namespace PrintShared

def lock (m : PrintShared) (t : PrintThread) (x : ℕ) (worker : PrintWorker) : PrintOutcome :=
  if x < 3 then
    match m.mtxes x with
    | none => .moved worker { m with mtxes := Function.update m.mtxes x (some t) }
    | some holder => if holder = t then .failed else .blocked
  else .failed

def unlock (m : PrintShared) (t : PrintThread) (x : ℕ) (worker : PrintWorker) : PrintOutcome :=
  if x < 3 ∧ m.mtxes x = some t then
    .moved worker { m with mtxes := Function.update m.mtxes x none }
  else .failed

end PrintShared

/-- A step of `print_loop`, with `n` for `LINE_COUNT`. -/
def printLoop (n : ℕ) (t : PrintThread) (w : PrintWorker) (m : PrintShared) : PrintOutcome :=
  match w.pc with
  | .lockSecond => m.lock t 1 { w with pc := .lockFirst }
  | .lockFirst => m.lock t w.mtxId { w with pc := .arrive }
  | .arrive => .moved { w with pc := .barrier } { m with arrived := m.arrived + 1 }
  | .barrier => if m.arrived = 2 then .moved { w with pc := .loop } m else .blocked
  | .loop =>
      if w.i < n then
        if w.initialized then .moved { w with pc := .lock } m
        else .moved { w with
          pc := .body
          initialized := true } m
      else .moved { w with pc := .last } m
  | .lock => m.lock t (nextMtxId w.mtxId) { w with pc := .body }
  | .body =>
      if nextMtxId w.mtxId = 1 then
        .moved { w with pc := .unlock } { m with lines := m.lines ++ [(t.id, w.i)] }
      else .moved { w with
        pc := .unlock
        i := w.i + 1 } m
  | .unlock => m.unlock t w.mtxId { w with
      pc := .loop
      mtxId := nextMtxId w.mtxId }
  | .last => m.unlock t w.mtxId { w with pc := .done }
  | .done => .finished

structure Interprint where
  zero : PrintWorker
  one : PrintWorker
  shared : PrintShared

namespace Interprint

def new : Interprint where
  zero := ⟨.lockSecond, 0, 0, false⟩
  one := ⟨.lockFirst, 2, 0, true⟩
  shared := ⟨fun _ => none, 0, []⟩

def outcome (n : ℕ) (s : Interprint) : PrintThread → PrintOutcome
  | .zero => printLoop n .zero s.zero s.shared
  | .one => printLoop n .one s.one s.shared

def put (s : Interprint) (t : PrintThread) (w : PrintWorker) (m : PrintShared) : Interprint :=
  match t with
  | .zero => ⟨w, s.one, m⟩
  | .one => ⟨s.zero, w, m⟩

def exec (n : ℕ) (s : Interprint) (t : PrintThread) : Option Interprint :=
  match s.outcome n t with
  | .moved w m => some (s.put t w m)
  | _ => none

def Init (s : Interprint) : Prop := s = new

def Step (n : ℕ) (s : Interprint) (t : PrintThread) (s' : Interprint) : Prop :=
  s.exec n t = some s'

end Interprint

end PosixThreads
