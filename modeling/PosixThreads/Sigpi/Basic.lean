import PosixThreads.Collections.Vec.Basic
import PosixThreads.Library.Iterate

/-!
# The series for π

The terms of the series are distributed over the workers in blocks of four. A worker looks from
time to time whether it has been interrupted, and `main` then adds what is missing up to the
furthest of the workers.

A term is known by its index and a sum by the indices of its terms, in the order in which they are
added. The workers have been started and joined without an error.
-/

namespace PosixThreads

namespace Sigpi

def termsPerUnit : ℕ := 4

def iterationsBetweenChecks : ℕ := 1000000

structure WorkerParam where
  iterationCount : ℕ
  workerIdx : ℕ
  workerCount : ℕ
  partialSum : List ℕ
  firstUncomputedTermIndex : ℕ
  deriving DecidableEq, Repr

def initialIteration (workerIdx : ℕ) : ℕ := sizeT (workerIdx * termsPerUnit)

def nextIteration (iteration workerCount : ℕ) : ℕ :=
  let leap := if iteration % 4 = 3 then sizeT (termsPerUnit * sizeSub workerCount 1) else 0
  sizeT (iteration + 1 + leap)

/-! ## The workers -/

structure WorkerLoop where
  iteration : ℕ
  nextCheck : ℕ
  partialSum : List ℕ
  deriving DecidableEq, Repr

/-- The term of the iteration is added, and the next iteration comes. -/
def WorkerLoop.compute (s : WorkerLoop) (workerCount nextCheck : ℕ) : WorkerLoop where
  iteration := nextIteration s.iteration workerCount
  nextCheck := nextCheck
  partialSum := s.partialSum ++ [s.iteration]

/-- One turn of the loop of `worker_thread`. The flag `interrupted` may have any value when it is
read in front of an iteration. -/
def workerTurn (params : WorkerParam) (interrupted : ℕ → Bool) (s : WorkerLoop) :
    WorkerLoop ⊕ WorkerLoop :=
  if s.iteration < params.iterationCount then
    if s.nextCheck = 0 then
      if interrupted s.iteration then .inr s
      else .inl (s.compute params.workerCount iterationsBetweenChecks)
    else .inl (s.compute params.workerCount (s.nextCheck - 1))
  else .inr s

def workerThread (params : WorkerParam) (interrupted : ℕ → Bool) : Option WorkerParam :=
  (Iterate.iterate (workerTurn params interrupted) (params.iterationCount + 1)
    ⟨initialIteration params.workerIdx, iterationsBetweenChecks, []⟩).map fun s =>
      { params with partialSum := s.partialSum, firstUncomputedTermIndex := s.iteration }

/-! ## Finalising -/

def workerParams (iterationCount workerCount : ℕ) : List WorkerParam :=
  (List.range workerCount).map fun i => ⟨iterationCount, i, workerCount, [], 0⟩

/-- The furthest of the workers. -/
def finalIteration (params : List WorkerParam) : ℕ :=
  params.foldl (fun final p =>
    if p.firstUncomputedTermIndex > final then p.firstUncomputedTermIndex else final) 0

def finishTurn (final workerCount : ℕ) : ℕ × List ℕ → (ℕ × List ℕ) ⊕ (ℕ × List ℕ)
  | (iteration, terms) =>
      if iteration < final then .inl (nextIteration iteration workerCount, terms ++ [iteration])
      else .inr (iteration, terms)

def finishWorker (final workerCount : ℕ) (p : WorkerParam) : Option (List ℕ) :=
  (Iterate.iterate (finishTurn final workerCount) (final + 1)
    (p.firstUncomputedTermIndex, [])).map Prod.snd

def finish (final workerCount : ℕ) : List WorkerParam → Option (List ℕ)
  | [] => some []
  | p :: params => do
      let terms ← finishWorker final workerCount p
      return terms ++ (← finish final workerCount params)

def computed (interrupted : Bool) (workerCount : ℕ) (params : List WorkerParam) :
    Option (List ℕ) :=
  let sums := params.flatMap WorkerParam.partialSum
  if interrupted then (finish (finalIteration params) workerCount params).map (sums ++ ·)
  else some sums

end Sigpi

end PosixThreads
