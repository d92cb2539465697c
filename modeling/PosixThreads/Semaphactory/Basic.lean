import Mathlib.Data.Fintype.Defs
import PosixThreads.Library.Semaphores
import PosixThreads.Library.Threads

/-!
# The factory

Three threads produce the parts A, B and C. One makes modules of A and B, and one makes widgets of C
and modules. Every part has a queue, which is a pair of semaphores: `output` counts the parts in it,
and `available_space` the places for more. The main thread waits for SIGINT, and after it no thread
begins anything new.

A step goes from one semaphore to the next one. Sleeping and the messages are left out.
-/

namespace PosixThreads

namespace Semaphactory

inductive Part
  | a
  | b
  | c
  | d
  deriving DecidableEq, Repr

/-- `main`, `run_generic_producer` for each of three parts, `run_d_producer` and
`run_widget_producer`. -/
inductive FactoryThread
  | main
  | a
  | b
  | c
  | d
  | widget
  deriving DecidableEq, Repr

instance : Fintype FactoryThread :=
  ⟨{.main, .a, .b, .c, .d, .widget}, fun t => by cases t <;> decide⟩

def queueSize : ℕ := 10

/-- What the threads share. `produced` and `retrieved` count the parts that have been put into the
queues and taken out of them, and `widgets` the widgets that have been made. -/
structure Factory where
  output : Part → ℕ
  availableSpace : Part → ℕ
  interrupted : Bool
  produced : Part → ℕ
  retrieved : Part → ℕ
  widgets : ℕ

/-- Where a thread is: `main` in front of `sigwait`, and the others in front of a look at
`interrupted`, or in front of the first or the second semaphore of `produce_part` or of
`retrieve_part`. -/
inductive FactoryPlace
  | waiting
  | testing
  | producing (part : Part)
  | posting (part : Part)
  | retrieving (part : Part)
  | freeing (part : Part)
  | finished
  deriving DecidableEq, Repr

def FactoryThread.first : FactoryThread → FactoryPlace
  | .main => .waiting
  | .a => .producing .a
  | .b => .producing .b
  | .c => .producing .c
  | .d => .retrieving .a
  | .widget => .retrieving .c

/-- What comes behind `retrieve_part` in the only thread that retrieves this part. -/
def Part.afterRetrieving : Part → FactoryPlace
  | .a => .retrieving .b
  | .b => .producing .d
  | .c => .retrieving .d
  | .d => .testing

def factoryStep (t : FactoryThread) (s : Factory) : FactoryPlace → Unit →
    Option (Factory × FactoryPlace)
  | .waiting, _ => some ({ s with interrupted := true }, .finished)
  | .testing, _ => some (s, if s.interrupted then .finished else t.first)
  | .producing part, _ =>
      (Semaphores.wait s.availableSpace part).map fun sem =>
        ({ s with availableSpace := sem }, .posting part)
  | .posting part, _ =>
      some ({ s with
        output := Semaphores.post s.output part
        produced := Semaphores.post s.produced part }, .testing)
  | .retrieving part, _ =>
      (Semaphores.wait s.output part).map fun sem =>
        ({ s with
          output := sem
          retrieved := Semaphores.post s.retrieved part }, .freeing part)
  | .freeing part, _ =>
      some ({ s with
        availableSpace := Semaphores.post s.availableSpace part
        widgets := if part = .d then s.widgets + 1 else s.widgets }, part.afterRetrieving)
  | .finished, _ => none

abbrev FactoryConfig := Threads.Config FactoryThread Factory FactoryPlace

def FactoryInit (s : FactoryConfig) : Prop :=
  s.shared = ⟨fun _ => 0, fun _ => queueSize, false, fun _ => 0, fun _ => 0, 0⟩ ∧
    s.pc = fun t => if t = .main then .waiting else .testing

abbrev FactoryRun : List (FactoryThread × Unit) → FactoryConfig → Prop :=
  Threads.Run FactoryInit factoryStep

def Part.maker : Part → FactoryThread
  | .a => .a
  | .b => .b
  | .c => .c
  | .d => .d

def Part.user : Part → FactoryThread
  | .a => .d
  | .b => .d
  | .c => .widget
  | .d => .widget

def FactoryPlace.Of (t : FactoryThread) : FactoryPlace → Prop
  | .waiting => t = .main
  | .testing => t ≠ .main
  | .producing part | .posting part => t = part.maker
  | .retrieving part | .freeing part => t = part.user
  | .finished => True

theorem first_of {t : FactoryThread} (ht : t ≠ .main) : t.first.Of t := by
  cases t
  case main => exact absurd rfl ht
  all_goals rfl

theorem maker_ne_main (part : Part) : part.maker ≠ .main := by cases part <;> decide

theorem user_ne_main (part : Part) : part.user ≠ .main := by cases part <;> decide

theorem afterRetrieving_of (part : Part) : part.afterRetrieving.Of part.user := by
  cases part
  case d => exact user_ne_main .d
  all_goals rfl

section Step

variable {t : FactoryThread} {s s' : Factory} {p p' : FactoryPlace}

theorem factoryStep_of (h : factoryStep t s p () = some (s', p')) (hp : p.Of t) : p'.Of t := by
  cases p with
  | waiting =>
      cases h
      trivial
  | testing =>
      cases h
      split
      · trivial
      · exact first_of hp
  | producing part =>
      obtain ⟨sem, -, heq⟩ := Option.map_eq_some_iff.mp h
      cases heq
      exact hp
  | retrieving part =>
      obtain ⟨sem, -, heq⟩ := Option.map_eq_some_iff.mp h
      cases heq
      exact hp
  | posting part =>
      cases h
      rw [show t = part.maker from hp]
      exact maker_ne_main part
  | freeing part =>
      cases h
      rw [show t = part.user from hp]
      exact afterRetrieving_of part
  | finished => cases h

end Step

theorem of_of_run {hist : List (FactoryThread × Unit)} {s : FactoryConfig}
    (hrun : FactoryRun hist s) (t : FactoryThread) : (s.pc t).Of t := by
  refine hrun.invariant (I := fun _ s => ∀ t, (s.pc t).Of t) (fun s hinit t => ?_)
    (fun _ s label s' h hstep t => ?_) t
  · rw [hinit.2]
    by_cases ht : t = .main
    · simp [ht, FactoryPlace.Of]
    · simp [ht, FactoryPlace.Of]
  · obtain ⟨sh, p, hmove, rfl⟩ := Threads.move_eq_some.mp hstep
    by_cases ht : t = label.1
    · simp only [ht, Function.update_self]
      exact factoryStep_of hmove (h label.1)
    · simp only [Function.update_of_ne ht]
      exact h t

end Semaphactory

end PosixThreads
