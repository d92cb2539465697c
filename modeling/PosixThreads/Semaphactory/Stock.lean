import Mathlib.Algebra.Order.Ring.Nat
import PosixThreads.Semaphactory.Basic

/-!
# The stock

A place of a queue is free, or has a part in it, or a thread is between the two semaphores of the
part. What has been retrieved has been used up, or the thread that retrieves it still has it. So no
part is lost or used twice, and what has been produced in advance is bounded.
-/

namespace PosixThreads

namespace Semaphactory

def FactoryPlace.slot (part : Part) : FactoryPlace → ℕ
  | .posting part' | .freeing part' => if part' = part then 1 else 0
  | _ => 0

def FactoryPlace.has : Part → FactoryPlace → ℕ
  | .a, .freeing .a | .a, .retrieving .b | .a, .freeing .b | .a, .producing .d
  | .a, .posting .d => 1
  | .b, .freeing .b | .b, .producing .d | .b, .posting .d => 1
  | .c, .freeing .c | .c, .retrieving .d | .c, .freeing .d => 1
  | .d, .freeing .d => 1
  | _, _ => 0

def Factory.used (s : Factory) : Part → ℕ
  | .a | .b => s.produced .d
  | .c | .d => s.widgets

structure FactoryStock (s : FactoryConfig) : Prop where
  slots : ∀ part, s.shared.output part + s.shared.availableSpace part +
    ∑ t, (s.pc t).slot part = queueSize
  used : ∀ part, s.shared.used part + ∑ t, (s.pc t).has part = s.shared.retrieved part
  produced : ∀ part, s.shared.produced part = s.shared.retrieved part + s.shared.output part

section Step

variable {t : FactoryThread} {s s' : Factory} {p p' : FactoryPlace}

theorem factoryStep_slots (h : factoryStep t s p () = some (s', p')) (q : Part) :
    s'.output q + s'.availableSpace q + p'.slot q = s.output q + s.availableSpace q + p.slot q := by
  cases p with
  | waiting =>
      cases h
      rfl
  | testing =>
      cases h
      cases s.interrupted <;> cases t <;> rfl
  | producing part =>
      obtain ⟨sem, hwait, heq⟩ := Option.map_eq_some_iff.mp h
      have hsem := Semaphores.wait_apply hwait q
      cases heq
      simp only [FactoryPlace.slot]
      omega
  | retrieving part =>
      obtain ⟨sem, hwait, heq⟩ := Option.map_eq_some_iff.mp h
      have hsem := Semaphores.wait_apply hwait q
      cases heq
      simp only [FactoryPlace.slot]
      omega
  | posting part =>
      cases h
      simp only [FactoryPlace.slot, Semaphores.post_apply]
      omega
  | freeing part =>
      cases h
      have hafter : part.afterRetrieving.slot q = 0 := by cases part <;> rfl
      rw [hafter]
      simp only [FactoryPlace.slot, Semaphores.post_apply]
      omega
  | finished => cases h

theorem factoryStep_has (h : factoryStep t s p () = some (s', p')) (q : Part) :
    s'.used q + p'.has q + s.retrieved q = s.used q + p.has q + s'.retrieved q := by
  cases p with
  | waiting =>
      cases h
      cases q <;> rfl
  | testing =>
      cases h
      cases s.interrupted <;> cases t <;> cases q <;> rfl
  | producing part =>
      obtain ⟨sem, -, heq⟩ := Option.map_eq_some_iff.mp h
      cases heq
      cases part <;> cases q <;> rfl
  | retrieving part =>
      obtain ⟨sem, -, heq⟩ := Option.map_eq_some_iff.mp h
      cases heq
      cases part <;> cases q <;> simp +arith [Factory.used, FactoryPlace.has, Semaphores.post_apply]
  | posting part =>
      cases h
      cases part <;> cases q <;> simp +arith [Factory.used, FactoryPlace.has, Semaphores.post_apply]
  | freeing part =>
      cases h
      cases part <;> cases q <;>
        simp +arith [Factory.used, FactoryPlace.has, Part.afterRetrieving]
  | finished => cases h

theorem factoryStep_produced (h : factoryStep t s p () = some (s', p')) (q : Part) :
    s'.produced q + (s.retrieved q + s.output q) =
      s.produced q + (s'.retrieved q + s'.output q) := by
  cases p with
  | waiting | testing | freeing =>
      cases h
      rfl
  | producing part =>
      obtain ⟨sem, -, heq⟩ := Option.map_eq_some_iff.mp h
      cases heq
      rfl
  | retrieving part =>
      obtain ⟨sem, hwait, heq⟩ := Option.map_eq_some_iff.mp h
      have hsem := Semaphores.wait_apply hwait q
      cases heq
      simp only [Semaphores.post_apply]
      omega
  | posting part =>
      cases h
      simp only [Semaphores.post_apply]
      omega
  | finished => cases h

end Step

section Run

variable {hist : List (FactoryThread × Unit)} {s : FactoryConfig}

theorem stock_of_run (hrun : FactoryRun hist s) : FactoryStock s := by
  refine hrun.invariant (I := fun _ s => FactoryStock s) (fun s hinit => ?_)
    fun _ s label s' h hstep => ?_
  · obtain ⟨hshared, hpc⟩ := hinit
    refine ⟨fun part => ?_, fun part => ?_, fun part => by simp [hshared]⟩
    · have hnone : ∀ t, (s.pc t).slot part = 0 := fun t => by
        rw [hpc]
        cases t <;> rfl
      simp [hshared, hnone]
    · have hnone : ∀ t, (s.pc t).has part = 0 := fun t => by
        rw [hpc]
        cases t <;> cases part <;> rfl
      cases part <;> simp [hshared, hnone, Factory.used]
  · obtain ⟨sh, p, hmove, rfl⟩ := Threads.move_eq_some.mp hstep
    refine ⟨fun part => ?_, fun part => ?_, fun part => ?_⟩
    · exact Threads.balance (fun _ p => FactoryPlace.slot part p) s.pc label.1 p (h.slots part)
        (congrArg (· + queueSize) (factoryStep_slots hmove part))
    · exact Threads.balance (fun _ p => FactoryPlace.has part p) s.pc label.1 p (h.used part)
        (factoryStep_has hmove part)
    · have hproduced := h.produced part
      have hstep := factoryStep_produced hmove part
      simp only
      omega

/-- Only the thread that retrieves a part can have it. -/
theorem has_eq_zero {t : FactoryThread} {p : FactoryPlace} {part : Part} (hp : p.Of t)
    (ht : t ≠ part.user) : p.has part = 0 := by
  cases p with
  | producing q | posting q =>
      obtain rfl : t = q.maker := hp
      cases q <;> cases part <;> first | rfl | exact absurd rfl ht
  | retrieving q | freeing q =>
      obtain rfl : t = q.user := hp
      cases q <;> cases part <;> first | rfl | exact absurd rfl ht
  | waiting | testing | finished => cases part <;> rfl

theorem has_le_one (part : Part) (p : FactoryPlace) : p.has part ≤ 1 := by
  unfold FactoryPlace.has
  split <;> simp

theorem sum_has (hrun : FactoryRun hist s) (part : Part) :
    ∑ t, (s.pc t).has part = (s.pc part.user).has part :=
  Finset.sum_eq_single part.user (fun t _ ht => has_eq_zero (of_of_run hrun t) ht) (by simp)

/-- Every part that has been produced is in its queue, or with the thread that retrieves it, or has
been used up, and it has been used up once. The queues are bounded, and so is what has been produced
in advance. -/
theorem factory_stock (hrun : FactoryRun hist s) (part : Part) :
    s.shared.produced part =
        s.shared.used part + (s.pc part.user).has part + s.shared.output part ∧
      s.shared.output part + s.shared.availableSpace part +
        ∑ t, (s.pc t).slot part = queueSize ∧
      s.shared.widgets ≤ s.shared.produced part ∧
      s.shared.produced part ≤ s.shared.widgets + 2 * (queueSize + 1) := by
  have hstock := stock_of_run hrun
  have hparts : ∀ q, s.shared.produced q =
      s.shared.used q + (s.pc q.user).has q + s.shared.output q := by
    intro q
    rw [hstock.produced q, ← hstock.used q, sum_has hrun q]
  have hbounds : ∀ q, s.shared.used q ≤ s.shared.produced q ∧
      s.shared.produced q ≤ s.shared.used q + (queueSize + 1) := by
    intro q
    have hq := hparts q
    have hslots := hstock.slots q
    have hone := has_le_one q (s.pc q.user)
    omega
  have hd : s.shared.used .d = s.shared.widgets := rfl
  have hmodules := hbounds .d
  have hpart := hbounds part
  refine ⟨hparts part, hstock.slots part, ?_⟩
  cases part with
  | a | b =>
      have hused : s.shared.used .a = s.shared.produced .d ∧
        s.shared.used .b = s.shared.produced .d := ⟨rfl, rfl⟩
      omega
  | c | d =>
      have hused : s.shared.used .c = s.shared.widgets := rfl
      omega

theorem factoryInit_start : FactoryInit
    ⟨⟨fun _ => 0, fun _ => queueSize, false, fun _ => 0, fun _ => 0, 0⟩,
      fun t => if t = .main then .waiting else .testing⟩ :=
  ⟨rfl, rfl⟩

/-- A part of each kind is produced, a module is made of two of them, and a widget. -/
def oneWidget : List (FactoryThread × Unit) :=
  let steps (t : FactoryThread) (count : ℕ) := List.replicate count (t, ())
  steps .a 3 ++ steps .b 3 ++ steps .d 7 ++ steps .c 3 ++ steps .widget 5

theorem factory_stock_oneWidget : ∃ s, FactoryRun oneWidget s ∧ s.shared.widgets = 1 ∧
    (s.shared.produced .a =
        s.shared.used .a + (s.pc Part.a.user).has .a + s.shared.output .a ∧
      s.shared.output .a + s.shared.availableSpace .a + ∑ t, (s.pc t).slot .a = queueSize ∧
      s.shared.widgets ≤ s.shared.produced .a ∧
      s.shared.produced .a ≤ s.shared.widgets + 2 * (queueSize + 1)) := by
  obtain ⟨s, hrun, hwidgets⟩ := Lts.exists_run (Threads.move factoryStep) oneWidget
    (fun s => s.shared.widgets = 1) factoryInit_start (by decide +kernel)
  exact ⟨s, hrun, hwidgets, factory_stock hrun .a⟩

end Run

end Semaphactory

end PosixThreads
