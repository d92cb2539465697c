import Mathlib.Data.Nat.Notation
import Mathlib.Logic.Function.Basic
import Mathlib.Tactic.TypeStar

/-!
# Semaphores

The counters of semaphores, by their names. Waiting at a semaphore takes one from its counter, or
blocks if there is nothing to take, and posting adds one.
-/

namespace Semaphores

variable {S : Type*} [DecidableEq S]

def wait (sem : S → ℕ) (x : S) : Option (S → ℕ) :=
  if 0 < sem x then some (Function.update sem x (sem x - 1)) else none

def post (sem : S → ℕ) (x : S) : S → ℕ := Function.update sem x (sem x + 1)

variable {sem sem' : S → ℕ} {x : S}

theorem wait_eq_some :
    wait sem x = some sem' ↔ 0 < sem x ∧ sem' = Function.update sem x (sem x - 1) := by
  rw [wait]
  by_cases hpos : 0 < sem x
  · simp [hpos, eq_comm]
  · simp [hpos]

theorem wait_eq_none : wait sem x = none ↔ sem x = 0 := by
  rw [wait]
  by_cases hpos : 0 < sem x
  · simp [hpos, Nat.pos_iff_ne_zero.mp hpos]
  · simp [Nat.eq_zero_of_not_pos hpos]

theorem post_apply (sem : S → ℕ) (x y : S) : post sem x y = sem y + if x = y then 1 else 0 := by
  rw [post, Function.update_apply]
  by_cases hy : x = y
  · simp [hy]
  · simp [hy, Ne.symm hy]

theorem wait_apply (h : wait sem x = some sem') (y : S) :
    sem' y + (if x = y then 1 else 0) = sem y := by
  obtain ⟨hpos, rfl⟩ := wait_eq_some.mp h
  rw [Function.update_apply]
  by_cases hy : x = y
  · subst hy
    simp only [if_true]
    omega
  · simp [hy, Ne.symm hy]

end Semaphores
