import Mathlib.Data.List.Basic
import Mathlib.Data.Nat.ModEq

/-!
# Ring buffers

The cells of a ring are those of a list, and the last cell is followed by the first one. `Holds`
says which values stand in the cells from a given one on. A value is added behind the others and
is taken away in front of them.
-/

namespace Ring

variable {α : Type*}

def Holds (cells : List α) : ℕ → List α → Prop
  | _, [] => True
  | start, x :: xs => cells[start]? = some x ∧ Holds cells ((start + 1) % cells.length) xs

/-- Places at different distances from a given one are different. -/
theorem add_mod_inj {n i j : ℕ} (start : ℕ) (hi : i < n) (hj : j < n) :
    (start + i) % n = (start + j) % n ↔ i = j := by
  constructor
  · intro heq
    have hmod : i ≡ j [MOD n] := Nat.ModEq.add_left_cancel' start heq
    exact hmod.eq_of_lt_of_lt hi hj
  · rintro rfl
    rfl

/-- One comes back to a place after all the cells only. -/
theorem add_mod_eq_self_iff {start n k : ℕ} (hstart : start < n) (hk : k ≤ n) :
    (start + k) % n = start ↔ k = 0 ∨ k = n := by
  rcases hk.lt_or_eq with hlt | rfl
  · have hinj := add_mod_inj start hlt (Nat.zero_lt_of_lt hlt)
    rw [Nat.add_zero, Nat.mod_eq_of_lt hstart] at hinj
    simp [hinj, hlt.ne]
  · rw [Nat.add_mod_right, Nat.mod_eq_of_lt hstart]
    simp

theorem succ_mod_add_mod (start i n : ℕ) : ((start + 1) % n + i) % n = (start + (i + 1)) % n := by
  rw [Nat.mod_add_mod, Nat.add_assoc, Nat.add_comm 1]

section Cells

variable {cells : List α} {start p : ℕ} {xs : List α} {x : α}

theorem Holds.set (h : Holds cells start xs) (hstart : start < cells.length)
    (hp : ∀ i < xs.length, (start + i) % cells.length ≠ p) (y : α) :
    Holds (cells.set p y) start xs := by
  induction xs generalizing start with
  | nil => trivial
  | cons x xs ih =>
      have hne : start ≠ p := by
        have hzero := hp 0 (by simp)
        rwa [Nat.add_zero, Nat.mod_eq_of_lt hstart] at hzero
      have hpos : 0 < cells.length := Nat.zero_lt_of_lt hstart
      refine ⟨by rw [List.getElem?_set_ne (Ne.symm hne)]; exact h.1, ?_⟩
      rw [List.length_set]
      refine ih h.2 (Nat.mod_lt _ hpos) fun i hi => ?_
      rw [succ_mod_add_mod]
      exact hp (i + 1) (by simpa using hi)

theorem Holds.snoc (h : Holds cells start xs) (hstart : start < cells.length)
    (hx : cells[(start + xs.length) % cells.length]? = some x) :
    Holds cells start (xs ++ [x]) := by
  induction xs generalizing start with
  | nil =>
      rw [List.length_nil, Nat.add_zero, Nat.mod_eq_of_lt hstart] at hx
      exact ⟨hx, trivial⟩
  | cons y ys ih =>
      have hpos : 0 < cells.length := Nat.zero_lt_of_lt hstart
      refine ⟨h.1, ih h.2 (Nat.mod_lt _ hpos) ?_⟩
      rwa [succ_mod_add_mod]

theorem Holds.push (h : Holds cells start xs) (hstart : start < cells.length)
    (hfree : xs.length < cells.length) (x : α) :
    Holds (cells.set ((start + xs.length) % cells.length) x) start (xs ++ [x]) := by
  have hpos : 0 < cells.length := Nat.zero_lt_of_lt hstart
  refine (h.set hstart (fun i hi => ?_) x).snoc (by rwa [List.length_set]) ?_
  · rw [Ne, add_mod_inj start (hi.trans hfree) hfree]
    exact hi.ne
  · rw [List.length_set, List.getElem?_set_self (Nat.mod_lt _ hpos)]

end Cells

end Ring
