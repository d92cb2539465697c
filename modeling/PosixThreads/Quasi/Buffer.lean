import PosixThreads.Common.Error
import PosixThreads.Library.Ring

/-!
# The storage of the message queue

The messages of a `quasi_t` are kept in a ring. Its places to read and to write are the same if
it is empty and if it is full, which is why it has the flag `full`. A call that fails an assertion
is `none`.
-/

namespace PosixThreads

/-- The fields of `quasi_t` that its messages are stored in. -/
structure QuasiBuffer (α : Type) where
  storage : List α
  wrIdx : ℕ
  rdIdx : ℕ
  capacity : ℕ
  full : Bool
  deriving DecidableEq, Repr

namespace QuasiBuffer

variable {α : Type}

/-- What `quasi_new` makes of cells that `calloc` has set to zero. -/
def new (capacity : ℕ) (zero : α) : QuasiBuffer α where
  storage := List.replicate capacity zero
  wrIdx := 0
  rdIdx := 0
  capacity := capacity
  full := false

def isEmpty (self : QuasiBuffer α) : Bool := self.rdIdx = self.wrIdx && !self.full

def isFull (self : QuasiBuffer α) : Option Bool := do
  assertThat (!self.full || self.rdIdx = self.wrIdx)
  return self.full

/-- `quasi_advance_rd`, with `none` for `false`. -/
def advanceRd (self : QuasiBuffer α) : Option (QuasiBuffer α) :=
  if self.isEmpty then none
  else some { self with
    rdIdx := (self.rdIdx + 1) % self.capacity
    full := false }

/-- `quasi_advance_wr`, with `none` for `false`. -/
def advanceWr (self : QuasiBuffer α) : Option (Option (QuasiBuffer α)) := do
  if ← self.isFull then return none
  else
    let wrIdx := (self.wrIdx + 1) % self.capacity
    return some { self with
      wrIdx := wrIdx
      full := wrIdx = self.rdIdx }

/-- `quasi_pop_unsync`, with `none` for `false`. -/
def popUnsync (self : QuasiBuffer α) : Option (Option (α × QuasiBuffer α)) :=
  match self.advanceRd with
  | none => some none
  | some advanced => do return some (← self.storage[self.rdIdx]?, advanced)

/-- `quasi_push_unsync`, with `none` for `false`. -/
def pushUnsync (self : QuasiBuffer α) (message : α) : Option (Option (QuasiBuffer α)) := do
  match ← self.advanceWr with
  | none => return none
  | some advanced =>
      assertThat (self.wrIdx < self.storage.length)
      return some { advanced with storage := self.storage.set self.wrIdx message }

/-- The loop of `quasi_drop` over the messages that are left. It is run for a number of turns. -/
def popAll : ℕ → QuasiBuffer α → Option (List α × QuasiBuffer α)
  | 0, _ => none
  | fuel + 1, self => do
      match ← self.popUnsync with
      | none => return ([], self)
      | some (message, self) =>
          let (messages, self) ← popAll fuel self
          return (message :: messages, self)

def stored (self : QuasiBuffer α) : ℕ :=
  if self.full then self.capacity
  else (self.wrIdx + self.capacity - self.rdIdx) % self.capacity

structure Stores (b : QuasiBuffer α) (xs : List α) : Prop where
  length_eq : b.storage.length = b.capacity
  rd_lt : b.rdIdx < b.capacity
  wr_eq : b.wrIdx = (b.rdIdx + xs.length) % b.capacity
  le : xs.length ≤ b.capacity
  full_eq : b.full = decide (xs.length = b.capacity)
  holds : Ring.Holds b.storage b.rdIdx xs

namespace Stores

variable {b : QuasiBuffer α} {x : α} {xs : List α}

theorem new {capacity : ℕ} (hpos : 0 < capacity) (zero : α) :
    (QuasiBuffer.new capacity zero).Stores [] := by
  refine ⟨by simp [QuasiBuffer.new], hpos, ?_, Nat.zero_le _, ?_, trivial⟩
  · simp [QuasiBuffer.new]
  · simp [QuasiBuffer.new, hpos.ne]

theorem wr_lt (h : b.Stores xs) : b.wrIdx < b.capacity := by
  rw [h.wr_eq]
  exact Nat.mod_lt _ (Nat.zero_lt_of_lt h.rd_lt)

/-- The places to read and to write are the same only if the ring is empty or full. -/
theorem idx_eq_iff (h : b.Stores xs) :
    b.rdIdx = b.wrIdx ↔ xs = [] ∨ xs.length = b.capacity := by
  rw [h.wr_eq, eq_comm, Ring.add_mod_eq_self_iff h.rd_lt h.le, List.length_eq_zero_iff]

theorem isEmpty_eq (h : b.Stores xs) : b.isEmpty = xs.isEmpty := by
  have hpos : 0 < b.capacity := Nat.zero_lt_of_lt h.rd_lt
  have hidx := h.idx_eq_iff
  by_cases hxs : xs = []
  · simp only [hxs, true_or, iff_true] at hidx
    simp [isEmpty, h.full_eq, hidx, hxs, hpos.ne]
  · simp [isEmpty, h.full_eq, hidx, hxs]

theorem isFull_eq (h : b.Stores xs) :
    b.isFull = some (decide (xs.length = b.capacity)) := by
  by_cases hfull : xs.length = b.capacity
  · have hidx := h.idx_eq_iff.mpr (Or.inr hfull)
    simp [isFull, h.full_eq, hfull, hidx, assertThat]
  · simp [isFull, h.full_eq, hfull, assertThat]

theorem stored_eq (h : b.Stores xs) : b.stored = xs.length := by
  rw [stored, h.full_eq]
  by_cases hfull : xs.length = b.capacity
  · simp [hfull]
  · have hlt : xs.length < b.capacity := lt_of_le_of_ne h.le hfull
    have hrd := h.rd_lt
    simp only [hfull, decide_false, Bool.false_eq_true, if_false]
    rw [h.wr_eq]
    -- the messages reach beyond the last cell or not
    rcases Nat.lt_or_ge (b.rdIdx + xs.length) b.capacity with hfits | hwraps
    · rw [Nat.mod_eq_of_lt hfits, Nat.add_assoc, Nat.add_sub_cancel_left, Nat.add_mod_right,
        Nat.mod_eq_of_lt hlt]
    · have hrest : b.rdIdx + xs.length - b.capacity < b.capacity := by omega
      rw [Nat.mod_eq_sub_mod hwraps, Nat.mod_eq_of_lt hrest, Nat.sub_add_cancel hwraps,
        Nat.add_sub_cancel_left, Nat.mod_eq_of_lt hlt]

theorem popUnsync_nil (h : b.Stores ([] : List α)) : b.popUnsync = some none := by
  simp [popUnsync, advanceRd, h.isEmpty_eq]

theorem popUnsync_cons (h : b.Stores (x :: xs)) :
    ∃ b', b.popUnsync = some (some (x, b')) ∧ b'.Stores xs ∧
      b'.capacity = b.capacity := by
  have hpos : 0 < b.capacity := Nat.zero_lt_of_lt h.rd_lt
  have hlt : xs.length < b.capacity := h.le
  refine ⟨{ b with
    rdIdx := (b.rdIdx + 1) % b.capacity
    full := false }, ?_, ⟨h.length_eq, Nat.mod_lt _ hpos, ?_, hlt.le, ?_, ?_⟩, rfl⟩
  · simp [popUnsync, advanceRd, h.isEmpty_eq, h.holds.1]
  · rw [h.wr_eq, List.length_cons, Ring.succ_mod_add_mod]
  · simp [hlt.ne]
  · have hholds := h.holds.2
    rwa [h.length_eq] at hholds

theorem pushUnsync_spec (h : b.Stores xs) (hfree : xs.length ≠ b.capacity) (message : α) :
    ∃ b', b.pushUnsync message = some (some b') ∧ b'.Stores (xs ++ [message]) ∧
      b'.capacity = b.capacity := by
  have hlt : xs.length < b.capacity := lt_of_le_of_ne h.le hfree
  have hle : (xs ++ [message]).length ≤ b.capacity := by simpa using Nat.succ_le_of_lt hlt
  have hwr : (b.wrIdx + 1) % b.capacity =
      (b.rdIdx + (xs ++ [message]).length) % b.capacity := by
    rw [h.wr_eq, Nat.mod_add_mod, List.length_append, List.length_singleton, Nat.add_assoc]
  refine ⟨{ b with
    storage := b.storage.set b.wrIdx message
    wrIdx := (b.wrIdx + 1) % b.capacity
    full := (b.wrIdx + 1) % b.capacity = b.rdIdx }, ?_,
    ⟨by simp [h.length_eq], h.rd_lt, hwr, hle, ?_, ?_⟩, rfl⟩
  · simp [pushUnsync, advanceWr, h.isFull_eq, hfree, h.length_eq, h.wr_lt, assertThat]
  · have hiff := Ring.add_mod_eq_self_iff h.rd_lt hle
    rw [← hwr] at hiff
    simpa using hiff
  · have hholds := h.holds.push (by rw [h.length_eq]; exact h.rd_lt)
      (by rw [h.length_eq]; exact hlt) message
    rwa [h.length_eq, ← h.wr_eq] at hholds

theorem popAll_spec (h : b.Stores xs) {fuel : ℕ} (hfuel : xs.length < fuel) :
    ∃ b', popAll fuel b = some (xs, b') ∧ b'.Stores [] ∧
      b'.capacity = b.capacity := by
  induction xs generalizing b fuel with
  | nil =>
      obtain ⟨fuel, rfl⟩ := Nat.exists_eq_succ_of_ne_zero hfuel.ne'
      exact ⟨b, by simp [popAll, h.popUnsync_nil], h, rfl⟩
  | cons x xs ih =>
      obtain ⟨fuel, rfl⟩ := Nat.exists_eq_succ_of_ne_zero (Nat.ne_zero_of_lt hfuel)
      obtain ⟨b₁, hpop, hstores₁, hcap₁⟩ := h.popUnsync_cons
      obtain ⟨b₂, hpopAll, hstores₂, hcap₂⟩ := ih hstores₁ (by simpa using hfuel)
      exact ⟨b₂, by simp [popAll, hpop, hpopAll], hstores₂, hcap₂.trans hcap₁⟩

/-- Where an empty ring begins does not matter. -/
theorem reset (h : b.Stores ([] : List α)) :
    Stores { b with
      wrIdx := 0
      rdIdx := 0 } ([] : List α) :=
  ⟨h.length_eq, Nat.zero_lt_of_lt h.rd_lt, by simp, Nat.zero_le _, h.full_eq, trivial⟩

end Stores

end QuasiBuffer

end PosixThreads
