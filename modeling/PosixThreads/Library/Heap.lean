import Mathlib.Data.List.Basic
import Mathlib.Data.Nat.Basic
import Mathlib.Order.Basic

/-!
# Heaps of objects of one type

A heap is the list of the objects that were ever allocated, in this order, with
`none` for those that have been freed. The address of an object is its place in
this list, so that an address is never used twice and reading a freed object is an
error that can be seen.

Besides the reading lemmas there is `count`, the number of live objects with some
property, and how allocating, writing and freeing change it. This is what an
invariant about reference counts is stated with.
-/

/-- The objects of one type, by address. -/
structure Heap (α : Type*) where
  cells : List (Option α)
  deriving DecidableEq, Repr

namespace Heap

variable {α : Type*}

def empty : Heap α := ⟨[]⟩

def next (h : Heap α) : ℕ := h.cells.length

def get (h : Heap α) (p : ℕ) : Option α := h.cells[p]?.join

def alloc (h : Heap α) (x : α) : Heap α := ⟨h.cells ++ [some x]⟩

def set (h : Heap α) (p : ℕ) (x : α) : Heap α := ⟨h.cells.set p (some x)⟩

def free (h : Heap α) (p : ℕ) : Heap α := ⟨h.cells.set p none⟩

def count (P : α → Bool) (h : Heap α) : ℕ := h.cells.countP (·.any P)

section Get

variable {h : Heap α} {p q : ℕ} {x y : α}

@[simp] theorem get_empty (p : ℕ) : (empty : Heap α).get p = none := by
  simp [get, empty]

theorem lt_next_of_get (hp : h.get p = some x) : p < h.next := by
  by_contra hlt
  simp [get, List.getElem?_eq_none (not_lt.mp hlt)] at hp

theorem get_of_next_le (hp : h.next ≤ p) : h.get p = none := by
  simp [get, List.getElem?_eq_none hp]

theorem ne_next_of_get (hp : h.get p = some x) : p ≠ h.next :=
  (lt_next_of_get hp).ne

theorem getElem?_of_get (hp : h.get p = some x) : h.cells[p]? = some (some x) := by
  unfold get at hp
  cases hc : h.cells[p]? with
  | none => simp [hc] at hp
  | some c =>
      rw [hc] at hp
      simpa using hp

theorem get_alloc (h : Heap α) (x : α) (p : ℕ) :
    (h.alloc x).get p = if p = h.next then some x else h.get p := by
  rcases lt_trichotomy p h.next with hlt | rfl | hgt
  · have hlt' : p < h.cells.length := hlt
    simp [get, alloc, hlt.ne, List.getElem?_append_left hlt']
  · simp [get, alloc, next]
  · have hgt' : h.cells.length < p := hgt
    have hnone : (h.cells ++ [some x])[p]? = none :=
      List.getElem?_eq_none (by simp only [List.length_append, List.length_singleton]; omega)
    rw [if_neg hgt.ne', get, alloc, hnone, get_of_next_le hgt.le]
    rfl

@[simp] theorem get_alloc_next (h : Heap α) (x : α) : (h.alloc x).get h.next = some x := by
  simp [get_alloc]

theorem get_alloc_of_get (hp : h.get p = some x) : (h.alloc y).get p = some x := by
  rw [get_alloc, if_neg (ne_next_of_get hp), hp]

theorem get_set (hp : h.get p = some x) (y : α) (q : ℕ) :
    (h.set p y).get q = if q = p then some y else h.get q := by
  have hlt : p < h.cells.length := lt_next_of_get hp
  by_cases hq : q = p
  · subst hq
    simp [get, set, hlt]
  · simp [get, set, hq, List.getElem?_set_ne (Ne.symm hq)]

theorem get_set_self (hp : h.get p = some x) (y : α) : (h.set p y).get p = some y := by
  simp [get_set hp]

theorem get_set_of_ne (y : α) (hq : q ≠ p) : (h.set p y).get q = h.get q := by
  simp [get, set, List.getElem?_set_ne (Ne.symm hq)]

@[simp] theorem get_free_self (h : Heap α) (p : ℕ) : (h.free p).get p = none := by
  by_cases hlt : p < h.cells.length <;> simp [get, free, hlt]

theorem get_free_of_ne (h : Heap α) (hq : q ≠ p) : (h.free p).get q = h.get q := by
  simp [get, free, List.getElem?_set_ne (Ne.symm hq)]

/-- What is there after an object has been freed is another one. -/
theorem get_of_get_free (hq : (h.free p).get q = some x) : q ≠ p ∧ h.get q = some x := by
  by_cases hne : q = p
  · subst hne
    simp at hq
  · exact ⟨hne, by rwa [get_free_of_ne _ hne] at hq⟩

theorem set_self (hp : h.get p = some x) : h.set p x = h := by
  have hlt : p < h.cells.length := lt_next_of_get hp
  have hcell := getElem?_of_get hp
  rw [List.getElem?_eq_getElem hlt, Option.some.injEq] at hcell
  unfold set
  rw [← hcell, List.set_getElem_self]

@[simp] theorem next_set (h : Heap α) (p : ℕ) (x : α) : (h.set p x).next = h.next := by
  simp [next, set]

@[simp] theorem next_free (h : Heap α) (p : ℕ) : (h.free p).next = h.next := by
  simp [next, free]

@[simp] theorem next_alloc (h : Heap α) (x : α) : (h.alloc x).next = h.next + 1 := by
  simp [next, alloc]

end Get

section Count

variable {h : Heap α} {p : ℕ} {x : α} {P : α → Bool}

/-- Replacing one element of a list changes the count by that element alone. -/
theorem countP_set_add {β : Type*} (Q : β → Bool) {l : List β} {i : ℕ} {b : β}
    (hb : l[i]? = some b) (c : β) :
    (l.set i c).countP Q + (if Q b then 1 else 0) = l.countP Q + (if Q c then 1 else 0) := by
  obtain ⟨hlt, rfl⟩ := List.getElem?_eq_some_iff.mp hb
  have hle : (if Q l[i] then 1 else 0) ≤ l.countP Q := by
    split
    · rename_i hQ
      exact List.countP_pos_iff.mpr ⟨_, List.getElem_mem hlt, hQ⟩
    · exact Nat.zero_le _
  rw [List.countP_set hlt]
  omega

theorem count_alloc (P : α → Bool) (h : Heap α) (x : α) :
    (h.alloc x).count P = h.count P + if P x then 1 else 0 := by
  simp [count, alloc, List.countP_append, List.countP_singleton]

theorem count_set (P : α → Bool) (hp : h.get p = some x) (y : α) :
    (h.set p y).count P + (if P x then 1 else 0) = h.count P + if P y then 1 else 0 := by
  simpa [count, set] using countP_set_add (·.any P) (getElem?_of_get hp) (some y)

theorem count_free (P : α → Bool) (hp : h.get p = some x) :
    (h.free p).count P + (if P x then 1 else 0) = h.count P := by
  simpa [count, free] using countP_set_add (·.any P) (getElem?_of_get hp) none

@[simp] theorem count_empty (P : α → Bool) : (empty : Heap α).count P = 0 := rfl

theorem count_pos (hp : h.get p = some x) (hx : P x = true) : 0 < h.count P := by
  refine List.countP_pos_iff.mpr ⟨some x, ?_, by simpa using hx⟩
  exact List.mem_of_getElem? (getElem?_of_get hp)

theorem count_eq_zero (hP : ∀ {q : ℕ} {y : α}, h.get q = some y → P y = false) :
    h.count P = 0 := by
  refine List.countP_eq_zero.mpr fun c hc => ?_
  obtain ⟨q, hlt, rfl⟩ := List.getElem_of_mem hc
  cases hcell : h.cells[q] with
  | none => simp
  | some y =>
      have hget : h.get q = some y := by simp [get, hlt, hcell]
      simp [hP hget]

end Count

end Heap
