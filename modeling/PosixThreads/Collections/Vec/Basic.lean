import Mathlib.Algebra.Order.Ring.Nat
import PosixThreads.Common.Error
import PosixThreads.Common.Memory
import PosixThreads.Library.Block

/-!
# The vector

The functions of `vec.h` for elements of `size` bytes. The storage is a block of bytes, which are
indeterminate until they have been written; a null pointer is a block without cells. An assertion
that fails and an access outside of the storage have no result. Sums and products are those of
`size_t`.

`Vec.Represents` says that a vector has certain elements. An element is a list of `size` cells.
-/

namespace PosixThreads

/-- A byte in memory, or an indeterminate value. -/
abbrev Cell := Option UInt8

/-- The conversion of a number to `size_t`. -/
def sizeT (n : ℕ) : ℕ := n % 0x10000000000000000

def sizeSub (a b : ℕ) : ℕ := sizeT (a + 0x10000000000000000 - b)

theorem sizeT_of_lt {n : ℕ} (h : n < 0x10000000000000000) : sizeT n = n := Nat.mod_eq_of_lt h

theorem sizeSub_of_le {a b : ℕ} (ha : a < 0x10000000000000000) (h : b ≤ a) :
    sizeSub a b = a - b := by
  unfold sizeSub sizeT
  omega

abbrev Elem (size : ℕ) := { cells : List Cell // cells.length = size }

structure Vec where
  storage : List Cell
  capacity : ℕ
  len : ℕ
  deriving DecidableEq, Repr

def realloc (ok : Bool) (storage : List Cell) (bytes : ℕ) : Option (List Cell) :=
  if ok && bytes ≤ ptrdiffMax then some (Block.resize none storage bytes) else none

namespace Vec

def new : Vec := ⟨[], 0, 0⟩

def free (self : Vec) : Vec := if self.storage = [] then self else ⟨[], 0, 0⟩

def resize (size : ℕ) (ok : Bool) (self : Vec) (newCapacity : ℕ) :
    Option (Option CommonErrorCode × Vec) := do
  assertThat (self.len ≤ newCapacity)
  if newCapacity = 0 then return (none, self.free)
  else if self.capacity = newCapacity then return (none, self)
  else
    let bytes := sizeT (newCapacity * size)
    -- `realloc` frees the storage if the product has wrapped around to nothing
    if bytes = 0 ∧ self.storage ≠ [] then
      return (some .memoryAllocationFailure, { self with storage := [] })
    else
      match realloc ok self.storage bytes with
      | none => return (some .memoryAllocationFailure, self)
      | some storage => return (none, { self with storage := storage, capacity := newCapacity })

def enlarge (size : ℕ) (ok : Bool) (self : Vec) : Option (Option CommonErrorCode × Vec) :=
  resize size ok self (if self.capacity = 0 then 1 else sizeT (self.capacity * 2))

/-- The part of `insert` behind `enlarge`. -/
def insertAt (size : ℕ) (self : Vec) (pos : ℕ) (value : Elem size) : Option Vec := do
  let storage ← Block.move self.storage ((pos + 1) * size) (pos * size)
    (sizeT ((self.len - pos) * size))
  let storage ← Block.write storage (pos * size) value.val
  return { self with storage := storage, len := self.len + 1 }

def insert (size : ℕ) (ok : Bool) (self : Vec) (pos : ℕ) (value : Elem size) :
    Option (Option CommonErrorCode × Vec) := do
  assertThat (pos ≤ self.len)
  let (code, self) ←
    if self.capacity ≤ self.len then enlarge size ok self else some (none, self)
  match code with
  | some code => return (some code, self)
  | none => return (none, ← insertAt size self pos value)

def push (size : ℕ) (ok : Bool) (self : Vec) (value : Elem size) :
    Option (Option CommonErrorCode × Vec) :=
  insert size ok self self.len value

/-- The part of `append` and `append_slice` that makes room. -/
def reserve (size : ℕ) (ok : Bool) (self : Vec) (newLen : ℕ) :
    Option (Option CommonErrorCode × Vec) :=
  if self.capacity ≤ newLen then resize size ok self newLen else some (none, self)

/-- `append`. The other vector is `none` if it is the same one. It is read after the storage may
have moved, and as many bytes as it has elements are copied. -/
def append (size : ℕ) (ok : Bool) (self : Vec) (other : Option Vec) :
    Option (Option CommonErrorCode × Vec) := do
  let start := self.len
  let newLen := sizeT (start + (other.getD self).len)
  let (code, self) ← reserve size ok self newLen
  match code with
  | some code => return (some code, self)
  | none =>
      let source ← Block.read (other.getD self).storage 0 (other.getD self).len
      let storage ← Block.write self.storage (start * size) source
      return (none, { self with storage := storage, len := newLen })

/-- `append_slice`. The array at `begin` does not lie in the storage. -/
def appendSlice (size : ℕ) (ok : Bool) (self : Vec) (array : List Cell) (count : ℕ) :
    Option (Option CommonErrorCode × Vec) := do
  let start := self.len
  let len := sizeT (count * size)
  let newLen := sizeT (start + len)
  let (code, self) ← reserve size ok self newLen
  match code with
  | some code => return (some code, self)
  | none =>
      let source ← Block.read array 0 len
      let storage ← Block.write self.storage (start * size) source
      return (none, { self with storage := storage, len := newLen })

def remove (size : ℕ) (self : Vec) (pos : ℕ) : Option Vec := do
  assertThat (pos < self.len)
  let storage ← Block.move self.storage (pos * size) ((pos + 1) * size)
    (sizeT ((self.len - pos - 1) * size))
  return { self with storage := storage, len := self.len - 1 }

/-- `remove_slice`, which counts its bytes as `append` does. -/
def removeSlice (size : ℕ) (self : Vec) (start stop : ℕ) : Option Vec := do
  assertThat (start < stop)
  let stop := if stop > self.len then self.len else stop
  let count := sizeSub stop start
  let storage ← Block.move self.storage (start * size) ((start + stop) * size) count
  return { self with storage := storage, len := sizeSub self.len count }

def setLen (self : Vec) (newLen : ℕ) : Option Vec := do
  assertThat (newLen ≤ self.capacity)
  return { self with len := newLen }

/-- `*get_mut(self, pos) = value`, which follows a null pointer if there is no such element. -/
def setAt (size : ℕ) (self : Vec) (pos : ℕ) (value : Elem size) : Option Vec := do
  assertThat (pos < self.len)
  let storage ← Block.write self.storage (pos * size) value.val
  return { self with storage := storage }

/-! ## The elements of a vector -/

section Elements

variable {size : ℕ}

def cells (xs : List (Elem size)) : List Cell := xs.flatMap Subtype.val

@[simp] theorem cells_nil : cells ([] : List (Elem size)) = [] := rfl

@[simp] theorem cells_cons (x : Elem size) (xs : List (Elem size)) :
    cells (x :: xs) = x.val ++ cells xs := rfl

@[simp] theorem cells_append (xs ys : List (Elem size)) : cells (xs ++ ys) = cells xs ++ cells ys :=
  List.flatMap_append

@[simp] theorem length_cells (xs : List (Elem size)) : (cells xs).length = xs.length * size := by
  induction xs with
  | nil => simp
  | cons x xs ih =>
      rw [cells_cons, List.length_append, ih, x.property, List.length_cons, Nat.succ_mul,
        Nat.add_comm]

theorem length_cells_take {xs : List (Elem size)} {pos : ℕ} (hpos : pos ≤ xs.length) :
    (cells (xs.take pos)).length = pos * size := by
  rw [length_cells, List.length_take, min_eq_left hpos]

theorem cells_eq_around {xs : List (Elem size)} {pos : ℕ} (hpos : pos < xs.length) :
    cells xs = cells (xs.take pos) ++ (xs[pos].val ++ cells (xs.drop (pos + 1))) := by
  rw [← cells_cons, ← List.drop_eq_getElem_cons hpos, ← cells_append, List.take_append_drop]

end Elements

structure Represents {size : ℕ} (v : Vec) (xs : List (Elem size)) : Prop where
  storage : ∃ spare, v.storage = cells xs ++ spare
  len_eq : v.len = xs.length
  length_eq : v.storage.length = v.capacity * size
  le_max : v.capacity * size ≤ ptrdiffMax

def Grants (size : ℕ) (ok : Bool) (v : Vec) (n : ℕ) : Prop :=
  n = v.capacity ∨ n = 0 ∨ ok = true ∧ n * size ≤ ptrdiffMax

instance (size : ℕ) (ok : Bool) (v : Vec) (n : ℕ) : Decidable (Grants size ok v n) :=
  inferInstanceAs (Decidable (_ ∨ _ ∨ _))

def grown (size : ℕ) (v : Vec) (n : ℕ) : Vec :=
  { v with
    storage := Block.resize none v.storage (n * size)
    capacity := n }

namespace Represents

variable {size : ℕ} {v : Vec} {xs : List (Elem size)} {n : ℕ}

theorem new : Represents Vec.new ([] : List (Elem size)) :=
  ⟨⟨[], rfl⟩, rfl, by simp [Vec.new], by simp [Vec.new]⟩

theorem length_le (hrepr : Represents v xs) (hsize : 0 < size) : xs.length ≤ v.capacity := by
  obtain ⟨spare, hstorage⟩ := hrepr.storage
  have hlen := hrepr.length_eq
  rw [hstorage, List.length_append, length_cells] at hlen
  exact Nat.le_of_mul_le_mul_right (by omega) hsize

theorem capacity_le (hrepr : Represents v xs) (hsize : 0 < size) : v.capacity ≤ ptrdiffMax :=
  (Nat.le_mul_of_pos_right _ hsize).trans hrepr.le_max

/-- The elements are determined by the vector. -/
theorem cells_eq (hrepr : Represents v xs) : v.storage.take (v.len * size) = cells xs := by
  obtain ⟨spare, hstorage⟩ := hrepr.storage
  rw [hstorage, hrepr.len_eq, ← length_cells, List.take_left]

theorem sizeT_len_sub (hrepr : Represents v xs) (pos : ℕ) :
    sizeT ((v.len - pos) * size) = (cells (xs.drop pos)).length := by
  obtain ⟨spare, hstorage⟩ := hrepr.storage
  have hlen := hrepr.length_eq
  have hmax := hrepr.le_max
  have heq : (v.len - pos) * size = (cells (xs.drop pos)).length := by
    rw [length_cells, List.length_drop, hrepr.len_eq]
  have hle : (cells (xs.drop pos)).length ≤ (cells xs).length := by
    rw [length_cells, length_cells, List.length_drop]
    exact Nat.mul_le_mul_right size (Nat.sub_le _ _)
  rw [hstorage, List.length_append] at hlen
  rw [heq, sizeT_of_lt]
  unfold ptrdiffMax at hmax
  omega

theorem grown (hrepr : Represents v xs) (hn : xs.length ≤ n) (hmax : n * size ≤ ptrdiffMax) :
    Represents (grown size v n) xs := by
  obtain ⟨spare, hstorage⟩ := hrepr.storage
  have hfits : (cells xs).length ≤ n * size := by
    rw [length_cells]
    exact Nat.mul_le_mul_right size hn
  refine ⟨⟨Block.resize none spare (n * size - (cells xs).length), ?_⟩, hrepr.len_eq,
    Block.length_resize _ _ _, hmax⟩
  rw [Vec.grown, hstorage, Block.resize_append none hfits]

theorem grown_self (hrepr : Represents v xs) : Vec.grown size v v.capacity = v := by
  unfold Vec.grown Block.resize
  rw [← hrepr.length_eq, List.take_length, Nat.sub_self]
  simp

/-- `resize` fails if there is no memory, and then changes nothing. -/
theorem resize_eq (hrepr : Represents v xs) (ok : Bool) (hsize : 0 < size) (hn : xs.length ≤ n)
    (hfit : n * size < 0x10000000000000000) :
    resize size ok v n =
      some (if Grants size ok v n then (none, Vec.grown size v n)
        else (some .memoryAllocationFailure, v)) := by
  have hlen : v.len ≤ n := hrepr.len_eq ▸ hn
  simp only [resize, hlen, decide_true, assertThat_true, Option.bind_eq_bind, Option.bind_some]
  by_cases hzero : n = 0
  · subst hzero
    have hgrants : Grants size ok v 0 := .inr (.inl rfl)
    have hgrown : v.free = Vec.grown size v 0 := by
      have hlen0 : v.len = 0 := Nat.le_zero.mp hlen
      unfold free Vec.grown Block.resize
      split_ifs with hnull
      · have hcap : v.capacity = 0 := by
          have hmul := hrepr.length_eq
          rw [hnull, List.length_nil] at hmul
          exact (Nat.mul_eq_zero.mp hmul.symm).resolve_right hsize.ne'
        obtain ⟨storage, capacity, len⟩ := v
        simp only at hnull hcap
        simp [hnull, hcap]
      · simp [hlen0]
    rw [if_pos rfl, if_pos hgrants, hgrown]
    rfl
  · by_cases hsame : v.capacity = n
    · have hgrants : Grants size ok v n := .inl hsame.symm
      rw [if_neg hzero, if_pos hsame, if_pos hgrants, ← hsame, hrepr.grown_self]
      rfl
    · have hbytes : sizeT (n * size) = n * size := sizeT_of_lt hfit
      have hpos : n * size ≠ 0 := Nat.mul_ne_zero hzero hsize.ne'
      rw [if_neg hzero, if_neg hsame, hbytes, if_neg (not_and.mpr fun h => absurd h hpos)]
      by_cases hok : ok = true ∧ n * size ≤ ptrdiffMax
      · have hgrants : Grants size ok v n := .inr (.inr hok)
        rw [if_pos hgrants, realloc, if_pos (by simpa using hok)]
        rfl
      · have hrefuses : ¬Grants size ok v n := by
          rintro (heq | heq | heq)
          · exact hsame heq.symm
          · exact hzero heq
          · exact hok heq
        rw [if_neg hrefuses, realloc, if_neg (by simpa using hok)]
        rfl

theorem grants_le {ok : Bool} (hrepr : Represents v xs) (hgrants : Grants size ok v n) :
    n * size ≤ ptrdiffMax := by
  rcases hgrants with rfl | rfl | ⟨_, hmax⟩
  · exact hrepr.le_max
  · simp
  · exact hmax

/-- What `resize` leaves has the same elements, whether it fails or not. -/
theorem resize_spec (hrepr : Represents v xs) (ok : Bool) (hsize : 0 < size) (hn : xs.length ≤ n)
    (hfit : n * size < 0x10000000000000000) :
    resize size ok v n = some (some .memoryAllocationFailure, v) ∨
      resize size ok v n = some (none, Vec.grown size v n) ∧
        Represents (Vec.grown size v n) xs := by
  have heq := hrepr.resize_eq ok hsize hn hfit
  by_cases hgrants : Grants size ok v n
  · rw [if_pos hgrants] at heq
    exact .inr ⟨heq, hrepr.grown hn (hrepr.grants_le hgrants)⟩
  · rw [if_neg hgrants] at heq
    exact .inl heq

theorem storage_split (hrepr : Represents v xs) {pos : ℕ} (hpos : pos ≤ xs.length) :
    ∃ rest, v.storage = cells (xs.take pos) ++ rest ∧
      rest.length = v.capacity * size - pos * size ∧ (cells (xs.take pos)).length = pos * size := by
  obtain ⟨spare, hstorage⟩ := hrepr.storage
  have hlen := hrepr.length_eq
  refine ⟨cells (xs.drop pos) ++ spare, ?_, ?_, length_cells_take hpos⟩
  · rw [hstorage, ← List.append_assoc, ← cells_append, List.take_append_drop]
  · rw [hstorage] at hlen
    simp only [List.length_append, length_cells, List.length_drop, Nat.sub_mul] at hlen ⊢
    have hle : pos * size ≤ xs.length * size := Nat.mul_le_mul_right size hpos
    omega

theorem overwrite (hrepr : Represents v xs) {pos : ℕ} (hpos : pos ≤ xs.length)
    (ys : List (Elem size)) (hroom : pos + ys.length ≤ v.capacity) :
    ∃ storage, Block.write v.storage (pos * size) (cells ys) = some storage ∧
      Represents { v with storage := storage, len := pos + ys.length } (xs.take pos ++ ys) := by
  obtain ⟨rest, hstorage, hrest, htake⟩ := hrepr.storage_split hpos
  have hmul := Nat.mul_le_mul_right size hroom
  rw [Nat.add_mul] at hmul
  have hsplit : v.storage =
      cells (xs.take pos) ++ (rest.take (cells ys).length ++ rest.drop (cells ys).length) := by
    rw [List.take_append_drop, hstorage]
  have hlen : (cells ys).length = (rest.take (cells ys).length).length := by
    rw [List.length_take, length_cells, hrest]
    omega
  have hwrite := Block.write_part _ _ (rest.drop (cells ys).length) htake.symm hlen
  rw [← hsplit] at hwrite
  refine ⟨_, hwrite, ⟨rest.drop (cells ys).length, ?_⟩, ?_, ?_, hrepr.le_max⟩
  · rw [cells_append, List.append_assoc]
  · rw [List.length_append, List.length_take, min_eq_left hpos]
  · rw [Block.length_of_write hwrite, hrepr.length_eq]

theorem truncate (hrepr : Represents v xs) {len : ℕ} (hlen : len ≤ xs.length) :
    Represents { v with len := len } (xs.take len) := by
  obtain ⟨rest, hstorage, _, _⟩ := hrepr.storage_split hlen
  exact ⟨⟨rest, hstorage⟩, by rw [List.length_take, min_eq_left hlen], hrepr.length_eq,
    hrepr.le_max⟩

theorem setLen_eq (hrepr : Represents v xs) (hsize : 0 < size) {len : ℕ} (hlen : len ≤ xs.length) :
    setLen v len = some { v with len := len } := by
  have hcap : len ≤ v.capacity := hlen.trans (hrepr.length_le hsize)
  simp [setLen, hcap]

theorem insertAt_spec (hrepr : Represents v xs) {pos : ℕ} (hpos : pos ≤ xs.length)
    (hroom : xs.length < v.capacity) (value : Elem size) :
    ∃ v', insertAt size v pos value = some v' ∧ v'.capacity = v.capacity ∧
      Represents v' (xs.take pos ++ value :: xs.drop pos) := by
  obtain ⟨spare, hstorage⟩ := hrepr.storage
  have hlen := hrepr.length_eq
  have hmax := hrepr.le_max
  have hmul := Nat.mul_le_mul_right size (Nat.succ_le_of_lt hroom)
  rw [hstorage, List.length_append, length_cells] at hlen
  rw [Nat.succ_mul] at hmul
  set front := cells (xs.take pos) with hfront
  set back := cells (xs.drop pos) with hback
  have hcells : cells xs = front ++ back := by
    rw [hfront, hback, ← cells_append, List.take_append_drop]
  have hfrontlen : pos * size = front.length := (length_cells_take hpos).symm
  have hbacklen : sizeT ((v.len - pos) * size) = back.length := hrepr.sizeT_len_sub pos
  -- the hole of one element lies behind the front, whatever it holds
  obtain ⟨hole, moved, hhole, hholelen, hmovedlen⟩ : ∃ hole moved,
      back ++ spare.take size = hole ++ moved ∧ hole.length = size ∧
        moved.length = back.length := by
    have htake : (spare.take size).length = size := by
      rw [List.length_take]
      omega
    refine ⟨(back ++ spare.take size).take size, (back ++ spare.take size).drop size,
      (List.take_append_drop _ _).symm, ?_, ?_⟩
    · rw [List.length_take, List.length_append, htake]
      omega
    · rw [List.length_drop, List.length_append, htake]
      omega
  have hparts : v.storage = front ++ (back ++ spare) := by
    rw [hstorage, hcells, List.append_assoc]
  have hparts' : v.storage = (front ++ hole) ++ (moved ++ spare.drop size) := by
    rw [hparts, List.append_assoc, ← List.append_assoc hole, ← hhole, List.append_assoc,
      List.take_append_drop]
  have hread : Block.read v.storage (pos * size) (sizeT ((v.len - pos) * size)) = some back := by
    rw [hparts]
    exact Block.read_part _ _ _ hfrontlen hbacklen
  have hmove : Block.write v.storage ((pos + 1) * size) back =
      some ((front ++ hole) ++ (back ++ spare.drop size)) := by
    rw [hparts']
    refine Block.write_part _ _ _ ?_ hmovedlen.symm
    rw [List.length_append, hholelen, ← hfrontlen, Nat.succ_mul]
  have hassign : Block.write ((front ++ hole) ++ (back ++ spare.drop size)) (pos * size) value.val =
      some (front ++ (value.val ++ (back ++ spare.drop size))) := by
    rw [List.append_assoc]
    exact Block.write_part _ _ _ hfrontlen (value.property.trans hholelen.symm)
  refine ⟨{ v with
      storage := front ++ (value.val ++ (back ++ spare.drop size))
      len := v.len + 1 }, ?_, rfl, ⟨spare.drop size, ?_⟩, ?_, ?_, hmax⟩
  · simp only [insertAt, Block.move, hread, hmove, hassign, Option.bind_eq_bind, Option.bind_some]
    rfl
  · rw [cells_append, cells_cons, ← hfront, ← hback]
    simp only [List.append_assoc]
  · change v.len + 1 = _
    rw [hrepr.len_eq, List.length_append, List.length_cons, List.length_take, List.length_drop]
    omega
  · rw [Block.length_of_write hassign, Block.length_of_write hmove, hrepr.length_eq]

/-- `insert` fails if the vector is full and cannot be enlarged, and then changes nothing. -/
theorem insert_spec (hrepr : Represents v xs) (ok : Bool) (hsize : 0 < size)
    (hobject : size ≤ ptrdiffMax) {pos : ℕ} (hpos : pos ≤ xs.length) (value : Elem size) :
    insert size ok v pos value = some (some .memoryAllocationFailure, v) ∧
        v.capacity = xs.length ∧ (ok = true → ptrdiffMax < (2 * xs.length + 1) * size) ∨
      ∃ v', insert size ok v pos value = some (none, v') ∧
        Represents v' (xs.take pos ++ value :: xs.drop pos) := by
  have hassert : pos ≤ v.len := hrepr.len_eq ▸ hpos
  have hle := hrepr.length_le hsize
  simp only [insert, hassert, decide_true, assertThat_true, Option.bind_eq_bind, Option.bind_some]
  by_cases hfull : v.capacity ≤ v.len
  · have hcap : v.capacity = xs.length := le_antisymm (hrepr.len_eq ▸ hfull) hle
    have hmax := hrepr.capacity_le hsize
    have hbytes := hrepr.le_max
    unfold ptrdiffMax at hmax hbytes hobject
    obtain ⟨n, hn, hmore, hless, hfit⟩ :
        ∃ n, (if v.capacity = 0 then 1 else sizeT (v.capacity * 2)) = n ∧ xs.length < n ∧
          n ≤ 2 * xs.length + 1 ∧ n * size < 0x10000000000000000 := by
      by_cases hzero : v.capacity = 0
      · exact ⟨1, if_pos hzero, by omega, by omega, by omega⟩
      · refine ⟨v.capacity * 2, ?_, by omega, by omega, ?_⟩
        · rw [if_neg hzero, sizeT_of_lt (by omega)]
        · rw [Nat.mul_right_comm]
          omega
    rw [if_pos hfull, enlarge, hn, hrepr.resize_eq ok hsize hmore.le hfit]
    by_cases hgrants : Grants size ok v n
    · obtain ⟨v', hinsert, _, hrepr'⟩ :=
        (hrepr.grown hmore.le (hrepr.grants_le hgrants)).insertAt_spec hpos hmore value
      rw [if_pos hgrants]
      refine .inr ⟨v', ?_, hrepr'⟩
      simp only [Option.bind_some, hinsert]
      rfl
    · rw [if_neg hgrants]
      refine .inl ⟨rfl, hcap, fun hok => ?_⟩
      have hmore : ptrdiffMax < n * size := not_le.mp fun hle => hgrants (.inr (.inr ⟨hok, hle⟩))
      exact hmore.trans_le (Nat.mul_le_mul_right size hless)
  · obtain ⟨v', hinsert, _, hrepr'⟩ :=
      hrepr.insertAt_spec hpos (hrepr.len_eq ▸ not_le.mp hfull) value
    rw [if_neg hfull]
    refine .inr ⟨v', ?_, hrepr'⟩
    simp only [Option.bind_some, hinsert]
    rfl

theorem push_spec (hrepr : Represents v xs) (ok : Bool) (hsize : 0 < size)
    (hobject : size ≤ ptrdiffMax) (value : Elem size) :
    push size ok v value = some (some .memoryAllocationFailure, v) ∧
        v.capacity = xs.length ∧ (ok = true → ptrdiffMax < (2 * xs.length + 1) * size) ∨
      ∃ v', push size ok v value = some (none, v') ∧ Represents v' (xs ++ [value]) := by
  have hspec := hrepr.insert_spec ok hsize hobject le_rfl value
  rw [List.take_length, List.drop_length] at hspec
  rw [push, hrepr.len_eq]
  exact hspec

theorem remove_spec (hrepr : Represents v xs) {pos : ℕ} (hpos : pos < xs.length) :
    ∃ v', remove size v pos = some v' ∧ v'.capacity = v.capacity ∧
      Represents v' (xs.take pos ++ xs.drop (pos + 1)) := by
  obtain ⟨spare, hstorage⟩ := hrepr.storage
  have hlen := hrepr.length_eq
  have hmax := hrepr.le_max
  have hassert : pos < v.len := hrepr.len_eq ▸ hpos
  set front := cells (xs.take pos) with hfront
  set back := cells (xs.drop (pos + 1)) with hback
  have hcells : cells xs = front ++ (xs[pos].val ++ back) := cells_eq_around hpos
  have hfrontlen : pos * size = front.length := (length_cells_take hpos.le).symm
  have hbacklen : sizeT ((v.len - pos - 1) * size) = back.length := by
    rw [Nat.sub_sub]
    exact hrepr.sizeT_len_sub (pos + 1)
  -- the element and what is behind it, cut so that what is behind it fits in front
  obtain ⟨dest, rest, hdest, hdestlen⟩ : ∃ dest rest,
      xs[pos].val ++ back = dest ++ rest ∧ dest.length = back.length := by
    refine ⟨(xs[pos].val ++ back).take back.length, (xs[pos].val ++ back).drop back.length,
      (List.take_append_drop _ _).symm, ?_⟩
    rw [List.length_take, List.length_append]
    omega
  have hparts : v.storage = (front ++ xs[pos].val) ++ (back ++ spare) := by
    rw [hstorage, hcells]
    simp only [List.append_assoc]
  have hparts' : v.storage = front ++ (dest ++ (rest ++ spare)) := by
    rw [hstorage, hcells, hdest]
    simp only [List.append_assoc]
  have hread : Block.read v.storage ((pos + 1) * size) (sizeT ((v.len - pos - 1) * size)) =
      some back := by
    rw [hparts]
    refine Block.read_part _ _ _ ?_ hbacklen
    rw [List.length_append, xs[pos].property, ← hfrontlen, Nat.succ_mul]
  have hwrite : Block.write v.storage (pos * size) back =
      some (front ++ (back ++ (rest ++ spare))) := by
    rw [hparts']
    exact Block.write_part _ _ _ hfrontlen hdestlen.symm
  refine ⟨{ v with storage := front ++ (back ++ (rest ++ spare)), len := v.len - 1 }, ?_, rfl,
    ⟨rest ++ spare, ?_⟩, ?_, ?_, hmax⟩
  · simp only [remove, hassert, decide_true, assertThat_true, Block.move, hread, hwrite,
      Option.bind_eq_bind, Option.bind_some]
    rfl
  · rw [cells_append, ← hfront, ← hback]
    simp only [List.append_assoc]
  · change v.len - 1 = _
    rw [hrepr.len_eq, List.length_append, List.length_take, List.length_drop]
    omega
  · rw [Block.length_of_write hwrite, hlen]

theorem setAt_spec (hrepr : Represents v xs) {pos : ℕ} (hpos : pos < xs.length)
    (value : Elem size) :
    ∃ v', setAt size v pos value = some v' ∧ v'.capacity = v.capacity ∧
      Represents v' (xs.take pos ++ value :: xs.drop (pos + 1)) := by
  obtain ⟨spare, hstorage⟩ := hrepr.storage
  have hassert : pos < v.len := hrepr.len_eq ▸ hpos
  have hwrite : Block.write v.storage (pos * size) value.val =
      some (cells (xs.take pos) ++ (value.val ++ (cells (xs.drop (pos + 1)) ++ spare))) := by
    rw [hstorage, cells_eq_around hpos, List.append_assoc, List.append_assoc]
    exact Block.write_part _ _ _ (length_cells_take hpos.le).symm
      (value.property.trans xs[pos].property.symm)
  refine ⟨{ v with
      storage := cells (xs.take pos) ++ (value.val ++ (cells (xs.drop (pos + 1)) ++ spare)) },
    ?_, rfl, ⟨spare, ?_⟩, ?_, ?_, hrepr.le_max⟩
  · simp only [setAt, hassert, decide_true, assertThat_true, hwrite, Option.bind_eq_bind,
      Option.bind_some]
    rfl
  · rw [cells_append, cells_cons]
    simp only [List.append_assoc]
  · change v.len = _
    rw [hrepr.len_eq, List.length_append, List.length_cons, List.length_take, List.length_drop]
    omega
  · rw [Block.length_of_write hwrite, hrepr.length_eq]

end Represents

end Vec

end PosixThreads
