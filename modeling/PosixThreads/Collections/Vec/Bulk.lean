import PosixThreads.Collections.Vec.Basic

/-!
# Appending and removing many elements

`append` and `remove_slice` count elements where `memmove` wants bytes, and `append_slice` counts
bytes where the length wants elements. What each of them does is compared here with what it
should do. For elements of one byte the two counts are the same; otherwise it depends on what
the bytes hold that are not copied.
-/

namespace PosixThreads

namespace Vec

variable {size : ℕ}

/-! ## Room for more elements -/

/-- The vector for `n` elements, which keeps a larger storage. -/
def reserved (size : ℕ) (v : Vec) (n : ℕ) : Vec := if v.capacity ≤ n then grown size v n else v

theorem le_reserved (size : ℕ) (v : Vec) (n : ℕ) : v.capacity ≤ (reserved size v n).capacity := by
  unfold reserved
  split
  · assumption
  · exact le_rfl

def Reserves (size : ℕ) (ok : Bool) (v : Vec) (n : ℕ) : Prop :=
  n < v.capacity ∨ Grants size ok v n

instance (size : ℕ) (ok : Bool) (v : Vec) (n : ℕ) : Decidable (Reserves size ok v n) :=
  inferInstanceAs (Decidable (_ ∨ _))

/-- What is left of a vector with the elements `xs` that should have got the elements `zs`. It has
them, or there has been no memory and it has what it had. -/
def Becomes (result : Option (Option CommonErrorCode × Vec)) (xs zs : List (Elem size)) : Prop :=
  ∃ code v', result = some (code, v') ∧ Represents v' (if code = none then zs else xs)

/-- The bytes of the elements `ys` that `append` does not copy stand in their places already. -/
def Coincides (ok : Bool) (v : Vec) (xs ys : List (Elem size)) : Prop :=
  Reserves size ok v (xs.length + ys.length) →
    (cells ys).drop ys.length <+:
      (reserved size v (xs.length + ys.length)).storage.drop (xs.length * size + ys.length)

/-- There is no memory for `n` elements, and `realloc` has not taken their size for nothing. -/
def Denies (size : ℕ) (ok : Bool) (v : Vec) (n : ℕ) : Prop :=
  v.capacity < n ∧ realloc ok v.storage (sizeT (n * size)) = none ∧
    (sizeT (n * size) = 0 → v.storage = [])

/-- The bytes of the elements behind `stop` stand where `remove_slice` looks for them, and it looks
into the storage only. The first `stop - start` of them are taken from `start + stop`, the other
ones are not moved. -/
def Shifts (size : ℕ) (v : Vec) (start stop : ℕ) : Prop :=
  (start = stop ∨ (start + stop) * size + (stop - start) ≤ v.storage.length) ∧
    ∀ i < (v.len - stop) * size,
      v.storage[(if i < stop - start then start + stop else start) * size + i]? =
        v.storage[stop * size + i]?

namespace Represents

variable {v w : Vec} {other : Option Vec} {xs ys : List (Elem size)} {n : ℕ} {ok : Bool}

theorem reserve_eq (hrepr : Represents v xs) (hsize : 0 < size) (hn : xs.length ≤ n)
    (hfit : n * size < 0x10000000000000000) :
    reserve size ok v n =
      some (if Reserves size ok v n then (none, reserved size v n)
        else (some .memoryAllocationFailure, v)) := by
  unfold reserve
  by_cases hcap : v.capacity ≤ n
  · have hiff : Reserves size ok v n ↔ Grants size ok v n := or_iff_right (not_lt.mpr hcap)
    rw [if_pos hcap, hrepr.resize_eq ok hsize hn hfit, reserved, if_pos hcap]
    simp only [hiff]
  · have hreserves : Reserves size ok v n := .inl (not_le.mp hcap)
    rw [if_neg hcap, if_pos hreserves, reserved, if_neg hcap]

theorem reserved (hrepr : Represents v xs) (hn : xs.length ≤ n) (hreserves : Reserves size ok v n) :
    Represents (reserved size v n) xs ∧ n ≤ (Vec.reserved size v n).capacity := by
  by_cases hcap : v.capacity ≤ n
  · have hgrants : Grants size ok v n := hreserves.resolve_left (not_lt.mpr hcap)
    rw [Vec.reserved, if_pos hcap]
    exact ⟨hrepr.grown hn (hrepr.grants_le hgrants), le_refl n⟩
  · rw [Vec.reserved, if_neg hcap]
    exact ⟨hrepr, (not_le.mp hcap).le⟩

theorem cells_injective {xs ys : List (Elem size)} (hlen : xs.length = ys.length)
    (h : cells xs = cells ys) : xs = ys := by
  induction xs generalizing ys with
  | nil => exact (List.length_eq_zero_iff.mp hlen.symm).symm
  | cons x xs ih =>
      cases ys with
      | nil => simp at hlen
      | cons y ys =>
          rw [cells_cons, cells_cons] at h
          obtain ⟨hx, hrest⟩ := List.append_inj h (x.property.trans y.property.symm)
          rw [Subtype.ext hx, ih (Nat.succ.inj hlen) hrest]

theorem unique (hxs : Represents v xs) (hys : Represents v ys) : xs = ys :=
  cells_injective (hxs.len_eq.symm.trans hys.len_eq) (hxs.cells_eq.symm.trans hys.cells_eq)

theorem read_front (hrepr : Represents v xs) {count : ℕ} (hcount : count ≤ xs.length * size) :
    Block.read v.storage 0 count = some ((cells xs).take count) := by
  obtain ⟨spare, hstorage⟩ := hrepr.storage
  have hsplit : v.storage = [] ++ ((cells xs).take count ++ ((cells xs).drop count ++ spare)) := by
    rw [List.nil_append, ← List.append_assoc, List.take_append_drop, hstorage]
  rw [hsplit]
  refine Block.read_part _ _ _ rfl ?_
  rw [List.length_take, length_cells, min_eq_left hcount]

theorem other_reserved (hother : Represents (other.getD v) ys) (hrepr : Represents v xs)
    (hn : xs.length ≤ n) (hreserves : Reserves size ok v n) :
    Represents (other.getD (Vec.reserved size v n)) ys := by
  cases other with
  | none =>
      obtain rfl : xs = ys := hrepr.unique hother
      exact (hrepr.reserved hn hreserves).1
  | some w => exact hother

/-! ## Appending a vector -/

/-- The sizes of two vectors can be added. -/
theorem bytes_fit (hrepr : Represents v xs) (hother : Represents w ys) (hsize : 0 < size) :
    (xs.length + ys.length) * size < 0x10000000000000000 := by
  have hxs := (Nat.mul_le_mul_right size (hrepr.length_le hsize)).trans hrepr.le_max
  have hys := (Nat.mul_le_mul_right size (hother.length_le hsize)).trans hother.le_max
  unfold ptrdiffMax at hxs hys
  rw [Nat.add_mul]
  omega

theorem sizeT_len_add (hrepr : Represents v xs) (hother : Represents w ys) (hsize : 0 < size) :
    sizeT (v.len + w.len) = xs.length + ys.length := by
  rw [hrepr.len_eq, hother.len_eq]
  exact sizeT_of_lt
    ((Nat.le_mul_of_pos_right _ hsize).trans_lt (hrepr.bytes_fit hother hsize))

theorem append_refused (hrepr : Represents v xs) (hother : Represents (other.getD v) ys)
    (hsize : 0 < size) (hrefused : ¬Reserves size ok v (xs.length + ys.length)) :
    append size ok v other = some (some .memoryAllocationFailure, v) := by
  simp only [append, hrepr.sizeT_len_add hother hsize,
    hrepr.reserve_eq hsize (Nat.le_add_right _ _) (hrepr.bytes_fit hother hsize),
    if_neg hrefused, Option.bind_eq_bind, Option.bind_some]
  rfl

/-- With memory, `append` writes the first bytes of the other elements only. -/
theorem append_eq (hrepr : Represents v xs) (hother : Represents (other.getD v) ys)
    (hsize : 0 < size) (hreserves : Reserves size ok v (xs.length + ys.length)) :
    ∃ storage,
      Block.write (Vec.reserved size v (xs.length + ys.length)).storage (xs.length * size)
        ((cells ys).take ys.length) = some storage ∧
      append size ok v other =
        some (none, ⟨storage, (Vec.reserved size v (xs.length + ys.length)).capacity,
          xs.length + ys.length⟩) := by
  have hle : xs.length ≤ xs.length + ys.length := Nat.le_add_right _ _
  obtain ⟨hroom, hcap⟩ := hrepr.reserved hle hreserves
  have hsource := hother.other_reserved hrepr hle hreserves
  have hfew : ys.length ≤ ys.length * size := Nat.le_mul_of_pos_right _ hsize
  have hmul := Nat.mul_le_mul_right size hcap
  rw [← hroom.length_eq, Nat.add_mul] at hmul
  have htake : ((cells ys).take ys.length).length = ys.length := by
    rw [List.length_take, length_cells, min_eq_left hfew]
  have hread := hsource.read_front hfew
  have hfits : xs.length * size + ((cells ys).take ys.length).length ≤
      (Vec.reserved size v (xs.length + ys.length)).storage.length := by
    omega
  have hwrite := Block.write_eq hfits
  refine ⟨_, hwrite, ?_⟩
  simp only [append, hrepr.sizeT_len_add hother hsize,
    hrepr.reserve_eq hsize hle (hrepr.bytes_fit hother hsize), if_pos hreserves, hsource.len_eq,
    hread, Option.bind_eq_bind, Option.bind_some]
  rw [hrepr.len_eq, hwrite]
  rfl

theorem becomes_some {code : Option CommonErrorCode} {zs : List (Elem size)} :
    Becomes (some (code, v)) xs zs ↔ Represents v (if code = none then zs else xs) := by
  constructor
  · rintro ⟨code', v', heq, hrepr⟩
    obtain ⟨rfl, rfl⟩ := Prod.mk.inj (Option.some.inj heq)
    exact hrepr
  · intro hrepr
    exact ⟨code, v, rfl, hrepr⟩

/-- `append` makes the concatenation if the elements have one byte, if there is nothing to append,
or if what is not copied stands there by accident. -/
theorem append_iff (hrepr : Represents v xs) (hother : Represents (other.getD v) ys)
    (hsize : 0 < size) :
    Becomes (append size ok v other) xs (xs ++ ys) ↔ Coincides ok v xs ys := by
  have hle : xs.length ≤ xs.length + ys.length := Nat.le_add_right _ _
  by_cases hreserves : Reserves size ok v (xs.length + ys.length)
  · obtain ⟨storage, hwrite, happend⟩ := hrepr.append_eq hother hsize hreserves
    obtain ⟨hroom, hcap⟩ := hrepr.reserved hle hreserves
    have hlength := hroom.length_eq
    obtain ⟨spare, hspare⟩ := hroom.storage
    have hfew : ys.length ≤ ys.length * size := Nat.le_mul_of_pos_right _ hsize
    have hmul := Nat.mul_le_mul_right size hcap
    rw [← hlength, hspare, List.length_append, length_cells, Nat.add_mul] at hmul
    have hstorage : storage =
        cells xs ++ ((cells ys).take ys.length ++ spare.drop ys.length) := by
      have hsame : ((cells ys).take ys.length).length = (spare.take ys.length).length := by
        rw [List.length_take, List.length_take, length_cells]
        omega
      have hpart := Block.write_part (cells xs) (spare.take ys.length) (spare.drop ys.length)
        (length_cells xs).symm hsame
      rw [List.take_append_drop, ← hspare, hwrite] at hpart
      exact Option.some.inj hpart
    have hcells : cells (xs ++ ys) =
        cells xs ++ ((cells ys).take ys.length ++ (cells ys).drop ys.length) := by
      rw [cells_append, List.take_append_drop]
    have hdrop : (Vec.reserved size v (xs.length + ys.length)).storage.drop
        (xs.length * size + ys.length) = spare.drop ys.length := by
      rw [hspare, ← length_cells xs, List.drop_append]
      simp
    rw [happend, becomes_some, if_pos rfl, Coincides, hdrop]
    constructor
    · rintro ⟨⟨rest, hrest⟩, _, _, _⟩ _
      have hprefix : cells (xs ++ ys) <+: storage := ⟨rest, hrest.symm⟩
      rw [hstorage, hcells, List.prefix_append_right_inj, List.prefix_append_right_inj] at hprefix
      exact hprefix
    · intro hprefix
      obtain ⟨rest, hrest⟩ := hprefix hreserves
      refine ⟨⟨rest, ?_⟩, List.length_append.symm, ?_, hroom.le_max⟩
      · change storage = _
        rw [hstorage, hcells, List.append_assoc, List.append_assoc, hrest]
      · exact (Block.length_of_write hwrite).trans hlength
  · rw [hrepr.append_refused hother hsize hreserves, becomes_some, if_neg (by simp)]
    exact iff_of_true hrepr fun h => absurd h hreserves

theorem append_spec {xs ys : List (Elem 1)} (hrepr : Represents v xs) (ok : Bool)
    (other : Option Vec) (hother : Represents (other.getD v) ys) :
    append 1 ok v other = some (some .memoryAllocationFailure, v) ∨
      ∃ v', append 1 ok v other = some (none, v') ∧ Represents v' (xs ++ ys) := by
  by_cases hreserves : Reserves 1 ok v (xs.length + ys.length)
  · obtain ⟨storage, _, happend⟩ := hrepr.append_eq hother Nat.one_pos hreserves
    have hcoincides : Coincides ok v xs ys := by
      intro _
      rw [List.drop_eq_nil_of_le (by rw [length_cells, Nat.mul_one])]
      exact List.nil_prefix
    have hbecomes := (hrepr.append_iff hother Nat.one_pos).mpr hcoincides
    rw [happend, becomes_some, if_pos rfl] at hbecomes
    exact .inr ⟨_, happend, hbecomes⟩
  · exact .inl (hrepr.append_refused hother Nat.one_pos hreserves)

/-! ## Appending an array -/

/-- Where bytes and elements are the same, `append_slice` makes the concatenation or fails, and
then changes nothing. -/
theorem appendSlice_spec (hrepr : Represents v xs) (ok : Bool) (hsize : 0 < size)
    (hobject : ys.length * size ≤ ptrdiffMax) (hcount : ys.length * size = ys.length) :
    appendSlice size ok v (cells ys) ys.length = some (some .memoryAllocationFailure, v) ∨
      ∃ v', appendSlice size ok v (cells ys) ys.length = some (none, v') ∧
        v.capacity ≤ v'.capacity ∧ Represents v' (xs ++ ys) := by
  have hbytes : sizeT (ys.length * size) = ys.length := by
    rw [hcount, sizeT_of_lt]
    unfold ptrdiffMax at hobject
    omega
  have hxs := (Nat.mul_le_mul_right size (hrepr.length_le hsize)).trans hrepr.le_max
  have hfit : (xs.length + ys.length) * size < 0x10000000000000000 := by
    unfold ptrdiffMax at hxs hobject
    rw [Nat.add_mul]
    omega
  have hlen : sizeT (v.len + ys.length) = xs.length + ys.length := by
    rw [hrepr.len_eq]
    exact sizeT_of_lt ((Nat.le_mul_of_pos_right _ hsize).trans_lt hfit)
  have hread : Block.read (cells ys) 0 ys.length = some (cells ys) := by
    have hall : ys.length = (cells ys).length := by rw [length_cells, hcount]
    have hpart := Block.read_part [] (cells ys) [] (List.length_nil).symm hall
    rwa [List.nil_append, List.append_nil] at hpart
  have hle : xs.length ≤ xs.length + ys.length := Nat.le_add_right _ _
  simp only [appendSlice, hbytes, hlen, hrepr.reserve_eq hsize hle hfit, Option.bind_eq_bind,
    Option.bind_some]
  by_cases hreserves : Reserves size ok v (xs.length + ys.length)
  · obtain ⟨hroom, hcap⟩ := hrepr.reserved hle hreserves
    obtain ⟨storage, hwrite, hrepr'⟩ := hroom.overwrite le_rfl ys hcap
    rw [if_pos hreserves]
    simp only [hread, hrepr.len_eq, hwrite, Option.bind_some]
    rw [List.take_length] at hrepr'
    exact .inr ⟨_, rfl, le_reserved size v _, hrepr'⟩
  · rw [if_neg hreserves]
    exact .inl rfl

theorem resize_of_lt (hrepr : Represents v xs) (hn : xs.length ≤ n) (hcap : v.capacity < n) :
    resize size ok v n =
      if sizeT (n * size) = 0 ∧ v.storage ≠ [] then
        some (some .memoryAllocationFailure, { v with storage := [] })
      else
        match realloc ok v.storage (sizeT (n * size)) with
        | none => some (some .memoryAllocationFailure, v)
        | some storage => some (none, { v with storage := storage, capacity := n }) := by
  have hlen : v.len ≤ n := hrepr.len_eq ▸ hn
  have hzero : n ≠ 0 := (Nat.zero_lt_of_lt hcap).ne'
  simp only [resize, hlen, decide_true, assertThat_true, Option.bind_eq_bind, Option.bind_some,
    if_neg hzero, if_neg hcap.ne]
  rfl

theorem reserve_denied (hrepr : Represents v xs) (hn : xs.length ≤ n)
    (hdenies : Denies size ok v n) :
    reserve size ok v n = some (some .memoryAllocationFailure, v) := by
  obtain ⟨hcap, hrealloc, hkept⟩ := hdenies
  have hnot : ¬(sizeT (n * size) = 0 ∧ v.storage ≠ []) := fun h => h.2 (hkept h.1)
  rw [reserve, if_pos hcap.le, hrepr.resize_of_lt hn hcap, if_neg hnot, hrealloc]

/-- A vector that keeps its elements when `reserve` fails has been denied the memory. -/
theorem denies_of_reserve {u : Vec} {code : CommonErrorCode} (hrepr : Represents v xs)
    (hrepr' : Represents u xs) (hn : xs.length ≤ n)
    (hreserve : reserve size ok v n = some (some code, u)) : Denies size ok v n := by
  unfold reserve at hreserve
  have hle : v.capacity ≤ n := by
    by_contra hlt
    rw [if_neg hlt] at hreserve
    simp at hreserve
  rw [if_pos hle] at hreserve
  have hcap : v.capacity < n := by
    refine lt_of_le_of_ne hle fun heq => ?_
    have hlen : v.len ≤ n := hrepr.len_eq ▸ hn
    simp only [resize, hlen, decide_true, assertThat_true, Option.bind_eq_bind, Option.bind_some,
      if_pos heq] at hreserve
    split at hreserve <;> simp at hreserve
  rw [hrepr.resize_of_lt hn hcap] at hreserve
  split at hreserve
  · rename_i hfreed
    -- the storage is gone, but not the capacity
    obtain ⟨_, rfl⟩ := Prod.mk.inj (Option.some.inj hreserve)
    have hlength : v.storage.length = 0 := hrepr.length_eq.trans hrepr'.length_eq.symm
    exact absurd (List.length_eq_zero_iff.mp hlength) hfreed.2
  · rename_i hkept
    split at hreserve
    · rename_i hrealloc
      exact ⟨hcap, hrealloc, fun hzero => not_not.mp fun hnull => hkept ⟨hzero, hnull⟩⟩
    · simp at hreserve

/-- Where there are more bytes than elements, `append_slice` can only fail. -/
theorem appendSlice_some (hcount : ys.length * size ≠ ys.length)
    (hbytes : sizeT (ys.length * size) = ys.length * size)
    (hlen : sizeT (v.len + ys.length * size) = xs.length + ys.length * size)
    (hresult : Becomes (appendSlice size ok v (cells ys) ys.length) xs (xs ++ ys)) :
    ∃ code v', reserve size ok v (xs.length + ys.length * size) = some (some code, v') ∧
      Represents v' xs := by
  obtain ⟨code, v', hsome, hrepr'⟩ := hresult
  simp only [appendSlice, hbytes, hlen, Option.bind_eq_bind, Option.bind_eq_some_iff] at hsome
  obtain ⟨⟨failure, u⟩, hreserve, hsome⟩ := hsome
  cases failure with
  | some failure =>
      obtain ⟨rfl, rfl⟩ := Prod.mk.inj (Option.some.inj hsome)
      exact ⟨failure, u, hreserve, hrepr'⟩
  | none =>
      simp only [Option.bind_eq_some_iff] at hsome
      obtain ⟨source, _, storage, _, hsome⟩ := hsome
      obtain ⟨rfl, rfl⟩ := Prod.mk.inj (Option.some.inj hsome)
      have hwrong : xs.length + ys.length * size = (xs ++ ys).length := hrepr'.len_eq
      rw [List.length_append] at hwrong
      exact absurd (Nat.add_left_cancel hwrong) hcount

/-- `append_slice` makes the concatenation if the elements have one byte or if there is nothing to
append. Otherwise it has the wrong length unless it fails. -/
theorem appendSlice_iff (hrepr : Represents v xs) (hsize : 0 < size)
    (hobject : ys.length * size ≤ ptrdiffMax) :
    Becomes (appendSlice size ok v (cells ys) ys.length) xs (xs ++ ys) ↔
      size = 1 ∨ ys = [] ∨ Denies size ok v (xs.length + ys.length * size) := by
  by_cases hcount : ys.length * size = ys.length
  · have hsame : size = 1 ∨ ys = [] := by
      rcases Nat.eq_zero_or_pos ys.length with hzero | hpos
      · exact .inr (List.length_eq_zero_iff.mp hzero)
      · exact .inl (Nat.eq_of_mul_eq_mul_left hpos (hcount.trans (Nat.mul_one _).symm))
    refine iff_of_true ?_ (hsame.imp_right .inl)
    rcases hrepr.appendSlice_spec ok hsize hobject hcount with
      hfail | ⟨v', happend, _, hrepr'⟩
    · exact ⟨_, v, hfail, hrepr⟩
    · exact ⟨none, v', happend, hrepr'⟩
  · have hone : size ≠ 1 := fun h =>
      hcount ((congrArg (ys.length * ·) h).trans (Nat.mul_one _))
    have hsome : ys ≠ [] := fun h => hcount (by simp [h])
    rw [or_iff_right hone, or_iff_right hsome]
    have hbytes : sizeT (ys.length * size) = ys.length * size := by
      rw [sizeT_of_lt]
      unfold ptrdiffMax at hobject
      omega
    have hxs := (hrepr.length_le hsize).trans (hrepr.capacity_le hsize)
    have hlen : sizeT (v.len + ys.length * size) = xs.length + ys.length * size := by
      rw [hrepr.len_eq, sizeT_of_lt]
      unfold ptrdiffMax at hobject hxs
      omega
    constructor
    · intro hresult
      obtain ⟨code, v', hreserve, hrepr'⟩ :=
        appendSlice_some hcount hbytes hlen hresult
      exact hrepr.denies_of_reserve hrepr' (Nat.le_add_right _ _) hreserve
    · intro hdenies
      have hreserve := hrepr.reserve_denied (Nat.le_add_right _ _) hdenies
      refine ⟨some .memoryAllocationFailure, v, ?_, hrepr⟩
      simp only [appendSlice, hbytes, hlen, hreserve, Option.bind_eq_bind, Option.bind_some]
      rfl

/-! ## Removing a slice -/

theorem cells_take {pos : ℕ} (hpos : pos ≤ xs.length) :
    cells (xs.take pos) = (cells xs).take (pos * size) := by
  have hlen : pos * size = (cells (xs.take pos)).length := (length_cells_take hpos).symm
  calc cells (xs.take pos)
      = (cells (xs.take pos) ++ cells (xs.drop pos)).take (pos * size) := by
        rw [hlen, List.take_left]
    _ = (cells xs).take (pos * size) := by rw [← cells_append, List.take_append_drop]

theorem cells_drop {pos : ℕ} (hpos : pos ≤ xs.length) :
    cells (xs.drop pos) = (cells xs).drop (pos * size) := by
  have hlen : pos * size = (cells (xs.take pos)).length := (length_cells_take hpos).symm
  calc cells (xs.drop pos)
      = (cells (xs.take pos) ++ cells (xs.drop pos)).drop (pos * size) := by
        rw [hlen, List.drop_left]
    _ = (cells xs).drop (pos * size) := by rw [← cells_append, List.take_append_drop]

theorem getElem?_storage (hrepr : Represents v xs) {i : ℕ} (hi : i < xs.length * size) :
    v.storage[i]? = (cells xs)[i]? := by
  obtain ⟨spare, hstorage⟩ := hrepr.storage
  rw [hstorage, List.getElem?_append_left (by rwa [length_cells])]

theorem removeSlice_eq (hrepr : Represents v xs) (hsize : 0 < size) {start stop : ℕ}
    (hlt : start < stop) (hstart : start ≤ xs.length) :
    removeSlice size v start stop =
      (Block.move v.storage (start * size) ((start + min stop v.len) * size)
        (min stop v.len - start)).map
        fun storage => ⟨storage, v.capacity, v.len - (min stop v.len - start)⟩ := by
  have hlen := hrepr.len_eq
  have hclip : (if stop > v.len then v.len else stop) = min stop v.len := by
    split_ifs <;> omega
  have hmax := (hrepr.length_le hsize).trans (hrepr.capacity_le hsize)
  unfold ptrdiffMax at hmax
  have hcount : sizeSub (min stop v.len) start = min stop v.len - start :=
    sizeSub_of_le (by omega) (by omega)
  have hrest : sizeSub v.len (min stop v.len - start) = v.len - (min stop v.len - start) :=
    sizeSub_of_le (by omega) (by omega)
  simp only [removeSlice, hlt, decide_true, assertThat_true, Option.bind_eq_bind, Option.bind_some,
    hclip, hcount, hrest]
  cases Block.move v.storage (start * size) ((start + min stop v.len) * size)
    (min stop v.len - start) <;> rfl

theorem getElem?_kept (hrepr : Represents v xs) {start e : ℕ} (hse : start ≤ e)
    (hel : e ≤ xs.length) {i : ℕ} (hi : i < start * size + (xs.length - e) * size) :
    (cells (xs.take start ++ xs.drop e))[i]? =
      if i < start * size then v.storage[i]? else v.storage[e * size + (i - start * size)]? := by
  have hstart : start * size ≤ xs.length * size := Nat.mul_le_mul_right size (hse.trans hel)
  have hmid : e * size ≤ xs.length * size := Nat.mul_le_mul_right size hel
  rw [Nat.sub_mul] at hi
  have hlen : (cells (xs.take start)).length = start * size := length_cells_take (hse.trans hel)
  rw [cells_append]
  split
  · rename_i hlt
    rw [List.getElem?_append_left (by omega), cells_take (hse.trans hel),
      List.getElem?_take_of_lt hlt, hrepr.getElem?_storage (by omega)]
  · rename_i hge
    rw [List.getElem?_append_right (by omega), hlen, cells_drop hel, List.getElem?_drop,
      hrepr.getElem?_storage (by omega)]

/-- The elements stand in front after the move if their bytes have been found. -/
theorem prefix_move_iff (hrepr : Represents v xs) {start e : ℕ} (hse : start ≤ e)
    (hel : e ≤ xs.length) {b' : List Cell}
    (hmove : Block.move v.storage (start * size) ((start + e) * size) (e - start) = some b') :
    cells (xs.take start ++ xs.drop e) <+: b' ↔ ∀ i < (xs.length - e) * size,
      v.storage[(if i < e - start then start + e else start) * size + i]? =
        v.storage[e * size + i]? := by
  have hlen : (cells (xs.take start ++ xs.drop e)).length =
      start * size + (xs.length - e) * size := by
    rw [length_cells, List.length_append, List.length_take, List.length_drop, Nat.add_mul,
      min_eq_left (hse.trans hel)]
  have hbehind : ∀ i, b'[start * size + i]? =
      v.storage[(if i < e - start then start + e else start) * size + i]? := by
    intro i
    rw [Block.getElem?_move hmove, Nat.add_sub_cancel_left]
    by_cases hi : i < e - start
    · rw [if_pos (by omega), if_pos hi]
    · rw [if_neg (by omega), if_neg hi]
  rw [Block.prefix_iff, hlen]
  constructor
  · intro hprefix i hi
    have hcell := hprefix (start * size + i) (by omega)
    rw [hrepr.getElem?_kept hse hel (by omega), if_neg (by omega), Nat.add_sub_cancel_left] at hcell
    rw [← hbehind, hcell]
  · intro hbytes i hi
    rw [hrepr.getElem?_kept hse hel hi]
    by_cases hfront : i < start * size
    · rw [if_pos hfront, Block.getElem?_move hmove, if_neg (by omega)]
    · obtain ⟨j, rfl⟩ := Nat.exists_eq_add_of_le (not_lt.mp hfront)
      rw [if_neg hfront, Nat.add_sub_cancel_left, hbehind]
      exact hbytes j (by omega)

/-- `remove_slice` removes the slice if it finds the elements behind it. -/
theorem removeSlice_iff (hrepr : Represents v xs) (hsize : 0 < size) {start stop : ℕ}
    (hlt : start < stop) (hstart : start ≤ xs.length) :
    (∃ v', removeSlice size v start stop = some v' ∧
      Represents v' (xs.take start ++ xs.drop (min stop xs.length))) ↔
      Shifts size v start (min stop xs.length) := by
  rw [Shifts, hrepr.removeSlice_eq hsize hlt hstart, hrepr.len_eq]
  set e := min stop xs.length with he
  have hse : start ≤ e := by omega
  have hel : e ≤ xs.length := by omega
  have hsource : start * size ≤ (start + e) * size := Nat.mul_le_mul_right size (by omega)
  have hisSome := Block.move_isSome_iff (b := v.storage) (n := e - start) hsource
  have hnone : e - start = 0 ↔ start = e := by omega
  rw [hnone] at hisSome
  constructor
  · rintro ⟨v', hv', hrepr'⟩
    obtain ⟨b', hmove, rfl⟩ := Option.map_eq_some_iff.mp hv'
    obtain ⟨spare, hspare⟩ := hrepr'.storage
    refine ⟨hisSome.mp (Option.isSome_iff_exists.mpr ⟨b', hmove⟩), ?_⟩
    exact (hrepr.prefix_move_iff hse hel hmove).mp ⟨spare, hspare.symm⟩
  · rintro ⟨hin, hbytes⟩
    obtain ⟨b', hmove⟩ := Option.isSome_iff_exists.mp (hisSome.mpr hin)
    obtain ⟨spare, hspare⟩ := (hrepr.prefix_move_iff hse hel hmove).mpr hbytes
    refine ⟨_, Option.map_eq_some_iff.mpr ⟨b', hmove, rfl⟩, ⟨spare, hspare.symm⟩, ?_, ?_,
      hrepr.le_max⟩
    · rw [List.length_append, List.length_take, List.length_drop]
      change xs.length - (e - start) = _
      omega
    · exact (Block.length_of_move hmove).trans hrepr.length_eq

end Represents

end Vec

end PosixThreads
