import Mathlib.Data.List.Basic
import Mathlib.Data.Nat.Basic

/-!
# Blocks of memory

A block is the list of its cells. Reading and writing give no result when a cell outside of the
block would be touched, except that nothing at all can be read or written anywhere. `Block.move`
copies within a block; the source is read before the destination is written, so the two may
overlap.

The lemmas describe a block as parts that follow one another: what is read is one of the parts,
and what is written takes the place of a part of the same length.
-/

namespace Block

variable {β : Type*} {b b' xs ys zs src : List β} {pos dst n : ℕ}

def read (b : List β) (pos n : ℕ) : Option (List β) :=
  if n = 0 ∨ pos + n ≤ b.length then some ((b.drop pos).take n) else none

def write (b : List β) (pos : ℕ) (src : List β) : Option (List β) :=
  if src = [] ∨ pos + src.length ≤ b.length then
    some (b.take pos ++ (src ++ b.drop (pos + src.length)))
  else none

def move (b : List β) (dst src n : ℕ) : Option (List β) := do write b dst (← read b src n)

/-- A block of another length with the same cells. New ones have the content `fill`. -/
def resize (fill : β) (b : List β) (n : ℕ) : List β :=
  b.take n ++ List.replicate (n - b.length) fill

theorem read_eq (h : pos + n ≤ b.length) : read b pos n = some ((b.drop pos).take n) :=
  if_pos (.inr h)

theorem write_eq (h : pos + src.length ≤ b.length) :
    write b pos src = some (b.take pos ++ (src ++ b.drop (pos + src.length))) :=
  if_pos (.inr h)

theorem length_of_read (h : read b pos n = some xs) : xs.length = n := by
  unfold read at h
  split at h
  · rename_i hin
    rw [← Option.some.inj h, List.length_take, List.length_drop]
    omega
  · simp at h

theorem length_of_write (h : write b pos src = some b') : b'.length = b.length := by
  unfold write at h
  split at h
  · rename_i hin
    rw [← Option.some.inj h]
    rcases hin with rfl | hin
    · simp
    · simp only [List.length_append, List.length_take, List.length_drop]
      omega
  · simp at h

theorem read_part (xs ys zs : List β) (hpos : pos = xs.length) (hn : n = ys.length) :
    read (xs ++ (ys ++ zs)) pos n = some ys := by
  subst hpos hn
  rw [read_eq (by simp), List.drop_left, List.take_left]

theorem write_part (xs ys zs : List β) (hpos : pos = xs.length) (hsrc : src.length = ys.length) :
    write (xs ++ (ys ++ zs)) pos src = some (xs ++ (src ++ zs)) := by
  subst hpos
  rw [write_eq (by simp [hsrc]), List.take_left, hsrc, ← List.length_append,
    ← List.append_assoc xs ys, List.drop_left]

theorem length_resize (fill : β) (b : List β) (n : ℕ) : (resize fill b n).length = n := by
  rw [resize, List.length_append, List.length_take, List.length_replicate]
  omega

theorem resize_append (fill : β) (hn : xs.length ≤ n) :
    resize fill (xs ++ ys) n = xs ++ resize fill ys (n - xs.length) := by
  rw [resize, resize, List.take_append, List.take_of_length_le hn, List.append_assoc,
    List.length_append, Nat.sub_add_eq]

/-- Cell by cell, writing changes what is in reach only. -/
theorem getElem?_write (h : write b pos src = some b') (i : ℕ) :
    b'[i]? = if pos ≤ i ∧ i < pos + src.length then src[i - pos]? else b[i]? := by
  unfold write at h
  split at h
  · rename_i hin
    rw [← Option.some.inj h]
    grind
  · simp at h

theorem getElem?_read (h : read b pos n = some xs) {i : ℕ} (hi : i < n) :
    xs[i]? = b[pos + i]? := by
  unfold read at h
  split at h
  · rw [← Option.some.inj h, List.getElem?_take_of_lt hi, List.getElem?_drop]
  · simp at h

theorem read_isSome_iff : (read b pos n).isSome ↔ n = 0 ∨ pos + n ≤ b.length := by
  unfold read
  split
  · rename_i hin
    exact iff_of_true rfl hin
  · rename_i hout
    exact iff_of_false (by simp) hout

theorem length_of_move {src : ℕ} (h : move b dst src n = some b') : b'.length = b.length := by
  obtain ⟨xs, _, hwrite⟩ := Option.bind_eq_some_iff.mp h
  exact length_of_write hwrite

/-- Cell by cell, moving takes what is in reach from the source as it was before. -/
theorem getElem?_move {src : ℕ} (h : move b dst src n = some b') (i : ℕ) :
    b'[i]? = if dst ≤ i ∧ i < dst + n then b[src + (i - dst)]? else b[i]? := by
  obtain ⟨xs, hread, hwrite⟩ := Option.bind_eq_some_iff.mp h
  rw [getElem?_write hwrite, length_of_read hread]
  split
  · rename_i hin
    exact getElem?_read hread (by omega)
  · rfl

/-- Cells that are moved to the front have to lie in the block. -/
theorem move_isSome_iff {src : ℕ} (h : dst ≤ src) :
    (move b dst src n).isSome ↔ n = 0 ∨ src + n ≤ b.length := by
  rw [← read_isSome_iff (b := b)]
  constructor
  · intro hmove
    obtain ⟨b', hb'⟩ := Option.isSome_iff_exists.mp hmove
    obtain ⟨xs, hread, _⟩ := Option.bind_eq_some_iff.mp hb'
    exact Option.isSome_iff_exists.mpr ⟨xs, hread⟩
  · intro hread
    obtain ⟨xs, hxs⟩ := Option.isSome_iff_exists.mp hread
    have hlen := length_of_read hxs
    have hin := read_isSome_iff.mp hread
    have hwrite : xs = [] ∨ dst + xs.length ≤ b.length := by
      rcases hin with rfl | hin
      · exact .inl (List.length_eq_zero_iff.mp hlen)
      · exact .inr (by omega)
    simp [move, hxs, write, hwrite]

theorem prefix_iff : ys <+: b ↔ ∀ i < ys.length, b[i]? = ys[i]? := by
  rw [List.prefix_iff_getElem?]
  refine forall₂_congr fun i hi => ?_
  rw [List.getElem?_eq_getElem hi]

end Block
