import PosixThreads.HttpAio.Printer

/-!
# The lines of a page

`print_lines` and `has_full_page` look for line feeds, but never at the last byte there is. If
they find as many as are missing, the bytes up to the last of them are the page. If not, all bytes
are taken, and the last of them may be a line feed that is not counted.
-/

namespace PosixThreads

namespace HttpAio

def lineFeeds (cells : List Cell) : ℕ := cells.count (some 0x0a)

@[simp] theorem lineFeeds_nil : lineFeeds [] = 0 := rfl

@[simp] theorem lineFeeds_append (xs ys : List Cell) :
    lineFeeds (xs ++ ys) = lineFeeds xs + lineFeeds ys := List.count_append

theorem lineFeeds_eq_zero {cells : List Cell} (h : ∀ cell ∈ cells, (cell == some 0x0a) = false) :
    lineFeeds cells = 0 := by
  refine List.count_eq_zero.mpr fun hmem => ?_
  have := h _ hmem
  simp at this

theorem lineFeeds_singleton_le (cell : Cell) : lineFeeds [cell] ≤ 1 := by
  simp only [lineFeeds, List.count_singleton]
  split <;> omega

/-- A line ends behind its first line feed, which is not the last byte. -/
theorem lineEnd_eq_some {cells : List Cell} {n : ℕ} (h : lineEnd cells = some n) :
    n < cells.length ∧ lineFeeds (cells.take n) = 1 := by
  rw [lineEnd, Option.map_eq_some_iff] at h
  obtain ⟨i, hi, rfl⟩ := h
  obtain ⟨hlt, hfeed, hbefore⟩ := List.findIdx?_eq_some_iff_getElem.mp hi
  rw [List.length_dropLast] at hlt
  have hi' : i < cells.length := by omega
  refine ⟨by omega, ?_⟩
  rw [List.take_add_one, List.getElem?_eq_getElem hi', lineFeeds_append]
  have hzero : lineFeeds (cells.take i) = 0 := by
    refine lineFeeds_eq_zero fun cell hcell => ?_
    obtain ⟨j, hj, rfl⟩ := List.getElem_of_mem hcell
    rw [List.length_take] at hj
    have := hbefore j (by omega)
    simpa [List.getElem_dropLast] using this
  have hone : cells[i] = some 0x0a := by simpa [List.getElem_dropLast] using hfeed
  rw [hzero, hone]
  rfl

/-- Without an end, only the last byte may be a line feed. -/
theorem lineEnd_eq_none {cells : List Cell} (h : lineEnd cells = none) :
    lineFeeds cells ≤ 1 := by
  rw [lineEnd, Option.map_eq_none_iff, List.findIdx?_eq_none_iff] at h
  rcases List.eq_nil_or_concat cells with rfl | ⟨init, last, rfl⟩
  · simp
  · rw [List.concat_eq_append] at h ⊢
    rw [List.dropLast_concat] at h
    rw [lineFeeds_append, lineFeeds_eq_zero h, Nat.zero_add]
    exact lineFeeds_singleton_le last

structure TakesLines (left : ℕ) (cells : List Cell) (count left' : ℕ) : Prop where
  count_le : count ≤ cells.length
  left_le : left' ≤ left
  ends : left' ≠ 0 → count = cells.length
  page : left' = 0 → lineFeeds (cells.take count) = left
  some_lines : left' ≠ 0 → left - left' ≤ lineFeeds cells ∧ lineFeeds cells ≤ left - left' + 1

theorem TakesLines.cons {left : ℕ} {cells : List Cell} {count left' n : ℕ}
    (hend : lineEnd cells = some n) (h : TakesLines left (cells.drop n) count left') :
    TakesLines (left + 1) cells (n + count) left' := by
  obtain ⟨hlt, hone⟩ := lineEnd_eq_some hend
  have hcount := h.count_le
  have hleft := h.left_le
  rw [List.length_drop] at hcount
  have htake : cells.take (n + count) = cells.take n ++ (cells.drop n).take count :=
    List.take_add
  refine ⟨by omega, by omega, fun hne => ?_, fun hzero => ?_, fun hne => ?_⟩
  · have := h.ends hne
    rw [List.length_drop] at this
    omega
  · rw [htake, lineFeeds_append, hone, h.page hzero, Nat.add_comm]
  · have hsplit : lineFeeds cells = 1 + lineFeeds (cells.drop n) := by
      rw [← hone, ← lineFeeds_append, List.take_append_drop]
    have := h.some_lines hne
    omega

theorem takeLines_spec (left : ℕ) (cells : List Cell) :
    TakesLines left cells (takeLines left cells).1 (takeLines left cells).2 := by
  induction left generalizing cells with
  | zero => exact ⟨Nat.zero_le _, le_rfl, by simp [takeLines], by simp [takeLines], by
      simp [takeLines]⟩
  | succ left ih =>
      cases cells with
      | nil => exact ⟨le_rfl, le_rfl, fun _ => rfl, by simp [takeLines], by simp [takeLines]⟩
      | cons cell cells =>
          rw [takeLines]
          split
          · rename_i hend
            have hone := lineEnd_eq_none hend
            exact ⟨le_rfl, le_rfl, fun _ => rfl, by simp, fun _ => ⟨by omega, by omega⟩⟩
          · rename_i n hend
            exact (ih _).cons hend
          · simp

theorem fullPage_iff (left : ℕ) (cells : List Cell) :
    fullPage left cells = true ↔ (takeLines left cells).2 = 0 := by
  induction left generalizing cells with
  | zero => simp [fullPage, takeLines]
  | succ left ih =>
      cases cells with
      | nil => simp [fullPage, takeLines]
      | cons cell cells =>
          rw [fullPage, takeLines]
          · cases hend : lineEnd (cell :: cells) with
            | none => simp
            | some n => simp [ih]
          · simp
          · simp

/-- If there is a full page, then there is also the rest of one. -/
theorem takeLines_eq_zero {left left' : ℕ} {cells : List Cell} (hle : left' ≤ left)
    (h : (takeLines left cells).2 = 0) : (takeLines left' cells).2 = 0 := by
  induction left' generalizing left cells with
  | zero => simp [takeLines]
  | succ left' ih =>
      obtain ⟨left, rfl⟩ := Nat.exists_eq_add_of_le' (Nat.one_le_of_lt hle)
      cases cells with
      | nil => simp [takeLines] at h
      | cons cell cells =>
          cases hend : lineEnd (cell :: cells) with
          | none => simp [takeLines, hend] at h
          | some n =>
              simp only [takeLines, hend] at h ⊢
              exact ih (by omega) h

end HttpAio

end PosixThreads
