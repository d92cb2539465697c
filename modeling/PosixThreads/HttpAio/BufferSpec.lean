import PosixThreads.HttpAio.Buffer
import Mathlib.Data.List.Forall2

/-!
# The byte buffer as a queue

`Buf.Layout` splits the memory of a buffer into what has been read, what is unread and what is
free. Each function is described by what it makes of the three parts.

The unread part has to agree with a queue of the bytes that have been written. It does not after a
write that relies on room in front of the reading position and does not move the unread bytes
there, nor after a resize to nothing. A failing resize comes behind a move, which the error does
not undo.
-/

namespace PosixThreads

namespace HttpAio

/-- Cells agree with what has been written, where that is known. -/
abbrev Agrees (queue cells : List Cell) : Prop :=
  List.Forall₂ (fun want cell => want = none ∨ cell = want) queue cells

theorem Agrees.refl (cells : List Cell) : Agrees cells cells :=
  List.forall₂_same.mpr fun _ _ => .inr rfl

theorem Agrees.unknown (cells : List Cell) : Agrees (List.replicate cells.length none) cells := by
  induction cells with
  | nil => exact .nil
  | cons cell cells ih => exact .cons (.inl rfl) ih

def WriteData.cells : WriteData → List Cell
  | .bytes bs => bs.map some
  | .null count => List.replicate count none

namespace Buf

/-- The memory of a buffer: what has been read, what is unread and what is free. -/
structure Layout (b : Buf) (front cells back : List Cell) : Prop where
  buf_eq : b.buf = front ++ (cells ++ back)
  readPos_eq : b.readPos = front.length
  readEnd_eq : b.readEnd = front.length + cells.length
  writePos_eq : b.writePos = front.length + cells.length
  capacity_eq : b.capacity = front.length + cells.length + back.length
  capacity_le : b.capacity ≤ ptrdiffMax

def unread (b : Buf) : List Cell := (b.buf.drop b.readPos).take (b.readEnd - b.readPos)

def Ordered (b : Buf) : Prop :=
  b.readPos ≤ b.readEnd ∧ b.readEnd = b.writePos ∧ b.writePos ≤ b.capacity

namespace Layout

variable {b : Buf} {front cells back : List Cell}

theorem length_le (h : Layout b front cells back) :
    front.length + cells.length + back.length ≤ ptrdiffMax := h.capacity_eq ▸ h.capacity_le

theorem ordered (h : Layout b front cells back) : b.Ordered := by
  obtain ⟨_, hread, hend, hwrite, hcap, _⟩ := h
  exact ⟨by omega, by omega, by omega⟩

theorem unread_eq (h : Layout b front cells back) : b.unread = cells := by
  rw [unread, h.buf_eq, h.readPos_eq, h.readEnd_eq, List.drop_left, Nat.add_sub_cancel_left,
    List.take_left]

theorem availableReadSize_eq (h : Layout b front cells back) :
    b.availableReadSize = cells.length := by
  have hle := h.length_le
  unfold ptrdiffMax at hle
  rw [availableReadSize, h.readEnd_eq, h.readPos_eq, sizeSub_of_le (by omega) (by omega)]
  omega

theorem immediately_eq (h : Layout b front cells back) :
    b.immediatelyAvailableWriteSize = back.length := by
  have hle := h.length_le
  unfold ptrdiffMax at hle
  rw [immediatelyAvailableWriteSize, h.capacity_eq, h.writePos_eq,
    sizeSub_of_le (by omega) (by omega)]
  omega

theorem available_eq (h : Layout b front cells back) :
    b.availableWriteSize = back.length + front.length := by
  have hle := h.length_le
  unfold ptrdiffMax at hle
  rw [availableWriteSize, h.immediately_eq, h.readPos_eq, sizeT_of_lt (by omega)]

theorem writePos_sub (h : Layout b front cells back) :
    sizeSub b.writePos b.readPos = cells.length := by
  have hle := h.length_le
  unfold ptrdiffMax at hle
  rw [h.writePos_eq, h.readPos_eq, sizeSub_of_le (by omega) (by omega)]
  omega

theorem read_eq (h : Layout b front cells back) :
    Block.read b.buf b.readPos cells.length = some cells := by
  rw [h.buf_eq, h.readPos_eq]
  exact Block.read_part front cells back rfl rfl

/-- The unread bytes are in front, and the rest is free. -/
theorem moved (autoCompact : Bool) {n : ℕ} (hlen : cells.length + back.length = n)
    (hmax : n ≤ ptrdiffMax) :
    Layout ⟨cells ++ back, n, cells.length, cells.length, 0, autoCompact⟩ [] cells back :=
  ⟨rfl, rfl, by simp, by simp, by simp [hlen], hmax⟩

/-! ## Moving and resizing -/

theorem front_eq_nil (h : Layout b front cells back) (hread : b.readPos = 0) : front = [] :=
  List.length_eq_zero_iff.mp (h.readPos_eq.symm.trans hread)

theorem compact_spec (h : Layout b front cells back) :
    ∃ b' back', b.compact = some b' ∧ Layout b' [] cells back' ∧
      back'.length = front.length + back.length ∧ b'.autoCompact = b.autoCompact ∧
      (front = [] → b' = b) := by
  by_cases hzero : b.readPos = 0
  · obtain rfl := h.front_eq_nil hzero
    exact ⟨b, back, by rw [compact, if_pos hzero], h, by simp, rfl, fun _ => rfl⟩
  · have hlen : b.buf.length = b.capacity := by
      rw [h.buf_eq, h.capacity_eq, List.length_append, List.length_append, Nat.add_assoc]
    have hcap := h.capacity_eq
    have hwrite : Block.write b.buf 0 cells = some (cells ++ b.buf.drop cells.length) := by
      rw [Block.write_eq (by omega), List.take_zero, List.nil_append, Nat.zero_add]
    have hlayout : Layout ⟨cells ++ b.buf.drop cells.length, b.capacity, cells.length,
        cells.length, 0, b.autoCompact⟩ [] cells (b.buf.drop cells.length) :=
      moved b.autoCompact (by rw [List.length_drop]; omega) h.capacity_le
    refine ⟨_, _, ?_, hlayout, by rw [List.length_drop]; omega, rfl, fun hfront => ?_⟩
    · simp [compact, hzero, Block.move, h.read_eq, hwrite, h.availableReadSize_eq, h.writePos_sub]
    · exact absurd (h.readPos_eq.trans (by rw [hfront]; rfl)) hzero

theorem resize_spec (h : Layout b front cells back) {ok : Bool} {n : ℕ} (hzero : n ≠ 0)
    (hle : cells.length ≤ n) (hok : (ok && n ≤ ptrdiffMax) = true) :
    ∃ b' back', b.resize ok n = some (none, b') ∧ Layout b' [] cells back' ∧
      back'.length = n - cells.length ∧ b'.autoCompact = b.autoCompact := by
  have hmax : n ≤ ptrdiffMax := by simpa using (Bool.and_eq_true_iff.mp hok).2
  by_cases hread : b.readPos = 0
  · obtain rfl := h.front_eq_nil hread
    have hbuf : b.buf = cells ++ back := h.buf_eq
    have hlen := Block.length_resize (none : Cell) back (n - cells.length)
    refine ⟨_, Block.resize none back (n - cells.length), ?_,
      moved b.autoCompact (by rw [hlen]; omega) hmax, hlen, rfl⟩
    have hwrite : sizeSub b.writePos 0 = cells.length := hread ▸ h.writePos_sub
    simp [resize, hzero, h.availableReadSize_eq, hle, realloc, hok, hread, hbuf,
      Block.resize_append none hle, hwrite]
  · have hfresh : Block.resize (none : Cell) [] n = List.replicate n none := by
      simp [Block.resize]
    have hwrite : Block.write (List.replicate n (none : Cell)) 0 cells =
        some (cells ++ List.replicate (n - cells.length) none) := by
      rw [Block.write_eq (by simpa using hle)]
      simp
    refine ⟨_, List.replicate (n - cells.length) none, ?_,
      moved b.autoCompact (by rw [List.length_replicate]; omega) hmax, List.length_replicate, rfl⟩
    simp [resize, hzero, h.availableReadSize_eq, hle, realloc, hok, hread, hfresh, h.read_eq,
      hwrite, h.writePos_sub]

/-- A resize that would truncate the unread bytes or gets no memory changes nothing. -/
theorem resize_refused (h : Layout b front cells back) {ok : Bool} {n : ℕ} (hzero : n ≠ 0)
    (hrefused : ¬(cells.length ≤ n ∧ (ok && n ≤ ptrdiffMax) = true)) :
    ∃ error, b.resize ok n = some (some error, b) := by
  rw [resize, if_neg hzero]
  by_cases hle : cells.length ≤ n
  · have hno : (ok && decide (n ≤ ptrdiffMax)) = false := by
      rw [← Bool.not_eq_true]
      exact fun hok => hrefused ⟨hle, hok⟩
    simp [h.availableReadSize_eq, hle, realloc, hno]
  · simp [h.availableReadSize_eq, hle]

/-! ## Writing and reading -/

theorem put (h : Layout b front cells back) {new : List Cell} (hfits : new.length ≤ back.length) :
    ∃ buf, Block.write b.buf b.writePos new = some buf ∧
      Layout { b with buf := buf } front cells (new ++ back.drop new.length) := by
  have hparts : b.buf = (front ++ cells) ++ (back.take new.length ++ back.drop new.length) := by
    rw [List.take_append_drop, h.buf_eq, List.append_assoc]
  refine ⟨(front ++ cells) ++ (new ++ back.drop new.length), ?_, ?_⟩
  · rw [hparts, Block.write_part _ _ _ (by rw [h.writePos_eq, List.length_append])
      (by rw [List.length_take, min_eq_left hfits])]
  · refine ⟨by rw [List.append_assoc], h.readPos_eq, h.readEnd_eq, h.writePos_eq, ?_, h.capacity_le⟩
    rw [List.length_append, List.length_drop, Nat.add_sub_cancel' hfits]
    exact h.capacity_eq

/-- The positions follow what has been copied. -/
theorem write_of_copyIn (h : Layout b front cells back) {data : WriteData}
    (hroom : data.count ≤ back.length + front.length) {b₁ : Buf} {front₁ new rest : List Cell}
    (hcopy : b.copyIn data = some b₁) (h₁ : Layout b₁ front₁ cells (new ++ rest))
    (hnew : new.length = data.count) :
    ∃ b', b.write data = some (none, b') ∧ Layout b' front₁ (cells ++ new) rest := by
  have hroom' : data.count ≤ b.availableWriteSize := h.available_eq ▸ hroom
  have hle := h₁.length_le
  have hmax : ptrdiffMax = 0x7fffffffffffffff := rfl
  rw [List.length_append] at hle
  have hpos : sizeT (b₁.writePos + data.count) =
      front₁.length + (cells ++ new).length := by
    rw [h₁.writePos_eq, sizeT_of_lt (by omega), List.length_append]
    omega
  refine ⟨{ b₁ with
    writePos := front₁.length + (cells ++ new).length
    readEnd := front₁.length + (cells ++ new).length }, ?_, ?_⟩
  · have hend : front₁.length + (cells ++ new).length ≤ b₁.readEnd →
        b₁.readEnd = front₁.length + (cells ++ new).length := by
      have := h₁.readEnd_eq
      rw [List.length_append]
      omega
    simp only [write, hroom', decide_true, errFromBool_true, hcopy, hpos, Option.bind_eq_bind,
      Option.bind_some, Option.pure_def]
    split
    · rfl
    · rename_i hnot
      rw [hend (not_lt.mp hnot)]
  · refine ⟨?_, h₁.readPos_eq, rfl, rfl, ?_, h₁.capacity_le⟩
    · rw [List.append_assoc]
      exact h₁.buf_eq
    · have hcap := h₁.capacity_eq
      simp only [List.length_append] at hcap ⊢
      omega

theorem write_fits (h : Layout b front cells back) {data : WriteData}
    (hfits : data.count ≤ back.length) :
    ∃ b' new rest, b.write data = some (none, b') ∧ Layout b' front (cells ++ new) rest ∧
      Agrees data.cells new := by
  cases data with
  | bytes bs =>
      have hfits' : bs.length ≤ back.length := hfits
      have hlen : (bs.map some).length = bs.length := List.length_map _
      have hno : (b.autoCompact && decide (b.immediatelyAvailableWriteSize < bs.length)) =
          false := by
        rw [h.immediately_eq, decide_eq_false (Nat.not_lt.mpr hfits'), Bool.and_false]
      obtain ⟨buf, hwrite, h₁⟩ := h.put (hlen.le.trans hfits)
      have hcopy : b.copyIn (.bytes bs) = some { b with buf := buf } := by
        simp [copyIn, hno, hwrite]
      obtain ⟨b', hb', hlayout⟩ :=
        h.write_of_copyIn (hfits.trans (Nat.le_add_right _ _)) hcopy h₁ hlen
      exact ⟨b', _, _, hb', hlayout, .refl _⟩
  | null count =>
      have hlen : (back.take count).length = count := by
        rw [List.length_take]
        exact min_eq_left hfits
      obtain ⟨b', hb', hlayout⟩ := h.write_of_copyIn (hfits.trans (Nat.le_add_right _ _)) rfl
        ((List.take_append_drop count back).symm ▸ h) hlen
      have hunknown := Agrees.unknown (back.take count)
      rw [hlen] at hunknown
      exact ⟨b', _, _, hb', hlayout, hunknown⟩

theorem write_compacts (h : Layout b front cells back) {bs : List UInt8}
    (hroom : bs.length ≤ back.length + front.length) (hnot : back.length < bs.length)
    (hauto : b.autoCompact = true) :
    ∃ b' rest, b.write (.bytes bs) = some (none, b') ∧
      Layout b' [] (cells ++ bs.map some) rest := by
  have hroom' : (WriteData.bytes bs).count ≤ back.length + front.length := hroom
  have hlen : (bs.map some).length = bs.length := List.length_map _
  obtain ⟨b₁, back₁, hcompact, h₁, hlen₁, _⟩ := h.compact_spec
  obtain ⟨buf, hwrite, h₂⟩ := h₁.put (hlen.le.trans (by omega))
  have hmoves : (b.autoCompact && decide (b.immediatelyAvailableWriteSize < bs.length)) = true := by
    rw [h.immediately_eq, hauto, decide_eq_true hnot]
    rfl
  have hcopy : b.copyIn (.bytes bs) = some { b₁ with buf := buf } := by
    simp [copyIn, hmoves, hcompact, hwrite]
  obtain ⟨b', hb', hlayout⟩ := h.write_of_copyIn hroom' hcopy h₂ hlen
  exact ⟨b', _, hb', hlayout⟩

theorem write_refused (h : Layout b front cells back) {data : WriteData}
    (hfull : back.length + front.length < data.count) :
    ∃ error, b.write data = some (some error, b) := by
  have hno : ¬data.count ≤ b.availableWriteSize := by
    rw [h.available_eq]
    omega
  simp [write, hno]

/-- A write that relies on the room in front, but does not move the unread bytes there, ends
outside of the memory. -/
theorem write_overruns (h : Layout b front cells back) {data : WriteData}
    (hroom : data.count ≤ back.length + front.length) (hnot : back.length < data.count)
    (hstays : ¬(b.autoCompact = true ∧ data.pointer = true)) {error : Option Err} {b' : Buf}
    (hwrite : b.write data = some (error, b')) : ¬b'.Ordered := by
  have hroom' : data.count ≤ b.availableWriteSize := h.available_eq ▸ hroom
  have hle := h.length_le
  have hcap := h.capacity_eq
  have hmax : ptrdiffMax = 0x7fffffffffffffff := rfl
  cases data with
  | bytes bs =>
      have hauto : b.autoCompact = false := by simpa [WriteData.pointer] using hstays
      have hout : Block.write b.buf b.writePos (bs.map some) = none := by
        have hlen : b.buf.length = b.capacity := by
          rw [h.buf_eq, hcap, List.length_append, List.length_append, Nat.add_assoc]
        have hpos := h.writePos_eq
        simp only [WriteData.count] at hnot
        rw [Block.write, if_neg]
        rintro (hnil | hin)
        · simp [List.map_eq_nil_iff.mp hnil] at hnot
        · rw [List.length_map] at hin
          omega
      simp [write, hroom', copyIn, hauto, hout] at hwrite
  | null count =>
      simp only [WriteData.count] at hroom hroom' hnot
      have hpos : sizeT (b.writePos + count) = front.length + cells.length + count := by
        rw [h.writePos_eq, sizeT_of_lt (by omega)]
      simp only [write, hroom', decide_true, errFromBool_true, copyIn, WriteData.count, hpos,
        Option.bind_eq_bind, Option.bind_some, Option.pure_def, Option.some.injEq,
        Prod.mk.injEq] at hwrite
      obtain ⟨_, rfl⟩ := hwrite
      rintro ⟨_, _, hover⟩
      simp only at hover
      omega

theorem read_spec (h : Layout b front cells back) (pointer : Bool) {count : ℕ}
    (hle : count ≤ cells.length) :
    ∃ b' front' back', b.read pointer count =
        some (none, (if pointer then cells.take count else []), b') ∧
      Layout b' front' (cells.drop count) back' := by
  have hbound := h.length_le
  have hmax : ptrdiffMax = 0x7fffffffffffffff := rfl
  have hlen : (cells.take count).length = count := by rw [List.length_take, min_eq_left hle]
  have hpos : sizeT (b.readPos + count) = front.length + count := by
    rw [h.readPos_eq, sizeT_of_lt (by omega)]
  have hread : Block.read b.buf b.readPos count = some (cells.take count) := by
    have hparts : b.buf = front ++ (cells.take count ++ (cells.drop count ++ back)) := by
      rw [← List.append_assoc (cells.take count), List.take_append_drop, h.buf_eq]
    rw [hparts]
    exact Block.read_part _ _ _ h.readPos_eq hlen.symm
  have hroom : count ≤ b.availableReadSize := h.availableReadSize_eq ▸ hle
  by_cases hreset : b.autoCompact = true ∧ front.length + count = b.readEnd
  · obtain ⟨hauto, hall⟩ := hreset
    have hend := h.readEnd_eq
    have hdrop : cells.drop count = [] := List.drop_eq_nil_of_le (by omega)
    refine ⟨{ b with readPos := 0, writePos := 0, readEnd := 0 }, [], b.buf, ?_, ?_⟩
    · cases pointer <;> simp [read, hroom, hread, hpos, hauto, hall]
    · rw [hdrop]
      refine ⟨rfl, rfl, rfl, rfl, ?_, h.capacity_le⟩
      rw [h.buf_eq]
      simpa [Nat.add_assoc] using h.capacity_eq
  · refine ⟨{ b with readPos := front.length + count }, front ++ cells.take count, back, ?_, ?_⟩
    · cases pointer <;> simp [read, hroom, hread, hpos, hreset]
    · have hdrop : (cells.drop count).length = cells.length - count := List.length_drop
      have hend := h.readEnd_eq
      have hwrite := h.writePos_eq
      have hcap := h.capacity_eq
      refine ⟨?_, ?_, ?_, ?_, ?_, h.capacity_le⟩
      · rw [List.append_assoc, ← List.append_assoc (cells.take count), List.take_append_drop,
          h.buf_eq]
      · rw [List.length_append, hlen]
      · simp only [List.length_append, hlen, hdrop]
        omega
      · simp only [List.length_append, hlen, hdrop]
        omega
      · simp only [List.length_append, hlen, hdrop]
        omega

theorem read_refused (h : Layout b front cells back) (pointer : Bool) {count : ℕ}
    (hlt : cells.length < count) :
    ∃ error, b.read pointer count = some (some error, [], b) := by
  have hno : ¬count ≤ b.availableReadSize := by
    rw [h.availableReadSize_eq]
    omega
  simp [read, hno]

end Layout

end Buf

end HttpAio

end PosixThreads
