import PosixThreads.HttpAio.BufferSpec

/-!
# Which operations keep the queue

`Sound` says of a sequence of operations that each of them keeps the positions in order, reads the
bytes in the order in which they have been written, and changes nothing if it fails. `Meets` is the
condition under which an operation does so: a write moves the unread bytes if it needs the room in
front of them, a resize is not to nothing while there are unread bytes, and a resize that fails has
not moved them before.
-/

namespace PosixThreads

namespace HttpAio

namespace Buf

/-- The bytes that have been written and not been read, behind an operation. -/
def after (queue : List Cell) (op : BufOp) (result : BufResult) : List Cell :=
  if result.error.isSome then queue
  else
    match op with
    | .write data => queue ++ data.cells
    | .writeResizing data _ => queue ++ data.cells
    | .read _ count => queue.drop count
    | .reset => []
    | _ => queue

def wanted (queue : List Cell) : BufOp → List Cell
  | .read true count => queue.take count
  | _ => []

structure Good (b : Buf) (queue : List Cell) (op : BufOp) (result : BufResult) (b' : Buf) :
    Prop where
  ordered : b'.Ordered
  unchanged : result.error.isSome → b' = b
  stored : result.error = none → Agrees (wanted queue op) result.stored
  unread : Agrees (after queue op result) b'.unread

def Sound (b : Buf) (queue : List Cell) : List BufOp → Prop
  | [] => True
  | op :: ops => ∃ result b', b.exec op = some (result, b') ∧ b.Good queue op result b' ∧
      b'.Sound (after queue op result) ops

/-- There is room for a number of bytes, or a resize makes it, or nothing is moved before the
resize fails. -/
def MakesRoom (b : Buf) (count : ℕ) (ok : Bool) : Prop :=
  count ≤ b.availableWriteSize ∨
    (ok && b.availableReadSize + count ≤ ptrdiffMax) = true ∨
    (b.readPos = 0 ∧ b.availableReadSize + count ≠ 0x10000000000000000)

def Meets (b : Buf) : BufOp → Prop
  | .write data => data.count ≤ b.immediatelyAvailableWriteSize ∨
      b.availableWriteSize < data.count ∨
      (b.autoCompact = true ∧ data.pointer = true)
  | .writeResizing data ok => b.MakesRoom data.count ok
  | .ensureEnoughWriteSpace count ok => b.MakesRoom count ok
  | .resize newCapacity _ => newCapacity ≠ 0 ∨ b.availableReadSize = 0
  | _ => True

def AllMeet (b : Buf) : List BufOp → Prop
  | [] => True
  | op :: ops => b.Meets op ∧ ∀ result b', b.exec op = some (result, b') → b'.AllMeet ops

def Holds (b : Buf) (queue : List Cell) : Prop :=
  ∃ front cells back, Layout b front cells back ∧ Agrees queue cells

section Steps

variable {b : Buf} {front cells back queue : List Cell}

/-! ## Making room -/

namespace Layout

theorem compactFor_spec (h : Layout b front cells back) (count : ℕ) :
    ∃ b' front' back',
      b.compactFor count = some b' ∧ Layout b' front' cells back' ∧
      back'.length + front'.length = back.length + front.length ∧
      (back.length + front.length < count → front' = [] ∧ (front = [] → b' = b)) ∧
      (count ≤ back.length + front.length → count ≤ back'.length) := by
  by_cases hroom : count ≤ back.length
  · refine ⟨b, front, back, ?_, h, rfl, fun hfull => absurd hfull (by omega), fun _ => hroom⟩
    rw [compactFor, h.immediately_eq, if_neg (Nat.not_lt.mpr hroom)]
  · obtain ⟨b', back', hcompact, h', hlen, _, hsame⟩ := h.compact_spec
    refine ⟨b', [], back', ?_, h', ?_, fun _ => ⟨rfl, hsame⟩, fun hle => by omega⟩
    · rw [compactFor, h.immediately_eq, if_pos (Nat.not_le.mp hroom), hcompact]
    · rw [List.length_nil]
      omega

/-- `buf_ensure_enough_write_space` resizes the buffer if there is not enough room at all. -/
theorem ensure_eq {b₁ : Buf} {count : ℕ} (hcompact : b.compactFor count = some b₁) (ok : Bool)
    (hyes : b₁.availableWriteSize < count) {error : Option Err} {b₂ : Buf}
    (hresize : b₁.resize ok (sizeT (b₁.availableReadSize + count)) = some (error, b₂)) :
    b.ensureEnoughWriteSpace ok count = some (errFromErr error none, b₂) := by
  rw [ensureEnoughWriteSpace, hcompact, Option.bind_eq_bind, Option.bind_some, if_pos hyes, hresize]
  rfl

theorem ensure_room (h : Layout b front cells back) {count : ℕ} {ok : Bool}
    (hroom : count ≤ back.length + front.length ∨
      (ok && cells.length + count ≤ ptrdiffMax) = true) :
    ∃ b' front' back', b.ensureEnoughWriteSpace ok count = some (none, b') ∧
      Layout b' front' cells back' ∧ count ≤ back'.length := by
  obtain ⟨b₁, front₁, back₁, hcompact, h₁, hlen, _, hfits⟩ := h.compactFor_spec count
  by_cases hle : count ≤ back.length + front.length
  · refine ⟨b₁, front₁, back₁, ?_, h₁, hfits hle⟩
    have hno : ¬b₁.availableWriteSize < count := by
      rw [h₁.available_eq]
      omega
    rw [ensureEnoughWriteSpace, hcompact, Option.bind_eq_bind, Option.bind_some, if_neg hno]
    rfl
  · have hok := hroom.resolve_left hle
    have hmax : cells.length + count ≤ ptrdiffMax := by
      simpa using (Bool.and_eq_true_iff.mp hok).2
    have hbound : ptrdiffMax = 0x7fffffffffffffff := rfl
    have hsize : sizeT (b₁.availableReadSize + count) = cells.length + count := by
      rw [h₁.availableReadSize_eq, sizeT_of_lt (by omega)]
    have hyes : b₁.availableWriteSize < count := by
      rw [h₁.available_eq]
      omega
    have hzero : cells.length + count ≠ 0 := by omega
    obtain ⟨b₂, back₂, hresize, h₂, hlen₂, _⟩ :=
      h₁.resize_spec hzero (Nat.le_add_right _ _) hok
    rw [← hsize] at hresize
    exact ⟨b₂, [], back₂, ensure_eq hcompact ok hyes hresize, h₂, by omega⟩

/-- Room is not made if there is no memory for it or its size overflows. -/
theorem ensure_refused (h : Layout b front cells back) {count : ℕ} {ok : Bool}
    (hcount : count < 0x10000000000000000) (hfull : back.length + front.length < count)
    (hno : ¬(ok && cells.length + count ≤ ptrdiffMax) = true)
    (hover : cells.length + count ≠ 0x10000000000000000) :
    ∃ error b', b.ensureEnoughWriteSpace ok count = some (some error, b') ∧ b'.readPos = 0 ∧
      (front = [] → b' = b) := by
  obtain ⟨b₁, front₁, back₁, hcompact, h₁, hlen, hmoved, _⟩ := h.compactFor_spec count
  obtain ⟨rfl, hsame⟩ := hmoved hfull
  have hbound := h.length_le
  have hmax : ptrdiffMax = 0x7fffffffffffffff := rfl
  have hyes : b₁.availableWriteSize < count := by
    rw [h₁.available_eq]
    omega
  have hrefused : sizeT (cells.length + count) ≠ 0 ∧
      ¬(cells.length ≤ sizeT (cells.length + count) ∧
        (ok && sizeT (cells.length + count) ≤ ptrdiffMax) = true) := by
    by_cases hsize : cells.length + count < 0x10000000000000000
    · rw [sizeT_of_lt hsize]
      exact ⟨by omega, fun hgranted => hno hgranted.2⟩
    · -- the wrapped sum is less than the unread bytes
      unfold sizeT
      exact ⟨by omega, fun hgranted => absurd hgranted.1 (by omega)⟩
  obtain ⟨error, hresize⟩ := h₁.resize_refused hrefused.1 hrefused.2
  rw [← h₁.availableReadSize_eq] at hresize
  exact ⟨.err none error, b₁, ensure_eq hcompact ok hyes hresize, h₁.readPos_eq, hsame⟩

/-- If the size is exactly 2 to the 64, the memory is freed. -/
theorem ensure_freed (h : Layout b front cells back) {count : ℕ} (ok : Bool)
    (hfull : back.length + front.length < count)
    (hover : cells.length + count = 0x10000000000000000) :
    ∃ b₁ : Buf, b.ensureEnoughWriteSpace ok count = some (none, b₁.free) := by
  obtain ⟨b₁, front₁, back₁, hcompact, h₁, hlen, _⟩ := h.compactFor_spec count
  have hyes : b₁.availableWriteSize < count := by
    rw [h₁.available_eq]
    omega
  have hsize : sizeT (b₁.availableReadSize + count) = 0 := by
    rw [h₁.availableReadSize_eq, hover]
    rfl
  have hresize : b₁.resize ok (sizeT (b₁.availableReadSize + count)) = some (none, b₁.free) := by
    rw [hsize, resize, if_pos rfl]
  exact ⟨b₁, ensure_eq hcompact ok hyes hresize⟩

theorem writeResizing_eq {b₁ b₂ : Buf} {data : WriteData} {ok : Bool} {error : Option Err}
    (hensure : b.ensureEnoughWriteSpace ok data.count = some (none, b₁))
    (hwrite : b₁.write data = some (error, b₂)) :
    b.writeResizing ok data = some (errFromErr error none, b₂) := by
  rw [writeResizing, hensure, Option.bind_eq_bind, Option.bind_some]
  simp only [errFromErr_none, hwrite]
  rfl

theorem writeResizing_refused {b₁ : Buf} {data : WriteData} {ok : Bool} {error : Err}
    (hensure : b.ensureEnoughWriteSpace ok data.count = some (some error, b₁)) :
    b.writeResizing ok data =
      some (some (.err (some "failed to ensure enough available write space") error), b₁) := by
  rw [writeResizing, hensure, Option.bind_eq_bind, Option.bind_some]
  rfl

theorem freed (b : Buf) : Layout b.free [] [] [] := ⟨rfl, rfl, rfl, rfl, rfl, Nat.zero_le _⟩

end Layout

/-! ## One operation -/

variable {op : BufOp} {b' : Buf} {stored front' cells' back' : List Cell}

/-- An operation returns, does what it has to, and leaves the rest of the queue. -/
def Keeps (b : Buf) (queue : List Cell) (op : BufOp) : Prop :=
  ∃ result b', b.exec op = some (result, b') ∧ b.Good queue op result b' ∧
    b'.Holds (after queue op result)

theorem Keeps.of_success (hexec : b.exec op = some (⟨none, stored⟩, b'))
    (h' : Layout b' front' cells' back') (hstored : Agrees (wanted queue op) stored)
    (hunread : Agrees (after queue op ⟨none, stored⟩) cells') : b.Keeps queue op :=
  ⟨_, b', hexec, ⟨h'.ordered, by simp, fun _ => hstored, h'.unread_eq.symm ▸ hunread⟩,
    _, _, _, h', hunread⟩

theorem Keeps.of_error {error : Err} (h : Layout b front cells back) (hqueue : Agrees queue cells)
    (hexec : b.exec op = some (⟨some error, []⟩, b)) : b.Keeps queue op :=
  ⟨_, b, hexec, ⟨h.ordered, fun _ => rfl, by simp, h.unread_eq.symm ▸ hqueue⟩,
    _, _, _, h, hqueue⟩

theorem Layout.keeps_write (h : Layout b front cells back) (hqueue : Agrees queue cells)
    {data : WriteData} (hmeets : b.Meets (.write data)) : b.Keeps queue (.write data) := by
  rw [Meets, h.immediately_eq, h.available_eq] at hmeets
  by_cases hfits : data.count ≤ back.length
  · obtain ⟨b', new, rest, hwrite, h', hnew⟩ := h.write_fits hfits
    exact .of_success (by rw [exec, hwrite]; rfl) h' .nil (List.rel_append hqueue hnew)
  · rcases hmeets.resolve_left hfits with hfull | ⟨hauto, hpointer⟩
    · obtain ⟨error, hwrite⟩ := h.write_refused hfull
      exact .of_error h hqueue (by rw [exec, hwrite]; rfl)
    · obtain ⟨bs, rfl⟩ : ∃ bs, data = .bytes bs := by
        cases data with
        | bytes bs => exact ⟨bs, rfl⟩
        | null count => simp [WriteData.pointer] at hpointer
      by_cases hroom : (WriteData.bytes bs).count ≤ back.length + front.length
      · obtain ⟨b', rest, hwrite, h'⟩ := h.write_compacts hroom (Nat.not_le.mp hfits) hauto
        exact .of_success (by rw [exec, hwrite]; rfl) h' .nil
          (List.rel_append hqueue (Agrees.refl _))
      · obtain ⟨error, hwrite⟩ := h.write_refused (Nat.not_le.mp hroom)
        exact .of_error h hqueue (by rw [exec, hwrite]; rfl)

theorem Layout.keeps_read (h : Layout b front cells back) (hqueue : Agrees queue cells)
    (pointer : Bool) (count : ℕ) : b.Keeps queue (.read pointer count) := by
  by_cases hle : count ≤ cells.length
  · obtain ⟨b', front', back', hread, h'⟩ := h.read_spec pointer hle
    refine .of_success (by rw [exec, hread]; rfl) h' ?_ (List.forall₂_drop count hqueue)
    cases pointer
    · exact .nil
    · exact List.forall₂_take count hqueue
  · obtain ⟨error, hread⟩ := h.read_refused pointer (Nat.not_le.mp hle)
    exact .of_error h hqueue (by rw [exec, hread]; rfl)

/-- Making room ends with room, or with an error that leaves the buffer as it was. -/
theorem Layout.ensure_cases (h : Layout b front cells back) {count : ℕ} {ok : Bool}
    (hcount : count < 0x10000000000000000) (hmeets : b.MakesRoom count ok) :
    (∃ b' front' back', b.ensureEnoughWriteSpace ok count = some (none, b') ∧
      Layout b' front' cells back' ∧ count ≤ back'.length) ∨
      ∃ error, b.ensureEnoughWriteSpace ok count = some (some error, b) := by
  rw [MakesRoom, h.available_eq, h.availableReadSize_eq, ← or_assoc] at hmeets
  by_cases hroom : count ≤ back.length + front.length ∨
      (ok && cells.length + count ≤ ptrdiffMax) = true
  · exact .inl (h.ensure_room hroom)
  · obtain ⟨hzero, hover⟩ := hmeets.resolve_left hroom
    rw [not_or] at hroom
    obtain ⟨error, b', hensure, _, hsame⟩ :=
      h.ensure_refused hcount (Nat.not_le.mp hroom.1) hroom.2 hover
    rw [hsame (h.front_eq_nil hzero)] at hensure
    exact .inr ⟨error, hensure⟩

theorem Layout.keeps_ensure (h : Layout b front cells back) (hqueue : Agrees queue cells)
    {count : ℕ} {ok : Bool} (hcount : count < 0x10000000000000000)
    (hmeets : b.MakesRoom count ok) : b.Keeps queue (.ensureEnoughWriteSpace count ok) := by
  rcases h.ensure_cases hcount hmeets with ⟨b', front', back', hensure, h', _⟩ | ⟨error, hensure⟩
  · exact .of_success (by rw [exec, hensure]; rfl) h' .nil hqueue
  · exact .of_error h hqueue (by rw [exec, hensure]; rfl)

theorem Layout.keeps_writeResizing (h : Layout b front cells back) (hqueue : Agrees queue cells)
    {data : WriteData} {ok : Bool} (hcount : data.count < 0x10000000000000000)
    (hmeets : b.MakesRoom data.count ok) : b.Keeps queue (.writeResizing data ok) := by
  rcases h.ensure_cases hcount hmeets with
    ⟨b₁, front₁, back₁, hensure, h₁, hfits⟩ | ⟨error, hensure⟩
  · obtain ⟨b', new, rest, hwrite, h', hnew⟩ := h₁.write_fits hfits
    exact .of_success (by rw [exec, writeResizing_eq hensure hwrite]; rfl) h' .nil
      (List.rel_append hqueue hnew)
  · exact .of_error h hqueue (by rw [exec, writeResizing_refused hensure]; rfl)

theorem Layout.keeps_resize (h : Layout b front cells back) (hqueue : Agrees queue cells) {n : ℕ}
    (ok : Bool) (hmeets : n ≠ 0 ∨ b.availableReadSize = 0) : b.Keeps queue (.resize n ok) := by
  by_cases hzero : n = 0
  · subst hzero
    have hcells : cells = [] := by
      rw [h.availableReadSize_eq] at hmeets
      exact List.length_eq_zero_iff.mp (hmeets.resolve_left (not_not.mpr rfl))
    exact .of_success (by rw [exec, resize, if_pos rfl]; rfl) (.freed b) .nil (hcells ▸ hqueue)
  · by_cases hgranted : cells.length ≤ n ∧ (ok && n ≤ ptrdiffMax) = true
    · obtain ⟨b', back', hresize, h', _⟩ := h.resize_spec hzero hgranted.1 hgranted.2
      exact .of_success (by rw [exec, hresize]; rfl) h' .nil hqueue
    · obtain ⟨error, hresize⟩ := h.resize_refused hzero hgranted
      exact .of_error h hqueue (by rw [exec, hresize]; rfl)

theorem Layout.keeps (h : Layout b front cells back) (hqueue : Agrees queue cells)
    (hsize : op.size < 0x10000000000000000) (hmeets : b.Meets op) : b.Keeps queue op := by
  cases op with
  | write data => exact h.keeps_write hqueue hmeets
  | read pointer count => exact h.keeps_read hqueue pointer count
  | writeResizing data ok => exact h.keeps_writeResizing hqueue hsize hmeets
  | ensureEnoughWriteSpace count ok => exact h.keeps_ensure hqueue hsize hmeets
  | resize newCapacity ok => exact h.keeps_resize hqueue ok hmeets
  | compact =>
      obtain ⟨b', back', hcompact, h', _⟩ := h.compact_spec
      exact .of_success (by rw [exec, hcompact]; rfl) h' .nil hqueue
  | reset =>
      have h' : Layout b.reset [] [] b.buf := by
        refine ⟨rfl, rfl, rfl, rfl, ?_, h.capacity_le⟩
        rw [h.buf_eq]
        simpa [reset, Nat.add_assoc] using h.capacity_eq
      exact .of_success rfl h' .nil .nil

/-! ## Operations that do not meet their conditions -/

variable {result : BufResult}

theorem not_agrees_freed (hqueue : Agrees queue cells) (hcells : cells.length ≠ 0) (b₁ : Buf) :
    ¬Agrees queue b₁.free.unread := by
  intro hunread
  have hlen := hqueue.length_eq
  rw [(Layout.freed b₁).unread_eq] at hunread
  exact hcells (hlen.symm.trans hunread.length_eq)

/-- Making room ends with an error and a buffer that has been moved, or with one that has been
freed. -/
theorem Layout.ensure_changes (h : Layout b front cells back) {count : ℕ} {ok : Bool}
    (hcount : count < 0x10000000000000000) (hmeets : ¬b.MakesRoom count ok) :
    (∃ error b₁, b.ensureEnoughWriteSpace ok count = some (some error, b₁) ∧ b₁ ≠ b) ∨
      ∃ b₁ : Buf, b.ensureEnoughWriteSpace ok count = some (none, b₁.free) ∧ count ≠ 0 ∧
        cells.length ≠ 0 := by
  rw [MakesRoom, h.available_eq, h.availableReadSize_eq, not_or, not_or, not_and, not_not] at hmeets
  obtain ⟨hfull, hno, hread⟩ := hmeets
  by_cases hover : cells.length + count = 0x10000000000000000
  · obtain ⟨b₁, hensure⟩ := h.ensure_freed ok (Nat.not_le.mp hfull) hover
    exact .inr ⟨b₁, hensure, by omega, by omega⟩
  · obtain ⟨error, b₁, hensure, hzero, _⟩ :=
      h.ensure_refused hcount (Nat.not_le.mp hfull) hno hover
    refine .inl ⟨error, b₁, hensure, ?_⟩
    rintro rfl
    exact hover (hread hzero)

theorem Layout.not_good_write (h : Layout b front cells back) {data : WriteData}
    (hmeets : ¬b.Meets (.write data)) (hexec : b.exec (.write data) = some (result, b')) :
    ¬b.Good queue (.write data) result b' := by
  rw [Meets, h.immediately_eq, h.available_eq, not_or, not_or, not_le, not_lt] at hmeets
  obtain ⟨hnot, hroom, hstays⟩ := hmeets
  rw [exec, Option.bind_eq_bind, Option.bind_eq_some_iff] at hexec
  obtain ⟨⟨error, b₁⟩, hwrite, hreturn⟩ := hexec
  obtain ⟨_, rfl⟩ := Prod.mk.inj (Option.some.inj hreturn)
  exact fun hgood => h.write_overruns hroom hnot hstays hwrite hgood.ordered

theorem Layout.not_good_ensure (h : Layout b front cells back) (hqueue : Agrees queue cells)
    {count : ℕ} {ok : Bool} (hcount : count < 0x10000000000000000)
    (hmeets : ¬b.MakesRoom count ok)
    (hexec : b.exec (.ensureEnoughWriteSpace count ok) = some (result, b')) :
    ¬b.Good queue (.ensureEnoughWriteSpace count ok) result b' := by
  rcases h.ensure_changes hcount hmeets with ⟨error, b₁, hensure, hne⟩ | ⟨b₁, hensure, _, hcells⟩
  · rw [exec, hensure] at hexec
    obtain ⟨rfl, rfl⟩ := Prod.mk.inj (Option.some.inj hexec)
    exact fun hgood => hne (hgood.unchanged rfl)
  · rw [exec, hensure] at hexec
    obtain ⟨rfl, rfl⟩ := Prod.mk.inj (Option.some.inj hexec)
    exact fun hgood => not_agrees_freed hqueue hcells b₁ hgood.unread

theorem Layout.not_good_writeResizing (h : Layout b front cells back) {data : WriteData}
    {ok : Bool} (hcount : data.count < 0x10000000000000000)
    (hmeets : ¬b.MakesRoom data.count ok)
    (hexec : b.exec (.writeResizing data ok) = some (result, b')) :
    ¬b.Good queue (.writeResizing data ok) result b' := by
  rcases h.ensure_changes hcount hmeets with
    ⟨error, b₁, hensure, hne⟩ | ⟨b₁, hensure, hzero, hcells⟩
  · rw [exec, writeResizing_refused hensure] at hexec
    obtain ⟨rfl, rfl⟩ := Prod.mk.inj (Option.some.inj hexec)
    exact fun hgood => hne (hgood.unchanged rfl)
  · -- there is no room in a buffer that has been freed
    obtain ⟨error, hwrite⟩ := (Layout.freed b₁).write_refused (Nat.pos_of_ne_zero hzero)
    rw [exec, writeResizing_eq hensure hwrite] at hexec
    obtain ⟨rfl, rfl⟩ := Prod.mk.inj (Option.some.inj hexec)
    intro hgood
    have hend := h.readEnd_eq
    rw [← hgood.unchanged rfl] at hend
    have hnone : b₁.free.readEnd = 0 := rfl
    omega

theorem Layout.not_good_resize (h : Layout b front cells back) (hqueue : Agrees queue cells)
    {n : ℕ} {ok : Bool} (hmeets : ¬(n ≠ 0 ∨ b.availableReadSize = 0))
    (hexec : b.exec (.resize n ok) = some (result, b')) :
    ¬b.Good queue (.resize n ok) result b' := by
  rw [not_or, not_not, h.availableReadSize_eq] at hmeets
  obtain ⟨rfl, hcells⟩ := hmeets
  rw [exec, resize, if_pos rfl] at hexec
  obtain ⟨rfl, rfl⟩ := Prod.mk.inj (Option.some.inj hexec)
  exact fun hgood => not_agrees_freed hqueue hcells b hgood.unread

theorem Layout.not_good (h : Layout b front cells back) (hqueue : Agrees queue cells)
    (hsize : op.size < 0x10000000000000000) (hmeets : ¬b.Meets op)
    (hexec : b.exec op = some (result, b')) : ¬b.Good queue op result b' := by
  cases op with
  | write data => exact h.not_good_write hmeets hexec
  | read pointer count => exact absurd trivial hmeets
  | writeResizing data ok => exact h.not_good_writeResizing hsize hmeets hexec
  | ensureEnoughWriteSpace count ok => exact h.not_good_ensure hqueue hsize hmeets hexec
  | resize newCapacity ok => exact h.not_good_resize hqueue hmeets hexec
  | compact => exact absurd trivial hmeets
  | reset => exact absurd trivial hmeets

/-! ## Sequences of operations -/

theorem Holds.sound_iff {ops : List BufOp} (hholds : b.Holds queue)
    (hsize : ∀ op ∈ ops, op.size < 0x10000000000000000) : b.Sound queue ops ↔ b.AllMeet ops := by
  induction ops generalizing b queue with
  | nil => exact Iff.rfl
  | cons op ops ih =>
      obtain ⟨front, cells, back, h, hqueue⟩ := hholds
      have hfirst := hsize op List.mem_cons_self
      have hrest := fun o ho => hsize o (List.mem_cons_of_mem op ho)
      constructor
      · rintro ⟨result, b', hexec, hgood, hsound⟩
        have hmeets : b.Meets op := by
          by_contra hnot
          exact h.not_good hqueue hfirst hnot hexec hgood
        obtain ⟨result₁, b₁, hexec₁, _, hholds₁⟩ := h.keeps hqueue hfirst hmeets
        rw [hexec, Option.some.injEq, Prod.mk.injEq] at hexec₁
        obtain ⟨rfl, rfl⟩ := hexec₁
        refine ⟨hmeets, fun result₂ b₂ hexec₂ => ?_⟩
        rw [hexec, Option.some.injEq, Prod.mk.injEq] at hexec₂
        obtain ⟨rfl, rfl⟩ := hexec₂
        exact (ih hholds₁ hrest).mp hsound
      · rintro ⟨hmeets, hall⟩
        obtain ⟨result, b', hexec, hgood, hholds'⟩ := h.keeps hqueue hfirst hmeets
        exact ⟨result, b', hexec, hgood, (ih hholds' hrest).mpr (hall result b' hexec)⟩

end Steps

theorem holds_new {ok : Bool} {capacity : ℕ} {autoCompact : Bool} {b : Buf}
    (hnew : new ok capacity autoCompact = .ok b) : b.Holds [] := by
  unfold new realloc at hnew
  split at hnew
  · simp at hnew
  · rename_i buf hbuf
    split at hbuf
    · rename_i hgranted
      obtain rfl := Except.ok.inj hnew
      have hmax : capacity ≤ ptrdiffMax := by simpa using (Bool.and_eq_true_iff.mp hgranted).2
      have hlen : buf.length = capacity := by
        rw [← Option.some.inj hbuf]
        exact Block.length_resize none [] capacity
      exact ⟨[], [], buf, ⟨rfl, rfl, rfl, rfl, by simp [hlen], hmax⟩, .nil⟩
    · simp at hbuf

/-- A sequence of operations on a new buffer does what it has to if and only if each of them meets
its condition. -/
theorem sound_iff_allMeet {ok : Bool} {capacity : ℕ} {autoCompact : Bool} {b : Buf}
    {ops : List BufOp} (hnew : new ok capacity autoCompact = .ok b)
    (hsize : ∀ op ∈ ops, op.size < 0x10000000000000000) : b.Sound [] ops ↔ b.AllMeet ops :=
  (holds_new hnew).sound_iff hsize

instance (b : Buf) (count : ℕ) (ok : Bool) : Decidable (b.MakesRoom count ok) :=
  inferInstanceAs (Decidable (_ ∨ _ ∨ _))

instance (b : Buf) (op : BufOp) : Decidable (b.Meets op) :=
  match op with
  | .write _ => inferInstanceAs (Decidable (_ ∨ _ ∨ _))
  | .writeResizing data ok => inferInstanceAs (Decidable (b.MakesRoom data.count ok))
  | .ensureEnoughWriteSpace count ok => inferInstanceAs (Decidable (b.MakesRoom count ok))
  | .resize _ _ => inferInstanceAs (Decidable (_ ∨ _))
  | .read _ _ | .compact | .reset => inferInstanceAs (Decidable True)

instance (b : Buf) (ops : List BufOp) : Decidable (b.AllMeet ops) :=
  match ops with
  | [] => inferInstanceAs (Decidable True)
  | op :: ops =>
      match hexec : b.exec op with
      | none => decidable_of_iff (b.Meets op) (by simp [AllMeet, hexec])
      | some (_, b') =>
          have := instDecidableAllMeet b' ops
          decidable_of_iff (b.Meets op ∧ b'.AllMeet ops) (by simp [AllMeet, hexec])

/-- What is read first makes room, and the rest is moved to use it. -/
theorem sound_compacting : ∃ b, new true 4 true = .ok b ∧
    b.Sound [] [.write (.bytes [1, 2, 3, 4]), .read true 2, .write (.bytes [5, 6]),
      .read true 4] := by
  have hnew : new true 4 true = .ok ⟨[none, none, none, none], 4, 0, 0, 0, true⟩ := by rfl
  exact ⟨_, hnew, (sound_iff_allMeet hnew (by decide)).mpr (by decide)⟩

theorem Sound.returns {b : Buf} {queue : List Cell} {ops : List BufOp} (h : b.Sound queue ops) :
    (ops.foldlM (fun (b : Buf) op => (b.exec op).map Prod.snd) b).isSome := by
  induction ops generalizing b queue with
  | nil => rfl
  | cons op ops ih =>
      obtain ⟨result, b', hexec, _, hsound⟩ := h
      rw [List.foldlM_cons, hexec]
      exact ih hsound

/-- Without the flag nothing is moved, and the second write ends outside of the memory. -/
theorem not_sound_overrun : ∃ b, new true 4 false = .ok b ∧
    ¬b.Sound [] [.write (.bytes [1, 2, 3, 4]), .read true 2, .write (.bytes [5, 6])] := by
  refine ⟨⟨[none, none, none, none], 4, 0, 0, 0, false⟩, by rfl, fun hsound => ?_⟩
  exact absurd hsound.returns (by decide)

end Buf

end HttpAio

end PosixThreads
