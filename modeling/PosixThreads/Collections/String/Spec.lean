import PosixThreads.Collections.String.Basic

/-!
# What the functions of strings do

One lemma for each function says what becomes of the bytes of a string. A function that needs
memory and does not get it leaves a string with the same bytes. For appending this means that the
terminator is put back: either nothing has been moved, so the room for it is still there, or the
vector has become longer, so the place where it has been can be written to.
-/

namespace PosixThreads

namespace StringT

variable {self other : StringT} {bs cs : List UInt8} {pos : ℕ}

theorem cells_bytes (bs : List UInt8) : Vec.cells (bs.map byteElem) = bs.map some := by
  induction bs with
  | nil => rfl
  | cons b bs ih =>
      rw [List.map_cons, Vec.cells_cons, ih]
      rfl

theorem length_terminated (bs : List UInt8) :
    ((bs ++ [0]).map byteElem).length = bs.length + 1 := by
  rw [List.length_map, List.length_append, List.length_singleton]

namespace Holds

theorem vec_len (hholds : Holds self bs) : self.storage.len = bs.length + 1 :=
  hholds.len_eq.trans (length_terminated bs)

theorem room (hholds : Holds self bs) : bs.length < self.storage.capacity := by
  have hle := hholds.length_le Nat.one_pos
  rwa [length_terminated] at hle

theorem length_lt (hholds : Holds self bs) : bs.length < ptrdiffMax :=
  hholds.room.trans_le (hholds.capacity_le Nat.one_pos)

theorem sizeSub_vec_len (hholds : Holds self bs) : sizeSub self.storage.len 1 = bs.length := by
  have hlt := hholds.length_lt
  unfold ptrdiffMax at hlt
  rw [hholds.vec_len, sizeSub_of_le (by omega) (by omega), Nat.add_sub_cancel]

theorem len (hholds : Holds self bs) : self.len = bs.length := hholds.sizeSub_vec_len

theorem storage_eq (hholds : Holds self bs) :
    ∃ spare, self.storage.storage = bs.map some ++ some 0 :: spare := by
  obtain ⟨spare, hspare⟩ := hholds.storage
  refine ⟨spare, ?_⟩
  rw [hspare, cells_bytes, List.map_append, List.append_assoc]
  rfl

theorem insert_spec (hholds : Holds self bs) (ok : Bool) (ch : UInt8) (hpos : pos ≤ bs.length) :
    insert ok self pos ch = some (some .memoryAllocationFailure, self) ∧
        (ok = true → ptrdiffMax < 2 * bs.length + 3) ∨
      ∃ self', insert ok self pos ch = some (none, self') ∧
        Holds self' (bs.take pos ++ ch :: bs.drop pos) := by
  have hassert : pos < self.storage.len := by
    rw [hholds.vec_len]
    omega
  have hle : pos ≤ ((bs ++ [0]).map byteElem).length := by
    rw [length_terminated]
    omega
  simp only [insert, hassert, decide_true, assertThat_true, Option.bind_eq_bind, Option.bind_some]
  rcases Vec.Represents.insert_spec hholds ok Nat.one_pos (by simp [ptrdiffMax]) hle
    (byteElem ch) with ⟨hfail, _, hmemory⟩ | ⟨storage, hinsert, hrepr⟩
  · rw [length_terminated, Nat.mul_one] at hmemory
    rw [hfail]
    exact .inl ⟨rfl, hmemory⟩
  · rw [hinsert]
    refine .inr ⟨⟨storage⟩, rfl, ?_⟩
    rw [← List.map_take, ← List.map_drop, ← List.map_cons, ← List.map_append,
      List.take_append_of_le_length hpos, List.drop_append_of_le_length hpos] at hrepr
    rw [Holds, List.append_assoc, List.cons_append]
    exact hrepr

theorem push_spec (hholds : Holds self bs) (ok : Bool) (ch : UInt8) :
    push ok self ch = some (some .memoryAllocationFailure, self) ∧
        (ok = true → ptrdiffMax < 2 * bs.length + 3) ∨
      ∃ self', push ok self ch = some (none, self') ∧ Holds self' (bs ++ [ch]) := by
  have hspec := hholds.insert_spec ok ch le_rfl
  rw [List.take_length, List.drop_length] at hspec
  rw [push, hholds.sizeSub_vec_len]
  exact hspec

end Holds

theorem new_spec (ok : Bool) :
    new ok = some (.error .memoryAllocationFailure) ∧ ok = false ∨
      ∃ self, new ok = some (.ok self) ∧ Holds self [] := by
  rcases Vec.Represents.new.push_spec ok Nat.one_pos (by simp [ptrdiffMax]) (byteElem 0) with
    ⟨hfail, _, hmemory⟩ | ⟨storage, hpush, hrepr⟩
  · refine .inl ⟨?_, Bool.eq_false_iff.mpr fun hok => absurd (hmemory hok) (by simp [ptrdiffMax])⟩
    simp only [new, hfail, Option.bind_eq_bind, Option.bind_some]
    rfl
  · refine .inr ⟨⟨storage⟩, ?_, hrepr⟩
    simp only [new, hpush, Option.bind_eq_bind, Option.bind_some]
    rfl

theorem Holds.pushAll_spec (hholds : Holds self bs) (allocs : Alloc) (slice : List UInt8) :
    pushAll allocs self slice = some (.error .memoryAllocationFailure) ∧
        ((∀ n, allocs n = true) → ptrdiffMax < 2 * (bs.length + slice.length) + 1) ∨
      ∃ self', pushAll allocs self slice = some (.ok self') ∧ Holds self' (bs ++ slice) := by
  induction slice generalizing self bs allocs with
  | nil => exact .inr ⟨self, rfl, by rwa [List.append_nil]⟩
  | cons ch rest ih =>
      simp only [pushAll, Option.bind_eq_bind]
      rcases hholds.push_spec (allocs 0) ch with ⟨hfail, hmemory⟩ | ⟨self', hpush, hholds'⟩
      · rw [hfail]
        refine .inl ⟨rfl, fun hallocs => ?_⟩
        have hlt := hmemory (hallocs 0)
        rw [List.length_cons]
        omega
      · rw [hpush]
        have hrest := ih hholds' fun i => allocs (i + 1)
        rw [List.append_assoc, List.singleton_append, List.length_append, List.length_singleton,
          Nat.add_assoc, Nat.add_comm 1] at hrest
        exact hrest.imp_left fun h => ⟨h.1, fun hallocs => h.2 fun i => hallocs (i + 1)⟩

theorem fromSlice_spec (allocs : Alloc) (slice : List UInt8) :
    fromSlice allocs slice = some (.error .memoryAllocationFailure) ∧
        ((∀ n, allocs n = true) → ptrdiffMax < 2 * slice.length + 1) ∨
      ∃ self, fromSlice allocs slice = some (.ok self) ∧ Holds self slice := by
  simp only [fromSlice, Option.bind_eq_bind]
  rcases new_spec (allocs 0) with ⟨hfail, hok⟩ | ⟨self, hnew, hholds⟩
  · rw [hfail]
    exact .inl ⟨rfl, fun hallocs => absurd (hallocs 0) (by simp [hok])⟩
  · rw [hnew]
    have hpush := hholds.pushAll_spec (fun i => allocs (i + 1)) slice
    rw [List.length_nil, Nat.zero_add] at hpush
    exact hpush.imp_left fun h => ⟨h.1, fun hallocs => h.2 fun i => hallocs (i + 1)⟩

namespace Holds

/-! ## Removing -/

theorem remove_spec (hholds : Holds self bs) (hpos : pos < bs.length) :
    ∃ self', remove self pos = some self' ∧ Holds self' (bs.take pos ++ bs.drop (pos + 1)) := by
  have hassert : pos < self.len := by rwa [hholds.len]
  have hlt : pos < ((bs ++ [0]).map byteElem).length := by
    rw [length_terminated]
    omega
  obtain ⟨storage, hremove, _, hrepr⟩ := Vec.Represents.remove_spec hholds hlt
  refine ⟨⟨storage⟩, ?_, ?_⟩
  · simp only [remove, hassert, decide_true, assertThat_true, hremove, Option.bind_eq_bind,
      Option.bind_some]
    rfl
  · rw [← List.map_take, ← List.map_drop, ← List.map_append,
      List.take_append_of_le_length hpos.le, List.drop_append_of_le_length hpos] at hrepr
    rw [Holds, List.append_assoc]
    exact hrepr

theorem cut (hholds : Holds self bs) {len : ℕ} (hlen : len ≤ bs.length) :
    ∃ storage, self.storage.setLen (len + 1) = some { self.storage with len := len + 1 } ∧
      Vec.setAt 1 { self.storage with len := len + 1 } len (byteElem 0) = some storage ∧
      Holds ⟨storage⟩ (bs.take len) := by
  have hle : len + 1 ≤ ((bs ++ [0]).map byteElem).length := by
    rw [length_terminated]
    omega
  have hshort : (((bs ++ [0]).map byteElem).take (len + 1)).length = len + 1 := by
    rw [List.length_take, min_eq_left hle]
  have hlt : len < (((bs ++ [0]).map byteElem).take (len + 1)).length := by omega
  obtain ⟨storage, hset, _, hrepr⟩ :=
    (Vec.Represents.truncate hholds hle).setAt_spec hlt (byteElem 0)
  refine ⟨storage, Vec.Represents.setLen_eq hholds Nat.one_pos hle, hset, ?_⟩
  rw [List.take_take, min_eq_left (Nat.le_succ len), List.drop_eq_nil_of_le hshort.le,
    ← List.map_take, List.take_append_of_le_length hlen] at hrepr
  rw [Holds, List.map_append]
  exact hrepr

theorem clear_spec (hholds : Holds self bs) :
    ∃ self', clear self = some self' ∧ Holds self' [] := by
  obtain ⟨storage, hlen, hset, hholds'⟩ := hholds.cut (Nat.zero_le _)
  refine ⟨⟨storage⟩, ?_, hholds'⟩
  simp only [clear, hlen, hset, Option.bind_eq_bind, Option.bind_some]
  rfl

/-- The terminator is taken away. There is room for it now. -/
theorem unterminate (hholds : Holds self bs) :
    ∃ storage, Vec.remove 1 self.storage bs.length = some storage ∧
      bs.length < storage.capacity ∧ storage.Represents (bs.map byteElem) := by
  have hlen := length_terminated bs
  have hlt : bs.length < ((bs ++ [0]).map byteElem).length := by omega
  obtain ⟨storage, hremove, hcap, hrepr⟩ := Vec.Represents.remove_spec hholds hlt
  refine ⟨storage, hremove, hcap ▸ hholds.room, ?_⟩
  rwa [List.drop_eq_nil_of_le hlen.le, ← List.map_take, List.take_left, List.append_nil] at hrepr

end Holds

/-- With room, the terminator is put behind the bytes. -/
theorem terminate {storage : Vec} (hrepr : storage.Represents (bs.map byteElem))
    (hroom : bs.length < storage.capacity) (ok : Bool) :
    ∃ storage', Vec.push 1 ok storage (byteElem 0) = some (none, storage') ∧
      Holds ⟨storage'⟩ bs := by
  rcases hrepr.push_spec ok Nat.one_pos (by simp [ptrdiffMax]) (byteElem 0) with
    ⟨_, hfull, _⟩ | ⟨storage', hpush, hrepr'⟩
  · rw [List.length_map] at hfull
    exact absurd hfull hroom.ne'
  · refine ⟨storage', hpush, ?_⟩
    rw [Holds, List.map_append]
    exact hrepr'

theorem restore {storage : Vec} (hrepr : storage.Represents ((bs ++ cs).map byteElem))
    (hcs : cs ≠ []) :
    ∃ storage', Vec.setAt 1 storage bs.length (byteElem 0) = some storage' ∧
      storage'.setLen (bs.length + 1) = some { storage' with len := bs.length + 1 } ∧
      Holds ⟨{ storage' with len := bs.length + 1 }⟩ bs := by
  have hpos : 0 < cs.length := List.length_pos_iff.mpr hcs
  have hlt : bs.length < ((bs ++ cs).map byteElem).length := by
    rw [List.length_map, List.length_append]
    omega
  obtain ⟨storage', hset, _, hrepr'⟩ := hrepr.setAt_spec hlt (byteElem 0)
  rw [← List.map_take, List.take_left] at hrepr'
  have hle : bs.length + 1 ≤
      (bs.map byteElem ++
        byteElem 0 :: ((bs ++ cs).map byteElem).drop (bs.length + 1)).length := by
    rw [List.length_append, List.length_cons, List.length_map]
    omega
  refine ⟨storage', hset, hrepr'.setLen_eq Nat.one_pos hle, ?_⟩
  have hcut := hrepr'.truncate hle
  rw [← List.length_map byteElem, List.take_length_add_append] at hcut
  rw [Holds, List.map_append, ← List.length_map byteElem]
  exact hcut

namespace Holds

theorem append_spec (hholds : Holds self bs) (hother : Holds other cs) (ok okNul : Bool) :
    (∃ self', append ok okNul self other = some (some .memoryAllocationFailure, self') ∧
      Holds self' bs) ∨
      ∃ self', append ok okNul self other = some (none, self') ∧ Holds self' (bs ++ cs) := by
  obtain ⟨storage, hremove, hroom, hrepr⟩ := hholds.unterminate
  simp only [append, hholds.sizeSub_vec_len, hremove, Option.bind_eq_bind, Option.bind_some]
  rcases hrepr.append_spec ok (some other.storage) hother with
    hfail | ⟨storage', happend, hrepr'⟩
  · obtain ⟨storage', hpush, hholds'⟩ := terminate hrepr hroom okNul
    rw [hfail]
    simp only [hpush, Option.bind_some]
    exact .inl ⟨⟨storage'⟩, rfl, hholds'⟩
  · rw [happend]
    refine .inr ⟨⟨storage'⟩, rfl, ?_⟩
    rw [Holds, List.append_assoc, List.map_append]
    exact hrepr'

theorem appendSlice_spec (hholds : Holds self bs) (hobject : cs.length ≤ ptrdiffMax)
    (ok okNul : Bool) :
    (∃ self', appendSlice ok okNul self cs = some (some .memoryAllocationFailure, self') ∧
      Holds self' bs) ∨
      ∃ self', appendSlice ok okNul self cs = some (none, self') ∧ Holds self' (bs ++ cs) := by
  obtain ⟨storage, hremove, hroom, hrepr⟩ := hholds.unterminate
  have hbytes : (cs.map byteElem).length * 1 ≤ ptrdiffMax := by
    rwa [List.length_map, Nat.mul_one]
  have hslice := hrepr.appendSlice_spec ok Nat.one_pos hbytes (Nat.mul_one _)
  rw [cells_bytes, List.length_map, ← List.map_append] at hslice
  simp only [appendSlice, hholds.sizeSub_vec_len, hremove, Option.bind_eq_bind, Option.bind_some]
  rcases hslice with hfail | ⟨longer, happend, hcap, hlonger⟩
  · -- nothing has been moved, so there is room for the terminator
    obtain ⟨storage', hpush, hholds'⟩ := terminate hrepr hroom okNul
    obtain ⟨restored, hset, hlen, hrestored⟩ := restore hholds' (by simp)
    rw [hfail]
    simp only [hpush, Option.bind_some, Option.some_or, hset, hholds.vec_len, hlen]
    exact .inl ⟨_, rfl, hrestored⟩
  · rw [happend]
    simp only [Option.bind_some]
    rcases hlonger.push_spec okNul Nat.one_pos (by simp [ptrdiffMax]) (byteElem 0) with
      ⟨hfail, hfull, _⟩ | ⟨storage', hpush, hrepr'⟩
    · -- the storage has been moved, so there is something behind the bytes
      have hcs : cs ≠ [] := by
        rintro rfl
        rw [List.length_map, List.append_nil] at hfull
        omega
      obtain ⟨restored, hset, hlen, hrestored⟩ := restore hlonger hcs
      rw [hfail]
      simp only [Option.bind_some, Option.none_or, hset, hholds.vec_len, hlen]
      exact .inl ⟨_, rfl, hrestored⟩
    · rw [hpush]
      refine .inr ⟨⟨storage'⟩, rfl, ?_⟩
      rw [Holds, List.map_append]
      exact hrepr'

end Holds

end StringT

end PosixThreads
