import PosixThreads.Collections.String.Spec

/-!
# Removing a slice from a string

`string_remove_slice` is `remove_slice` for the vector of the string, whose last element is the
terminator. So there is always something behind the slice that has to be moved. It also asserts
less than `remove_slice` does: an empty slice is allowed here and aborts there.

With it the functions that append or remove many elements are complete. When each of them does what
it should do is put together at the end.
-/

namespace PosixThreads

namespace StringT

variable {self : StringT} {bs : List UInt8} {start stop : ℕ}

theorem Holds.removeSlice_eq (hholds : Holds self bs) (hle : start ≤ stop) :
    removeSlice self start stop =
      (Vec.removeSlice 1 self.storage start (min stop bs.length)).map StringT.mk := by
  have hclip : (if stop > self.len then self.len else stop) = min stop bs.length := by
    rw [hholds.len]
    split_ifs <;> omega
  simp only [removeSlice, hle, decide_true, assertThat_true, hclip, Option.bind_eq_bind,
    Option.bind_some]
  cases Vec.removeSlice 1 self.storage start (min stop bs.length) <;> rfl

theorem Holds.removeSlice_iff (hholds : Holds self bs) (hle : start ≤ stop) :
    (∃ self', removeSlice self start stop = some self' ∧
      Holds self' (bs.take start ++ bs.drop (min stop bs.length))) ↔
      start < min stop bs.length ∧ Vec.Shifts 1 self.storage start (min stop bs.length) := by
  set e := min stop bs.length with he
  have hel : e ≤ bs.length := by omega
  rw [hholds.removeSlice_eq hle, ← he]
  by_cases hlt : start < e
  · have hlen := length_terminated bs
    have hvec := Vec.Represents.removeSlice_iff hholds Nat.one_pos hlt (by omega)
    rw [hlen, min_eq_left (by omega), ← List.map_take, ← List.map_drop, ← List.map_append,
      List.take_append_of_le_length (by omega), List.drop_append_of_le_length hel,
      ← List.append_assoc] at hvec
    rw [and_iff_right hlt, ← hvec]
    constructor
    · rintro ⟨self', hself', hholds'⟩
      obtain ⟨storage, hstorage, rfl⟩ := Option.map_eq_some_iff.mp hself'
      exact ⟨storage, hstorage, hholds'⟩
    · rintro ⟨storage, hstorage, hrepr⟩
      exact ⟨⟨storage⟩, by rw [hstorage]; rfl, hrepr⟩
  · have hnone : Vec.removeSlice 1 self.storage start e = none := by
      simp [Vec.removeSlice, hlt]
    rw [hnone]
    exact iff_of_false (by simp) fun h => hlt h.1

/-- When the functions for many elements do what they should do, without an access outside of the
storage. The elements have any size, and the vector and what is appended have any elements. -/
theorem bulk_iff {size : ℕ} (hsize : 0 < size) {v : Vec} {xs : List (Elem size)}
    (hrepr : v.Represents xs) (ok : Bool) (other : Option Vec) {ys : List (Elem size)}
    (hother : (other.getD v).Represents ys) (zs : List (Elem size))
    (hobject : zs.length * size ≤ ptrdiffMax) (first last : ℕ) (hlt : first < last)
    (hfirst : first ≤ xs.length) (hholds : Holds self bs) (start stop : ℕ) (hle : start ≤ stop) :
    (Vec.Becomes (Vec.append size ok v other) xs (xs ++ ys) ↔ Vec.Coincides ok v xs ys) ∧
      (Vec.Becomes (Vec.appendSlice size ok v (Vec.cells zs) zs.length) xs (xs ++ zs) ↔
        size = 1 ∨ zs = [] ∨ Vec.Denies size ok v (xs.length + zs.length * size)) ∧
      ((∃ v', Vec.removeSlice size v first last = some v' ∧
          v'.Represents (xs.take first ++ xs.drop (min last xs.length))) ↔
        Vec.Shifts size v first (min last xs.length)) ∧
      ((∃ self', removeSlice self start stop = some self' ∧
          Holds self' (bs.take start ++ bs.drop (min stop bs.length))) ↔
        start < min stop bs.length ∧ Vec.Shifts 1 self.storage start (min stop bs.length)) :=
  ⟨hrepr.append_iff hother hsize, hrepr.appendSlice_iff hsize hobject,
    hrepr.removeSlice_iff hsize hlt hfirst, hholds.removeSlice_iff hle⟩

/-- A vector of four bytes is appended to itself and loses its first half, and so does a string. -/
theorem bulk_of_bytes :
    Vec.Becomes (Vec.append 1 true ⟨[some 1, some 2, some 3, some 4], 4, 4⟩ none)
        ([1, 2, 3, 4].map byteElem) ([1, 2, 3, 4, 1, 2, 3, 4].map byteElem) ∧
      (∃ v', Vec.removeSlice 1 ⟨[some 1, some 2, some 3, some 4], 4, 4⟩ 0 2 = some v' ∧
        v'.Represents ([3, 4].map byteElem)) ∧
      ∃ self', removeSlice ⟨⟨[some 97, some 98, some 99, some 0], 4, 4⟩⟩ 0 2 = some self' ∧
        Holds self' [99] := by
  have hrepr : Vec.Represents ⟨[some 1, some 2, some 3, some 4], 4, 4⟩
      ([1, 2, 3, 4].map byteElem) := ⟨⟨[], rfl⟩, rfl, rfl, by simp [ptrdiffMax]⟩
  have hholds : Holds ⟨⟨[some 97, some 98, some 99, some 0], 4, 4⟩⟩ [97, 98, 99] :=
    ⟨⟨[], rfl⟩, rfl, rfl, by simp [ptrdiffMax]⟩
  obtain ⟨happend, _, hremove, hstring⟩ := bulk_iff Nat.one_pos hrepr true none hrepr []
    (Nat.zero_le _) 0 2 (by decide) (Nat.zero_le _) hholds 0 2 (by decide)
  refine ⟨happend.mpr fun _ => ⟨_, rfl⟩, hremove.mpr ?_, hstring.mpr ?_⟩
  · exact ⟨by decide, by decide⟩
  · exact ⟨by decide, by decide, by decide⟩

/-- Of an element of two bytes, the first one is appended. An array of one such element counts as
two elements. Without its second byte, a vector of four bytes has the fourth one in front of the
third one. The string `abc` without its second byte is not terminated. -/
theorem bulk_fails :
    ¬Vec.Becomes (Vec.append 2 true Vec.new (some ⟨[some 1, some 2], 1, 1⟩)) []
        [(⟨[some 1, some 2], rfl⟩ : Elem 2)] ∧
      ¬Vec.Becomes (Vec.appendSlice 2 true Vec.new [some 1, some 2] 1) []
        [(⟨[some 1, some 2], rfl⟩ : Elem 2)] ∧
      (¬∃ v', Vec.removeSlice 1 ⟨[some 1, some 2, some 3, some 4], 4, 4⟩ 1 2 = some v' ∧
        v'.Represents ([1, 3, 4].map byteElem)) ∧
      ¬∃ self', removeSlice ⟨⟨[some 97, some 98, some 99, some 0], 4, 4⟩⟩ 1 2 = some self' ∧
        Holds self' [97, 99] := by
  refine ⟨?_, ?_, ?_, ?_⟩
  · have happend : Vec.append 2 true Vec.new (some ⟨[some 1, some 2], 1, 1⟩) =
        some (none, ⟨[some 1, none], 1, 1⟩) := by decide
    rw [happend, Vec.Represents.becomes_some]
    rintro ⟨⟨spare, hspare⟩, _, _, _⟩
    simp [Vec.cells] at hspare
  · have happend : Vec.appendSlice 2 true Vec.new [some 1, some 2] 1 =
        some (none, ⟨[some 1, some 2, none, none], 2, 2⟩) := by decide
    rw [happend, Vec.Represents.becomes_some]
    rintro ⟨_, hlen, _, _⟩
    simp at hlen
  · have hremove : Vec.removeSlice 1 ⟨[some 1, some 2, some 3, some 4], 4, 4⟩ 1 2 =
        some ⟨[some 1, some 4, some 3, some 4], 4, 3⟩ := by decide
    rw [hremove]
    rintro ⟨v', hv', ⟨spare, hspare⟩, _, _, _⟩
    obtain rfl := Option.some.inj hv'
    simp [Vec.cells, byteElem] at hspare
  · have hremove : removeSlice ⟨⟨[some 97, some 98, some 99, some 0], 4, 4⟩⟩ 1 2 =
        some ⟨⟨[some 97, some 0, some 99, some 0], 4, 3⟩⟩ := by decide
    rw [hremove]
    rintro ⟨self', hself', ⟨spare, hspare⟩, _, _, _⟩
    obtain rfl := Option.some.inj hself'
    simp [Vec.cells, byteElem] at hspare

end StringT

end PosixThreads
