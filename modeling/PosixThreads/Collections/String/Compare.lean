import PosixThreads.Collections.String.Spec

/-!
# Comparing strings

`string_cmp` compares the bytes up to the terminator of the shorter string. Two strings are always
compared the same way, from either side. Where no byte of a string is null, the terminator precedes
every byte of the longer one, and the comparison is the lexicographic one.
-/

namespace PosixThreads

/-- `memcmp`, of whose result the sign is meant. It may look at the given bytes only. -/
def memcmp : List Cell → List Cell → ℕ → Option ℤ
  | _, _, 0 => some 0
  | some a :: as, some b :: bs, n + 1 =>
      if a < b then some (-1) else if b < a then some 1 else memcmp as bs n
  | _, _, _ + 1 => none

namespace StringT

/-- `string_as_ptr`. There are no bytes behind `NULL`. -/
def asPtr (self : StringT) : List Cell := if self.storage.len = 0 then [] else self.storage.storage

def cmp (self other : StringT) : Option ℤ :=
  let len := if other.len < self.len then other.len else self.len
  memcmp self.asPtr other.asPtr (sizeT (len + 1))

def bytes (self : StringT) : List UInt8 := (self.storage.storage.take self.len).filterMap id

/-- A string that is well-formed and has no null byte in front of its terminator. -/
structure Plain (str : StringT) : Prop where
  holds : Holds str str.bytes
  no_null : 0 ∉ str.bytes

section Cmp

variable {self other : StringT} {as bs : List UInt8}

theorem Holds.bytes_eq (hholds : Holds self bs) : self.bytes = bs := by
  have hid : (id : Cell → Option UInt8) ∘ some = some := rfl
  obtain ⟨spare, hspare⟩ := hholds.storage_eq
  have htake : self.storage.storage.take self.len = bs.map some := by
    rw [hholds.len, hspare, ← List.length_map some, List.take_left]
  rw [bytes, htake, List.filterMap_map, hid, List.filterMap_some]

theorem Holds.plain (hholds : Holds self bs) (hnull : 0 ∉ bs) : Plain self := by
  have hbytes := hholds.bytes_eq
  exact ⟨by rwa [hbytes], by rwa [hbytes]⟩

theorem Holds.asPtr_eq (hholds : Holds self bs) :
    ∃ spare, self.asPtr = bs.map some ++ some 0 :: spare := by
  have hne : self.storage.len ≠ 0 := by
    rw [hholds.vec_len]
    omega
  rw [asPtr, if_neg hne]
  exact hholds.storage_eq

/-- From the other side the bytes compare the other way round. -/
theorem memcmp_swap (cells cells' : List Cell) (n : ℕ) :
    memcmp cells' cells n = (memcmp cells cells' n).map Neg.neg := by
  fun_induction memcmp cells cells' n with
  | case1 => simp [memcmp]
  | case2 a as b bs n hlt => simp [memcmp, hlt, UInt8.lt_asymm hlt]
  | case3 a as b bs n hlt hgt => simp [memcmp, hgt]
  | case4 a as b bs n hlt hgt ih => simp [memcmp, hlt, hgt, ih]
  | case5 cells cells' n h =>
      rw [Option.map_none]
      cases cells with
      | nil => rcases cells' with _ | ⟨_ | _, _⟩ <;> rfl
      | cons a as =>
          cases a with
          | none => rcases cells' with _ | ⟨_ | _, _⟩ <;> rfl
          | some a =>
              rcases cells' with _ | ⟨_ | b, bs⟩
              · rfl
              · rfl
              · exact (h a as b bs rfl rfl).elim

theorem exists_memcmp (as bs : List UInt8) (spare spare' : List Cell) :
    ∃ c, memcmp (as.map some ++ some 0 :: spare) (bs.map some ++ some 0 :: spare')
      (min as.length bs.length + 1) = some c := by
  induction as generalizing bs with
  | nil =>
      cases bs with
      | nil => exact ⟨0, by simp [memcmp]⟩
      | cons b bs => exact ⟨if 0 < b then -1 else 0, by simp [memcmp, apply_ite some]⟩
  | cons a as ih =>
      cases bs with
      | nil => exact ⟨if 0 < a then 1 else 0, by simp [memcmp, apply_ite some]⟩
      | cons b bs =>
          obtain ⟨c, hc⟩ := ih bs
          refine ⟨if a < b then -1 else if b < a then 1 else c, ?_⟩
          rw [List.map_cons, List.map_cons, List.cons_append, List.cons_append, List.length_cons,
            List.length_cons, Nat.succ_min_succ, memcmp, hc, apply_ite some, apply_ite some]

/-- The terminator of the shorter string decides if nothing in front of it does. -/
theorem memcmp_spec (has : 0 ∉ as) (hbs : 0 ∉ bs) (spare spare' : List Cell) :
    ∃ c, memcmp (as.map some ++ some 0 :: spare) (bs.map some ++ some 0 :: spare')
      (min as.length bs.length + 1) = some c ∧ (c > 0 ↔ bs < as) := by
  induction as generalizing bs with
  | nil =>
      have hnot : ¬bs < [] := List.not_lt_nil bs
      cases bs with
      | nil => exact ⟨0, by simp [memcmp], by simp⟩
      | cons b bs =>
          have hb : 0 < b := UInt8.pos_iff_ne_zero.mpr fun heq => hbs (by simp [heq])
          exact ⟨-1, by simp [memcmp, hb], iff_of_false (by omega) hnot⟩
  | cons a as ih =>
      have ha : 0 < a := UInt8.pos_iff_ne_zero.mpr fun heq => has (by simp [heq])
      cases bs with
      | nil =>
          have hlt : [] < a :: as := List.nil_lt_cons a as
          exact ⟨1, by simp [memcmp, ha], iff_of_true (by omega) hlt⟩
      | cons b bs =>
          have has' : 0 ∉ as := fun hmem => has (List.mem_cons_of_mem a hmem)
          have hbs' : 0 ∉ bs := fun hmem => hbs (List.mem_cons_of_mem b hmem)
          rw [List.map_cons, List.map_cons, List.cons_append, List.cons_append, List.length_cons,
            List.length_cons, Nat.succ_min_succ, memcmp, List.cons_lt_cons_iff]
          rcases Std.lt_trichotomy a b with hlt | rfl | hgt
          · refine ⟨-1, if_pos hlt, iff_of_false (by omega) ?_⟩
            rintro (hgt | ⟨rfl, -⟩)
            · exact UInt8.lt_asymm hlt hgt
            · exact UInt8.lt_irrefl _ hlt
          · obtain ⟨c, hc, hsign⟩ := ih has' hbs'
            refine ⟨c, ?_, hsign.trans ?_⟩
            · rw [if_neg (UInt8.lt_irrefl a), if_neg (UInt8.lt_irrefl a), hc]
            · simp
          · refine ⟨1, ?_, iff_of_true (by omega) (.inl hgt)⟩
            rw [if_neg (UInt8.lt_asymm hgt), if_pos hgt]

theorem cmp_swap (self other : StringT) : cmp other self = (cmp self other).map Neg.neg := by
  have hmin : (if self.len < other.len then self.len else other.len) =
      if other.len < self.len then other.len else self.len := by
    split_ifs <;> omega
  rw [cmp, cmp, hmin]
  exact memcmp_swap _ _ _

theorem Holds.cmp_eq (hself : Holds self as) (hother : Holds other bs) :
    ∃ spare spare', cmp self other =
      memcmp (as.map some ++ some 0 :: spare) (bs.map some ++ some 0 :: spare')
        (min as.length bs.length + 1) := by
  obtain ⟨spare, hptr⟩ := hself.asPtr_eq
  obtain ⟨spare', hptr'⟩ := hother.asPtr_eq
  have hmin : (if other.len < self.len then other.len else self.len) =
      min as.length bs.length := by
    rw [hself.len, hother.len]
    split_ifs <;> omega
  have hlt := hself.length_lt
  have hsize : min as.length bs.length + 1 < 0x10000000000000000 := by
    unfold ptrdiffMax at hlt
    omega
  exact ⟨spare, spare', by rw [cmp, hmin, sizeT_of_lt hsize, hptr, hptr']⟩

theorem Holds.exists_cmp (hself : Holds self as) (hother : Holds other bs) :
    ∃ c, cmp self other = some c := by
  obtain ⟨spare, spare', hcmp⟩ := hself.cmp_eq hother
  rw [hcmp]
  exact exists_memcmp as bs spare spare'

theorem Plain.cmp_spec (hself : Plain self) (hother : Plain other) :
    ∃ c, cmp self other = some c ∧ (c > 0 ↔ other.bytes < self.bytes) := by
  obtain ⟨spare, spare', hcmp⟩ := hself.holds.cmp_eq hother.holds
  rw [hcmp]
  exact memcmp_spec hself.no_null hother.no_null spare spare'

end Cmp

end StringT

end PosixThreads
