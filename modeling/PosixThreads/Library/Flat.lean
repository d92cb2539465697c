import Mathlib.Data.List.Basic
import Mathlib.Data.Nat.Basic

/-!
# Flat memory

A memory that gives every address of 64 bits a content. An extent is a number of addresses from a
base on; the sum of a base and an offset wraps around, so `a - base` is the offset of the address
`a` whatever the base is.

`copy` takes an extent to another base. An extent inside the source is found again at the same
offset of the destination, and an extent that the destination does not overlap stays as it was.
-/

namespace Flat

/-- `len` addresses from `base` on. -/
structure Extent where
  base : UInt64
  len : UInt64
  deriving DecidableEq, Repr

namespace Extent

variable {β : Type*} {s e : Extent}

def Contains (e : Extent) (a : UInt64) : Prop := a - e.base < e.len

instance (e : Extent) (a : UInt64) : Decidable (e.Contains a) :=
  inferInstanceAs (Decidable (a - e.base < e.len))

def Inside (s e : Extent) : Prop := (s.base - e.base).toNat + s.len.toNat ≤ e.len.toNat

instance (s e : Extent) : Decidable (s.Inside e) := inferInstanceAs (Decidable (_ ≤ _))

def Disjoint (s e : Extent) : Prop := ∀ a, s.Contains a → ¬ e.Contains a

/-- The extent that is as far from `newBase` as `s` is from `base`. -/
def rebase (base newBase : UInt64) (s : Extent) : Extent := ⟨newBase + (s.base - base), s.len⟩

def read (m : UInt64 → β) (s : Extent) : List β :=
  (List.range s.len.toNat).map fun i => m (s.base + UInt64.ofNat i)

@[simp] theorem rebase_base_sub (base newBase : UInt64) (s : Extent) :
    (s.rebase base newBase).base - newBase = s.base - base := by
  unfold rebase
  grind

@[simp] theorem length_read (m : UInt64 → β) (s : Extent) :
    (s.read m).length = s.len.toNat := by
  simp [read]

theorem read_of_len_eq_zero (m : UInt64 → β) (h : s.len = 0) : s.read m = [] := by
  simp [read, h]

/-- Contents are compared address by address. -/
theorem read_eq_read {m m' : UInt64 → β} {s s' : Extent} (hlen : s.len = s'.len)
    (h : ∀ i < s.len.toNat, m (s.base + UInt64.ofNat i) = m' (s'.base + UInt64.ofNat i)) :
    s.read m = s'.read m' := by
  unfold read
  rw [← hlen]
  exact List.map_congr_left fun i hi => h i (List.mem_range.mp hi)

theorem inside_refl (e : Extent) : e.Inside e := by
  simp [Inside]

theorem contains_add {i : ℕ} (hi : i < s.len.toNat) : s.Contains (s.base + UInt64.ofNat i) := by
  have hoffset : s.base + UInt64.ofNat i - s.base = UInt64.ofNat i := by
    grind
  have hi' : i < UInt64.size := lt_trans hi s.len.toNat_lt
  unfold Contains
  rw [hoffset, UInt64.lt_iff_toNat_lt, UInt64.toNat_ofNat_of_lt' hi']
  exact hi

theorem Inside.contains (h : s.Inside e) {a : UInt64} (ha : s.Contains a) : e.Contains a := by
  have hoffset : a - e.base = (s.base - e.base) + (a - s.base) := by
    grind
  have hlt := e.len.toNat_lt
  unfold Inside at h
  unfold Contains at ha ⊢
  rw [UInt64.lt_iff_toNat_lt] at ha ⊢
  rw [hoffset, UInt64.toNat_add, Nat.mod_eq_of_lt (by omega)]
  omega

theorem Inside.disjoint {e' : Extent} (h : s.Inside e) (he : e.Disjoint e') : s.Disjoint e' :=
  fun a ha => he a (h.contains ha)

theorem Inside.read_eq (m : UInt64 → β) (h : s.Inside e) :
    s.read m = ((e.read m).drop (s.base - e.base).toNat).take s.len.toNat := by
  have haddress : ∀ i : ℕ, s.base + UInt64.ofNat i =
      e.base + UInt64.ofNat ((s.base - e.base).toNat + i) := by
    intro i
    rw [UInt64.ofNat_add, UInt64.ofNat_toNat]
    grind
  unfold Inside at h
  refine List.ext_getElem ?_ fun i hi _ => ?_
  · simp only [length_read, List.length_take, List.length_drop]
    omega
  · simp only [read, List.getElem_map, List.getElem_range, List.getElem_take, List.getElem_drop,
      haddress i]

end Extent

def copy {β : Type*} (m : UInt64 → β) (dst : UInt64) (src : Extent) : UInt64 → β := fun a =>
  if a - dst < src.len then m (src.base + (a - dst)) else m a

section Copy

variable {β : Type*} {m : UInt64 → β} {dst : UInt64} {src s : Extent}

theorem copy_of_contains {a : UInt64} (h : Extent.Contains ⟨dst, src.len⟩ a) :
    copy m dst src a = m (src.base + (a - dst)) :=
  if_pos h

theorem copy_of_not_contains {a : UInt64} (h : ¬ Extent.Contains ⟨dst, src.len⟩ a) :
    copy m dst src a = m a :=
  if_neg h

theorem read_copy_rebase (h : s.Inside src) :
    (s.rebase src.base dst).read (copy m dst src) = s.read m := by
  refine Extent.read_eq_read rfl fun i hi => ?_
  have hoffset : (s.rebase src.base dst).base + UInt64.ofNat i - dst =
      s.base + UInt64.ofNat i - src.base := by
    have hrebase := s.rebase_base_sub src.base dst
    grind
  have hin : Extent.Contains ⟨dst, src.len⟩ ((s.rebase src.base dst).base + UInt64.ofNat i) := by
    unfold Extent.Contains
    rw [hoffset]
    exact h.contains (Extent.contains_add hi)
  have haddress : src.base + (s.base + UInt64.ofNat i - src.base) = s.base + UInt64.ofNat i := by
    grind
  rw [copy_of_contains hin, hoffset, haddress]

/-- What the destination does not overlap is unchanged. -/
theorem read_copy_of_disjoint (h : s.Disjoint ⟨dst, src.len⟩) :
    s.read (copy m dst src) = s.read m :=
  Extent.read_eq_read rfl fun _ hi =>
    copy_of_not_contains (h _ (Extent.contains_add hi))

theorem Extent.Inside.rebase (h : s.Inside src) (newBase : UInt64) :
    (s.rebase src.base newBase).Inside ⟨newBase, src.len⟩ := by
  unfold Extent.Inside
  rw [Extent.rebase_base_sub]
  exact h

end Copy

end Flat
