import PosixThreads.Collections.Hash.Basic

/-!
# The byte hasher

The hasher of `byte_hasher.c` multiplies by 33 and adds, modulo the range of
`size_t`. Its state is the hash so far.
-/

namespace PosixThreads

abbrev ByteHasherState := UInt64

namespace ByteHasher

def digestU8 (state : ByteHasherState) (value : UInt8) : ByteHasherState :=
  state * 33 + value.toUInt64

def digestU16 (state : ByteHasherState) (value : UInt16) : ByteHasherState :=
  digestU8 (digestU8 state (value >>> 8).toUInt8) value.toUInt8

def digestU32 (state : ByteHasherState) (value : UInt32) : ByteHasherState :=
  digestU16 (digestU16 state (value >>> 16).toUInt16) value.toUInt16

def digestU64 (state : ByteHasherState) (value : UInt64) : ByteHasherState :=
  digestU32 (digestU32 state (value >>> 32).toUInt32) value.toUInt32

def digestSlice (state : ByteHasherState) (slice : List UInt8) : ByteHasherState :=
  slice.foldl digestU8 (digestU64 state (UInt64.ofNat slice.length))

def digestBool (state : ByteHasherState) (value : Bool) : ByteHasherState :=
  digestU8 state (if value then 1 else 0)

def byteHasher {K : Type} (hash : K → ByteHasherState → ByteHasherState) (seed : UInt64)
    (value : K) : UInt64 :=
  hash value seed

def byteHasherSecondary {K : Type} (hash : K → ByteHasherState → ByteHasherState)
    (seed : UInt64) (value : K) : UInt64 :=
  let h := byteHasher hash seed value
  if h % 2 = 0 then h + 1 else h

theorem byteHasherSecondary_odd {K : Type} (hash : K → ByteHasherState → ByteHasherState)
    (seed : UInt64) (value : K) : (byteHasherSecondary hash seed value).toNat % 2 = 1 := by
  unfold byteHasherSecondary
  generalize byteHasher hash seed value = h
  have hlt := h.toNat_lt
  have hmod : (h % 2).toNat = h.toNat % 2 := by simp [UInt64.toNat_mod]
  simp only
  split
  · rename_i heven
    have hzero : h.toNat % 2 = 0 := by rw [← hmod, heven]; rfl
    rw [UInt64.toNat_add]
    simp only [UInt64.toNat_one]
    omega
  · rename_i hodd
    have hne : h.toNat % 2 ≠ 0 := by
      intro hzero
      apply hodd
      rw [← UInt64.toNat_inj, hmod, hzero]
      rfl
    omega

end ByteHasher

end PosixThreads
