import PosixThreads.Collections.Hash.ByteHasher
import PosixThreads.Collections.Hash.Spec
import PosixThreads.Waxy.Url.Basic

/-!
# URLs as keys

`url_eq` compares the components of two URLs, ignoring those that are null in both,
and `url_hash` digests the same components. A `url_t` is used as a key of the cache
through these two functions only. `url_copy` copies the buffer and moves the slices
along, so that the copy has the same offsets.
-/

namespace PosixThreads

/-- `slice_cmp`, which is declared to return a `bool`: whether the slices differ. -/
def sliceCmp (lhs rhs : List UInt8) : Bool :=
  if lhs.length < rhs.length then true
  else if lhs.length > rhs.length then true
  else lhs ≠ rhs

theorem sliceCmp_eq_false_iff {lhs rhs : List UInt8} : sliceCmp lhs rhs = false ↔ lhs = rhs := by
  unfold sliceCmp
  constructor
  · intro h
    split at h
    · simp at h
    · split at h
      · simp at h
      · simpa using h
  · rintro rfl
    simp

def urlEq (lhs rhs : Url) : Bool :=
  !sliceCmp (lhs.scheme.text lhs.buf) (rhs.scheme.text rhs.buf) &&
  !sliceCmp (lhs.username.text lhs.buf) (rhs.username.text rhs.buf) &&
  !sliceCmp (lhs.password.text lhs.buf) (rhs.password.text rhs.buf) &&
  lhs.hostNull == rhs.hostNull &&
  (lhs.hostNull || !sliceCmp (lhs.host.text lhs.buf) (rhs.host.text rhs.buf)) &&
  lhs.portNull == rhs.portNull &&
  (lhs.portNull || lhs.port == rhs.port) &&
  !sliceCmp (lhs.path.text lhs.buf) (rhs.path.text rhs.buf) &&
  lhs.queryNull == rhs.queryNull &&
  (lhs.queryNull || !sliceCmp (lhs.query.text lhs.buf) (rhs.query.text rhs.buf)) &&
  lhs.fragmentNull == rhs.fragmentNull &&
  (lhs.fragmentNull || !sliceCmp (lhs.fragment.text lhs.buf) (rhs.fragment.text rhs.buf))

/-- `url_copy`. The answer of the allocator is `ok`. -/
def urlCopy (ok : Bool) (url : Url) : Except Error Url :=
  if ok then .ok url else .error (.fromCommon .memoryAllocationFailure)

open ByteHasher in
def urlHash (url : Url) (state : ByteHasherState) : ByteHasherState :=
  let state := digestSlice state (url.scheme.text url.buf)
  let state := digestSlice state (url.username.text url.buf)
  let state := digestSlice state (url.password.text url.buf)
  let state := digestBool state url.hostNull
  let state := if url.hostNull then state else digestSlice state (url.host.text url.buf)
  let state := digestBool state url.portNull
  let state := if url.portNull then state else digestU16 state url.port
  let state := digestSlice state (url.path.text url.buf)
  let state := digestBool state url.queryNull
  let state := if url.queryNull then state else digestSlice state (url.query.text url.buf)
  let state := digestBool state url.fragmentNull
  if url.fragmentNull then state else digestSlice state (url.fragment.text url.buf)

/-- The two hashers and the comparison of the cache. A slot has a state, a pointer to a
URL and a pointer to a node. -/
def urlHashFns : HashFns Url where
  primary url := (ByteHasher.byteHasher urlHash 164 url).toNat
  secondary url := (ByteHasher.byteHasherSecondary urlHash 235 url).toNat
  eq := urlEq
  elementSize := 24

structure UrlKey where
  scheme : List UInt8
  username : List UInt8
  password : List UInt8
  host : Option (List UInt8)
  port : Option UInt16
  path : List UInt8
  query : Option (List UInt8)
  fragment : Option (List UInt8)
  deriving DecidableEq, Repr

def Url.key (url : Url) : UrlKey where
  scheme := url.scheme.text url.buf
  username := url.username.text url.buf
  password := url.password.text url.buf
  host := if url.hostNull then none else some (url.host.text url.buf)
  port := if url.portNull then none else some url.port
  path := url.path.text url.buf
  query := if url.queryNull then none else some (url.query.text url.buf)
  fragment := if url.fragmentNull then none else some (url.fragment.text url.buf)

theorem nullable_eq_iff {α : Type*} {null null' : Bool} {x x' : α} :
    ((if null then none else some x) = if null' then none else some x') ↔
      null = null' ∧ (null = true ∨ x = x') := by
  cases null <;> cases null' <;> simp

theorem urlEq_iff {lhs rhs : Url} : urlEq lhs rhs = true ↔ lhs.key = rhs.key := by
  simp only [urlEq, Url.key, UrlKey.mk.injEq, nullable_eq_iff, Bool.and_eq_true, Bool.not_eq_true',
    sliceCmp_eq_false_iff, beq_iff_eq, Bool.or_eq_true, and_assoc]

/-- The hash only depends on what `url_eq` compares. -/
theorem urlHash_congr {lhs rhs : Url} (h : lhs.key = rhs.key) (state : ByteHasherState) :
    urlHash lhs state = urlHash rhs state := by
  simp only [Url.key, UrlKey.mk.injEq, nullable_eq_iff] at h
  obtain ⟨hscheme, huser, hpassword, ⟨hhostNull, hhost⟩, ⟨hportNull, hport⟩, hpath,
    ⟨hqueryNull, hquery⟩, hfragmentNull, hfragment⟩ := h
  simp only [urlHash, hscheme, huser, hpassword, hpath, ← hhostNull, ← hportNull, ← hqueryNull,
    ← hfragmentNull]
  rcases hhost with hhost | hhost <;> rcases hport with hport | hport <;>
    rcases hquery with hquery | hquery <;> rcases hfragment with hfragment | hfragment <;>
    simp only [hhost, hport, hquery, hfragment, if_true]

theorem urlHashFns_lawful : urlHashFns.Lawful where
  eq_refl a := urlEq_iff.mpr rfl
  eq_symm a b h := urlEq_iff.mpr (urlEq_iff.mp h).symm
  eq_trans a b c h h' := urlEq_iff.mpr ((urlEq_iff.mp h).trans (urlEq_iff.mp h'))
  primary_congr a b h := by
    have hkey := urlEq_iff.mp h
    simp only [urlHashFns, ByteHasher.byteHasher, urlHash_congr hkey]
  secondary_congr a b h := by
    have hhash : ByteHasher.byteHasher urlHash 235 a = ByteHasher.byteHasher urlHash 235 b :=
      urlHash_congr (urlEq_iff.mp h) 235
    simp only [urlHashFns]
    unfold ByteHasher.byteHasherSecondary
    rw [hhash]
  secondary_odd a := ByteHasher.byteHasherSecondary_odd urlHash 235 a

end PosixThreads
