import PosixThreads.Library.Flat
import PosixThreads.Waxy.Url.Eq

/-!
# URLs in memory

`url_t` with its pointers. The slices of a URL may be anywhere in memory; those of a URL that has
been parsed are inside its buffer. `url_copy` clones the buffer and moves the slices along.

`StoredUrl.view` is the URL with offsets that the other modules work with. It is compared and
hashed as the URL in memory is, and a copy has the same view.
-/

namespace PosixThreads

/-- The bytes at the addresses. -/
abbrev Memory := UInt64 → UInt8

abbrev StoredSlice := Flat.Extent

/-- What `realloc` answers if it is given a null pointer: a new block, or none. -/
abbrev NewBlock := Option { base : UInt64 // base ≠ 0 }

/-- `string_t`. The terminator is one of its elements, and these are not at the null pointer. -/
structure StoredString where
  storage : UInt64
  capacity : UInt64
  len : UInt64
  storage_ne_zero : len ≠ 0 → storage ≠ 0
  deriving DecidableEq, Repr

namespace StoredString

def new : StoredString := ⟨0, 0, 0, fun h => absurd rfl h⟩

def asCptr (self : StoredString) : UInt64 := if self.len = 0 then 0 else self.storage

def extent (self : StoredString) : Flat.Extent := ⟨self.storage, self.len⟩

/-- The first half of `vec_uchar_clone`: an empty vector is resized to `len`. -/
def newWithLen (block : NewBlock) (len : UInt64) : Except CommonErrorCode StoredString :=
  if len = 0 then .ok new
  else
    match block with
    | none => .error .memoryAllocationFailure
    | some base => .ok ⟨base, len, len, fun _ => base.property⟩

def clone (block : NewBlock) (m : Memory) (self : StoredString) :
    Except CommonErrorCode (Memory × StoredString) := do
  let result ← newWithLen block self.len
  return (Flat.copy m result.storage self.extent, result)

end StoredString

structure StoredUrl where
  buf : StoredString
  scheme : StoredSlice
  username : StoredSlice
  password : StoredSlice
  host : StoredSlice
  port : UInt16
  path : StoredSlice
  query : StoredSlice
  fragment : StoredSlice
  hostNull : Bool
  portNull : Bool
  queryNull : Bool
  fragmentNull : Bool
  deriving DecidableEq, Repr

def rebaseSlice (base newBase : UInt64) (slice : StoredSlice) : StoredSlice :=
  if base = 0 then ⟨0, slice.len⟩ else slice.rebase base newBase

namespace StoredUrl

def urlEq (m : Memory) (lhs rhs : StoredUrl) : Bool :=
  !sliceCmp (lhs.scheme.read m) (rhs.scheme.read m) &&
  !sliceCmp (lhs.username.read m) (rhs.username.read m) &&
  !sliceCmp (lhs.password.read m) (rhs.password.read m) &&
  lhs.hostNull == rhs.hostNull &&
  (lhs.hostNull || !sliceCmp (lhs.host.read m) (rhs.host.read m)) &&
  lhs.portNull == rhs.portNull &&
  (lhs.portNull || lhs.port == rhs.port) &&
  !sliceCmp (lhs.path.read m) (rhs.path.read m) &&
  lhs.queryNull == rhs.queryNull &&
  (lhs.queryNull || !sliceCmp (lhs.query.read m) (rhs.query.read m)) &&
  lhs.fragmentNull == rhs.fragmentNull &&
  (lhs.fragmentNull || !sliceCmp (lhs.fragment.read m) (rhs.fragment.read m))

/-- The part of `url_copy` after `string_clone`. -/
def rebased (url : StoredUrl) (buf : StoredString) : StoredUrl :=
  let base := url.buf.asCptr
  let newBase := buf.asCptr
  { buf := buf
    scheme := rebaseSlice base newBase url.scheme
    username := rebaseSlice base newBase url.username
    password := rebaseSlice base newBase url.password
    host := rebaseSlice base newBase url.host
    port := url.port
    path := rebaseSlice base newBase url.path
    query := rebaseSlice base newBase url.query
    fragment := rebaseSlice base newBase url.fragment
    hostNull := url.hostNull
    portNull := url.portNull
    queryNull := url.queryNull
    fragmentNull := url.fragmentNull }

/-- `url_copy`, with the memory after it. -/
def urlCopy (block : NewBlock) (m : Memory) (url : StoredUrl) : Except Error (Memory × StoredUrl) :=
  match url.buf.clone block m with
  | .error code => .error (.fromCommon code)
  | .ok (m', buf) => .ok (m', url.rebased buf)

open ByteHasher in
def urlHash (m : Memory) (url : StoredUrl) (state : ByteHasherState) : ByteHasherState :=
  let state := digestSlice state (url.scheme.read m)
  let state := digestSlice state (url.username.read m)
  let state := digestSlice state (url.password.read m)
  let state := digestBool state url.hostNull
  let state := if url.hostNull then state else digestSlice state (url.host.read m)
  let state := digestBool state url.portNull
  let state := if url.portNull then state else digestU16 state url.port
  let state := digestSlice state (url.path.read m)
  let state := digestBool state url.queryNull
  let state := if url.queryNull then state else digestSlice state (url.query.read m)
  let state := digestBool state url.fragmentNull
  if url.fragmentNull then state else digestSlice state (url.fragment.read m)

end StoredUrl

/-! ## What is digested -/

open ByteHasher

/-- A nullable component: the flag, and the component if there is one. -/
def digestNullable {α : Type} (digest : ByteHasherState → α → ByteHasherState)
    (state : ByteHasherState) : Option α → ByteHasherState
  | none => digestBool state true
  | some x => digest (digestBool state false) x

theorem digestNullable_ite {α : Type} (digest : ByteHasherState → α → ByteHasherState)
    (state : ByteHasherState) (null : Bool) (x : α) :
    digestNullable digest state (if null then none else some x) =
      if null then digestBool state null else digest (digestBool state null) x := by
  cases null <;> rfl

/-- The digest of what is compared. -/
def UrlKey.digest (key : UrlKey) (state : ByteHasherState) : ByteHasherState :=
  let state := digestSlice state key.scheme
  let state := digestSlice state key.username
  let state := digestSlice state key.password
  let state := digestNullable digestSlice state key.host
  let state := digestNullable digestU16 state key.port
  let state := digestSlice state key.path
  let state := digestNullable digestSlice state key.query
  digestNullable digestSlice state key.fragment

theorem urlHash_eq_digest (url : Url) (state : ByteHasherState) :
    urlHash url state = url.key.digest state := by
  simp only [urlHash, Url.key, UrlKey.digest, digestNullable_ite]

namespace StoredUrl

variable {m m' : Memory} {url url' lhs rhs : StoredUrl} {block : NewBlock}

def key (m : Memory) (url : StoredUrl) : UrlKey where
  scheme := url.scheme.read m
  username := url.username.read m
  password := url.password.read m
  host := if url.hostNull then none else some (url.host.read m)
  port := if url.portNull then none else some url.port
  path := url.path.read m
  query := if url.queryNull then none else some (url.query.read m)
  fragment := if url.fragmentNull then none else some (url.fragment.read m)

theorem urlEq_iff_key : urlEq m lhs rhs = true ↔ lhs.key m = rhs.key m := by
  simp only [urlEq, key, UrlKey.mk.injEq, nullable_eq_iff, Bool.and_eq_true, Bool.not_eq_true',
    sliceCmp_eq_false_iff, beq_iff_eq, Bool.or_eq_true, and_assoc]

theorem urlHash_eq_digest (m : Memory) (url : StoredUrl) (state : ByteHasherState) :
    urlHash m url state = (url.key m).digest state := by
  simp only [urlHash, key, UrlKey.digest, digestNullable_ite]

def slices (url : StoredUrl) : List StoredSlice :=
  [url.scheme, url.username, url.password, url.host, url.path, url.query, url.fragment]

theorem forall_slices {p : StoredSlice → Prop} : (∀ s ∈ url.slices, p s) ↔
    p url.scheme ∧ p url.username ∧ p url.password ∧ p url.host ∧ p url.path ∧ p url.query ∧
      p url.fragment := by
  simp [slices]

def Inside (url : StoredUrl) : Prop := ∀ s ∈ url.slices, s.Inside url.buf.extent

instance (url : StoredUrl) : Decidable url.Inside := inferInstanceAs (Decidable (∀ _ ∈ _, _))

/-- The block is not a part of the memory where the buffer is. -/
def Fresh (block : NewBlock) (url : StoredUrl) : Prop :=
  ∀ base ∈ block, url.buf.extent.Disjoint ⟨base.val, url.buf.len⟩

def region (url : StoredUrl) (s : StoredSlice) : Region :=
  ⟨(s.base - url.buf.storage).toNat, s.len.toNat⟩

/-- The URL with offsets instead of pointers. -/
def view (m : Memory) (url : StoredUrl) : Url where
  buf := url.buf.extent.read m
  scheme := url.region url.scheme
  username := url.region url.username
  password := url.region url.password
  host := url.region url.host
  port := url.port
  path := url.region url.path
  query := url.region url.query
  fragment := url.region url.fragment
  hostNull := url.hostNull
  portNull := url.portNull
  queryNull := url.queryNull
  fragmentNull := url.fragmentNull

theorem Inside.text_region (h : url.Inside) (m : Memory) {s : StoredSlice} (hs : s ∈ url.slices) :
    (url.region s).text (url.buf.extent.read m) = s.read m :=
  ((h s hs).read_eq m).symm

theorem Inside.key_view (h : url.Inside) (m : Memory) : (url.view m).key = url.key m := by
  have htext : ∀ s ∈ url.slices, (url.region s).text (url.buf.extent.read m) = s.read m :=
    fun s hs => h.text_region m hs
  obtain ⟨hscheme, husername, hpassword, hhost, hpath, hquery, hfragment⟩ := forall_slices.mp htext
  simp only [view, Url.key, key, hscheme, husername, hpassword, hhost, hpath, hquery, hfragment]
  rfl

theorem Inside.urlEq_view (h : lhs.Inside) (h' : rhs.Inside) (m : Memory) :
    PosixThreads.urlEq (lhs.view m) (rhs.view m) = urlEq m lhs rhs := by
  rw [Bool.eq_iff_iff, urlEq_iff, urlEq_iff_key, h.key_view, h'.key_view]

theorem Inside.urlHash_view (h : url.Inside) (m : Memory) (state : ByteHasherState) :
    PosixThreads.urlHash (url.view m) state = urlHash m url state := by
  rw [PosixThreads.urlHash_eq_digest, urlHash_eq_digest, h.key_view]

/-! ## Copies -/

theorem urlCopy_eq_ok_iff : urlCopy block m url = .ok (m', url') ↔
    ∃ buf, url.buf.clone block m = .ok (m', buf) ∧ url.rebased buf = url' := by
  unfold urlCopy
  split
  · rename_i hclone
    simp [hclone]
  · rename_i hclone
    simp only [hclone, Except.ok.injEq, Prod.mk.injEq]
    constructor
    · rintro ⟨rfl, rfl⟩
      exact ⟨_, ⟨rfl, rfl⟩, rfl⟩
    · rintro ⟨_, ⟨rfl, rfl⟩, rfl⟩
      exact ⟨rfl, rfl⟩

theorem clone_cases {str str' : StoredString} (h : str.clone block m = .ok (m', str')) :
    str.len = 0 ∧ str' = .new ∨
      str.len ≠ 0 ∧ str'.len = str.len ∧
        ∃ base ∈ block, str'.storage = base.val ∧ m' = Flat.copy m base.val str.extent := by
  unfold StoredString.clone StoredString.newWithLen at h
  split at h
  · rename_i hlen
    exact .inl ⟨hlen, (Prod.mk.inj (Except.ok.inj h)).2.symm⟩
  · rename_i hlen
    cases block with
    | none => simp at h
    | some base =>
        obtain ⟨rfl, rfl⟩ := Prod.mk.inj (Except.ok.inj h)
        exact .inr ⟨hlen, rfl, base, rfl, rfl, rfl⟩

/-- What has become of a slice of a string, after the string has been cloned. -/
structure Cloned (m m' : Memory) (str str' : StoredString) (s s' : StoredSlice) : Prop where
  source : s.read m' = s.read m
  content : s'.read m' = s.read m
  inside : s'.Inside str'.extent
  offset_eq : s'.base - str'.storage = s.base - str.storage
  len_eq : s'.len = s.len

theorem cloned_rebaseSlice {str str' : StoredString} (h : str.clone block m = .ok (m', str'))
    (hfresh : ∀ base ∈ block, str.extent.Disjoint ⟨base.val, str.len⟩) {s : StoredSlice}
    (hs : s.Inside str.extent) :
    Cloned m m' str str' s (rebaseSlice str.asCptr str'.asCptr s) := by
  rcases clone_cases h with ⟨hlen, rfl⟩ | ⟨hlen, hlen', base, hbase, hstorage, rfl⟩
  · -- the slice is empty and stands at the only place of the buffer
    have hle : (s.base - str.storage).toNat + s.len.toNat ≤ str.len.toNat := hs
    rw [hlen, UInt64.toNat_zero] at hle
    have hempty : s.len = 0 := UInt64.toNat_inj.mp (by rw [UInt64.toNat_zero]; omega)
    have hstart : s.base - str.storage = 0 := UInt64.toNat_inj.mp (by rw [UInt64.toNat_zero]; omega)
    have hslice : rebaseSlice str.asCptr StoredString.new.asCptr s = ⟨0, 0⟩ := by
      simp [rebaseSlice, StoredString.asCptr, hlen, hempty]
    rw [hslice]
    refine ⟨?_, ?_, Flat.Extent.inside_refl _, hstart.symm, hempty.symm⟩
    · rw [Flat.Extent.read_of_len_eq_zero _ hempty, Flat.Extent.read_of_len_eq_zero _ hempty]
    · rw [Flat.Extent.read_of_len_eq_zero _ rfl, Flat.Extent.read_of_len_eq_zero _ hempty]
  · have hslice : rebaseSlice str.asCptr str'.asCptr s = s.rebase str.extent.base base.val := by
      simp [rebaseSlice, StoredString.asCptr, StoredString.extent, hlen, hlen', hstorage,
        str.storage_ne_zero hlen]
    have hextent : str'.extent = ⟨base.val, str.extent.len⟩ := by
      simp [StoredString.extent, hlen', hstorage]
    have hoffset : (s.rebase str.extent.base base.val).base - str'.storage =
        s.base - str.storage := by
      rw [hstorage]
      exact s.rebase_base_sub _ _
    rw [hslice]
    exact ⟨Flat.read_copy_of_disjoint (hs.disjoint (hfresh base hbase)), Flat.read_copy_rebase hs,
      hextent ▸ hs.rebase base.val, hoffset, rfl⟩

theorem rebaseSlice_extent {str str' : StoredString} (h : str.clone block m = .ok (m', str')) :
    rebaseSlice str.asCptr str'.asCptr str.extent = str'.extent := by
  rcases clone_cases h with ⟨hlen, rfl⟩ | ⟨hlen, hlen', base, -, hstorage, -⟩
  · simp [rebaseSlice, StoredString.asCptr, StoredString.extent, StoredString.new, hlen]
  · simp [rebaseSlice, StoredString.asCptr, StoredString.extent, Flat.Extent.rebase, hlen, hlen',
      hstorage, str.storage_ne_zero hlen]

theorem Inside.view_urlCopy (h : url.Inside) (hfresh : url.Fresh block)
    (hcopy : urlCopy block m url = .ok (m', url')) :
    PosixThreads.urlCopy true (url.view m) = .ok (url'.view m') := by
  obtain ⟨buf, hclone, rfl⟩ := urlCopy_eq_ok_iff.mp hcopy
  have hregion : ∀ s ∈ url.slices,
      (url.rebased buf).region (rebaseSlice url.buf.asCptr buf.asCptr s) = url.region s := by
    intro s hs
    have hcloned := cloned_rebaseSlice hclone hfresh (h s hs)
    unfold region
    rw [hcloned.len_eq]
    exact congrArg (fun start => Region.mk start.toNat _) hcloned.offset_eq
  have hbuf : buf.extent.read m' = url.buf.extent.read m := by
    have hcloned := cloned_rebaseSlice hclone hfresh (Flat.Extent.inside_refl url.buf.extent)
    rw [rebaseSlice_extent hclone] at hcloned
    exact hcloned.content
  obtain ⟨hscheme, husername, hpassword, hhost, hpath, hquery, hfragment⟩ :=
    forall_slices.mp hregion
  rw [PosixThreads.urlCopy, if_pos rfl]
  refine congrArg Except.ok ?_
  simp only [view, Url.mk.injEq, UrlRegion.mk.injEq]
  exact ⟨⟨hscheme.symm, husername.symm, hpassword.symm, hhost.symm, hpath.symm, hquery.symm,
    hfragment.symm, rfl, rfl, rfl, rfl, rfl⟩, hbuf.symm⟩

end StoredUrl

end PosixThreads
