import PosixThreads.Waxy.Cache.Basic

/-!
# Reference counts and handles

`RefInv w listed held` is the accounting of the references to entries: the reference
count of an entry is the number of its occurrences in the list of the cache, plus
that of its write handles and of its read handles, plus that of the references a
running operation holds in local variables. A reference that is created or given up
changes `held`, one that is stored moves from there to a handle or to the list. An
operation that has returned holds none.

`EntriesKept f w w'` says that nothing has happened to the entries as far as `f` sees
them, except that some of them may be new or gone, and `Quiet f w w'` says the same
about the readers too.
-/

namespace PosixThreads

def CacheWr.of (arc : ℕ) (wr : CacheWr) : Bool := wr.entry = some arc

def CacheRd.of (arc : ℕ) (rd : CacheRd) : Bool := rd.entry = arc

/-- An entry without its read handles. -/
def CacheEntry.core (e : CacheEntry) : CacheEntry := { e with handles := [] }

/-- The readers that an entry knows are its registered live ones. -/
structure HandlesOf (w : World) (arc : ℕ) (handles : List ℕ) : Prop where
  nodup : handles.Nodup
  mem_iff : ∀ r, r ∈ handles ↔
    ∃ rd, w.rds.get r = some rd ∧ rd.entry = arc ∧ rd.registered = true

structure RefInv (w : World) (listed held : List ℕ) : Prop where
  refs : ∀ {a : ℕ} {arc : ArcEntry}, w.arcs.get a = some arc → 0 < arc.refCount ∧
    arc.refCount = listed.count a + w.wrs.count (CacheWr.of a) + w.rds.count (CacheRd.of a) +
      held.count a
  listed_alive : ∀ a ∈ listed, ∃ arc, w.arcs.get a = some arc
  held_alive : ∀ a ∈ held, ∃ arc, w.arcs.get a = some arc
  wr_alive : ∀ {i a : ℕ} {wr : CacheWr}, w.wrs.get i = some wr → wr.entry = some a →
    ∃ arc, w.arcs.get a = some arc
  rd_alive : ∀ {r : ℕ} {rd : CacheRd}, w.rds.get r = some rd →
    ∃ arc, w.arcs.get rd.entry = some arc
  handles : ∀ {a : ℕ} {arc : ArcEntry}, w.arcs.get a = some arc →
    HandlesOf w a arc.data.handles

/-! ## Worlds in which little has happened -/

/-- A reader that has been created, with its flag set if there is something to read. -/
structure FreshReader (w : World) (rd : CacheRd) : Prop where
  count_eq : rd.count = 0
  lastState_eq : rd.lastState = none
  registered_eq : rd.registered = true
  entry_lt : rd.entry < w.arcs.next
  force_eq : ∀ {e : CacheEntry}, w.entry rd.entry = some e →
    e.state ≠ .entryInvalid ∧ rd.force = decide (0 < e.buf.length)

structure EntriesKept {β : Type} (f : CacheEntry → β) (w w' : World) : Prop where
  self_eq : w'.self = w.self
  arcs_le : w.arcs.next ≤ w'.arcs.next
  entry : ∀ {a : ℕ} {e' : CacheEntry}, w'.entry a = some e' →
    (∃ e, w.entry a = some e ∧ f e' = f e) ∨
      (w.arcs.next ≤ a ∧ ∃ url, f e' = f (.new w.self url))

structure Quiet {β : Type} (f : CacheEntry → β) (w w' : World) : Prop
    extends EntriesKept f w w' where
  rds_le : w.rds.next ≤ w'.rds.next
  reader : ∀ {r : ℕ} {rd' : CacheRd}, w'.rds.get r = some rd' →
    w.rds.get r = some rd' ∨ (w.rds.next ≤ r ∧ FreshReader w' rd')

/-- Nothing has happened to the cache either. -/
structure Kept (w w' : World) : Prop extends Quiet CacheEntry.core w w' where
  cache_eq : w'.cache = w.cache
  nodes_eq : w'.nodes = w.nodes

theorem World.entry_lt_next {w : World} {a : ℕ} {e : CacheEntry} (h : w.entry a = some e) :
    a < w.arcs.next := by
  simp only [World.entry, Option.map_eq_some_iff] at h
  obtain ⟨arc, harc, _⟩ := h
  exact Heap.lt_next_of_get harc

theorem CacheEntry.buf_of_core {e e' : CacheEntry} (h : e.core = e'.core) :
    e.buf = e'.buf ∧ e.state = e'.state := by
  simp only [CacheEntry.core, CacheEntry.mk.injEq] at h
  exact ⟨h.2.2.1, h.2.2.2.2.1⟩

section Kept

variable {β : Type} {f : CacheEntry → β} {w w' w'' : World}

theorem EntriesKept.of_subset (hself : w'.self = w.self) (harcs : w'.arcs.next = w.arcs.next)
    (hentry : ∀ {a : ℕ} {e' : CacheEntry}, w'.entry a = some e' →
      ∃ e, w.entry a = some e ∧ f e' = f e) : EntriesKept f w w' :=
  ⟨hself, harcs.ge, fun h => .inl (hentry h)⟩

theorem EntriesKept.of_arcs_eq (f : CacheEntry → β) (hself : w'.self = w.self)
    (harcs : w'.arcs = w.arcs) : EntriesKept f w w' := by
  refine .of_subset hself (by rw [harcs]) fun {a e'} h => ⟨e', ?_, rfl⟩
  rwa [World.entry, harcs] at h

theorem EntriesKept.trans (h : EntriesKept f w w') (h' : EntriesKept f w' w'') :
    EntriesKept f w w'' := by
  refine ⟨h'.self_eq.trans h.self_eq, h.arcs_le.trans h'.arcs_le, ?_⟩
  intro a e'' he''
  rcases h'.entry he'' with ⟨e', he', heq'⟩ | ⟨hle, url, heq'⟩
  · rcases h.entry he' with ⟨e, he, heq⟩ | ⟨hle, url, heq⟩
    · exact .inl ⟨e, he, heq'.trans heq⟩
    · exact .inr ⟨hle, url, heq'.trans heq⟩
  · exact .inr ⟨h.arcs_le.trans hle, url, by rw [heq', h.self_eq]⟩

/-- What does not happen for `f` does not happen for a function of it. -/
theorem EntriesKept.mono {γ : Type} {g : CacheEntry → γ} (hg : ∀ e e', f e = f e' → g e = g e')
    (h : EntriesKept f w w') : EntriesKept g w w' := by
  refine ⟨h.self_eq, h.arcs_le, fun he' => ?_⟩
  rcases h.entry he' with ⟨e, he, heq⟩ | ⟨hle, url, heq⟩
  · exact .inl ⟨e, he, hg _ _ heq⟩
  · exact .inr ⟨hle, url, hg _ _ heq⟩

theorem Quiet.of_subset (h : EntriesKept f w w') (hrds : w'.rds.next = w.rds.next)
    (hreader : ∀ {r : ℕ} {rd' : CacheRd}, w'.rds.get r = some rd' → w.rds.get r = some rd') :
    Quiet f w w' :=
  ⟨h, hrds.ge, fun h => .inl (hreader h)⟩

theorem Quiet.of_rds_eq (h : EntriesKept f w w') (hrds : w'.rds = w.rds) : Quiet f w w' :=
  .of_subset h (by rw [hrds]) fun hr => by rwa [hrds] at hr

theorem Quiet.trans (hf : ∀ {e e' : CacheEntry}, f e = f e' → e.buf = e'.buf ∧ e.state = e'.state)
    (h : Quiet f w w') (h' : Quiet f w' w'') : Quiet f w w'' := by
  refine ⟨h.toEntriesKept.trans h'.toEntriesKept, h.rds_le.trans h'.rds_le, ?_⟩
  intro r rd hrd
  rcases h'.reader hrd with hrd' | ⟨hle, hfresh⟩
  · rcases h.reader hrd' with hrd | ⟨hle, hfresh⟩
    · exact .inl hrd
    · refine .inr ⟨hle, { hfresh with
        entry_lt := hfresh.entry_lt.trans_le h'.arcs_le
        force_eq := fun {e''} he'' => ?_ }⟩
      rcases h'.entry he'' with ⟨e', he', heq'⟩ | ⟨hle', _⟩
      · rw [(hf heq').1, (hf heq').2]
        exact hfresh.force_eq he'
      · have := hfresh.entry_lt
        omega
  · exact .inr ⟨h.rds_le.trans hle, hfresh⟩

theorem Quiet.mono {γ : Type} {g : CacheEntry → γ} (hg : ∀ e e', f e = f e' → g e = g e')
    (h : Quiet f w w') : Quiet g w w' :=
  ⟨h.toEntriesKept.mono hg, h.rds_le, h.reader⟩

theorem Kept.of_rds_eq (h : EntriesKept CacheEntry.core w w') (hcache : w'.cache = w.cache)
    (hnodes : w'.nodes = w.nodes) (hrds : w'.rds = w.rds) : Kept w w' :=
  ⟨.of_rds_eq h hrds, hcache, hnodes⟩

theorem Kept.trans (h : Kept w w') (h' : Kept w' w'') : Kept w w'' :=
  ⟨h.toQuiet.trans CacheEntry.buf_of_core h'.toQuiet,
    h'.cache_eq.trans h.cache_eq, h'.nodes_eq.trans h.nodes_eq⟩

end Kept

/-! ## Sharing and freeing -/

section Refs

variable {w : World} {listed held : List ℕ} {a : ℕ}

/-- The accounting does not depend on the cache, the nodes and the allocator. -/
theorem RefInv.congr {w' : World} (h : RefInv w listed held) (harcs : w'.arcs = w.arcs)
    (hrds : w'.rds = w.rds) (hwrs : w'.wrs = w.wrs) : RefInv w' listed held := by
  refine ⟨?_, ?_, ?_, ?_, ?_, ?_⟩
  · rw [harcs, hrds, hwrs]
    exact h.refs
  · rw [harcs]
    exact h.listed_alive
  · rw [harcs]
    exact h.held_alive
  · rw [harcs, hwrs]
    exact h.wr_alive
  · rw [harcs, hrds]
    exact h.rd_alive
  · intro b arc hb
    rw [harcs] at hb
    exact ⟨(h.handles hb).nodup, by rw [hrds]; exact (h.handles hb).mem_iff⟩

theorem RefInv.arcGet_eq (h : RefInv w listed held) {arc : ArcEntry}
    (ha : w.arcs.get a = some arc) : w.arcGet a = some arc.data := by
  simp [World.arcGet, ha, (h.refs ha).1]

theorem HandlesOf.congr {w' : World} {handles : List ℕ} (h : HandlesOf w a handles)
    (hrds : ∀ {q : ℕ} {rd : CacheRd}, rd.entry = a →
      (w'.rds.get q = some rd ↔ w.rds.get q = some rd)) : HandlesOf w' a handles := by
  refine ⟨h.nodup, fun q => (h.mem_iff q).trans (exists_congr fun rd => ?_)⟩
  exact ⟨fun ⟨hq, hentry, hreg⟩ => ⟨(hrds hentry).mpr hq, hentry, hreg⟩,
    fun ⟨hq, hentry, hreg⟩ => ⟨(hrds hentry).mp hq, hentry, hreg⟩⟩

theorem World.exists_set {arc arc' : ArcEntry} (ha : w.arcs.get a = some arc) {b : ℕ}
    (hb : ∃ arc, w.arcs.get b = some arc) : ∃ arc, (w.arcs.set a arc').get b = some arc := by
  rw [Heap.get_set ha]
  split
  · exact ⟨_, rfl⟩
  · exact hb

/-- Changing an object on the heap of entries, other than by freeing it, together with the
readers. The readers of the other entries stay. -/
theorem RefInv.setArcRds {arc : ArcEntry} {rds : Heap CacheRd} {held' : List ℕ} (arc' : ArcEntry)
    (h : RefInv w listed held) (ha : w.arcs.get a = some arc) (hpos : 0 < arc'.refCount)
    (hcount : ∀ b, (if b = a then arc'.refCount else 0) + w.rds.count (CacheRd.of b) +
      held.count b = (if b = a then arc.refCount else 0) + rds.count (CacheRd.of b) +
        held'.count b)
    (hheld : ∀ b ∈ held', b = a ∨ b ∈ held)
    (hself : HandlesOf { w with rds := rds } a arc'.data.handles)
    (hothers : ∀ {q : ℕ} {rd : CacheRd}, rd.entry ≠ a →
      (rds.get q = some rd ↔ w.rds.get q = some rd)) :
    RefInv { w with arcs := w.arcs.set a arc', rds := rds } listed held' := by
  have hget : ∀ b, (w.arcs.set a arc').get b = if b = a then some arc' else w.arcs.get b :=
    Heap.get_set ha arc'
  refine ⟨?_, fun b hb => World.exists_set ha (h.listed_alive b hb), fun b hb => ?_,
    fun hwr hentry => World.exists_set ha (h.wr_alive hwr hentry), fun {q rd} hq => ?_, ?_⟩
  · intro b arc₁ hb
    have hcount' := hcount b
    simp only [hget] at hb
    split at hb
    · rename_i heq
      subst heq
      cases hb
      have hrefs := (h.refs ha).2
      simp only [if_true] at hcount'
      exact ⟨hpos, by simp only; omega⟩
    · rename_i hne
      have hrefs := h.refs hb
      simp only [hne, if_false] at hcount'
      exact ⟨hrefs.1, by simp only; omega⟩
  · rcases hheld b hb with rfl | hb
    · exact World.exists_set ha ⟨_, ha⟩
    · exact World.exists_set ha (h.held_alive b hb)
  · by_cases heq : rd.entry = a
    · exact World.exists_set ha ⟨arc, heq ▸ ha⟩
    · exact World.exists_set ha (h.rd_alive ((hothers heq).mp hq))
  · intro b arc₁ hb
    simp only [hget] at hb
    split at hb
    · rename_i heq
      subst heq
      cases hb
      exact ⟨hself.nodup, hself.mem_iff⟩
    · rename_i hne
      have hkept : HandlesOf { w with rds := rds } b arc₁.data.handles :=
        (h.handles hb).congr fun hentry => hothers (hentry ▸ hne)
      exact ⟨hkept.nodup, hkept.mem_iff⟩

theorem RefInv.setArc {arc : ArcEntry} {held' : List ℕ} (arc' : ArcEntry)
    (h : RefInv w listed held)
    (ha : w.arcs.get a = some arc) (hhandles : arc'.data.handles = arc.data.handles)
    (hpos : 0 < arc'.refCount)
    (hcount : arc'.refCount + held.count a = arc.refCount + held'.count a)
    (hheld : ∀ b, b ≠ a → held'.count b = held.count b) :
    RefInv { w with arcs := w.arcs.set a arc' } listed held' := by
  refine h.setArcRds arc' ha hpos (fun b => ?_) (fun b hb => ?_) ?_ fun _ => Iff.rfl
  · by_cases hne : b = a
    · subst hne
      simp only [if_true]
      omega
    · rw [if_neg hne, if_neg hne, hheld b hne]
  · rw [or_iff_not_imp_left]
    intro hne
    rwa [← List.count_pos_iff, ← hheld b hne, List.count_pos_iff]
  · rw [hhandles]
    exact (h.handles ha).congr fun _ => Iff.rfl

theorem World.entry_set {arc arc' : ArcEntry} (ha : w.arcs.get a = some arc) (b : ℕ) :
    ({ w with arcs := w.arcs.set a arc' } : World).entry b =
      if b = a then some arc'.data else w.entry b := by
  simp only [World.entry, Heap.get_set ha]
  split <;> simp

theorem EntriesKept.setArc {β : Type} {f : CacheEntry → β} {arc arc' : ArcEntry}
    (ha : w.arcs.get a = some arc) (hdata : f arc'.data = f arc.data) :
    EntriesKept f w { w with arcs := w.arcs.set a arc' } := by
  refine .of_subset rfl (by simp) ?_
  intro b e' he'
  rw [World.entry_set ha] at he'
  split at he'
  · rename_i heq
    subst heq
    cases he'
    exact ⟨arc.data, by simp [World.entry, ha], hdata⟩
  · exact ⟨e', he', rfl⟩

theorem Kept.setArc {arc arc' : ArcEntry} (ha : w.arcs.get a = some arc)
    (hdata : arc'.data.core = arc.data.core) :
    Kept w { w with arcs := w.arcs.set a arc' } :=
  .of_rds_eq (.setArc ha hdata) rfl rfl rfl

theorem arcShare_spec (h : RefInv w listed held) (ha : ∃ arc, w.arcs.get a = some arc) :
    ∃ w', w.arcShare a = some w' ∧ RefInv w' listed (a :: held) ∧ Kept w w' ∧
      w'.rds = w.rds ∧ w'.wrs = w.wrs ∧ w'.allocs = w.allocs ∧ ∀ b, w'.entry b = w.entry b := by
  obtain ⟨arc, ha⟩ := ha
  have hpos := (h.refs ha).1
  refine ⟨{ w with arcs := w.arcs.set a { arc with refCount := arc.refCount + 1 } }, ?_, ?_,
    .setArc ha rfl, rfl, rfl, rfl, ?_⟩
  · simp [World.arcShare, ha, Nat.succ_le_of_lt hpos]
  · refine h.setArc _ ha rfl (by simp) ?_ ?_
    · simp only [List.count_cons_self]
      omega
    · intro b hne
      rw [List.count_cons_of_ne hne.symm]
  · intro b
    rw [World.entry_set ha]
    split
    · rename_i heq
      subst heq
      simp [World.entry, ha]
    · rfl

/-- References between `listed` and `held` may be moved. -/
theorem RefInv.move {listed' held' : List ℕ} (h : RefInv w listed held)
    (hcount : ∀ b, listed'.count b + held'.count b = listed.count b + held.count b) :
    RefInv w listed' held' := by
  have halive : ∀ b, 0 < listed'.count b + held'.count b → ∃ arc, w.arcs.get b = some arc := by
    intro b hpos
    rw [hcount] at hpos
    by_cases hmem : b ∈ listed
    · exact h.listed_alive b hmem
    · rw [List.count_eq_zero.mpr hmem, Nat.zero_add, List.count_pos_iff] at hpos
      exact h.held_alive b hpos
  refine ⟨?_, ?_, ?_, h.wr_alive, h.rd_alive, h.handles⟩
  · intro b arc hb
    have hb' := h.refs hb
    have hcount' := hcount b
    exact ⟨hb'.1, by omega⟩
  · intro b hb
    have hpos : 0 < listed'.count b := List.count_pos_iff.mpr hb
    exact halive b (by omega)
  · intro b hb
    have hpos : 0 < held'.count b := List.count_pos_iff.mpr hb
    exact halive b (by omega)

/-- An entry is freed with its last reference, and then nothing refers to it. -/
theorem RefInv.freeArc {arc : ArcEntry} (h : RefInv w listed (a :: held))
    (ha : w.arcs.get a = some arc) (hone : arc.refCount = 1) :
    RefInv { w with arcs := w.arcs.free a } listed held := by
  have hrefs := (h.refs ha).2
  rw [hone, List.count_cons_self] at hrefs
  have hlisted : a ∉ listed := List.count_eq_zero.mp (by omega)
  have hheld : a ∉ held := List.count_eq_zero.mp (by omega)
  have halive : ∀ b, b ≠ a → (∃ arc, w.arcs.get b = some arc) →
      ∃ arc, (w.arcs.free a).get b = some arc := by
    intro b hne hb
    rwa [Heap.get_free_of_ne _ hne]
  refine ⟨?_, fun b hb => halive b (fun heq => hlisted (heq ▸ hb)) (h.listed_alive b hb),
    fun b hb => halive b (fun heq => hheld (heq ▸ hb)) (h.held_alive b (List.mem_cons_of_mem _ hb)),
    ?_, ?_, ?_⟩
  · intro b arc₁ hb
    obtain ⟨hne, hb⟩ := Heap.get_of_get_free hb
    have hb' := h.refs hb
    rw [List.count_cons_of_ne hne.symm] at hb'
    exact hb'
  · intro i b wr hwr hentry
    refine halive b (fun heq => ?_) (h.wr_alive hwr hentry)
    have hpos : 0 < w.wrs.count (CacheWr.of a) :=
      Heap.count_pos hwr (by simp [CacheWr.of, hentry, heq])
    omega
  · intro r rd hrd
    refine halive _ (fun heq => ?_) (h.rd_alive hrd)
    have hpos : 0 < w.rds.count (CacheRd.of a) :=
      Heap.count_pos hrd (by simp [CacheRd.of, heq])
    omega
  · intro b arc₁ hb
    have hb' := h.handles (Heap.get_of_get_free hb).2
    exact ⟨hb'.nodup, hb'.mem_iff⟩

theorem World.entry_free (w : World) (a b : ℕ) :
    ({ w with arcs := w.arcs.free a } : World).entry b = if b = a then none else w.entry b := by
  simp only [World.entry]
  split
  · rename_i heq
    simp [heq]
  · rename_i hne
    rw [Heap.get_free_of_ne _ hne]

theorem Kept.freeArc (w : World) (a : ℕ) : Kept w { w with arcs := w.arcs.free a } := by
  refine .of_rds_eq (.of_subset rfl (by simp) ?_) rfl rfl rfl
  intro b e' he'
  rw [World.entry_free] at he'
  split at he'
  · simp at he'
  · exact ⟨e', he', rfl⟩

theorem arcFree_spec (h : RefInv w listed (a :: held)) :
    ∃ w', w.arcFree a = some w' ∧ RefInv w' listed held ∧ Kept w w' ∧
      w'.rds = w.rds ∧ w'.wrs = w.wrs ∧ w'.allocs = w.allocs ∧
      ∀ b, b ≠ a → w'.entry b = w.entry b := by
  obtain ⟨arc, ha⟩ := h.held_alive a (by simp)
  have hpos := (h.refs ha).1
  by_cases hone : 1 < arc.refCount
  · refine ⟨{ w with arcs := w.arcs.set a { arc with refCount := arc.refCount - 1 } }, ?_, ?_,
      .setArc ha rfl, rfl, rfl, rfl, ?_⟩
    · simp [World.arcFree, ha, hone]
    · refine h.setArc _ ha rfl (by simp only; omega) ?_ ?_
      · simp only [List.count_cons_self]
        omega
      · intro b hne
        rw [List.count_cons_of_ne hne.symm]
    · intro b hne
      rw [World.entry_set ha, if_neg hne]
  · have hone' : arc.refCount = 1 := by omega
    refine ⟨{ w with arcs := w.arcs.free a }, ?_, h.freeArc ha hone', .freeArc w a, rfl, rfl, rfl,
      ?_⟩
    · simp [World.arcFree, ha, hone']
    · intro b hne
      rw [World.entry_free, if_neg hne]

/-! ## Handles -/

/-- A reference is stored in a new read handle, which is not registered yet. -/
theorem RefInv.allocRd (h : RefInv w listed (a :: held)) :
    RefInv { w with rds := w.rds.alloc ⟨false, a, 0, none, false⟩ } listed held := by
  have hget := Heap.get_alloc w.rds ⟨false, a, 0, none, false⟩
  refine ⟨?_, h.listed_alive, fun b hb => h.held_alive b (List.mem_cons_of_mem _ hb), h.wr_alive,
    ?_, ?_⟩
  · intro b arc hb
    have hb' := h.refs hb
    rw [List.count_cons] at hb'
    rw [Heap.count_alloc]
    refine ⟨hb'.1, ?_⟩
    by_cases hab : a = b
    · simp only [hab, beq_self_eq_true, if_true, CacheRd.of, decide_true] at hb' ⊢
      omega
    · simp only [hab, beq_iff_eq, if_false, CacheRd.of, decide_false, Bool.false_eq_true] at hb' ⊢
      omega
  · intro r rd hrd
    simp only [hget] at hrd
    split at hrd
    · cases hrd
      exact h.held_alive a (by simp)
    · exact h.rd_alive hrd
  · intro b arc hb
    refine ⟨(h.handles hb).nodup, fun r => ?_⟩
    rw [(h.handles hb).mem_iff]
    simp only [hget]
    constructor
    · rintro ⟨rd, hrd, hentry⟩
      exact ⟨rd, by rw [if_neg (Heap.ne_next_of_get hrd), hrd], hentry⟩
    · rintro ⟨rd, hrd, hentry, hreg⟩
      split at hrd
      · cases hrd
        simp at hreg
      · exact ⟨rd, hrd, hentry, hreg⟩

theorem RefInv.registerRd {arc : ArcEntry} {r : ℕ} {rd : CacheRd} (rd' : CacheRd)
    (h : RefInv w listed held) (ha : w.arcs.get a = some arc) (hr : w.rds.get r = some rd)
    (hentry : rd.entry = a) (hreg : rd.registered = false) (hentry' : rd'.entry = a)
    (hreg' : rd'.registered = true) :
    RefInv { w with
      arcs := w.arcs.set a { arc with data := { arc.data with
        handles := arc.data.handles ++ [r] } }
      rds := w.rds.set r rd' } listed held := by
  have hgetr : ∀ q, (w.rds.set r rd').get q = if q = r then some rd' else w.rds.get q :=
    Heap.get_set hr _
  have hcount : ∀ b, (w.rds.set r rd').count (CacheRd.of b) = w.rds.count (CacheRd.of b) := by
    intro b
    have hset := Heap.count_set (CacheRd.of b) hr rd'
    have hof : CacheRd.of b rd = CacheRd.of b rd' := by simp [CacheRd.of, hentry, hentry']
    rw [hof] at hset
    omega
  have hnot : r ∉ arc.data.handles := by
    intro hmem
    obtain ⟨rd₁, hrd₁, _, hreg₁⟩ := ((h.handles ha).mem_iff r).mp hmem
    rw [hr, Option.some.injEq] at hrd₁
    simp [← hrd₁, hreg] at hreg₁
  refine h.setArcRds _ ha (h.refs ha).1 (fun b => by rw [hcount]) (fun b hb => .inr hb)
    ⟨?_, fun q => ?_⟩ fun {q rd₁} hne => ?_
  · rw [List.nodup_append]
    refine ⟨(h.handles ha).nodup, by simp, ?_⟩
    rintro q hq q' hq' rfl
    simp only [List.mem_singleton] at hq'
    exact hnot (hq' ▸ hq)
  · simp only [List.mem_append, List.mem_singleton, (h.handles ha).mem_iff, hgetr]
    by_cases hq : q = r
    · subst hq
      simp [hentry', hreg']
    · simp [hq]
  · rw [hgetr]
    by_cases hq : q = r
    · subst hq
      rw [if_pos rfl, hr, Option.some.injEq, Option.some.injEq]
      exact ⟨fun heq => absurd (heq ▸ hentry') hne, fun heq => absurd (heq ▸ hentry) hne⟩
    · rw [if_neg hq]

/-- Freeing an entry looks neither at the cache and its nodes nor at the handles. -/
theorem World.arcFree_frame (w : World) (a : ℕ) (c : Cache → Cache)
    (n : Heap (DlistNode ℕ) → Heap (DlistNode ℕ)) (f : Heap CacheRd → Heap CacheRd)
    (g : Heap CacheWr → Heap CacheWr) :
    ({ w with cache := c w.cache, nodes := n w.nodes, rds := f w.rds, wrs := g w.wrs } :
        World).arcFree a =
      (w.arcFree a).map fun w' =>
        { w' with cache := c w'.cache, nodes := n w'.nodes, rds := f w'.rds, wrs := g w'.wrs } := by
  simp only [World.arcFree]
  cases w.arcs.get a with
  | none => rfl
  | some arc =>
      simp only [Option.bind_eq_bind, Option.bind_some]
      split
      · rfl
      · by_cases hone : arc.refCount = 1 <;> simp [hone]

theorem World.arcFree_handles (w : World) (a : ℕ) (f : Heap CacheRd → Heap CacheRd)
    (g : Heap CacheWr → Heap CacheWr) :
    ({ w with rds := f w.rds, wrs := g w.wrs } : World).arcFree a =
      (w.arcFree a).map fun w' => { w' with rds := f w'.rds, wrs := g w'.wrs } :=
  w.arcFree_frame a id id f g

theorem RefInv.freeRd {arc : ArcEntry} {r : ℕ} {rd : CacheRd} (h : RefInv w listed held)
    (hr : w.rds.get r = some rd) (ha : w.arcs.get rd.entry = some arc) :
    RefInv { w with
      arcs := w.arcs.set rd.entry { arc with data := { arc.data with
        handles := arc.data.handles.erase r } }
      rds := w.rds.free r } listed (rd.entry :: held) := by
  have hold := h.handles ha
  refine h.setArcRds _ ha (h.refs ha).1 (fun b => ?_) (fun b hb => List.mem_cons.mp hb)
    ⟨hold.nodup.erase r, fun q => ?_⟩ fun {q rd₁} hne => ?_
  · -- the reference of the reader is held now
    have hcount := Heap.count_free (CacheRd.of b) hr
    simp only [CacheRd.of, decide_eq_true_eq] at hcount
    rw [List.count_cons]
    simp only [beq_iff_eq]
    omega
  · simp only [hold.nodup.mem_erase_iff, hold.mem_iff]
    constructor
    · rintro ⟨hqr, rd₁, hrd₁, hentry⟩
      exact ⟨rd₁, by rw [Heap.get_free_of_ne _ hqr, hrd₁], hentry⟩
    · rintro ⟨rd₁, hrd₁, hentry⟩
      exact ⟨(Heap.get_of_get_free hrd₁).1, rd₁, (Heap.get_of_get_free hrd₁).2, hentry⟩
  · refine ⟨fun hq => (Heap.get_of_get_free hq).2, fun hq => ?_⟩
    have hqr : q ≠ r := by
      rintro rfl
      rw [hr, Option.some.injEq] at hq
      exact hne (hq ▸ rfl)
    rw [Heap.get_free_of_ne _ hqr, hq]

/-- An unregistered handle is not known to its entry. -/
theorem RefInv.erase_handles {arc : ArcEntry} {r : ℕ} {rd : CacheRd} (h : RefInv w listed held)
    (hr : w.rds.get r = some rd) (ha : w.arcs.get rd.entry = some arc)
    (hreg : rd.registered = false) : arc.data.handles.erase r = arc.data.handles := by
  refine List.erase_of_not_mem fun hmem => ?_
  obtain ⟨rd', hrd', _, hreg'⟩ := ((h.handles ha).mem_iff r).mp hmem
  rw [hr, Option.some.injEq] at hrd'
  rw [← hrd', hreg] at hreg'
  simp at hreg'

theorem cacheRdFree_spec {r : ℕ} {rd : CacheRd} (h : RefInv w listed held)
    (hr : w.rds.get r = some rd) :
    ∃ w', w.cacheRdFree r = some w' ∧ RefInv w' listed held ∧ Kept w w' ∧
      w'.rds = w.rds.free r ∧ w'.wrs = w.wrs ∧ w'.allocs = w.allocs := by
  obtain ⟨arc, ha⟩ := h.rd_alive hr
  generalize hw₁ : ({ w with arcs := w.arcs.set rd.entry { arc with data := { arc.data with
    handles := arc.data.handles.erase r } } } : World) = w₁
  have hkept₁ : Kept w w₁ := by
    rw [← hw₁]
    exact .setArc ha rfl
  have hrds₁ : w₁.rds = w.rds := by rw [← hw₁]
  have hwrs₁ : w₁.wrs = w.wrs := by rw [← hw₁]
  have hrun : w.cacheRdFree r =
      (w₁.arcFree rd.entry).bind fun w' => some { w' with rds := w'.rds.free r } := by
    cases hreg : rd.registered with
    | true =>
        simp [World.cacheRdFree, hr, hreg, h.arcGet_eq ha, World.setEntry, ha, ← hw₁]
    | false =>
        have hsame : w₁ = w := by rw [← hw₁, h.erase_handles hr ha hreg, Heap.set_self ha]
        simp [World.cacheRdFree, hr, hreg, hsame]
  have href : RefInv { w₁ with rds := w₁.rds.free r } listed (rd.entry :: held) := by
    rw [← hw₁]
    exact h.freeRd hr ha
  obtain ⟨w₂, hfree, href₂, hkept₂, hrds₂, hwrs₂, hallocs₂, _⟩ := arcFree_spec href
  have hframe := World.arcFree_handles w₁ rd.entry (·.free r) id
  refine ⟨w₂, ?_, href₂, hkept₁.trans (.trans ?_ hkept₂), by rw [hrds₂, hrds₁],
    hwrs₂.trans hwrs₁, by rw [hallocs₂, ← hw₁]⟩
  · rw [hrun, ← hfree]
    exact Option.map_eq_bind.symm.trans hframe.symm
  · refine ⟨.of_subset (.of_arcs_eq _ rfl rfl) (by simp) ?_, rfl, rfl⟩
    intro q rd' hq
    exact (Heap.get_of_get_free hq).2

/-! ## New readers -/

theorem RefInv.asked (h : RefInv w listed held) : RefInv w.asked listed held :=
  h.congr rfl rfl rfl

@[simp] theorem World.asked_entry (w : World) (b : ℕ) : w.asked.entry b = w.entry b := rfl

theorem Kept.asked (w : World) : Kept w w.asked :=
  .of_rds_eq (.of_arcs_eq _ rfl rfl) rfl rfl rfl

theorem Kept.newRd {arc : ArcEntry} (ha : w.arcs.get a = some arc)
    (hstate : arc.data.state ≠ .entryInvalid) (n : ℕ) :
    Kept w { w with
      arcs := w.arcs.set a { arc with data := { arc.data with
        handles := arc.data.handles ++ [w.rds.next] } }
      rds := (w.rds.alloc ⟨false, a, 0, none, false⟩).set w.rds.next
        ⟨0 < arc.data.buf.length, a, 0, none, true⟩
      allocs := n } := by
  have hentries : EntriesKept CacheEntry.core w { w with arcs := w.arcs.set a { arc with data :=
    { arc.data with handles := arc.data.handles ++ [w.rds.next] } } } := .setArc ha rfl
  refine ⟨⟨hentries.trans (.of_arcs_eq _ rfl rfl), by simp, ?_⟩, rfl, rfl⟩
  intro r rd' hr
  have hget := Heap.get_set (Heap.get_alloc_next w.rds ⟨false, a, 0, none, false⟩)
    ⟨0 < arc.data.buf.length, a, 0, none, true⟩ r
  rw [Heap.get_alloc] at hget
  simp only [hget] at hr
  split at hr
  · rename_i heq
    cases hr
    refine .inr ⟨heq.ge, rfl, rfl, rfl, by simpa using Heap.lt_next_of_get ha, ?_⟩
    intro e he
    simp only [World.entry, Heap.get_set_self ha, Option.map_some, Option.some.injEq] at he
    rw [← he]
    exact ⟨hstate, rfl⟩
  · exact .inl hr

theorem cacheEntryNewRdUnsync_spec (alloc : Alloc) (h : RefInv w listed (a :: held))
    (hstate : ∀ {e : CacheEntry}, w.entry a = some e → e.state ≠ .entryInvalid) :
    ∃ result w', w.cacheEntryNewRdUnsync alloc a = some (result, w') ∧ RefInv w' listed held ∧
      Kept w w' ∧ w'.wrs = w.wrs := by
  obtain ⟨arc, ha⟩ := h.held_alive a (by simp)
  have hget := h.arcGet_eq ha
  cases hok : alloc w.allocs with
  | false =>
      -- no memory for the handle
      obtain ⟨w₁, hfree, href₁, hkept₁, _, hwrs₁, _⟩ := arcFree_spec h.asked
      refine ⟨.error (.wrap "Could not allocate a read handle" (.okIf "rd != NULL")), w₁, ?_,
        href₁, (Kept.asked w).trans hkept₁, hwrs₁⟩
      simp [World.cacheEntryNewRdUnsync, hget, hok, hfree]
  | true =>
      obtain ⟨w₁, hshare, href₁, hkept₁, hrds₁, hwrs₁, hallocs₁, hentry₁⟩ :=
        arcShare_spec h.asked ⟨arc, ha⟩
      obtain ⟨arc₁, ha₁⟩ := href₁.held_alive a (by simp)
      have hdata₁ : w.entry a = some arc₁.data := by
        rw [← World.asked_entry, ← hentry₁, World.entry, ha₁]
        rfl
      have href₂ := href₁.allocRd.asked
      have hrd := Heap.get_alloc_next w₁.rds ⟨false, a, 0, none, false⟩
      cases hok' : alloc w₁.allocs with
      | false =>
          -- no memory to register it
          obtain ⟨w₂, hfree₂, href₂, hkept₂, hrds₂, hwrs₂, _⟩ := cacheRdFree_spec href₂ hrd
          obtain ⟨w₃, hfree₃, href₃, hkept₃, hrds₃, hwrs₃, _⟩ := arcFree_spec href₂
          refine ⟨.error (.wrap "Could not register the created handle"
            (.fromCommon .memoryAllocationFailure)), w₃, ?_, href₃, ?_, by
              rw [hwrs₃, hwrs₂, World.asked, hwrs₁, World.asked]⟩
          · simp [World.cacheEntryNewRdUnsync, hget, hok, hshare, hok', hfree₂, hfree₃]
          · have hentries₂ : EntriesKept CacheEntry.core w₁ w₂ := by
              refine .trans ?_ hkept₂.toEntriesKept
              exact .of_arcs_eq _ rfl rfl
            -- the handle has come and gone
            have hreader : ∀ {r : ℕ} {rd : CacheRd}, w₂.rds.get r = some rd →
                w₁.rds.get r = some rd := by
              intro r rd hr
              rw [hrds₂] at hr
              obtain ⟨hne, hr⟩ := Heap.get_of_get_free hr
              rwa [World.asked, Heap.get_alloc, if_neg hne] at hr
            have hkept₁₂ : Kept w₁ w₂ :=
              ⟨⟨hentries₂, by simp [hrds₂, World.asked], fun hr => .inl (hreader hr)⟩,
                hkept₂.cache_eq, hkept₂.nodes_eq⟩
            exact (Kept.asked w).trans (hkept₁.trans (hkept₁₂.trans hkept₃))
      | true =>
          have href₃ := href₂.registerRd ⟨0 < arc₁.data.buf.length, a, 0, none, true⟩
            ha₁ hrd rfl rfl rfl rfl
          obtain ⟨w₃, hfree₃, href₃, hkept₃, hrds₃, hwrs₃, _⟩ := arcFree_spec href₃
          have hkept₂ := Kept.newRd ha₁ (hstate hdata₁) (w₁.allocs + 1)
          refine ⟨.ok w₁.rds.next, w₃, ?_, href₃,
            (Kept.asked w).trans (hkept₁.trans (hkept₂.trans hkept₃)), by
              rw [hwrs₃, World.asked, hwrs₁, World.asked]⟩
          simp only [World.asked] at hfree₃
          simp only [World.cacheEntryNewRdUnsync, hget, hok, hshare, hok', if_true,
            Option.bind_eq_bind, Option.bind_some]
          simp [World.arcGet, World.setEntry, World.asked, ha₁, (href₁.refs ha₁).1, hfree₃]

theorem cacheEntryNewRd_spec (alloc : Alloc) (h : RefInv w listed (a :: held))
    (hstate : ∀ {e : CacheEntry}, w.entry a = some e → e.state ≠ .entryInvalid) :
    ∃ result w', w.cacheEntryNewRd alloc a = some (result, w') ∧ RefInv w' listed held ∧
      Kept w w' ∧ w'.wrs = w.wrs := by
  obtain ⟨w₁, hshare, href₁, hkept₁, _, hwrs₁, _, hentry₁⟩ :=
    arcShare_spec h (h.held_alive a (by simp))
  obtain ⟨result, w₂, hnew, href₂, hkept₂, hwrs₂⟩ :=
    cacheEntryNewRdUnsync_spec alloc href₁ fun he => hstate (by rwa [hentry₁] at he)
  obtain ⟨w₃, hfree, href₃, hkept₃, _, hwrs₃, _⟩ := arcFree_spec href₂
  refine ⟨result, w₃, ?_, href₃, hkept₁.trans (hkept₂.trans hkept₃),
    hwrs₃.trans (hwrs₂.trans hwrs₁)⟩
  simp [World.cacheEntryNewRd, hshare, hnew, hfree]

/-! ## New entries -/

/-- A change to the write handles that moves references between them and `held`. -/
theorem RefInv.setWrs {wrs : Heap CacheWr} {held' : List ℕ} (h : RefInv w listed held)
    (hcount : ∀ b, wrs.count (CacheWr.of b) + held'.count b =
      w.wrs.count (CacheWr.of b) + held.count b)
    (hwr : ∀ {i b : ℕ} {wr : CacheWr}, wrs.get i = some wr → wr.entry = some b →
      ∃ arc, w.arcs.get b = some arc)
    (hheld : ∀ b ∈ held', ∃ arc, w.arcs.get b = some arc) :
    RefInv { w with wrs := wrs } listed held' := by
  refine ⟨?_, h.listed_alive, hheld, hwr, h.rd_alive, ?_⟩
  · intro b arc hb
    have hb' := h.refs hb
    have hcount' := hcount b
    exact ⟨hb'.1, by simp only; omega⟩
  · intro b arc hb
    exact ⟨(h.handles hb).nodup, (h.handles hb).mem_iff⟩

theorem RefInv.allocWr (h : RefInv w listed held) :
    RefInv { w with wrs := w.wrs.alloc ⟨none⟩ } listed held := by
  refine h.setWrs (fun b => ?_) ?_ h.held_alive
  · simp [Heap.count_alloc, CacheWr.of]
  · intro i b wr hwr hentry
    rw [Heap.get_alloc] at hwr
    split at hwr
    · cases hwr
      simp at hentry
    · exact h.wr_alive hwr hentry

theorem RefInv.giveWr {i : ℕ} (h : RefInv w listed (a :: held)) (hi : w.wrs.get i = some ⟨none⟩) :
    RefInv { w with wrs := w.wrs.set i ⟨some a⟩ } listed held := by
  refine h.setWrs (fun b => ?_) ?_ fun b hb => h.held_alive b (List.mem_cons_of_mem _ hb)
  · have hcount := Heap.count_set (CacheWr.of b) hi ⟨some a⟩
    rw [List.count_cons]
    simp only [CacheWr.of, Option.some.injEq, reduceCtorEq, decide_false, decide_eq_true_eq,
      Bool.false_eq_true, if_false, beq_iff_eq] at hcount ⊢
    omega
  · intro j b wr hwr hentry
    rw [Heap.get_set hi] at hwr
    split at hwr
    · cases hwr
      cases hentry
      exact h.held_alive a (by simp)
    · exact h.wr_alive hwr hentry

theorem RefInv.freeWr {i : ℕ} {wr : CacheWr} (h : RefInv w listed held)
    (hi : w.wrs.get i = some wr) :
    RefInv { w with wrs := w.wrs.free i } listed (wr.entry.toList ++ held) := by
  refine h.setWrs (fun b => ?_)
    (fun hwr hentry => h.wr_alive (Heap.get_of_get_free hwr).2 hentry) ?_
  · have hcount := Heap.count_free (CacheWr.of b) hi
    cases hentry : wr.entry with
    | none =>
        simp only [CacheWr.of, hentry, reduceCtorEq, decide_false, Bool.false_eq_true, if_false,
          Option.toList_none, List.nil_append] at hcount ⊢
        omega
    | some a =>
        simp only [CacheWr.of, hentry, Option.some.injEq, decide_eq_true_eq, Option.toList_some,
          List.singleton_append, List.count_cons, beq_iff_eq] at hcount ⊢
        omega
  · intro b hb
    rcases List.mem_append.mp hb with hb | hb
    · exact h.wr_alive hi (Option.mem_toList.mp hb)
    · exact h.held_alive b hb

theorem RefInv.allocArc (url : Url) (h : RefInv w listed held) :
    RefInv { w with arcs := w.arcs.alloc ⟨1, .new w.self url⟩ } listed (w.arcs.next :: held) := by
  have hget := Heap.get_alloc w.arcs ⟨1, .new w.self url⟩
  have halive : ∀ b, (∃ arc, w.arcs.get b = some arc) →
      ∃ arc, (w.arcs.alloc ⟨1, .new w.self url⟩).get b = some arc := by
    rintro b ⟨arc, hb⟩
    exact ⟨arc, Heap.get_alloc_of_get hb⟩
  have hnew : ∀ {l : List ℕ}, (∀ b ∈ l, ∃ arc, w.arcs.get b = some arc) →
      l.count w.arcs.next = 0 := by
    intro l hl
    refine List.count_eq_zero.mpr fun hmem => ?_
    obtain ⟨arc, harc⟩ := hl _ hmem
    exact Heap.ne_next_of_get harc rfl
  have hwrs : w.wrs.count (CacheWr.of w.arcs.next) = 0 := by
    refine Heap.count_eq_zero fun {i wr} hwr => decide_eq_false fun hentry => ?_
    obtain ⟨arc, harc⟩ := h.wr_alive hwr hentry
    exact Heap.ne_next_of_get harc rfl
  have hrds : w.rds.count (CacheRd.of w.arcs.next) = 0 := by
    refine Heap.count_eq_zero fun {r rd} hrd => decide_eq_false fun hentry => ?_
    obtain ⟨arc, harc⟩ := h.rd_alive hrd
    exact Heap.ne_next_of_get harc hentry
  refine ⟨?_, fun b hb => halive b (h.listed_alive b hb), ?_,
    fun hwr hentry => halive _ (h.wr_alive hwr hentry), fun hrd => halive _ (h.rd_alive hrd), ?_⟩
  · intro b arc hb
    simp only [hget] at hb
    split at hb
    · rename_i heq
      subst heq
      cases hb
      simp [hnew h.listed_alive, hnew h.held_alive, hwrs, hrds]
    · rename_i hne
      have hb' := h.refs hb
      rw [List.count_cons_of_ne (Ne.symm hne)]
      exact hb'
  · intro b hb
    rcases List.mem_cons.mp hb with rfl | hb
    · exact ⟨_, Heap.get_alloc_next _ _⟩
    · exact halive b (h.held_alive b hb)
  · intro b arc hb
    simp only [hget] at hb
    split at hb
    · rename_i heq
      subst heq
      cases hb
      refine ⟨List.nodup_nil, fun r => ?_⟩
      simp only [CacheEntry.new, List.not_mem_nil, false_iff]
      rintro ⟨rd, hrd, hentry, _⟩
      obtain ⟨arc, harc⟩ := h.rd_alive hrd
      exact Heap.ne_next_of_get harc hentry
    · exact ⟨(h.handles hb).nodup, (h.handles hb).mem_iff⟩

theorem Kept.allocArc (w : World) (url : Url) :
    Kept w { w with arcs := w.arcs.alloc ⟨1, .new w.self url⟩ } := by
  refine .of_rds_eq ⟨rfl, by simp, ?_⟩ rfl rfl rfl
  intro b e' he'
  simp only [World.entry, Heap.get_alloc] at he'
  split at he'
  · rename_i heq
    cases he'
    exact .inr ⟨heq.ge, url, rfl⟩
  · exact .inl ⟨e', he', rfl⟩

theorem World.askAll_snd (alloc : Alloc) (w : World) (errs : List Error) :
    ∃ n, (w.askAll alloc errs).2 = { w with allocs := n } := by
  induction errs generalizing w with
  | nil => exact ⟨w.allocs, rfl⟩
  | cons err errs ih =>
      simp only [World.askAll]
      split
      · obtain ⟨n, hn⟩ := ih w.asked
        exact ⟨n, hn⟩
      · exact ⟨w.allocs + 1, rfl⟩

theorem World.cacheEntryInit_snd (alloc : Alloc) (w : World) (url : Url) :
    ∃ n, (w.cacheEntryInit alloc url).2 = { w with allocs := n } := by
  unfold World.cacheEntryInit
  obtain ⟨n, hn⟩ := World.askAll_snd alloc w [
    .wrap "Could not initialize mutex attributes" (.fromPosix "pthread_mutexattr_init"),
    .wrap "Could not initialize a mutex" (.fromPosix "pthread_mutex_init")]
  split
  · rename_i err w₁ heq
    rw [heq] at hn
    exact ⟨n, hn⟩
  · rename_i w₁ heq
    rw [heq] at hn
    subst hn
    split
    · exact ⟨n + 1, rfl⟩
    · rename_i url' _
      obtain ⟨m, hm⟩ := World.askAll_snd alloc ({ w with allocs := n } : World).asked [
        .wrap "Could not create a buffer" (.fromCommon .memoryAllocationFailure),
        .wrap "Could not allocate an entry" (.okIf "arc != NULL")]
      split
      · rename_i err w₂ heq'
        rw [heq'] at hm
        exact ⟨m, hm⟩
      · rename_i w₂ heq'
        rw [heq'] at hm
        exact ⟨m, hm⟩

theorem World.cacheEntryInit_ok {alloc : Alloc} {url url' : Url} {w' : World}
    (h : w.cacheEntryInit alloc url = (.ok url', w')) : url' = url := by
  unfold World.cacheEntryInit at h
  split at h
  · simp at h
  · split at h
    · simp at h
    · rename_i url₁ hcopy
      have hurl : url₁ = url := by
        unfold urlCopy at hcopy
        split at hcopy
        · exact (Except.ok.inj hcopy).symm
        · simp at hcopy
      split at h
      · simp at h
      · simp only [Prod.mk.injEq, Except.ok.injEq] at h
        rw [← h.1, hurl]

theorem Kept.of_arcs_eq {w' : World} (hself : w'.self = w.self) (harcs : w'.arcs = w.arcs)
    (hrds : w'.rds = w.rds) (hcache : w'.cache = w.cache) (hnodes : w'.nodes = w.nodes) :
    Kept w w' :=
  .of_rds_eq (.of_arcs_eq _ hself harcs) hcache hnodes hrds

/-- What `cache_create_entry_unsync` does to the write handles: it returns the only new one,
at the address `wr`, which belongs to a new entry for the URL. -/
structure Created (w : World) (url : Url) (wr : ℕ) (result : Except Error (ℕ × ℕ)) (w' : World) :
    Prop where
  wrs_le : w.wrs.next ≤ w'.wrs.next
  kept : ∀ {i a : ℕ}, w.wrEntry i = some a → w'.wrEntry i = some a
  wrEntry : ∀ {i a : ℕ}, w'.wrEntry i = some a →
    w.wrEntry i = some a ∨ ((∃ rd, result = .ok (rd, i)) ∧ w.arcs.next ≤ a)
  handle : ∀ {rd i : ℕ}, result = .ok (rd, i) → i = wr ∧ i < w'.wrs.next ∧ ∃ a e,
    w'.wrEntry i = some a ∧ w'.entry a = some e ∧ e.url = url ∧ e.committed = false

theorem Created.of_error {w' : World} {err : Error} {url : Url} {wr : ℕ}
    (hle : w.wrs.next ≤ w'.wrs.next)
    (hwrs : ∀ {i a : ℕ}, w'.wrEntry i = some a ↔ w.wrEntry i = some a) :
    Created w url wr (.error err) w' :=
  ⟨hle, hwrs.mpr, fun hi => .inl (hwrs.mp hi), fun hresult => by simp at hresult⟩

theorem World.wrEntry_eq_some_iff {i : ℕ} :
    w.wrEntry i = some a ↔ w.wrs.get i = some ⟨some a⟩ := by
  simp only [World.wrEntry, Option.bind_eq_bind, Option.bind_eq_some_iff]
  constructor
  · rintro ⟨⟨entry⟩, hget, rfl⟩
    exact hget
  · intro hget
    exact ⟨⟨some a⟩, hget, rfl⟩

theorem Created.of_ok {w' : World} {url : Url} {wr : ℕ} {e : CacheEntry} (rd : ℕ)
    (hwr : w.wrs.get wr = some ⟨none⟩) (hwrs : w'.wrs = w.wrs.set wr ⟨some w.arcs.next⟩)
    (hentry : w'.entry w.arcs.next = some e) (he : e.url = url ∧ e.committed = false) :
    Created w url wr (.ok (rd, wr)) w' := by
  have hget := Heap.get_set hwr ⟨some w.arcs.next⟩
  refine ⟨by simp [hwrs], ?_, ?_, ?_⟩
  · intro i a hi
    rw [World.wrEntry_eq_some_iff] at hi ⊢
    have hne : i ≠ wr := by
      rintro rfl
      simp [hwr] at hi
    rw [hwrs, hget, if_neg hne, hi]
  · intro i a hi
    rw [World.wrEntry_eq_some_iff, hwrs, hget] at hi
    split at hi
    · rename_i heq
      cases hi
      exact .inr ⟨⟨rd, by rw [heq]⟩, le_rfl⟩
    · exact .inl (World.wrEntry_eq_some_iff.mpr hi)
  · intro rd' i hresult
    cases hresult
    refine ⟨rfl, ?_, w.arcs.next, e, ?_, hentry, he⟩
    · simpa [hwrs] using Heap.lt_next_of_get hwr
    · rw [World.wrEntry_eq_some_iff, hwrs, hget, if_pos rfl]

theorem Kept.entry_new {w' : World} {url : Url} {e : CacheEntry}
    (h : Kept { w with arcs := w.arcs.alloc ⟨1, .new w.self url⟩ } w')
    (he : w'.entry w.arcs.next = some e) : e.url = url ∧ e.committed = false := by
  rcases h.entry he with ⟨e', he', heq⟩ | ⟨hle, _⟩
  · simp only [World.entry, Heap.get_alloc_next, Option.map_some, Option.some.injEq] at he'
    rw [← he'] at heq
    simp only [CacheEntry.core, CacheEntry.new, CacheEntry.mk.injEq] at heq
    exact ⟨heq.1, heq.2.2.2.2.2⟩
  · simp only [Heap.next_alloc] at hle
    omega

/-- The part of `cache_create_entry_unsync` behind the allocations. -/
theorem cacheCreateEntry_finish {wr : ℕ} (alloc : Alloc) (url : Url) (h : RefInv w listed held)
    (hwr : w.wrs.get wr = some ⟨none⟩) :
    ∃ result w', (do
        let arc := w.arcs.next
        let w := { w with arcs := w.arcs.alloc ⟨1, .new w.self url⟩ }
        let w ← w.arcShare arc
        match ← w.cacheEntryNewRd alloc arc with
        | (.error err, w) => return (.error err, ← w.arcFree arc)
        | (.ok rd, w) =>
            let w ← w.arcShare arc
            let w := { w with wrs := w.wrs.set wr ⟨some arc⟩ }
            return (.ok (rd, wr), ← w.arcFree arc)) =
        (some (result, w') : Option (Except Error (ℕ × ℕ) × World)) ∧
      RefInv w' listed held ∧ Kept w w' ∧ Created w url wr result w' := by
  have href₀ := h.allocArc url
  have hkept₀ := Kept.allocArc w url
  obtain ⟨w₁, hshare₁, href₁, hkept₁, _, hwrs₁, _, hentry₁⟩ :=
    arcShare_spec href₀ (href₀.held_alive w.arcs.next (by simp))
  have hstate₁ : ∀ {e : CacheEntry}, w₁.entry w.arcs.next = some e → e.state ≠ .entryInvalid := by
    intro e he
    rw [hentry₁] at he
    simp only [World.entry, Heap.get_alloc_next, Option.map_some, Option.some.injEq] at he
    rw [← he]
    simp [CacheEntry.new]
  obtain ⟨result, w₂, hnew, href₂, hkept₂, hwrs₂⟩ := cacheEntryNewRd_spec alloc href₁ hstate₁
  cases result with
  | error err =>
      obtain ⟨w₃, hfree, href₃, hkept₃, _, hwrs₃, _⟩ := arcFree_spec href₂
      have hwrs : w₃.wrs = w.wrs := by rw [hwrs₃, hwrs₂, hwrs₁]
      refine ⟨.error err, w₃, ?_, href₃, hkept₀.trans (hkept₁.trans (hkept₂.trans hkept₃)),
        .of_error (by rw [hwrs]) ?_⟩
      · simp [hshare₁, hnew, hfree]
      · intro i a
        rw [World.wrEntry, hwrs, World.wrEntry]
  | ok rd =>
      obtain ⟨w₃, hshare₃, href₃, hkept₃, _, hwrs₃, _⟩ :=
        arcShare_spec href₂ (href₂.held_alive w.arcs.next (by simp))
      have hwr₃ : w₃.wrs.get wr = some ⟨none⟩ := by rw [hwrs₃, hwrs₂, hwrs₁, hwr]
      have href₄ := href₃.giveWr hwr₃
      obtain ⟨w₅, hfree, href₅, hkept₅, _, hwrs₅, _⟩ := arcFree_spec href₄
      have hgive : Kept w₃ { w₃ with wrs := w₃.wrs.set wr ⟨some w.arcs.next⟩ } :=
        .of_arcs_eq rfl rfl rfl rfl rfl
      have hkept' := hkept₁.trans (hkept₂.trans (hkept₃.trans (hgive.trans hkept₅)))
      have hwrs : w₅.wrs = w.wrs.set wr ⟨some w.arcs.next⟩ := by
        rw [hwrs₅]
        simp only [hwrs₃, hwrs₂, hwrs₁]
      have hmine : w₅.wrs.get wr = some ⟨some w.arcs.next⟩ := by
        rw [hwrs, Heap.get_set hwr, if_pos rfl]
      obtain ⟨arc, harc⟩ := href₅.wr_alive hmine rfl
      have hentry : w₅.entry w.arcs.next = some arc.data := by rw [World.entry, harc]; rfl
      refine ⟨.ok (rd, wr), w₅, ?_, href₅, hkept₀.trans hkept',
        .of_ok rd hwr hwrs hentry (hkept'.entry_new hentry)⟩
      simp [hshare₁, hnew, hshare₃, hfree]

theorem cacheCreateEntry_spec (alloc : Alloc) (url : Url) (h : RefInv w listed held) :
    ∃ result w', w.cacheCreateEntry alloc url = some (result, w') ∧ RefInv w' listed held ∧
      Kept w w' ∧ Created w url w.wrs.next result w' := by
  unfold World.cacheCreateEntry
  obtain ⟨n, hn⟩ := World.askAll_snd alloc w [
    .wrap "Could not allocate an entry" (.okIf "entry != NULL"),
    .wrap "Could not allocate a write handle" (.okIf "wr != NULL")]
  split
  · rename_i err w₁ heq
    rw [heq] at hn
    subst hn
    exact ⟨.error err, _, rfl, h.congr rfl rfl rfl, .of_arcs_eq rfl rfl rfl rfl rfl,
      .of_error le_rfl Iff.rfl⟩
  · rename_i w₁ heq
    rw [heq] at hn
    subst hn
    have href₁ : RefInv { w with allocs := n, wrs := w.wrs.alloc ⟨none⟩ } listed held :=
      h.allocWr.congr rfl rfl rfl
    obtain ⟨m, hm⟩ := World.cacheEntryInit_snd alloc
      { w with allocs := n, wrs := w.wrs.alloc ⟨none⟩ } url
    have hwr : (w.wrs.alloc ⟨none⟩).get w.wrs.next = some ⟨none⟩ := Heap.get_alloc_next _ _
    split
    · rename_i err w₂ heq'
      rw [heq'] at hm
      subst hm
      refine ⟨.error err, _, rfl, ?_, .of_arcs_eq rfl rfl rfl rfl rfl,
        .of_error (by simp) ⟨fun hi => ?_, fun hi => ?_⟩⟩
      · have href₂ := href₁.freeWr hwr
        exact href₂.congr rfl rfl rfl
      · rw [World.wrEntry_eq_some_iff] at hi ⊢
        obtain ⟨hne, hi⟩ := Heap.get_of_get_free hi
        rwa [Heap.get_alloc, if_neg hne] at hi
      · rw [World.wrEntry_eq_some_iff] at hi ⊢
        simp only [Heap.get_free_of_ne _ (Heap.ne_next_of_get hi)]
        exact Heap.get_alloc_of_get hi
    · rename_i url' w₂ heq'
      rw [heq'] at hm
      subst hm
      have href₂ : RefInv { w with allocs := m, wrs := w.wrs.alloc ⟨none⟩ } listed held :=
        href₁.congr rfl rfl rfl
      obtain ⟨result, w₃, hrun, href₃, hkept₃, hcreated⟩ :=
        cacheCreateEntry_finish alloc url' href₂ hwr
      rw [World.cacheEntryInit_ok heq'] at hcreated
      refine ⟨result, w₃, hrun, href₃, .trans ?_ hkept₃, ?_, ?_, ?_, hcreated.handle⟩
      · exact .of_arcs_eq rfl rfl rfl rfl rfl
      · exact le_trans (by simp) hcreated.wrs_le
      · intro i a hi
        refine hcreated.kept ?_
        rw [World.wrEntry_eq_some_iff] at hi ⊢
        exact Heap.get_alloc_of_get hi
      · intro i a hi
        rcases hcreated.wrEntry hi with hi | hnew
        · -- the handle has no entry yet
          rw [World.wrEntry_eq_some_iff, Heap.get_alloc] at hi
          split at hi
          · simp at hi
          · exact .inl (World.wrEntry_eq_some_iff.mpr hi)
        · exact .inr hnew

/-! ## Waking -/

/-- A reader after the readers of an entry have been woken. -/
def CacheRd.woken (a : ℕ) (rd : CacheRd) : CacheRd :=
  if rd.entry = a ∧ rd.registered = true then { rd with force := true } else rd

/-- The entry `a` has become `e'`, and its readers do not know yet. -/
structure Changed (a : ℕ) (e' : CacheEntry) (w w' : World) : Prop where
  self_eq : w'.self = w.self
  nodes_eq : w'.nodes = w.nodes
  wrs_eq : w'.wrs = w.wrs
  rds_eq : w'.rds = w.rds
  arcs_next : w'.arcs.next = w.arcs.next
  entry : ∀ b, w'.entry b = if b = a then some e' else w.entry b

/-- The entry `a` has become `e'`, and its readers have been woken. -/
structure Rewritten (a : ℕ) (e' : CacheEntry) (w w' : World) : Prop where
  self_eq : w'.self = w.self
  nodes_eq : w'.nodes = w.nodes
  wrs_eq : w'.wrs = w.wrs
  arcs_next : w'.arcs.next = w.arcs.next
  rds_next : w'.rds.next = w.rds.next
  entry : ∀ b, w'.entry b = if b = a then some e' else w.entry b
  reader : ∀ r, w'.rds.get r = (w.rds.get r).map (CacheRd.woken a)

theorem RefInv.setRd {r : ℕ} {rd : CacheRd} (rd' : CacheRd) (h : RefInv w listed held)
    (hr : w.rds.get r = some rd) (hentry : rd'.entry = rd.entry)
    (hreg : rd'.registered = rd.registered) :
    RefInv { w with rds := w.rds.set r rd' } listed held := by
  have hget : ∀ q, (w.rds.set r rd').get q = if q = r then some rd' else w.rds.get q :=
    Heap.get_set hr _
  refine ⟨?_, h.listed_alive, h.held_alive, h.wr_alive, ?_, ?_⟩
  · intro b arc hb
    have hb' := h.refs hb
    have hcount := Heap.count_set (CacheRd.of b) hr rd'
    have hof : CacheRd.of b rd = CacheRd.of b rd' := by simp [CacheRd.of, hentry]
    rw [hof] at hcount
    exact ⟨hb'.1, by simp only; omega⟩
  · intro q rd₁ hq
    simp only [hget] at hq
    split at hq
    · cases hq
      rw [hentry]
      exact h.rd_alive hr
    · exact h.rd_alive hq
  · intro b arc hb
    refine ⟨(h.handles hb).nodup, fun q => ?_⟩
    rw [(h.handles hb).mem_iff]
    simp only [hget]
    by_cases hq : q = r
    · subst hq
      simp [hr, hentry, hreg]
    · simp [hq]

theorem foldlM_handlerForce_spec (hs : List ℕ) (h : RefInv w listed held)
    (hlive : ∀ r ∈ hs, ∃ rd, w.rds.get r = some rd) :
    ∃ rds, hs.foldlM World.handlerForce w = some { w with rds := rds } ∧
      RefInv { w with rds := rds } listed held ∧ rds.next = w.rds.next ∧
      ∀ r, rds.get r = (w.rds.get r).map fun rd =>
        if r ∈ hs then { rd with force := true } else rd := by
  induction hs generalizing w with
  | nil => exact ⟨w.rds, rfl, h, rfl, by simp⟩
  | cons q hs ih =>
      obtain ⟨rd, hq⟩ := hlive q (by simp)
      have hget := Heap.get_set hq { rd with force := true }
      obtain ⟨rds, hrun, href, hnext, hrds⟩ := ih (h.setRd { rd with force := true } hq rfl rfl)
        (by
          intro r hr
          simp only [hget]
          split
          · exact ⟨_, rfl⟩
          · exact hlive r (List.mem_cons_of_mem _ hr))
      refine ⟨rds, ?_, href, by simpa using hnext, ?_⟩
      · simpa [List.foldlM_cons, World.handlerForce, hq] using hrun
      · intro r
        rw [hrds]
        simp only [hget, List.mem_cons]
        by_cases hr : r = q
        · subst hr
          simp [hq]
        · simp [hr]

theorem cacheEntryWake_spec {arc : ArcEntry} (h : RefInv w listed held)
    (ha : w.arcs.get a = some arc) :
    ∃ w', w.cacheEntryWake a = some w' ∧ RefInv w' listed held ∧ w'.cache = w.cache ∧
      w'.allocs = w.allocs ∧ Rewritten a arc.data w w' := by
  have hhandles := h.handles ha
  obtain ⟨rds, hrun, href, hnext, hrds⟩ := foldlM_handlerForce_spec arc.data.handles h (by
    intro r hr
    obtain ⟨rd, hrd, _⟩ := (hhandles.mem_iff r).mp hr
    exact ⟨rd, hrd⟩)
  refine ⟨_, ?_, href, rfl, rfl, rfl, rfl, rfl, rfl, hnext, ?_, ?_⟩
  · simpa [World.cacheEntryWake, World.entry, ha] using hrun
  · intro b
    split
    · rename_i heq
      simp [World.entry, heq, ha]
    · rfl
  · intro r
    rw [hrds]
    cases hr : w.rds.get r with
    | none => rfl
    | some rd =>
        have hmem : r ∈ arc.data.handles ↔ rd.entry = a ∧ rd.registered = true := by
          simp [hhandles.mem_iff, hr]
        simp [CacheRd.woken, hmem]

theorem Changed.wake {w₁ w' : World} {e' : CacheEntry} (h : Changed a e' w w₁)
    (h' : Rewritten a e' w₁ w') : Rewritten a e' w w' := by
  refine ⟨h'.self_eq.trans h.self_eq, h'.nodes_eq.trans h.nodes_eq, h'.wrs_eq.trans h.wrs_eq,
    h'.arcs_next.trans h.arcs_next, h'.rds_next.trans (by rw [h.rds_eq]), fun b => ?_, fun r => ?_⟩
  · rw [h'.entry, h.entry]
    split <;> rfl
  · rw [h'.reader, h.rds_eq]

/-- Assignments to an entry, whatever happens to the cache and the allocator. -/
theorem Changed.setArc (w : World) (a : ℕ) {arc : ArcEntry} (e' : CacheEntry) (cache : Cache)
    (allocs : ℕ) (ha : w.arcs.get a = some arc) :
    Changed a e' w { w with
      arcs := w.arcs.set a { arc with data := e' }, cache := cache, allocs := allocs } :=
  ⟨rfl, rfl, rfl, rfl, by simp, World.entry_set ha⟩

theorem cacheEntryPutState_spec {arc : ArcEntry} (h : RefInv w listed held)
    (ha : w.arcs.get a = some arc) (state : CacheEntryState) :
    ∃ changed w', w.cacheEntryPutState a state = some (changed, w') ∧ RefInv w' listed held ∧
      w'.cache = w.cache ∧
      ((changed = false ∧ w' = w ∧ (arc.data.state = state ∨ arc.data.state = .entryInvalid)) ∨
        (changed = true ∧ arc.data.state ≠ state ∧ arc.data.state ≠ .entryInvalid ∧
          Changed a { arc.data with state := state } w w')) := by
  have hentry : w.entry a = some arc.data := by simp [World.entry, ha]
  by_cases hstate : arc.data.state = state
  · exact ⟨false, w, by simp [World.cacheEntryPutState, hentry, hstate], h, rfl,
      .inl ⟨rfl, rfl, .inl hstate⟩⟩
  · by_cases hinv : arc.data.state = .entryInvalid
    · refine ⟨false, w, ?_, h, rfl, .inl ⟨rfl, rfl, .inr hinv⟩⟩
      rw [hinv] at hstate
      simp [World.cacheEntryPutState, hentry, hinv, hstate]
    · have href := h.setArc { arc with data := { arc.data with state := state } } ha rfl
        (h.refs ha).1 rfl fun _ _ => rfl
      refine ⟨true, _, ?_, href, rfl, .inr ⟨rfl, hstate, hinv,
        .setArc w a { arc.data with state := state } w.cache w.allocs ha⟩⟩
      simp [World.cacheEntryPutState, World.setEntry, hentry, hstate, hinv, ha]

theorem Changed.get_eq {w' : World} {e' : CacheEntry} (h : Changed a e' w w') :
    ∃ arc', w'.arcs.get a = some arc' ∧ arc'.data = e' := by
  have hentry := h.entry a
  rw [if_pos rfl] at hentry
  simpa [World.entry] using hentry

end Refs

end PosixThreads
