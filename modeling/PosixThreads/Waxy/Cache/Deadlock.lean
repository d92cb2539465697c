import PosixThreads.Library.Locks
import PosixThreads.Library.Lts
import PosixThreads.Waxy.Cache.Locks

/-!
# The locks of the cache cannot deadlock

Threads rely on what they know of entries. One that is about to insert an entry relies on it not
being committed, one that has found an entry in the cache relies on it being committed, and one
that makes an entry relies on it having no write handle. The locks keep this: an entry is
committed only by a thread that has its lock, and write handles are made only with the lock of
the cache. `LockInv` says so for every state of every run.

It follows that an entry that a thread waits for while it has the lock of the cache does not
belong to one that waits. Therefore the threads can be ranked such that everyone waits for a lower
one only: at the bottom are those that do not wait, then those with the lock of the cache, those
that wait for it, and those that wait for an entry without having anything.
-/

namespace PosixThreads

def LockState.committed (s : LockState) (a : ℕ) : Bool := (s.arcs.get a).any (·.committed)

namespace RemoveSite

def holds : RemoveSite → List CacheLock
  | .evict _ => [.cache]
  | .commit own => [.cache, .entry own]

def own : RemoveSite → Option ℕ
  | .evict _ => none
  | .commit own => some own

end RemoveSite

namespace LockPc

def holds : LockPc → List CacheLock
  | .idle | .entryLock _ _ | .fetchLock _ | .commitLock _ => []
  | .entryHeld _ a | .entryUnlock a => [.entry a]
  | .fetchLookup _ | .handleLock _ _ | .evict _ | .create _ | .newRdLock _ | .fetchUnlock =>
      [.cache]
  | .handleHeld _ a | .handleInvalid _ a | .newRdHeld _ a | .newRdUnlock _ a _ =>
      [.entry a, .cache]
  | .newRdFree _ rd => [.entry rd.entry, .cache]
  | .removeLock site _ | .removeEnd site _ _ => site.holds
  | .removeHeld site a | .removeUnlock site a _ => .entry a :: site.holds
  | .commitHeld own | .commitCacheLock own | .commitUnlock own => [.entry own]
  | .commitLookup own | .storedLock own _ | .storedCompare own _ _ | .commitInsert own
  | .commitCacheUnlock own => [.cache, .entry own]
  | .storedHeld own a | .storedUnlock own a _ => [.entry a, .cache, .entry own]

def commits : LockPc → Option ℕ
  | .commitLock own | .commitHeld own | .commitCacheLock own | .commitLookup own
  | .storedLock own _ | .storedHeld own _ | .storedUnlock own _ _ | .storedCompare own _ _
  | .commitInsert own => some own
  | .removeLock site _ | .removeHeld site _ | .removeUnlock site _ _ | .removeEnd site _ _ =>
      site.own
  | _ => none

/-- The entry of a commit that has found it not to be committed and has not inserted it. -/
def inserts : LockPc → Option ℕ
  | .commitLock _ | .commitHeld _ => none
  | pc => pc.commits

def found : LockPc → Option ℕ
  | .handleLock _ a | .handleHeld _ a | .newRdHeld .hit a | .newRdUnlock .hit a _
  | .removeLock _ a | .storedLock _ a | .storedHeld _ a | .storedUnlock _ a _
  | .storedCompare _ a _ => some a
  | .newRdFree .hit rd => some rd.entry
  | _ => none

def makes : LockPc → Option ℕ
  | .newRdLock a | .newRdHeld .fresh a | .newRdUnlock .fresh a _ => some a
  | .newRdFree .fresh rd => some rd.entry
  | _ => none

structure Sound (s : LockState) (pc : LockPc) : Prop where
  commits : ∀ a ∈ pc.commits, a ∈ s.wrs
  inserts : ∀ a ∈ pc.inserts, s.committed a = false
  found : ∀ a ∈ pc.found, s.committed a = true
  makes : ∀ a ∈ pc.makes, a ∉ s.wrs ∧ a < s.arcs.next
  freed : ∀ site rd, pc = .newRdFree site rd → rd.registered = false

section Places

variable {pc : LockPc} {a : ℕ}

theorem mem_holds_of_inserts (h : a ∈ pc.inserts) : .entry a ∈ pc.holds := by
  cases pc with
  | removeLock site b | removeHeld site b | removeUnlock site b size | removeEnd site b size =>
      cases site <;> simp_all [inserts, LockPc.commits, RemoveSite.own, holds, RemoveSite.holds]
  | _ => simp_all [inserts, LockPc.commits, holds]

theorem cache_mem_holds_of_makes (h : a ∈ pc.makes) : .cache ∈ pc.holds := by
  cases pc with
  | newRdHeld site b | newRdUnlock site b ok | newRdFree site rd => simp [holds]
  | newRdLock b => simp [holds]
  | _ => simp [makes] at h

/-- Who waits for the cache does not have it, and has no entries but one to insert. -/
theorem waits_cache (h : pc.waits = some .cache) :
    .cache ∉ pc.holds ∧ ∀ x, .entry x ∈ pc.holds → x ∈ pc.inserts := by
  cases pc with
  | fetchLock url => simp [holds]
  | commitCacheLock own => simp [holds, inserts, LockPc.commits]
  | newRdFree site rd =>
      simp only [waits] at h
      split at h <;> simp at h
  | _ => simp [waits] at h

/-- Who waits for an entry has no locks or has the cache. It then waits for an entry that it has
found there or has made. -/
theorem waits_entry (h : pc.waits = some (.entry a))
    (hfreed : ∀ site rd, pc = .newRdFree site rd → rd.registered = false) :
    pc.holds = [] ∨ .cache ∈ pc.holds ∧ (∀ x, .entry x ∈ pc.holds → x ∈ pc.inserts) ∧
      (a ∈ pc.found ∨ a ∈ pc.makes) := by
  cases pc with
  | entryLock op b | commitLock b => exact Or.inl rfl
  | handleLock url b => simp_all [waits, holds, LockPc.found]
  | newRdLock b => simp_all [waits, holds, LockPc.makes]
  | storedLock own b => simp_all [waits, holds, LockPc.found, inserts, LockPc.commits]
  | removeLock site b =>
      cases site <;> simp_all [waits, holds, RemoveSite.holds, LockPc.found, inserts,
        LockPc.commits, RemoveSite.own]
  | newRdFree site rd => simp [waits, hfreed site rd rfl] at h
  | _ => simp [waits] at h

end Places

end LockPc

/-! ## The invariant -/

def LockState.Listed (s : LockState) (a : ℕ) : Prop := a ∈ s.entries ∨ a ∈ s.map

structure LockInv (s : LockState) : Prop where
  guarded : Locks.Guarded s.owner fun t => (s.pc t).holds
  listed : ∀ a, s.Listed a → s.committed a = true
  wrs : ∀ a ∈ s.wrs, a < s.arcs.next
  sound : ∀ t, (s.pc t).Sound s

/-- What the thread `t` can change of the cache. It commits only an entry whose lock it has, and
makes a write handle only with the lock of the cache. -/
structure Changes (s : LockState) (t : ℕ) (s' : LockState) : Prop where
  owner : s'.owner = s.owner
  pc : s'.pc = s.pc
  committed : ∀ a, s.committed a = true → s'.committed a = true
  uncommitted : ∀ a, .entry a ∉ (s.pc t).holds → s.committed a = false → s'.committed a = false
  wrs : ∀ a ∈ s.wrs, a ∈ s'.wrs
  wrs_new : ∀ a ∈ s'.wrs, a ∈ s.wrs ∨ .cache ∈ (s.pc t).holds ∧ a < s'.arcs.next
  next_le : s.arcs.next ≤ s'.arcs.next
  listed : ∀ a, s'.Listed a → s.Listed a ∨ s'.committed a = true

/-- Nothing is committed or made, and nothing comes into the cache. -/
structure KeepsMarks (s s' : LockState) : Prop where
  owner : s'.owner = s.owner
  pc : s'.pc = s.pc
  committed : ∀ a, s'.committed a = s.committed a
  wrs : s'.wrs = s.wrs
  next : s'.arcs.next = s.arcs.next
  listed : ∀ a, s'.Listed a → s.Listed a

section Invariant

variable {s s' : LockState} {t u : ℕ} {pc pc' : LockPc} {l : CacheLock}

theorem KeepsMarks.refl (s : LockState) : KeepsMarks s s :=
  ⟨rfl, rfl, fun _ => rfl, rfl, rfl, fun _ => id⟩

theorem KeepsMarks.changes (h : KeepsMarks s s') (t : ℕ) : Changes s t s' where
  owner := h.owner
  pc := h.pc
  committed := fun a ha => by rw [h.committed, ha]
  uncommitted := fun a _ ha => by rw [h.committed, ha]
  wrs := fun a ha => by rwa [h.wrs]
  wrs_new := fun a ha => Or.inl (by rwa [h.wrs] at ha)
  next_le := h.next.ge
  listed := fun a ha => Or.inl (h.listed a ha)

theorem KeepsMarks.resize {size : ℕ} (h : KeepsMarks s s') :
    KeepsMarks s { s' with currentSize := size } :=
  ⟨h.owner, h.pc, h.committed, h.wrs, h.next, h.listed⟩

theorem keepsMarks_shrink {entries map : List ℕ} {size : ℕ} (hentries : entries ⊆ s.entries)
    (hmap : map ⊆ s.map) :
    KeepsMarks s { s with entries := entries, map := map, currentSize := size } :=
  ⟨rfl, rfl, fun _ => rfl, rfl, rfl, fun _ => Or.imp (fun ha => hentries ha) fun ha => hmap ha⟩

theorem LockPc.Sound.keepsMarks (h : pc.Sound s) (hmarks : KeepsMarks s s') : pc.Sound s' where
  commits := by rw [hmarks.wrs]; exact h.commits
  inserts := fun a ha => by rw [hmarks.committed]; exact h.inserts a ha
  found := fun a ha => by rw [hmarks.committed]; exact h.found a ha
  makes := by rw [hmarks.wrs, hmarks.next]; exact h.makes
  freed := h.freed

/-- What a thread relies on is not changed by another one, because of the locks it has. -/
theorem LockPc.Sound.changes (h : LockInv s) (hu : u ≠ t) (hch : Changes s t s') :
    (s.pc u).Sound s' where
  commits := fun a ha => hch.wrs a ((h.sound u).commits a ha)
  inserts := fun a ha => hch.uncommitted a
    (fun ht => hu (h.guarded.unique (LockPc.mem_holds_of_inserts ha) ht))
    ((h.sound u).inserts a ha)
  found := fun a ha => hch.committed a ((h.sound u).found a ha)
  makes := fun a ha => by
    obtain ⟨hnot, hlt⟩ := (h.sound u).makes a ha
    refine ⟨fun hwrs => ?_, hlt.trans_le hch.next_le⟩
    rcases hch.wrs_new a hwrs with hold | ⟨ht, _⟩
    · exact hnot hold
    · exact hu (h.guarded.unique (LockPc.cache_mem_holds_of_makes ha) ht)
  freed := (h.sound u).freed

theorem holds_update (pcs : ℕ → LockPc) (t : ℕ) (pc : LockPc) :
    (fun u => (Function.update pcs t pc u).holds) =
      Function.update (fun u => (pcs u).holds) t pc.holds := by
  funext u
  by_cases hu : u = t
  · simp [hu]
  · simp [Function.update_of_ne hu]

theorem LockInv.moved {owner : CacheLock → Option ℕ} (h : LockInv s) (hch : Changes s t s')
    (hguarded : Locks.Guarded owner
      (Function.update (fun u => (s.pc u).holds) t pc.holds))
    (hsound : pc.Sound s') : LockInv { s'.goto t pc with owner := owner } where
  guarded := by
    have hpc : (LockState.goto s' t pc).pc = Function.update s.pc t pc := by
      rw [LockState.goto, hch.pc]
    simp only [hpc, holds_update]
    exact hguarded
  listed := fun a ha => (hch.listed a ha).elim (fun hold => hch.committed a (h.listed a hold)) id
  wrs := fun a ha => (hch.wrs_new a ha).elim
    (fun hold => (h.wrs a hold).trans_le hch.next_le) (fun hnew => hnew.2)
  sound := fun u => by
    have hsound' : (Function.update s.pc t pc u).Sound s' := by
      by_cases hu : u = t
      · rwa [hu, Function.update_self]
      · rw [Function.update_of_ne hu]
        exact LockPc.Sound.changes h hu hch
    simp only [LockState.goto, hch.pc]
    exact ⟨hsound'.commits, hsound'.inserts, hsound'.found, hsound'.makes, hsound'.freed⟩

theorem LockInv.goto (h : LockInv s) (hpc : s.pc t = pc) (hch : Changes s t s')
    (hholds : pc'.holds = pc.holds) (hsound : pc'.Sound s') : LockInv (s'.goto t pc') := by
  have hguarded : Locks.Guarded s'.owner
      (Function.update (fun u => (s.pc u).holds) t pc'.holds) := by
    rw [hch.owner, hholds, ← hpc, Function.update_eq_self]
    exact h.guarded
  exact h.moved hch hguarded hsound

theorem LockInv.acquire (h : LockInv s) (hpc : s.pc t = pc)
    (hstep : s.acquire t l pc' = some s') (hholds : pc'.holds = l :: pc.holds)
    (hsound : pc'.Sound s) : LockInv s' := by
  unfold LockState.acquire at hstep
  split at hstep
  · rename_i hfree
    rw [← Option.some.inj hstep]
    refine h.moved ((KeepsMarks.refl s).changes t) ?_ hsound
    rw [hholds, ← hpc]
    exact h.guarded.acquire hfree
  · simp at hstep

theorem LockInv.release (h : LockInv s) (hpc : s.pc t = pc) (hch : Changes s t s')
    (hholds : pc.holds = l :: pc'.holds) (hsound : pc'.Sound s') :
    LockInv (s'.release t l pc') := by
  refine h.moved hch ?_ hsound
  rw [hch.owner]
  exact h.guarded.release (by rw [hpc, hholds])

end Invariant

/-! ## The steps -/

section Steps

variable {s s' : LockState} {t : ℕ} {pc pc' : LockPc} {a : ℕ} {e e' : CacheEntry}

theorem LockPc.mem_commits_of_inserts (h : a ∈ pc.inserts) : a ∈ pc.commits := by
  cases pc with
  | commitLock own | commitHeld own => simp [inserts] at h
  | _ => exact h

theorem LockPc.sound_of_none (hcommits : pc.commits = none) (hfound : pc.found = none)
    (hmakes : pc.makes = none) (hfreed : ∀ site rd, pc ≠ .newRdFree site rd) : pc.Sound s where
  commits := by simp [hcommits]
  inserts := fun a ha => by
    have := LockPc.mem_commits_of_inserts ha
    simp [hcommits] at this
  found := by simp [hfound]
  makes := by simp [hmakes]
  freed := fun site rd hpc => absurd hpc (hfreed site rd)

theorem forall_mem_of_none_or_eq {o o' : Option ℕ} {P : ℕ → Prop} (h : o' = none ∨ o' = o)
    (hP : ∀ a ∈ o, P a) : ∀ a ∈ o', P a := by
  rcases h with rfl | rfl
  · simp
  · exact hP

theorem LockPc.Sound.weaken (h : pc.Sound s)
    (hcommits : pc'.commits = none ∨ pc'.commits = pc.commits)
    (hinserts : pc'.inserts = none ∨ pc'.inserts = pc.inserts)
    (hfound : pc'.found = none ∨ pc'.found = pc.found)
    (hmakes : pc'.makes = none ∨ pc'.makes = pc.makes)
    (hfreed : ∀ site rd, pc' ≠ .newRdFree site rd) : pc'.Sound s where
  commits := forall_mem_of_none_or_eq hcommits h.commits
  inserts := forall_mem_of_none_or_eq hinserts h.inserts
  found := forall_mem_of_none_or_eq hfound h.found
  makes := forall_mem_of_none_or_eq hmakes h.makes
  freed := fun site rd hpc => absurd hpc (hfreed site rd)

theorem LockPc.Sound.find (h : pc.Sound s) (ha : s.committed a = true)
    (hfound : pc'.found = some a) (hcommits : pc'.commits = pc.commits)
    (hinserts : pc'.inserts = pc.inserts) (hmakes : pc'.makes = none)
    (hfreed : ∀ site rd, pc' ≠ .newRdFree site rd) : pc'.Sound s where
  commits := hcommits ▸ h.commits
  inserts := hinserts ▸ h.inserts
  found := by
    intro b hb
    rw [hfound, Option.mem_some_iff] at hb
    rwa [← hb]
  makes := by simp [hmakes]
  freed := fun site rd hpc => absurd hpc (hfreed site rd)

theorem keepsMarks_setEntry (e' : CacheEntry) (hget : s.arcs.get a = some e)
    (he : e'.committed = e.committed) : KeepsMarks s (s.setEntry a e') where
  owner := rfl
  pc := rfl
  committed := fun b => by
    by_cases hb : b = a
    · simp [LockState.committed, LockState.setEntry, hb, hget, Heap.get_set_self hget, he]
    · simp [LockState.committed, LockState.setEntry, Heap.get_set_of_ne _ hb]
  wrs := rfl
  next := by simp [LockState.setEntry]
  listed := fun _ => id

theorem CacheEntry.committed_putState (e : CacheEntry) (state : CacheEntryState) :
    (e.putState state).committed = e.committed := by
  unfold CacheEntry.putState
  split
  · rfl
  · split <;> rfl

theorem EntryOp.committed_run (alloc : Alloc) (e : CacheEntry) (op : EntryOp) :
    (op.run alloc e).1.committed = e.committed := by
  cases op with
  | write slice =>
      simp only [EntryOp.run]
      split
      · rfl
      · split <;> rfl
  | complete => exact e.committed_putState _
  | wrFree =>
      simp only [EntryOp.run]
      split
      · exact e.committed_putState _
      · rfl
  | read | process | rdFree rd => rfl

theorem changes_alloc (t : ℕ) (url : Url) :
    Changes s t { s with arcs := s.arcs.alloc (.new s.self url) } where
  owner := rfl
  pc := rfl
  committed := fun b hb => by
    obtain ⟨e, he, hcommitted⟩ := (Option.any_eq_true _ _).mp hb
    simp [LockState.committed, Heap.get_alloc_of_get he, hcommitted]
  uncommitted := fun b _ hb => by
    by_cases hnext : b = s.arcs.next
    · simp [LockState.committed, hnext, CacheEntry.new]
    · simpa [LockState.committed, Heap.get_alloc, hnext] using hb
  wrs := fun _ => id
  wrs_new := fun _ => Or.inl
  next_le := by simp
  listed := fun _ => Or.inl

theorem LockInv.finishRd (h : LockInv s) {site : NewRdSite} {ok : Bool}
    (hpc : s.pc t = .newRdUnlock site a ok) : Changes s t (s.finishRd a ok site) := by
  have hsound := h.sound t
  rw [hpc] at hsound
  unfold LockState.finishRd
  cases site with
  | hit =>
      have hcommitted : s.committed a = true := hsound.found a rfl
      cases ok with
      | false => exact (KeepsMarks.refl s).changes t
      | true =>
          refine { (KeepsMarks.refl s).changes t with listed := fun b hb => ?_ }
          rcases hb with hb | hb
          · rcases List.mem_append.mp hb with hb | hb
            · exact Or.inl (Or.inl (List.mem_of_mem_erase hb))
            · rw [List.mem_singleton.mp hb]
              exact Or.inr hcommitted
          · exact Or.inl (Or.inr hb)
  | fresh =>
      have hlt : a < s.arcs.next := (hsound.makes a rfl).2
      cases ok with
      | false => exact (KeepsMarks.refl s).changes t
      | true =>
          refine { (KeepsMarks.refl s).changes t with
            wrs := fun b hb => List.mem_append_left _ hb
            wrs_new := fun b hb => ?_ }
          rcases List.mem_append.mp hb with hb | hb
          · exact Or.inl hb
          · rw [List.mem_singleton.mp hb, hpc]
            exact Or.inr ⟨by simp [LockPc.holds], hlt⟩

/-- The entry of a commit comes into the cache and is marked at once. -/
theorem changes_commitInsert (hpc : s.pc t = .commitInsert a) (hget : s.arcs.get a = some e)
    (size : ℕ) : Changes s t { s.setEntry a { e with committed := true } with
      entries := s.entries ++ [a]
      map := s.map ++ [a]
      currentSize := size } := by
  have hself : (s.setEntry a { e with committed := true }).committed a = true := by
    simp [LockState.committed, LockState.setEntry, Heap.get_set_self hget]
  have hother : ∀ b, b ≠ a →
      (s.setEntry a { e with committed := true }).committed b = s.committed b := fun b hb => by
    simp [LockState.committed, LockState.setEntry, Heap.get_set_of_ne _ hb]
  have hmem : ∀ {b : ℕ} {list : List ℕ}, b ∈ list ++ [a] → b ∈ list ∨ b = a := fun hb => by
    simpa using hb
  exact {
    owner := rfl
    pc := rfl
    committed := fun b hb => by
      by_cases hba : b = a
      · rw [hba]
        exact hself
      · exact (hother b hba).trans hb
    uncommitted := fun b hnot hb => by
      have hba : b ≠ a := fun hba => hnot (by simp [hpc, LockPc.holds, hba])
      exact (hother b hba).trans hb
    wrs := fun _ => id
    wrs_new := fun _ => Or.inl
    next_le := by simp [LockState.setEntry]
    listed := fun b hb => by
      rcases hb with hb | hb
      · exact (hmem hb).imp Or.inl fun (hba : b = a) => hba ▸ hself
      · exact (hmem hb).imp Or.inr fun (hba : b = a) => hba ▸ hself }

theorem LockInv.committed_of_lookup {url : Url} (h : LockInv s) (hget : s.lookup url = some a) :
    s.committed a = true :=
  h.listed a (Or.inr (List.mem_of_find?_eq_some hget))

section Places

variable {alloc : Alloc} {url : Url} {site : NewRdSite} {own size : ℕ} (h : LockInv s)
  (hstep : s.step alloc t = some s')

include h hstep

theorem LockInv.step_entryHeld {op : EntryOp} (hpc : s.pc t = .entryHeld op a) : LockInv s' := by
  simp only [LockState.step, hpc, Option.bind_eq_bind, Option.bind_eq_some_iff] at hstep
  obtain ⟨e, he, hstep⟩ := hstep
  have hmarks := keepsMarks_setEntry _ he (op.committed_run alloc e)
  rw [← Option.some.inj hstep]
  exact h.goto hpc (hmarks.resize.changes t) rfl (LockPc.sound_of_none rfl rfl rfl (by simp))

theorem LockInv.step_fetchLookup (hpc : s.pc t = .fetchLookup url) : LockInv s' := by
  have hsound := hpc ▸ h.sound t
  have hsame := (KeepsMarks.refl s).changes t
  simp only [LockState.step, hpc] at hstep
  split at hstep <;> rename_i hget <;> rw [← Option.some.inj hstep]
  · exact h.goto hpc hsame rfl (LockPc.sound_of_none rfl rfl rfl (by simp))
  · exact h.goto hpc hsame rfl
      (hsound.find (h.committed_of_lookup hget) rfl rfl rfl rfl (by simp))

theorem LockInv.step_handleHeld (hpc : s.pc t = .handleHeld url a) : LockInv s' := by
  have hsound := hpc ▸ h.sound t
  have hsame := (KeepsMarks.refl s).changes t
  simp only [LockState.step, hpc, Option.bind_eq_bind, Option.bind_eq_some_iff] at hstep
  obtain ⟨e, he, hstep⟩ := hstep
  split at hstep <;> rw [← Option.some.inj hstep]
  · exact h.goto hpc hsame rfl (LockPc.sound_of_none rfl rfl rfl (by simp))
  · exact h.goto hpc hsame rfl
      (hsound.weaken (.inl rfl) (.inl rfl) (.inr rfl) (.inl rfl) (by simp))

theorem LockInv.step_evict (hpc : s.pc t = .evict url) : LockInv s' := by
  have hsound := hpc ▸ h.sound t
  have hsame := (KeepsMarks.refl s).changes t
  simp only [LockState.step, hpc] at hstep
  split at hstep
  · split at hstep <;> rename_i hentries <;> rw [← Option.some.inj hstep]
    · exact h.goto hpc hsame rfl (LockPc.sound_of_none rfl rfl rfl (by simp))
    · rename_i a entries
      have hmarks : KeepsMarks s { s with entries := entries } :=
        keepsMarks_shrink (by simp [hentries]) (List.Subset.refl _)
      have hfound := h.listed a (Or.inl (by simp [hentries]))
      exact h.goto hpc (hmarks.changes t) rfl
        ((hsound.keepsMarks hmarks).find hfound rfl rfl rfl rfl (by simp))
  · rw [← Option.some.inj hstep]
    exact h.goto hpc hsame rfl (LockPc.sound_of_none rfl rfl rfl (by simp))

theorem LockInv.step_create (hpc : s.pc t = .create url) : LockInv s' := by
  simp only [LockState.step, hpc] at hstep
  split at hstep <;> rw [← Option.some.inj hstep]
  · have hfresh : s.arcs.next ∉ s.wrs := fun hmem => lt_irrefl _ (h.wrs _ hmem)
    refine h.goto hpc (changes_alloc t url) rfl ?_
    exact {
      commits := by simp [LockPc.commits]
      inserts := by simp [LockPc.inserts, LockPc.commits]
      found := by simp [LockPc.found]
      makes := by simp [LockPc.makes, hfresh]
      freed := by simp }
  · exact h.goto hpc ((KeepsMarks.refl s).changes t) rfl
      (LockPc.sound_of_none rfl rfl rfl (by simp))

theorem LockInv.step_newRdHeld (hpc : s.pc t = .newRdHeld site a) : LockInv s' := by
  have hsound := hpc ▸ h.sound t
  have hsame := (KeepsMarks.refl s).changes t
  have hunlock : ∀ {s₁ : LockState} ok, KeepsMarks s s₁ →
      (LockPc.newRdUnlock site a ok).Sound s₁ := fun ok hmarks => by
    cases site
    · exact (hsound.keepsMarks hmarks).weaken (.inl rfl) (.inl rfl) (.inr rfl) (.inl rfl)
        (by simp)
    · exact (hsound.keepsMarks hmarks).weaken (.inl rfl) (.inl rfl) (.inl rfl) (.inr rfl)
        (by simp)
  simp only [LockState.step, hpc, Option.bind_eq_bind, Option.bind_eq_some_iff] at hstep
  obtain ⟨e, he, hstep⟩ := hstep
  split at hstep
  · split at hstep <;> rw [← Option.some.inj hstep]
    · have hset := keepsMarks_setEntry { e with handles := e.handles ++ [s.rds.length] } he rfl
      have hmarks : KeepsMarks s { s.setEntry a
          { e with handles := e.handles ++ [s.rds.length] } with
          rds := s.rds ++ [LockRd.mk a true] } :=
        ⟨hset.owner, hset.pc, hset.committed, hset.wrs, hset.next, hset.listed⟩
      exact h.goto hpc (hmarks.changes t) rfl (hunlock true hmarks)
    · -- the handle that is freed has not been registered
      refine h.goto hpc hsame rfl ?_
      cases site
      · exact { hsound with freed := by simp +contextual }
      · exact { hsound with freed := by simp +contextual }
  · rw [← Option.some.inj hstep]
    exact h.goto hpc hsame rfl (hunlock false (KeepsMarks.refl s))

theorem LockInv.step_newRdFree {rd : LockRd} (hpc : s.pc t = .newRdFree site rd) :
    LockInv s' := by
  have hsound := hpc ▸ h.sound t
  simp only [LockState.step, hpc] at hstep
  split at hstep
  · simp at hstep
  · rw [← Option.some.inj hstep]
    refine h.goto hpc ((KeepsMarks.refl s).changes t) rfl ?_
    cases site
    · exact hsound.weaken (.inl rfl) (.inl rfl) (.inr rfl) (.inl rfl) (by simp)
    · exact hsound.weaken (.inl rfl) (.inl rfl) (.inl rfl) (.inr rfl) (by simp)

theorem LockInv.step_removeHeld {site : RemoveSite} (hpc : s.pc t = .removeHeld site a) :
    LockInv s' := by
  have hsound := hpc ▸ h.sound t
  simp only [LockState.step, hpc, Option.bind_eq_bind, Option.bind_eq_some_iff] at hstep
  obtain ⟨e, he, hstep⟩ := hstep
  have hmarks := keepsMarks_setEntry { e with cache := none } he rfl
  rw [← Option.some.inj hstep]
  exact h.goto hpc (hmarks.changes t) rfl ((hsound.keepsMarks hmarks).weaken (.inr rfl)
    (.inr rfl) (.inl rfl) (.inl rfl) (by simp))

theorem LockInv.step_removeEnd {site : RemoveSite} (hpc : s.pc t = .removeEnd site a size) :
    LockInv s' := by
  have hsound := hpc ▸ h.sound t
  simp only [LockState.step, hpc, Option.bind_eq_bind, Option.bind_eq_some_iff] at hstep
  obtain ⟨e, he, _, _, _, _, hstep⟩ := hstep
  have hmarks : KeepsMarks s { s with
      map := s.map.erase a, currentSize := s.currentSize - size } :=
    keepsMarks_shrink (List.Subset.refl _) List.erase_subset
  rw [← Option.some.inj hstep]
  cases site with
  | evict url =>
      exact h.goto hpc (hmarks.changes t) rfl
        (LockPc.sound_of_none rfl rfl rfl (by simp [RemoveSite.next]))
  | commit own =>
      exact h.goto hpc (hmarks.changes t) rfl ((hsound.keepsMarks hmarks).weaken (.inr rfl)
        (.inr rfl) (.inl rfl) (.inl rfl) (by simp [RemoveSite.next]))

theorem LockInv.step_commitHeld (hpc : s.pc t = .commitHeld own) : LockInv s' := by
  have hsound := hpc ▸ h.sound t
  have hsame := (KeepsMarks.refl s).changes t
  simp only [LockState.step, hpc, Option.bind_eq_bind, Option.bind_eq_some_iff] at hstep
  obtain ⟨e, he, hstep⟩ := hstep
  split at hstep
  · rw [← Option.some.inj hstep]
    exact h.goto hpc hsame rfl (LockPc.sound_of_none rfl rfl rfl (by simp))
  · rename_i hcommitted
    simp only [Option.bind_eq_some_iff] at hstep
    obtain ⟨_, _, hstep⟩ := hstep
    have hfree : s.committed own = false := by
      simpa [LockState.committed, he] using hcommitted
    rw [← Option.some.inj hstep]
    refine h.goto hpc hsame rfl ?_
    exact {
      commits := hsound.commits
      inserts := by simp [LockPc.inserts, LockPc.commits, hfree]
      found := by simp [LockPc.found]
      makes := by simp [LockPc.makes]
      freed := by simp }

theorem LockInv.step_commitLookup (hpc : s.pc t = .commitLookup own) : LockInv s' := by
  have hsound := hpc ▸ h.sound t
  have hsame := (KeepsMarks.refl s).changes t
  simp only [LockState.step, hpc, Option.bind_eq_bind, Option.bind_eq_some_iff] at hstep
  obtain ⟨e, he, hstep⟩ := hstep
  split at hstep <;> rename_i hget <;> rw [← Option.some.inj hstep]
  · exact h.goto hpc hsame rfl
      (hsound.weaken (.inr rfl) (.inr rfl) (.inl rfl) (.inl rfl) (by simp))
  · exact h.goto hpc hsame rfl
      (hsound.find (h.committed_of_lookup hget) rfl rfl rfl rfl (by simp))

theorem LockInv.step_storedHeld (hpc : s.pc t = .storedHeld own a) : LockInv s' := by
  have hsound := hpc ▸ h.sound t
  simp only [LockState.step, hpc, Option.bind_eq_bind, Option.bind_eq_some_iff] at hstep
  obtain ⟨e, he, hstep⟩ := hstep
  rw [← Option.some.inj hstep]
  exact h.goto hpc ((KeepsMarks.refl s).changes t) rfl
    (hsound.weaken (.inr rfl) (.inr rfl) (.inr rfl) (.inl rfl) (by simp))

theorem LockInv.step_storedCompare (hpc : s.pc t = .storedCompare own a size) : LockInv s' := by
  have hsound := hpc ▸ h.sound t
  simp only [LockState.step, hpc, Option.bind_eq_bind, Option.bind_eq_some_iff] at hstep
  obtain ⟨e, he, hstep⟩ := hstep
  split at hstep <;> rw [← Option.some.inj hstep]
  · exact h.goto hpc ((KeepsMarks.refl s).changes t) rfl
      (LockPc.sound_of_none rfl rfl rfl (by simp))
  · have hmarks : KeepsMarks s { s with entries := s.entries.erase a } :=
      keepsMarks_shrink List.erase_subset (List.Subset.refl _)
    exact h.goto hpc (hmarks.changes t) rfl ((hsound.keepsMarks hmarks).weaken (.inr rfl)
      (.inr rfl) (.inr rfl) (.inl rfl) (by simp))

theorem LockInv.step_commitInsert (hpc : s.pc t = .commitInsert own) : LockInv s' := by
  simp only [LockState.step, hpc, Option.bind_eq_bind, Option.bind_eq_some_iff] at hstep
  obtain ⟨e, he, hstep⟩ := hstep
  split at hstep <;> rw [← Option.some.inj hstep]
  · exact h.goto hpc (changes_commitInsert hpc he _) rfl
      (LockPc.sound_of_none rfl rfl rfl (by simp))
  · exact h.goto hpc ((KeepsMarks.refl s).changes t) rfl
      (LockPc.sound_of_none rfl rfl rfl (by simp))

end Places

theorem lockInv_step {alloc : Alloc} (h : LockInv s) (hstep : s.step alloc t = some s') :
    LockInv s' := by
  have hsame := (KeepsMarks.refl s).changes t
  have hsound := h.sound t
  have hstep' := hstep
  unfold LockState.step at hstep'
  cases hpc : s.pc t <;> simp only [hpc, Option.some.injEq] at hstep' hsound
  case idle => simp at hstep'
  -- the steps in an operation
  case entryHeld op a => exact h.step_entryHeld hstep hpc
  case fetchLookup url => exact h.step_fetchLookup hstep hpc
  case handleHeld url a => exact h.step_handleHeld hstep hpc
  case evict url => exact h.step_evict hstep hpc
  case create url => exact h.step_create hstep hpc
  case newRdHeld site a => exact h.step_newRdHeld hstep hpc
  case newRdFree site rd => exact h.step_newRdFree hstep hpc
  case removeHeld site a => exact h.step_removeHeld hstep hpc
  case removeEnd site a size => exact h.step_removeEnd hstep hpc
  case commitHeld own => exact h.step_commitHeld hstep hpc
  case commitLookup own => exact h.step_commitLookup hstep hpc
  case storedHeld own a => exact h.step_storedHeld hstep hpc
  case storedCompare own a size => exact h.step_storedCompare hstep hpc
  case commitInsert own => exact h.step_commitInsert hstep hpc
  -- the calls of `assert_mutex_lock`
  case entryLock op a =>
    exact h.acquire hpc hstep' rfl (LockPc.sound_of_none rfl rfl rfl (by simp))
  case fetchLock url =>
    exact h.acquire hpc hstep' rfl (LockPc.sound_of_none rfl rfl rfl (by simp))
  case handleLock url a =>
    exact h.acquire hpc hstep' rfl
      (hsound.weaken (.inl rfl) (.inl rfl) (.inr rfl) (.inl rfl) (by simp))
  case newRdLock a =>
    exact h.acquire hpc hstep' rfl
      (hsound.weaken (.inl rfl) (.inl rfl) (.inl rfl) (.inr rfl) (by simp))
  case removeLock site a =>
    exact h.acquire hpc hstep' rfl
      (hsound.weaken (.inr rfl) (.inr rfl) (.inl rfl) (.inl rfl) (by simp))
  case commitLock own =>
    exact h.acquire hpc hstep' rfl
      (hsound.weaken (.inr rfl) (.inr rfl) (.inl rfl) (.inl rfl) (by simp))
  case commitCacheLock own =>
    exact h.acquire hpc hstep' rfl
      (hsound.weaken (.inr rfl) (.inr rfl) (.inl rfl) (.inl rfl) (by simp))
  case storedLock own a =>
    exact h.acquire hpc hstep' rfl
      (hsound.weaken (.inr rfl) (.inr rfl) (.inr rfl) (.inl rfl) (by simp))
  -- the calls of `assert_mutex_unlock`
  case newRdUnlock site a ok =>
    rw [← hstep']
    exact h.release hpc (h.finishRd hpc) rfl (LockPc.sound_of_none rfl rfl rfl (by simp))
  case removeUnlock site a size =>
    rw [← hstep']
    exact h.release hpc hsame rfl
      (hsound.weaken (.inr rfl) (.inr rfl) (.inl rfl) (.inl rfl) (by simp))
  case storedUnlock own a size =>
    rw [← hstep']
    exact h.release hpc hsame rfl
      (hsound.weaken (.inr rfl) (.inr rfl) (.inr rfl) (.inl rfl) (by simp))
  all_goals
    rw [← hstep']
    exact h.release hpc hsame rfl (LockPc.sound_of_none rfl rfl rfl (by simp))

theorem lockInv_begin {op : LockOp} (h : LockInv s) (hpc : s.pc t = .idle)
    (hstep : s.begin t op = some s') : LockInv s' := by
  have hgoto : ∀ {pc : LockPc}, pc.holds = [] → pc.Sound s → LockInv (s.goto t pc) :=
    fun hholds hsound => h.goto hpc ((KeepsMarks.refl s).changes t) hholds hsound
  have hentry : ∀ op a, LockInv (s.goto t (.entryLock op a)) := fun op a =>
    hgoto rfl (LockPc.sound_of_none rfl rfl rfl (by simp))
  cases op with
  | process rd =>
      simp only [LockState.begin, Option.bind_eq_bind, Option.bind_eq_some_iff] at hstep
      obtain ⟨r, hr, hstep⟩ := hstep
      exact Option.some.inj hstep ▸ hentry _ _
  | call op =>
      cases op with
      | fetch url =>
          rw [← Option.some.inj hstep]
          exact hgoto rfl (LockPc.sound_of_none rfl rfl rfl (by simp))
      | commit wr =>
          simp only [LockState.begin, Option.bind_eq_bind, Option.bind_eq_some_iff] at hstep
          obtain ⟨a, ha, hstep⟩ := hstep
          have hmem : a ∈ s.wrs := List.mem_of_getElem? ha
          rw [← Option.some.inj hstep]
          refine hgoto rfl ?_
          exact {
            commits := by simp [LockPc.commits, hmem]
            inserts := by simp [LockPc.inserts]
            found := by simp [LockPc.found]
            makes := by simp [LockPc.makes]
            freed := by simp }
      | write wr slice =>
          simp only [LockState.begin, Option.bind_eq_bind, Option.bind_eq_some_iff] at hstep
          obtain ⟨a, ha, hstep⟩ := hstep
          split at hstep
          · exact Option.some.inj hstep ▸ h
          · exact Option.some.inj hstep ▸ hentry _ _
      | rdFree rd =>
          simp only [LockState.begin, Option.bind_eq_bind, Option.bind_eq_some_iff] at hstep
          obtain ⟨r, hr, hstep⟩ := hstep
          split at hstep
          · exact Option.some.inj hstep ▸ hentry _ _
          · exact Option.some.inj hstep ▸ h
      | complete wr | wrFree wr | read rd size =>
          simp only [LockState.begin, Option.bind_eq_bind, Option.bind_eq_some_iff] at hstep
          obtain ⟨a, ha, hstep⟩ := hstep
          exact Option.some.inj hstep ▸ hentry _ _

theorem lockInv_new (self sizeLimit : ℕ) : LockInv (.new self sizeLimit) where
  guarded := ⟨by simp [LockState.new, LockPc.holds], by simp [LockState.new, LockPc.holds]⟩
  listed := by simp [LockState.new, LockState.Listed]
  wrs := by simp [LockState.new]
  sound := fun t => LockPc.sound_of_none rfl rfl rfl (by simp [LockState.new])

end Steps

/-! ## There is no deadlock -/

/-- Who waits for a lock has a higher rank than the one who has it. -/
def LockPc.rank (pc : LockPc) : ℕ :=
  match pc.waits with
  | none => 0
  | some .cache => 2
  | some (.entry _) => if .cache ∈ pc.holds then 1 else 3

section Deadlock

variable {s s' : LockState} {t u a : ℕ} {l : CacheLock} {hist : List LockAct}

theorem lockInv_of_run (hrun : Lts.Run LockState.Init LockState.Step hist s) : LockInv s := by
  have hinit : ∀ s : LockState, s.Init → LockInv s := fun s hs => by
    obtain ⟨self, sizeLimit, rfl⟩ := hs
    exact lockInv_new self sizeLimit
  refine hrun.invariant (I := fun _ => LockInv) hinit ?_
  intro _ s act s' h hstep
  cases act with
  | start t op =>
      simp only [LockState.Step, LockState.exec] at hstep
      split at hstep
      · exact lockInv_begin h ‹_› hstep
      · simp at hstep
  | go t alloc => exact lockInv_step h hstep

/-- The lock of an entry that a thread with the lock of the cache waits for is not held by one
that waits. -/
theorem LockInv.waits_none (h : LockInv s) (hwait : (s.pc t).waits = some (.entry a))
    (hcache : .cache ∈ (s.pc t).holds) (hhold : .entry a ∈ (s.pc u).holds) :
    (s.pc u).waits = none := by
  have hnot : a ∉ (s.pc u).inserts := by
    intro hins
    rcases LockPc.waits_entry hwait (h.sound t).freed with hnil | ⟨_, _, hfound | hmakes⟩
    · simp [hnil] at hcache
    · have := (h.sound t).found a hfound
      simp [(h.sound u).inserts a hins] at this
    · exact ((h.sound t).makes a hmakes).1
        ((h.sound u).commits a (LockPc.mem_commits_of_inserts hins))
  cases hu : (s.pc u).waits with
  | none => rfl
  | some k =>
      cases k with
      | cache => exact absurd ((LockPc.waits_cache hu).2 a hhold) hnot
      | entry b =>
          rcases LockPc.waits_entry hu (h.sound u).freed with hnil | ⟨_, hins, _⟩
          · simp [hnil] at hhold
          · exact absurd (hins a hhold) hnot

theorem LockInv.rank_lt (h : LockInv s) (hwait : s.Waits t l) (hhold : s.Holds u l) :
    (s.pc u).rank < (s.pc t).rank := by
  have hwait' : (s.pc t).waits = some l := hwait
  have hmem : l ∈ (s.pc u).holds := (h.guarded.owned l u).mp hhold
  cases l with
  | cache =>
      -- who has the cache does not wait for it, and not without it
      have hrank : (s.pc t).rank = 2 := by simp [LockPc.rank, hwait']
      rw [hrank]
      unfold LockPc.rank
      split
      · omega
      · rename_i hu
        exact absurd hmem (LockPc.waits_cache hu).1
      · simp [hmem]
  | entry a =>
      by_cases hcache : .cache ∈ (s.pc t).holds
      · have hrank : (s.pc t).rank = 1 := by simp [LockPc.rank, hwait', hcache]
        have hu : (s.pc u).rank = 0 := by
          rw [LockPc.rank, h.waits_none hwait hcache hmem]
        omega
      · have hrank : (s.pc t).rank = 3 := by simp [LockPc.rank, hwait', hcache]
        rw [hrank]
        unfold LockPc.rank
        split
        · omega
        · omega
        · rename_i hu
          rcases LockPc.waits_entry hu (h.sound u).freed with hnil | ⟨hmem', _⟩
          · simp [hnil] at hmem
          · simp [hmem']

/-- In no run there is a deadlock, and no thread waits for a lock that it has itself. -/
theorem cacheLocks_no_deadlock (hrun : Lts.Run LockState.Init LockState.Step hist s) :
    (∀ threads, ¬Locks.Deadlock s.Holds s.Waits threads) ∧
    ∀ t l, s.Waits t l → ¬s.Holds t l := by
  have h := lockInv_of_run hrun
  refine ⟨Locks.not_deadlock_of_rank (fun t => (s.pc t).rank) fun t u l => h.rank_lt, ?_⟩
  exact fun t l hwait hhold => lt_irrefl _ (h.rank_lt hwait hhold)

end Deadlock

/-- A commit has the lock of its entry and waits for a fetch, which has the lock of the cache. -/
theorem cacheLocks_commit_waits_for_fetch : ∃ hist s,
    Lts.Run LockState.Init LockState.Step hist s ∧
    s.Holds 0 (.entry 0) ∧ s.Waits 0 .cache ∧ s.Holds 1 .cache ∧
    (∀ threads, ¬Locks.Deadlock s.Holds s.Waits threads) ∧
    ∀ t l, s.Waits t l → ¬s.Holds t l := by
  have hinit : LockState.Init (.new 1 10) := ⟨1, 10, rfl⟩
  obtain ⟨s, hrun, hentry, hwait, hcache⟩ := Lts.exists_run LockState.exec
    (.start 0 (.call (.fetch ⟨.initial, []⟩)) :: List.replicate 8 (.go 0 allocAll) ++
      .start 0 (.call (.commit 0)) :: List.replicate 2 (.go 0 allocAll) ++
      [.start 1 (.call (.fetch ⟨.initial, []⟩)), .go 1 allocAll])
    (fun s => s.owner (.entry 0) = some 0 ∧ (s.pc 0).waits = some .cache ∧
      s.owner .cache = some 1) hinit (by decide +kernel)
  obtain ⟨hdead, hself⟩ := cacheLocks_no_deadlock hrun
  exact ⟨_, s, hrun, hentry, hwait, hcache, hdead, hself⟩

end PosixThreads
