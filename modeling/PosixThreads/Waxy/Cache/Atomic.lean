import PosixThreads.Waxy.Cache.Commit

/-!
# Commits that fail

A commit needs memory for a node of the list and, now and then, for a larger table. If there
is none, the entry is not committed and what has been done for it is undone. This does not
bring back an entry that was stored under the same URL: it has been removed before.
-/

namespace PosixThreads

section Atomic

variable {alloc : Alloc} {w w' : World} {seq : List (ℕ × ℕ)} {hist : List CacheStep} {a wr : ℕ}
  {e : CacheEntry} {err : Error}

/-- The map, the list, the size and the entry are as they were before the commit. -/
structure CommitAtomic (w : World) (a : ℕ) (e : CacheEntry) (w' : World) : Prop where
  map : ∀ url node, (url, node) ∈ w'.cache.map.bindings ↔ (url, node) ∈ w.cache.map.bindings
  list : ∀ seq, Dlist.Represents w.nodes w.cache.entries seq →
    Dlist.Represents w'.nodes w'.cache.entries seq
  size : w'.cache.currentSize = w.cache.currentSize
  committed : (w'.entry a).map CacheEntry.committed = some e.committed
  stored : ∀ s, w.boundEntry e.url = some s → w'.boundEntry e.url = some s

theorem IndexInv.mem_bindings_iff (h : IndexInv w seq) {url : Url} {node : ℕ} :
    (url, node) ∈ w.cache.map.bindings ↔
      ∃ b, (node, b) ∈ seq ∧ (w.entry b).map CacheEntry.url = some url := by
  constructor
  · intro hbound
    obtain ⟨b, e, hmem, he, rfl⟩ := h.bound hbound
    exact ⟨b, hmem, by rw [he, Option.map_some]⟩
  · rintro ⟨b, hmem, hurl⟩
    obtain ⟨e, he, hbound, _⟩ := h.stored hmem
    rw [he, Option.map_some, Option.some.injEq] at hurl
    rwa [hurl] at hbound

/-- An entry that is alive before and after has kept what `f` sees of it. -/
theorem EntriesKept.entry_map {β γ : Type} {f : CacheEntry → β} {b : ℕ} {e₁ e₂ : CacheEntry}
    (h : EntriesKept f w w') (he₁ : w.entry b = some e₁) (he₂ : w'.entry b = some e₂)
    (g : CacheEntry → γ) (hg : ∀ e e', f e = f e' → g e = g e') :
    (w'.entry b).map g = (w.entry b).map g := by
  obtain ⟨e, he, heq⟩ := h.entry_of_lt (World.entry_lt_next he₁) he₂
  rw [he₂, he, Option.map_some, Option.map_some, hg _ _ heq]

theorem CommitAtomic.of_kept (h : IndexInv w seq) (h' : IndexInv w' seq)
    (hkept : EntriesKept CacheEntry.body w w') (he : w.entry a = some e)
    (halive : ∃ e', w'.entry a = some e') : CommitAtomic w a e w' := by
  have hlisted : ∀ {γ : Type} (g : CacheEntry → γ) {n b : ℕ},
      (∀ e e', e.body = e'.body → g e = g e') → (n, b) ∈ seq →
        (w'.entry b).map g = (w.entry b).map g := by
    intro γ g n b hg hmem
    obtain ⟨e₁, he₁, _⟩ := h.stored hmem
    obtain ⟨e₂, he₂, _⟩ := h'.stored hmem
    exact hkept.entry_map he₁ he₂ g hg
  have hmap : ∀ url node, (url, node) ∈ w'.cache.map.bindings ↔
      (url, node) ∈ w.cache.map.bindings := by
    intro url node
    rw [h.mem_bindings_iff, h'.mem_bindings_iff]
    refine exists_congr fun b => and_congr_right fun hmem => ?_
    rw [hlisted CacheEntry.url (fun e e' heq => congrArg (·.url) heq) hmem]
  refine ⟨hmap, fun seq₁ hrepr => ?_, ?_, ?_, fun s hbound => ?_⟩
  · rw [hrepr.unique h.repr]
    exact h'.repr
  · rw [h.size_eq, h'.size_eq]
    refine World.listedSize_congr fun x hmem => ?_
    rw [World.bufLen, World.bufLen,
      hlisted (·.buf.length) (fun e e' heq => congrArg (·.buf.length) heq) hmem]
  · obtain ⟨e', he'⟩ := halive
    rw [hkept.entry_map he he' CacheEntry.committed fun e e' heq => congrArg (·.committed) heq, he,
      Option.map_some]
  · obtain ⟨n, e₁, hmem, he₁, hurl⟩ := h.boundEntry_eq_some_iff.mp hbound
    obtain ⟨e₂, he₂, _⟩ := h'.stored hmem
    have hsame := hlisted CacheEntry.url (fun e e' heq => congrArg (·.url) heq) hmem
    rw [he₁, he₂, Option.map_some, Option.map_some, Option.some.injEq] at hsame
    exact h'.boundEntry_eq_some_iff.mpr ⟨n, e₂, hmem, he₂, hsame ▸ hurl⟩

/-- A commit that fails has lost the entry that was stored, if there was one. -/
theorem commitAtomic_iff (hrun : Run alloc hist w) (hwr : w.wrEntry wr = some a)
    (he : w.entry a = some e) (hfresh : e.committed = false)
    (hcommit : w.cacheWrCommit alloc wr = some (some err, w')) :
    CommitAtomic w a e w' ↔ w.boundEntry e.url = none := by
  obtain ⟨seq, hinv⟩ := hrun.inv
  obtain ⟨arc, ha, rfl⟩ := World.get_of_entry he
  obtain ⟨err', w₁, seq', hcommit', hinv', _, hwrs, _, hkept, hout⟩ :=
    cacheWrCommit_spec alloc hinv.toCacheInv hwr ha
  rw [hcommit, Option.some.injEq, Prod.mk.injEq] at hcommit'
  obtain ⟨rfl, rfl⟩ := hcommit'
  constructor
  · intro hatomic
    cases hout with
    | refused _ hfree => exact hfree
    | @dropped xs ys p s stored _ _ _ hbound hstored hle hseq =>
        -- one node is missing
        have hsame := (hatomic.list seq hinv.repr).unique hinv'.repr
        rw [hseq] at hsame
        have hlength := congrArg List.length hsame
        simp at hlength
  · intro hfree
    cases hout with
    | refused =>
        obtain ⟨arc', ha'⟩ := hinv'.wr_alive
          (by rw [hwrs]; exact World.wrEntry_eq_some_iff.mp hwr) rfl
        exact .of_kept hinv.toIndexInv hinv'.toIndexInv (hkept (by simp)) he
          ⟨arc'.data, World.entry_of_get ha'⟩
    | dropped _ hbound => simp [hfree] at hbound

/-- A commit of an entry that is not committed yet, if it returns an error. -/
def World.failedCommit (alloc : Alloc) (w : World) (wr : ℕ) :
    Option (ℕ × CacheEntry × Error × World) := do
  let a ← w.wrEntry wr
  let e ← w.entry a
  match ← w.cacheWrCommit alloc wr with
  | (none, _) => none
  | (some err, w') => if e.committed then none else return (a, e, err, w')

theorem failedCommit_eq_some (h : w.failedCommit alloc wr = some (a, e, err, w')) :
    w.wrEntry wr = some a ∧ w.entry a = some e ∧ e.committed = false ∧
      w.cacheWrCommit alloc wr = some (some err, w') := by
  simp only [World.failedCommit, Option.bind_eq_bind, Option.bind_eq_some_iff] at h
  obtain ⟨b, hwr, e', he, ⟨err', w₁⟩, hcommit, h⟩ := h
  cases err' with
  | none => simp at h
  | some err' =>
      cases hcommitted : e'.committed with
      | true => simp [hcommitted] at h
      | false =>
          simp only [hcommitted, Bool.false_eq_true, if_false, Option.pure_def, Option.some.injEq,
            Prod.mk.injEq] at h
          obtain ⟨rfl, rfl, rfl, rfl⟩ := h
          exact ⟨hwr, he, hcommitted, hcommit⟩

/-- There is no memory for the node of the first entry. -/
theorem commitAtomic_first_entry : ∃ hist w a e err w', Run (· < 14) hist w ∧
    w.wrEntry 0 = some a ∧ w.entry a = some e ∧ e.committed = false ∧
    w.cacheWrCommit (· < 14) 0 = some (some err, w') ∧ CommitAtomic w a e w' := by
  obtain ⟨hist, w, hrun, htest⟩ := exists_run (· < 14) 10 [.fetch ⟨.initial, []⟩, .write 0 [97]]
    (fun _ w => (w.failedCommit (· < 14) 0).any fun y => w.boundEntry y.2.1.url = none)
    (by decide +kernel)
  obtain ⟨⟨a, e, err, w'⟩, hfailed, htest⟩ := (Option.any_eq_true _ _).mp htest
  obtain ⟨hwr, he, hfresh, hcommit⟩ := failedCommit_eq_some hfailed
  exact ⟨hist, w, a, e, err, w', hrun, hwr, he, hfresh, hcommit,
    (commitAtomic_iff hrun hwr he hfresh hcommit).mpr (by simpa using htest)⟩

/-- Two fetches miss. The first entry is committed, and there is no memory for the node of the
second one, which has as many bytes. -/
theorem not_commitAtomic_stored_entry : ∃ hist w a e err w' s, Run (· < 26) hist w ∧
    w.wrEntry 1 = some a ∧ w.entry a = some e ∧ e.committed = false ∧
    w.cacheWrCommit (· < 26) 1 = some (some err, w') ∧ w.boundEntry e.url = some s ∧
    w'.boundEntry e.url = none ∧ ¬CommitAtomic w a e w' := by
  obtain ⟨hist, w, hrun, htest⟩ := exists_run (· < 26) 10
    [.fetch ⟨.initial, []⟩, .fetch ⟨.initial, []⟩, .write 0 [97], .commit 0, .write 1 [97]]
    (fun _ w => (w.failedCommit (· < 26) 1).any fun y =>
      (w.boundEntry y.2.1.url).isSome && (y.2.2.2.boundEntry y.2.1.url).isNone)
    (by decide +kernel)
  obtain ⟨⟨a, e, err, w'⟩, hfailed, htest⟩ := (Option.any_eq_true _ _).mp htest
  obtain ⟨hwr, he, hfresh, hcommit⟩ := failedCommit_eq_some hfailed
  rw [Bool.and_eq_true, Option.isSome_iff_exists, Option.isNone_iff_eq_none] at htest
  obtain ⟨⟨s, hbound⟩, hlost⟩ := htest
  refine ⟨hist, w, a, e, err, w', s, hrun, hwr, he, hfresh, hcommit, hbound, hlost, ?_⟩
  intro hatomic
  have hstored := hatomic.stored s hbound
  simp only at hlost
  simp [hlost] at hstored

end Atomic

end PosixThreads
