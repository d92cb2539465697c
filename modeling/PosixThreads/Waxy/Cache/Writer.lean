import PosixThreads.Waxy.Cache.Index

/-!
# Write handles and the index

What the operations on a write handle do to the invariant of the cache. A commit puts
the entry of the handle into the index, possibly in place of another one. Writing,
completing and giving up only change the entry, where a change to the buffer of an
entry in the list is also a change to `current_size`.
-/

namespace PosixThreads

/-! ## Commit -/

section Commit

variable {w : World} {seq : List (ℕ × ℕ)} {held : List ℕ} {p a : ℕ} {arc : ArcEntry}

/-- An entry that is not committed is not in the list. -/
theorem IndexInv.ne_of_committed (h : IndexInv w seq) (ha : w.arcs.get a = some arc)
    (hcommitted : arc.data.committed = false) {n b : ℕ} (hmem : (n, b) ∈ seq) : b ≠ a := by
  rintro rfl
  obtain ⟨e, he, _, hcommitted', _⟩ := h.stored hmem
  rw [World.entry_of_get ha, Option.some.injEq] at he
  rw [← he, hcommitted] at hcommitted'
  simp at hcommitted'

theorem IndexInv.list {nodes : Heap (DlistNode ℕ)} {entries : Dlist} {map : Hash Url ℕ}
    (h : IndexInv w seq) (ha : w.arcs.get a = some arc) (hcommitted : arc.data.committed = false)
    (hrepr : Dlist.Represents nodes entries (seq ++ [(p, a)])) (hwf : map.WF urlHashFns)
    (hrehashing : map.rehashing = false)
    (hmap : ∀ url n, (url, n) ∈ map.bindings ↔
      (url, n) ∈ w.cache.map.bindings ∨ (url = arc.data.url ∧ n = p)) (allocs : ℕ) :
    IndexInv { w with
      nodes := nodes
      arcs := w.arcs.set a { arc with data := { arc.data with committed := true } }
      cache := { w.cache with
        entries := entries
        map := map
        currentSize := w.cache.currentSize + arc.data.buf.length }
      allocs := allocs } (seq ++ [(p, a)]) := by
  generalize hw' : ({ w with
    nodes := nodes
    arcs := w.arcs.set a { arc with data := { arc.data with committed := true } }
    cache := { w.cache with
      entries := entries
      map := map
      currentSize := w.cache.currentSize + arc.data.buf.length }
    allocs := allocs } : World) = w'
  have hself : w'.self = w.self := by rw [← hw']
  have hbindings : w'.cache.map = map := by rw [← hw']
  have hentry : ∀ b, b ≠ a → w'.entry b = w.entry b := by
    intro b hne
    simp only [← hw', World.entry, Heap.get_set_of_ne _ hne]
  have hentry_a : w'.entry a = some { arc.data with committed := true } := by
    simp only [← hw', World.entry, Heap.get_set_self ha, Option.map_some]
  refine ⟨by rw [← hw']; exact hrepr, by rw [hbindings]; exact hwf, by rw [hbindings, hrehashing],
    ?_, ?_, ?_, ?_, ?_⟩
  · intro url n hmem
    rw [hbindings] at hmem
    rcases (hmap url n).mp hmem with hmem | ⟨rfl, rfl⟩
    · obtain ⟨b, e, hseq, he, hurl⟩ := h.bound hmem
      exact ⟨b, e, List.mem_append_left _ hseq,
        by rw [hentry b (h.ne_of_committed ha hcommitted hseq), he], hurl⟩
    · exact ⟨a, _, by simp, hentry_a, rfl⟩
  · intro n b hmem
    rw [hbindings, hself]
    rcases List.mem_append.mp hmem with hmem | hmem
    · obtain ⟨e, he, hbound, hcommitted', hlink'⟩ := h.stored hmem
      exact ⟨e, by rw [hentry b (h.ne_of_committed ha hcommitted hmem), he],
        (hmap _ _).mpr (.inl hbound), hcommitted', hlink'⟩
    · simp only [List.mem_singleton, Prod.mk.injEq] at hmem
      obtain ⟨rfl, rfl⟩ := hmem
      have hlink := h.fresh (World.entry_of_get ha) hcommitted
      exact ⟨_, hentry_a, (hmap _ _).mpr (.inr ⟨rfl, rfl⟩), rfl, hlink⟩
  · intro b e he hcommitted' hlink'
    by_cases hne : b = a
    · simp [hne]
    · rw [hentry b hne] at he
      have hmem := h.linked he hcommitted' hlink'
      rw [List.map_append]
      exact List.mem_append_left _ hmem
  · intro b e he hcommitted'
    rw [hself]
    by_cases hne : b = a
    · subst hne
      rw [hentry_a, Option.some.injEq] at he
      simp [← he] at hcommitted'
    · rw [hentry b hne] at he
      exact h.fresh he hcommitted'
  · have hsame : w'.listedSize seq = w.listedSize seq :=
      World.listedSize_congr fun x hx => by
        rw [World.bufLen, hentry x.2 (h.ne_of_committed ha hcommitted hx), World.bufLen]
    have hlen : w'.bufLen a = arc.data.buf.length := by simp [World.bufLen, hentry_a]
    have hsize : w'.cache.currentSize = w.cache.currentSize + arc.data.buf.length := by rw [← hw']
    have hnil : w'.listedSize [] = 0 := rfl
    rw [hsize, h.size_eq, World.listedSize_append, World.listedSize_cons, hsame, hlen, hnil]
    omega

theorem CacheEntry.buf_of_content {e e' : CacheEntry} (h : e.content = e'.content) :
    e.buf = e'.buf ∧ e.state = e'.state :=
  ⟨congrArg Prod.fst h, congrArg Prod.snd h⟩

theorem CacheEntry.content_of_core {e e' : CacheEntry} (h : e.core = e'.core) :
    e.content = e'.content :=
  CacheEntry.content_of_body (CacheEntry.body_of_core h)

/-- An entry as a commit leaves it. -/
def CacheEntry.record (e : CacheEntry) : Url × List UInt8 × CacheEntryState :=
  (e.url, e.content)

theorem CacheEntry.record_of_body {e e' : CacheEntry} (h : e.body = e'.body) :
    e.record = e'.record := by
  have hrecord := congrArg CacheEntry.record h
  exact hrecord

theorem CacheEntry.record_of_core {e e' : CacheEntry} (h : e.core = e'.core) :
    e.record = e'.record :=
  CacheEntry.record_of_body (CacheEntry.body_of_core h)

theorem CacheEntry.content_of_record {e e' : CacheEntry} (h : e.record = e'.record) :
    e.content = e'.content :=
  congrArg Prod.snd h

theorem CacheEntry.buf_of_record {e e' : CacheEntry} (h : e.record = e'.record) :
    e.buf = e'.buf ∧ e.state = e'.state :=
  CacheEntry.buf_of_content (CacheEntry.content_of_record h)

structure OthersKept (a : ℕ) (w w' : World) : Prop where
  body_eq : ∀ {b : ℕ} {e e' : CacheEntry}, b ≠ a → w.entry b = some e → w'.entry b = some e' →
    e'.body = e.body

theorem OthersKept.of_entriesKept {w' : World} (h : EntriesKept CacheEntry.body w w') :
    OthersKept a w w' := by
  refine ⟨fun {b e e'} _ he he' => ?_⟩
  rcases h.entry he' with ⟨e₁, he₁, heq⟩ | ⟨hle, _⟩
  · rw [he, Option.some.injEq] at he₁
    rw [heq, he₁]
  · exact absurd (World.entry_lt_next he) (Nat.not_lt.mpr hle)

/-- The entry does not come back in the meantime. -/
theorem OthersKept.trans {β : Type} {f : CacheEntry → β} {w₁ w' : World}
    (h : OthersKept a w w₁) (h' : OthersKept a w₁ w') (hle : w.arcs.next ≤ w₁.arcs.next)
    (hkept : EntriesKept f w₁ w') : OthersKept a w w' := by
  refine ⟨fun {b e e'} hne he he' => ?_⟩
  rcases hkept.entry he' with ⟨e₁, he₁, _⟩ | ⟨hle', _⟩
  · rw [h'.body_eq hne he₁ he', h.body_eq hne he he₁]
  · have := World.entry_lt_next he
    omega

theorem cacheCommitInsert_spec (alloc : Alloc) (h : CacheInv w seq held)
    (ha : w.arcs.get a = some arc) (hcommitted : arc.data.committed = false)
    (habsent : Hash.Absent urlHashFns w.cache.map arc.data.url) :
    ∃ err w' seq', w.cacheCommitInsert alloc a = some (err, w') ∧ CacheInv w' seq' held ∧
      Quiet CacheEntry.record w w' ∧ w'.wrs = w.wrs ∧ OthersKept a w w' ∧
      ((∃ error, err = some error ∧ seq' = seq ∧ EntriesKept CacheEntry.core w w') ∨
        (err = none ∧ ∃ n, seq' = seq ++ [(n, a)])) := by
  obtain ⟨w₁, hshare, href₁, hkept₁, _, hwrs₁, _, hentry₁⟩ := arcShare_spec h.toRefInv ⟨arc, ha⟩
  have hinv₁ := h.of_kept href₁ hkept₁
  have hquiet₁ := hkept₁.toQuiet.mono fun _ _ => CacheEntry.record_of_core
  have he₁ : w₁.entry a = some arc.data := by rw [hentry₁, World.entry_of_get ha]
  obtain ⟨arc₁, ha₁, hdata₁⟩ := World.get_of_entry he₁
  rw [← hdata₁, ← hkept₁.cache_eq] at habsent
  rw [← hdata₁] at hcommitted
  rcases hinv₁.repr.append_spec (alloc w₁.allocs) a with
    ⟨_, happend⟩ | ⟨_, nodes, entries, happend, hrepr, _⟩
  · -- no memory for a node
    obtain ⟨w₂, hfree, href₂, hkept₂, _, hwrs₂, _⟩ := arcFree_spec href₁.asked
    have hkept₂ := (Kept.asked w₁).trans hkept₂
    have hentries := hkept₁.toEntriesKept.trans hkept₂.toEntriesKept
    refine ⟨some (.wrap "Could not register the entry in the cache"
      (.fromCommon .memoryAllocationFailure)), w₂, seq, ?_, hinv₁.of_kept href₂ hkept₂,
      hquiet₁.trans CacheEntry.buf_of_record
        (hkept₂.toQuiet.mono fun _ _ => CacheEntry.record_of_core), hwrs₂.trans hwrs₁,
      .of_entriesKept (hentries.mono fun _ _ => CacheEntry.body_of_core),
      .inl ⟨_, rfl, rfl, hentries⟩⟩
    simp [World.cacheCommitInsert, hshare, happend, hfree]
  · have hpos₁ := (href₁.refs ha₁).1
    rcases Hash.insert_spec urlHashFns_lawful hinv₁.map_wf hinv₁.rehashing_eq habsent
        (alloc (w₁.allocs + 1)) w₁.nodes.next with
      hinsert | ⟨map, hinsert, hwf, hrehashing, hmap⟩
    · -- no memory for the binding, so the node is removed again
      obtain ⟨nodes₃, entries₃, hremove, hrepr₃⟩ := hrepr.remove_spec
      have hinv₃ := hinv₁.reorder hrepr₃ (by simp)
      have hinv₃ := hinv₃.of_kept hinv₃.toRefInv.asked (.asked _)
      have hinv₃ := hinv₃.of_kept hinv₃.toRefInv.asked (.asked _)
      simp only [World.asked, List.append_nil] at hinv₃
      obtain ⟨w₄, hfree, href₄, hkept₄, _, hwrs₄, _⟩ := arcFree_spec hinv₃.toRefInv
      have hentries : EntriesKept CacheEntry.core w w₄ := by
        refine hkept₁.toEntriesKept.trans (.trans ?_ hkept₄.toEntriesKept)
        exact .of_arcs_eq _ rfl rfl
      refine ⟨some (.wrap "Could not bind the URL to the entry"
        (.fromCommon .memoryAllocationFailure)), w₄, seq, ?_, hinv₃.of_kept href₄ hkept₄,
        hquiet₁.trans CacheEntry.buf_of_record (.trans CacheEntry.buf_of_record ?_
          (hkept₄.toQuiet.mono fun _ _ => CacheEntry.record_of_core)), hwrs₄.trans hwrs₁,
        .of_entriesKept (hentries.mono fun _ _ => CacheEntry.body_of_core),
        .inl ⟨_, rfl, rfl, hentries⟩⟩
      · simp [World.cacheCommitInsert, hshare, happend, World.arcGet, World.asked, ha₁, hpos₁,
          hinsert, hremove, hfree]
      · exact .of_rds_eq (.of_arcs_eq _ rfl rfl) rfl
    · have hindex := hinv₁.toIndexInv.list ha₁ hcommitted hrepr hwf hrehashing hmap (w₁.allocs + 2)
      have hset := href₁.setArc { arc₁ with data := { arc₁.data with committed := true } } ha₁ rfl
        hpos₁ rfl fun _ _ => rfl
      have hmove : RefInv _ ((seq ++ [(w₁.nodes.next, a)]).map Prod.snd) held :=
        hset.move fun b => by
          simp only [List.map_append, List.map_cons, List.map_nil, List.count_append,
            List.count_cons, List.count_nil]
          omega
      have hkept : EntriesKept CacheEntry.record w₁ { w₁ with
          arcs := w₁.arcs.set a { arc₁ with data := { arc₁.data with committed := true } } } :=
        .setArc ha₁ rfl
      refine ⟨none, _, _, ?_, ⟨hindex, hmove.congr rfl rfl rfl⟩,
        hquiet₁.trans CacheEntry.buf_of_record
          (.of_rds_eq (hkept.trans (.of_arcs_eq _ rfl rfl)) rfl), hwrs₁, ?_, .inr ⟨rfl, _, rfl⟩⟩
      rotate_left
      · have hothers₁ : OthersKept a w w₁ :=
          .of_entriesKept (hkept₁.toEntriesKept.mono fun _ _ => CacheEntry.body_of_core)
        refine ⟨fun hne he he' => ?_⟩
        simp only [World.entry, Heap.get_set_of_ne _ hne] at he'
        exact hothers₁.body_eq hne he he'
      simp [World.cacheCommitInsert, hshare, happend, World.arcGet, World.setEntry, World.asked,
        ha₁, hpos₁, hinsert]

theorem RefInv.wr_arc {i : ℕ} {listed : List ℕ} (h : RefInv w listed held)
    (hwr : w.wrEntry i = some a) : ∃ arc, w.arcs.get a = some arc :=
  h.wr_alive (World.wrEntry_eq_some_iff.mp hwr) rfl

/-- What the removal of an equal URL leaves behind is different from it. -/
theorem absent_of_removed {map map' : Hash Url ℕ} {url url' : Url}
    (heq : urlHashFns.eq url url' = true)
    (hmap : ∀ u n, (u, n) ∈ map'.bindings ↔
      (u, n) ∈ map.bindings ∧ urlHashFns.eq url' u = false) :
    Hash.Absent urlHashFns map' url := by
  intro u n hmem
  obtain ⟨_, hother⟩ := (hmap u n).mp hmem
  by_contra hu
  rw [Bool.not_eq_false] at hu
  rw [urlHashFns_lawful.eq_trans _ _ _ (urlHashFns_lawful.eq_symm _ _ heq) hu] at hother
  simp at hother

inductive CommitOutcome (w : World) (seq : List (ℕ × ℕ)) (a : ℕ) (e : CacheEntry) :
    Option Error → World → List (ℕ × ℕ) → Prop
  | committed (hcommitted : e.committed = true) : CommitOutcome w seq a e none w seq
  | kept {s : ℕ} {stored : CacheEntry} (hfresh : e.committed = false)
      (hbound : w.boundEntry e.url = some s) (hstored : w.entry s = some stored)
      (hlt : stored.buf.length < e.buf.length) : CommitOutcome w seq a e none w seq
  | refused {err : Error} {w' : World} (hfresh : e.committed = false)
      (hfree : w.boundEntry e.url = none) : CommitOutcome w seq a e (some err) w' seq
  | listed {n : ℕ} {w' : World} (hfresh : e.committed = false)
      (hfree : w.boundEntry e.url = none) : CommitOutcome w seq a e none w' (seq ++ [(n, a)])
  | dropped {xs ys : List (ℕ × ℕ)} {p s : ℕ} {stored : CacheEntry} {err : Error} {w' : World}
      (hfresh : e.committed = false) (hbound : w.boundEntry e.url = some s)
      (hstored : w.entry s = some stored) (hle : e.buf.length ≤ stored.buf.length)
      (hseq : seq = xs ++ (p, s) :: ys) : CommitOutcome w seq a e (some err) w' (xs ++ ys)
  | replaced {xs ys : List (ℕ × ℕ)} {n p s : ℕ} {stored : CacheEntry} {w' : World}
      (hfresh : e.committed = false) (hbound : w.boundEntry e.url = some s)
      (hstored : w.entry s = some stored) (hle : e.buf.length ≤ stored.buf.length)
      (hseq : seq = xs ++ (p, s) :: ys) :
      CommitOutcome w seq a e none w' (xs ++ ys ++ [(n, a)])

theorem cacheWrCommit_spec {i : ℕ} (alloc : Alloc) (h : CacheInv w seq held)
    (hwr : w.wrEntry i = some a) (ha : w.arcs.get a = some arc) :
    ∃ err w' seq', w.cacheWrCommit alloc i = some (err, w') ∧ CacheInv w' seq' held ∧
      Quiet CacheEntry.record w w' ∧ w'.wrs = w.wrs ∧ OthersKept a w w' ∧
      (err ≠ none → EntriesKept CacheEntry.body w w') ∧
      CommitOutcome w seq a arc.data err w' seq' := by
  have hget := h.toRefInv.arcGet_eq ha
  have hothers : OthersKept a w w := .of_entriesKept (.of_arcs_eq _ rfl rfl)
  have hrefl : Quiet CacheEntry.record w w := .of_rds_eq (.of_arcs_eq _ rfl rfl) rfl
  cases hcommitted : arc.data.committed with
  | true =>
      exact ⟨none, w, seq, by simp [World.cacheWrCommit, hwr, hget, hcommitted], h, hrefl, rfl,
        hothers, fun herr => absurd rfl herr, .committed hcommitted⟩
  | false =>
      have hlink := h.fresh (World.entry_of_get ha) hcommitted
      rcases h.boundEntry_cases arc.data.url with
        ⟨node, b, e, hmem, he, heq, hfound, hbound⟩ | ⟨habsent, hfound, hfree⟩
      · obtain ⟨stored, hb, rfl⟩ := World.get_of_entry he
        have hnode := h.repr.get_eq hmem
        have hstored := h.toRefInv.arcGet_eq hb
        by_cases hlt : stored.data.buf.length < arc.data.buf.length
        · exact ⟨none, w, seq, by simp [World.cacheWrCommit, hwr, hget, hcommitted, hlink, hfound,
            hnode, hstored, hlt], h, hrefl, rfl, hothers, fun herr => absurd rfl herr,
            .kept hcommitted hbound he hlt⟩
        · obtain ⟨xs, ys, rfl⟩ := List.append_of_mem hmem
          obtain ⟨w₁, hremove, hinv₁, hquiet₁, hwrs₁, _, _, hmap₁⟩ := cacheRemoveEntry_spec h hb
          -- the writer keeps its own entry alive
          obtain ⟨arc₁, ha₁⟩ : ∃ arc₁, w₁.arcs.get a = some arc₁ :=
            hinv₁.wr_alive (by rw [hwrs₁]; exact World.wrEntry_eq_some_iff.mp hwr) rfl
          have hbody : arc₁.data.body = arc.data.body := by
            rcases hquiet₁.entry (World.entry_of_get ha₁) with ⟨e, he, hbody⟩ | ⟨hle, _⟩
            · rw [World.entry_of_get ha, Option.some.injEq] at he
              rw [hbody, he]
            · have := Heap.lt_next_of_get ha
              omega
          simp only [CacheEntry.body, CacheEntry.mk.injEq] at hbody
          obtain ⟨hurl, _, _, _, _, hcommitted'⟩ := hbody
          have habsent : Hash.Absent urlHashFns w₁.cache.map arc₁.data.url := by
            rw [hurl]
            exact absent_of_removed heq hmap₁
          obtain ⟨err, w', seq', hrun, hinv', hquiet', hwrs', hothers', hcases⟩ :=
            cacheCommitInsert_spec alloc hinv₁ ha₁ (hcommitted'.trans hcommitted) habsent
          refine ⟨err, w', seq', ?_, hinv', .trans CacheEntry.buf_of_record
            (hquiet₁.mono fun _ _ => CacheEntry.record_of_body) hquiet', hwrs'.trans hwrs₁,
            .trans (.of_entriesKept hquiet₁.toEntriesKept) hothers' hquiet₁.arcs_le
              hquiet'.toEntriesKept, ?_, ?_⟩
          · simp [World.cacheWrCommit, hwr, hget, hcommitted, hlink, hfound, hnode, hstored, hlt,
              hremove, hrun]
          · intro herr
            obtain ⟨_, _, _, hkept⟩ := hcases.resolve_right fun hnone => herr hnone.1
            exact hquiet₁.toEntriesKept.trans (hkept.mono fun _ _ => CacheEntry.body_of_core)
          · rcases hcases with ⟨error, rfl, rfl, _⟩ | ⟨rfl, n, rfl⟩
            · exact .dropped hcommitted hbound he (Nat.le_of_not_lt hlt) rfl
            · exact .replaced hcommitted hbound he (Nat.le_of_not_lt hlt) rfl
      · obtain ⟨err, w', seq', hrun, hinv', hquiet', hwrs', hothers', hcases⟩ :=
          cacheCommitInsert_spec alloc h ha hcommitted habsent
        refine ⟨err, w', seq', by simp [World.cacheWrCommit, hwr, hget, hcommitted, hlink, hfound,
          hrun], hinv', hquiet', hwrs', hothers', ?_, ?_⟩
        · intro herr
          obtain ⟨_, _, _, hkept⟩ := hcases.resolve_right fun hnone => herr hnone.1
          exact hkept.mono fun _ _ => CacheEntry.body_of_core
        · rcases hcases with ⟨error, rfl, rfl, _⟩ | ⟨rfl, n, rfl⟩
          · exact .refused hcommitted hfree
          · exact .listed hcommitted hfree

end Commit

/-! ## Writing -/

section Write

variable {w w' : World} {seq : List (ℕ × ℕ)} {held : List ℕ} {a i : ℕ} {arc : ArcEntry}
  {e' : CacheEntry}

theorem EntriesKept.of_entry {β : Type} {f : CacheEntry → β} (hself : w'.self = w.self)
    (hnext : w'.arcs.next = w.arcs.next)
    (hentry : ∀ b, w'.entry b = if b = a then some e' else w.entry b)
    (ha : w.arcs.get a = some arc) (hf : f e' = f arc.data) : EntriesKept f w w' := by
  refine .of_subset hself hnext fun {b e₁} he₁ => ?_
  rw [hentry] at he₁
  split at he₁
  · rename_i heq
    cases he₁
    exact ⟨arc.data, by rw [heq, World.entry_of_get ha], hf⟩
  · exact ⟨e₁, he₁, rfl⟩

theorem Changed.listedSize_of_mem (h : Changed a e' w w') (hindex : IndexInv w seq)
    (ha : w.arcs.get a = some arc) (hmem : a ∈ seq.map Prod.snd) :
    w'.listedSize seq + arc.data.buf.length = w.listedSize seq + e'.buf.length := by
  obtain ⟨⟨p, b⟩, hpb, rfl⟩ := List.mem_map.mp hmem
  obtain ⟨xs, ys, rfl⟩ := List.append_of_mem hpb
  have hsame : ∀ x ∈ xs ++ ys, w'.bufLen x.2 = w.bufLen x.2 := by
    intro x hx
    rw [World.bufLen, h.entry, if_neg (hindex.ne_of_mem_without hx).2, World.bufLen]
  have hxs : w'.listedSize xs = w.listedSize xs :=
    World.listedSize_congr fun x hx => hsame x (List.mem_append_left _ hx)
  have hys : w'.listedSize ys = w.listedSize ys :=
    World.listedSize_congr fun x hx => hsame x (List.mem_append_right _ hx)
  have hnew : w'.bufLen b = e'.buf.length := by simp [World.bufLen, h.entry]
  have hold : w.bufLen b = arc.data.buf.length := by simp [World.bufLen, World.entry_of_get ha]
  simp only [World.listedSize_append, World.listedSize_cons, hxs, hys, hnew, hold]
  omega

theorem Changed.listedSize_of_not_mem (h : Changed a e' w w') (hnot : a ∉ seq.map Prod.snd) :
    w'.listedSize seq = w.listedSize seq := by
  refine World.listedSize_congr fun x hx => ?_
  have hne : x.2 ≠ a := fun heq => hnot (List.mem_map.mpr ⟨x, hx, heq⟩)
  rw [World.bufLen, h.entry, if_neg hne, World.bufLen]

/-- The index does not see a change of the state. -/
theorem CacheInv.changed (h : CacheInv w seq held) (href : RefInv w' (seq.map Prod.snd) held)
    (hchanged : Changed a e' w w') (ha : w.arcs.get a = some arc)
    (heq : e'.indexed = arc.data.indexed) (hcache : w'.cache = w.cache) : CacheInv w' seq held :=
  ⟨h.toIndexInv.of_kept href
    (.of_entry hchanged.self_eq hchanged.arcs_next hchanged.entry ha heq) hcache
    hchanged.nodes_eq, href⟩

theorem Changed.wake_spec {w₁ : World} (hchanged : Changed a e' w w₁) (h : CacheInv w₁ seq held) :
    ∃ w', w₁.cacheEntryWake a = some w' ∧ CacheInv w' seq held ∧ Rewritten a e' w w' := by
  obtain ⟨arc, ha, rfl⟩ := hchanged.get_eq
  obtain ⟨w', hwake, href', hcache, _, hrew⟩ := cacheEntryWake_spec h.toRefInv ha
  refine ⟨w', hwake, ⟨?_, href'⟩, hchanged.wake hrew⟩
  exact h.toIndexInv.of_kept href' (.of_entry hrew.self_eq hrew.arcs_next hrew.entry ha rfl)
    hcache hrew.nodes_eq

/-- Only an entry in the list counts for `current_size`. -/
theorem IndexInv.counts_iff (h : IndexInv w seq) (ha : w.arcs.get a = some arc) :
    (arc.data.cache.isSome && arc.data.committed) = true ↔ a ∈ seq.map Prod.snd := by
  rw [Bool.and_eq_true]
  constructor
  · rintro ⟨hlink, hcommitted⟩
    exact h.linked (World.entry_of_get ha) hcommitted (Option.isSome_iff_ne_none.mp hlink)
  · intro hmem
    obtain ⟨⟨p, b⟩, hpb, rfl⟩ := List.mem_map.mp hmem
    obtain ⟨e, he, _, hcommitted, hlink⟩ := h.stored hpb
    rw [World.entry_of_get ha, Option.some.injEq] at he
    rw [he]
    exact ⟨by simp [hlink], hcommitted⟩

theorem CacheInv.append (cache : Cache) (slice : List UInt8) (h : CacheInv w seq held)
    (ha : w.arcs.get a = some arc) (hmap : cache.map = w.cache.map)
    (hentries : cache.entries = w.cache.entries)
    (hsize : cache.currentSize =
      w.cache.currentSize + if a ∈ seq.map Prod.snd then slice.length else 0) (allocs : ℕ) :
    CacheInv { w with
      arcs := w.arcs.set a { arc with data := { arc.data with buf := arc.data.buf ++ slice } }
      cache := cache
      allocs := allocs } seq held := by
  have hset := h.toRefInv.setArc { arc with data := { arc.data with buf := arc.data.buf ++ slice } }
    ha rfl (h.refs ha).1 rfl fun _ _ => rfl
  have hchanged := Changed.setArc w a { arc.data with buf := arc.data.buf ++ slice } cache allocs ha
  generalize hw' : ({ w with
    arcs := w.arcs.set a { arc with data := { arc.data with buf := arc.data.buf ++ slice } }
    cache := cache
    allocs := allocs } : World) = w' at hchanged ⊢
  have hcache : w'.cache = cache := by rw [← hw']
  have href : RefInv w' (seq.map Prod.snd) held := by
    rw [← hw']
    exact hset.congr rfl rfl rfl
  refine ⟨?_, href⟩
  refine h.toIndexInv.of_links href
    (.of_entry hchanged.self_eq hchanged.arcs_next hchanged.entry ha rfl) (by rw [hcache, hmap])
    (by rw [hcache, hentries]) hchanged.nodes_eq ?_
  rw [hcache, hsize, h.size_eq]
  split
  · rename_i hmem
    have hnew := hchanged.listedSize_of_mem h.toIndexInv ha hmem
    simp only [List.length_append] at hnew
    omega
  · rename_i hnot
    rw [hchanged.listedSize_of_not_mem hnot, Nat.add_zero]

/-- A write either leaves the entry alone or appends the slice to its buffer. -/
theorem cacheWrAppend_spec (alloc : Alloc) (slice : List UInt8) (h : CacheInv w seq held)
    (hwr : w.wrEntry i = some a) (ha : w.arcs.get a = some arc) :
    ∃ err woken w', w.cacheWrAppend alloc i slice = some (err, woken, w') ∧ CacheInv w' seq held ∧
      ((woken = none ∧ Kept w w' ∧ (err = none → slice = []) ∧ w'.wrs = w.wrs) ∨
        (woken = some a ∧ err = none ∧ arc.data.state ≠ .entryComplete ∧
          Changed a { arc.data with buf := arc.data.buf ++ slice } w w')) := by
  have hrefl : Kept w w := .of_arcs_eq rfl rfl rfl rfl rfl
  have hget := h.toRefInv.arcGet_eq ha
  by_cases hnil : slice = []
  · exact ⟨none, none, w, by simp [World.cacheWrAppend, hnil], h,
      .inl ⟨rfl, hrefl, fun _ => hnil, rfl⟩⟩
  by_cases hstate : arc.data.state = .entryComplete
  · refine ⟨some (.wrap "Writing to a complete entry"
      (.okIf "entry->state != CACHE_ENTRY_COMPLETE")), none, w, ?_, h,
      .inl ⟨rfl, hrefl, by simp, rfl⟩⟩
    simp [World.cacheWrAppend, hnil, hwr, hget, hstate]
  by_cases hroom : alloc w.allocs = true ∧ arc.data.buf.length + slice.length < ptrdiffMax
  · by_cases hcounts : (arc.data.cache.isSome && arc.data.committed) = true
    · have hmem := (h.toIndexInv.counts_iff ha).mp hcounts
      rw [Bool.and_eq_true] at hcounts
      have hlink : arc.data.cache = some w.self := by
        obtain ⟨⟨p, b⟩, hpb, rfl⟩ := List.mem_map.mp hmem
        obtain ⟨e, he, _, _, hlink⟩ := h.stored hpb
        rw [World.entry_of_get ha, Option.some.injEq] at he
        rw [he, hlink]
      refine ⟨none, some a, _, ?_, h.append
        { w.cache with currentSize := w.cache.currentSize + slice.length } slice ha rfl rfl
        (by simp only [if_pos hmem]) (w.allocs + 1), .inr ⟨rfl, rfl, hstate, .setArc w a _ _ _ ha⟩⟩
      simp [World.cacheWrAppend, hnil, hwr, hget, hstate, hroom, World.setEntry, World.asked, ha,
        hlink, hcounts.2]
    · have hnot := mt (h.toIndexInv.counts_iff ha).mpr hcounts
      rw [Bool.and_eq_true] at hcounts
      refine ⟨none, some a, _, ?_, h.append w.cache slice ha rfl rfl
        (by rw [if_neg hnot, Nat.add_zero]) (w.allocs + 1),
        .inr ⟨rfl, rfl, hstate, .setArc w a _ _ _ ha⟩⟩
      simp [World.cacheWrAppend, hnil, hwr, hget, hstate, hroom, World.setEntry, World.asked, ha,
        hcounts]
  · refine ⟨some (.fromCommon .memoryAllocationFailure), none, w.asked, ?_,
      h.of_kept h.toRefInv.asked (.asked w), .inl ⟨rfl, .asked w, by simp, rfl⟩⟩
    simp only [World.cacheWrAppend, hnil, hwr, hget, hstate, List.length_eq_zero_iff, if_false,
      Option.bind_eq_bind, Option.bind_some, Bool.and_eq_true, decide_eq_true_eq, if_neg hroom]
    rfl

theorem cacheWrWrite_spec (alloc : Alloc) (slice : List UInt8) (h : CacheInv w seq held)
    (hwr : w.wrEntry i = some a) (ha : w.arcs.get a = some arc) :
    ∃ err w', w.cacheWrWrite alloc i slice = some (err, w') ∧ CacheInv w' seq held ∧
      ((Kept w w' ∧ (err = none → slice = []) ∧ w'.wrs = w.wrs) ∨
        (err = none ∧ arc.data.state ≠ .entryComplete ∧
          Rewritten a { arc.data with buf := arc.data.buf ++ slice } w w')) := by
  obtain ⟨err, woken, w₁, happend, hinv₁, hcases⟩ := cacheWrAppend_spec alloc slice h hwr ha
  rcases hcases with ⟨rfl, hkept, hnil⟩ | ⟨rfl, rfl, hstate, hchanged⟩
  · exact ⟨err, w₁, by simp [World.cacheWrWrite, happend], hinv₁, .inl ⟨hkept, hnil⟩⟩
  · obtain ⟨w', hwake, hinv', hrew⟩ := hchanged.wake_spec hinv₁
    exact ⟨none, w', by simp [World.cacheWrWrite, happend, hwake], hinv',
      .inr ⟨rfl, hstate, hrew⟩⟩

/-! ## Completion and the end of a handle -/

/-- A state is only left for another one, and never if it is `CACHE_ENTRY_INVALID`. -/
theorem cacheEntrySetState_spec (h : CacheInv w seq held) (ha : w.arcs.get a = some arc)
    (state : CacheEntryState) :
    ∃ w', w.cacheEntrySetState a state = some w' ∧ CacheInv w' seq held ∧
      ((w' = w ∧ (arc.data.state = state ∨ arc.data.state = .entryInvalid)) ∨
        (arc.data.state ≠ state ∧ arc.data.state ≠ .entryInvalid ∧
          Rewritten a { arc.data with state := state } w w')) := by
  obtain ⟨changed, w₁, hput, href₁, hcache₁, hcases⟩ :=
    cacheEntryPutState_spec h.toRefInv ha state
  rcases hcases with ⟨rfl, rfl, hstate⟩ | ⟨rfl, hstate, hinvalid, hchanged⟩
  · exact ⟨w₁, by simp [World.cacheEntrySetState, hput], h, .inl ⟨rfl, hstate⟩⟩
  · have hinv₁ := h.changed href₁ hchanged ha rfl hcache₁
    obtain ⟨w', hwake, hinv', hrew⟩ := hchanged.wake_spec hinv₁
    exact ⟨w', by simp [World.cacheEntrySetState, hput, hwake], hinv',
      .inr ⟨hstate, hinvalid, hrew⟩⟩

theorem cacheWrComplete_spec (h : CacheInv w seq held) (hwr : w.wrEntry i = some a)
    (ha : w.arcs.get a = some arc) :
    ∃ w', w.cacheWrComplete i = some w' ∧ CacheInv w' seq held ∧
      ((w' = w ∧ (arc.data.state = .entryComplete ∨ arc.data.state = .entryInvalid)) ∨
        (arc.data.state = .entryPartial ∧
          Rewritten a { arc.data with state := .entryComplete } w w')) := by
  obtain ⟨w', hset, hinv', hcases⟩ := cacheEntrySetState_spec h ha .entryComplete
  refine ⟨w', by simp [World.cacheWrComplete, hwr, h.toRefInv.arcGet_eq ha, hset], hinv', ?_⟩
  rcases hcases with ⟨rfl, hstate⟩ | ⟨hcomplete, hinvalid, hrew⟩
  · exact .inl ⟨rfl, hstate⟩
  · refine .inr ⟨?_, hrew⟩
    cases hstate : arc.data.state with
    | entryComplete => exact absurd hstate hcomplete
    | entryPartial => rfl
    | entryInvalid => exact absurd hstate hinvalid

/-- A write handle is freed: an entry that is not complete becomes invalid, and may be
freed as well. -/
theorem cacheWrFree_spec (h : CacheInv w seq held) (hwr : w.wrEntry i = some a)
    (ha : w.arcs.get a = some arc) :
    ∃ w₁ w', w.cacheWrFree i = some w' ∧ CacheInv w' seq held ∧ Kept w₁ w' ∧
      w'.wrs = w.wrs.free i ∧
      ((w₁ = w ∧ arc.data.state ≠ .entryPartial) ∨
        (arc.data.state = .entryPartial ∧
          Rewritten a { arc.data with state := .entryInvalid } w w₁)) := by
  have hget := h.toRefInv.arcGet_eq ha
  obtain ⟨w₁, hinv₁, hwrs₁, hstart, hcases⟩ : ∃ w₁, CacheInv w₁ seq held ∧ w₁.wrs = w.wrs ∧
      w.cacheWrFree i =
        (w₁.arcFree a).bind (fun w => some { w with wrs := w.wrs.free i }) ∧
      ((w₁ = w ∧ arc.data.state ≠ .entryPartial) ∨
        (arc.data.state = .entryPartial ∧
          Rewritten a { arc.data with state := .entryInvalid } w w₁)) := by
    by_cases hstate : arc.data.state = .entryPartial
    · obtain ⟨w₁, hset, hinv₁, hcases⟩ := cacheEntrySetState_spec h ha .entryInvalid
      rcases hcases with ⟨_, hstate' | hstate'⟩ | ⟨_, _, hrew⟩
      · simp [hstate] at hstate'
      · simp [hstate] at hstate'
      · exact ⟨w₁, hinv₁, hrew.wrs_eq, by simp [World.cacheWrFree, hwr, hget, hstate, hset],
          .inr ⟨hstate, hrew⟩⟩
    · exact ⟨w, h, rfl, by simp [World.cacheWrFree, hwr, hget, hstate], .inl ⟨rfl, hstate⟩⟩
  have href₁ := hinv₁.toRefInv.freeWr (by rw [hwrs₁]; exact World.wrEntry_eq_some_iff.mp hwr)
  obtain ⟨w₂, hfree, href₂, hkept₂, _, hwrs₂, _⟩ := arcFree_spec href₁
  have hkept : Kept w₁ w₂ := by
    refine .trans ?_ hkept₂
    exact .of_arcs_eq rfl rfl rfl rfl rfl
  refine ⟨w₁, w₂, ?_, hinv₁.of_kept href₂ hkept, hkept, by rw [hwrs₂, hwrs₁], hcases⟩
  have hframe := World.arcFree_handles w₁ a id (·.free i)
  rw [hstart, ← hfree]
  exact Option.map_eq_bind.symm.trans hframe.symm

end Write

end PosixThreads
