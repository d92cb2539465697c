import PosixThreads.Collections.Hash.Spec
import PosixThreads.Collections.Dlist.Spec
import PosixThreads.Waxy.Cache.Refs

/-!
# The index of the cache

The cache finds an entry through its table, which leads from a URL to a node of the
list, and evicts entries in the order of the list. `IndexInv w seq` ties the two
together, where `seq` is the contents of the list: nodes with the entries they hold.
It also says that `current_size` is the sum of the sizes of these entries.

An entry is in the list from its commit to its removal. The fields `committed` and
`cache` of the entry tell where it stands, and `linked` and `fresh` say how.
-/

namespace PosixThreads

/-- What ties an entry to the index. -/
def CacheEntry.links (e : CacheEntry) : Url × Option ℕ × Bool := (e.url, e.cache, e.committed)

/-- An entry as far as the index depends on it. -/
def CacheEntry.indexed (e : CacheEntry) : CacheEntry :=
  { e with handles := [], state := .entryPartial }

/-- An entry without its read handles and its link to the cache. -/
def CacheEntry.body (e : CacheEntry) : CacheEntry := { e with handles := [], cache := none }

/-- What readers see of an entry. -/
def CacheEntry.content (e : CacheEntry) : List UInt8 × CacheEntryState := (e.buf, e.state)

def World.bufLen (w : World) (a : ℕ) : ℕ := ((w.entry a).map (·.buf.length)).getD 0

def World.listedSize (w : World) (seq : List (ℕ × ℕ)) : ℕ := (seq.map fun x => w.bufLen x.2).sum

structure IndexInv (w : World) (seq : List (ℕ × ℕ)) : Prop where
  repr : Dlist.Represents w.nodes w.cache.entries seq
  map_wf : w.cache.map.WF urlHashFns
  rehashing_eq : w.cache.map.rehashing = false
  bound : ∀ {url : Url} {node : ℕ}, (url, node) ∈ w.cache.map.bindings →
    ∃ a e, (node, a) ∈ seq ∧ w.entry a = some e ∧ e.url = url
  stored : ∀ {node a : ℕ}, (node, a) ∈ seq →
    ∃ e, w.entry a = some e ∧ (e.url, node) ∈ w.cache.map.bindings ∧ e.committed = true ∧
      e.cache = some w.self
  linked : ∀ {a : ℕ} {e : CacheEntry}, w.entry a = some e → e.committed = true →
    e.cache ≠ none → a ∈ seq.map Prod.snd
  fresh : ∀ {a : ℕ} {e : CacheEntry}, w.entry a = some e → e.committed = false →
    e.cache = some w.self
  size_eq : w.cache.currentSize = w.listedSize seq

structure CacheInv (w : World) (seq : List (ℕ × ℕ)) (held : List ℕ) : Prop
    extends IndexInv w seq, RefInv w (seq.map Prod.snd) held

/-! ## Frame rules -/

section Frame

variable {w w' : World} {seq : List (ℕ × ℕ)} {held : List ℕ}

theorem World.entry_of_get {a : ℕ} {arc : ArcEntry} (ha : w.arcs.get a = some arc) :
    w.entry a = some arc.data := by
  simp [World.entry, ha]

theorem World.get_of_entry {a : ℕ} {e : CacheEntry} (he : w.entry a = some e) :
    ∃ arc, w.arcs.get a = some arc ∧ arc.data = e := by
  simpa [World.entry] using he

theorem World.listedSize_congr (h : ∀ x ∈ seq, w'.bufLen x.2 = w.bufLen x.2) :
    w'.listedSize seq = w.listedSize seq := by
  rw [World.listedSize, World.listedSize, List.map_congr_left h]

@[simp] theorem World.listedSize_append (w : World) (xs ys : List (ℕ × ℕ)) :
    w.listedSize (xs ++ ys) = w.listedSize xs + w.listedSize ys := by
  simp [World.listedSize]

@[simp] theorem World.listedSize_cons (w : World) (x : ℕ × ℕ) (xs : List (ℕ × ℕ)) :
    w.listedSize (x :: xs) = w.bufLen x.2 + w.listedSize xs := by
  simp [World.listedSize]

theorem CacheEntry.links_of_indexed {e e' : CacheEntry} (h : e.indexed = e'.indexed) :
    e.links = e'.links := by
  have hlinks := congrArg CacheEntry.links h
  exact hlinks

theorem CacheEntry.fields_of_links {e e' : CacheEntry} (h : e'.links = e.links) :
    e'.url = e.url ∧ e'.cache = e.cache ∧ e'.committed = e.committed := by
  simpa [CacheEntry.links] using h

theorem EntriesKept.of_alive {β : Type} {f : CacheEntry → β} {a : ℕ} {e : CacheEntry}
    (h : EntriesKept f w w') (halive : ∃ arc, w'.arcs.get a = some arc)
    (he : w.entry a = some e) : ∃ e', w'.entry a = some e' ∧ f e' = f e := by
  obtain ⟨arc, harc⟩ := halive
  have he' := World.entry_of_get harc
  rcases h.entry he' with ⟨e₁, he₁, heq⟩ | ⟨hle, _⟩
  · rw [he, Option.some.injEq] at he₁
    exact ⟨_, he', by rw [heq, he₁]⟩
  · have := World.entry_lt_next he
    omega

/-- The index is kept by what does not touch it and the links of entries, provided that
`current_size` is right. -/
theorem IndexInv.of_links (h : IndexInv w seq) (href : RefInv w' (seq.map Prod.snd) held)
    (hkept : EntriesKept CacheEntry.links w w') (hmap : w'.cache.map = w.cache.map)
    (hentries : w'.cache.entries = w.cache.entries) (hnodes : w'.nodes = w.nodes)
    (hsize : w'.cache.currentSize = w'.listedSize seq) : IndexInv w' seq := by
  have halive : ∀ {node a : ℕ} {e : CacheEntry}, (node, a) ∈ seq → w.entry a = some e →
      ∃ e', w'.entry a = some e' ∧ e'.links = e.links := by
    intro node a e hmem he
    exact hkept.of_alive (href.listed_alive a (List.mem_map.mpr ⟨_, hmem, rfl⟩)) he
  refine ⟨?_, ?_, ?_, ?_, ?_, ?_, ?_, hsize⟩
  · rw [hnodes, hentries]
    exact h.repr
  · rw [hmap]
    exact h.map_wf
  · rw [hmap]
    exact h.rehashing_eq
  · intro url node hmem
    rw [hmap] at hmem
    obtain ⟨a, e, hseq, he, hurl⟩ := h.bound hmem
    obtain ⟨e', he', heq⟩ := halive hseq he
    exact ⟨a, e', hseq, he', (CacheEntry.fields_of_links heq).1.trans hurl⟩
  · intro node a hmem
    obtain ⟨e, he, hbound, hcommitted, hlink⟩ := h.stored hmem
    obtain ⟨e', he', heq⟩ := halive hmem he
    obtain ⟨hurl', hlink', hcommitted'⟩ := CacheEntry.fields_of_links heq
    rw [hmap, hkept.self_eq]
    exact ⟨e', he', hurl' ▸ hbound, hcommitted'.trans hcommitted, hlink'.trans hlink⟩
  · intro a e' he' hcommitted hlink
    rcases hkept.entry he' with ⟨e, he, heq⟩ | ⟨_, url, heq⟩
    · obtain ⟨_, hlink', hcommitted'⟩ := CacheEntry.fields_of_links heq
      exact h.linked he (hcommitted'.symm.trans hcommitted) (hlink' ▸ hlink)
    · -- a new entry is not committed
      obtain ⟨_, _, hcommitted'⟩ := CacheEntry.fields_of_links heq
      rw [hcommitted] at hcommitted'
      simp [CacheEntry.new] at hcommitted'
  · intro a e' he' hcommitted
    rw [hkept.self_eq]
    rcases hkept.entry he' with ⟨e, he, heq⟩ | ⟨_, url, heq⟩
    · obtain ⟨_, hlink', hcommitted'⟩ := CacheEntry.fields_of_links heq
      exact hlink'.trans (h.fresh he (hcommitted'.symm.trans hcommitted))
    · exact (CacheEntry.fields_of_links heq).2.1

/-- The index is kept by what does not touch the cache and what it knows of entries. -/
theorem IndexInv.of_kept (h : IndexInv w seq) (href : RefInv w' (seq.map Prod.snd) held)
    (hkept : EntriesKept CacheEntry.indexed w w') (hcache : w'.cache = w.cache)
    (hnodes : w'.nodes = w.nodes) : IndexInv w' seq := by
  refine h.of_links href (hkept.mono fun _ _ => CacheEntry.links_of_indexed) (by rw [hcache])
    (by rw [hcache]) hnodes ?_
  rw [hcache, h.size_eq]
  refine (World.listedSize_congr fun x hx => ?_).symm
  obtain ⟨e, he, _⟩ := h.stored hx
  obtain ⟨e', he', heq⟩ :=
    hkept.of_alive (href.listed_alive x.2 (List.mem_map.mpr ⟨_, hx, rfl⟩)) he
  simp only [CacheEntry.indexed, CacheEntry.mk.injEq] at heq
  simp [World.bufLen, he, he', heq.2.2.1]

theorem CacheEntry.indexed_of_core {e e' : CacheEntry} (h : e.core = e'.core) :
    e.indexed = e'.indexed := by
  have hfun : ∀ e : CacheEntry, e.indexed = { e.core with state := .entryPartial } := fun _ => rfl
  rw [hfun, hfun, h]

theorem CacheInv.of_kept {held' : List ℕ} (h : CacheInv w seq held)
    (href : RefInv w' (seq.map Prod.snd) held') (hkept : Kept w w') : CacheInv w' seq held' :=
  ⟨h.toIndexInv.of_kept href (hkept.toEntriesKept.mono fun _ _ => CacheEntry.indexed_of_core)
    hkept.cache_eq hkept.nodes_eq, href⟩

end Frame

/-! ## Removal -/

section Remove

variable {w : World} {xs ys seq : List (ℕ × ℕ)} {held : List ℕ} {p a : ℕ} {arc : ArcEntry}

theorem IndexInv.node_unique (h : IndexInv w seq) {n n' : ℕ} (hn : (n, a) ∈ seq)
    (hn' : (n', a) ∈ seq) : n = n' := by
  obtain ⟨e, he, hbound, _⟩ := h.stored hn
  obtain ⟨e', he', hbound', _⟩ := h.stored hn'
  rw [he, Option.some.injEq] at he'
  subst he'
  exact (h.map_wf.value_unique hbound hbound' (urlHashFns_lawful.eq_refl _)).2

theorem mem_of_mem_without {x : ℕ × ℕ} (hx : x ∈ xs ++ ys) (p a : ℕ) :
    x ∈ xs ++ (p, a) :: ys := by
  simp only [List.mem_append, List.mem_cons] at hx ⊢
  tauto

/-- What is left in the list is in other nodes and has other entries. -/
theorem IndexInv.ne_of_mem_without (h : IndexInv w (xs ++ (p, a) :: ys)) {n b : ℕ}
    (hmem : (n, b) ∈ xs ++ ys) : n ≠ p ∧ b ≠ a := by
  obtain ⟨hpx, hpy, _⟩ := Dlist.not_mem_of_nodup h.repr.nodup
  have hne : n ≠ p := by
    rintro rfl
    rcases List.mem_append.mp hmem with hmem | hmem
    · exact hpx (List.mem_map.mpr ⟨_, hmem, rfl⟩)
    · exact hpy (List.mem_map.mpr ⟨_, hmem, rfl⟩)
  refine ⟨hne, ?_⟩
  rintro rfl
  exact hne (h.node_unique (mem_of_mem_without hmem p b) (by simp))

theorem IndexInv.unlist {nodes : Heap (DlistNode ℕ)} {entries : Dlist} {map : Hash Url ℕ}
    (h : IndexInv w (xs ++ (p, a) :: ys)) (ha : w.arcs.get a = some arc)
    (hrepr : Dlist.Represents nodes entries (xs ++ ys)) (hwf : map.WF urlHashFns)
    (hrehashing : map.rehashing = false)
    (hmap : ∀ url n, (url, n) ∈ map.bindings ↔
      (url, n) ∈ w.cache.map.bindings ∧ urlHashFns.eq arc.data.url url = false) :
    IndexInv { w with
      nodes := nodes
      arcs := w.arcs.set a { arc with data := { arc.data with cache := none } }
      cache := { w.cache with
        entries := entries
        map := map
        currentSize := w.cache.currentSize - arc.data.buf.length } } (xs ++ ys) := by
  have hpa : (p, a) ∈ xs ++ (p, a) :: ys := by simp
  obtain ⟨e₀, he₀, hbound, hcommitted, _⟩ := h.stored hpa
  rw [World.entry_of_get ha, Option.some.injEq] at he₀
  subst he₀
  have hentry : ∀ b, b ≠ a → ({ w with
      nodes := nodes
      arcs := w.arcs.set a { arc with data := { arc.data with cache := none } }
      cache := { w.cache with
        entries := entries
        map := map
        currentSize := w.cache.currentSize - arc.data.buf.length } } : World).entry b =
      w.entry b := by
    intro b hne
    simp only [World.entry, Heap.get_set_of_ne _ hne]
  refine ⟨hrepr, hwf, hrehashing, ?_, ?_, ?_, ?_, ?_⟩
  · intro url n hmem
    obtain ⟨hmem, hother⟩ := (hmap url n).mp hmem
    obtain ⟨b, e, hseq, he, hurl⟩ := h.bound hmem
    have hne : b ≠ a := by
      rintro rfl
      rw [World.entry_of_get ha, Option.some.injEq] at he
      rw [← hurl, ← he, urlHashFns_lawful.eq_refl] at hother
      simp at hother
    refine ⟨b, e, ?_, by rw [hentry b hne, he], hurl⟩
    simp only [List.mem_append, List.mem_cons, Prod.mk.injEq] at hseq ⊢
    tauto
  · intro n b hmem
    obtain ⟨hnode, hne⟩ := h.ne_of_mem_without hmem
    obtain ⟨e, he, hbound', hcommitted', hlink'⟩ := h.stored (mem_of_mem_without hmem p a)
    refine ⟨e, by rw [hentry b hne, he], (hmap _ _).mpr ⟨hbound', ?_⟩, hcommitted', hlink'⟩
    -- an equal URL would belong to the same node
    by_contra heq
    rw [Bool.not_eq_false] at heq
    exact hnode (h.map_wf.value_unique hbound hbound' heq).2.symm
  · intro b e he hcommitted' hlink'
    by_cases hne : b = a
    · subst hne
      simp only [World.entry, Heap.get_set_self ha, Option.map_some, Option.some.injEq] at he
      rw [← he] at hlink'
      simp at hlink'
    · rw [hentry b hne] at he
      have hmem := h.linked he hcommitted' hlink'
      simp only [List.map_append, List.map_cons, List.mem_append, List.mem_cons] at hmem ⊢
      tauto
  · intro b e he hcommitted'
    by_cases hne : b = a
    · subst hne
      simp only [World.entry, Heap.get_set_self ha, Option.map_some, Option.some.injEq] at he
      rw [← he] at hcommitted'
      simp [hcommitted] at hcommitted'
    · rw [hentry b hne] at he
      exact h.fresh he hcommitted'
  · have hsame : ∀ x ∈ xs ++ ys, ({ w with
        nodes := nodes
        arcs := w.arcs.set a { arc with data := { arc.data with cache := none } }
        cache := { w.cache with
          entries := entries
          map := map
          currentSize := w.cache.currentSize - arc.data.buf.length } } : World).bufLen x.2 =
        w.bufLen x.2 := by
      intro x hx
      rw [World.bufLen, hentry x.2 (h.ne_of_mem_without hx).2, World.bufLen]
    rw [World.listedSize_congr hsame]
    have hsize := h.size_eq
    have hlen : w.bufLen a = arc.data.buf.length := by simp [World.bufLen, World.entry_of_get ha]
    simp only [World.listedSize_append, World.listedSize_cons, hlen] at hsize ⊢
    omega

theorem World.arcFree_cache (w : World) (a : ℕ) (cache : Cache) (nodes : Heap (DlistNode ℕ)) :
    ({ w with cache := cache, nodes := nodes } : World).arcFree a =
      (w.arcFree a).map fun w' => { w' with cache := cache, nodes := nodes } :=
  w.arcFree_frame a (fun _ => cache) (fun _ => nodes) id id

theorem CacheEntry.body_of_core {e e' : CacheEntry} (h : e.core = e'.core) : e.body = e'.body := by
  have hfun : ∀ e : CacheEntry, e.body = { e.core with cache := none } := fun _ => rfl
  rw [hfun, hfun, h]

theorem CacheEntry.buf_of_body {e e' : CacheEntry} (h : e.body = e'.body) :
    e.buf = e'.buf ∧ e.state = e'.state := by
  simp only [CacheEntry.body, CacheEntry.mk.injEq] at h
  exact ⟨h.2.2.1, h.2.2.2.2.1⟩

theorem cacheRemoveEntry_spec (h : CacheInv w (xs ++ (p, a) :: ys) held)
    (ha : w.arcs.get a = some arc) :
    ∃ w', w.cacheRemoveEntry p = some w' ∧ CacheInv w' (xs ++ ys) held ∧
      Quiet CacheEntry.body w w' ∧ w'.wrs = w.wrs ∧
      w'.cache.currentSize + arc.data.buf.length = w.cache.currentSize ∧
      w'.cache.sizeLimit = w.cache.sizeLimit ∧
      ∀ url n, (url, n) ∈ w'.cache.map.bindings ↔
        (url, n) ∈ w.cache.map.bindings ∧ urlHashFns.eq arc.data.url url = false := by
  have hpa : (p, a) ∈ xs ++ (p, a) :: ys := by simp
  obtain ⟨e₀, he₀, hbound, _⟩ := h.stored hpa
  rw [World.entry_of_get ha, Option.some.injEq] at he₀
  subst he₀
  obtain ⟨nodes, entries, hremove, hrepr⟩ := h.repr.remove_spec
  obtain ⟨map, hmapRemove, hwf, _, hrehashing, hmap⟩ :=
    Hash.remove_of_mem urlHashFns_lawful h.map_wf hbound (urlHashFns_lawful.eq_refl _)
  have hsize : arc.data.buf.length ≤ w.cache.currentSize := by
    have hlen : w.bufLen a = arc.data.buf.length := by simp [World.bufLen, World.entry_of_get ha]
    have := h.size_eq
    simp only [World.listedSize_append, World.listedSize_cons, hlen] at this
    omega
  have hindex := h.toIndexInv.unlist ha hrepr hwf (hrehashing.trans h.rehashing_eq) hmap
  generalize hw₁ : ({ w with
    nodes := nodes
    arcs := w.arcs.set a { arc with data := { arc.data with cache := none } }
    cache := { w.cache with
      entries := entries
      map := map
      currentSize := w.cache.currentSize - arc.data.buf.length } } : World) = w₁ at hindex
  have href₁ : RefInv w₁ ((xs ++ ys).map Prod.snd) (a :: held) := by
    have hset := h.toRefInv.setArc { arc with data := { arc.data with cache := none } } ha rfl
      (h.refs ha).1 rfl fun _ _ => rfl
    refine RefInv.move (RefInv.congr hset ?_ ?_ ?_) fun b => ?_
    · rw [← hw₁]
    · rw [← hw₁]
    · rw [← hw₁]
    · simp only [List.map_append, List.map_cons, List.count_append, List.count_cons]
      omega
  have hquiet₁ : Quiet CacheEntry.body w w₁ := by
    have hset : EntriesKept CacheEntry.body w
        { w with arcs := w.arcs.set a { arc with data := { arc.data with cache := none } } } :=
      .setArc ha rfl
    rw [← hw₁]
    exact .of_rds_eq (hset.trans (.of_arcs_eq _ rfl rfl)) rfl
  obtain ⟨w₂, hfree, href₂, hkept₂, _, hwrs₂, _⟩ := arcFree_spec href₁
  refine ⟨w₂, ?_, CacheInv.of_kept ⟨hindex, href₁⟩ href₂ hkept₂,
    hquiet₁.trans CacheEntry.buf_of_body (hkept₂.toQuiet.mono fun _ _ => CacheEntry.body_of_core),
    by rw [hwrs₂, ← hw₁], by rw [hkept₂.cache_eq, ← hw₁]; exact Nat.sub_add_cancel hsize,
    by rw [hkept₂.cache_eq, ← hw₁], by rw [hkept₂.cache_eq, ← hw₁]; exact hmap⟩
  have hpos := (h.refs ha).1
  -- the code frees the entry before it updates `current_size`
  have hframe := World.arcFree_cache w₁ a { w₁.cache with
    currentSize := w.cache.currentSize } nodes
  rw [hfree, ← hw₁] at hframe
  have hw₂ : { w₂ with nodes := nodes, cache := { w.cache with
      entries := entries
      map := map
      currentSize := w.cache.currentSize - arc.data.buf.length } } = w₂ := by
    have hcache₂ : w₂.cache = { w.cache with
        entries := entries
        map := map
        currentSize := w.cache.currentSize - arc.data.buf.length } := by
      rw [hkept₂.cache_eq, ← hw₁]
    have hnodes₂ : w₂.nodes = nodes := by rw [hkept₂.nodes_eq, ← hw₁]
    rw [← hcache₂, ← hnodes₂]
  simpa [World.cacheRemoveEntry, hremove, World.arcGet, World.setEntry, ha, hpos, hmapRemove,
    hframe, hsize] using hw₂

/-! ## Eviction -/

/-- One turn takes the oldest entry out of the cache. -/
theorem cacheEvictTurn_spec (h : CacheInv w seq held) :
    (w.cacheEvictTurn = .inr (some w) ∧ w.cache.currentSize ≤ w.cache.sizeLimit) ∨
      ∃ x xs w', seq = x :: xs ∧ w.cacheEvictTurn = .inl w' ∧ CacheInv w' xs held ∧
        Quiet CacheEntry.body w w' ∧ w'.wrs = w.wrs ∧
        w.cache.sizeLimit < w.cache.currentSize ∧ w'.cache.sizeLimit = w.cache.sizeLimit := by
  by_cases hsize : w.cache.currentSize > w.cache.sizeLimit
  · cases seq with
    | nil =>
        have hzero := h.size_eq
        simp only [World.listedSize, List.map_nil, List.sum_nil] at hzero
        omega
    | cons x xs =>
        right
        obtain ⟨p, a⟩ := x
        obtain ⟨e, he, _⟩ := h.stored (List.mem_cons_self)
        obtain ⟨arc, ha, _⟩ := World.get_of_entry he
        have h' : CacheInv w ([] ++ (p, a) :: xs) held := h
        obtain ⟨w', hremove, hinv', hquiet', hwrs', _, hlimit', _⟩ := cacheRemoveEntry_spec h' ha
        have hhead : w.cache.entries.head = some p := by simp [h.repr.head_eq]
        exact ⟨(p, a), xs, w', rfl, by simp [World.cacheEvictTurn, hsize, hhead, hremove], hinv',
          hquiet', hwrs', hsize, hlimit'⟩
  · exact .inl ⟨by simp [World.cacheEvictTurn, hsize], by omega⟩

/-- The first `k` entries of the list are the least number of entries that have to go for
the others to fit. -/
structure Evicted (w : World) (seq : List (ℕ × ℕ)) (k : ℕ) : Prop where
  fits : w.listedSize (seq.drop k) ≤ w.cache.sizeLimit
  shortest : ∀ j < k, w.cache.sizeLimit < w.listedSize (seq.drop j)

/-- The sizes of the entries in the list do not change while others are evicted. -/
theorem Quiet.listedSize_eq {w' : World} (h : Quiet CacheEntry.body w w')
    (hold : ∀ {n b : ℕ}, (n, b) ∈ seq → ∃ e, w.entry b = some e)
    (hnew : ∀ {n b : ℕ}, (n, b) ∈ seq → ∃ e, w'.entry b = some e) :
    w'.listedSize seq = w.listedSize seq := by
  refine World.listedSize_congr ?_
  rintro ⟨n, b⟩ hmem
  obtain ⟨e, he⟩ := hold hmem
  obtain ⟨e', he'⟩ := hnew hmem
  rcases h.entry he' with ⟨e₁, he₁, heq⟩ | ⟨hle, _⟩
  · rw [he, Option.some.injEq] at he₁
    simp only [World.bufLen, he, he', Option.map_some, Option.getD_some]
    rw [(CacheEntry.buf_of_body heq).1, he₁]
  · have := World.entry_lt_next he
    omega

/-- The states of the loop of an eviction from `w`. -/
structure Evicting (w : World) (seq : List (ℕ × ℕ)) (held : List ℕ) (k : ℕ) (s : World) :
    Prop where
  inv : CacheInv s (seq.drop k) held
  quiet : Quiet CacheEntry.body w s
  wrs_eq : s.wrs = w.wrs
  sizeLimit_eq : s.cache.sizeLimit = w.cache.sizeLimit
  shortest : ∀ j < k, w.cache.sizeLimit < w.listedSize (seq.drop j)

theorem Evicting.size_eq {s : World} {k : ℕ} (hs : Evicting w seq held k s)
    (h : CacheInv w seq held) : s.cache.currentSize = w.listedSize (seq.drop k) := by
  rw [hs.inv.size_eq]
  refine hs.quiet.listedSize_eq (fun hmem => ?_) fun hmem => ?_
  · obtain ⟨e, he, _⟩ := h.stored (List.mem_of_mem_drop hmem)
    exact ⟨e, he⟩
  · obtain ⟨e, he, _⟩ := hs.inv.stored hmem
    exact ⟨e, he⟩

theorem Evicting.turn {s s' : World} {k : ℕ} (hs : Evicting w seq held k s)
    (h : CacheInv w seq held) (hturn : s.cacheEvictTurn = .inl s') :
    Evicting w seq held (k + 1) s' ∧ s'.cache.entries.len < s.cache.entries.len := by
  rcases cacheEvictTurn_spec hs.inv with
    ⟨hdone, _⟩ | ⟨x, xs, w₁, hseq, hturn₁, hinv₁, hquiet₁, hwrs₁, hover, hlimit₁⟩
  · simp [hdone] at hturn
  · rw [hturn₁, Sum.inl.injEq] at hturn
    subst hturn
    have hxs : seq.drop (k + 1) = xs := by rw [← List.tail_drop, hseq, List.tail_cons]
    refine ⟨⟨by rw [hxs]; exact hinv₁, hs.quiet.trans CacheEntry.buf_of_body hquiet₁,
      hwrs₁.trans hs.wrs_eq, hlimit₁.trans hs.sizeLimit_eq, ?_⟩, ?_⟩
    · intro j hj
      rcases Nat.lt_succ_iff_lt_or_eq.mp hj with hlt | rfl
      · exact hs.shortest j hlt
      · rwa [hs.size_eq h, hs.sizeLimit_eq] at hover
    · rw [hinv₁.repr.len_eq, hs.inv.repr.len_eq, hseq]
      simp

/-- Eviction ends, keeps the invariant, and takes no more than it has to. -/
theorem cacheEvictIfNecessary_spec (h : CacheInv w seq held) :
    ∃ w' k, w.cacheEvictIfNecessary = some w' ∧ CacheInv w' (seq.drop k) held ∧
      Quiet CacheEntry.body w w' ∧ w'.wrs = w.wrs ∧ Evicted w seq k ∧
      w'.cache.sizeLimit = w.cache.sizeLimit := by
  have hstep : ∀ s s' : World, (∃ k, Evicting w seq held k s) → s.cacheEvictTurn = .inl s' →
      (∃ k, Evicting w seq held k s') ∧ s'.cache.entries.len < s.cache.entries.len := by
    rintro s s' ⟨k, hs⟩ hturn
    obtain ⟨hs', hlt⟩ := hs.turn h hturn
    exact ⟨⟨k + 1, hs'⟩, hlt⟩
  have hdone : ∀ (s : World) (r : Option World), (∃ k, Evicting w seq held k s) →
      s.cacheEvictTurn = .inr r → ∃ w' k, r = some w' ∧ Evicting w seq held k w' ∧
        w'.cache.currentSize ≤ w'.cache.sizeLimit := by
    rintro s r ⟨k, hs⟩ hturn
    rcases cacheEvictTurn_spec hs.inv with ⟨hdone, hfits⟩ | ⟨_, _, _, _, hturn₁, _⟩
    · rw [hdone, Sum.inr.injEq] at hturn
      exact ⟨s, k, hturn.symm, hs, hfits⟩
    · simp [hturn₁] at hturn
  have hstart : ∃ k, Evicting w seq held k w :=
    ⟨0, by simpa using h, .of_rds_eq (.of_arcs_eq _ rfl rfl) rfl, rfl, rfl, by simp⟩
  obtain ⟨r, hr⟩ := Option.isSome_iff_exists.mp (Iterate.iterate_isSome
    (fun s : World => s.cache.entries.len) hstep (w.cache.entries.len + 1) w hstart (by simp))
  obtain ⟨w', k, rfl, hs, hfits⟩ := Iterate.iterate_invariant
    (fun s s' hs hturn => (hstep s s' hs hturn).1) hdone _ w r hstart hr
  refine ⟨w', k, by simp [World.cacheEvictIfNecessary, hr], hs.inv, hs.quiet, hs.wrs_eq,
    ⟨?_, hs.shortest⟩, hs.sizeLimit_eq⟩
  rwa [hs.size_eq h, hs.sizeLimit_eq] at hfits

end Remove

/-! ## Fetching -/

section Fetch

variable {w : World} {seq : List (ℕ × ℕ)} {held : List ℕ} {node a : ℕ}

/-- The list may be put into another order. -/
theorem CacheInv.reorder {nodes : Heap (DlistNode ℕ)} {entries : Dlist} {seq' : List (ℕ × ℕ)}
    (h : CacheInv w seq held) (hrepr : Dlist.Represents nodes entries seq')
    (hperm : seq'.Perm seq) :
    CacheInv { w with nodes := nodes, cache := { w.cache with entries := entries } } seq' held := by
  refine ⟨⟨hrepr, h.map_wf, h.rehashing_eq, ?_, ?_, ?_, h.fresh, ?_⟩, ?_⟩
  · intro url n hmem
    obtain ⟨b, e, hseq, he, hurl⟩ := h.bound hmem
    exact ⟨b, e, hperm.mem_iff.mpr hseq, he, hurl⟩
  · intro n b hmem
    exact h.stored (hperm.mem_iff.mp hmem)
  · intro b e he hcommitted hlink
    exact (hperm.map Prod.snd).mem_iff.mpr (h.linked he hcommitted hlink)
  · have hsum := (hperm.map fun x : ℕ × ℕ => w.bufLen x.2).sum_nat
    exact h.size_eq.trans hsum.symm
  · refine RefInv.congr (h.toRefInv.move fun b => ?_) rfl rfl rfl
    rw [(hperm.map Prod.snd).count_eq]

theorem CacheEntry.content_of_body {e e' : CacheEntry} (h : e.body = e'.body) :
    e.content = e'.content :=
  Prod.ext (CacheEntry.buf_of_body h).1 (CacheEntry.buf_of_body h).2

def World.boundEntry (w : World) (url : Url) : Option ℕ := do
  let node ← (w.cache.map.get urlHashFns url).join
  Dlist.get w.nodes node

/-- A fetch of the URL finds no entry, or an invalid one. -/
def World.misses (w : World) (url : Url) : Bool :=
  ((w.boundEntry url).bind w.entry).all fun e => e.state = .entryInvalid

theorem IndexInv.boundEntry_cases (h : IndexInv w seq) (url : Url) :
    (∃ n a e, (n, a) ∈ seq ∧ w.entry a = some e ∧ urlHashFns.eq url e.url = true ∧
      w.cache.map.get urlHashFns url = some (some n) ∧ w.boundEntry url = some a) ∨
    (Hash.Absent urlHashFns w.cache.map url ∧
      w.cache.map.get urlHashFns url = some none ∧ w.boundEntry url = none) := by
  rcases Hash.get_cases urlHashFns_lawful h.map_wf url with
    ⟨url', n, hbound, heq, hfound⟩ | ⟨habsent, hfound⟩
  · obtain ⟨a, e, hmem, he, rfl⟩ := h.bound hbound
    exact .inl ⟨n, a, e, hmem, he, heq, hfound,
      by simp [World.boundEntry, hfound, h.repr.get_eq hmem]⟩
  · exact .inr ⟨habsent, hfound, by simp [World.boundEntry, hfound]⟩

theorem IndexInv.boundEntry_eq_some_iff (h : IndexInv w seq) {url : Url} :
    w.boundEntry url = some a ↔
      ∃ n e, (n, a) ∈ seq ∧ w.entry a = some e ∧ urlHashFns.eq url e.url = true := by
  constructor
  · intro hbound
    rcases h.boundEntry_cases url with ⟨n, b, e, hmem, he, heq, _, hbound'⟩ | ⟨_, _, hbound'⟩
    · rw [hbound', Option.some.injEq] at hbound
      subst hbound
      exact ⟨n, e, hmem, he, heq⟩
    · simp [hbound'] at hbound
  · rintro ⟨n, e, hmem, he, heq⟩
    obtain ⟨e₁, he₁, hbinding, _⟩ := h.stored hmem
    rw [he, Option.some.injEq] at he₁
    subst he₁
    rcases h.boundEntry_cases url with ⟨n', b, e', hmem', he', heq', _, hbound⟩ | ⟨habsent, _⟩
    · -- the nodes of equal URLs are the same
      obtain ⟨e₁, he₁, hbinding', _⟩ := h.stored hmem'
      rw [he', Option.some.injEq] at he₁
      subst he₁
      have heq₁ := urlHashFns_lawful.eq_trans _ _ _ (urlHashFns_lawful.eq_symm _ _ heq) heq'
      have hnn := (h.map_wf.value_unique hbinding hbinding' heq₁).2
      subst hnn
      rw [hbound, h.repr.value_unique hmem' hmem]
    · rw [habsent _ _ hbinding] at heq
      simp at heq

inductive FetchOutcome (w : World) (seq : List (ℕ × ℕ)) (url : Url) :
    Except Error (ℕ × Option ℕ) → World → List (ℕ × ℕ) → Prop
  | miss {k : ℕ} {w₁ w' : World} {result : Except Error (ℕ × ℕ)} (hmiss : w.misses url = true)
      (hevict : w.cacheEvictIfNecessary = some w₁) (hevicted : Evicted w seq k)
      (hrepr : Dlist.Represents w₁.nodes w₁.cache.entries (seq.drop k))
      (hsize : w₁.cache.currentSize ≤ w₁.cache.sizeLimit) (hcache : w'.cache = w₁.cache)
      (hcreated : Created w url w.wrs.next result w') :
      FetchOutcome w seq url (result.map fun p => (p.1, some p.2)) w' (seq.drop k)
  | refused {w' : World} {err : Error} (hhit : w.misses url = false) (hwrs : w'.wrs = w.wrs) :
      FetchOutcome w seq url (.error err) w' seq
  | hit {xs ys : List (ℕ × ℕ)} {n a rd : ℕ} {w' : World} (hhit : w.misses url = false)
      (hwrs : w'.wrs = w.wrs) (hbound : w.boundEntry url = some a)
      (hseq : seq = xs ++ (n, a) :: ys) :
      FetchOutcome w seq url (.ok (rd, none)) w' (xs ++ ys ++ [(n, a)])

/-- An entry that is created after an eviction. -/
theorem evict_create_spec (alloc : Alloc) (url : Url) (h : CacheInv w seq held)
    (hmiss : w.misses url = true) :
    ∃ w₁ result w' seq', w.cacheEvictIfNecessary = some w₁ ∧
      w₁.cacheCreateEntry alloc url = some (result, w') ∧ CacheInv w' seq' held ∧
      Quiet CacheEntry.body w w' ∧
      FetchOutcome w seq url (result.map fun p => (p.1, some p.2)) w' seq' := by
  obtain ⟨w₁, k, hevict, hinv₁, hquiet₁, hwrs₁, hevicted, hlimit₁⟩ := cacheEvictIfNecessary_spec h
  obtain ⟨result, w₂, hcreate, href₂, hkept₂, hcreated⟩ :=
    cacheCreateEntry_spec alloc url hinv₁.toRefInv
  refine ⟨w₁, result, w₂, seq.drop k, hevict, hcreate, hinv₁.of_kept href₂ hkept₂,
    hquiet₁.trans CacheEntry.buf_of_body (hkept₂.toQuiet.mono fun _ _ => CacheEntry.body_of_core),
    .miss hmiss hevict hevicted hinv₁.repr ?_ hkept₂.cache_eq
      ⟨?_, ?_, ?_, by rw [← hwrs₁]; exact hcreated.handle⟩⟩
  · have hsize : w₁.listedSize (seq.drop k) = w.listedSize (seq.drop k) := by
      refine hquiet₁.listedSize_eq (fun hmem => ?_) fun hmem => ?_
      · obtain ⟨e, he, _⟩ := h.stored (List.mem_of_mem_drop hmem)
        exact ⟨e, he⟩
      · obtain ⟨e, he, _⟩ := hinv₁.stored hmem
        exact ⟨e, he⟩
    rw [hinv₁.size_eq, hsize, hlimit₁]
    exact hevicted.fits
  · rw [← hwrs₁]
    exact hcreated.wrs_le
  · intro i a hi
    refine hcreated.kept ?_
    rwa [World.wrEntry, hwrs₁]
  · intro i a hi
    rcases hcreated.wrEntry hi with hi | ⟨hresult, hle⟩
    · rw [World.wrEntry, hwrs₁] at hi
      exact .inl hi
    · exact .inr ⟨hresult, hquiet₁.arcs_le.trans hle⟩

theorem cacheCreateHandle_spec {e : CacheEntry} (alloc : Alloc) (url : Url)
    (h : CacheInv w seq held) (hmem : (node, a) ∈ seq) (he : w.entry a = some e)
    (hbound : w.boundEntry url = some a) :
    ∃ result w' seq', w.cacheCreateHandle alloc node url = some (result, w') ∧
      CacheInv w' seq' held ∧ Quiet CacheEntry.body w w' ∧
      FetchOutcome w seq url result w' seq' := by
  obtain ⟨arc, ha, rfl⟩ := World.get_of_entry he
  have hnode := h.repr.get_eq hmem
  have hget := h.toRefInv.arcGet_eq ha
  by_cases hstate : arc.data.state = .entryInvalid
  · have hmiss : w.misses url = true := by simp [World.misses, hbound, he, hstate]
    obtain ⟨w₁, result, w', seq', hevict, hcreate, hinv', hquiet', houtcome⟩ :=
      evict_create_spec alloc url h hmiss
    refine ⟨result.map fun p => (p.1, some p.2), w', seq', ?_, hinv', hquiet', houtcome⟩
    simp [World.cacheCreateHandle, hnode, hget, hstate, hevict, hcreate]
  · have hhit : w.misses url = false := by simp [World.misses, hbound, he, hstate]
    obtain ⟨w₁, hshare, href₁, hkept₁, _, hwrs₁, _, hentry₁⟩ := arcShare_spec h.toRefInv ⟨arc, ha⟩
    obtain ⟨result, w₂, hnew, href₂, hkept₂, hwrs₂⟩ :=
      cacheEntryNewRdUnsync_spec alloc href₁ (by
        intro e' he'
        rw [hentry₁, he, Option.some.injEq] at he'
        rwa [← he'])
    have hkept := hkept₁.trans hkept₂
    have hinv₂ := h.of_kept href₂ hkept
    have hquiet := hkept.toQuiet.mono fun _ _ => CacheEntry.body_of_core
    have hwrs := hwrs₂.trans hwrs₁
    cases result with
    | error err =>
        refine ⟨.error err, w₂, seq, ?_, hinv₂, hquiet, .refused hhit hwrs⟩
        simp [World.cacheCreateHandle, hnode, hget, hstate, hshare, hnew]
    | ok rd =>
        obtain ⟨xs, ys, rfl⟩ := List.append_of_mem hmem
        obtain ⟨nodes, entries, hmove, hrepr⟩ := hinv₂.repr.moveBefore_none_spec
        have hperm : (xs ++ ys ++ [(node, a)]).Perm (xs ++ (node, a) :: ys) := by
          rw [List.append_assoc]
          exact (List.perm_append_singleton _ _).append_left xs
        refine ⟨.ok (rd, none), _, _, ?_, hinv₂.reorder hrepr hperm,
          hquiet.trans CacheEntry.buf_of_body (.of_rds_eq (.of_arcs_eq _ rfl rfl) rfl),
          .hit hhit hwrs hbound rfl⟩
        simp [World.cacheCreateHandle, hnode, hget, hstate, hshare, hnew, hmove]

theorem cacheFetch_spec (alloc : Alloc) (url : Url) (h : CacheInv w seq held) :
    ∃ result w' seq', w.cacheFetch alloc url = some (result, w') ∧ CacheInv w' seq' held ∧
      Quiet CacheEntry.body w w' ∧ FetchOutcome w seq url result w' seq' := by
  rcases h.boundEntry_cases url with ⟨n, a, e, hmem, he, _, hfound, hbound⟩ | ⟨_, hfound, hbound⟩
  · obtain ⟨result, w', seq', hrun, hinv', hquiet', houtcome⟩ :=
      cacheCreateHandle_spec alloc url h hmem he hbound
    exact ⟨result, w', seq', by simp [World.cacheFetch, hfound, hrun], hinv', hquiet', houtcome⟩
  · have hmiss : w.misses url = true := by simp [World.misses, hbound]
    obtain ⟨w₁, result, w', seq', hevict, hcreate, hinv', hquiet', houtcome⟩ :=
      evict_create_spec alloc url h hmiss
    refine ⟨result.map fun p => (p.1, some p.2), w', seq', ?_, hinv', hquiet', houtcome⟩
    simp [World.cacheFetch, hfound, hevict, hcreate]

end Fetch

end PosixThreads
