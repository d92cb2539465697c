import PosixThreads.Waxy.Cache.Stream

/-!
# Which entry a URL is bound to

A commit binds the URL of an entry to it. The header says that an entry which is already
bound is replaced if the new one has more written data. The code compares the other way
round: it keeps the stored entry if that one is shorter. An invalid entry is treated like
any other.
-/

namespace PosixThreads

section Bound

variable {alloc : Alloc} {w w' : World} {seq seq' : List (ℕ × ℕ)} {hist : List CacheStep}
  {url : Url} {a wr : ℕ} {e : CacheEntry}

theorem IndexInv.boundEntry_of_eq {url' : Url} (h : IndexInv w seq)
    (heq : urlEq url url' = true) : w.boundEntry url = w.boundEntry url' := by
  refine Option.ext fun b => ?_
  rw [h.boundEntry_eq_some_iff, h.boundEntry_eq_some_iff]
  constructor
  · rintro ⟨n, e, hmem, he, hurl⟩
    exact ⟨n, e, hmem, he,
      urlHashFns_lawful.eq_trans _ _ _ (urlHashFns_lawful.eq_symm _ _ heq) hurl⟩
  · rintro ⟨n, e, hmem, he, hurl⟩
    exact ⟨n, e, hmem, he, urlHashFns_lawful.eq_trans _ _ _ heq hurl⟩

theorem Traced.url_eq {op : CacheOp} {e' : CacheEntry} (htraced : Traced w op w')
    (he : w.entry a = some e) (he' : w'.entry a = some e') : e'.url = e.url := by
  obtain ⟨e₁, he₁, heq⟩ := htraced.urls.entry_of_lt (World.entry_lt_next he) he'
  rw [he, Option.some.injEq] at he₁
  rw [he₁]
  exact heq

theorem Traced.boundEntry {op : CacheOp} {b n : ℕ} (htraced : Traced w op w')
    (h : IndexInv w seq) (h' : IndexInv w' seq') (hbound : w.boundEntry url = some b)
    (hmem' : (n, b) ∈ seq') : w'.boundEntry url = some b := by
  obtain ⟨_, e, _, he, hurl⟩ := h.boundEntry_eq_some_iff.mp hbound
  obtain ⟨e', he', _⟩ := h'.stored hmem'
  refine h'.boundEntry_eq_some_iff.mpr ⟨n, e', hmem', he', ?_⟩
  rw [htraced.url_eq he he']
  exact hurl

theorem Traced.boundEntry_congr {op : CacheOp} (htraced : Traced w op w') (h : IndexInv w seq)
    (h' : IndexInv w' seq')
    (hmem : ∀ n b e, w.entry b = some e → urlEq url e.url = true →
      ((n, b) ∈ seq' ↔ (n, b) ∈ seq))
    (hold : ∀ n b, (n, b) ∈ seq' → ∃ e, w.entry b = some e) :
    w'.boundEntry url = w.boundEntry url := by
  refine Option.ext fun b => ?_
  constructor
  · intro hbound
    obtain ⟨n, e', hmem', he', hurl⟩ := h'.boundEntry_eq_some_iff.mp hbound
    obtain ⟨e, he⟩ := hold n b hmem'
    rw [htraced.url_eq he he'] at hurl
    exact h.boundEntry_eq_some_iff.mpr ⟨n, e, (hmem n b e he hurl).mp hmem', he, hurl⟩
  · intro hbound
    obtain ⟨n, e, hseq, he, hurl⟩ := h.boundEntry_eq_some_iff.mp hbound
    exact htraced.boundEntry h h' hbound ((hmem n b e he hurl).mpr hseq)

/-- What a commit that returns no error does to an entry that is not committed yet. -/
theorem RunInv.commit (h : RunInv w seq) (hwr : w.wrEntry wr = some a)
    (he : w.entry a = some e) {err : Option Error}
    (hcommit : w.cacheWrCommit alloc wr = some (err, w')) :
    ∃ seq', RunInv w' seq' ∧ CommitOutcome w seq a e err w' seq' ∧
      Traced w (.commit wr) w' ∧ w'.wrs = w.wrs := by
  have hexec : w.exec alloc (.commit wr) = some (.silent, w') := by simp [World.exec, hcommit]
  obtain ⟨⟨seq', hinv', hout⟩, _, htraced⟩ := h.step hexec
  cases hout with
  | @commit _ a₁ e₁ err₁ _ _ hwr₁ he₁ hwrs hrun hout =>
      rw [hwr, Option.some.injEq] at hwr₁
      subst hwr₁
      rw [he, Option.some.injEq] at he₁
      subst he₁
      rw [hcommit, Option.some.injEq, Prod.mk.injEq] at hrun
      obtain ⟨rfl, _⟩ := hrun
      exact ⟨seq', hinv', hout, htraced, hwrs⟩
  | other _ hother _ _ => exact absurd rfl (hother wr)

theorem Traced.boundEntry_listed {op : CacheOp} {n : ℕ} (htraced : Traced w op w')
    (h' : IndexInv w' seq') (he : w.entry a = some e) (hmem' : (n, a) ∈ seq') :
    w'.boundEntry e.url = some a := by
  obtain ⟨e', he', _⟩ := h'.stored hmem'
  refine h'.boundEntry_eq_some_iff.mpr ⟨n, e', hmem', he', ?_⟩
  rw [htraced.url_eq he he']
  exact urlHashFns_lawful.eq_refl _

/-- The URL of a new entry is bound to it, unless a shorter entry is stored. -/
theorem commit_cases (h : RunInv w seq) (hwr : w.wrEntry wr = some a) (he : w.entry a = some e)
    (hfresh : e.committed = false) (hcommit : w.cacheWrCommit alloc wr = some (none, w')) :
    (w.boundEntry e.url = none ∧ w'.boundEntry e.url = some a) ∨
    ∃ s stored, w.boundEntry e.url = some s ∧ w.entry s = some stored ∧ s ≠ a ∧
      ((stored.buf.length < e.buf.length ∧ w' = w) ∨
        (e.buf.length ≤ stored.buf.length ∧ w'.boundEntry e.url = some a)) := by
  obtain ⟨seq', hinv', hout, htraced, _⟩ := h.commit hwr he hcommit
  have hother : ∀ {s : ℕ}, w.boundEntry e.url = some s → s ≠ a := by
    intro s hbound
    obtain ⟨n, _, hmem, _⟩ := h.boundEntry_eq_some_iff.mp hbound
    obtain ⟨arc, ha, rfl⟩ := World.get_of_entry he
    exact h.ne_of_committed ha hfresh hmem
  generalize herr : (none : Option Error) = err at hout
  cases hout with
  | committed hcommitted => simp [hfresh] at hcommitted
  | @kept s stored _ hbound hstored hlt =>
      exact .inr ⟨s, stored, hbound, hstored, hother hbound, .inl ⟨hlt, rfl⟩⟩
  | refused => simp at herr
  | listed _ hfree =>
      have hbound' := htraced.boundEntry_listed hinv'.toIndexInv he
        (List.mem_append_right _ (List.mem_singleton_self _))
      exact .inl ⟨hfree, hbound'⟩
  | dropped => simp at herr
  | @replaced xs ys n p s stored _ _ hbound hstored hle hseq =>
      have hbound' := htraced.boundEntry_listed hinv'.toIndexInv he
        (List.mem_append_right _ (List.mem_singleton_self _))
      exact .inr ⟨s, stored, hbound, hstored, hother hbound, .inr ⟨hle, hbound'⟩⟩

theorem commit_others (h : RunInv w seq) (hwr : w.wrEntry wr = some a) (he : w.entry a = some e)
    (hcommit : w.cacheWrCommit alloc wr = some (none, w')) (hurl : urlEq url e.url = false) :
    w'.boundEntry url = w.boundEntry url := by
  obtain ⟨seq', hinv', hout, htraced, _⟩ := h.commit hwr he hcommit
  have hlive : ∀ {n b : ℕ}, (n, b) ∈ seq → ∃ e, w.entry b = some e := by
    intro n b hmem
    obtain ⟨e, he, _⟩ := h.stored hmem
    exact ⟨e, he⟩
  have hnot : ∀ {e₁ : CacheEntry}, w.entry a = some e₁ → urlEq url e₁.url ≠ true := by
    intro e₁ he₁
    rw [he, Option.some.injEq] at he₁
    simp [← he₁, hurl]
  generalize herr : (none : Option Error) = err at hout
  cases hout with
  | committed | kept => rfl
  | refused | dropped => simp at herr
  | @listed n _ _ hfree =>
      refine htraced.boundEntry_congr h.toIndexInv hinv'.toIndexInv ?_ ?_
      · intro m b e₁ he₁ hurl₁
        have hne : b ≠ a := by
          rintro rfl
          exact hnot he₁ hurl₁
        simp [hne]
      · intro m b hmem
        rcases List.mem_append.mp hmem with hmem | hmem
        · exact hlive hmem
        · simp only [List.mem_singleton, Prod.mk.injEq] at hmem
          exact ⟨e, by rw [hmem.2, he]⟩
  | @replaced xs ys n p s stored _ _ hbound hstored hle hseq =>
      refine htraced.boundEntry_congr h.toIndexInv hinv'.toIndexInv ?_ ?_
      · intro m b e₁ he₁ hurl₁
        have hne : b ≠ a := by
          rintro rfl
          exact hnot he₁ hurl₁
        have hne' : b ≠ s := by
          -- the stored entry has the URL of the new one
          rintro rfl
          obtain ⟨_, e₂, _, he₂, hurl₂⟩ := h.boundEntry_eq_some_iff.mp hbound
          rw [he₁, Option.some.injEq] at he₂
          subst he₂
          have hurl₃ := urlHashFns_lawful.eq_trans _ _ _ hurl₁
            (urlHashFns_lawful.eq_symm _ _ hurl₂)
          rw [show urlHashFns.eq url e.url = urlEq url e.url from rfl, hurl] at hurl₃
          simp at hurl₃
        simp [hseq, hne, hne']
      · intro m b hmem
        rcases List.mem_append.mp hmem with hmem | hmem
        · exact hlive (by rw [hseq]; exact mem_of_mem_without hmem p s)
        · simp only [List.mem_singleton, Prod.mk.injEq] at hmem
          exact ⟨e, by rw [hmem.2, he]⟩

/-! ## The header of `cache_wr_commit` -/

/-- "If there already is an entry for this resource, it will be replaced if this entry has
more written data." -/
structure CommitSound (w : World) (a : ℕ) (e : CacheEntry) (w' : World) : Prop where
  listed : w.boundEntry e.url = none → w'.boundEntry e.url = some a
  replaced : ∀ s stored, w.boundEntry e.url = some s → w.entry s = some stored →
    w'.boundEntry e.url = if stored.buf.length < e.buf.length then some a else some s
  others : ∀ url, urlEq url e.url = false → w'.boundEntry url = w.boundEntry url

theorem CommitSound.free (hsound : CommitSound w a e w') (hinv : RunInv w seq)
    (hwr : w.wrEntry wr = some a) (he : w.entry a = some e) (hfresh : e.committed = false)
    (hcommit : w.cacheWrCommit alloc wr = some (none, w')) : w.boundEntry e.url = none := by
  rcases commit_cases hinv hwr he hfresh hcommit with
    ⟨hfree, _⟩ | ⟨s, stored, hbound, hstored, hne, ⟨hlt, rfl⟩ | ⟨hle, hbound'⟩⟩
  · exact hfree
  · have hreplaced := hsound.replaced s stored hbound hstored
    rw [if_pos hlt, hbound, Option.some.injEq] at hreplaced
    exact absurd hreplaced hne
  · have hreplaced := hsound.replaced s stored hbound hstored
    rw [if_neg (by omega), hbound', Option.some.injEq] at hreplaced
    exact absurd hreplaced.symm hne

/-- The code does so only if there is nothing to compare with. -/
theorem commitSound_iff (hrun : Run alloc hist w) (hwr : w.wrEntry wr = some a)
    (he : w.entry a = some e) (hfresh : e.committed = false)
    (hcommit : w.cacheWrCommit alloc wr = some (none, w')) :
    CommitSound w a e w' ↔ w.boundEntry e.url = none := by
  obtain ⟨seq, hinv⟩ := hrun.inv
  constructor
  · intro hsound
    exact hsound.free hinv hwr he hfresh hcommit
  · intro hfree
    rcases commit_cases hinv hwr he hfresh hcommit with ⟨_, hbound'⟩ | ⟨s, _, hbound, _⟩
    · refine ⟨fun _ => hbound', fun s stored hbound => ?_,
        fun url hurl => commit_others hinv hwr he hcommit hurl⟩
      simp [hfree] at hbound
    · simp [hfree] at hbound

/-- A commit of an entry that is not committed yet, if it returns no error. -/
def World.freshCommit (alloc : Alloc) (w : World) (wr : ℕ) : Option (ℕ × CacheEntry × World) := do
  let a ← w.wrEntry wr
  let e ← w.entry a
  match ← w.cacheWrCommit alloc wr with
  | (none, w') => if e.committed then none else return (a, e, w')
  | (some _, _) => none

theorem freshCommit_eq_some (h : w.freshCommit alloc wr = some (a, e, w')) :
    w.wrEntry wr = some a ∧ w.entry a = some e ∧ e.committed = false ∧
      w.cacheWrCommit alloc wr = some (none, w') := by
  simp only [World.freshCommit, Option.bind_eq_bind, Option.bind_eq_some_iff] at h
  obtain ⟨b, hwr, e', he, ⟨err, w₁⟩, hcommit, h⟩ := h
  cases err with
  | some err => simp at h
  | none =>
      cases hcommitted : e'.committed with
      | true => simp [hcommitted] at h
      | false =>
          simp only [hcommitted, Bool.false_eq_true, if_false, Option.pure_def, Option.some.injEq,
            Prod.mk.injEq] at h
          obtain ⟨rfl, rfl, rfl⟩ := h
          exact ⟨hwr, he, hcommitted, hcommit⟩

theorem exists_freshCommit (alloc : Alloc) (sizeLimit : ℕ) (ops : List CacheOp) (wr : ℕ)
    (P : List CacheStep → World → ℕ → CacheEntry → World → Bool)
    (htest : ((cacheRun alloc sizeLimit ops).any fun x =>
      (x.2.freshCommit alloc wr).any fun y => P x.1 x.2 y.1 y.2.1 y.2.2) = true) :
    ∃ hist w a e w', Run alloc hist w ∧ w.wrEntry wr = some a ∧ w.entry a = some e ∧
      e.committed = false ∧ w.cacheWrCommit alloc wr = some (none, w') ∧
      P hist w a e w' = true := by
  obtain ⟨hist, w, hrun, hcommit⟩ := exists_run alloc sizeLimit ops
    (fun hist w => (w.freshCommit alloc wr).any fun y => P hist w y.1 y.2.1 y.2.2) htest
  cases hfresh : w.freshCommit alloc wr with
  | none => simp [hfresh] at hcommit
  | some y =>
      obtain ⟨a, e, w'⟩ := y
      obtain ⟨hwr, he, hcommitted, hrun'⟩ := freshCommit_eq_some hfresh
      exact ⟨hist, w, a, e, w', hrun, hwr, he, hcommitted, hrun', by simpa [hfresh] using hcommit⟩

theorem commitSound_first_entry : ∃ hist w a e w', Run (fun _ => true) hist w ∧
    w.wrEntry 0 = some a ∧ w.entry a = some e ∧
    w.cacheWrCommit (fun _ => true) 0 = some (none, w') ∧ CommitSound w a e w' := by
  obtain ⟨hist, w, a, e, w', hrun, hwr, he, hfresh, hcommit, hfree⟩ :=
    exists_freshCommit (fun _ => true) 10 [.fetch ⟨.initial, []⟩, .write 0 [97]] 0
      (fun _ w _ e _ => w.boundEntry e.url = none) (by decide +kernel)
  exact ⟨hist, w, a, e, w', hrun, hwr, he, hcommit,
    (commitSound_iff hrun hwr he hfresh hcommit).mpr (by simpa using hfree)⟩

/-- Two fetches miss. One entry is committed with one byte, the other one with two. -/
theorem not_commitSound_longer_entry : ∃ hist w a e w', Run (fun _ => true) hist w ∧
    w.wrEntry 1 = some a ∧ w.entry a = some e ∧ e.committed = false ∧
    w.cacheWrCommit (fun _ => true) 1 = some (none, w') ∧ ¬CommitSound w a e w' := by
  obtain ⟨hist, w, a, e, w', hrun, hwr, he, hfresh, hcommit, hbound⟩ :=
    exists_freshCommit (fun _ => true) 10
      [.fetch ⟨.initial, []⟩, .fetch ⟨.initial, []⟩, .write 0 [97], .commit 0, .write 1 [97, 98]] 1
      (fun _ w _ e _ => (w.boundEntry e.url).isSome) (by decide +kernel)
  refine ⟨hist, w, a, e, w', hrun, hwr, he, hfresh, hcommit, fun hsound => ?_⟩
  obtain ⟨seq, hinv⟩ := hrun.inv
  simp [hsound.free hinv hwr he hfresh hcommit] at hbound

end Bound

/-! ## Write handles along a run -/

/-- The entry of a live write handle is not invalid, it has no other handle, and its URL is
the one of the fetch that returned the handle. -/
structure WriterInv (alloc : Alloc) (hist : List CacheStep) (w : World) : Prop where
  valid : ∀ {i a : ℕ} {e : CacheEntry}, w.wrEntry i = some a → w.entry a = some e →
    e.state ≠ .entryInvalid
  unique : ∀ {i j a : ℕ}, w.wrEntry i = some a → w.wrEntry j = some a → i = j
  origin : ∀ {s : CacheStep} {url : Url} {rd i : ℕ} {w₁ : World}, s ∈ hist → s.op = .fetch url →
    s.before.cacheFetch alloc url = some (.ok (rd, some i), w₁) →
    i < w.wrs.next ∧ ∀ {a : ℕ} {e : CacheEntry}, w.wrEntry i = some a → w.entry a = some e →
      e.url = url

section Writers

variable {alloc : Alloc} {w w' : World} {seq seq' : List (ℕ × ℕ)} {hist : List CacheStep}
  {s : CacheStep}

theorem WriterInv.of_subset (h : WriterInv alloc hist w) (href : RefInv w (seq.map Prod.snd) [])
    (htraced : Traced w s.op w') (hle : w.wrs.next ≤ w'.wrs.next)
    (hwrs : ∀ {i a : ℕ}, w'.wrEntry i = some a → w.wrEntry i = some a)
    (hfree : ∀ {i a : ℕ}, w'.wrEntry i = some a → s.op ≠ .wrFree i)
    (hop : ∀ {url : Url} {rd i : ℕ} {w₁ : World}, s.op = .fetch url →
      s.before.cacheFetch alloc url ≠ some (.ok (rd, some i), w₁)) :
    WriterInv alloc (hist ++ [s]) w' := by
  refine ⟨?_, fun hi hj => h.unique (hwrs hi) (hwrs hj), ?_⟩
  · intro i a e' hi he' hstate
    rcases htraced.invalid he' hstate with ⟨e, he, hinvalid⟩ | ⟨j, hop', hj⟩
    · exact h.valid (hwrs hi) he hinvalid
    · -- only the handle of the entry itself could have been freed
      rw [h.unique hj (hwrs hi)] at hop'
      exact hfree hi hop'
  · intro s' url rd i w₁ hs' hfetch hrun
    rcases List.mem_append.mp hs' with hs' | hs'
    · obtain ⟨hlt, hurl⟩ := h.origin hs' hfetch hrun
      refine ⟨hlt.trans_le hle, ?_⟩
      intro a e' hi he'
      obtain ⟨arc, ha⟩ := href.wr_arc (hwrs hi)
      obtain ⟨e, he, heq⟩ := htraced.urls.entry_of_lt (Heap.lt_next_of_get ha) he'
      exact heq.trans (hurl (hwrs hi) he)
    · rw [List.mem_singleton] at hs'
      subst hs'
      exact absurd hrun (hop hfetch)

theorem WriterInv.created {url : Url} {result : Except Error (ℕ × ℕ)} {event : CacheEvent}
    (h : WriterInv alloc hist w) (hinv : RunInv w seq) (htraced : Traced w (.fetch url) w')
    (hrun : w.cacheFetch alloc url = some (result.map fun p => (p.1, some p.2), w'))
    (hcreated : Created w url w.wrs.next result w') :
    WriterInv alloc (hist ++ [⟨w, .fetch url, event⟩]) w' := by
  have hold : ∀ {i a : ℕ}, w.wrEntry i = some a → a < w.arcs.next := by
    intro i a hi
    obtain ⟨arc, ha⟩ := hinv.toRefInv.wr_arc hi
    exact Heap.lt_next_of_get ha
  refine ⟨?_, ?_, ?_⟩
  · intro i a e' hi he' hstate
    rcases htraced.invalid he' hstate with ⟨e, he, hinvalid⟩ | ⟨j, hop, _⟩
    · rcases hcreated.wrEntry hi with hi | ⟨_, hle⟩
      · exact h.valid hi he hinvalid
      · have := World.entry_lt_next he
        omega
    · simp at hop
  · intro i j a hi hj
    rcases hcreated.wrEntry hi with hi | ⟨⟨rd, hok⟩, hle⟩ <;>
      rcases hcreated.wrEntry hj with hj | ⟨⟨rd', hok'⟩, hle'⟩
    · exact h.unique hi hj
    · have := hold hi
      omega
    · have := hold hj
      omega
    · rw [(hcreated.handle hok).1, (hcreated.handle hok').1]
  · intro s' url' rd i w₁ hs' hfetch hrun'
    rcases List.mem_append.mp hs' with hs' | hs'
    · obtain ⟨hlt, hurl⟩ := h.origin hs' hfetch hrun'
      refine ⟨hlt.trans_le hcreated.wrs_le, ?_⟩
      intro a e' hi he'
      rcases hcreated.wrEntry hi with hi | ⟨⟨rd', hok⟩, _⟩
      · obtain ⟨e, he, heq⟩ := htraced.urls.entry_of_lt (hold hi) he'
        exact heq.trans (hurl hi he)
      · have := (hcreated.handle hok).1
        omega
    · rw [List.mem_singleton] at hs'
      subst hs'
      cases hfetch
      rw [hrun, Option.some.injEq, Prod.mk.injEq] at hrun'
      cases result with
      | error err => simp [Except.map] at hrun'
      | ok p =>
          obtain ⟨rd₁, i₁⟩ := p
          simp only [Except.map, Except.ok.injEq, Prod.mk.injEq, Option.some.injEq] at hrun'
          obtain ⟨⟨rfl, rfl⟩, _⟩ := hrun'
          obtain ⟨_, hlt, a, e, hi, he, hurl, _⟩ := hcreated.handle rfl
          refine ⟨hlt, ?_⟩
          intro a' e' hi' he'
          rw [hi, Option.some.injEq] at hi'
          subst hi'
          rw [he, Option.some.injEq] at he'
          rw [← he', hurl]

theorem WriterInv.step {event : CacheEvent} {op : CacheOp} (h : WriterInv alloc hist w)
    (hinv : RunInv w seq) (hout : Outcome alloc w seq op w' seq') (htraced : Traced w op w') :
    WriterInv alloc (hist ++ [⟨w, op, event⟩]) w' := by
  have hsame : ∀ {i a : ℕ}, w'.wrs = w.wrs → w'.wrEntry i = some a → w.wrEntry i = some a := by
    intro i a hwrs hi
    rwa [World.wrEntry, hwrs] at hi
  cases hout with
  | @fetch url result _ _ hrun hout =>
      cases hout with
      | miss _ _ _ _ _ _ hcreated => exact h.created hinv htraced hrun hcreated
      | refused _ hwrs =>
          exact h.of_subset hinv.toRefInv htraced (by rw [hwrs]) (hsame hwrs) (by simp)
            (by intro url' rd i w₁ hop; cases hop; simp [hrun])
      | hit _ hwrs =>
          exact h.of_subset hinv.toRefInv htraced (by rw [hwrs]) (hsame hwrs) (by simp)
            (by intro url' rd i w₁ hop; cases hop; simp [hrun])
  | @commit wr a e err _ _ hwr he hwrs hrun hout =>
      exact h.of_subset hinv.toRefInv htraced (by rw [hwrs]) (hsame hwrs) (by simp) (by simp)
  | @wrFree wr a _ hwr hwrs =>
      refine h.of_subset hinv.toRefInv htraced (by rw [hwrs]; simp) ?_ ?_ (by simp)
      · intro i b hi
        rw [World.wrEntry_eq_some_iff, hwrs] at hi
        exact World.wrEntry_eq_some_iff.mpr (Heap.get_of_get_free hi).2
      · intro i b hi hop
        rw [World.wrEntry_eq_some_iff, hwrs] at hi
        exact (Heap.get_of_get_free hi).1 (by simpa using hop.symm)
  | other hfetch hcommit hfree hwrs =>
      exact h.of_subset hinv.toRefInv htraced (by rw [hwrs]) (hsame hwrs) (fun _ => hfree _)
        (fun hop => absurd hop (hfetch _))

theorem Run.writerInv (hrun : Run alloc hist w) : WriterInv alloc hist w := by
  induction hrun with
  | new hnew =>
      obtain ⟨map, rfl, _⟩ := cacheNew_spec hnew
      exact ⟨by simp [World.wrEntry], by simp [World.wrEntry], by simp⟩
  | step hrun hexec ih =>
      obtain ⟨seq, hinv⟩ := hrun.inv
      obtain ⟨⟨seq', _, hout⟩, _, htraced⟩ := hinv.step hexec
      exact ih.step hinv hout htraced

end Writers

/-! ## Invalid entries -/

def World.boundInvalid (w : World) (url : Url) : Bool :=
  ((w.boundEntry url).bind w.entry).any fun e => e.state = .entryInvalid

def World.fetchedWriter (alloc : Alloc) (w : World) (url : Url) : Option ℕ := do
  match ← w.cacheFetch alloc url with
  | (.ok (_, wr), _) => wr
  | (.error _, _) => none

/-- A write handle comes from a fetch that missed while its URL was bound to an invalid
entry. -/
def fetchedPastInvalid (alloc : Alloc) (hist : List CacheStep) (wr : ℕ) (url : Url) : Bool :=
  hist.any fun s =>
    s.op = .fetch url && s.before.boundInvalid url && s.before.fetchedWriter alloc url = some wr

/-- The ways in which an entry loses its URL: a fetch that misses evicts it, or another
entry for the URL is committed. -/
inductive Unbinds (url : Url) (a : ℕ) (s : CacheStep) : Prop
  | evicted {url' : Url} (hop : s.op = .fetch url') (hmiss : s.before.misses url' = true)
      (hover : s.before.cache.sizeLimit < s.before.cache.currentSize)
  | replaced {wr b : ℕ} {e : CacheEntry} (hop : s.op = .commit wr)
      (hwr : s.before.wrEntry wr = some b) (he : s.before.entry b = some e) (hne : b ≠ a)
      (hurl : urlEq url e.url = true) (hfresh : e.committed = false)

/-- The URL is bound to the entry `a`, which readers can use, and it stays so until the entry
is evicted or replaced. -/
structure Superseded (alloc : Alloc) (url : Url) (a : ℕ) (w : World) : Prop where
  bound : w.boundEntry url = some a
  usable : w.misses url = false
  stays : ∀ later w', Steps alloc w later w' →
    w'.boundEntry url = some a ∨
      ∃ s ∈ later, ∃ w₁, s.before.exec alloc s.op = some (s.event, w₁) ∧
        s.before.boundEntry url = some a ∧ w₁.boundEntry url ≠ some a ∧ Unbinds url a s

section Superseded

variable {alloc : Alloc} {w w' : World} {seq seq' : List (ℕ × ℕ)} {hist : List CacheStep}
  {url : Url} {a wr : ℕ} {e : CacheEntry}

/-- Replacing the entry of a URL takes a commit of another entry for it. -/
theorem Unbinds.of_stored {b : ℕ} {e' : CacheEntry} {event : CacheEvent}
    (h : RunInv w seq) (hwr : w.wrEntry wr = some b) (he' : w.entry b = some e')
    (hfresh : e'.committed = false) (hbound : w.boundEntry url = some a)
    (hbound' : w.boundEntry e'.url = some a) : Unbinds url a ⟨w, .commit wr, event⟩ := by
  obtain ⟨n, e, hmem, he, hurl⟩ := h.boundEntry_eq_some_iff.mp hbound
  obtain ⟨_, e₁, _, he₁, hurl'⟩ := h.boundEntry_eq_some_iff.mp hbound'
  rw [he, Option.some.injEq] at he₁
  subst he₁
  obtain ⟨arc, ha, rfl⟩ := World.get_of_entry he'
  exact .replaced rfl hwr he' (h.ne_of_committed ha hfresh hmem).symm
    (urlHashFns_lawful.eq_trans _ _ _ hurl (urlHashFns_lawful.eq_symm _ _ hurl')) hfresh

/-- A URL keeps its entry in one step, unless the step takes it away. -/
theorem boundEntry_step {op : CacheOp} {event : CacheEvent} (h : RunInv w seq)
    (hexec : w.exec alloc op = some (event, w')) (hbound : w.boundEntry url = some a) :
    w'.boundEntry url = some a ∨ Unbinds url a ⟨w, op, event⟩ := by
  obtain ⟨⟨seq', hinv', hout⟩, _, htraced⟩ := h.step hexec
  obtain ⟨n, e, hmem, he, hurl⟩ := h.boundEntry_eq_some_iff.mp hbound
  have hstays : (n, a) ∈ seq' → w'.boundEntry url = some a :=
    fun hmem' => htraced.boundEntry h.toIndexInv hinv'.toIndexInv hbound hmem'
  cases hout with
  | fetch _ hout =>
      cases hout with
      | @miss k w₁ _ _ hmiss _ hevicted =>
          by_cases hk : k = 0
          · exact .inl (hstays (by rw [hk, List.drop_zero]; exact hmem))
          · have hover := hevicted.shortest 0 (Nat.pos_of_ne_zero hk)
            rw [List.drop_zero, ← h.size_eq] at hover
            exact .inr (.evicted rfl hmiss hover)
      | refused => exact .inl (hstays hmem)
      | hit _ _ _ hseq =>
          refine .inl (hstays ?_)
          simp only [hseq, List.mem_append, List.mem_cons, List.not_mem_nil, or_false] at hmem ⊢
          tauto
  | @commit wr b e' err _ _ hwr he' _ _ hout =>
      -- what is not the stored entry stays in the list
      have hwithout : ∀ {xs ys : List (ℕ × ℕ)} {p s : ℕ}, seq = xs ++ (p, s) :: ys → s ≠ a →
          (n, a) ∈ xs ++ ys := by
        intro xs ys p s hseq hne
        simp only [hseq, List.mem_append, List.mem_cons, Prod.mk.injEq] at hmem ⊢
        rcases hmem with hmem | ⟨_, heq⟩ | hmem
        · exact .inl hmem
        · exact absurd heq.symm hne
        · exact .inr hmem
      cases hout with
      | committed | kept | refused => exact .inl (hstays hmem)
      | listed => exact .inl (hstays (List.mem_append_left _ hmem))
      | @dropped xs ys p s stored err _ hfresh hbound' hstored _ hseq =>
          by_cases hs : s = a
          · rw [hs] at hbound'
            exact .inr (.of_stored h hwr he' hfresh hbound hbound')
          · exact .inl (hstays (hwithout hseq hs))
      | @replaced xs ys m p s stored _ hfresh hbound' hstored _ hseq =>
          by_cases hs : s = a
          · rw [hs] at hbound'
            exact .inr (.of_stored h hwr he' hfresh hbound hbound')
          · exact .inl (hstays (List.mem_append_left _ (hwithout hseq hs)))
  | wrFree => exact .inl (hstays hmem)
  | other => exact .inl (hstays hmem)

/-- A URL keeps its entry until a step takes it away. -/
theorem boundEntry_steps {later : List CacheStep} (h : RunInv w seq)
    (hbound : w.boundEntry url = some a) (hsteps : Steps alloc w later w') :
    (∃ seq', RunInv w' seq') ∧ (w'.boundEntry url = some a ∨
      ∃ s ∈ later, ∃ w₁, s.before.exec alloc s.op = some (s.event, w₁) ∧
        s.before.boundEntry url = some a ∧ w₁.boundEntry url ≠ some a ∧ Unbinds url a s) := by
  induction hsteps with
  | refl => exact ⟨⟨seq, h⟩, .inl hbound⟩
  | @step hist₁ w₁ w₂ op event hsteps hexec ih =>
      obtain ⟨⟨seq₁, hinv₁⟩, hcases⟩ := ih
      refine ⟨(hinv₁.exec hexec).1, ?_⟩
      rcases hcases with hbound₁ | ⟨s, hs, hlost⟩
      · by_cases hbound₂ : w₂.boundEntry url = some a
        · exact .inl hbound₂
        · rcases boundEntry_step hinv₁ hexec hbound₁ with hstays | hunbinds
          · exact absurd hstays hbound₂
          · have hlast : (⟨w₁, op, event⟩ : CacheStep) ∈ hist₁ ++ [⟨w₁, op, event⟩] := by simp
            exact .inr ⟨⟨w₁, op, event⟩, hlast, w₂, hexec, hbound₁, hbound₂, hunbinds⟩
      · exact .inr ⟨s, List.mem_append_left _ hs, hlost⟩

theorem fetch_of_fetchedWriter (h : w.fetchedWriter alloc url = some wr) :
    ∃ rd w₁, w.cacheFetch alloc url = some (.ok (rd, some wr), w₁) := by
  simp only [World.fetchedWriter, Option.bind_eq_bind, Option.bind_eq_some_iff] at h
  obtain ⟨⟨result, w₁⟩, hfetch, hresult⟩ := h
  cases result with
  | error err => simp at hresult
  | ok p =>
      obtain ⟨rd, i⟩ := p
      exact ⟨rd, w₁, by rw [hfetch, ← hresult]⟩

theorem url_of_past (hrun : Run alloc hist w) (hwr : w.wrEntry wr = some a)
    (he : w.entry a = some e)
    (hpast : fetchedPastInvalid alloc hist wr url = true ∨
      (w.boundInvalid url = true ∧ urlEq url e.url = true)) : urlEq url e.url = true := by
  rcases hpast with hpast | ⟨_, hurl⟩
  · simp only [fetchedPastInvalid, List.any_eq_true, Bool.and_eq_true, decide_eq_true_eq] at hpast
    obtain ⟨s, hs, ⟨hop, _⟩, hwriter⟩ := hpast
    obtain ⟨rd, w₁, hfetch⟩ := fetch_of_fetchedWriter hwriter
    rw [(hrun.writerInv.origin hs hop hfetch).2 hwr he]
    exact urlHashFns_lawful.eq_refl _
  · exact hurl

/-- A commit does nothing for a URL with a shorter entry. -/
theorem Superseded.length_le (hsuper : Superseded alloc url a w') (hinv : RunInv w seq)
    (hwr : w.wrEntry wr = some a) (he : w.entry a = some e) (hfresh : e.committed = false)
    (hcommit : w.cacheWrCommit alloc wr = some (none, w')) (hurl : urlEq url e.url = true)
    {s : ℕ} {stored : CacheEntry} (hbound : w.boundEntry url = some s)
    (hstored : w.entry s = some stored) : e.buf.length ≤ stored.buf.length := by
  have hsame := hinv.boundEntry_of_eq hurl
  rw [hsame] at hbound
  rcases commit_cases hinv hwr he hfresh hcommit with
    ⟨hfree, _⟩ | ⟨s', stored', hbound', hstored', hne, ⟨_, rfl⟩ | ⟨hle, _⟩⟩
  · simp [hfree] at hbound
  · have hmine := hsuper.bound
    rw [hsame, hbound', Option.some.injEq] at hmine
    exact absurd hmine hne
  · rw [hbound', Option.some.injEq] at hbound
    subst hbound
    rw [hstored', Option.some.injEq] at hstored
    rw [← hstored]
    exact hle

/-- A commit for a URL with an invalid entry is in vain exactly if the entry that is bound to
the URL is shorter than the new one. -/
theorem superseded_iff (hrun : Run alloc hist w) (hwr : w.wrEntry wr = some a)
    (he : w.entry a = some e) (hfresh : e.committed = false)
    (hcommit : w.cacheWrCommit alloc wr = some (none, w'))
    (hpast : fetchedPastInvalid alloc hist wr url = true ∨
      (w.boundInvalid url = true ∧ urlEq url e.url = true)) :
    Superseded alloc url a w' ↔ ∀ s stored, w.boundEntry url = some s →
      w.entry s = some stored → e.buf.length ≤ stored.buf.length := by
  obtain ⟨seq, hinv⟩ := hrun.inv
  have hurl := url_of_past hrun hwr he hpast
  constructor
  · intro hsuper s stored hbound hstored
    exact hsuper.length_le hinv hwr he hfresh hcommit hurl hbound hstored
  · intro hcond
    have hexec : w.exec alloc (.commit wr) = some (.silent, w') := by simp [World.exec, hcommit]
    obtain ⟨seq', hinv', _, _, hwrs⟩ := hinv.commit hwr he hcommit
    have hmine : w'.boundEntry url = some a := by
      rw [hinv'.boundEntry_of_eq hurl]
      rcases commit_cases hinv hwr he hfresh hcommit with
        ⟨_, hbound'⟩ | ⟨s, stored, hbound, hstored, _, ⟨hlt, _⟩ | ⟨_, hbound'⟩⟩
      · exact hbound'
      · have := hcond s stored (by rw [hinv.boundEntry_of_eq hurl, hbound]) hstored
        omega
      · exact hbound'
    refine ⟨hmine, ?_, fun later w'' hsteps => (boundEntry_steps hinv' hmine hsteps).2⟩
    -- the entry of a live write handle is not invalid
    have hwr' : w'.wrEntry wr = some a := by rw [World.wrEntry, hwrs]; exact hwr
    obtain ⟨arc, ha⟩ := hinv'.toRefInv.wr_arc hwr'
    have hvalid := (hrun.step hexec).writerInv.valid hwr' (World.entry_of_get ha)
    simp [World.misses, hmine, World.entry_of_get ha, hvalid]

/-- A writer gives up after two bytes, the next one is sent off and commits one. -/
theorem superseded_shorter_entry : ∃ hist w a e w', Run (fun _ => true) hist w ∧
    w.wrEntry 1 = some a ∧ w.entry a = some e ∧
    fetchedPastInvalid (fun _ => true) hist 1 ⟨.initial, []⟩ = true ∧
    w.cacheWrCommit (fun _ => true) 1 = some (none, w') ∧
    Superseded (fun _ => true) ⟨.initial, []⟩ a w' := by
  obtain ⟨hist, w, a, e, w', hrun, hwr, he, hfresh, hcommit, htest⟩ :=
    exists_freshCommit (fun _ => true) 10
      [.fetch ⟨.initial, []⟩, .write 0 [97, 98], .commit 0, .wrFree 0, .fetch ⟨.initial, []⟩,
        .write 1 [97]] 1
      (fun hist w _ e _ => fetchedPastInvalid (fun _ => true) hist 1 ⟨.initial, []⟩ &&
        ((w.boundEntry ⟨.initial, []⟩).bind w.entry).all
          fun stored => e.buf.length ≤ stored.buf.length) (by decide +kernel)
  rw [Bool.and_eq_true] at htest
  refine ⟨hist, w, a, e, w', hrun, hwr, he, htest.1, hcommit,
    (superseded_iff hrun hwr he hfresh hcommit (.inl htest.1)).mpr
      fun s stored hbound hstored => ?_⟩
  simpa [hbound, hstored] using htest.2

/-- A writer gives up after one byte, the next one is sent off and commits two. -/
theorem not_superseded_longer_entry : ∃ hist w a e w', Run (fun _ => true) hist w ∧
    w.wrEntry 1 = some a ∧ w.entry a = some e ∧ e.committed = false ∧
    fetchedPastInvalid (fun _ => true) hist 1 ⟨.initial, []⟩ = true ∧
    w.cacheWrCommit (fun _ => true) 1 = some (none, w') ∧
    w'.boundInvalid ⟨.initial, []⟩ = true ∧
    ¬Superseded (fun _ => true) ⟨.initial, []⟩ a w' := by
  obtain ⟨hist, w, a, e, w', hrun, hwr, he, hfresh, hcommit, htest⟩ :=
    exists_freshCommit (fun _ => true) 10
      [.fetch ⟨.initial, []⟩, .write 0 [97], .commit 0, .wrFree 0, .fetch ⟨.initial, []⟩,
        .write 1 [97, 98]] 1
      (fun hist _ _ _ w' => fetchedPastInvalid (fun _ => true) hist 1 ⟨.initial, []⟩ &&
        w'.boundInvalid ⟨.initial, []⟩) (by decide +kernel)
  rw [Bool.and_eq_true] at htest
  refine ⟨hist, w, a, e, w', hrun, hwr, he, hfresh, htest.1, hcommit, htest.2, fun hsuper => ?_⟩
  -- the entry that is bound now is invalid
  have husable := hsuper.usable
  have hinvalid := htest.2
  cases hbound : (w'.boundEntry ⟨.initial, []⟩).bind w'.entry with
  | none => simp [World.boundInvalid, hbound] at hinvalid
  | some stored =>
      simp only [World.boundInvalid, World.misses, hbound, Option.any_some, Option.all_some]
        at hinvalid husable
      simp [hinvalid] at husable

end Superseded

end PosixThreads
