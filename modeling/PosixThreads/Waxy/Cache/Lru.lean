import PosixThreads.Waxy.Cache.Commit

/-!
# The order of eviction

The list of entries is ordered by the time of their last use, where a use is a fetch that
hits the entry or the commit that puts it into the list. The time of a use is its position
in the history of the run. A fetch that misses takes entries from the front of the list
until the others fit.
-/

namespace PosixThreads

/-- An operation is a successful hit of the entry `a`, or its commit. -/
def CacheStep.uses (alloc : Alloc) (a : ℕ) (s : CacheStep) : Bool :=
  match s.op with
  | .fetch url =>
      match s.before.cacheFetch alloc url with
      | some (.ok (_, none), _) => s.before.boundEntry url = some a
      | _ => false
  | .commit wr =>
      match s.before.freshCommit alloc wr with
      | some (b, _, w') => b = a && (w'.entry a).any (·.committed)
      | none => false
  | _ => false

def lastUse (alloc : Alloc) (hist : List CacheStep) (a : ℕ) : Option ℕ :=
  hist.zipIdx.foldl (fun last x => if x.1.uses alloc a then some x.2 else last) none

theorem lastUse_snoc (alloc : Alloc) (hist : List CacheStep) (s : CacheStep) (a : ℕ) :
    lastUse alloc (hist ++ [s]) a =
      if s.uses alloc a then some hist.length else lastUse alloc hist a := by
  simp [lastUse, List.zipIdx_append]

/-- Both entries have been used, and the last use of `a` is the earlier one. -/
def UsedBefore (alloc : Alloc) (hist : List CacheStep) (a b : ℕ) : Prop :=
  ∃ i j, lastUse alloc hist a = some i ∧ lastUse alloc hist b = some j ∧ i < j

structure LruInv (alloc : Alloc) (hist : List CacheStep) (seq : List (ℕ × ℕ)) : Prop where
  used : ∀ x ∈ seq, ∃ i, lastUse alloc hist x.2 = some i ∧ i < hist.length
  ordered : seq.Pairwise fun x y => UsedBefore alloc hist x.2 y.2

section Order

variable {alloc : Alloc} {hist : List CacheStep} {s : CacheStep} {xs seq seq' : List (ℕ × ℕ)}
  {w w' : World} {a n : ℕ}

/-- Entries leave the list, and none of the others is used. -/
theorem LruInv.sublist (h : LruInv alloc hist seq) (hsub : xs.Sublist seq)
    (hunused : ∀ x ∈ xs, s.uses alloc x.2 = false) : LruInv alloc (hist ++ [s]) xs := by
  have hsame : ∀ x ∈ xs, lastUse alloc (hist ++ [s]) x.2 = lastUse alloc hist x.2 := by
    intro x hx
    simp [lastUse_snoc, hunused x hx]
  refine ⟨?_, ?_⟩
  · intro x hx
    obtain ⟨i, hi, hlt⟩ := h.used x (hsub.subset hx)
    exact ⟨i, (hsame x hx).trans hi, by simp; omega⟩
  · refine (h.ordered.sublist hsub).imp_of_mem fun hx hy hbefore => ?_
    obtain ⟨i, j, hi, hj, hij⟩ := hbefore
    exact ⟨i, j, (hsame _ hx).trans hi, (hsame _ hy).trans hj, hij⟩

theorem LruInv.use (h : LruInv alloc hist seq) (hsub : xs.Sublist seq)
    (huses : ∀ b, s.uses alloc b = decide (b = a)) (hnot : ∀ x ∈ xs, x.2 ≠ a) :
    LruInv alloc (hist ++ [s]) (xs ++ [(n, a)]) := by
  have hxs : LruInv alloc (hist ++ [s]) xs :=
    h.sublist hsub fun x hx => by simp [huses, hnot x hx]
  have ha : lastUse alloc (hist ++ [s]) a = some hist.length := by simp [lastUse_snoc, huses]
  refine ⟨?_, ?_⟩
  · intro x hx
    rcases List.mem_append.mp hx with hx | hx
    · exact hxs.used x hx
    · rw [List.mem_singleton] at hx
      subst hx
      exact ⟨hist.length, ha, by simp⟩
  · refine List.pairwise_append.mpr ⟨hxs.ordered, List.pairwise_singleton _ _, ?_⟩
    intro x hx y hy
    rw [List.mem_singleton] at hy
    subst hy
    obtain ⟨i, hi, hlt⟩ := h.used x (hsub.subset hx)
    refine ⟨i, hist.length, ?_, ha, hlt⟩
    simp [lastUse_snoc, huses, hnot x hx, hi]

theorem sublist_without (xs ys : List (ℕ × ℕ)) (x : ℕ × ℕ) :
    (xs ++ ys).Sublist (xs ++ x :: ys) :=
  (List.Sublist.refl xs).append (List.sublist_cons_self x ys)

/-- A commit uses its entry if that one is committed only afterwards. -/
theorem uses_commit {wr : ℕ} {e : CacheEntry} {err : Option Error} (event : CacheEvent)
    (hwr : w.wrEntry wr = some a) (he : w.entry a = some e)
    (hrun : w.cacheWrCommit alloc wr = some (err, w')) (b : ℕ) :
    CacheStep.uses alloc b ⟨w, .commit wr, event⟩ =
      (err.isNone && !e.committed && (a = b && (w'.entry b).any (·.committed))) := by
  cases err with
  | some err => simp [CacheStep.uses, World.freshCommit, hwr, hrun]
  | none =>
      cases hcommitted : e.committed <;>
        simp [CacheStep.uses, World.freshCommit, hwr, he, hrun, hcommitted]

theorem LruInv.fetch {url : Url} {result : Except Error (ℕ × Option ℕ)} {event : CacheEvent}
    (h : LruInv alloc hist seq) (hinv : RunInv w seq)
    (hrun : w.cacheFetch alloc url = some (result, w'))
    (hout : FetchOutcome w seq url result w' seq') :
    LruInv alloc (hist ++ [⟨w, .fetch url, event⟩]) seq' := by
  cases hout with
  | @miss k w₁ _ result hmiss =>
      refine h.sublist (List.drop_sublist k seq) fun x _ => ?_
      cases result with
      | error err => simp [CacheStep.uses, hrun, Except.map]
      | ok p => simp [CacheStep.uses, hrun, Except.map]
  | refused => exact h.sublist (List.Sublist.refl _) fun x _ => by simp [CacheStep.uses, hrun]
  | @hit xs ys n a rd _ _ _ hbound hseq =>
      subst hseq
      refine h.use (sublist_without xs ys (n, a)) (fun b => ?_)
        fun x hx => (hinv.ne_of_mem_without hx).2
      simp [CacheStep.uses, hrun, hbound, eq_comm]

theorem LruInv.commit {wr : ℕ} {e : CacheEntry} {err : Option Error} {event : CacheEvent}
    (h : LruInv alloc hist seq) (hinv : RunInv w seq) (hinv' : RunInv w' seq')
    (hwr : w.wrEntry wr = some a) (he : w.entry a = some e)
    (hrun : w.cacheWrCommit alloc wr = some (err, w'))
    (hout : CommitOutcome w seq a e err w' seq') :
    LruInv alloc (hist ++ [⟨w, .commit wr, event⟩]) seq' := by
  have huses := uses_commit event hwr he hrun
  -- an entry that has come into the list is committed
  have hused : ∀ {n : ℕ}, err = none → e.committed = false → (n, a) ∈ seq' → ∀ b,
      CacheStep.uses alloc b ⟨w, .commit wr, event⟩ = decide (b = a) := by
    intro n herr hfresh hmem b
    obtain ⟨e', he', _, hcommitted, _⟩ := hinv'.stored hmem
    rw [huses, herr, hfresh]
    by_cases hb : b = a
    · simp [hb, he', hcommitted]
    · simp [hb, Ne.symm hb]
  have hother : ∀ {x : ℕ × ℕ}, e.committed = false → x ∈ seq → x.2 ≠ a := by
    intro x hfresh hx
    obtain ⟨arc, ha, rfl⟩ := World.get_of_entry he
    exact hinv.ne_of_committed ha hfresh hx
  cases hout with
  | committed hcommitted =>
      exact h.sublist (List.Sublist.refl _) fun x _ => by simp [huses, hcommitted]
  | kept hfresh =>
      refine h.sublist (List.Sublist.refl _) fun x hx => ?_
      simp [huses, (hother hfresh hx).symm]
  | refused => exact h.sublist (List.Sublist.refl _) fun x _ => by simp [huses]
  | listed hfresh =>
      exact h.use (List.Sublist.refl _)
        (hused rfl hfresh (List.mem_append_right _ (List.mem_singleton_self _)))
        fun x hx => hother hfresh hx
  | @dropped xs ys p _ _ _ _ _ _ _ _ hseq =>
      subst hseq
      exact h.sublist (sublist_without xs ys _) fun x _ => by simp [huses]
  | @replaced xs ys _ p s _ _ hfresh _ _ _ hseq =>
      subst hseq
      exact h.use (sublist_without xs ys _)
        (hused rfl hfresh (List.mem_append_right _ (List.mem_singleton_self _)))
        fun x hx => hother hfresh (mem_of_mem_without hx p s)

theorem LruInv.step {op : CacheOp} {event : CacheEvent} (h : LruInv alloc hist seq)
    (hinv : RunInv w seq) (hinv' : RunInv w' seq') (hout : Outcome alloc w seq op w' seq') :
    LruInv alloc (hist ++ [⟨w, op, event⟩]) seq' := by
  cases hout with
  | fetch hrun hout => exact h.fetch hinv hrun hout
  | commit hwr he _ hrun hout => exact h.commit hinv hinv' hwr he hrun hout
  | wrFree => exact h.sublist (List.Sublist.refl _) fun x _ => rfl
  | other hfetch hcommit _ _ =>
      refine h.sublist (List.Sublist.refl _) fun x _ => ?_
      cases op with
      | fetch url => exact absurd rfl (hfetch url)
      | commit wr => exact absurd rfl (hcommit wr)
      | write | complete | wrFree | rdFree | read => rfl

theorem Run.lruInv (hrun : Run alloc hist w) : ∃ seq, RunInv w seq ∧ LruInv alloc hist seq := by
  induction hrun with
  | new hnew => exact ⟨[], .new hnew, by simp, List.Pairwise.nil⟩
  | step _ hexec ih =>
      obtain ⟨seq, hinv, hlru⟩ := ih
      obtain ⟨⟨seq', hinv', hout⟩, _⟩ := hinv.step hexec
      exact ⟨seq', hinv', hlru.step hinv hinv' hout⟩

end Order

/-! ## Least recently used entries -/

/-- The list is ordered by last use, and a fetch that misses removes the shortest part at its
front without which the rest fits. -/
structure LruSound (alloc : Alloc) (hist : List CacheStep) (w : World) (seq : List (ℕ × ℕ)) :
    Prop where
  nodes : Dlist.Represents w.nodes w.cache.entries seq
  used : ∀ x ∈ seq, ∃ i, lastUse alloc hist x.2 = some i
  ordered : seq.Pairwise fun x y => UsedBefore alloc hist x.2 y.2
  evicts : ∀ url, w.misses url = true → ∃ k w₁ result w',
    w.cacheEvictIfNecessary = some w₁ ∧ w.cacheFetch alloc url = some (result, w') ∧
    Evicted w seq k ∧ Dlist.Represents w₁.nodes w₁.cache.entries (seq.drop k) ∧
    Dlist.Represents w'.nodes w'.cache.entries (seq.drop k) ∧
    w₁.cache.currentSize ≤ w₁.cache.sizeLimit ∧ w'.cache.currentSize ≤ w'.cache.sizeLimit
  missed : ∀ url rd wr w', w.cacheFetch alloc url = some (.ok (rd, some wr), w') →
    w.misses url = true

section Sound

variable {alloc : Alloc} {hist : List CacheStep} {w : World}

theorem lruSound_of_run (hrun : Run alloc hist w) : ∃ seq, LruSound alloc hist w seq := by
  obtain ⟨seq, hinv, hlru⟩ := hrun.lruInv
  refine ⟨seq, hinv.repr, ?_, hlru.ordered, ?_, ?_⟩
  · intro x hx
    obtain ⟨i, hi, _⟩ := hlru.used x hx
    exact ⟨i, hi⟩
  · intro url hmiss
    obtain ⟨result, w', seq', hrun', hinv', _, hout⟩ := cacheFetch_spec alloc url hinv.toCacheInv
    cases hout with
    | @miss k w₁ _ result _ hevict hevicted hrepr hsize hcache _ =>
        exact ⟨k, w₁, _, w', hevict, hrun', hevicted, hrepr, hinv'.repr, hsize,
          by rw [hcache]; exact hsize⟩
    | refused hhit | hit hhit => simp [hhit] at hmiss
  · intro url rd wr w₁ hfetch
    obtain ⟨result, w', seq', hrun', _, _, hout⟩ := cacheFetch_spec alloc url hinv.toCacheInv
    rw [hfetch, Option.some.injEq, Prod.mk.injEq] at hrun'
    obtain ⟨hresult, _⟩ := hrun'
    cases hout with
    | miss hmiss => exact hmiss
    | refused | hit => simp at hresult

/-- Two entries are stored, and the older one is fetched again. -/
theorem lruSound_after_hit : ∃ hist w seq, Run (fun _ => true) hist w ∧
    w.cache.sizeLimit < w.cache.currentSize ∧ w.cache.entries.len = 2 ∧
    LruSound (fun _ => true) hist w seq := by
  obtain ⟨hist, w, hrun, htest⟩ := exists_run (fun _ => true) 1
    [.fetch ⟨.initial, []⟩, .write 0 [97], .commit 0,
      .fetch ⟨{ UrlRegion.initial with portNull := false }, []⟩, .write 1 [98], .commit 1,
      .fetch ⟨.initial, []⟩]
    (fun _ w => w.cache.sizeLimit < w.cache.currentSize && w.cache.entries.len = 2)
    (by decide +kernel)
  obtain ⟨seq, hsound⟩ := lruSound_of_run hrun
  simp only [Bool.and_eq_true, decide_eq_true_eq] at htest
  exact ⟨hist, w, seq, hrun, htest.1, htest.2, hsound⟩

end Sound

end PosixThreads
