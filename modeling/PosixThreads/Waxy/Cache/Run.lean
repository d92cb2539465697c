import PosixThreads.Waxy.Cache.Writer

/-!
# Runs of the cache

Any number of users call the operations of the cache in any order, each with handles
that it has been given. `World.exec` performs one operation and reports the bytes that
were written to an entry or received by a reader. It is `none` if an assertion fails,
and also if the handle has been freed, which `Enabled` excludes.

`Effect w op w' event` says what an operation can do. Most of them are quiet: readers
cannot tell them from nothing. A write appends to the buffer of an entry, a completion
or the end of a write handle changes its state, and a read advances the reader.
-/

namespace PosixThreads

inductive CacheOp
  | fetch (url : Url)
  | write (wr : ℕ) (slice : List UInt8)
  | commit (wr : ℕ)
  | complete (wr : ℕ)
  | wrFree (wr : ℕ)
  | rdFree (rd : ℕ)
  | read (rd size : ℕ)
  deriving DecidableEq, Repr

inductive CacheEvent
  | silent
  | wrote (entry : ℕ) (slice : List UInt8)
  | received (rd : ℕ) (chunk : List UInt8) (eof : Bool)
  deriving DecidableEq, Repr

namespace World

def exec (alloc : Alloc) (w : World) : CacheOp → Option (CacheEvent × World)
  | .fetch url => do
      let (_, w) ← w.cacheFetch alloc url
      return (.silent, w)
  | .write wr slice => do
      let arc ← w.wrEntry wr
      let (err, w) ← w.cacheWrWrite alloc wr slice
      return (if err.isNone then .wrote arc slice else .silent, w)
  | .commit wr => do
      let (_, w) ← w.cacheWrCommit alloc wr
      return (.silent, w)
  | .complete wr => do return (.silent, ← w.cacheWrComplete wr)
  | .wrFree wr => do return (.silent, ← w.cacheWrFree wr)
  | .rdFree rd => do return (.silent, ← w.cacheRdFree rd)
  | .read rd size => do
      let ((chunk, eof), w) ← w.cacheRdRead rd size
      return (.received rd chunk eof, w)

def Enabled (w : World) : CacheOp → Prop
  | .fetch _ => True
  | .write wr _ | .commit wr | .complete wr | .wrFree wr => ∃ arc, w.wrEntry wr = some arc
  | .rdFree rd | .read rd _ => ∃ r, w.rds.get rd = some r

end World

def CountsIn (w : World) : Prop :=
  ∀ (r : ℕ) (rd : CacheRd) (e : CacheEntry), w.rds.get r = some rd →
    w.entry rd.entry = some e → rd.count ≤ e.buf.length

def ReadersIn (w : World) : Prop :=
  ∀ (r : ℕ) (rd : CacheRd), w.rds.get r = some rd → rd.entry < w.arcs.next

/-- What `cache_rd_read` copies. -/
def readChunk (e : CacheEntry) (rd : CacheRd) (size : ℕ) : List UInt8 :=
  (e.buf.drop rd.count).take size

/-- Whether `cache_rd_read` sets `*eof`. -/
def readEof (e : CacheEntry) (rd : CacheRd) (size : ℕ) : Bool :=
  e.state ≠ .entryPartial && e.buf.length ≤ rd.count + size

def World.advance (w : World) (r : ℕ) (rd : CacheRd) (n : ℕ) : World :=
  { w with rds := w.rds.set r { rd with count := rd.count + n } }

inductive Effect (w : World) (op : CacheOp) : World → CacheEvent → Prop
  | quiet {w' : World} (hquiet : Quiet CacheEntry.content w w') : Effect w op w' .silent
  | wroteNothing {w' : World} (a : ℕ) (hquiet : Quiet CacheEntry.content w w') :
      Effect w op w' (.wrote a [])
  | wrote {w' : World} {a : ℕ} {e : CacheEntry} {slice : List UInt8}
      (he : w.entry a = some e) (hstate : e.state ≠ .entryComplete)
      (hrew : Rewritten a { e with buf := e.buf ++ slice } w w') : Effect w op w' (.wrote a slice)
  | finished {w₁ w' : World} {a : ℕ} {e : CacheEntry} {state : CacheEntryState}
      (he : w.entry a = some e) (hstate : e.state = .entryPartial)
      (hfinal : state ≠ .entryPartial)
      (hcomplete : state = .entryComplete → ∃ wr, op = .complete wr ∧ w.wrEntry wr = some a)
      (hrew : Rewritten a { e with state := state } w w₁) (hkept : Kept w₁ w') :
      Effect w op w' .silent
  | received {r size : ℕ} {rd : CacheRd} {e : CacheEntry}
      (hr : w.rds.get r = some rd) (he : w.entry rd.entry = some e) :
      Effect w op (w.advance r rd (readChunk e rd size).length)
        (.received r (readChunk e rd size) (readEof e rd size))

/-! ## Each operation has an effect -/

section Exec

variable {w : World} {seq : List (ℕ × ℕ)}

theorem cacheRdRead_spec {r : ℕ} {rd : CacheRd} {e : CacheEntry} (h : CacheInv w seq [])
    (hr : w.rds.get r = some rd) (he : w.entry rd.entry = some e)
    (hcount : rd.count ≤ e.buf.length) (size : ℕ) :
    w.cacheRdRead r size = some ((readChunk e rd size, readEof e rd size),
      w.advance r rd (readChunk e rd size).length) := by
  obtain ⟨arc, ha, rfl⟩ := World.get_of_entry he
  have hget := h.toRefInv.arcGet_eq ha
  by_cases hsize : size > arc.data.buf.length - rd.count
  · -- there is less to read than there is room
    have hchunk : readChunk arc.data rd size = arc.data.buf.drop rd.count := by
      rw [readChunk, List.take_of_length_le (by rw [List.length_drop]; omega)]
    have hlen : rd.count + (arc.data.buf.length - rd.count) = arc.data.buf.length := by omega
    have htake : (arc.data.buf.drop rd.count).take (arc.data.buf.length - rd.count) =
        arc.data.buf.drop rd.count := List.take_of_length_le (by simp)
    have heof : arc.data.buf.length ≤ rd.count + size := by omega
    simp [World.cacheRdRead, hr, hget, hcount, hsize, World.advance, hchunk, hlen, htake, readEof,
      heof]
  · have hlen : min size (arc.data.buf.length - rd.count) = size := by omega
    simp [World.cacheRdRead, hr, hget, hcount, hsize, World.advance, readChunk, readEof, hlen]

theorem Quiet.of_kept {w' : World} (h : Kept w w') : Quiet CacheEntry.content w w' :=
  h.toQuiet.mono fun _ _ => CacheEntry.content_of_core

/-- What an operation does to the list of entries and to the write handles. -/
inductive Outcome (alloc : Alloc) (w : World) (seq : List (ℕ × ℕ)) :
    CacheOp → World → List (ℕ × ℕ) → Prop
  | fetch {url : Url} {result : Except Error (ℕ × Option ℕ)} {w' : World} {seq' : List (ℕ × ℕ)}
      (hrun : w.cacheFetch alloc url = some (result, w'))
      (hout : FetchOutcome w seq url result w' seq') : Outcome alloc w seq (.fetch url) w' seq'
  | commit {wr a : ℕ} {e : CacheEntry} {err : Option Error} {w' : World} {seq' : List (ℕ × ℕ)}
      (hwr : w.wrEntry wr = some a) (he : w.entry a = some e) (hwrs : w'.wrs = w.wrs)
      (hrun : w.cacheWrCommit alloc wr = some (err, w'))
      (hout : CommitOutcome w seq a e err w' seq') : Outcome alloc w seq (.commit wr) w' seq'
  | wrFree {wr a : ℕ} {w' : World} (hwr : w.wrEntry wr = some a)
      (hwrs : w'.wrs = w.wrs.free wr) : Outcome alloc w seq (.wrFree wr) w' seq
  | other {op : CacheOp} {w' : World} (hfetch : ∀ url, op ≠ .fetch url)
      (hcommit : ∀ wr, op ≠ .commit wr) (hfree : ∀ wr, op ≠ .wrFree wr) (hwrs : w'.wrs = w.wrs) :
      Outcome alloc w seq op w' seq

/-- An entry keeps its URL, and it becomes invalid only when its write handle is freed. -/
structure Traced (w : World) (op : CacheOp) (w' : World) : Prop where
  urls : EntriesKept (fun e => e.url) w w'
  invalid : ∀ {b : ℕ} {e' : CacheEntry}, w'.entry b = some e' → e'.state = .entryInvalid →
    (∃ e, w.entry b = some e ∧ e.state = .entryInvalid) ∨
      ∃ wr, op = .wrFree wr ∧ w.wrEntry wr = some b

theorem Traced.of_entries {w' : World} {op : CacheOp} (h : EntriesKept CacheEntry.record w w') :
    Traced w op w' := by
  refine ⟨h.mono fun _ _ heq => congrArg Prod.fst heq, fun he' hstate => .inl ?_⟩
  rcases h.entry he' with ⟨e, he, heq⟩ | ⟨_, url, heq⟩
  · exact ⟨e, he, (CacheEntry.buf_of_record heq).2.symm.trans hstate⟩
  · -- a new entry is not invalid
    rw [(CacheEntry.buf_of_record heq).2] at hstate
    simp [CacheEntry.new] at hstate

theorem Traced.of_kept {w' : World} {op : CacheOp} (h : Kept w w') : Traced w op w' :=
  .of_entries (h.toEntriesKept.mono fun _ _ => CacheEntry.record_of_core)

theorem Traced.of_rewritten {w' : World} {op : CacheOp} {a : ℕ} {arc : ArcEntry}
    {e' : CacheEntry} (h : Rewritten a e' w w') (ha : w.arcs.get a = some arc)
    (hurl : e'.url = arc.data.url)
    (hstate : e'.state = .entryInvalid →
      arc.data.state = .entryInvalid ∨ ∃ wr, op = .wrFree wr ∧ w.wrEntry wr = some a) :
    Traced w op w' := by
  refine ⟨.of_entry h.self_eq h.arcs_next h.entry ha hurl, ?_⟩
  intro b e₁ he₁ hinvalid
  rw [h.entry] at he₁
  split at he₁
  · rename_i heq
    cases he₁
    subst heq
    rcases hstate hinvalid with hold | hfree
    · exact .inl ⟨arc.data, World.entry_of_get ha, hold⟩
    · exact .inr hfree
  · exact .inl ⟨e₁, he₁, hinvalid⟩

theorem Traced.trans_kept {w₁ w' : World} {op : CacheOp} (h : Traced w op w₁) (hkept : Kept w₁ w') :
    Traced w op w' := by
  have h' : Traced w₁ op w' := .of_kept hkept
  refine ⟨h.urls.trans h'.urls, fun he' hstate => ?_⟩
  rcases hkept.entry he' with ⟨e, he, heq⟩ | ⟨_, url, heq⟩
  · exact h.invalid he ((CacheEntry.buf_of_core heq).2.symm.trans hstate)
  · rw [(CacheEntry.buf_of_core heq).2] at hstate
    simp [CacheEntry.new] at hstate

/-- No assertion fails, and the invariant is kept. -/
theorem exec_spec (alloc : Alloc) {op : CacheOp} (h : CacheInv w seq []) (hcounts : CountsIn w)
    (hop : w.Enabled op) :
    ∃ event w' seq', w.exec alloc op = some (event, w') ∧ CacheInv w' seq' [] ∧
      Effect w op w' event ∧ Outcome alloc w seq op w' seq' ∧ Traced w op w' := by
  cases op with
  | fetch url =>
      obtain ⟨result, w', seq', hrun, hinv', hquiet', hout⟩ := cacheFetch_spec alloc url h
      exact ⟨.silent, w', seq', by simp [World.exec, hrun], hinv',
        .quiet (hquiet'.mono fun _ _ => CacheEntry.content_of_body), .fetch hrun hout,
        .of_entries (hquiet'.toEntriesKept.mono fun _ _ => CacheEntry.record_of_body)⟩
  | write wr slice =>
      obtain ⟨a, hwr⟩ := hop
      obtain ⟨arc, ha⟩ := h.toRefInv.wr_arc hwr
      obtain ⟨err, w', hrun, hinv', hcases⟩ := cacheWrWrite_spec alloc slice h hwr ha
      rcases hcases with ⟨hkept, hnil, hwrs⟩ | ⟨rfl, hstate, hrew⟩
      · have hother : Outcome alloc w seq (.write wr slice) w' seq :=
          .other (by simp) (by simp) (by simp) hwrs
        cases err with
        | none =>
            refine ⟨.wrote a slice, w', seq, by simp [World.exec, hwr, hrun], hinv', ?_, hother,
              .of_kept hkept⟩
            rw [hnil rfl]
            exact .wroteNothing a (.of_kept hkept)
        | some err =>
            exact ⟨.silent, w', seq, by simp [World.exec, hwr, hrun], hinv',
              .quiet (.of_kept hkept), hother, .of_kept hkept⟩
      · exact ⟨.wrote a slice, w', seq, by simp [World.exec, hwr, hrun], hinv',
          .wrote (World.entry_of_get ha) hstate hrew,
          .other (by simp) (by simp) (by simp) hrew.wrs_eq, .of_rewritten hrew ha rfl .inl⟩
  | commit wr =>
      obtain ⟨a, hwr⟩ := hop
      obtain ⟨arc, ha⟩ := h.toRefInv.wr_arc hwr
      obtain ⟨err, w', seq', hrun, hinv', hquiet', hwrs, _, _, hout⟩ :=
        cacheWrCommit_spec alloc h hwr ha
      exact ⟨.silent, w', seq', by simp [World.exec, hrun], hinv',
        .quiet (hquiet'.mono fun _ _ => CacheEntry.content_of_record),
        .commit hwr (World.entry_of_get ha) hwrs hrun hout, .of_entries hquiet'.toEntriesKept⟩
  | complete wr =>
      obtain ⟨a, hwr⟩ := hop
      obtain ⟨arc, ha⟩ := h.toRefInv.wr_arc hwr
      obtain ⟨w', hrun, hinv', hcases⟩ := cacheWrComplete_spec h hwr ha
      have hexec : w.exec alloc (.complete wr) = some (.silent, w') := by simp [World.exec, hrun]
      rcases hcases with ⟨rfl, _⟩ | ⟨hstate, hrew⟩
      · exact ⟨.silent, w', seq, hexec, hinv', .quiet (.of_rds_eq (.of_arcs_eq _ rfl rfl) rfl),
          .other (by simp) (by simp) (by simp) rfl, .of_kept (.of_arcs_eq rfl rfl rfl rfl rfl)⟩
      · exact ⟨.silent, w', seq, hexec, hinv',
          .finished (World.entry_of_get ha) hstate (by simp) (fun _ => ⟨wr, rfl, hwr⟩) hrew
            (.of_arcs_eq rfl rfl rfl rfl rfl),
          .other (by simp) (by simp) (by simp) hrew.wrs_eq, .of_rewritten hrew ha rfl (by simp)⟩
  | wrFree wr =>
      obtain ⟨a, hwr⟩ := hop
      obtain ⟨arc, ha⟩ := h.toRefInv.wr_arc hwr
      obtain ⟨w₁, w', hrun, hinv', hkept, hwrs, hcases⟩ := cacheWrFree_spec h hwr ha
      have hexec : w.exec alloc (.wrFree wr) = some (.silent, w') := by simp [World.exec, hrun]
      rcases hcases with ⟨rfl, _⟩ | ⟨hstate, hrew⟩
      · exact ⟨.silent, w', seq, hexec, hinv', .quiet (.of_kept hkept), .wrFree hwr hwrs,
          .of_kept hkept⟩
      · exact ⟨.silent, w', seq, hexec, hinv',
          .finished (World.entry_of_get ha) hstate (by simp) (by simp) hrew hkept,
          .wrFree hwr hwrs,
          (Traced.of_rewritten hrew ha rfl fun _ => .inr ⟨wr, rfl, hwr⟩).trans_kept hkept⟩
  | rdFree r =>
      obtain ⟨rd, hr⟩ := hop
      obtain ⟨w', hrun, href', hkept, _, hwrs, _⟩ := cacheRdFree_spec h.toRefInv hr
      exact ⟨.silent, w', seq, by simp [World.exec, hrun], h.of_kept href' hkept,
        .quiet (.of_kept hkept), .other (by simp) (by simp) (by simp) hwrs, .of_kept hkept⟩
  | read r size =>
      obtain ⟨rd, hr⟩ := hop
      obtain ⟨arc, ha⟩ := h.rd_alive hr
      have he := World.entry_of_get ha
      have hrun := cacheRdRead_spec h hr he (hcounts _ _ _ hr he) size
      have href' := h.toRefInv.setRd
        { rd with count := rd.count + (readChunk arc.data rd size).length } hr rfl rfl
      refine ⟨_, _, seq, by simp [World.exec, hrun]; rfl, ⟨?_, href'⟩, .received hr he,
        .other (by simp) (by simp) (by simp) rfl, .of_entries (.of_arcs_eq _ rfl rfl)⟩
      exact h.toIndexInv.of_kept href' (.of_arcs_eq _ rfl rfl) rfl rfl

theorem enabled_of_exec {alloc : Alloc} {op : CacheOp} {event : CacheEvent} {w' : World}
    (h : w.exec alloc op = some (event, w')) : w.Enabled op := by
  cases op with
  | fetch url => trivial
  | write wr slice | commit wr | complete wr | wrFree wr =>
      cases hwr : w.wrEntry wr with
      | none =>
          simp [World.exec, World.cacheWrCommit, World.cacheWrComplete, World.cacheWrFree, hwr] at h
      | some arc => exact ⟨arc, hwr⟩
  | rdFree r | read r size =>
      cases hr : w.rds.get r with
      | none => simp [World.exec, World.cacheRdFree, World.cacheRdRead, hr] at h
      | some rd => exact ⟨rd, hr⟩

end Exec

/-! ## Runs -/

structure CacheStep where
  before : World
  op : CacheOp
  event : CacheEvent
  deriving DecidableEq, Repr

/-- Runs from `cache_new`, with the operations so far. The allocator may fail at any
time. -/
inductive Run (alloc : Alloc) : List CacheStep → World → Prop
  | new {self sizeLimit : ℕ} {w : World} (hnew : cacheNew alloc self sizeLimit = some (.ok w)) :
      Run alloc [] w
  | step {hist : List CacheStep} {w w' : World} {op : CacheOp} {event : CacheEvent}
      (hrun : Run alloc hist w) (hexec : w.exec alloc op = some (event, w')) :
      Run alloc (hist ++ [⟨w, op, event⟩]) w'

structure RunInv (w : World) (seq : List (ℕ × ℕ)) : Prop extends CacheInv w seq [] where
  counts : CountsIn w

section Run

variable {alloc : Alloc} {w w' : World} {seq : List (ℕ × ℕ)} {hist : List CacheStep}

theorem cacheNew_spec {self sizeLimit : ℕ} (hnew : cacheNew alloc self sizeLimit = some (.ok w)) :
    ∃ map, w = ⟨self, ⟨map, Dlist.new, sizeLimit, 0⟩, .empty, .empty, .empty, .empty, 4⟩ ∧
      map.WF urlHashFns ∧ map.rehashing = false ∧ map.bindings = [] := by
  cases h₀ : alloc 0 with
  | false => simp [cacheNew, h₀] at hnew
  | true =>
      cases h₁ : alloc 1 with
      | false => simp [cacheNew, h₀, h₁] at hnew
      | true =>
          cases h₂ : alloc 2 with
          | false => simp [cacheNew, h₀, h₁, h₂] at hnew
          | true =>
              rcases Hash.new_spec (V := ℕ) urlHashFns (alloc 3) with
                ⟨t₀, hmap⟩ | ⟨t, hmap, hwf, hrehashing, hbindings⟩
              · simp [cacheNew, h₀, h₁, h₂, hmap] at hnew
              · simp only [cacheNew, h₀, h₁, h₂, hmap, if_true, Option.bind_eq_bind,
                  Option.bind_some, Option.pure_def, Option.some.injEq, Except.ok.injEq] at hnew
                exact ⟨t, hnew.symm, hwf, hrehashing, hbindings⟩

theorem RunInv.new {self sizeLimit : ℕ} (hnew : cacheNew alloc self sizeLimit = some (.ok w)) :
    RunInv w [] := by
  obtain ⟨map, rfl, hwf, hrehashing, hbindings⟩ := cacheNew_spec hnew
  refine ⟨⟨⟨.new _, hwf, hrehashing, ?_, ?_, ?_, ?_, rfl⟩, ⟨?_, ?_, ?_, ?_, ?_, ?_⟩⟩, ?_⟩
  · intro url node hmem
    simp [hbindings] at hmem
  all_goals simp [World.entry, CountsIn]

theorem EntriesKept.entry_of_lt {β : Type} {f : CacheEntry → β} {a : ℕ} {e' : CacheEntry}
    (h : EntriesKept f w w') (hlt : a < w.arcs.next) (he' : w'.entry a = some e') :
    ∃ e, w.entry a = some e ∧ f e' = f e := by
  rcases h.entry he' with hold | ⟨hle, _⟩
  · exact hold
  · omega

theorem RefInv.readersIn {listed held : List ℕ} (h : RefInv w listed held) : ReadersIn w := by
  intro r rd hr
  obtain ⟨arc, ha⟩ := h.rd_alive hr
  exact Heap.lt_next_of_get ha

@[simp] theorem CacheRd.woken_entry (a : ℕ) (rd : CacheRd) : (rd.woken a).entry = rd.entry := by
  unfold CacheRd.woken
  split <;> rfl

@[simp] theorem CacheRd.woken_count (a : ℕ) (rd : CacheRd) : (rd.woken a).count = rd.count := by
  unfold CacheRd.woken
  split <;> rfl

/-- A reader after a rewriting is a reader from before. -/
theorem Rewritten.reader_of_get {a r : ℕ} {e' : CacheEntry} {rd' : CacheRd}
    (h : Rewritten a e' w w') (hr : w'.rds.get r = some rd') :
    ∃ rd, w.rds.get r = some rd ∧ rd' = rd.woken a := by
  rw [h.reader, Option.map_eq_some_iff] at hr
  obtain ⟨rd, hrd, rfl⟩ := hr
  exact ⟨rd, hrd, rfl⟩

theorem Rewritten.readersIn {a : ℕ} {e' : CacheEntry} (h : Rewritten a e' w w')
    (hin : ReadersIn w) : ReadersIn w' := by
  intro r rd' hr
  obtain ⟨rd, hrd, rfl⟩ := h.reader_of_get hr
  rw [CacheRd.woken_entry, h.arcs_next]
  exact hin r rd hrd

theorem CountsIn.quiet (hcounts : CountsIn w) (hin : ReadersIn w)
    (hquiet : Quiet CacheEntry.content w w') : CountsIn w' := by
  intro r rd e' hr he'
  rcases hquiet.reader hr with hrd | ⟨_, hfresh⟩
  · obtain ⟨e, he, heq⟩ := hquiet.entry_of_lt (hin r rd hrd) he'
    rw [(CacheEntry.buf_of_content heq).1]
    exact hcounts r rd e hrd he
  · rw [hfresh.count_eq]
    exact Nat.zero_le _

theorem CountsIn.rewritten {a : ℕ} {e e' : CacheEntry} (hcounts : CountsIn w)
    (he : w.entry a = some e) (hlen : e.buf.length ≤ e'.buf.length) (hrew : Rewritten a e' w w') :
    CountsIn w' := by
  intro r rd' e₁ hr he₁
  obtain ⟨rd, hrd, rfl⟩ := hrew.reader_of_get hr
  rw [hrew.entry, CacheRd.woken_entry] at he₁
  rw [CacheRd.woken_count]
  split at he₁
  · rename_i heq
    cases he₁
    rw [← heq] at he
    exact (hcounts r rd e hrd he).trans hlen
  · exact hcounts r rd e₁ hrd he₁

theorem readChunk_length (e : CacheEntry) (rd : CacheRd) (size : ℕ) :
    (readChunk e rd size).length = min size (e.buf.length - rd.count) := by
  simp [readChunk]

theorem CountsIn.received {r n : ℕ} {rd : CacheRd} {e : CacheEntry} (hcounts : CountsIn w)
    (hr : w.rds.get r = some rd) (he : w.entry rd.entry = some e)
    (hn : rd.count + n ≤ e.buf.length) : CountsIn (w.advance r rd n) := by
  intro q rd₁ e₁ hq he₁
  simp only [World.advance, Heap.get_set hr] at hq
  split at hq
  · cases hq
    have he₂ : w.entry rd.entry = some e₁ := he₁
    rw [he, Option.some.injEq] at he₂
    rw [← he₂]
    exact hn
  · exact hcounts q rd₁ e₁ hq he₁

/-- An operation keeps the invariant, and it has an effect and an outcome. -/
theorem RunInv.step {op : CacheOp} {event : CacheEvent} (h : RunInv w seq)
    (hexec : w.exec alloc op = some (event, w')) :
    (∃ seq', RunInv w' seq' ∧ Outcome alloc w seq op w' seq') ∧ Effect w op w' event ∧
      Traced w op w' := by
  obtain ⟨event₁, w₁, seq', hexec₁, hinv, heffect, hout, htraced⟩ :=
    exec_spec alloc h.toCacheInv h.counts (enabled_of_exec hexec)
  rw [hexec, Option.some.injEq, Prod.mk.injEq] at hexec₁
  obtain ⟨rfl, rfl⟩ := hexec₁
  refine ⟨⟨seq', ⟨hinv, ?_⟩, hout⟩, heffect, htraced⟩
  cases heffect with
  | quiet hquiet => exact h.counts.quiet h.toRefInv.readersIn hquiet
  | wroteNothing a hquiet => exact h.counts.quiet h.toRefInv.readersIn hquiet
  | wrote he _ hrew => exact h.counts.rewritten he (by simp) hrew
  | finished he _ _ _ hrew hkept =>
      exact (h.counts.rewritten he (by simp) hrew).quiet (hrew.readersIn h.toRefInv.readersIn)
        (.of_kept hkept)
  | received hr he =>
      refine h.counts.received hr he ?_
      have hle := h.counts _ _ _ hr he
      rw [readChunk_length]
      omega

theorem RunInv.exec {op : CacheOp} {event : CacheEvent} (h : RunInv w seq)
    (hexec : w.exec alloc op = some (event, w')) :
    (∃ seq', RunInv w' seq') ∧ Effect w op w' event := by
  obtain ⟨⟨seq', hinv', _⟩, heffect, _⟩ := h.step hexec
  exact ⟨⟨seq', hinv'⟩, heffect⟩

theorem Run.inv (hrun : Run alloc hist w) : ∃ seq, RunInv w seq := by
  induction hrun with
  | new hnew => exact ⟨[], .new hnew⟩
  | step _ hexec ih =>
      obtain ⟨seq, hinv⟩ := ih
      exact (hinv.exec hexec).1

def World.execAll (alloc : Alloc) (w : World) : List CacheOp → Option (List CacheStep × World)
  | [] => some ([], w)
  | op :: ops => do
      let (event, w') ← w.exec alloc op
      let (hist, w'') ← w'.execAll alloc ops
      return (⟨w, op, event⟩ :: hist, w'')

def cacheRun (alloc : Alloc) (sizeLimit : ℕ) (ops : List CacheOp) :
    Option (List CacheStep × World) := do
  match ← cacheNew alloc 0 sizeLimit with
  | .error _ => none
  | .ok w => w.execAll alloc ops

theorem Run.execAll {ops : List CacheOp} {hist' : List CacheStep} (hrun : Run alloc hist w)
    (hexec : w.execAll alloc ops = some (hist', w')) : Run alloc (hist ++ hist') w' := by
  induction ops generalizing hist w hist' with
  | nil =>
      simp only [World.execAll, Option.some.injEq, Prod.mk.injEq] at hexec
      obtain ⟨rfl, rfl⟩ := hexec
      rwa [List.append_nil]
  | cons op ops ih =>
      simp only [World.execAll, Option.bind_eq_bind, Option.bind_eq_some_iff] at hexec
      obtain ⟨⟨event, w₁⟩, hop, ⟨hist₁, w₂⟩, hrest, hresult⟩ := hexec
      simp only [Option.pure_def, Option.some.injEq, Prod.mk.injEq] at hresult
      obtain ⟨rfl, rfl⟩ := hresult
      have hrun' := ih (hrun.step hop) hrest
      rwa [List.append_assoc] at hrun'

theorem run_of_cacheRun {sizeLimit : ℕ} {ops : List CacheOp}
    (hexec : cacheRun alloc sizeLimit ops = some (hist, w)) : Run alloc hist w := by
  cases hnew : cacheNew alloc 0 sizeLimit with
  | none => simp [cacheRun, hnew] at hexec
  | some result =>
      cases result with
      | error err => simp [cacheRun, hnew] at hexec
      | ok w₀ =>
          simp only [cacheRun, hnew, Option.bind_eq_bind, Option.bind_some] at hexec
          exact (Run.new hnew).execAll hexec

theorem exists_run (alloc : Alloc) (sizeLimit : ℕ) (ops : List CacheOp)
    (P : List CacheStep → World → Bool)
    (htest : ((cacheRun alloc sizeLimit ops).any fun x => P x.1 x.2) = true) :
    ∃ hist w, Run alloc hist w ∧ P hist w = true := by
  cases hexec : cacheRun alloc sizeLimit ops with
  | none => simp [hexec] at htest
  | some x => exact ⟨x.1, x.2, run_of_cacheRun hexec, by simpa [hexec] using htest⟩

/-! ## Index and size -/

/-- The comment at `struct cache`: the URLs of the table are different, and they lead to
the nodes of the list and back. -/
structure IndexSound (w : World) (seq : List (ℕ × ℕ)) : Prop where
  nodes : Dlist.Represents w.nodes w.cache.entries seq
  keys : w.cache.map.bindings.Pairwise fun b b' => urlEq b.1 b'.1 = false
  bijection : (w.cache.map.bindings.map Prod.snd).Perm (seq.map Prod.fst)
  bound : ∀ url node, (url, node) ∈ w.cache.map.bindings →
    ∃ a e, (node, a) ∈ seq ∧ w.entry a = some e ∧ e.url = url
  stored : ∀ node a, (node, a) ∈ seq → ∃ e, w.entry a = some e ∧
    (e.url, node) ∈ w.cache.map.bindings ∧ e.committed = true ∧ e.cache = some w.self

theorem IndexInv.nodes_nodup (h : IndexInv w seq) :
    (w.cache.map.bindings.map Prod.snd).Nodup := by
  refine List.pairwise_map.mpr (h.map_wf.pairwise.imp_of_mem ?_)
  rintro ⟨url, n⟩ ⟨url', n'⟩ hmem hmem' hother rfl
  obtain ⟨a, e, hseq, he, rfl⟩ := h.bound hmem
  obtain ⟨a', e', hseq', he', rfl⟩ := h.bound hmem'
  have haa := h.repr.value_unique hseq hseq'
  subst haa
  rw [he, Option.some.injEq] at he'
  subst he'
  rw [urlHashFns_lawful.eq_refl] at hother
  simp at hother

theorem IndexInv.sound (h : IndexInv w seq) : IndexSound w seq := by
  refine ⟨h.repr, h.map_wf.pairwise, ?_, fun _ _ => h.bound, fun _ _ => h.stored⟩
  refine (List.perm_ext_iff_of_nodup h.nodes_nodup h.repr.nodup).mpr fun n => ?_
  simp only [List.mem_map]
  constructor
  · rintro ⟨⟨url, n⟩, hmem, rfl⟩
    obtain ⟨a, _, hseq, _⟩ := h.bound hmem
    exact ⟨(n, a), hseq, rfl⟩
  · rintro ⟨⟨n, a⟩, hmem, rfl⟩
    obtain ⟨e, _, hbound, _⟩ := h.stored hmem
    exact ⟨(e.url, n), hbound, rfl⟩

theorem indexSound_of_run (hrun : Run alloc hist w) : ∃ seq, IndexSound w seq := by
  obtain ⟨seq, hinv⟩ := hrun.inv
  exact ⟨seq, hinv.toIndexInv.sound⟩

/-- A URL that has nothing but a port. -/
def onlyPort (port : UInt16) : Url :=
  ⟨{ UrlRegion.initial with portNull := false, port := port }, []⟩

/-- Three URLs begin at one slot of the table. The first one is evicted, and the third one takes the
slot that it has left. -/
theorem indexSound_after_commit : ∃ hist w seq, Run (fun _ => true) hist w ∧
    w.cache.entries.len = 2 ∧ .deleted ∉ w.cache.map.storage ∧ IndexSound w seq := by
  obtain ⟨hist, w, hrun, htest⟩ := exists_run (fun _ => true) 1
    [.fetch (onlyPort 0), .write 0 [97], .commit 0, .fetch (onlyPort 8), .write 1 [98], .commit 1,
      .wrFree 0, .rdFree 0, .fetch (onlyPort 16), .write 2 [99], .commit 2]
    (fun _ w => w.cache.entries.len = 2 && .deleted ∉ w.cache.map.storage) (by decide +kernel)
  obtain ⟨seq, hsound⟩ := indexSound_of_run hrun
  simp only [Bool.and_eq_true, decide_eq_true_eq] at htest
  exact ⟨hist, w, seq, hrun, htest.1, htest.2, hsound⟩

/-- The entries of the list, in its order, with the sum of their sizes. -/
structure SizeSound (w : World) (seq : List (ℕ × ℕ)) (entries : List CacheEntry) : Prop where
  nodes : Dlist.Represents w.nodes w.cache.entries seq
  entries_eq : seq.map (fun x => w.entry x.2) = entries.map some
  size_eq : w.cache.currentSize = (entries.map fun e => e.buf.length).sum

theorem exists_entries (hlive : ∀ x ∈ seq, ∃ e, w.entry x.2 = some e) :
    ∃ entries : List CacheEntry, seq.map (fun x => w.entry x.2) = entries.map some ∧
      w.listedSize seq = (entries.map fun e => e.buf.length).sum := by
  induction seq with
  | nil => exact ⟨[], rfl, rfl⟩
  | cons x seq ih =>
      obtain ⟨e, he⟩ := hlive x List.mem_cons_self
      obtain ⟨entries, hentries, hsize⟩ := ih fun y hy => hlive y (List.mem_cons_of_mem _ hy)
      refine ⟨e :: entries, by simp [he, hentries], ?_⟩
      simp [hsize, World.bufLen, he]

theorem CacheInv.remove_mem (h : CacheInv w seq []) {x : ℕ × ℕ} (hx : x ∈ seq) :
    ∃ e w', w.entry x.2 = some e ∧ e.buf.length ≤ w.cache.currentSize ∧
      w.cacheRemoveEntry x.1 = some w' ∧
      w'.cache.currentSize + e.buf.length = w.cache.currentSize := by
  obtain ⟨e, he, _⟩ := h.stored hx
  obtain ⟨arc, ha, rfl⟩ := World.get_of_entry he
  obtain ⟨xs, ys, rfl⟩ := List.append_of_mem hx
  obtain ⟨w', hremove, _, _, _, hsize, _⟩ := cacheRemoveEntry_spec h ha
  exact ⟨arc.data, w', he, by omega, hremove, hsize⟩

/-- The size is right in every state, so no removal fails, and neither does any other
operation on a live handle. -/
theorem sizeSound_of_run (hrun : Run alloc hist w) :
    (∃ seq entries, SizeSound w seq entries ∧ ∀ x ∈ seq, ∃ e w', w.entry x.2 = some e ∧
      e.buf.length ≤ w.cache.currentSize ∧ w.cacheRemoveEntry x.1 = some w' ∧
      w'.cache.currentSize + e.buf.length = w.cache.currentSize) ∧
    ∀ op, w.Enabled op → ∃ event w', w.exec alloc op = some (event, w') := by
  obtain ⟨seq, hinv⟩ := hrun.inv
  constructor
  · obtain ⟨entries, hentries, hsize⟩ := exists_entries fun x hx => by
      obtain ⟨e, he, _⟩ := hinv.stored hx
      exact ⟨e, he⟩
    exact ⟨seq, entries, ⟨hinv.repr, hentries, hinv.size_eq.trans hsize⟩,
      fun x hx => hinv.toCacheInv.remove_mem hx⟩
  · intro op hop
    obtain ⟨event, w', _, hexec, _⟩ := exec_spec alloc hinv.toCacheInv hinv.counts hop
    exact ⟨event, w', hexec⟩

/-- One byte is stored, another one is written to the stored entry. -/
theorem sizeSound_after_writes : ∃ hist w seq entries, Run (fun _ => true) hist w ∧
    w.cache.currentSize = 2 ∧ SizeSound w seq entries := by
  obtain ⟨hist, w, hrun, hsize⟩ := exists_run (fun _ => true) 10
    [.fetch ⟨.initial, []⟩, .write 0 [97], .commit 0, .write 0 [98]]
    (fun _ w => w.cache.currentSize = 2) (by decide +kernel)
  obtain ⟨⟨seq, entries, hsound, _⟩, _⟩ := sizeSound_of_run hrun
  exact ⟨hist, w, seq, entries, hrun, by simpa using hsize, hsound⟩

/-! ## Reference counts -/

/-- The count of an entry is the number of references to it, and the entry is freed as soon as
there are none. -/
structure RefsSound (w : World) (seq : List (ℕ × ℕ)) : Prop where
  nodes : Dlist.Represents w.nodes w.cache.entries seq
  refs : ∀ a arc, w.arcs.get a = some arc →
    arc.refCount = (if a ∈ seq.map Prod.snd then 1 else 0) + w.wrs.count (CacheWr.of a) +
      w.rds.count (CacheRd.of a)
  freed : ∀ a < w.arcs.next, w.arcs.get a = none ↔
    a ∉ seq.map Prod.snd ∧ w.wrs.count (CacheWr.of a) = 0 ∧ w.rds.count (CacheRd.of a) = 0

/-- An entry that has been freed is not referred to. -/
theorem RefInv.unreferenced {a : ℕ} {listed held : List ℕ} (h : RefInv w listed held)
    (hfreed : w.arcs.get a = none) :
    a ∉ listed ∧ w.wrs.count (CacheWr.of a) = 0 ∧ w.rds.count (CacheRd.of a) = 0 := by
  refine ⟨fun hmem => ?_, Heap.count_eq_zero fun {i wr} hi => ?_,
    Heap.count_eq_zero fun {r rd} hr => ?_⟩
  · obtain ⟨arc, ha⟩ := h.listed_alive a hmem
    simp [hfreed] at ha
  · by_contra hof
    simp only [CacheWr.of, decide_eq_false_iff_not, not_not] at hof
    obtain ⟨arc, ha⟩ := h.wr_alive hi hof
    simp [hfreed] at ha
  · by_contra hof
    simp only [CacheRd.of, decide_eq_false_iff_not, not_not] at hof
    obtain ⟨arc, ha⟩ := h.rd_alive hr
    rw [hof, hfreed] at ha
    simp at ha

/-- An entry is listed once, since it has one node. -/
theorem IndexInv.entries_nodup (h : IndexInv w seq) : (seq.map Prod.snd).Nodup := by
  refine List.pairwise_map.mpr ((List.pairwise_map.mp h.repr.nodup).imp_of_mem ?_)
  rintro ⟨n, a⟩ ⟨n', a'⟩ hmem hmem' hne rfl
  exact hne (h.node_unique hmem hmem')

theorem refsSound_of_run (hrun : Run alloc hist w) : ∃ seq, RefsSound w seq := by
  obtain ⟨seq, hinv⟩ := hrun.inv
  refine ⟨seq, hinv.repr, fun a arc ha => ?_, fun a _ => ⟨hinv.unreferenced, ?_⟩⟩
  · rw [(hinv.refs ha).2, hinv.toIndexInv.entries_nodup.count]
    simp
  · rintro ⟨hunlisted, hwrs, hrds⟩
    by_contra hne
    obtain ⟨arc, ha⟩ := Option.ne_none_iff_exists'.mp hne
    obtain ⟨hpos, hrefs⟩ := hinv.refs ha
    rw [hwrs, hrds, List.count_eq_zero_of_not_mem hunlisted, List.count_nil] at hrefs
    omega

/-- The entry has been evicted and its writer is gone, but it still has its reader. -/
theorem refsSound_after_eviction : ∃ hist w seq, Run (fun _ => true) hist w ∧
    w.cache.entries.len = 0 ∧ (w.arcs.get 0).map ArcEntry.refCount = some 1 ∧
      RefsSound w seq := by
  obtain ⟨hist, w, hrun, htest⟩ := exists_run (fun _ => true) 0
    [.fetch ⟨.initial, []⟩, .write 0 [97], .commit 0, .wrFree 0, .fetch ⟨.initial, []⟩]
    (fun _ w => w.cache.entries.len = 0 ∧ (w.arcs.get 0).map ArcEntry.refCount = some 1)
    (by decide +kernel)
  obtain ⟨hlen, hcount⟩ : _ ∧ _ := by simpa using htest
  obtain ⟨seq, hsound⟩ := refsSound_of_run hrun
  exact ⟨hist, w, seq, hrun, hlen, by simpa using hcount, hsound⟩

end Run

end PosixThreads
