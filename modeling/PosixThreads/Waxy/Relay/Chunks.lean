import PosixThreads.Waxy.Relay.Basic

/-!
# The relay does not depend on the pieces

Whatever the other users of the cache do, the entry of a relay is changed by the relay only. The
invariant `RelayInv` compares the relay with all bytes that have arrived: where it is tells what
the parser says of them. A commit may still have no effect if an entry with the same URL has been
stored in the meantime, and then it depends on the pieces whether it has.
-/

namespace PosixThreads

/-! ## The other users of the cache -/

section Others

variable {alloc : Alloc} {w w' : World} {seq seq' : List (ℕ × ℕ)} {op : CacheOp}
  {event : CacheEvent} {wr a : ℕ} {e e' : CacheEntry}

/-- A handle stays until it is freed. -/
theorem wrEntry_of_outcome (hout : Outcome alloc w seq op w' seq')
    (hop : op ≠ .wrFree wr) (hwr : w.wrEntry wr = some a) : w'.wrEntry wr = some a := by
  have hsame : w'.wrs = w.wrs → w'.wrEntry wr = some a := fun hwrs => by
    rwa [World.wrEntry, hwrs]
  cases hout with
  | fetch _ hout =>
      cases hout with
      | miss _ _ _ _ _ _ hcreated => exact hcreated.kept hwr
      | refused _ hwrs => exact hsame hwrs
      | hit _ hwrs => exact hsame hwrs
  | commit _ _ hwrs => exact hsame hwrs
  | @wrFree i _ _ _ hwrs =>
      have hne : wr ≠ i := fun heq => hop (by rw [heq])
      rw [World.wrEntry_eq_some_iff] at hwr ⊢
      rw [hwrs, Heap.get_free_of_ne _ hne, hwr]
  | other _ _ _ hwrs => exact hsame hwrs

theorem Rewritten.entry_of_ne {b : ℕ} {e₁ : CacheEntry} (h : Rewritten b e₁ w w') (hne : a ≠ b)
    (he : w.entry a = some e) (he' : w'.entry a = some e') : e'.body = e.body := by
  rw [h.entry, if_neg hne, he, Option.some.injEq] at he'
  rw [he']

theorem EntriesKept.body_eq (h : EntriesKept CacheEntry.body w w') (he : w.entry a = some e)
    (he' : w'.entry a = some e') : e'.body = e.body := by
  obtain ⟨e₁, he₁, hbody⟩ := h.entry_of_lt (World.entry_lt_next he) he'
  rw [he, Option.some.injEq] at he₁
  rw [hbody, he₁]

theorem Kept.body_eq (h : Kept w w') (he : w.entry a = some e) (he' : w'.entry a = some e') :
    e'.body = e.body :=
  EntriesKept.body_eq (h.toEntriesKept.mono fun _ _ => CacheEntry.body_of_core) he he'

/-- Nobody can write to an entry, commit it or complete it without its write handle. -/
theorem body_of_exec (h : RunInv w seq) (hunique : ∀ {i : ℕ}, w.wrEntry i = some a → i = wr)
    (hop : op.wrHandle ≠ some wr) (hexec : w.exec alloc op = some (event, w'))
    (he : w.entry a = some e) (he' : w'.entry a = some e') : e'.body = e.body := by
  have hne : ∀ {i b : ℕ}, op.wrHandle = some i → w.wrEntry i = some b → a ≠ b := by
    rintro i b hi hb rfl
    rw [hunique hb] at hi
    exact hop hi
  have henabled := enabled_of_exec hexec
  cases op with
  | fetch url =>
      obtain ⟨result, w₁, _, hrun, _, hquiet, _⟩ := cacheFetch_spec alloc url h.toCacheInv
      simp only [World.exec, hrun, Option.bind_eq_bind, Option.bind_some, Option.pure_def,
        Option.some.injEq, Prod.mk.injEq] at hexec
      rw [← hexec.2] at he'
      exact hquiet.toEntriesKept.body_eq he he'
  | write i slice =>
      obtain ⟨b, hb⟩ := henabled
      obtain ⟨arc, ha⟩ := h.toRefInv.wr_arc hb
      obtain ⟨err, w₁, hrun, _, hcases⟩ := cacheWrWrite_spec alloc slice h.toCacheInv hb ha
      simp only [World.exec, hb, hrun, Option.bind_eq_bind, Option.bind_some, Option.pure_def,
        Option.some.injEq, Prod.mk.injEq] at hexec
      rw [← hexec.2] at he'
      rcases hcases with ⟨hkept, _⟩ | ⟨_, _, hrew⟩
      · exact hkept.body_eq he he'
      · exact hrew.entry_of_ne (hne rfl hb) he he'
  | commit i =>
      obtain ⟨b, hb⟩ := henabled
      obtain ⟨arc, ha⟩ := h.toRefInv.wr_arc hb
      obtain ⟨err, w₁, _, hrun, _, _, _, hothers, _⟩ := cacheWrCommit_spec alloc h.toCacheInv hb ha
      simp only [World.exec, hrun, Option.bind_eq_bind, Option.bind_some, Option.pure_def,
        Option.some.injEq, Prod.mk.injEq] at hexec
      rw [← hexec.2] at he'
      exact hothers.body_eq (hne rfl hb) he he'
  | complete i =>
      obtain ⟨b, hb⟩ := henabled
      obtain ⟨arc, ha⟩ := h.toRefInv.wr_arc hb
      obtain ⟨w₁, hrun, _, hcases⟩ := cacheWrComplete_spec h.toCacheInv hb ha
      simp only [World.exec, hrun, Option.bind_eq_bind, Option.bind_some, Option.pure_def,
        Option.some.injEq, Prod.mk.injEq] at hexec
      rw [← hexec.2] at he'
      rcases hcases with ⟨rfl, _⟩ | ⟨_, hrew⟩
      · rw [Option.some.inj (he.symm.trans he')]
      · exact hrew.entry_of_ne (hne rfl hb) he he'
  | wrFree i =>
      obtain ⟨b, hb⟩ := henabled
      obtain ⟨arc, ha⟩ := h.toRefInv.wr_arc hb
      obtain ⟨w₁, w₂, hrun, _, hkept, _, hcases⟩ := cacheWrFree_spec h.toCacheInv hb ha
      simp only [World.exec, hrun, Option.bind_eq_bind, Option.bind_some, Option.pure_def,
        Option.some.injEq, Prod.mk.injEq] at hexec
      rw [← hexec.2] at he'
      rcases hcases with ⟨rfl, _⟩ | ⟨_, hrew⟩
      · exact hkept.body_eq he he'
      · have he₁ : w₁.entry a = some e := by rw [hrew.entry, if_neg (hne rfl hb), he]
        exact hkept.body_eq he₁ he'
  | rdFree r =>
      obtain ⟨rd, hr⟩ := henabled
      obtain ⟨w₁, hrun, _, hkept, _⟩ := cacheRdFree_spec h.toRefInv hr
      simp only [World.exec, hrun, Option.bind_eq_bind, Option.bind_some, Option.pure_def,
        Option.some.injEq, Prod.mk.injEq] at hexec
      rw [← hexec.2] at he'
      exact hkept.body_eq he he'
  | read r size =>
      simp only [World.exec, World.cacheRdRead, Option.bind_eq_bind, Option.bind_eq_some_iff,
        Option.pure_def, Option.some.injEq, Prod.mk.injEq] at hexec
      obtain ⟨_, ⟨_, _, _, _, _, _, hread⟩, _, rfl⟩ := hexec
      rw [← hread] at he'
      rw [Option.some.inj (he.symm.trans he')]

end Others

/-! ## The invariant -/

def RelayPc.slice : RelayPc → Option (List UInt8)
  | .commits slice _ => some slice
  | .writes slice _ => some slice
  | _ => none

/-- Whether the end of the stream has arrived, as far as it can be told. -/
def RelayPc.eof : RelayPc → Option Bool
  | .waiting => some false
  | .commits _ eof => some eof
  | .writes _ eof => some eof
  | .completes => some true
  | .unregistered .abruptEnd => some true
  | .unregistered .complete => some true
  | .unregistered _ => none

def RelayPc.isCommits : RelayPc → Bool
  | .commits _ _ => true
  | _ => false

/-- What is known of the header and of the stream from where the relay is. -/
structure RelayPath (alloc : Alloc) (parse : PhrParse) (hist : List RelayStep)
    (ctx : UpstreamCtx) (pc : RelayPc) : Prop where
  slice : ∀ slice ∈ pc.slice, ∃ slices, arrived hist = slices ++ [slice]
  eof : ∀ eof ∈ pc.eof, ended hist = eof
  once : hist.countP RelayStep.isCommit ≤ 1
  never : ctx.responseParsed = false ∨ pc.isCommits = true →
    hist.countP RelayStep.isCommit = 0
  copied : ctx.responseParsed = false → pc.eof = some false → ctx.buf = (arrived hist).flatten
  unparsed : ctx.responseParsed = false → pc ≠ .unregistered .noMemory →
    ∀ count status, parse (arrived hist).flatten 0 ≠ .parsed count status
  parsed : ctx.responseParsed = true → ∃ count status,
    parse (arrived hist).flatten 0 = .parsed count status ∧ (pc.isCommits = true → status = 200)
  commits : pc.isCommits = true → ctx.responseParsed = true
  header : ctx.responseParsed = true →
    pc ≠ .unregistered .abruptEnd ∧ pc ≠ .unregistered .invalidResponse
  invalid : pc = .unregistered .invalidResponse → parse (arrived hist).flatten 0 = .invalid
  failed : (∀ s ∈ hist, s.succeeds alloc = true) →
    pc ≠ .unregistered .noMemory ∧ pc ≠ .unregistered .writeError

structure RelayEntry (alloc : Alloc) (parse : PhrParse) (a : ℕ) (hist : List RelayStep)
    (ctx : UpstreamCtx) (pc : RelayPc) (e : CacheEntry) : Prop where
  buffer : e.buf = (pc.relayed (arrived hist)).flatten
  state : e.state = .entryComplete ↔ pc = .unregistered .complete
  committed : e.committed = true → ∃ count, parse (arrived hist).flatten 0 = .parsed count 200
  taken : (∀ s ∈ hist, s.takesIn alloc a = true) → ctx.responseParsed = true →
    pc.isCommits = false → ∀ {count : ℕ}, parse (arrived hist).flatten 0 = .parsed count 200 →
      e.committed = true

structure RelayInv (alloc : Alloc) (parse : PhrParse) (a : ℕ) (hist : List RelayStep)
    (r : Relay) : Prop where
  run : ∃ hist, Run alloc hist r.world
  handle : r.world.wrEntry r.ctx.wr = some a
  path : RelayPath alloc parse hist r.ctx r.pc
  entry : ∀ {e : CacheEntry}, r.world.entry a = some e →
    RelayEntry alloc parse a hist r.ctx r.pc e

section Invariant

variable {alloc : Alloc} {parse : PhrParse} {a : ℕ} {hist : List RelayStep} {r r' : Relay}
  {s : RelayStep} {ctx ctx' : UpstreamCtx} {pc pc' : RelayPc} {e e' : CacheEntry}

theorem arrived_snoc (hist : List RelayStep) (s : RelayStep) :
    arrived (hist ++ [s]) = arrived hist ++ s.slice.toList := by
  cases hs : s.slice <;> simp [arrived, hs]

theorem forall_snoc {P : RelayStep → Prop} (h : ∀ x ∈ hist ++ [s], P x) :
    (∀ x ∈ hist, P x) ∧ P s := by
  simpa using List.forall_mem_append.mp h

theorem CacheEntry.fields_of_body (h : e'.body = e.body) :
    e'.buf = e.buf ∧ e'.state = e.state ∧ e'.committed = e.committed := by
  simp only [CacheEntry.body, CacheEntry.mk.injEq] at h
  exact ⟨h.2.2.1, h.2.2.2.2.1, h.2.2.2.2.2⟩

theorem RelayPath.snoc (h : RelayPath alloc parse hist ctx pc)
    (hact : s.act = .call ∨ ∃ op, s.act = .other op) (hslice : ∀ x ∈ pc'.slice, x ∈ pc.slice)
    (heof : ∀ b ∈ pc'.eof, b ∈ pc.eof) (hcommits : pc'.isCommits = true → pc.isCommits = true)
    (hcommit : s.isCommit = true → pc.isCommits = true ∧ pc'.isCommits = false)
    (hmemory : pc = .unregistered .noMemory → pc' = .unregistered .noMemory)
    (hheader : pc' = .unregistered .abruptEnd ∨ pc' = .unregistered .invalidResponse → pc' = pc)
    (hfailed : s.succeeds alloc = true →
      pc ≠ .unregistered .noMemory ∧ pc ≠ .unregistered .writeError →
      pc' ≠ .unregistered .noMemory ∧ pc' ≠ .unregistered .writeError) :
    RelayPath alloc parse (hist ++ [s]) ctx pc' := by
  have harrived : arrived (hist ++ [s]) = arrived hist := by
    rcases hact with hact | ⟨op, hact⟩ <;> simp [arrived_snoc, RelayStep.slice, hact]
  have hended : ended (hist ++ [s]) = ended hist := by
    rcases hact with hact | ⟨op, hact⟩ <;> simp [ended, hact]
  refine ⟨?_, ?_, ?_, ?_, ?_, ?_, ?_, ?_, ?_, ?_, ?_⟩
  · intro x hx
    rw [harrived]
    exact h.slice x (hslice x hx)
  · intro b hb
    rw [hended]
    exact h.eof b (heof b hb)
  · rw [List.countP_append, List.countP_singleton]
    split
    · rename_i hs
      rw [h.never (Or.inr (hcommit hs).1)]
    · exact h.once
  · intro hnever
    rw [List.countP_append, List.countP_singleton]
    split
    · -- the entry is not committed twice
      rename_i hs
      obtain ⟨hpc, hpc'⟩ := hcommit hs
      rcases hnever with hparsed | hpc''
      · simp [h.commits hpc] at hparsed
      · simp [hpc'] at hpc''
    · exact h.never (hnever.imp_right hcommits)
  · intro hparsed hpc
    rw [harrived]
    exact h.copied hparsed (heof _ hpc)
  · intro hparsed hpc
    rw [harrived]
    exact h.unparsed hparsed fun hmem => hpc (hmemory hmem)
  · intro hparsed
    obtain ⟨count, status, hparse, hok⟩ := h.parsed hparsed
    exact ⟨count, status, by rw [harrived, hparse], fun hpc => hok (hcommits hpc)⟩
  · exact fun hpc => h.commits (hcommits hpc)
  · intro hparsed
    obtain ⟨habrupt, hinvalid⟩ := h.header hparsed
    refine ⟨fun hpc => habrupt ?_, fun hpc => hinvalid ?_⟩
    · rw [← hheader (Or.inl hpc), hpc]
    · rw [← hheader (Or.inr hpc), hpc]
  · intro hpc
    rw [harrived]
    exact h.invalid (by rw [← hheader (Or.inr hpc), hpc])
  · intro hsucceeds
    obtain ⟨hold, hs⟩ := forall_snoc hsucceeds
    exact hfailed hs (h.failed hold)

theorem RelayPath.other (h : RelayPath alloc parse hist ctx pc) (op : CacheOp) :
    RelayPath alloc parse (hist ++ [⟨r, .other op⟩]) ctx pc :=
  h.snoc (Or.inr ⟨op, rfl⟩) (fun _ => id) (fun _ => id) id (by simp [RelayStep.isCommit]) id
    (fun _ => rfl) (fun _ => id)

theorem relayInv_start (hphr : PhrSound parse) (h : RelayStart alloc a r) :
    RelayInv alloc parse a [] r := by
  refine ⟨h.run, h.handle, ⟨?_, ?_, ?_, ?_, ?_, ?_, ?_, ?_, ?_, ?_, ?_⟩, ?_⟩
  · simp [h.pc_eq, RelayPc.slice]
  · simp [h.pc_eq, RelayPc.eof, ended]
  · simp
  · simp
  · intro _ _
    rw [h.buf_eq]
    rfl
  · intro _ _ count status hparse
    rw [show (arrived []).flatten = [] from rfl, hphr.empty] at hparse
    simp at hparse
  · simp [h.parsed_eq]
  · simp [h.pc_eq, RelayPc.isCommits]
  · simp [h.pc_eq]
  · simp [h.pc_eq]
  · simp [h.pc_eq]
  · intro e he
    obtain ⟨hbuf, hstate, hcommitted⟩ := h.entry he
    refine ⟨?_, ?_, ?_, ?_⟩
    · rw [hbuf, h.pc_eq]
      rfl
    · simp [hstate, h.pc_eq]
    · simp [hcommitted]
    · simp [h.parsed_eq]

theorem RelayEntry.snoc (h : RelayEntry alloc parse a hist ctx pc e)
    (hslice : s.slice = none) (hpc : pc'.isCommits = false → pc.isCommits = false)
    (hbuf : e'.buf = (pc'.relayed (arrived hist)).flatten)
    (hstate : e'.state = .entryComplete ↔ pc' = .unregistered .complete)
    (hcommitted : e'.committed = e.committed) :
    RelayEntry alloc parse a (hist ++ [s]) ctx pc' e' := by
  have harrived : arrived (hist ++ [s]) = arrived hist := by simp [arrived_snoc, hslice]
  refine ⟨?_, hstate, ?_, ?_⟩
  · rw [hbuf, harrived]
  · rw [hcommitted, harrived]
    exact h.committed
  · intro htaken hparsed hpc' count hparse
    rw [harrived] at hparse
    rw [hcommitted]
    exact h.taken (forall_snoc htaken).1 hparsed (hpc hpc') hparse

theorem RelayInv.other {op : CacheOp} (h : RelayInv alloc parse a hist r)
    (hstep : r.exec alloc parse (.other op) = some r') :
    RelayInv alloc parse a (hist ++ [⟨r, .other op⟩]) r' := by
  obtain ⟨chist, hrun⟩ := h.run
  obtain ⟨seq, hinv⟩ := hrun.inv
  simp only [Relay.exec] at hstep
  split at hstep
  · simp at hstep
  · rename_i hop
    simp only [Option.bind_eq_bind, Option.bind_eq_some_iff, Option.pure_def,
      Option.some.injEq] at hstep
    obtain ⟨⟨event, w'⟩, hexec, rfl⟩ := hstep
    obtain ⟨⟨seq', hinv', hout⟩, _⟩ := hinv.step hexec
    have hfree : op ≠ .wrFree r.ctx.wr := fun heq => hop (by rw [heq]; rfl)
    refine ⟨⟨_, hrun.step hexec⟩, wrEntry_of_outcome hout hfree h.handle, h.path.other op, ?_⟩
    intro e' he'
    obtain ⟨arc, ha⟩ := hinv.toRefInv.wr_arc h.handle
    have he := World.entry_of_get ha
    have hbody := body_of_exec hinv (fun hi => hrun.writerInv.unique hi h.handle) hop hexec he he'
    obtain ⟨hbuf, hstate, hcommitted⟩ := CacheEntry.fields_of_body hbody
    have hentry := h.entry he
    refine hentry.snoc rfl id ?_ ?_ hcommitted
    · rw [hbuf, hentry.buffer]
    · rw [hstate, hentry.state]

/-! ## A piece arrives -/

/-- The piece is the last one that has arrived, and it is about to be written or the relay has
failed with it. -/
def RelayPc.pending : RelayPc → Bool
  | .waiting => false
  | .completes => false
  | .unregistered .complete => false
  | _ => true

theorem RelayPc.relayed_of_pending (h : pc.pending = true) (slices : List (List UInt8)) :
    pc.relayed slices = slices.dropLast := by
  cases pc with
  | waiting | completes => simp [RelayPc.pending] at h
  | commits | writes => rfl
  | unregistered cause => cases cause <;> simp_all [RelayPc.pending, RelayPc.relayed]

section Read

variable {slice : List UInt8} {eof memory : Bool}

theorem arrived_read (hist : List RelayStep) (r : Relay) (slice : List UInt8) (eof memory : Bool) :
    (arrived (hist ++ [⟨r, .read slice eof memory⟩])).flatten =
      (arrived hist).flatten ++ slice := by
  simp [arrived_snoc, RelayStep.slice]

/-- What `upstream_on_read` has found out from a piece before it calls the cache. -/
structure ReadResult (alloc : Alloc) (parse : PhrParse) (bytes : List UInt8) (s : RelayStep)
    (slice : List UInt8) (eof : Bool) (ctx' : UpstreamCtx) (pc' : RelayPc) : Prop where
  pending : pc'.pending = true
  slice_eq : ∀ x ∈ pc'.slice, x = slice
  eof_eq : ∀ b ∈ pc'.eof, b = eof
  first : ctx'.responseParsed = false ∨ pc'.isCommits = true →
    s.before.ctx.responseParsed = false
  copied : ctx'.responseParsed = false → pc'.eof = some false → ctx'.buf = bytes
  unparsed : ctx'.responseParsed = false → pc' ≠ .unregistered .noMemory →
    ∀ count status, parse bytes 0 ≠ .parsed count status
  parsed : ctx'.responseParsed = true → ∃ count status, parse bytes 0 = .parsed count status ∧
    (pc'.isCommits = true ↔ status = 200 ∧ s.before.ctx.responseParsed = false)
  commits : pc'.isCommits = true → ctx'.responseParsed = true
  header : ctx'.responseParsed = true →
    pc' ≠ .unregistered .abruptEnd ∧ pc' ≠ .unregistered .invalidResponse
  invalid : pc' = .unregistered .invalidResponse → parse bytes 0 = .invalid
  failed : s.succeeds alloc = true →
    pc' ≠ .unregistered .noMemory ∧ pc' ≠ .unregistered .writeError

theorem RelayPath.read (h : RelayPath alloc parse hist r.ctx .waiting)
    (hread : ReadResult alloc parse ((arrived hist).flatten ++ slice)
      ⟨r, .read slice eof memory⟩ slice eof ctx' pc') :
    RelayPath alloc parse (hist ++ [⟨r, .read slice eof memory⟩]) ctx' pc' := by
  have hcount : List.countP RelayStep.isCommit (hist ++ [⟨r, .read slice eof memory⟩]) =
      hist.countP RelayStep.isCommit := by
    simp [RelayStep.isCommit]
  have hended : ended hist = false := h.eof false rfl
  refine ⟨?_, ?_, ?_, ?_, ?_, ?_, ?_, hread.commits, hread.header, ?_, ?_⟩
  · intro x hx
    exact ⟨arrived hist, by simp [arrived_snoc, RelayStep.slice, hread.slice_eq x hx]⟩
  · intro b hb
    simp only [ended] at hended
    simp [ended, hended, hread.eof_eq b hb]
  · rw [hcount]
    exact h.once
  · intro hpc
    rw [hcount]
    exact h.never (Or.inl (hread.first hpc))
  · rw [arrived_read]
    exact hread.copied
  · rw [arrived_read]
    exact hread.unparsed
  · intro hparsed
    obtain ⟨count, status, hparse, hcommits⟩ := hread.parsed hparsed
    exact ⟨count, status, by rw [arrived_read, hparse], fun hpc => (hcommits.mp hpc).1⟩
  · rw [arrived_read]
    exact hread.invalid
  · intro hsucceeds
    exact hread.failed (forall_snoc hsucceeds).2

theorem RelayEntry.read (hphr : PhrSound parse) (hpath : RelayPath alloc parse hist r.ctx .waiting)
    (h : RelayEntry alloc parse a hist r.ctx .waiting e)
    (hread : ReadResult alloc parse ((arrived hist).flatten ++ slice)
      ⟨r, .read slice eof memory⟩ slice eof ctx' pc') :
    RelayEntry alloc parse a (hist ++ [⟨r, .read slice eof memory⟩]) ctx' pc' e := by
  refine ⟨?_, ?_, ?_, ?_⟩
  · rw [RelayPc.relayed_of_pending hread.pending, h.buffer]
    simp [arrived_snoc, RelayStep.slice, RelayPc.relayed]
  · have hpartial : e.state ≠ .entryComplete := by simp [h.state]
    have hpending : pc' ≠ .unregistered .complete := by
      intro heq
      have hpending := hread.pending
      simp [heq, RelayPc.pending] at hpending
    exact iff_of_false hpartial hpending
  · intro hcommitted
    obtain ⟨count, hparse⟩ := h.committed hcommitted
    exact ⟨count, by rw [arrived_read, hphr.append _ hparse]⟩
  · intro htaken hctx' hpc' count hparse
    rw [arrived_read] at hparse
    obtain ⟨count', status, hparse', hcommits⟩ := hread.parsed hctx'
    rw [hparse, PhrResult.parsed.injEq] at hparse'
    cases hctx : r.ctx.responseParsed with
    | false => simp [hpc', ← hparse'.2, hctx] at hcommits
    | true =>
        -- the header was complete before
        obtain ⟨count₀, status₀, hold, _⟩ := hpath.parsed hctx
        have hsame := hphr.append slice hold
        rw [hparse, PhrResult.parsed.injEq] at hsame
        rw [← hsame.2] at hold
        exact h.taken (forall_snoc htaken).1 hctx rfl hold

theorem onRead_cases (parse : PhrParse) (r : Relay) (slice : List UInt8) (eof memory : Bool)
    (hparsed : r.ctx.responseParsed = false) :
    (r.copies slice memory = false ∧ r.onRead parse slice eof memory =
      { r with pc := .unregistered .noMemory }) ∨
    (r.copies slice memory = true ∧
      ((parse (r.ctx.buf ++ slice) r.ctx.buf.length = .incomplete ∧
          r.onRead parse slice eof memory =
            { r with
              ctx := { r.ctx with buf := r.ctx.buf ++ slice }
              pc := if eof then .unregistered .abruptEnd else .writes slice eof }) ∨
        (parse (r.ctx.buf ++ slice) r.ctx.buf.length = .invalid ∧
          r.onRead parse slice eof memory =
            { r with
              ctx := { r.ctx with buf := r.ctx.buf ++ slice }
              pc := .unregistered .invalidResponse }) ∨
        ∃ count status, parse (r.ctx.buf ++ slice) r.ctx.buf.length = .parsed count status ∧
          r.onRead parse slice eof memory =
            { r with
              ctx := { r.ctx with buf := [], responseParsed := true }
              pc := if status = 200 then .commits slice eof else .writes slice eof })) := by
  cases hcopies : r.copies slice memory with
  | false => exact Or.inl ⟨rfl, by simp [Relay.onRead, hparsed, hcopies]⟩
  | true =>
      refine Or.inr ⟨rfl, ?_⟩
      cases hparse : parse (r.ctx.buf ++ slice) r.ctx.buf.length with
      | incomplete => exact Or.inl ⟨rfl, by simp [Relay.onRead, hparsed, hcopies, hparse]⟩
      | invalid => exact Or.inr (Or.inl ⟨rfl, by simp [Relay.onRead, hparsed, hcopies, hparse]⟩)
      | parsed count status =>
          exact Or.inr (Or.inr ⟨count, status, rfl,
            by simp [Relay.onRead, hparsed, hcopies, hparse]⟩)

theorem readResult_of_parsed (hphr : PhrSound parse)
    (hpath : RelayPath alloc parse hist r.ctx .waiting) (hctx : r.ctx.responseParsed = true) :
    ReadResult alloc parse ((arrived hist).flatten ++ slice) ⟨r, .read slice eof memory⟩ slice eof
      r.ctx (.writes slice eof) := by
  obtain ⟨count, status, hold, _⟩ := hpath.parsed hctx
  refine ⟨rfl, ?_, ?_, ?_, ?_, ?_, ?_, ?_, ?_, ?_, ?_⟩
  · simp [RelayPc.slice]
  · simp [RelayPc.eof]
  · simp [hctx, RelayPc.isCommits]
  · simp [hctx]
  · simp [hctx]
  · exact fun _ => ⟨count, status, hphr.append _ hold, by simp [RelayPc.isCommits, hctx]⟩
  all_goals simp [RelayPc.isCommits]

/-- The header is not complete before the piece. -/
theorem readResult_of_unparsed (hphr : PhrSound parse)
    (hpath : RelayPath alloc parse hist r.ctx .waiting) (hctx : r.ctx.responseParsed = false) :
    ReadResult alloc parse ((arrived hist).flatten ++ slice) ⟨r, .read slice eof memory⟩ slice eof
      (r.onRead parse slice eof memory).ctx (r.onRead parse slice eof memory).pc := by
  have hbuf : r.ctx.buf = (arrived hist).flatten := hpath.copied hctx rfl
  have hcomplete : ∀ {count : ℕ} {status : ℤ},
      parse ((arrived hist).flatten ++ slice) 0 = .parsed count status →
      parse (r.ctx.buf ++ slice) r.ctx.buf.length = .parsed count status := by
    rw [hbuf]
    exact hphr.complete (hpath.unparsed hctx (by simp))
  rcases onRead_cases parse r slice eof memory hctx with
    ⟨hcopies, heq⟩ | ⟨hcopies, ⟨hparse, heq⟩ | ⟨hparse, heq⟩ | ⟨count, status, hparse, heq⟩⟩
  · rw [heq]
    constructor <;> simp [RelayPc.pending, RelayPc.slice, RelayPc.eof, RelayPc.isCommits, hctx,
      RelayStep.succeeds, RelayStep.copySucceeds, hcopies]
  · have hnew : ∀ count status,
        parse ((arrived hist).flatten ++ slice) 0 ≠ .parsed count status := by
      intro count status hnew
      simpa [hparse] using hcomplete hnew
    rw [heq, ← hbuf]
    rw [← hbuf] at hnew
    cases eof <;> constructor <;>
      simp [RelayPc.pending, RelayPc.slice, RelayPc.eof, RelayPc.isCommits, hctx, hnew]
  · have hinvalid : parse (r.ctx.buf ++ slice) 0 = .invalid := by
      refine hphr.shortcut ?_ hparse
      rw [hbuf]
      exact hpath.unparsed hctx (by simp)
    rw [heq, ← hbuf]
    constructor <;>
      simp [RelayPc.pending, RelayPc.slice, RelayPc.eof, RelayPc.isCommits, hctx, hinvalid]
  · have hnew : parse (r.ctx.buf ++ slice) 0 = .parsed count status := hphr.sound hparse
    rw [heq, ← hbuf]
    by_cases hstatus : status = 200
    · simp only [hstatus, if_true]
      constructor <;>
        simp [RelayPc.pending, RelayPc.slice, RelayPc.eof, RelayPc.isCommits, hctx, hnew, hstatus]
    · simp only [hstatus, if_false]
      constructor <;>
        simp [RelayPc.pending, RelayPc.slice, RelayPc.eof, RelayPc.isCommits, hctx, hnew, hstatus]

theorem readResult_onRead (slice : List UInt8) (eof memory : Bool) (hphr : PhrSound parse)
    (hpath : RelayPath alloc parse hist r.ctx .waiting) :
    ReadResult alloc parse ((arrived hist).flatten ++ slice) ⟨r, .read slice eof memory⟩ slice eof
      (r.onRead parse slice eof memory).ctx (r.onRead parse slice eof memory).pc := by
  cases hctx : r.ctx.responseParsed with
  | true =>
      have heq : r.onRead parse slice eof memory = { r with pc := .writes slice eof } := by
        simp [Relay.onRead, hctx]
      rw [heq]
      exact readResult_of_parsed hphr hpath hctx
  | false => exact readResult_of_unparsed hphr hpath hctx

theorem onRead_frame (parse : PhrParse) (r : Relay) (slice : List UInt8) (eof memory : Bool) :
    (r.onRead parse slice eof memory).world = r.world ∧
      (r.onRead parse slice eof memory).ctx.wr = r.ctx.wr := by
  unfold Relay.onRead
  split
  · exact ⟨rfl, rfl⟩
  · split
    · dsimp only
      split <;> exact ⟨rfl, rfl⟩
    · exact ⟨rfl, rfl⟩

theorem RelayInv.read (hphr : PhrSound parse) (h : RelayInv alloc parse a hist r)
    (hstep : r.exec alloc parse (.read slice eof memory) = some r') :
    RelayInv alloc parse a (hist ++ [⟨r, .read slice eof memory⟩]) r' := by
  by_cases hpc : r.pc = .waiting
  · rw [Relay.exec, if_pos hpc, Option.some.injEq] at hstep
    subst hstep
    have hpath : RelayPath alloc parse hist r.ctx .waiting := hpc ▸ h.path
    obtain ⟨hworld, hwr⟩ := onRead_frame parse r slice eof memory
    have hread := readResult_onRead slice eof memory hphr hpath
    refine ⟨?_, ?_, hpath.read hread, ?_⟩
    · rw [hworld]
      exact h.run
    · rw [hworld, hwr]
      exact h.handle
    · intro e he
      rw [hworld] at he
      have hentry : RelayEntry alloc parse a hist r.ctx .waiting e := hpc ▸ h.entry he
      exact hentry.read hphr hpath hread
  · simp [Relay.exec, hpc] at hstep

end Read

/-! ## A call of the cache -/

section Call

variable {slice : List UInt8} {eof : Bool}

/-- A commit takes the entry in if no other one is bound to its URL. -/
theorem committed_of_free {w w' : World} {seq seq' : List (ℕ × ℕ)} {err : Option Error}
    (hinv' : CacheInv w' seq' []) (hout : CommitOutcome w seq a e err w' seq')
    (herr : err = none) (hfree : w.boundEntry e.url = none) (he : w.entry a = some e)
    (he' : w'.entry a = some e') : e'.committed = true := by
  cases hout with
  | committed hcommitted => rwa [Option.some.inj (he'.symm.trans he)]
  | kept _ hbound | replaced _ hbound => simp [hfree] at hbound
  | refused | dropped => simp at herr
  | listed =>
      obtain ⟨e₁, he₁, _, hcommitted, _⟩ :=
        hinv'.stored (List.mem_append_right _ (List.mem_singleton_self _))
      rwa [Option.some.inj (he'.symm.trans he₁)]

theorem RelayStep.takesIn_commits {w' : World} {err : Option Error}
    (hpc : r.pc = .commits slice eof)
    (hcommit : r.world.cacheWrCommit alloc r.ctx.wr = some (err, w'))
    (he : r.world.entry a = some e)
    (htakes : (⟨r, .call⟩ : RelayStep).takesIn alloc a = true) :
    err = none ∧ r.world.boundEntry e.url = none := by
  simpa [RelayStep.takesIn, RelayStep.succeeds, RelayStep.cacheSucceeds, RelayStep.copySucceeds,
    RelayStep.findsNothing, RelayStep.isCommit, hpc, hcommit, he] using htakes

/-- The entry is committed before the piece with the end of the header is written. -/
theorem RelayInv.commits (h : RelayInv alloc parse a hist r) (hpc : r.pc = .commits slice eof)
    (hstep : r.call alloc = some r') :
    RelayInv alloc parse a (hist ++ [⟨r, .call⟩]) r' := by
  obtain ⟨chist, hrun⟩ := h.run
  obtain ⟨seq, hinv⟩ := hrun.inv
  obtain ⟨arc, ha⟩ := hinv.toRefInv.wr_arc h.handle
  obtain ⟨err, w', seq', hcommit, hinv', hquiet, hwrs, _, _, hout⟩ :=
    cacheWrCommit_spec alloc hinv.toCacheInv h.handle ha
  simp only [Relay.call, hpc, hcommit, Option.bind_eq_bind, Option.bind_some, Option.pure_def,
    Option.some.injEq] at hstep
  subst hstep
  have hexec : r.world.exec alloc (.commit r.ctx.wr) = some (.silent, w') := by
    simp [World.exec, hcommit]
  have he := World.entry_of_get ha
  have hisCommits : r.pc.isCommits = true := by simp [hpc, RelayPc.isCommits]
  obtain ⟨count, status, hparse, hstatus⟩ := h.path.parsed (h.path.commits hisCommits)
  rw [hstatus hisCommits] at hparse
  have harrived : arrived (hist ++ [⟨r, .call⟩]) = arrived hist := by
    simp [arrived_snoc, RelayStep.slice]
  refine ⟨⟨_, hrun.step hexec⟩, ?_, ?_, ?_⟩
  · rw [World.wrEntry, hwrs]
    exact h.handle
  · refine h.path.snoc (Or.inl rfl) ?_ ?_ ?_ ?_ ?_ ?_ ?_ <;>
      simp [hpc, RelayPc.slice, RelayPc.eof, RelayPc.isCommits]
  · intro e' he'
    obtain ⟨e, he₁, hrecord⟩ := hquiet.toEntriesKept.entry_of_lt (World.entry_lt_next he) he'
    rw [he, Option.some.injEq] at he₁
    subst he₁
    obtain ⟨hbuf, hstate⟩ := CacheEntry.buf_of_record hrecord
    have hentry := h.entry he
    refine ⟨?_, ?_, ?_, ?_⟩
    · rw [hbuf, harrived, hentry.buffer, hpc]
      rfl
    · rw [hstate, hentry.state, hpc]
      simp
    · intro _
      exact ⟨count, by rw [harrived, hparse]⟩
    · intro htaken _ _ _ _
      obtain ⟨herr, hfree⟩ := RelayStep.takesIn_commits hpc hcommit he (forall_snoc htaken).2
      exact committed_of_free hinv' hout herr hfree he he'

theorem cacheWrWrite_entry {w w' : World} {seq : List (ℕ × ℕ)} {wr : ℕ} {err : Option Error}
    (hinv : RunInv w seq) (hwr : w.wrEntry wr = some a) (he : w.entry a = some e)
    (hwrite : w.cacheWrWrite alloc wr slice = some (err, w')) :
    w'.wrEntry wr = some a ∧ ∀ {e' : CacheEntry}, w'.entry a = some e' →
      e'.buf = (if err.isSome then e.buf else e.buf ++ slice) ∧ e'.state = e.state ∧
        e'.committed = e.committed := by
  obtain ⟨arc, ha, rfl⟩ := World.get_of_entry he
  obtain ⟨err₁, w₁, hwrite₁, _, hcases⟩ := cacheWrWrite_spec alloc slice hinv.toCacheInv hwr ha
  rw [hwrite, Option.some.injEq, Prod.mk.injEq] at hwrite₁
  obtain ⟨rfl, rfl⟩ := hwrite₁
  rcases hcases with ⟨hkept, hnil, hwrs⟩ | ⟨rfl, _, hrew⟩
  · refine ⟨by rwa [World.wrEntry, hwrs], fun he' => ?_⟩
    obtain ⟨hbuf, hstate, hcommitted⟩ := CacheEntry.fields_of_body (hkept.body_eq he he')
    refine ⟨?_, hstate, hcommitted⟩
    cases err with
    | none => simp [hbuf, hnil rfl]
    | some err => simpa using hbuf
  · refine ⟨by rwa [World.wrEntry, hrew.wrs_eq], fun he' => ?_⟩
    rw [hrew.entry, if_pos rfl, Option.some.injEq] at he'
    subst he'
    simp

/-- The piece is written to the entry, or the relay ends with an error. -/
theorem RelayInv.writes (h : RelayInv alloc parse a hist r) (hpc : r.pc = .writes slice eof)
    (hstep : r.call alloc = some r') :
    RelayInv alloc parse a (hist ++ [⟨r, .call⟩]) r' := by
  obtain ⟨chist, hrun⟩ := h.run
  obtain ⟨seq, hinv⟩ := hrun.inv
  obtain ⟨arc, ha⟩ := hinv.toRefInv.wr_arc h.handle
  have he := World.entry_of_get ha
  simp only [Relay.call, hpc, Option.bind_eq_bind, Option.bind_eq_some_iff, Option.pure_def,
    Option.some.injEq] at hstep
  obtain ⟨⟨err, w'⟩, hwrite, rfl⟩ := hstep
  obtain ⟨hhandle, hwritten⟩ := cacheWrWrite_entry hinv h.handle he hwrite
  have hexec : r.world.exec alloc (.write r.ctx.wr slice) =
      some (if err.isNone then .wrote a slice else .silent, w') := by
    simp [World.exec, h.handle, hwrite]
  obtain ⟨slices, hslices⟩ := h.path.slice slice (by simp [hpc, RelayPc.slice])
  refine ⟨⟨_, hrun.step hexec⟩, hhandle, ?_, ?_⟩
  · cases err with
    | some err =>
        refine h.path.snoc (Or.inl rfl) ?_ ?_ ?_ ?_ ?_ ?_ ?_ <;>
          simp [hpc, RelayPc.slice, RelayPc.eof, RelayPc.isCommits, RelayStep.isCommit,
            RelayStep.succeeds, RelayStep.cacheSucceeds, hwrite]
    | none =>
        cases eof <;> refine h.path.snoc (Or.inl rfl) ?_ ?_ ?_ ?_ ?_ ?_ ?_ <;>
          simp [hpc, RelayPc.slice, RelayPc.eof, RelayPc.isCommits, RelayStep.isCommit]
  · intro e' he'
    obtain ⟨hbuf, hstate, hcommitted⟩ := hwritten he'
    have hentry := h.entry he
    rw [hpc] at hentry
    refine hentry.snoc rfl (fun _ => rfl) ?_ ?_ hcommitted
    · rw [hbuf, hentry.buffer]
      cases err with
      | some err => simp [RelayPc.relayed]
      | none => cases eof <;> simp [RelayPc.relayed, hslices]
    · rw [hstate, hentry.state]
      cases err <;> cases eof <;> simp

/-- The entry is completed. It is not invalid, since the relay still has the handle. -/
theorem RelayInv.completes (h : RelayInv alloc parse a hist r) (hpc : r.pc = .completes)
    (hstep : r.call alloc = some r') :
    RelayInv alloc parse a (hist ++ [⟨r, .call⟩]) r' := by
  obtain ⟨chist, hrun⟩ := h.run
  obtain ⟨seq, hinv⟩ := hrun.inv
  obtain ⟨arc, ha⟩ := hinv.toRefInv.wr_arc h.handle
  have he := World.entry_of_get ha
  obtain ⟨w', hcomplete, _, hcases⟩ := cacheWrComplete_spec hinv.toCacheInv h.handle ha
  simp only [Relay.call, hpc, hcomplete, Option.bind_eq_bind, Option.bind_some, Option.pure_def,
    Option.some.injEq] at hstep
  subst hstep
  have hexec : r.world.exec alloc (.complete r.ctx.wr) = some (.silent, w') := by
    simp [World.exec, hcomplete]
  have hentry := h.entry he
  rw [hpc] at hentry
  have hrew : Rewritten a { arc.data with state := .entryComplete } r.world w' := by
    rcases hcases with ⟨_, hstate | hstate⟩ | ⟨_, hrew⟩
    · simp [hentry.state] at hstate
    · exact absurd hstate (hrun.writerInv.valid h.handle he)
    · exact hrew
  refine ⟨⟨_, hrun.step hexec⟩, ?_, ?_, ?_⟩
  · rw [World.wrEntry, hrew.wrs_eq]
    exact h.handle
  · refine h.path.snoc (Or.inl rfl) ?_ ?_ ?_ ?_ ?_ ?_ ?_ <;>
      simp [hpc, RelayPc.slice, RelayPc.eof, RelayPc.isCommits, RelayStep.isCommit]
  · intro e' he'
    rw [hrew.entry, if_pos rfl, Option.some.injEq] at he'
    subst he'
    exact hentry.snoc rfl (fun _ => rfl) hentry.buffer (by simp) rfl

theorem RelayInv.returns (h : RelayInv alloc parse a hist r) :
    r.pc.between = true ∨ (r.call alloc).isSome = true := by
  obtain ⟨chist, hrun⟩ := h.run
  obtain ⟨seq, hinv⟩ := hrun.inv
  obtain ⟨arc, ha⟩ := hinv.toRefInv.wr_arc h.handle
  cases hpc : r.pc with
  | waiting | unregistered => exact Or.inl rfl
  | commits slice eof =>
      obtain ⟨err, w', seq', hcommit, _⟩ := cacheWrCommit_spec alloc hinv.toCacheInv h.handle ha
      exact Or.inr (by simp [Relay.call, hpc, hcommit])
  | writes slice eof =>
      obtain ⟨err, w', hwrite, _⟩ := cacheWrWrite_spec alloc slice hinv.toCacheInv h.handle ha
      exact Or.inr (by simp [Relay.call, hpc, hwrite])
  | completes =>
      obtain ⟨w', hcomplete, _⟩ := cacheWrComplete_spec hinv.toCacheInv h.handle ha
      exact Or.inr (by simp [Relay.call, hpc, hcomplete])

end Call

theorem relayInv_step (hphr : PhrSound parse) (h : RelayInv alloc parse a hist r)
    (hstep : r.Step alloc parse s r') : RelayInv alloc parse a (hist ++ [s]) r' := by
  obtain ⟨before, act⟩ := s
  obtain ⟨rfl, hexec⟩ := hstep
  cases act with
  | read slice eof memory => exact h.read hphr hexec
  | other op => exact h.other hexec
  | call =>
      cases hpc : before.pc with
      | commits slice eof => exact h.commits hpc hexec
      | writes slice eof => exact h.writes hpc hexec
      | completes => exact h.completes hpc hexec
      | waiting | unregistered => simp [Relay.exec, Relay.call, hpc] at hexec

theorem relayInv_of_run (hphr : PhrSound parse)
    (hrun : Lts.Run (RelayStart alloc a) (Relay.Step alloc parse) hist r) :
    RelayInv alloc parse a hist r :=
  hrun.invariant (fun _ => relayInv_start hphr) fun _ _ _ _ => relayInv_step hphr

/-! ## The stream -/

theorem HeaderStatus.parse_eq (hphr : PhrSound parse) {bytes : List UInt8} {status : ℤ}
    (h : HeaderStatus parse bytes status) : ∃ count, parse bytes 0 = .parsed count status := by
  obtain ⟨header, count, ⟨more, rfl⟩, hparse⟩ := h
  exact ⟨count, hphr.append more hparse⟩

/-- The header has been recognized if it has arrived. -/
theorem RelayPath.responseParsed_eq (h : RelayPath alloc parse hist ctx pc)
    (hsucceeds : ∀ s ∈ hist, s.succeeds alloc = true) {count : ℕ} {status : ℤ}
    (hparse : parse (arrived hist).flatten 0 = .parsed count status) :
    ctx.responseParsed = true := by
  by_contra hparsed
  rw [Bool.not_eq_true] at hparsed
  exact h.unparsed hparsed (h.failed hsucceeds).1 count status hparse

theorem RelayPath.accepted (hphr : PhrSound parse) (h : RelayPath alloc parse hist ctx pc)
    (hsucceeds : ∀ s ∈ hist, s.succeeds alloc = true) (hbetween : pc.between = true)
    {stream : List UInt8} {status : ℤ} (hpart : (arrived hist).flatten <+: stream)
    (hheader : HeaderStatus parse stream status) : pc = .waiting ∨ ended hist = true := by
  obtain ⟨hmemory, hwrite⟩ := h.failed hsucceeds
  cases pc with
  | waiting => exact Or.inl rfl
  | commits | writes | completes => simp [RelayPc.between] at hbetween
  | unregistered cause =>
      cases cause with
      | noMemory => exact absurd rfl hmemory
      | writeError => exact absurd rfl hwrite
      | abruptEnd | complete => exact Or.inr (h.eof true rfl)
      | invalidResponse =>
          -- what is not valid does not become a header later
          obtain ⟨more, rfl⟩ := hpart
          have hinvalid := hphr.invalid more (h.invalid rfl)
          obtain ⟨count, hparse⟩ := hheader.parse_eq hphr
          simp [hinvalid] at hparse

theorem RelayEntry.committed_iff (h : RelayEntry alloc parse a hist ctx pc e)
    (hpath : RelayPath alloc parse hist ctx pc)
    (htakes : ∀ s ∈ hist, s.takesIn alloc a = true) (hbetween : pc.between = true) {count : ℕ}
    {status : ℤ} (hparse : parse (arrived hist).flatten 0 = .parsed count status) :
    e.committed = true ↔ status = 200 := by
  have hsucceeds : ∀ s ∈ hist, s.succeeds alloc = true := by
    intro s hs
    have hs' := htakes s hs
    simp only [RelayStep.takesIn, Bool.and_eq_true] at hs'
    exact hs'.1
  constructor
  · intro hcommitted
    obtain ⟨count', hparse'⟩ := h.committed hcommitted
    rw [hparse, PhrResult.parsed.injEq] at hparse'
    exact hparse'.2
  · rintro rfl
    refine h.taken htakes (hpath.responseParsed_eq hsucceeds hparse) ?_ hparse
    cases pc <;> simp_all [RelayPc.between, RelayPc.isCommits]

theorem RelayEntry.completed_iff (h : RelayEntry alloc parse a hist ctx pc e)
    (hpath : RelayPath alloc parse hist ctx pc)
    (hsucceeds : ∀ s ∈ hist, s.succeeds alloc = true) (hbetween : pc.between = true) {count : ℕ}
    {status : ℤ} (hparse : parse (arrived hist).flatten 0 = .parsed count status) :
    e.state = .entryComplete ↔ ended hist = true := by
  obtain ⟨hmemory, hwrite⟩ := hpath.failed hsucceeds
  obtain ⟨habrupt, hinvalid⟩ := hpath.header (hpath.responseParsed_eq hsucceeds hparse)
  rw [h.state]
  cases pc with
  | waiting => simp [hpath.eof false rfl]
  | commits | writes | completes => simp [RelayPc.between] at hbetween
  | unregistered cause =>
      cases cause with
      | noMemory => exact absurd rfl hmemory
      | writeError => exact absurd rfl hwrite
      | abruptEnd => exact absurd rfl habrupt
      | invalidResponse => exact absurd rfl hinvalid
      | complete => simp [hpath.eof true rfl]

/-- However the stream is cut, and whatever the other users of the cache do. Without a stored
entry in its way a commit has its effect, and otherwise the status is 200 if it has. -/
theorem relaySound_of_run (hphr : PhrSound parse)
    (hrun : Lts.Run (RelayStart alloc a) (Relay.Step alloc parse) hist r) :
    RelaySound alloc parse (RelayStep.succeeds alloc) (RelayStep.takesIn alloc a) a hist r ∧
      ∀ status e, HeaderStatus parse (arrived hist).flatten status →
        r.world.entry a = some e → e.committed = true → status = 200 := by
  have hinv := relayInv_of_run hphr hrun
  refine ⟨⟨hinv.returns, ?_, hinv.path.once, ?_, ?_, ?_⟩, ?_⟩
  · obtain ⟨chist, hcache⟩ := hinv.run
    obtain ⟨seq, hcacheInv⟩ := hcache.inv
    obtain ⟨arc, ha⟩ := hcacheInv.toRefInv.wr_arc hinv.handle
    have he := World.entry_of_get ha
    exact ⟨arc.data, he, (hinv.entry he).buffer⟩
  · intro hsucceeds hbetween stream status hpart hheader
    exact hinv.path.accepted hphr hsucceeds hbetween hpart hheader
  · intro htakes hbetween status e hheader he
    obtain ⟨count, hparse⟩ := hheader.parse_eq hphr
    exact (hinv.entry he).committed_iff hinv.path htakes hbetween hparse
  · intro hsucceeds hbetween status e hheader he
    obtain ⟨count, hparse⟩ := hheader.parse_eq hphr
    exact (hinv.entry he).completed_iff hinv.path hsucceeds hbetween hparse
  · intro status e hheader he hcommitted
    obtain ⟨count, hparse⟩ := hheader.parse_eq hphr
    obtain ⟨count', hparse'⟩ := (hinv.entry he).committed hcommitted
    rw [hparse, PhrResult.parsed.injEq] at hparse'
    exact hparse'.2

end Invariant

/-! ## Some runs -/

def phrFixed (header : List UInt8) (status : ℤ) (bytes : List UInt8) (_ : ℕ) : PhrResult :=
  if header <+: bytes then .parsed header.length status
  else if bytes <+: header then .incomplete
  else .invalid

theorem phrSound_phrFixed {header : List UInt8} (status : ℤ) (hne : header ≠ []) :
    PhrSound (phrFixed header status) := by
  refine ⟨?_, ?_, ?_, fun _ hparse => hparse, fun hparse => hparse, fun _ hparse => hparse⟩
  · simp [phrFixed, hne]
  · intro bytes count status' more hparse
    simp only [phrFixed] at hparse ⊢
    split at hparse
    · rename_i hheader
      rw [if_pos (hheader.trans (List.prefix_append _ _)), hparse]
    · split at hparse <;> simp at hparse
  · intro bytes more hparse
    simp only [phrFixed] at hparse ⊢
    split at hparse
    · simp at hparse
    · split at hparse
      · simp at hparse
      · rename_i hheader hbytes
        have hbytes' : bytes <+: bytes ++ more := List.prefix_append _ _
        rw [if_neg, if_neg]
        · exact fun hmore => hbytes (hbytes'.trans hmore)
        · intro hmore
          rcases List.prefix_or_prefix_of_prefix hmore hbytes' with hle | hle
          · exact hheader hle
          · exact hbytes hle

def Relay.execAll (alloc : Alloc) (parse : PhrParse) (r : Relay) :
    List RelayAct → Option (List RelayStep × Relay)
  | [] => some ([], r)
  | act :: acts => do
      let r' ← r.exec alloc parse act
      let (hist, r'') ← r'.execAll alloc parse acts
      return (⟨r, act⟩ :: hist, r'')

section Runs

variable {alloc : Alloc} {parse : PhrParse} {a : ℕ} {hist hist' : List RelayStep} {r r' : Relay}

theorem relayRun_execAll {acts : List RelayAct}
    (hrun : Lts.Run (RelayStart alloc a) (Relay.Step alloc parse) hist r)
    (hexec : r.execAll alloc parse acts = some (hist', r')) :
    Lts.Run (RelayStart alloc a) (Relay.Step alloc parse) (hist ++ hist') r' := by
  induction acts generalizing hist r hist' with
  | nil =>
      simp only [Relay.execAll, Option.some.injEq, Prod.mk.injEq] at hexec
      obtain ⟨rfl, rfl⟩ := hexec
      rwa [List.append_nil]
  | cons act acts ih =>
      simp only [Relay.execAll, Option.bind_eq_bind, Option.bind_eq_some_iff, Option.pure_def,
        Option.some.injEq, Prod.mk.injEq] at hexec
      obtain ⟨r₁, hact, ⟨hist₁, r₂⟩, hrest, rfl, rfl⟩ := hexec
      have hstep : r.Step alloc parse ⟨r, act⟩ r₁ := ⟨rfl, hact⟩
      have hrun' := ih (hrun.snoc hstep) hrest
      rwa [List.append_assoc] at hrun'

def relayOf (wr : ℕ) (w : World) : Relay := ⟨⟨[], wr, false⟩, .waiting, w⟩

/-- The entry of a write handle, if nothing has been done to it. -/
def World.emptyEntry (w : World) (wr a : ℕ) : Bool :=
  w.wrEntry wr = some a && (w.entry a).all fun e =>
    e.buf = [] && e.state = .entryPartial && !e.committed

theorem relayStart_relayOf {chist : List CacheStep} {w : World} {wr : ℕ} (hrun : Run alloc chist w)
    (hempty : w.emptyEntry wr a = true) : RelayStart alloc a (relayOf wr w) := by
  simp only [World.emptyEntry, Bool.and_eq_true, decide_eq_true_eq] at hempty
  obtain ⟨hwr, hentry⟩ := hempty
  refine ⟨⟨chist, hrun⟩, hwr, fun he => ?_, rfl, rfl, rfl⟩
  have he' : w.entry a = some _ := he
  simpa [he', and_assoc] using hentry

theorem exists_relayRun (alloc : Alloc) (parse : PhrParse) (ops : List CacheOp) (wr a : ℕ)
    (acts : List RelayAct) (P : List RelayStep → Relay → Bool)
    (htest : ((cacheRun alloc 100 ops).any fun x => x.2.emptyEntry wr a &&
      ((relayOf wr x.2).execAll alloc parse acts).any fun y => P y.1 y.2) = true) :
    ∃ hist r, Lts.Run (RelayStart alloc a) (Relay.Step alloc parse) hist r ∧ P hist r = true := by
  obtain ⟨⟨chist, w⟩, hcache, hrest⟩ := (Option.any_eq_true _ _).mp htest
  rw [Bool.and_eq_true] at hrest
  obtain ⟨hempty, hrest⟩ := hrest
  obtain ⟨⟨hist, r⟩, hexec, hP⟩ := (Option.any_eq_true _ _).mp hrest
  have hstart := relayStart_relayOf (run_of_cacheRun hcache) hempty
  exact ⟨hist, r, relayRun_execAll (.start hstart) hexec, hP⟩

end Runs

def okHeader : List UInt8 :=
  [72, 84, 84, 80, 47, 49, 46, 49, 32, 50, 48, 48, 32, 79, 75, 13, 10, 13, 10]

/-- The header arrives in two pieces, the second of which has the first byte of the body. -/
def twoPieces : List RelayAct :=
  [.read (okHeader.take 10) false true, .call, .read (okHeader.drop 10 ++ [97]) false true, .call,
    .call]

def endOfStream : List RelayAct := [.read [] true true, .call, .call]

theorem relaySound_two_pieces :
    PhrSound (phrFixed okHeader 200) ∧ ∃ hist r,
      Lts.Run (RelayStart (fun _ => true) 0)
        (Relay.Step (fun _ => true) (phrFixed okHeader 200)) hist r ∧
      arrived hist = [okHeader.take 10, okHeader.drop 10 ++ [97], []] ∧
      (r.world.entry 0).map (fun e => (e.buf, e.committed, e.state)) =
        some (okHeader ++ [97], true, .entryComplete) ∧
      RelaySound (fun _ => true) (phrFixed okHeader 200) (RelayStep.succeeds fun _ => true)
        (RelayStep.takesIn (fun _ => true) 0) 0 hist r := by
  have hphr : PhrSound (phrFixed okHeader 200) := phrSound_phrFixed 200 (by simp [okHeader])
  obtain ⟨hist, r, hrun, htest⟩ := exists_relayRun (fun _ => true) (phrFixed okHeader 200)
    [.fetch ⟨.initial, []⟩] 0 0 (twoPieces ++ endOfStream)
    (fun hist r => decide (arrived hist = [okHeader.take 10, okHeader.drop 10 ++ [97], []] ∧
      (r.world.entry 0).map (fun e => (e.buf, e.committed, e.state)) =
        some (okHeader ++ [97], true, .entryComplete))) (by decide +kernel)
  obtain ⟨harrived, hentry⟩ := of_decide_eq_true htest
  exact ⟨hphr, hist, r, hrun, harrived, hentry, (relaySound_of_run hphr hrun).1⟩

theorem not_relaySound_of_uncommitted {alloc : Alloc} {header : List UInt8}
    {ok okCommit : RelayStep → Bool} {a : ℕ} {hist : List RelayStep} {r : Relay}
    (hok : ∀ s ∈ hist, okCommit s = true) (hbetween : r.pc.between = true)
    (hheader : header <+: (arrived hist).flatten)
    (hentry : (r.world.entry a).map (fun e => e.committed) = some false) :
    ¬RelaySound alloc (phrFixed header 200) ok okCommit a hist r := by
  intro hsound
  obtain ⟨e, he, hcommitted⟩ := Option.map_eq_some_iff.mp hentry
  have hstatus : HeaderStatus (phrFixed header 200) (arrived hist).flatten 200 :=
    ⟨header, header.length, hheader, by simp [phrFixed]⟩
  have hiff := hsound.committed hok hbetween 200 e hstatus he
  simp [hcommitted] at hiff

/-- The entry of another client is stored with one byte. Then the entry of the relay is committed
if the header arrives in one piece, but not if it arrives in two. It is not committed either if
there is no memory for the copy. -/
theorem not_relaySound_without_errors :
    PhrSound (phrFixed okHeader 200) ∧
    (∃ hist r hist' r',
      Lts.Run (RelayStart (fun _ => true) 1)
        (Relay.Step (fun _ => true) (phrFixed okHeader 200)) hist r ∧
      Lts.Run (RelayStart (fun _ => true) 1)
        (Relay.Step (fun _ => true) (phrFixed okHeader 200)) hist' r' ∧
      (arrived hist).flatten = (arrived hist').flatten ∧
      (r'.world.entry 1).map (fun e => e.committed) = some true ∧
      ¬RelaySound (fun _ => true) (phrFixed okHeader 200)
        (RelayStep.cacheSucceeds fun _ => true) (RelayStep.cacheSucceeds fun _ => true) 1 hist r) ∧
    ∃ hist r,
      Lts.Run (RelayStart (fun _ => true) 0)
        (Relay.Step (fun _ => true) (phrFixed okHeader 200)) hist r ∧
      r.pc = .unregistered .noMemory ∧
      ¬RelaySound (fun _ => true) (phrFixed okHeader 200)
        (RelayStep.cacheSucceeds fun _ => true) (RelayStep.cacheSucceeds fun _ => true) 0
        hist r := by
  refine ⟨phrSound_phrFixed 200 (by simp [okHeader]), ?_, ?_⟩
  · obtain ⟨hist, r, hrun, htest⟩ := exists_relayRun (fun _ => true) (phrFixed okHeader 200)
      [.fetch ⟨.initial, []⟩, .fetch ⟨.initial, []⟩, .write 0 [97], .commit 0] 1 1 twoPieces
      (fun hist r => decide ((∀ s ∈ hist, s.cacheSucceeds (fun _ => true) = true) ∧
        r.pc.between = true ∧ (arrived hist).flatten = okHeader ++ [97] ∧
        (r.world.entry 1).map (fun e => e.committed) = some false)) (by decide +kernel)
    obtain ⟨hist', r', hrun', htest'⟩ := exists_relayRun (fun _ => true) (phrFixed okHeader 200)
      [.fetch ⟨.initial, []⟩, .fetch ⟨.initial, []⟩, .write 0 [97], .commit 0] 1 1
      [.read (okHeader ++ [97]) false true, .call, .call]
      (fun hist r => decide ((arrived hist).flatten = okHeader ++ [97] ∧
        (r.world.entry 1).map (fun e => e.committed) = some true)) (by decide +kernel)
    obtain ⟨hok, hbetween, hbytes, hentry⟩ := of_decide_eq_true htest
    obtain ⟨hbytes', hentry'⟩ := of_decide_eq_true htest'
    refine ⟨hist, r, hist', r', hrun, hrun', hbytes.trans hbytes'.symm, hentry',
      not_relaySound_of_uncommitted hok hbetween ?_ hentry⟩
    rw [hbytes]
    exact List.prefix_append _ _
  · obtain ⟨hist, r, hrun, htest⟩ := exists_relayRun (fun _ => true) (phrFixed okHeader 200)
      [.fetch ⟨.initial, []⟩] 0 0 [.read okHeader false false]
      (fun hist r => decide ((∀ s ∈ hist, s.cacheSucceeds (fun _ => true) = true) ∧
        r.pc = .unregistered .noMemory ∧ (arrived hist).flatten = okHeader ∧
        (r.world.entry 0).map (fun e => e.committed) = some false)) (by decide +kernel)
    obtain ⟨hok, hpc, hbytes, hentry⟩ := of_decide_eq_true htest
    refine ⟨hist, r, hrun, hpc, not_relaySound_of_uncommitted hok ?_ ?_ hentry⟩
    · rw [hpc]
      rfl
    · simp [hbytes]

end PosixThreads
