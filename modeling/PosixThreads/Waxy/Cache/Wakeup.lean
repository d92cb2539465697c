import Mathlib.Logic.Function.Basic
import PosixThreads.Waxy.Cache.Run

/-!
# Readers and the event loop

A reader is processed by the event loop after its flag `force` has been set. The loop
takes the flag and calls `rd_process`, which looks at the entry once and then calls the
callbacks of the reader, while writers go on. `RdPhase` tells how far it has come.

A writer changes an entry and then forces the readers one by one. It holds the lock of
the entry meanwhile, but the loop does not need that lock to take a flag. So the change
and the calls of `handler_force` are steps of their own here, and `pending` has the
readers that are still to be forced.

`WakeInv` is the reason why no wake-up is lost: if the flag of a reader is clear and
nobody is about to set it, then nothing has happened to the entry since `rd_process`
has looked at it.
-/

namespace PosixThreads

/-- How far the event loop has come with a reader. -/
inductive RdPhase
  | idle
  /-- The loop has taken the flag. -/
  | dispatched
  /-- `rd_process` has looked at the entry. -/
  | snapshot (newLen : ℕ) (state : CacheEntryState)
  /-- `rd_process` has called `on_read`. -/
  | reading (newLen : ℕ) (state : CacheEntryState)
  /-- `rd_process` is behind the first conditional statement. -/
  | updating (state : CacheEntryState)
  | returning
  deriving DecidableEq, Repr

structure LoopState where
  world : World
  phase : ℕ → RdPhase
  pending : List ℕ

namespace LoopState

def goto (s : LoopState) (r : ℕ) (phase : RdPhase) : LoopState :=
  { s with phase := Function.update s.phase r phase }

def setRd (s : LoopState) (r : ℕ) (rd : CacheRd) : LoopState :=
  { s with world := { s.world with rds := s.world.rds.set r rd } }

/-- `loop_prepare_pollfd_process_handler`: the flag of a reader that is not being processed
is taken, and then the reader is dispatched. -/
def take (s : LoopState) (r : ℕ) : Option LoopState := do
  let rd ← s.world.rds.get r
  if s.phase r = .idle ∧ rd.force = true then
    return (s.setRd r { rd with force := false }).goto r .dispatched
  else none

/-- The next step of `rd_process`. The callbacks `on_read` and `on_update` take place in
the phases `reading` and `updating`. -/
def rdProcess (s : LoopState) (r : ℕ) : Option LoopState := do
  let rd ← s.world.rds.get r
  match s.phase r with
  | .idle => none
  | .dispatched =>
      let e ← s.world.arcGet rd.entry
      return s.goto r (.snapshot e.buf.length e.state)
  | .snapshot newLen state =>
      if newLen > rd.count ∨ (some state ≠ rd.lastState ∧ state = .entryComplete) then
        return s.goto r (.reading newLen state)
      else return s.goto r (.updating state)
  | .reading newLen state =>
      let s := if rd.count < newLen then s.setRd r { rd with force := true } else s
      return s.goto r (.updating state)
  | .updating state =>
      let s :=
        if some state ≠ rd.lastState then s.setRd r { rd with lastState := some state } else s
      return s.goto r .returning
  | .returning => return s.goto r .idle

/-- What a writer does up to the wake-up, with the entry whose readers are to be woken. An
entry that has become invalid in this way is then given up by `cache_wr_free` proper. -/
def writerChange (alloc : Alloc) (w : World) : CacheOp → Option (Option ℕ × World)
  | .write wr slice => do
      let (_, woken, w) ← w.cacheWrAppend alloc wr slice
      return (woken, w)
  | .complete wr => do
      let arc ← w.wrEntry wr
      let _ ← w.arcGet arc
      let (changed, w) ← w.cacheEntryPutState arc .entryComplete
      return (if changed then some arc else none, w)
  | .wrFree wr => do
      let arc ← w.wrEntry wr
      let e ← w.arcGet arc
      if e.state = .entryPartial then do
        let (changed, w) ← w.cacheEntryPutState arc .entryInvalid
        return (if changed then some arc else none, w)
      else return (none, w)
  | _ => none

/-- `cache_entry_wake_unsync` is entered. -/
def startWake (s : LoopState) (arc : ℕ) : Option LoopState := do
  let e ← s.world.entry arc
  return { s with pending := e.handles ++ s.pending }

def change (alloc : Alloc) (s : LoopState) (op : CacheOp) : Option LoopState := do
  let (woken, w) ← writerChange alloc s.world op
  match woken with
  | none => return { s with world := w }
  | some arc => startWake { s with world := w } arc

/-- `handler_force` for one of the pending readers. -/
def forceNext (s : LoopState) (r : ℕ) : Option LoopState := do
  if r ∈ s.pending then
    let w ← s.world.handlerForce r
    return { s with world := w, pending := s.pending.erase r }
  else none

end LoopState

/-- The steps of the writers, the readers and the event loop. The operations of the cache
may also be done at once. -/
inductive LoopAct
  | exec (op : CacheOp)
  | change (op : CacheOp)
  | force (r : ℕ)
  | take (r : ℕ)
  | process (r : ℕ)
  deriving DecidableEq, Repr

def LoopState.step (alloc : Alloc) (s : LoopState) : LoopAct → Option LoopState
  | .exec op => do
      let (_, w) ← s.world.exec alloc op
      return { s with world := w }
  | .change op => s.change alloc op
  | .force r => s.forceNext r
  | .take r => s.take r
  | .process r => s.rdProcess r

/-- `upstream_on_read` completes a response only after a write. -/
def completesWritten (w : World) : CacheOp → Bool
  | .complete wr => ((w.wrEntry wr).bind w.entry).any fun e => e.buf ≠ []
  | _ => true

def LoopAct.ok (s : LoopState) : LoopAct → Bool
  | .exec op | .change op => completesWritten s.world op
  | _ => true

inductive LoopRun (alloc : Alloc) : LoopState → Prop
  | new {self sizeLimit : ℕ} {w : World} (hnew : cacheNew alloc self sizeLimit = some (.ok w)) :
      LoopRun alloc ⟨w, fun _ => .idle, []⟩
  | step {s s' : LoopState} {act : LoopAct} (hrun : LoopRun alloc s) (hok : act.ok s = true)
      (hstep : s.step alloc act = some s') : LoopRun alloc s'

/-! ## The invariant -/

def Settled (rd : CacheRd) (e : CacheEntry) : RdPhase → Prop
  | .idle => rd.count = e.buf.length ∧ (e.state = .entryPartial ∨ rd.lastState = some e.state)
  | .dispatched => True
  | .snapshot newLen state | .reading newLen state => e.buf.length = newLen ∧ e.state = state
  | .updating state => rd.count = e.buf.length ∧ e.state = state
  | .returning => rd.count = e.buf.length ∧ rd.lastState = some e.state

structure WakeInv (s : LoopState) : Prop where
  registered : ∀ r rd, s.world.rds.get r = some rd → rd.registered = true
  nonempty : ∀ a e, s.world.entry a = some e → e.state = .entryComplete → e.buf ≠ []
  fresh : ∀ r, s.world.rds.next ≤ r → s.phase r = .idle
  settled : ∀ r rd e, s.world.rds.get r = some rd → s.world.entry rd.entry = some e →
    rd.force = false → r ∉ s.pending → Settled rd e (s.phase r)

theorem Settled.congr {rd : CacheRd} {e e' : CacheEntry} {phase : RdPhase}
    (h : Settled rd e phase) (heq : e'.content = e.content) : Settled rd e' phase := by
  obtain ⟨hbuf, hstate⟩ := CacheEntry.buf_of_content heq
  cases phase <;> simp only [Settled, hbuf, hstate] at h ⊢ <;> exact h

section Step

variable {alloc : Alloc} {s : LoopState} {w : World}

theorem WakeInv.quiet (h : WakeInv s) (hin : ReadersIn s.world)
    (hquiet : Quiet CacheEntry.content s.world w) : WakeInv { s with world := w } := by
  have hnonempty : ∀ a e, w.entry a = some e → e.state = .entryComplete → e.buf ≠ [] := by
    intro a e he hstate
    rcases hquiet.entry he with ⟨e₀, he₀, heq⟩ | ⟨_, url, heq⟩
    · obtain ⟨hbuf, hstate₀⟩ := CacheEntry.buf_of_content heq
      rw [hbuf]
      exact h.nonempty a e₀ he₀ (hstate₀.symm.trans hstate)
    · rw [(CacheEntry.buf_of_content heq).2] at hstate
      simp [CacheEntry.new] at hstate
  refine ⟨?_, hnonempty, fun r hle => h.fresh r (hquiet.rds_le.trans hle), ?_⟩
  · intro r rd hr
    rcases hquiet.reader hr with hrd | ⟨_, hfresh⟩
    · exact h.registered r rd hrd
    · exact hfresh.registered_eq
  · intro r rd e hr he hforce hpending
    rcases hquiet.reader hr with hrd | ⟨hle, hfresh⟩
    · obtain ⟨e₀, he₀, heq⟩ := hquiet.entry_of_lt (hin r rd hrd) he
      exact (h.settled r rd e₀ hrd he₀ hforce hpending).congr heq
    · -- a new reader is forced unless there is nothing to read
      obtain ⟨hstate, hforce'⟩ := hfresh.force_eq he
      rw [hforce] at hforce'
      have hlen : e.buf.length = 0 := by simpa using hforce'.symm
      simp only [h.fresh r hle, Settled, hfresh.count_eq, hlen, true_and]
      left
      cases hcases : e.state with
      | entryComplete => exact absurd (List.length_eq_zero_iff.mp hlen) (hnonempty _ _ he hcases)
      | entryPartial => rfl
      | entryInvalid => exact absurd hcases hstate

theorem CacheRd.woken_of_ne {a : ℕ} {rd : CacheRd} (hne : rd.entry ≠ a) : rd.woken a = rd := by
  simp [CacheRd.woken, hne]

theorem CacheRd.woken_force {a : ℕ} {rd : CacheRd} (hentry : rd.entry = a)
    (hreg : rd.registered = true) : (rd.woken a).force = true := by
  simp [CacheRd.woken, hentry, hreg]

@[simp] theorem CacheRd.woken_registered (a : ℕ) (rd : CacheRd) :
    (rd.woken a).registered = rd.registered := by
  unfold CacheRd.woken
  split <;> rfl

theorem WakeInv.rewritten {a : ℕ} {e' : CacheEntry} (h : WakeInv s)
    (hrew : Rewritten a e' s.world w)
    (hnonempty : e'.state = .entryComplete → e'.buf ≠ []) : WakeInv { s with world := w } := by
  refine ⟨?_, ?_, fun r hle => h.fresh r (by rwa [← hrew.rds_next]), ?_⟩
  · intro r rd' hr
    obtain ⟨rd, hrd, rfl⟩ := hrew.reader_of_get hr
    rw [CacheRd.woken_registered]
    exact h.registered r rd hrd
  · intro b e he hstate
    simp only [hrew.entry] at he
    split at he
    · cases he
      exact hnonempty hstate
    · exact h.nonempty b e he hstate
  · intro r rd' e hr he hforce hpending
    obtain ⟨rd, hrd, rfl⟩ := hrew.reader_of_get hr
    by_cases hne : rd.entry = a
    · rw [CacheRd.woken_force hne (h.registered r rd hrd)] at hforce
      simp at hforce
    · rw [CacheRd.woken_of_ne hne] at he hforce ⊢
      simp only [hrew.entry, if_neg hne] at he
      exact h.settled r rd e hrd he hforce hpending

/-- A reader that has everything gets nothing. -/
theorem Settled.advance {rd : CacheRd} {e : CacheEntry} {phase : RdPhase} {n : ℕ}
    (h : Settled rd e phase) (hn : rd.count + n ≤ e.buf.length) :
    Settled { rd with count := rd.count + n } e phase := by
  cases phase <;> simp only [Settled] at h ⊢ <;> first | exact h | exact ⟨by omega, h.2⟩

theorem WakeInv.advance {r n : ℕ} {rd : CacheRd} {e : CacheEntry} (h : WakeInv s)
    (hr : s.world.rds.get r = some rd) (he : s.world.entry rd.entry = some e)
    (hn : rd.count + n ≤ e.buf.length) :
    WakeInv { s with world := s.world.advance r rd n } := by
  have hget := Heap.get_set hr { rd with count := rd.count + n }
  refine ⟨?_, h.nonempty, fun q hle => h.fresh q (by simpa [World.advance] using hle), ?_⟩
  · intro q rd₁ hq
    simp only [World.advance, hget] at hq
    split at hq
    · cases hq
      exact h.registered r rd hr
    · exact h.registered q rd₁ hq
  · intro q rd₁ e₁ hq he₁ hforce hpending
    simp only [World.advance, hget] at hq
    split at hq
    · rename_i heq
      subst heq
      cases hq
      have he₂ : s.world.entry rd.entry = some e₁ := he₁
      rw [he, Option.some.injEq] at he₂
      subst he₂
      exact (h.settled q rd e hr he hforce hpending).advance hn
    · exact h.settled q rd₁ e₁ hq he₁ hforce hpending

theorem WakeInv.exec {op : CacheOp} {event : CacheEvent} {seq : List (ℕ × ℕ)} (h : WakeInv s)
    (hinv : RunInv s.world seq) (hok : completesWritten s.world op = true)
    (hexec : s.world.exec alloc op = some (event, w)) : WakeInv { s with world := w } := by
  have hin := hinv.toRefInv.readersIn
  cases (hinv.exec hexec).2 with
  | quiet hquiet => exact h.quiet hin hquiet
  | wroteNothing a hquiet => exact h.quiet hin hquiet
  | wrote he hstate hrew => exact h.rewritten hrew fun hcomplete => absurd hcomplete hstate
  | @finished w₁ _ a e state he hstate hfinal hcomplete hrew hkept =>
      have hwritten : state = .entryComplete → e.buf ≠ [] := by
        intro hstate'
        obtain ⟨wr, rfl, hwr⟩ := hcomplete hstate'
        simpa [completesWritten, hwr, he] using hok
      exact (h.rewritten hrew hwritten).quiet (hrew.readersIn hin) (.of_kept hkept)
  | received hr he =>
      have hle := hinv.counts _ _ _ hr he
      refine h.advance hr he ?_
      rw [readChunk_length]
      omega

/-! ## A change and the wake-ups after it -/

theorem CountsIn.changed {a : ℕ} {e e' : CacheEntry} {w' : World} (hcounts : CountsIn w)
    (he : w.entry a = some e) (hlen : e.buf.length ≤ e'.buf.length) (h : Changed a e' w w') :
    CountsIn w' := by
  intro r rd e₁ hr he₁
  rw [h.rds_eq] at hr
  rw [h.entry] at he₁
  split at he₁
  · rename_i heq
    cases he₁
    rw [← heq] at he
    exact (hcounts r rd e hr he).trans hlen
  · exact hcounts r rd e₁ hr he₁

def WriterEffect (woken : Option ℕ) (w w' : World) : Prop :=
  (woken = none ∧ Quiet CacheEntry.content w w') ∨
    ∃ a e', woken = some a ∧ Changed a e' w w' ∧ (e'.state = .entryComplete → e'.buf ≠ [])

/-- The part that completing a response and giving it up have in common. -/
theorem putState_effect {a : ℕ} {arc : ArcEntry} {seq : List (ℕ × ℕ)} (state : CacheEntryState)
    (h : RunInv w seq) (ha : w.arcs.get a = some arc)
    (hwritten : state = .entryComplete → arc.data.buf ≠ []) :
    ∃ changed w', w.cacheEntryPutState a state = some (changed, w') ∧ RunInv w' seq ∧
      WriterEffect (if changed then some a else none) w w' := by
  obtain ⟨changed, w', hput, href, hcache, hcases⟩ := cacheEntryPutState_spec h.toRefInv ha state
  refine ⟨changed, w', hput, ?_⟩
  rcases hcases with ⟨rfl, rfl, _⟩ | ⟨rfl, _, _, hchanged⟩
  · exact ⟨h, .inl ⟨rfl, .of_rds_eq (.of_arcs_eq _ rfl rfl) rfl⟩⟩
  · exact ⟨⟨h.toCacheInv.changed href hchanged ha rfl hcache,
      h.counts.changed (World.entry_of_get ha) (by simp) hchanged⟩,
      .inr ⟨a, _, rfl, hchanged, hwritten⟩⟩

theorem writerChange_spec {op : CacheOp} {woken : Option ℕ} {w' : World} {seq : List (ℕ × ℕ)}
    (h : RunInv w seq) (hok : completesWritten w op = true)
    (hchange : LoopState.writerChange alloc w op = some (woken, w')) :
    RunInv w' seq ∧ WriterEffect woken w w' := by
  have hrefl : Quiet CacheEntry.content w w := .of_rds_eq (.of_arcs_eq _ rfl rfl) rfl
  cases op with
  | fetch _ | commit _ | rdFree _ | read _ _ => simp [LoopState.writerChange] at hchange
  | write wr slice =>
      cases hwr : w.wrEntry wr with
      | none =>
          by_cases hnil : slice = []
          · simp only [LoopState.writerChange, World.cacheWrAppend, hnil, List.length_nil, if_true,
              Option.bind_eq_bind, Option.bind_some, Option.pure_def, Option.some.injEq,
              Prod.mk.injEq] at hchange
            obtain ⟨rfl, rfl⟩ := hchange
            exact ⟨h, .inl ⟨rfl, hrefl⟩⟩
          · simp [LoopState.writerChange, World.cacheWrAppend, hnil, hwr] at hchange
      | some a =>
          obtain ⟨arc, ha⟩ := h.toRefInv.wr_arc hwr
          obtain ⟨err, woken', w₁, happend, hinv, hcases⟩ :=
            cacheWrAppend_spec alloc slice h.toCacheInv hwr ha
          simp only [LoopState.writerChange, happend, Option.bind_eq_bind, Option.bind_some,
            Option.pure_def, Option.some.injEq, Prod.mk.injEq] at hchange
          obtain ⟨rfl, rfl⟩ := hchange
          rcases hcases with ⟨rfl, hkept, _⟩ | ⟨rfl, _, hstate, hchanged⟩
          · exact ⟨⟨hinv, h.counts.quiet h.toRefInv.readersIn (.of_kept hkept)⟩,
              .inl ⟨rfl, .of_kept hkept⟩⟩
          · exact ⟨⟨hinv, h.counts.changed (World.entry_of_get ha) (by simp) hchanged⟩,
              .inr ⟨a, _, rfl, hchanged, fun hcomplete => absurd hcomplete hstate⟩⟩
  | complete wr =>
      cases hwr : w.wrEntry wr with
      | none => simp [LoopState.writerChange, hwr] at hchange
      | some a =>
          obtain ⟨arc, ha⟩ := h.toRefInv.wr_arc hwr
          have hwritten : arc.data.buf ≠ [] := by
            simpa [completesWritten, hwr, World.entry_of_get ha] using hok
          obtain ⟨changed, w₁, hput, hinv, heffect⟩ :=
            putState_effect .entryComplete h ha fun _ => hwritten
          simp only [LoopState.writerChange, hwr, h.toRefInv.arcGet_eq ha, hput,
            Option.bind_eq_bind, Option.bind_some, Option.pure_def, Option.some.injEq,
            Prod.mk.injEq] at hchange
          obtain ⟨rfl, rfl⟩ := hchange
          exact ⟨hinv, heffect⟩
  | wrFree wr =>
      cases hwr : w.wrEntry wr with
      | none => simp [LoopState.writerChange, hwr] at hchange
      | some a =>
          obtain ⟨arc, ha⟩ := h.toRefInv.wr_arc hwr
          by_cases hstate : arc.data.state = .entryPartial
          · obtain ⟨changed, w₁, hput, hinv, heffect⟩ :=
              putState_effect .entryInvalid h ha (by simp)
            simp only [LoopState.writerChange, hwr, h.toRefInv.arcGet_eq ha, hput, hstate, if_true,
              Option.bind_eq_bind, Option.bind_some, Option.pure_def, Option.some.injEq,
              Prod.mk.injEq] at hchange
            obtain ⟨rfl, rfl⟩ := hchange
            exact ⟨hinv, heffect⟩
          · simp only [LoopState.writerChange, hwr, h.toRefInv.arcGet_eq ha, if_neg hstate,
              Option.bind_eq_bind, Option.bind_some, Option.pure_def, Option.some.injEq,
              Prod.mk.injEq] at hchange
            obtain ⟨rfl, rfl⟩ := hchange
            exact ⟨h, .inl ⟨rfl, hrefl⟩⟩

/-- The readers of a changed entry are pending. -/
theorem WakeInv.changed {a : ℕ} {e' : CacheEntry} {seq : List (ℕ × ℕ)} (h : WakeInv s)
    (hinv : RunInv w seq) (hchanged : Changed a e' s.world w)
    (hwritten : e'.state = .entryComplete → e'.buf ≠ []) :
    WakeInv { s with world := w, pending := e'.handles ++ s.pending } := by
  obtain ⟨arc, ha, rfl⟩ := hchanged.get_eq
  have hhandles := hinv.handles ha
  refine ⟨?_, ?_, fun r hle => h.fresh r (by rwa [← hchanged.rds_eq]), ?_⟩
  · intro r rd hr
    simp only [hchanged.rds_eq] at hr
    exact h.registered r rd hr
  · intro b e he hstate
    simp only [hchanged.entry] at he
    split at he
    · cases he
      exact hwritten hstate
    · exact h.nonempty b e he hstate
  · intro r rd e hr he hforce hpending
    rw [List.mem_append, not_or] at hpending
    have hr' := hr
    simp only [hchanged.rds_eq] at hr'
    have hne : rd.entry ≠ a := fun heq =>
      hpending.1 ((hhandles.mem_iff r).mpr ⟨rd, hr, heq, h.registered r rd hr'⟩)
    simp only [hchanged.entry, if_neg hne] at he
    exact h.settled r rd e hr' he hforce hpending.2

theorem WakeInv.change {op : CacheOp} {s' : LoopState} {seq : List (ℕ × ℕ)} (h : WakeInv s)
    (hinv : RunInv s.world seq) (hok : completesWritten s.world op = true)
    (hchange : s.change alloc op = some s') : RunInv s'.world seq ∧ WakeInv s' := by
  simp only [LoopState.change, Option.bind_eq_bind, Option.bind_eq_some_iff] at hchange
  obtain ⟨⟨woken, w'⟩, hwriter, hrest⟩ := hchange
  obtain ⟨hinv', heffect⟩ := writerChange_spec hinv hok hwriter
  rcases heffect with ⟨rfl, hquiet⟩ | ⟨a, e', rfl, hchanged, hwritten⟩
  · simp only [Option.pure_def, Option.some.injEq] at hrest
    subst hrest
    exact ⟨hinv', h.quiet hinv.toRefInv.readersIn hquiet⟩
  · have he' : w'.entry a = some e' := by rw [hchanged.entry, if_pos rfl]
    simp only [LoopState.startWake, he', Option.bind_eq_bind, Option.bind_some, Option.pure_def,
      Option.some.injEq] at hrest
    subst hrest
    exact ⟨hinv', h.changed hinv' hchanged hwritten⟩

/-! ## The event loop -/

theorem RunInv.setRd {seq : List (ℕ × ℕ)} {r : ℕ} {rd : CacheRd} (rd' : CacheRd)
    (h : RunInv w seq) (hr : w.rds.get r = some rd) (hentry : rd'.entry = rd.entry)
    (hreg : rd'.registered = rd.registered) (hcount : rd'.count = rd.count) :
    RunInv { w with rds := w.rds.set r rd' } seq := by
  have href := h.toRefInv.setRd rd' hr hentry hreg
  refine ⟨⟨h.toIndexInv.of_kept href (.of_arcs_eq _ rfl rfl) rfl rfl, href⟩, ?_⟩
  intro q rd₁ e hq he
  simp only [Heap.get_set hr] at hq
  split at hq
  · cases hq
    rw [hcount]
    refine h.counts r rd e hr ?_
    rw [← hentry]
    exact he
  · exact h.counts q rd₁ e hq he

theorem WakeInv.setRd {r : ℕ} {rd : CacheRd} {e : CacheEntry} {pending : List ℕ}
    (rd' : CacheRd) (phase : RdPhase) (h : WakeInv s) (hr : s.world.rds.get r = some rd)
    (he : s.world.entry rd.entry = some e) (hentry : rd'.entry = rd.entry)
    (hreg : rd'.registered = rd.registered) (hpending : ∀ q, q ≠ r → q ∉ pending → q ∉ s.pending)
    (hsettled : rd'.force = false → r ∉ pending → Settled rd' e phase) :
    WakeInv { s.setRd r rd' with
      phase := Function.update s.phase r phase
      pending := pending } := by
  have hget := Heap.get_set hr rd'
  refine ⟨?_, h.nonempty, ?_, ?_⟩
  · intro q rd₁ hq
    simp only [LoopState.setRd, hget] at hq
    split at hq
    · cases hq
      rw [hreg]
      exact h.registered r rd hr
    · exact h.registered q rd₁ hq
  · intro q hle
    simp only [LoopState.setRd, Heap.next_set] at hle
    have hne : q ≠ r := by
      rintro rfl
      have := Heap.lt_next_of_get hr
      omega
    simp only [Function.update_of_ne hne]
    exact h.fresh q hle
  · intro q rd₁ e₁ hq he₁ hforce hq'
    simp only [LoopState.setRd, hget] at hq
    split at hq
    · rename_i heq
      subst heq
      cases hq
      have he₂ : s.world.entry rd'.entry = some e₁ := he₁
      rw [hentry, he, Option.some.injEq] at he₂
      subst he₂
      simp only [Function.update_self]
      exact hsettled hforce hq'
    · rename_i hne
      simp only [Function.update_of_ne hne]
      exact h.settled q rd₁ e₁ hq he₁ hforce (hpending q hne hq')

/-- A step of the loop that only moves one reader to another phase. -/
theorem WakeInv.goto {r : ℕ} {rd : CacheRd} {e : CacheEntry} {phase : RdPhase} (h : WakeInv s)
    (hr : s.world.rds.get r = some rd) (he : s.world.entry rd.entry = some e)
    (hsettled : rd.force = false → Settled rd e (s.phase r) → Settled rd e phase) :
    WakeInv (s.goto r phase) := by
  have hmove := h.setRd rd phase hr he rfl rfl (fun _ _ hq => hq)
    fun hforce hpending => hsettled hforce (h.settled r rd e hr he hforce hpending)
  have hsame : s.setRd r rd = s := by rw [LoopState.setRd, Heap.set_self hr]
  rw [hsame] at hmove
  exact hmove

theorem WakeInv.take {r : ℕ} {s' : LoopState} {seq : List (ℕ × ℕ)} (h : WakeInv s)
    (hinv : RunInv s.world seq) (htake : s.take r = some s') :
    RunInv s'.world seq ∧ WakeInv s' := by
  cases hr : s.world.rds.get r with
  | none => simp [LoopState.take, hr] at htake
  | some rd =>
      obtain ⟨arc, ha⟩ := hinv.rd_alive hr
      simp only [LoopState.take, hr, Option.bind_eq_bind, Option.bind_some] at htake
      split at htake
      · cases htake
        exact ⟨hinv.setRd _ hr rfl rfl rfl, h.setRd _ _ hr (World.entry_of_get ha) rfl rfl
          (fun _ _ hq => hq) fun _ _ => trivial⟩
      · simp at htake

theorem WakeInv.forceNext {r : ℕ} {s' : LoopState} {seq : List (ℕ × ℕ)} (h : WakeInv s)
    (hinv : RunInv s.world seq) (hforce : s.forceNext r = some s') :
    RunInv s'.world seq ∧ WakeInv s' := by
  cases hr : s.world.rds.get r with
  | none => simp [LoopState.forceNext, World.handlerForce, hr] at hforce
  | some rd =>
      obtain ⟨arc, ha⟩ := hinv.rd_alive hr
      simp only [LoopState.forceNext, World.handlerForce, hr, Option.bind_eq_bind,
        Option.bind_some, Option.pure_def] at hforce
      split at hforce
      · cases hforce
        refine ⟨hinv.setRd _ hr rfl rfl rfl, ?_⟩
        have hmove := h.setRd { rd with force := true } (s.phase r) hr (World.entry_of_get ha) rfl
          rfl (fun q hne hq hmem => hq ((List.mem_erase_of_ne hne).mpr hmem))
          fun hforce => by simp at hforce
        rw [Function.update_eq_self] at hmove
        exact hmove
      · simp at hforce

theorem WakeInv.rdProcess {r : ℕ} {s' : LoopState} {seq : List (ℕ × ℕ)} (h : WakeInv s)
    (hinv : RunInv s.world seq) (hprocess : s.rdProcess r = some s') :
    RunInv s'.world seq ∧ WakeInv s' := by
  cases hr : s.world.rds.get r with
  | none => simp [LoopState.rdProcess, hr] at hprocess
  | some rd =>
      obtain ⟨arc, ha⟩ := hinv.rd_alive hr
      have he := World.entry_of_get ha
      have hcount := hinv.counts r rd _ hr he
      simp only [LoopState.rdProcess, hr, Option.bind_eq_bind, Option.bind_some] at hprocess
      cases hphase : s.phase r with
      | idle => simp [hphase] at hprocess
      | dispatched =>
          simp only [hphase, hinv.toRefInv.arcGet_eq ha, Option.bind_some, Option.pure_def,
            Option.some.injEq] at hprocess
          subst hprocess
          exact ⟨hinv, h.goto hr he fun _ _ => ⟨rfl, rfl⟩⟩
      | snapshot newLen state =>
          simp only [hphase] at hprocess
          split at hprocess
          · cases hprocess
            refine ⟨hinv, h.goto hr he fun _ hsettled => ?_⟩
            rw [hphase] at hsettled
            exact hsettled
          · -- there is nothing to read
            rename_i hnone
            cases hprocess
            refine ⟨hinv, h.goto hr he fun _ hsettled => ?_⟩
            rw [hphase] at hsettled
            obtain ⟨hlen, hstate⟩ := hsettled
            rw [not_or] at hnone
            exact ⟨by omega, hstate⟩
      | reading newLen state =>
          simp only [hphase] at hprocess
          split at hprocess
          · -- the reader forces itself
            cases hprocess
            exact ⟨hinv.setRd _ hr rfl rfl rfl, h.setRd _ _ hr he rfl rfl (fun _ _ hq => hq)
              fun hforce => by simp at hforce⟩
          · rename_i hall
            cases hprocess
            refine ⟨hinv, h.goto hr he fun _ hsettled => ?_⟩
            rw [hphase] at hsettled
            obtain ⟨hlen, hstate⟩ := hsettled
            exact ⟨by omega, hstate⟩
      | updating state =>
          simp only [hphase] at hprocess
          split at hprocess
          · cases hprocess
            refine ⟨hinv.setRd _ hr rfl rfl rfl, h.setRd _ _ hr he rfl rfl (fun _ _ hq => hq)
              fun hforce hpending => ?_⟩
            have hsettled := h.settled r rd _ hr he hforce hpending
            rw [hphase] at hsettled
            exact ⟨hsettled.1, by rw [hsettled.2]⟩
          · rename_i hsame
            cases hprocess
            refine ⟨hinv, h.goto hr he fun _ hsettled => ?_⟩
            rw [hphase] at hsettled
            rw [not_not] at hsame
            exact ⟨hsettled.1, by rw [← hsame, hsettled.2]⟩
      | returning =>
          simp only [hphase, Option.pure_def, Option.some.injEq] at hprocess
          subst hprocess
          refine ⟨hinv, h.goto hr he fun _ hsettled => ?_⟩
          rw [hphase] at hsettled
          exact ⟨hsettled.1, .inr hsettled.2⟩

theorem LoopState.step_inv {act : LoopAct} {s' : LoopState} {seq : List (ℕ × ℕ)} (h : WakeInv s)
    (hinv : RunInv s.world seq) (hok : act.ok s = true) (hstep : s.step alloc act = some s') :
    (∃ seq', RunInv s'.world seq') ∧ WakeInv s' := by
  cases act with
  | exec op =>
      simp only [LoopState.step, Option.bind_eq_bind, Option.bind_eq_some_iff] at hstep
      obtain ⟨⟨event, w⟩, hexec, hs'⟩ := hstep
      simp only [Option.pure_def, Option.some.injEq] at hs'
      subst hs'
      exact ⟨(hinv.exec hexec).1, h.exec hinv hok hexec⟩
  | change op =>
      obtain ⟨hinv', hwake⟩ := h.change hinv hok hstep
      exact ⟨⟨seq, hinv'⟩, hwake⟩
  | force r =>
      obtain ⟨hinv', hwake⟩ := h.forceNext hinv hstep
      exact ⟨⟨seq, hinv'⟩, hwake⟩
  | take r =>
      obtain ⟨hinv', hwake⟩ := h.take hinv hstep
      exact ⟨⟨seq, hinv'⟩, hwake⟩
  | process r =>
      obtain ⟨hinv', hwake⟩ := h.rdProcess hinv hstep
      exact ⟨⟨seq, hinv'⟩, hwake⟩

theorem LoopRun.inv (hrun : LoopRun alloc s) : (∃ seq, RunInv s.world seq) ∧ WakeInv s := by
  induction hrun with
  | new hnew =>
      refine ⟨⟨[], .new hnew⟩, ?_⟩
      obtain ⟨map, rfl, _⟩ := cacheNew_spec hnew
      exact ⟨by simp, by simp [World.entry], fun _ _ => rfl, by simp⟩
  | step _ hok hstep ih =>
      obtain ⟨⟨seq, hinv⟩, hwake⟩ := ih
      exact LoopState.step_inv hwake hinv hok hstep

/-- The reader sleeps: its flag is clear, no writer is about to set it, and the event loop
has nothing to do for it. -/
structure Asleep (s : LoopState) (r : ℕ) (rd : CacheRd) : Prop where
  live : s.world.rds.get r = some rd
  clear : rd.force = false
  awaited : r ∉ s.pending
  idle : s.phase r = .idle

/-- No reader sleeps on data or on a final state that it has not been told about. -/
theorem settled_of_asleep {r : ℕ} {rd : CacheRd} (hrun : LoopRun alloc s) (h : Asleep s r rd) :
    ∃ e, s.world.entry rd.entry = some e ∧ rd.count = e.buf.length ∧
      (e.state = .entryPartial ∨ rd.lastState = some e.state) := by
  obtain ⟨⟨seq, hinv⟩, hwake⟩ := hrun.inv
  obtain ⟨arc, ha⟩ := hinv.rd_alive h.live
  have he := World.entry_of_get ha
  have hsettled := hwake.settled r rd _ h.live he h.clear h.awaited
  rw [h.idle] at hsettled
  exact ⟨arc.data, he, hsettled⟩

/-- A step that keeps to the order of writing and completing. -/
def LoopState.okStep (alloc : Alloc) (s : LoopState) (act : LoopAct) : Option LoopState :=
  if act.ok s then s.step alloc act else none

def loopRun (alloc : Alloc) (sizeLimit : ℕ) (acts : List LoopAct) : Option LoopState := do
  match ← cacheNew alloc 0 sizeLimit with
  | .error _ => none
  | .ok w => acts.foldlM (LoopState.okStep alloc) ⟨w, fun _ => .idle, []⟩

theorem LoopRun.foldlM {acts : List LoopAct} {s' : LoopState} (hrun : LoopRun alloc s)
    (hsteps : acts.foldlM (LoopState.okStep alloc) s = some s') : LoopRun alloc s' := by
  induction acts generalizing s with
  | nil =>
      simp only [List.foldlM_nil, Option.pure_def, Option.some.injEq] at hsteps
      exact hsteps ▸ hrun
  | cons act acts ih =>
      simp only [List.foldlM_cons, Option.bind_eq_bind, Option.bind_eq_some_iff] at hsteps
      obtain ⟨s₁, hstep, hrest⟩ := hsteps
      unfold LoopState.okStep at hstep
      split at hstep
      · rename_i hok
        exact ih (hrun.step hok hstep) hrest
      · simp at hstep

theorem exists_loopRun (alloc : Alloc) (sizeLimit : ℕ) (acts : List LoopAct)
    (P : LoopState → Bool) (htest : (loopRun alloc sizeLimit acts).any P = true) :
    ∃ s, LoopRun alloc s ∧ P s = true := by
  cases hexec : loopRun alloc sizeLimit acts with
  | none => simp [hexec] at htest
  | some s =>
      refine ⟨s, ?_, by simpa [hexec] using htest⟩
      cases hnew : cacheNew alloc 0 sizeLimit with
      | none => simp [loopRun, hnew] at hexec
      | some result =>
          cases result with
          | error err => simp [loopRun, hnew] at hexec
          | ok w =>
              simp only [loopRun, hnew, Option.bind_eq_bind, Option.bind_some] at hexec
              exact (LoopRun.new hnew).foldlM hexec

/-- A reader is woken by one byte, reads it and goes to sleep. -/
theorem settled_of_asleep_after_read : ∃ s rd, LoopRun (fun _ => true) s ∧ Asleep s 0 rd ∧
    rd.count = 1 ∧ ∃ e, s.world.entry rd.entry = some e ∧ rd.count = e.buf.length ∧
      (e.state = .entryPartial ∨ rd.lastState = some e.state) := by
  obtain ⟨s, hrun, htest⟩ := exists_loopRun (fun _ => true) 10
    [.exec (.fetch ⟨.initial, []⟩), .change (.write 0 [97]), .force 0, .take 0, .process 0,
      .process 0, .exec (.read 0 4), .process 0, .process 0, .process 0]
    (fun s => s.phase 0 = .idle && s.pending = [] &&
      (s.world.rds.get 0).any fun rd => rd.force = false && rd.count = 1) (by decide +kernel)
  simp only [Bool.and_eq_true, decide_eq_true_eq] at htest
  obtain ⟨⟨hphase, hpending⟩, hrd⟩ := htest
  cases hr : s.world.rds.get 0 with
  | none => simp [hr] at hrd
  | some rd =>
      simp only [hr, Option.any_some, Bool.and_eq_true, decide_eq_true_eq] at hrd
      have hasleep : Asleep s 0 rd := ⟨hr, hrd.1, by simp [hpending], hphase⟩
      exact ⟨s, rd, hrun, hasleep, hrd.2, settled_of_asleep hrun hasleep⟩

end Step

end PosixThreads
