import Mathlib.Data.List.Induction
import PosixThreads.Waxy.Cache.Run

/-!
# Delivery of an entry to its readers

The history of a run determines what has been written to an entry and what a reader has
received. `StreamInv` relates it to the world: the buffer of an entry is what has been
written to it, and a reader has received the first `count` bytes of that.
-/

namespace PosixThreads

def CacheEvent.writtenTo (a : ℕ) : CacheEvent → List UInt8
  | .wrote b slice => if b = a then slice else []
  | _ => []

def CacheEvent.receivedBy (r : ℕ) : CacheEvent → List UInt8
  | .received q chunk _ => if q = r then chunk else []
  | _ => []

def written (hist : List CacheStep) (a : ℕ) : List UInt8 :=
  hist.flatMap fun s => s.event.writtenTo a

def received (hist : List CacheStep) (r : ℕ) : List UInt8 :=
  hist.flatMap fun s => s.event.receivedBy r

theorem written_snoc (hist : List CacheStep) (s : CacheStep) (a : ℕ) :
    written (hist ++ [s]) a = written hist a ++ s.event.writtenTo a := by
  simp [written]

theorem received_snoc (hist : List CacheStep) (s : CacheStep) (r : ℕ) :
    received (hist ++ [s]) r = received hist r ++ s.event.receivedBy r := by
  simp [received]

structure StreamInv (hist : List CacheStep) (w : World) : Prop where
  buf_eq : ∀ {a : ℕ} {e : CacheEntry}, w.entry a = some e → e.buf = written hist a
  received_eq : ∀ {r : ℕ} {rd : CacheRd}, w.rds.get r = some rd →
    received hist r = (written hist rd.entry).take rd.count
  written_nil : ∀ {a : ℕ}, w.arcs.next ≤ a → written hist a = []
  received_nil : ∀ {r : ℕ}, w.rds.next ≤ r → received hist r = []

section Step

variable {w w' : World} {hist : List CacheStep} {seq : List (ℕ × ℕ)} {s : CacheStep}

/-- Nothing is written or received, so the history does not matter. -/
theorem StreamInv.congr {hist' : List CacheStep} (h : StreamInv hist w)
    (hwritten : ∀ a, written hist' a = written hist a)
    (hreceived : ∀ r, received hist' r = received hist r) : StreamInv hist' w := by
  refine ⟨?_, ?_, ?_, ?_⟩
  · intro a e he
    rw [hwritten, h.buf_eq he]
  · intro r rd hr
    rw [hwritten, hreceived, h.received_eq hr]
  · intro a hle
    rw [hwritten, h.written_nil hle]
  · intro r hle
    rw [hreceived, h.received_nil hle]

theorem StreamInv.quiet (h : StreamInv hist w) (hquiet : Quiet CacheEntry.content w w') :
    StreamInv hist w' := by
  refine ⟨?_, ?_, fun hle => h.written_nil (hquiet.arcs_le.trans hle),
    fun hle => h.received_nil (hquiet.rds_le.trans hle)⟩
  · intro a e' he'
    rcases hquiet.entry he' with ⟨e, he, heq⟩ | ⟨hle, url, heq⟩
    · rw [(CacheEntry.buf_of_content heq).1, h.buf_eq he]
    · rw [h.written_nil hle, (CacheEntry.buf_of_content heq).1]
      rfl
  · intro r rd hr
    rcases hquiet.reader hr with hrd | ⟨hle, hfresh⟩
    · exact h.received_eq hrd
    · rw [h.received_nil hle, hfresh.count_eq, List.take_zero]

theorem StreamInv.rewritten {a : ℕ} {e e' : CacheEntry} {hist' : List CacheStep}
    (slice : List UInt8) (h : StreamInv hist w) (hcounts : CountsIn w)
    (halive : ∀ {r : ℕ} {rd : CacheRd}, w.rds.get r = some rd → ∃ e, w.entry rd.entry = some e)
    (he : w.entry a = some e) (hbuf : e'.buf = e.buf ++ slice) (hrew : Rewritten a e' w w')
    (hwritten : ∀ b, written hist' b = written hist b ++ if b = a then slice else [])
    (hreceived : ∀ r, received hist' r = received hist r) : StreamInv hist' w' := by
  refine ⟨?_, ?_, ?_, ?_⟩
  · intro b e₁ he₁
    rw [hrew.entry] at he₁
    rw [hwritten]
    split at he₁
    · rename_i heq
      cases he₁
      rw [if_pos heq, hbuf, heq, h.buf_eq he]
    · rename_i hne
      rw [if_neg hne, List.append_nil, h.buf_eq he₁]
  · intro r rd' hr
    obtain ⟨rd, hrd, rfl⟩ := hrew.reader_of_get hr
    obtain ⟨e₀, he₀⟩ := halive hrd
    -- the reader has not come to the end of what there was
    have hle := hcounts r rd e₀ hrd he₀
    rw [h.buf_eq he₀] at hle
    rw [CacheRd.woken_entry, CacheRd.woken_count, hreceived, h.received_eq hrd, hwritten,
      List.take_append_of_le_length hle]
  · intro b hle
    rw [hrew.arcs_next] at hle
    have hne : b ≠ a := by
      rintro rfl
      have := World.entry_lt_next he
      omega
    rw [hwritten, if_neg hne, h.written_nil hle, List.append_nil]
  · intro r hle
    rw [hrew.rds_next] at hle
    rw [hreceived, h.received_nil hle]

/-- What a reader gets continues what it has. -/
theorem take_append_readChunk (e : CacheEntry) (rd : CacheRd) (size : ℕ) :
    e.buf.take rd.count ++ readChunk e rd size =
      e.buf.take (rd.count + (readChunk e rd size).length) := by
  rw [List.take_add, readChunk_length, readChunk]
  congr 1
  rw [← List.length_drop, List.take_eq_take_min]

theorem StreamInv.advance {r size : ℕ} {rd : CacheRd} {e : CacheEntry} (h : StreamInv hist w)
    (hr : w.rds.get r = some rd) (he : w.entry rd.entry = some e)
    (hevent : s.event = .received r (readChunk e rd size) (readEof e rd size)) :
    StreamInv (hist ++ [s]) (w.advance r rd (readChunk e rd size).length) := by
  have hwritten : ∀ a, written (hist ++ [s]) a = written hist a := by
    intro a
    rw [written_snoc, hevent]
    simp [CacheEvent.writtenTo]
  refine ⟨?_, ?_, ?_, ?_⟩
  · intro a e₁ he₁
    rw [hwritten]
    exact h.buf_eq he₁
  · intro q rd₁ hq
    rw [hwritten, received_snoc, hevent]
    simp only [World.advance, Heap.get_set hr] at hq
    split at hq
    · rename_i heq
      subst heq
      cases hq
      simp only [CacheEvent.receivedBy, if_true]
      rw [h.received_eq hr, ← h.buf_eq he, take_append_readChunk]
    · rename_i hne
      simp [CacheEvent.receivedBy, Ne.symm hne, h.received_eq hq]
  · intro a hle
    rw [hwritten]
    exact h.written_nil hle
  · intro q hle
    have hne : r ≠ q := by
      rintro rfl
      have := Heap.lt_next_of_get hr
      simp only [World.advance, Heap.next_set] at hle
      omega
    simp only [World.advance, Heap.next_set] at hle
    rw [received_snoc, hevent, h.received_nil hle]
    simp [CacheEvent.receivedBy, hne]

theorem StreamInv.snoc_empty (h : StreamInv hist w) (hwritten : ∀ a, s.event.writtenTo a = [])
    (hreceived : ∀ r, s.event.receivedBy r = []) : StreamInv (hist ++ [s]) w := by
  refine h.congr (fun a => ?_) fun r => ?_
  · rw [written_snoc, hwritten, List.append_nil]
  · rw [received_snoc, hreceived, List.append_nil]

theorem StreamInv.step {op : CacheOp} {event : CacheEvent} (h : StreamInv hist w)
    (hinv : RunInv w seq) (heffect : Effect w op w' event) (hevent : s.event = event) :
    StreamInv (hist ++ [s]) w' := by
  have halive : ∀ {r : ℕ} {rd : CacheRd}, w.rds.get r = some rd →
      ∃ e, w.entry rd.entry = some e := by
    intro r rd hr
    obtain ⟨arc, ha⟩ := hinv.rd_alive hr
    exact ⟨arc.data, World.entry_of_get ha⟩
  cases heffect with
  | quiet hquiet =>
      exact (h.quiet hquiet).snoc_empty (by simp [hevent, CacheEvent.writtenTo])
        (by simp [hevent, CacheEvent.receivedBy])
  | wroteNothing a hquiet =>
      exact (h.quiet hquiet).snoc_empty (by simp [hevent, CacheEvent.writtenTo])
        (by simp [hevent, CacheEvent.receivedBy])
  | @wrote _ a e slice he hstate hrew =>
      refine h.rewritten slice hinv.counts halive he rfl hrew (fun b => ?_) fun r => ?_
      · rw [written_snoc, hevent]
        simp only [CacheEvent.writtenTo, eq_comm]
      · rw [received_snoc, hevent]
        simp [CacheEvent.receivedBy]
  | finished he _ _ _ hrew hkept =>
      have hrewritten : StreamInv hist _ := h.rewritten [] hinv.counts halive he
        (by simp) hrew (by simp) fun _ => rfl
      exact (hrewritten.quiet (.of_kept hkept)).snoc_empty
        (by simp [hevent, CacheEvent.writtenTo]) (by simp [hevent, CacheEvent.receivedBy])
  | received hr he => exact h.advance hr he hevent

end Step

section Run

variable {alloc : Alloc} {w w' : World} {hist : List CacheStep}

theorem StreamInv.new {self sizeLimit : ℕ} (hnew : cacheNew alloc self sizeLimit = some (.ok w)) :
    StreamInv [] w := by
  obtain ⟨map, rfl, _⟩ := cacheNew_spec hnew
  exact ⟨by simp [World.entry], by simp, fun _ => rfl, fun _ => rfl⟩

theorem Run.streamInv (hrun : Run alloc hist w) : StreamInv hist w := by
  induction hrun with
  | new hnew => exact .new hnew
  | step hrun hexec ih =>
      obtain ⟨seq, hinv⟩ := hrun.inv
      exact ih.step hinv (hinv.exec hexec).2 rfl

/-! ## The parts of a run -/

inductive Steps (alloc : Alloc) (w₀ : World) : List CacheStep → World → Prop
  | refl : Steps alloc w₀ [] w₀
  | step {hist : List CacheStep} {w w' : World} {op : CacheOp} {event : CacheEvent}
      (hsteps : Steps alloc w₀ hist w) (hexec : w.exec alloc op = some (event, w')) :
      Steps alloc w₀ (hist ++ [⟨w, op, event⟩]) w'

theorem Run.of_snoc {s : CacheStep} (hrun : Run alloc (hist ++ [s]) w) :
    Run alloc hist s.before ∧ s.before.exec alloc s.op = some (s.event, w) := by
  generalize hall : hist ++ [s] = all at hrun
  cases hrun with
  | new _ => simp at hall
  | step hrun hexec =>
      obtain ⟨rfl, hs⟩ := List.append_inj' hall rfl
      simp only [List.cons.injEq, and_true] at hs
      subst hs
      exact ⟨hrun, hexec⟩

/-- A run can be cut at every operation. -/
theorem Run.split {h₁ h₂ : List CacheStep} {s : CacheStep}
    (hrun : Run alloc (h₁ ++ s :: h₂) w) :
    Run alloc h₁ s.before ∧ ∃ w₁, s.before.exec alloc s.op = some (s.event, w₁) ∧
      Steps alloc w₁ h₂ w := by
  induction h₂ using List.reverseRecOn generalizing w with
  | nil =>
      obtain ⟨hrun, hexec⟩ := hrun.of_snoc
      exact ⟨hrun, w, hexec, .refl⟩
  | append_singleton h₂ t ih =>
      rw [← List.cons_append, ← List.append_assoc] at hrun
      obtain ⟨hrun, hexec⟩ := hrun.of_snoc
      obtain ⟨hrun₁, w₁, hexec₁, hsteps⟩ := ih hrun
      exact ⟨hrun₁, w₁, hexec₁, hsteps.step hexec⟩

/-! ## A complete entry -/

/-- The entry has been complete with the buffer `buf`, and may have been freed since. -/
def Completed (w : World) (a : ℕ) (buf : List UInt8) : Prop :=
  a < w.arcs.next ∧ ∀ e, w.entry a = some e → e.content = (buf, .entryComplete)

theorem Completed.quiet {a : ℕ} {buf : List UInt8} (h : Completed w a buf)
    (hquiet : Quiet CacheEntry.content w w') : Completed w' a buf := by
  refine ⟨h.1.trans_le hquiet.arcs_le, fun e' he' => ?_⟩
  obtain ⟨e, he, heq⟩ := hquiet.entry_of_lt h.1 he'
  rw [heq, h.2 e he]

theorem Completed.rewritten {a b : ℕ} {buf : List UInt8} {e' : CacheEntry} (h : Completed w a buf)
    (hne : a ≠ b) (hrew : Rewritten b e' w w') : Completed w' a buf := by
  refine ⟨by rw [hrew.arcs_next]; exact h.1, fun e he => ?_⟩
  rw [hrew.entry, if_neg hne] at he
  exact h.2 e he

/-- Nothing changes a complete entry. -/
theorem Completed.step {a : ℕ} {buf : List UInt8} {op : CacheOp} {event : CacheEvent}
    (h : Completed w a buf) (heffect : Effect w op w' event) :
    Completed w' a buf ∧ event.writtenTo a = [] := by
  cases heffect with
  | quiet hquiet => exact ⟨h.quiet hquiet, rfl⟩
  | wroteNothing b hquiet => exact ⟨h.quiet hquiet, by simp [CacheEvent.writtenTo]⟩
  | @wrote _ b e slice he hstate hrew =>
      have hne : a ≠ b := by
        rintro rfl
        exact hstate (congrArg Prod.snd (h.2 e he))
      exact ⟨h.rewritten hne hrew, by simp [CacheEvent.writtenTo, Ne.symm hne]⟩
  | @finished _ _ b e state he hstate _ _ hrew hkept =>
      have hne : a ≠ b := by
        rintro rfl
        have hcomplete : e.state = .entryComplete := congrArg Prod.snd (h.2 e he)
        simp [hstate] at hcomplete
      exact ⟨(h.rewritten hne hrew).quiet (.of_kept hkept), rfl⟩
  | received hr he => exact ⟨h, rfl⟩

theorem Completed.steps {a : ℕ} {buf : List UInt8} (h : Completed w a buf) {seq : List (ℕ × ℕ)}
    (hinv : RunInv w seq) (hsteps : Steps alloc w hist w') :
    Completed w' a buf ∧ written hist a = [] ∧ ∃ seq', RunInv w' seq' := by
  induction hsteps with
  | refl => exact ⟨h, rfl, seq, hinv⟩
  | step _ hexec ih =>
      obtain ⟨hcompleted, hwritten, seq', hinv'⟩ := ih
      obtain ⟨hinv'', heffect⟩ := hinv'.exec hexec
      obtain ⟨hcompleted', hevent⟩ := hcompleted.step heffect
      refine ⟨hcompleted', ?_, hinv''⟩
      rw [written_snoc, hwritten, hevent, List.append_nil]

theorem exec_read_spec {r size : ℕ} {event : CacheEvent} {seq : List (ℕ × ℕ)}
    (hinv : RunInv w seq) (hexec : w.exec alloc (.read r size) = some (event, w')) :
    ∃ rd e, w.rds.get r = some rd ∧ w.entry rd.entry = some e ∧
      event = .received r (readChunk e rd size) (readEof e rd size) := by
  obtain ⟨rd, hr⟩ := enabled_of_exec hexec
  obtain ⟨arc, ha⟩ := hinv.rd_alive hr
  have he := World.entry_of_get ha
  have hread := cacheRdRead_spec hinv.toCacheInv hr he (hinv.counts r rd _ hr he) size
  simp only [World.exec, hread, Option.bind_eq_bind, Option.bind_some, Option.pure_def,
    Option.some.injEq, Prod.mk.injEq] at hexec
  exact ⟨rd, arc.data, hr, he, hexec.1.symm⟩

theorem exec_read_event {r size : ℕ} {rd : CacheRd} {e : CacheEntry} {event : CacheEvent}
    {seq : List (ℕ × ℕ)} (hinv : RunInv w seq) (hr : w.rds.get r = some rd)
    (he : w.entry rd.entry = some e)
    (hexec : w.exec alloc (.read r size) = some (event, w')) :
    event = .received r (readChunk e rd size) (readEof e rd size) := by
  obtain ⟨rd', e', hr', he', hevent⟩ := exec_read_spec hinv hexec
  rw [hr, Option.some.injEq] at hr'
  subst hr'
  rw [he, Option.some.injEq] at he'
  rw [hevent, he']

theorem readEof_eq_true_iff {e : CacheEntry} {rd : CacheRd} {size : ℕ} :
    readEof e rd size = true ↔ e.state ≠ .entryPartial ∧ e.buf.length ≤ rd.count + size := by
  simp [readEof]

theorem StreamInv.received_all {r size : ℕ} {rd : CacheRd} {e : CacheEntry} {s : CacheStep}
    (h : StreamInv hist w) (hr : w.rds.get r = some rd) (he : w.entry rd.entry = some e)
    (hevent : s.event = .received r (readChunk e rd size) (readEof e rd size))
    (heof : readEof e rd size = true) : received (hist ++ [s]) r = e.buf := by
  rw [received_snoc, hevent, h.received_eq hr, ← h.buf_eq he]
  simp only [CacheEvent.receivedBy, if_true]
  rw [take_append_readChunk, readChunk_length]
  have hle := (readEof_eq_true_iff.mp heof).2
  exact List.take_of_length_le (by omega)

/-! ## Delivery -/

structure Delivered (hist : List CacheStep) (w : World) : Prop where
  buf_eq : ∀ a e, w.entry a = some e → e.buf = written hist a
  chunks : ∀ r rd, w.rds.get r = some rd → ∃ e, w.entry rd.entry = some e ∧
    rd.count ≤ e.buf.length ∧ received hist r = (written hist rd.entry).take rd.count
  complete : ∀ h₁ s h₂, hist = h₁ ++ s :: h₂ → ∀ a e, s.before.entry a = some e →
    e.state = .entryComplete → e.buf = written hist a ∧
      ∀ e', w.entry a = some e' → e'.buf = e.buf ∧ e'.state = .entryComplete
  whole : ∀ h₁ s h₂, hist = h₁ ++ s :: h₂ → ∀ r size chunk rd e, s.op = .read r size →
    s.event = .received r chunk true → s.before.rds.get r = some rd →
    s.before.entry rd.entry = some e → e.state = .entryComplete →
    received (h₁ ++ [s]) r = written hist rd.entry

theorem complete_of_run {h₁ h₂ : List CacheStep} {s : CacheStep} {a : ℕ} {e : CacheEntry}
    (hrun : Run alloc (h₁ ++ s :: h₂) w) (he : s.before.entry a = some e)
    (hstate : e.state = .entryComplete) :
    e.buf = written (h₁ ++ s :: h₂) a ∧ Completed w a e.buf := by
  obtain ⟨hrun₁, w₁, hexec, hsteps⟩ := hrun.split
  obtain ⟨seq, hinv⟩ := hrun₁.inv
  obtain ⟨⟨seq₁, hinv₁⟩, heffect⟩ := hinv.exec hexec
  have hcompleted : Completed s.before a e.buf := by
    refine ⟨World.entry_lt_next he, fun e' he' => ?_⟩
    rw [he, Option.some.injEq] at he'
    rw [← he', CacheEntry.content, hstate]
  obtain ⟨hcompleted₁, hnone⟩ := hcompleted.step heffect
  obtain ⟨hcompleted₂, hnone', _⟩ := hcompleted₁.steps hinv₁ hsteps
  refine ⟨?_, hcompleted₂⟩
  calc e.buf = written h₁ a := hrun₁.streamInv.buf_eq he
    _ = written h₁ a ++ (s.event.writtenTo a ++ written h₂ a) := by simp [hnone, hnone']
    _ = written (h₁ ++ s :: h₂) a := by simp [written]

theorem delivered_of_run (hrun : Run alloc hist w) : Delivered hist w := by
  have hstream := hrun.streamInv
  obtain ⟨seq, hinv⟩ := hrun.inv
  refine ⟨fun a e => hstream.buf_eq, ?_, ?_, ?_⟩
  · intro r rd hr
    obtain ⟨arc, ha⟩ := hinv.rd_alive hr
    have he := World.entry_of_get ha
    exact ⟨arc.data, he, hinv.counts r rd _ hr he, hstream.received_eq hr⟩
  · rintro h₁ s h₂ rfl a e he hstate
    obtain ⟨hbuf, hcompleted⟩ := complete_of_run hrun he hstate
    refine ⟨hbuf, fun e' he' => ?_⟩
    have hcontent := hcompleted.2 e' he'
    exact ⟨congrArg Prod.fst hcontent, congrArg Prod.snd hcontent⟩
  · rintro h₁ s h₂ rfl r size chunk rd e hop hevent hr he hstate
    obtain ⟨hbuf, _⟩ := complete_of_run hrun he hstate
    obtain ⟨hrun₁, w₁, hexec, _⟩ := hrun.split
    obtain ⟨seq₁, hinv₁⟩ := hrun₁.inv
    rw [hop] at hexec
    have hread := exec_read_event hinv₁ hr he hexec
    have heof : readEof e rd size = true := by
      rw [hevent, CacheEvent.received.injEq] at hread
      exact hread.2.2.symm
    rw [hrun₁.streamInv.received_all hr he hread heof, hbuf]

/-- A response of two slices, with a reader that gets it in two parts. -/
theorem delivered_in_two_parts : ∃ hist w, Run (fun _ => true) hist w ∧
    received hist 0 = [97, 98, 99] ∧ Delivered hist w := by
  obtain ⟨hist, w, hrun, hreceived⟩ := exists_run (fun _ => true) 10
    [.fetch ⟨.initial, []⟩, .write 0 [97, 98], .read 0 1, .write 0 [99], .complete 0, .read 0 4]
    (fun hist _ => received hist 0 = [97, 98, 99]) (by decide +kernel)
  exact ⟨hist, w, hrun, by simpa using hreceived, delivered_of_run hrun⟩

/-! ## End of file -/

/-- The comment at `cache_rd_read`: whenever it sets `*eof`, the entry is complete and the
reader has now received all of it. -/
def EofSound (hist : List CacheStep) : Prop :=
  ∀ h₁ s h₂, hist = h₁ ++ s :: h₂ → ∀ r size chunk, s.op = .read r size →
    s.event = .received r chunk true →
    ∃ rd e, s.before.rds.get r = some rd ∧ s.before.entry rd.entry = some e ∧
      e.state = .entryComplete ∧ received (h₁ ++ [s]) r = e.buf

/-- All that is left of an invalid entry is read. -/
def ReadsInvalid (s : CacheStep) : Prop :=
  ∃ r size rd e, s.op = .read r size ∧ s.before.rds.get r = some rd ∧
    s.before.entry rd.entry = some e ∧ e.state = .entryInvalid ∧ e.buf.length ≤ rd.count + size

/-- The writer gives up after one byte, and the reader is told that this was all. -/
theorem eofSound_fails_after_wrFree : ∃ hist w, Run (fun _ => true) hist w ∧ ¬ EofSound hist := by
  obtain ⟨hist, w, hrun, htest⟩ := exists_run (fun _ => true) 10
    [.fetch ⟨.initial, []⟩, .write 0 [97], .wrFree 0, .read 0 4]
    (fun hist _ => hist.any fun s => s.op = .read 0 4 && s.event = .received 0 [97] true &&
      (s.before.rds.get 0).any fun rd =>
        (s.before.entry rd.entry).any fun e => e.state = .entryInvalid) (by decide +kernel)
  refine ⟨hist, w, hrun, fun hsound => ?_⟩
  simp only [List.any_eq_true, Bool.and_eq_true, decide_eq_true_eq] at htest
  obtain ⟨s, hs, ⟨hop, hevent⟩, hstate⟩ := htest
  obtain ⟨h₁, h₂, rfl⟩ := List.append_of_mem hs
  obtain ⟨rd, e, hr, he, hcomplete, _⟩ := hsound h₁ s h₂ rfl 0 4 [97] hop hevent
  simp [hr, he, hcomplete] at hstate

/-- The test for the end of the file only excludes partial entries. -/
theorem eofSound_iff (hrun : Run alloc hist w) :
    EofSound hist ↔ ∀ s ∈ hist, ¬ ReadsInvalid s := by
  constructor
  · rintro hsound s hs ⟨r, size, rd, e, hop, hr, he, hstate, hle⟩
    obtain ⟨h₁, h₂, rfl⟩ := List.append_of_mem hs
    obtain ⟨hrun₁, w₁, hexec, _⟩ := hrun.split
    obtain ⟨seq₁, hinv₁⟩ := hrun₁.inv
    rw [hop] at hexec
    have hread := exec_read_event hinv₁ hr he hexec
    have heof : readEof e rd size = true := readEof_eq_true_iff.mpr ⟨by simp [hstate], hle⟩
    rw [heof] at hread
    obtain ⟨rd', e', hr', he', hcomplete, _⟩ := hsound h₁ s h₂ rfl r size _ hop hread
    rw [hr, Option.some.injEq] at hr'
    subst hr'
    rw [he, Option.some.injEq] at he'
    subst he'
    simp [hstate] at hcomplete
  · rintro hvalid h₁ s h₂ rfl r size chunk hop hevent
    obtain ⟨hrun₁, w₁, hexec, _⟩ := hrun.split
    obtain ⟨seq₁, hinv₁⟩ := hrun₁.inv
    rw [hop] at hexec
    obtain ⟨rd, e, hr, he, hread⟩ := exec_read_spec hinv₁ hexec
    have heof : readEof e rd size = true := by
      rw [hevent, CacheEvent.received.injEq] at hread
      exact hread.2.2.symm
    obtain ⟨hdone, hle⟩ := readEof_eq_true_iff.mp heof
    refine ⟨rd, e, hr, he, ?_, hrun₁.streamInv.received_all hr he hread heof⟩
    cases hstate : e.state with
    | entryComplete => rfl
    | entryPartial => exact absurd hstate hdone
    | entryInvalid =>
        exact absurd ⟨r, size, rd, e, hop, hr, he, hstate, hle⟩ (hvalid s (by simp))

theorem eofSound_iff_of_complete : ∃ hist w, Run (fun _ => true) hist w ∧ hist.length = 4 ∧
    (EofSound hist ↔ ∀ s ∈ hist, ¬ ReadsInvalid s) := by
  obtain ⟨hist, w, hrun, hlen⟩ := exists_run (fun _ => true) 10
    [.fetch ⟨.initial, []⟩, .write 0 [97], .complete 0, .read 0 4]
    (fun hist _ => hist.length = 4) (by decide +kernel)
  exact ⟨hist, w, hrun, by simpa using hlen, eofSound_iff hrun⟩

end Run

end PosixThreads
