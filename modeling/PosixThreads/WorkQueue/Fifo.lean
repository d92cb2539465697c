import Mathlib.Data.List.TakeWhile
import PosixThreads.Library.Ring
import PosixThreads.WorkQueue.Tokens

/-!
# The strings of the queue

The strings that have been put in and not yet popped stand in the ring from `tail` up to `head`,
whatever the threads do, and also after the queue has been made invalid. So the strings are popped
in the order in which they have been put in, each of them once.
-/

namespace PosixThreads

/-- The string in a buffer, without its terminator. -/
def cText (buf : List UInt8) : List UInt8 := buf.takeWhile fun b => b ≠ 0

theorem copyString_prefix (str buf : List UInt8) :
    (cText buf ++ [0]).take str.length <+: (copyString str buf).1 := by
  induction str generalizing buf with
  | nil => simp
  | cons a str ih =>
      cases buf with
      | nil => simp [cText, copyString]
      | cons c buf =>
          by_cases hc : c = 0
          · simp [cText, copyString, hc]
          · have htext : cText (c :: buf) = c :: cText buf :=
              List.takeWhile_cons_of_pos (by simpa using hc)
            rw [copyString, if_neg hc, htext, List.cons_append, List.length_cons,
              List.take_succ_cons]
            exact List.cons_prefix_cons.mpr ⟨rfl, ih buf⟩

theorem length_copyString (str buf : List UInt8) : (copyString str buf).1.length = str.length := by
  induction str generalizing buf with
  | nil => rfl
  | cons a str ih =>
      cases buf with
      | nil => rfl
      | cons c buf =>
          by_cases hc : c = 0
          · simp [copyString, hc]
          · simp [copyString, hc, ih]

/-- As many bytes are popped as there is room for in the buffer, but not more than a string has in
the queue. They are the string that has been put in, or the beginning of it. What is behind its
terminator is left over from older strings. -/
def ReadsText (got : ℕ × List UInt8) (buf : List UInt8) : Prop :=
  got.2.length = min got.1 wqStringCap ∧
    if (cText buf).length < got.2.length then cText got.2 = cText buf else got.2 <+: cText buf

theorem readsText_take {slot buf : List UInt8} (hslot : slot.length = wqStringCap)
    (h : (cText buf ++ [0]).take wqStringCap <+: slot) (bufsize : ℕ) :
    ReadsText (bufsize, slot.take (if bufsize < wqStringCap then bufsize else wqStringCap))
      buf := by
  have hsize : (if bufsize < wqStringCap then bufsize else wqStringCap) =
      min bufsize wqStringCap := by
    split_ifs <;> omega
  rw [hsize]
  generalize hn : min bufsize wqStringCap = n
  have hlen : (slot.take n).length = n := by
    rw [List.length_take, hslot]
    omega
  have hprefix : (cText buf ++ [0]).take (slot.take n).length <+: slot.take n := by
    have htake := h.take n
    have hmin : min n wqStringCap = (slot.take n).length := by omega
    rwa [List.take_take, hmin] at htake
  refine ⟨hlen.trans hn.symm, ?_⟩
  simp only
  split
  · rename_i hlt
    rw [List.take_of_length_le (by rw [List.length_append, List.length_singleton]; exact hlt)]
      at hprefix
    obtain ⟨rest, hrest⟩ := hprefix
    have hall : ∀ b ∈ cText buf, (fun b : UInt8 => decide (b ≠ 0)) b = true :=
      fun b hb => List.mem_takeWhile_imp (p := fun b : UInt8 => decide (b ≠ 0)) hb
    rw [← hrest, List.append_assoc, cText, List.takeWhile_append_of_pos hall]
    simp
  · rename_i hge
    rw [List.take_append_of_le_length (by omega)] at hprefix
    have heq := hprefix.eq_of_length (by rw [List.length_take]; omega)
    exact heq ▸ List.take_prefix _ _

/-! ## The ring -/

/-- The strings in the ring are those that have been put in and not yet popped. -/
structure WqStored (q : WorkQueue) (slots : List (List UInt8)) : Prop where
  length : q.strungs.length = wqQueueCap
  strings : ∀ str ∈ q.strungs, str.length = wqStringCap
  holds : Ring.Holds q.strungs q.tail slots
  tail_lt : q.tail < wqQueueCap
  head_eq : q.head = (q.tail + slots.length) % wqQueueCap
  puts_le : q.puts.length ≤ q.gets.length + wqQueueCap
  got : List.Forall₂ ReadsText q.gets (q.puts.take q.gets.length)
  stored : List.Forall₂ (fun slot buf => (cText buf ++ [0]).take wqStringCap <+: slot) slots
    (q.puts.drop q.gets.length)

namespace WqStored

variable {q q' : WorkQueue} {slots : List (List UInt8)}

theorem gets_le (h : WqStored q slots) : q.gets.length ≤ q.puts.length := by
  have := h.got.length_eq
  rw [List.length_take] at this
  omega

theorem length_slots (h : WqStored q slots) : slots.length + q.gets.length = q.puts.length := by
  have hle := h.gets_le
  have := h.stored.length_eq
  rw [List.length_drop] at this
  omega

theorem start {strungs : List (List UInt8)} (hlength : strungs.length = wqQueueCap)
    (hstrings : ∀ str ∈ strungs, str.length = wqStringCap) : WqStored (.wqInit strungs) [] where
  length := hlength
  strings := hstrings
  holds := trivial
  tail_lt := Nat.zero_lt_succ 9
  head_eq := rfl
  puts_le := Nat.zero_le _
  got := .nil
  stored := .nil

theorem put (h : WqStored q slots) (hroom : q.puts.length < q.gets.length + wqQueueCap)
    (buf : List UInt8) : ∃ q' r slots', q.transfer (.put buf) = some (q', r) ∧
      WqStored q' slots' := by
  have hslots := h.length_slots
  have hhead : q.head < q.strungs.length := by
    rw [h.length, h.head_eq]
    exact Nat.mod_lt _ (by decide)
  have hstr := h.strings _ (List.getElem_mem hhead)
  refine ⟨_, _, slots ++ [(copyString q.strungs[q.head] buf).1],
    by rw [WorkQueue.transfer, WorkQueue.putString, List.getElem?_eq_getElem hhead]; rfl, ?_⟩
  constructor
  · simpa using h.length
  · intro str hmem
    rcases List.mem_or_eq_of_mem_set hmem with hmem | rfl
    · exact h.strings str hmem
    · rw [length_copyString, hstr]
  · have hpush := h.holds.push (h.length.symm ▸ h.tail_lt) (by rw [h.length]; omega)
      (copyString q.strungs[q.head] buf).1
    rwa [h.length, ← h.head_eq] at hpush
  · exact h.tail_lt
  · simp only [wqWrap, h.head_eq, List.length_append, List.length_singleton, Nat.mod_add_mod]
    rw [Nat.add_assoc]
  · simp only [List.length_append, List.length_singleton]
    exact hroom
  · simp only
    rw [List.take_append_of_le_length h.gets_le]
    exact h.got
  · simp only
    rw [List.drop_append_of_le_length h.gets_le]
    refine List.rel_append h.stored (.cons ?_ .nil)
    have hcopy := copyString_prefix q.strungs[q.head] buf
    rwa [hstr] at hcopy

theorem pop (h : WqStored q slots) (hsome : q.gets.length < q.puts.length) (bufsize : ℕ) :
    ∃ q' r slots', q.transfer (.pop bufsize) = some (q', r) ∧ WqStored q' slots' := by
  have hslots := h.length_slots
  cases slots with
  | nil => rw [List.length_nil] at hslots; omega
  | cons slot rest =>
      have hdrop := List.drop_eq_getElem_cons hsome
      have hstored := h.stored
      rw [hdrop] at hstored
      obtain ⟨hslot, hrest⟩ := List.forall₂_cons.mp hstored
      have hlen := h.strings slot (List.mem_of_getElem? h.holds.1)
      refine ⟨_, _, rest, by
        rw [WorkQueue.transfer, WorkQueue.popString, h.holds.1]; rfl, ?_⟩
      constructor
      · exact h.length
      · exact h.strings
      · have hholds := h.holds.2
        rwa [h.length] at hholds
      · exact Nat.mod_lt _ (by decide)
      · simp only [wqWrap, h.head_eq, List.length_cons]
        rw [Nat.mod_add_mod]
        congr 1
        omega
      · have hle := h.puts_le
        simp only [List.length_append, List.length_singleton]
        omega
      · simp only [List.length_append, List.length_singleton]
        rw [List.take_succ_eq_append_getElem hsome]
        exact List.rel_append h.got (.cons (readsText_take hlen hslot _) .nil)
      · simpa using hrest

theorem keep (h : WqStored q slots) (hstrungs : q'.strungs = q.strungs) (hhead : q'.head = q.head)
    (htail : q'.tail = q.tail) (hputs : q'.puts = q.puts) (hgets : q'.gets = q.gets) :
    WqStored q' slots := by
  constructor
  · rw [hstrungs]; exact h.length
  · rw [hstrungs]; exact h.strings
  · rw [hstrungs, htail]; exact h.holds
  · rw [htail]; exact h.tail_lt
  · rw [hhead, htail]; exact h.head_eq
  · rw [hputs, hgets]; exact h.puts_le
  · rw [hgets, hputs]; exact h.got
  · rw [hgets, hputs]; exact h.stored

end WqStored

/-! ## Every run -/

/-- Only who transfers a string touches them. -/
theorem WqMoves.transfers {q q' : WorkQueue} {p p' : WqPlace} (h : WqMoves q p q' p') :
    (∃ c r, p = .copying c ∧ q.transfer c = some (q', r)) ∨
      q'.strungs = q.strungs ∧ q'.head = q.head ∧ q'.tail = q.tail ∧ q'.puts = q.puts ∧
        q'.gets = q.gets := by
  cases h with
  | transfer htransfer => exact .inl ⟨_, _, rfl, htransfer⟩
  | _ => exact .inr ⟨rfl, rfl, rfl, rfl, rfl⟩

section Runs

variable {T : Type*} [DecidableEq T] [Fintype T] {s : WqState T} {t : T} {c : WqCall}
  {slots : List (List UInt8)}

/-- Who is about to transfer a string finds one, or a free place. -/
theorem WqInv.done_lt (h : WqInv s) (ht : s.pc t = .copying c) :
    s.shared.done c.decr < c.decr.start + s.shared.done c.incr := by
  have hcommits := Threads.le_sum (fun _ p => WqPlace.commits c.decr p) s.pc t
  -- nobody else has incremented a semaphore before the string is there, as he would have the mutex
  have hposted : ∑ u, (s.pc u).posted c.decr = 0 := by
    refine Finset.sum_eq_zero fun u _ => ?_
    by_cases hut : u = t
    · rw [hut, ht, WqPlace.posted, if_neg]
      rw [c.incr_eq]
      exact c.decr.ne_other.symm
    · exact WqPlace.posted_eq_zero (h.holds_eq_zero (by rw [ht]; rfl) hut)
  have := h.commits c.decr
  have hone : (s.pc t).commits c.decr = 1 := by
    rw [ht]
    exact if_pos rfl
  rw [hone] at hcommits
  rw [c.incr_eq]
  omega

theorem WqInv.transfer (h : WqInv s) (hstored : WqStored s.shared slots)
    (ht : s.pc t = .copying c) : ∃ q' r slots', s.shared.transfer c = some (q', r) ∧
      WqStored q' slots' := by
  have hlt := h.done_lt ht
  cases c with
  | put buf => exact hstored.put (by simpa [WqCall.decr, WqCall.incr, WorkQueue.done,
      WqSem.start, Nat.add_comm] using hlt) buf
  | pop bufsize => exact hstored.pop (by simpa [WqCall.decr, WqCall.incr, WorkQueue.done,
      WqSem.start] using hlt) bufsize

theorem stored_step {q' : WorkQueue} {p' : WqPlace} (h : WqInv s)
    (hstored : WqStored s.shared slots) (hmoves : WqMoves s.shared (s.pc t) q' p') :
    ∃ slots', WqStored q' slots' := by
  rcases hmoves.transfers with ⟨c, r, hp, htransfer⟩ | ⟨hstrungs, hhead, htail, hputs, hgets⟩
  · obtain ⟨q₁, r₁, slots', htransfer₁, hstored'⟩ := h.transfer hstored hp
    rw [htransfer] at htransfer₁
    cases htransfer₁
    exact ⟨slots', hstored'⟩
  · exact ⟨slots, hstored.keep hstrungs hhead htail hputs hgets⟩

theorem stored_of_run {hist : List (T × Option WqRequest)} (hrun : WqRun T hist s) :
    ∃ slots, WqStored s.shared slots := by
  have hboth : WqInv s ∧ ∃ slots, WqStored s.shared slots := by
    refine hrun.invariant (I := fun _ s => WqInv s ∧ ∃ slots, WqStored s.shared slots)
      (fun s hstart => ⟨.start hstart, ?_⟩) fun _ s label s' h hstep => ?_
    · obtain ⟨strungs, hlength, hstrings, hshared, -⟩ := hstart
      exact ⟨[], hshared ▸ .start hlength hstrings⟩
    · obtain ⟨q', p', hgo, rfl⟩ := Threads.move_eq_some.mp hstep
      obtain ⟨hinv, slots, hstored⟩ := h
      have hmoves := wqStep_moves hgo
      exact ⟨hinv.step hmoves, stored_step hinv hstored hmoves⟩
  exact hboth.2

/-- In every run of any number of threads, whenever the queue is made invalid, the strings are
popped in the order in which they have been put in, none is lost and none is popped twice, and no
more than ten are in the queue. -/
theorem wqRun_fifo {hist : List (T × Option WqRequest)} (hrun : WqRun T hist s) :
    List.Forall₂ ReadsText s.shared.gets (s.shared.puts.take s.shared.gets.length) ∧
      s.shared.gets.length ≤ s.shared.puts.length ∧
      s.shared.puts.length ≤ s.shared.gets.length + wqQueueCap := by
  obtain ⟨slots, hstored⟩ := stored_of_run hrun
  exact ⟨hstored.got, hstored.gets_le, hstored.puts_le⟩

/-- One thread pops four bytes, and waits until another one has put a string in. -/
def handOver : List (Fin 2 × Option WqRequest) :=
  let puts : Fin 2 := ⟨0, Nat.zero_lt_two⟩
  let pops : Fin 2 := ⟨1, Nat.one_lt_two⟩
  (puts, some (.call (.put [97, 98]))) :: (pops, some (.call (.pop 4))) ::
    (List.replicate 3 (pops, none) ++ List.replicate 10 (puts, none) ++
      List.replicate 7 (pops, none))

theorem wqRun_fifo_handOver : ∃ s, WqRun (Fin 2) handOver s ∧
    List.Forall₂ ReadsText s.shared.gets (s.shared.puts.take s.shared.gets.length) ∧
      s.shared.gets.length ≤ s.shared.puts.length ∧
      s.shared.puts.length ≤ s.shared.gets.length + wqQueueCap := by
  obtain ⟨s, hrun, -⟩ := Lts.exists_run (Threads.move fun _ => wqStep) handOver
    (fun s => s.shared.gets = [(4, [97, 98, 0, 7])]) (wqStart_sevens (Fin 2)) (by decide +kernel)
  exact ⟨s, hrun, wqRun_fifo hrun⟩

end Runs

end PosixThreads
