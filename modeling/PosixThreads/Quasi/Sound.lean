import PosixThreads.Quasi.Basic

/-!
# What the message queue does

Messages leave the queue in the order in which they came, one after the other to those who pop
them, or all together when the queue is dropped. A thread that is in `quasi_push` or `quasi_pop`
when that happens is condemned: it leaves with `QUASI_STATE_DROPPED`, and only such a thread does.
-/

namespace PosixThreads

variable {α : Type}

/-! ## The history -/

def QuasiEvent.pushed? : QuasiEvent α → Option α
  | .pushed _ message => some message
  | _ => none

def QuasiEvent.removed : QuasiEvent α → List α
  | .popped _ message => [message]
  | .drop _ messages => messages
  | _ => []

def pushedMessages (log : List (QuasiEvent α)) : List α := log.filterMap QuasiEvent.pushed?

def removedMessages (log : List (QuasiEvent α)) : List α := log.flatMap QuasiEvent.removed

/-- What can be said of a thread: it is outside, or it has come in and there was no drop since, or
there was one. -/
inductive QuasiMark
  | outside
  | inside
  | condemned
  deriving DecidableEq, Repr

/-- What can be said of a thread after an event. It is `none` if the thread has returned what it
must not return. -/
def QuasiMark.next (t : ℕ) (mark : QuasiMark) : QuasiEvent α → Option QuasiMark
  | .entered u => if u = t then (if mark = .outside then some .inside else none) else some mark
  | .pushed u _ => if u = t then (if mark = .inside then some .outside else none) else some mark
  | .popped u _ => if u = t then (if mark = .inside then some .outside else none) else some mark
  | .refused u => if u = t then (if mark = .condemned then some .outside else none) else some mark
  | .drop _ _ => some (if mark = .inside then .condemned else mark)

def threadMark (t : ℕ) (log : List (QuasiEvent α)) : Option QuasiMark :=
  log.foldlM (QuasiMark.next t) .outside

@[simp] theorem pushedMessages_snoc (log : List (QuasiEvent α)) (event : QuasiEvent α) :
    pushedMessages (log ++ [event]) = pushedMessages log ++ event.pushed?.toList := by
  cases h : event.pushed? <;> simp [pushedMessages, h]

@[simp] theorem removedMessages_snoc (log : List (QuasiEvent α)) (event : QuasiEvent α) :
    removedMessages (log ++ [event]) = removedMessages log ++ event.removed := by
  simp [removedMessages]

theorem threadMark_snoc (t : ℕ) (log : List (QuasiEvent α)) (event : QuasiEvent α) :
    threadMark t (log ++ [event]) = (threadMark t log).bind fun mark => mark.next t event := by
  simp [threadMark, List.foldlM_append]

def Quasi.mark (s : Quasi α) (t : ℕ) : QuasiMark :=
  if s.threads[t]?.any QuasiThread.isInside then
    (if s.state = .dropped then .condemned else .inside)
  else .outside

/-! ## The invariant -/

structure QuasiBase (capacity : ℕ) (s : Quasi α) (xs : List α) : Prop where
  stores : s.buffer.Stores xs
  capacity_eq : s.buffer.capacity = capacity
  fifo : pushedMessages s.log = removedMessages s.log ++ xs
  blocked : s.blockedCount = s.threads.countP QuasiThread.isInside
  awake : s.state = .dropped → ∀ thread ∈ s.threads, thread.isInside = true →
    thread.asleep = false
  clean : s.state = .ok → ∀ thread ∈ s.threads, thread.sleepsOnDrop = false
  marks : ∀ t, threadMark t s.log = some (s.mark t)

structure QuasiInv (capacity : ℕ) (s : Quasi α) (xs : List α) : Prop extends
    QuasiBase capacity s xs where
  busy : s.state = .dropped → 0 < s.blockedCount

section Threads

variable {s s' : Quasi α} {capacity t : ℕ} {xs ys : List α} {old new thread : QuasiThread α}
  {call : QuasiCall α} {asleep : Bool}

@[simp] theorem QuasiThread.isInside_wake (thread : QuasiThread α) :
    thread.wake.isInside = thread.isInside := by
  cases thread <;> rfl

@[simp] theorem QuasiThread.sleepsOnDrop_wake (thread : QuasiThread α) :
    thread.wake.sleepsOnDrop = false := by
  cases thread <;> rfl

@[simp] theorem QuasiThread.asleep_wake (thread : QuasiThread α) :
    thread.wake.asleep = false := by
  rcases thread with _ | _ | _ | ⟨_ | _, _⟩ <;> rfl

theorem QuasiThread.isInside_eq_false (h : thread.isOutside = true) :
    thread.isInside = false := by
  cases thread <;> simp_all [QuasiThread.isOutside, QuasiThread.isInside]

theorem QuasiThread.runnable_eq_true (hinside : thread.isInside = true)
    (hawake : thread.asleep = false) : thread.runnable = true := by
  rcases thread with _ | _ | _ | ⟨_ | _, _⟩ <;>
    simp_all [QuasiThread.isInside, QuasiThread.asleep, QuasiThread.sleepsOnDrop,
      QuasiThread.sleepsOnRd, QuasiThread.sleepsOnWr, QuasiThread.runnable]

theorem QuasiBase.setThread (h : QuasiBase capacity s xs) (ht : s.threads[t]? = some old)
    (hinside : new.isInside = old.isInside)
    (hawake : s.state = .dropped → new.isInside = true → new.asleep = false)
    (hclean : s.state = .ok → new.sleepsOnDrop = false) :
    QuasiBase capacity (s.setThread t new) xs := by
  obtain ⟨hlt, _⟩ := List.getElem?_eq_some_iff.mp ht
  refine ⟨h.stores, h.capacity_eq, h.fifo, ?_, ?_, ?_, fun u => ?_⟩
  · have hcount := Heap.countP_set_add QuasiThread.isInside ht new
    rw [hinside] at hcount
    exact h.blocked.trans (Nat.add_right_cancel hcount).symm
  · intro hdropped thread hmem
    rcases List.mem_or_eq_of_mem_set hmem with hmem | rfl
    · exact h.awake hdropped thread hmem
    · exact hawake hdropped
  · intro hok thread hmem
    rcases List.mem_or_eq_of_mem_set hmem with hmem | rfl
    · exact h.clean hok thread hmem
    · exact hclean hok
  · rw [show (s.setThread t new).log = s.log from rfl, h.marks u]
    unfold Quasi.mark Quasi.setThread
    by_cases hu : t = u
    · subst hu
      simp [ht, List.getElem?_set_self hlt, hinside]
    · simp [List.getElem?_set_ne hu]

theorem QuasiInv.setThread (h : QuasiInv capacity s xs) (ht : s.threads[t]? = some old)
    (hinside : new.isInside = old.isInside)
    (hawake : s.state = .dropped → new.isInside = true → new.asleep = false)
    (hclean : s.state = .ok → new.sleepsOnDrop = false) :
    QuasiInv capacity (s.setThread t new) xs :=
  ⟨h.toQuasiBase.setThread ht hinside hawake hclean, h.busy⟩

theorem QuasiInv.wake (h : QuasiInv capacity s xs) (ht : s.threads[t]? = some thread) :
    QuasiInv capacity (s.setThread t thread.wake) xs :=
  h.setThread ht (by simp) (by simp) (by simp)

theorem QuasiInv.condSignal (h : QuasiInv capacity s xs) (woken : Option ℕ) :
    QuasiInv capacity (s.condSignal woken) xs := by
  unfold Quasi.condSignal
  split
  · exact h
  · split
    · exact h
    · rename_i ht
      exact h.wake ht

theorem Quasi.condSignal_awake (ht : s.threads[t]? = some (.inside call false))
    (woken : Option ℕ) : (s.condSignal woken).threads[t]? = some (.inside call false) := by
  unfold Quasi.condSignal
  split
  · exact ht
  · rename_i w
    split
    · exact ht
    · rename_i thread hw
      obtain ⟨hlt, _⟩ := List.getElem?_eq_some_iff.mp hw
      by_cases hwt : w = t
      · subst hwt
        obtain rfl := Option.some.inj (hw.symm.trans ht)
        exact List.getElem?_set_self hlt
      · exact (List.getElem?_set_ne hwt).trans ht

theorem Quasi.any_condBroadcast (s : Quasi α) (sleeps : QuasiThread α → Bool) (t : ℕ) :
    (s.condBroadcast sleeps).threads[t]?.any QuasiThread.isInside =
      s.threads[t]?.any QuasiThread.isInside := by
  simp only [Quasi.condBroadcast, List.getElem?_map]
  cases s.threads[t]? with
  | none => rfl
  | some thread => by_cases h : sleeps thread = true <;> simp [h]

theorem Quasi.countP_condBroadcast (s : Quasi α) (sleeps : QuasiThread α → Bool) :
    (s.condBroadcast sleeps).threads.countP QuasiThread.isInside =
      s.threads.countP QuasiThread.isInside := by
  rw [Quasi.condBroadcast, List.countP_map]
  refine List.countP_congr fun thread _ => ?_
  by_cases h : sleeps thread = true <;> simp [h]

theorem QuasiBase.mark_eq_outside (h : QuasiBase capacity s xs) (hzero : s.blockedCount = 0)
    (t : ℕ) : s.threads[t]?.any QuasiThread.isInside = false := by
  rw [Bool.eq_false_iff, Ne, Option.any_eq_true]
  rintro ⟨thread, ht, hinside⟩
  rw [h.blocked, List.countP_eq_zero] at hzero
  exact hzero thread (List.mem_of_getElem? ht) hinside

/-- The last thread that has to leave makes the queue usable again. -/
theorem QuasiBase.unlockClean (h : QuasiBase capacity s xs) :
    QuasiInv capacity s.unlockClean xs := by
  unfold Quasi.unlockClean
  split
  · rename_i hlast
    refine ⟨⟨h.stores, h.capacity_eq, h.fifo, ?_, fun hdropped => ?_, fun _ thread hmem => ?_,
      fun t => ?_⟩, fun hdropped => ?_⟩
    · rw [Quasi.countP_condBroadcast]
      exact h.blocked
    · simp [Quasi.condBroadcast] at hdropped
    · obtain ⟨old, _, rfl⟩ := List.mem_map.mp hmem
      by_cases hsleeps : old.sleepsOnDrop = true
      · simp [hsleeps]
      · simp [hsleeps]
    · have hmark := h.marks t
      simp only [Quasi.mark, h.mark_eq_outside hlast.2 t, Bool.false_eq_true, if_false] at hmark
      simp only [Quasi.mark, Quasi.any_condBroadcast, h.mark_eq_outside hlast.2 t,
        Bool.false_eq_true, if_false]
      exact hmark
    · simp [Quasi.condBroadcast] at hdropped
  · rename_i hbusy
    refine ⟨h, fun hdropped => ?_⟩
    rw [not_and] at hbusy
    exact Nat.pos_of_ne_zero (hbusy hdropped)

theorem Quasi.mark_inside (ht : s.threads[t]? = some (.inside call asleep)) :
    s.mark t = if s.state = .dropped then .condemned else .inside := by
  simp [Quasi.mark, ht, QuasiThread.isInside]

theorem QuasiInv.leave (h : QuasiInv capacity s xs)
    (ht : s.threads[t]? = some (.inside call asleep)) {buffer : QuasiBuffer α}
    {event : QuasiEvent α} (hstores : buffer.Stores ys) (hcapacity : buffer.capacity = capacity)
    (hfifo : pushedMessages (s.log ++ [event]) = removedMessages (s.log ++ [event]) ++ ys)
    (hleaves : QuasiMark.next t (if s.state = .dropped then .condemned else .inside) event =
      some .outside)
    (hothers : ∀ u mark, u ≠ t → QuasiMark.next u mark event = some mark) :
    ∃ s', ({ s with buffer := buffer }.record event).unlock t = some s' ∧
      QuasiInv capacity s' ys := by
  obtain ⟨hlt, _⟩ := List.getElem?_eq_some_iff.mp ht
  have hcount := Heap.countP_set_add QuasiThread.isInside ht .outside
  rw [← h.blocked] at hcount
  simp only [QuasiThread.isInside, if_true, Bool.false_eq_true, if_false, Nat.add_zero] at hcount
  have hpos : 0 < s.blockedCount := by omega
  refine ⟨({ s with
    buffer := buffer
    blockedCount := s.blockedCount - 1
    log := s.log ++ [event] }.setThread t .outside).unlockClean,
    by simp [Quasi.unlock, Quasi.record, hpos], QuasiBase.unlockClean ?_⟩
  refine ⟨hstores, hcapacity, hfifo, ?_, ?_, ?_, fun u => ?_⟩
  · simp only [Quasi.setThread]
    omega
  · intro hdropped thread hmem
    rcases List.mem_or_eq_of_mem_set hmem with hmem | rfl
    · exact h.awake hdropped thread hmem
    · simp [QuasiThread.isInside]
  · intro hok thread hmem
    rcases List.mem_or_eq_of_mem_set hmem with hmem | rfl
    · exact h.clean hok thread hmem
    · rfl
  · simp only [Quasi.setThread, threadMark_snoc, h.marks u, Option.bind_some]
    by_cases hu : u = t
    · subst hu
      rw [Quasi.mark_inside ht, hleaves]
      simp [Quasi.mark, List.getElem?_set_self hlt, QuasiThread.isInside]
    · rw [hothers u _ hu]
      simp [Quasi.mark, List.getElem?_set_ne (Ne.symm hu)]

/-- The signal that a thread may send before it leaves. -/
theorem QuasiInv.leave_signal (h : QuasiInv capacity s xs)
    (ht : s.threads[t]? = some (.inside call false)) {buffer : QuasiBuffer α}
    {event : QuasiEvent α} (hstores : buffer.Stores ys) (hcapacity : buffer.capacity = capacity)
    (hfifo : pushedMessages (s.log ++ [event]) = removedMessages (s.log ++ [event]) ++ ys)
    (hleaves : QuasiMark.next t (if s.state = .dropped then .condemned else .inside) event =
      some .outside)
    (hothers : ∀ u mark, u ≠ t → QuasiMark.next u mark event = some mark) (woken : Option ℕ) :
    ∃ s', (({ s with buffer := buffer }.record event).condSignal woken).unlock t = some s' ∧
      QuasiInv capacity s' ys := by
  have hcomm : ({ s with buffer := buffer }.record event).condSignal woken =
      { s.condSignal woken with buffer := buffer }.record event := by
    cases woken with
    | none => rfl
    | some w =>
        cases hw : s.threads[w]? <;> simp [Quasi.condSignal, Quasi.record, hw, Quasi.setThread]
  have hsame : (s.condSignal woken).log = s.log ∧ (s.condSignal woken).state = s.state := by
    cases woken with
    | none => exact ⟨rfl, rfl⟩
    | some w => cases hw : s.threads[w]? <;> simp [Quasi.condSignal, hw, Quasi.setThread]
  rw [hcomm]
  refine (h.condSignal woken).leave (Quasi.condSignal_awake ht woken) hstores hcapacity ?_ ?_
    hothers
  · rwa [hsame.1]
  · rwa [hsame.2]

/-- A condemned thread leaves, and the queue stays as it is. -/
theorem QuasiInv.refuse (h : QuasiInv capacity s xs)
    (ht : s.threads[t]? = some (.inside call false)) (hdropped : s.state = .dropped) :
    ∃ s', (s.record (.refused t)).unlock t = some s' ∧ QuasiInv capacity s' xs := by
  refine h.leave ht h.stores h.capacity_eq ?_ ?_ fun u mark hu => ?_
  · simpa [QuasiEvent.pushed?, QuasiEvent.removed] using h.fifo
  · simp [QuasiMark.next, hdropped]
  · simp [QuasiMark.next, Ne.symm hu]

theorem QuasiInv.push (h : QuasiInv capacity s xs) {message : α}
    (ht : s.threads[t]? = some (.inside (.push message) false)) (woken : Option ℕ) :
    ∃ s' ys, s.push t message woken = some s' ∧ QuasiInv capacity s' ys := by
  cases hstate : s.state with
  | dropped =>
      obtain ⟨s', hs', hinv⟩ := h.refuse ht hstate
      exact ⟨s', xs, by simpa [Quasi.push, hstate] using hs', hinv⟩
  | ok =>
      by_cases hfull : xs.length = s.buffer.capacity
      · refine ⟨s.setThread t (.inside (.push message) true), xs, ?_, ?_⟩
        · simp [Quasi.push, hstate, h.stores.isFull_eq, hfull]
        · exact h.setThread ht rfl (by simp [hstate]) (fun _ => rfl)
      obtain ⟨buffer, hpush, hstores, hcapacity⟩ := h.stores.pushUnsync_spec hfull message
      have hfifo : pushedMessages (s.log ++ [.pushed t message]) =
          removedMessages (s.log ++ [.pushed t message]) ++ (xs ++ [message]) := by
        simp [QuasiEvent.pushed?, QuasiEvent.removed, h.fifo]
      have hleaves : QuasiMark.next t (if s.state = .dropped then .condemned else .inside)
          (.pushed t message) = some .outside := by
        simp [QuasiMark.next, hstate]
      have hothers : ∀ u mark, u ≠ t →
          QuasiMark.next u mark (.pushed t message) = some mark := by
        intro u mark hu
        simp [QuasiMark.next, Ne.symm hu]
      cases hempty : s.buffer.isEmpty with
      | true =>
          obtain ⟨s', hs', hinv⟩ := h.leave_signal ht hstores (hcapacity.trans h.capacity_eq)
            hfifo hleaves hothers woken
          refine ⟨s', _, ?_, hinv⟩
          simpa [Quasi.push, hstate, h.stores.isFull_eq, hfull, hpush, hempty] using hs'
      | false =>
          obtain ⟨s', hs', hinv⟩ := h.leave ht hstores (hcapacity.trans h.capacity_eq)
            hfifo hleaves hothers
          refine ⟨s', _, ?_, hinv⟩
          simpa [Quasi.push, hstate, h.stores.isFull_eq, hfull, hpush, hempty] using hs'

theorem QuasiInv.pop (h : QuasiInv capacity s xs)
    (ht : s.threads[t]? = some (.inside .pop false)) (woken : Option ℕ) :
    ∃ s' ys, s.pop t woken = some s' ∧ QuasiInv capacity s' ys := by
  cases hstate : s.state with
  | dropped =>
      obtain ⟨s', hs', hinv⟩ := h.refuse ht hstate
      exact ⟨s', xs, by simpa [Quasi.pop, hstate] using hs', hinv⟩
  | ok =>
      cases xs with
      | nil =>
          refine ⟨s.setThread t (.inside .pop true), [], ?_, ?_⟩
          · simp [Quasi.pop, hstate, h.stores.isEmpty_eq]
          · exact h.setThread ht rfl (by simp [hstate]) (fun _ => rfl)
      | cons message xs =>
          obtain ⟨buffer, hpop, hstores, hcapacity⟩ := h.stores.popUnsync_cons
          have hfifo : pushedMessages (s.log ++ [.popped t message]) =
              removedMessages (s.log ++ [.popped t message]) ++ xs := by
            simp [QuasiEvent.pushed?, QuasiEvent.removed, h.fifo]
          have hleaves : QuasiMark.next t (if s.state = .dropped then .condemned else .inside)
              (.popped t message) = some .outside := by
            simp [QuasiMark.next, hstate]
          have hothers : ∀ u mark, u ≠ t →
              QuasiMark.next u mark (.popped t message) = some mark := by
            intro u mark hu
            simp [QuasiMark.next, Ne.symm hu]
          by_cases hfull : xs.length + 1 = s.buffer.capacity
          · obtain ⟨s', hs', hinv⟩ := h.leave_signal ht hstores (hcapacity.trans h.capacity_eq)
              hfifo hleaves hothers woken
            refine ⟨s', xs, ?_, hinv⟩
            simpa [Quasi.pop, hstate, h.stores.isEmpty_eq, h.stores.isFull_eq, hfull,
              hpop] using hs'
          · obtain ⟨s', hs', hinv⟩ := h.leave ht hstores (hcapacity.trans h.capacity_eq)
              hfifo hleaves hothers
            refine ⟨s', xs, ?_, hinv⟩
            simpa [Quasi.pop, hstate, h.stores.isEmpty_eq, h.stores.isFull_eq, hfull,
              hpop] using hs'

theorem QuasiInv.perform (h : QuasiInv capacity s xs)
    (ht : s.threads[t]? = some (.inside call false)) (woken : Option ℕ) :
    ∃ s' ys, s.perform t woken call = some s' ∧ QuasiInv capacity s' ys := by
  cases call with
  | push message => exact h.push ht woken
  | pop => exact h.pop ht woken

theorem QuasiInv.entered (h : QuasiInv capacity s xs)
    (ht : s.threads[t]? = some (.entering call asleep)) (hok : s.state = .ok) :
    QuasiInv capacity
      (({ s with blockedCount := s.blockedCount + 1 }.record (.entered t)).setThread t
        (.inside call false)) xs := by
  obtain ⟨hlt, _⟩ := List.getElem?_eq_some_iff.mp ht
  have hcount := Heap.countP_set_add QuasiThread.isInside ht (.inside call false)
  rw [← h.blocked] at hcount
  simp only [QuasiThread.isInside, if_true, Bool.false_eq_true, if_false, Nat.add_zero] at hcount
  refine ⟨⟨h.stores, h.capacity_eq, ?_, hcount.symm, ?_, ?_, fun u => ?_⟩, fun _ => Nat.succ_pos _⟩
  · simpa [Quasi.setThread, Quasi.record, QuasiEvent.pushed?, QuasiEvent.removed] using h.fifo
  · intro hdropped
    simp [Quasi.setThread, Quasi.record, hok] at hdropped
  · intro _ thread hmem
    rcases List.mem_or_eq_of_mem_set hmem with hmem | rfl
    · exact h.clean hok thread hmem
    · rfl
  · simp only [Quasi.setThread, Quasi.record, threadMark_snoc, h.marks u, Option.bind_some]
    by_cases hu : u = t
    · subst hu
      simp [QuasiMark.next, Quasi.mark, ht, List.getElem?_set_self hlt, QuasiThread.isInside, hok]
    · simp [QuasiMark.next, Quasi.mark, List.getElem?_set_ne (Ne.symm hu), Ne.symm hu]

theorem QuasiInv.enter (h : QuasiInv capacity s xs)
    (ht : s.threads[t]? = some (.entering call asleep)) (woken : Option ℕ) :
    ∃ s' ys, s.enter t woken call = some s' ∧ QuasiInv capacity s' ys := by
  obtain ⟨hlt, _⟩ := List.getElem?_eq_some_iff.mp ht
  cases hstate : s.state with
  | dropped =>
      refine ⟨s.setThread t (.entering call true), xs, by simp [Quasi.enter, hstate], ?_⟩
      exact h.setThread ht rfl (by simp [QuasiThread.isInside]) (by simp [hstate])
  | ok =>
      obtain ⟨s', ys, hs', hinv⟩ :=
        (h.entered ht hstate).perform (List.getElem?_set_self hlt) woken
      exact ⟨s', ys, by simpa [Quasi.enter, hstate] using hs', hinv⟩

theorem Quasi.asleep_condBroadcast
    (hmem : thread ∈ ((s.condBroadcast QuasiThread.sleepsOnRd).condBroadcast
      QuasiThread.sleepsOnWr).threads) (hinside : thread.isInside = true) :
    thread.asleep = false := by
  simp only [Quasi.condBroadcast, List.map_map, List.mem_map, Function.comp_apply] at hmem
  obtain ⟨old, _, rfl⟩ := hmem
  rcases old with _ | _ | _ | ⟨_ | _, _ | _⟩ <;>
    simp_all [QuasiThread.isInside, QuasiThread.sleepsOnRd, QuasiThread.sleepsOnWr,
      QuasiThread.asleep, QuasiThread.sleepsOnDrop, QuasiThread.wake]

/-- The queue is emptied, and everybody inside is condemned and woken up. -/
theorem QuasiInv.dropped (h : QuasiInv capacity s xs) (hstate : s.state = .ok)
    {buffer : QuasiBuffer α} (hstores : buffer.Stores ([] : List α))
    (hcapacity : buffer.capacity = capacity) (t : ℕ) :
    QuasiBase capacity ((({ s with
      state := .dropped
      buffer := buffer }.record (.drop t xs)).condBroadcast
        QuasiThread.sleepsOnRd).condBroadcast QuasiThread.sleepsOnWr) [] := by
  refine ⟨hstores, hcapacity, ?_, ?_, fun _ thread hmem hinside => ?_, fun hok => ?_, fun u => ?_⟩
  · simp [Quasi.condBroadcast, Quasi.record, QuasiEvent.pushed?, QuasiEvent.removed, h.fifo]
  · rw [Quasi.countP_condBroadcast, Quasi.countP_condBroadcast]
    exact h.blocked
  · exact Quasi.asleep_condBroadcast hmem hinside
  · simp [Quasi.condBroadcast, Quasi.record] at hok
  · rw [Quasi.mark, Quasi.any_condBroadcast, Quasi.any_condBroadcast]
    simp only [Quasi.condBroadcast, Quasi.record, threadMark_snoc, h.marks u, Option.bind_some]
    by_cases hinside : s.threads[u]?.any QuasiThread.isInside = true
    · simp [QuasiMark.next, Quasi.mark, hinside, hstate]
    · simp [QuasiMark.next, Quasi.mark, hinside]

theorem QuasiInv.drop (h : QuasiInv capacity s xs)
    (ht : s.threads[t]? = some (.dropping asleep)) :
    ∃ s' ys, s.drop t = some s' ∧ QuasiInv capacity s' ys := by
  cases hstate : s.state with
  | dropped =>
      refine ⟨s.setThread t (.dropping true), xs, by simp [Quasi.drop, hstate], ?_⟩
      exact h.setThread ht rfl (by simp [QuasiThread.isInside]) (by simp [hstate])
  | ok =>
      obtain ⟨buffer, hpopAll, hstores, hcapacity⟩ :=
        h.stores.popAll_spec (Nat.lt_succ_of_le h.stores.le)
      have hbase := h.dropped hstate hstores.reset (hcapacity.trans h.capacity_eq) t
      refine ⟨_, [], by simp only [Quasi.drop, hstate, hpopAll]; rfl, QuasiBase.unlockClean ?_⟩
      have ht' : ((({ s with
          state := .dropped
          buffer := { buffer with
            wrIdx := 0
            rdIdx := 0 } }.record (.drop t xs)).condBroadcast
          QuasiThread.sleepsOnRd).condBroadcast QuasiThread.sleepsOnWr).threads[t]? =
            some (.dropping asleep) := by
        simp [Quasi.condBroadcast, Quasi.record, ht, QuasiThread.sleepsOnRd,
          QuasiThread.sleepsOnWr]
      exact hbase.setThread ht' rfl (by simp [QuasiThread.isInside]) fun _ => rfl

/-- The step lemma. A step that is possible fails no assertion. -/
theorem QuasiInv.exec {act : QuasiAct α} (h : QuasiInv capacity s xs)
    (henabled : s.enabled act = true) :
    ∃ s' ys, s.exec act = some s' ∧ QuasiInv capacity s' ys := by
  cases act with
  | call t call =>
      obtain ⟨thread, ht, hout⟩ := (Option.any_eq_true _ _).mp henabled
      refine ⟨_, xs, rfl, h.setThread ht ?_ (by simp [QuasiThread.isInside]) fun _ => rfl⟩
      exact (QuasiThread.isInside_eq_false hout).symm
  | callDrop t =>
      obtain ⟨thread, ht, hout⟩ := (Option.any_eq_true _ _).mp henabled
      refine ⟨_, xs, rfl, h.setThread ht ?_ (by simp [QuasiThread.isInside]) fun _ => rfl⟩
      exact (QuasiThread.isInside_eq_false hout).symm
  | wake t =>
      obtain ⟨thread, ht, _⟩ := (Option.any_eq_true _ _).mp henabled
      exact ⟨s.setThread t thread.wake, xs, by simp [Quasi.exec, ht], h.wake ht⟩
  | run t woken =>
      obtain ⟨thread, ht, hcan⟩ := (Option.any_eq_true _ _).mp henabled
      simp only [Quasi.exec, ht, Option.bind_eq_bind, Option.bind_some]
      cases thread with
      | outside => simp [QuasiThread.runnable] at hcan
      | entering call asleep => exact h.enter ht woken
      | dropping asleep => exact h.drop ht
      | inside call asleep =>
          cases asleep with
          | true => simp [QuasiThread.runnable] at hcan
          | false => exact h.perform ht woken

end Threads

section Runs

variable {capacity : ℕ} {s : Quasi α} {hist : List (QuasiAct α)}

theorem QuasiInv.of_init (hpos : 0 < capacity) (hinit : s.Init capacity) :
    QuasiInv capacity s [] := by
  obtain ⟨zero, threads, rfl⟩ := hinit
  refine ⟨⟨.new hpos zero, rfl, rfl, ?_, ?_, ?_, fun t => ?_⟩, ?_⟩
  · simp [Quasi.new, List.countP_replicate, QuasiThread.isInside]
  · simp [Quasi.new]
  · simp [Quasi.new, List.mem_replicate, QuasiThread.sleepsOnDrop]
  · by_cases ht : t < threads <;>
      simp [Quasi.new, threadMark, Quasi.mark, ht, QuasiThread.isInside]
  · simp [Quasi.new]

theorem QuasiInv.of_run (hpos : 0 < capacity)
    (hrun : Lts.Run (Quasi.Init capacity) Quasi.Step hist s) : ∃ xs, QuasiInv capacity s xs := by
  refine Lts.Run.invariant (I := fun _ s => ∃ xs, QuasiInv capacity s xs) hrun ?_ ?_
  · exact fun s hinit => ⟨[], .of_init hpos hinit⟩
  · intro hist s act s' hinv hstep
    obtain ⟨xs, hinv⟩ := hinv
    obtain ⟨s₁, ys, hexec, hinv'⟩ := hinv.exec hstep.2
    obtain rfl : s₁ = s' := Option.some.inj (hexec.symm.trans hstep.1)
    exact ⟨ys, hinv'⟩

/-- What is promised of the queue.

* The messages that were pushed are those that have been popped or freed, and behind them those
  that are stored, in the same order.
* `blocked_count` is the number of threads in `quasi_push` and `quasi_pop`.
* A thread that was there at a drop returns `QUASI_STATE_DROPPED`, and every other one
  `QUASI_STATE_OK`. As long as one of the former is left the state is dropped, and all of them
  are on the way to the mutex. After that the state is not dropped any more, and those who wait
  for this are on the way to the mutex, too.
* No assertion fails. -/
structure QuasiSound (capacity : ℕ) (s : Quasi α) : Prop where
  fifo : ∃ xs, s.buffer.Stores xs ∧ xs.length ≤ capacity ∧
    pushedMessages s.log = removedMessages s.log ++ xs
  blocked : s.blockedCount = s.threads.countP QuasiThread.isInside
  returns : ∀ t, threadMark t s.log ≠ none
  inside : ∀ t, s.threads[t]?.any QuasiThread.isInside = true ↔
    threadMark t s.log = some .inside ∨ threadMark t s.log = some .condemned
  dropped : s.state = .dropped ↔ ∃ t, threadMark t s.log = some .condemned
  awake : ∀ t thread, threadMark t s.log = some .condemned → s.threads[t]? = some thread →
    thread.runnable = true
  entering : s.state = .ok → ∀ thread ∈ s.threads, thread.sleepsOnDrop = false
  asserts : ∀ act, s.enabled act = true → ∃ s', s.exec act = some s'

theorem quasiSound_of_run (hpos : 0 < capacity)
    (hrun : Lts.Run (Quasi.Init capacity) Quasi.Step hist s) : QuasiSound capacity s := by
  obtain ⟨xs, hinv⟩ := QuasiInv.of_run hpos hrun
  refine ⟨⟨xs, hinv.stores, hinv.capacity_eq ▸ hinv.stores.le, hinv.fifo⟩, hinv.blocked,
    fun t => ?_, fun t => ?_, ?_, fun t thread hmark ht => ?_, hinv.clean, fun act henabled => ?_⟩
  · simp [hinv.marks t]
  · rw [hinv.marks t]
    unfold Quasi.mark
    split
    · rename_i h
      by_cases hdropped : s.state = .dropped <;> simp [h, hdropped]
    · rename_i h
      simp [h]
  · constructor
    · intro hdropped
      have hbusy := hinv.busy hdropped
      rw [hinv.blocked, List.countP_pos_iff] at hbusy
      obtain ⟨thread, hmem, hinside⟩ := hbusy
      obtain ⟨t, ht⟩ := List.mem_iff_getElem?.mp hmem
      exact ⟨t, by rw [hinv.marks t]; simp [Quasi.mark, ht, hinside, hdropped]⟩
    · rintro ⟨t, hmark⟩
      rw [hinv.marks t, Option.some.injEq, Quasi.mark] at hmark
      by_contra hdropped
      simp only [hdropped, if_false] at hmark
      split at hmark <;> simp at hmark
  · rw [hinv.marks t, Option.some.injEq, Quasi.mark, ht, Option.any_some] at hmark
    split at hmark
    · rename_i hinside
      have hdropped : s.state = .dropped := by
        by_contra hok
        simp [hok] at hmark
      exact QuasiThread.runnable_eq_true hinside
        (hinv.awake hdropped thread (List.mem_of_getElem? ht) hinside)
    · simp at hmark
  · obtain ⟨s', _, hexec, _⟩ := hinv.exec henabled
    exact ⟨s', hexec⟩

/-- One thread pushes `1`, `2` and `3` into a queue of two places, and sleeps when it is full. The
queue is dropped after one of the messages has been popped, and before the last one is stored. -/
theorem quasiSound_three_threads : ∃ s,
    Lts.Run (Quasi.Init 2) Quasi.Step [.call 0 (.push 1), .run 0 none, .call 0 (.push 2),
      .run 0 none, .call 0 (.push 3), .run 0 none, .call 1 .pop, .run 1 (some 0), .callDrop 2,
      .run 2 none, .call 1 (.push 4), .run 1 none, .run 0 none, .run 1 none] s ∧
    pushedMessages s.log = [1, 2, 4] ∧ removedMessages s.log = [1, 2] ∧
    threadMark 0 s.log = some .outside ∧ s.state = .ok ∧ QuasiSound 2 s := by
  have hinit : (Quasi.new 2 0 3).Init 2 := ⟨0, 3, rfl⟩
  obtain ⟨s, hrun, hpushed, hremoved, hmark, hstate⟩ := Lts.exists_run_guarded Quasi.exec
    (fun s act => s.enabled act = true) [.call 0 (.push 1), .run 0 none, .call 0 (.push 2),
      .run 0 none, .call 0 (.push 3), .run 0 none, .call 1 .pop, .run 1 (some 0), .callDrop 2,
      .run 2 none, .call 1 (.push 4), .run 1 none, .run 0 none, .run 1 none]
    (fun s => pushedMessages s.log = [1, 2, 4] ∧ removedMessages s.log = [1, 2] ∧
      threadMark 0 s.log = some .outside ∧ s.state = .ok) hinit (by decide +kernel)
  exact ⟨s, hrun, hpushed, hremoved, hmark, hstate, quasiSound_of_run (by simp) hrun⟩

end Runs

end PosixThreads
