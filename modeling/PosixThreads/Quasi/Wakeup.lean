import PosixThreads.Quasi.Sound

/-!
# Threads that sleep although they could go on

`quasi_push` sends a signal only if the queue was empty, and `quasi_pop` only if it was full. When
two threads sleep in `quasi_pop` and two messages are pushed before the thread that was signalled
has got the mutex, the second message wakes up nobody. It is stored, and the other thread goes on
sleeping.

A thread sleeps for no reason only if something was done too early. As long as a message that is
pushed while a thread sleeps in `quasi_pop` comes into an empty queue, or else finds more threads
on their way to a message than there are messages, this does not happen; the same holds for
`quasi_pop` and the free places.
-/

namespace PosixThreads

variable {α : Type}

namespace QuasiThread

def awakeRd : QuasiThread α → Bool
  | .inside .pop asleep => !asleep
  | _ => false

def awakeWr : QuasiThread α → Bool
  | .inside (.push _) asleep => !asleep
  | _ => false

end QuasiThread

/-- There is a message, somebody sleeps in `quasi_pop`, and nobody inside is on the way to the
mutex. -/
structure LostReader (s : Quasi α) : Prop where
  message : s.buffer.isEmpty = false
  sleeps : s.threads.any QuasiThread.sleepsOnRd = true
  nobody : ∀ thread ∈ s.threads, thread.isInside = true → thread.runnable = false

/-- There is a free place, somebody sleeps in `quasi_push`, and nobody inside is on the way to the
mutex. -/
structure LostWriter (s : Quasi α) : Prop where
  free : s.buffer.isFull = some false
  sleeps : s.threads.any QuasiThread.sleepsOnWr = true
  nobody : ∀ thread ∈ s.threads, thread.isInside = true → thread.runnable = false

/-- A message that is pushed comes into an empty queue, or there are more threads on their way to
a message than messages, unless nobody sleeps in `quasi_pop`. -/
def Quasi.TimelyPush (s : Quasi α) : Prop :=
  s.buffer.full = false → s.threads.any QuasiThread.sleepsOnRd = true →
    s.buffer.isEmpty = true ∨ s.buffer.stored < s.threads.countP QuasiThread.awakeRd

/-- A message that is popped comes from a full queue, or there are more threads on their way to a
free place than free places, unless nobody sleeps in `quasi_push`. -/
def Quasi.TimelyPop (s : Quasi α) : Prop :=
  s.buffer.isEmpty = false → s.threads.any QuasiThread.sleepsOnWr = true →
    s.buffer.full = true ∨
      s.buffer.capacity - s.buffer.stored < s.threads.countP QuasiThread.awakeWr

def QuasiThread.Timely (s : Quasi α) : QuasiThread α → Prop
  | .entering (.push _) _ => s.TimelyPush
  | .entering .pop _ => s.TimelyPop
  | .inside (.push _) _ => s.TimelyPush
  | .inside .pop _ => s.TimelyPop
  | _ => True

def QuasiAct.Timely (s : Quasi α) : QuasiAct α → Prop
  | .run t _ => ∀ thread ∈ s.threads[t]?, thread.Timely s
  | _ => True

/-! ## Enough threads are awake -/

/-- If somebody sleeps, there are enough threads that do not. -/
def Covered (threads : List (QuasiThread α)) (sleeps awake : QuasiThread α → Bool) (need : ℕ) :
    Prop :=
  threads.any sleeps = true → need ≤ threads.countP awake

section Covered

variable {threads : List (QuasiThread α)} {sleeps awake : QuasiThread α → Bool} {need need' t : ℕ}
  {old new thread : QuasiThread α}

theorem Covered.zero : Covered threads sleeps awake 0 := fun _ => Nat.zero_le _

theorem Covered.set (h : Covered threads sleeps awake need) (ht : threads[t]? = some old)
    (hnew : sleeps new = false)
    (hneed : need' + (if awake old then 1 else 0) ≤ need + (if awake new then 1 else 0)) :
    Covered (threads.set t new) sleeps awake need' := by
  intro hany
  obtain ⟨thread, hmem, hsleeps⟩ := List.any_eq_true.mp hany
  have hold : thread ∈ threads := by
    refine (List.mem_or_eq_of_mem_set hmem).resolve_right ?_
    rintro rfl
    simp [hnew] at hsleeps
  have hle := h (List.any_eq_true.mpr ⟨thread, hold, hsleeps⟩)
  have hcount := Heap.countP_set_add awake ht new
  omega

/-- A thread that does not sleep before or after does not matter to those who sleep. -/
theorem any_set_eq (ht : threads[t]? = some old) (hold : sleeps old = false)
    (hnew : sleeps new = false) : (threads.set t new).any sleeps = threads.any sleeps := by
  have hcount := Heap.countP_set_add sleeps ht new
  simp only [hold, hnew, Bool.false_eq_true, if_false, Nat.add_zero] at hcount
  rw [Bool.eq_iff_iff, List.any_eq_true, List.any_eq_true, ← List.countP_pos_iff,
    ← List.countP_pos_iff, hcount]

theorem Covered.wake (ht : threads[t]? = some thread) (hawake : awake thread.wake = true) :
    Covered (threads.set t thread.wake) sleeps awake 1 := by
  intro _
  obtain ⟨hlt, _⟩ := List.getElem?_eq_some_iff.mp ht
  exact List.countP_pos_iff.mpr ⟨_, List.mem_set hlt _, hawake⟩

end Covered

/-- There are enough threads on their way to the messages, and to the free places. -/
structure Served (s : Quasi α) : Prop where
  readers : Covered s.threads QuasiThread.sleepsOnRd QuasiThread.awakeRd s.buffer.stored
  writers : Covered s.threads QuasiThread.sleepsOnWr QuasiThread.awakeWr
    (s.buffer.capacity - s.buffer.stored)

section Steps

variable {s s' : Quasi α} {capacity t : ℕ} {xs : List α} {message : α} {call : QuasiCall α}
  {woken : Option ℕ} {thread : QuasiThread α} {act : QuasiAct α} {hist : List (QuasiAct α)}

theorem Quasi.unlock_ok (hok : s.state = .ok) (h : s.unlock t = some s') :
    s'.threads = s.threads.set t .outside ∧ s'.buffer = s.buffer := by
  simp only [Quasi.unlock, Option.bind_eq_bind, Option.bind_eq_some_iff, Option.pure_def,
    Option.some.injEq] at h
  obtain ⟨_, _, rfl⟩ := h
  simp [Quasi.unlockClean, Quasi.setThread, hok]

theorem Quasi.condSignal_state (s : Quasi α) (woken : Option ℕ) :
    (s.condSignal woken).state = s.state ∧ (s.condSignal woken).buffer = s.buffer := by
  unfold Quasi.condSignal
  split
  · exact ⟨rfl, rfl⟩
  · split <;> exact ⟨rfl, rfl⟩

theorem Quasi.condSignal_threads (h : s'.threads = s.threads) (woken : Option ℕ) :
    (s'.condSignal woken).threads = (s.condSignal woken).threads := by
  unfold Quasi.condSignal
  split
  · exact h
  · rw [h]
    split
    · exact h
    · simp [Quasi.setThread, h]

theorem Quasi.unlock_signal {s₁ : Quasi α} {signal : Bool}
    (h : (if signal then (s₁.condSignal woken).unlock t else s₁.unlock t) = some s')
    (hok : s₁.state = .ok) (hthreads : s₁.threads = s.threads) :
    s'.threads = (if signal then s.condSignal woken else s).threads.set t .outside ∧
      s'.buffer = s₁.buffer := by
  cases signal with
  | false =>
      simp only [Bool.false_eq_true, if_false] at h ⊢
      rw [← hthreads]
      exact Quasi.unlock_ok hok h
  | true =>
      simp only [if_true] at h ⊢
      obtain ⟨hstate, hbuffer⟩ := s₁.condSignal_state woken
      rw [← Quasi.condSignal_threads hthreads woken, ← hbuffer]
      exact Quasi.unlock_ok (hstate.trans hok) h

theorem Quasi.push_cases (hstores : s.buffer.Stores xs) (hok : s.state = .ok)
    (h : s.push t message woken = some s') :
    (xs.length = s.buffer.capacity ∧ s' = s.setThread t (.inside (.push message) true)) ∨
    (xs.length ≠ s.buffer.capacity ∧ s'.buffer.Stores (xs ++ [message]) ∧
      s'.buffer.capacity = s.buffer.capacity ∧
      s'.threads = (if xs.isEmpty then s.condSignal woken else s).threads.set t .outside) := by
  by_cases hfull : xs.length = s.buffer.capacity
  · simp only [Quasi.push, hok, hstores.isFull_eq, hfull, decide_true, Option.bind_eq_bind,
      Option.bind_some, if_true, Option.pure_def, Option.some.injEq] at h
    exact Or.inl ⟨hfull, h.symm⟩
  · obtain ⟨buffer, hpush, hstores', hcapacity⟩ := hstores.pushUnsync_spec hfull message
    simp only [Quasi.push, hok, hstores.isFull_eq, hfull, decide_false, Option.bind_eq_bind,
      Option.bind_some, Bool.false_eq_true, if_false, hpush, hstores.isEmpty_eq] at h
    obtain ⟨hthreads, hbuffer⟩ := Quasi.unlock_signal (s := s) h rfl rfl
    simp only [Quasi.record] at hbuffer
    rw [← hbuffer] at hstores' hcapacity
    exact Or.inr ⟨hfull, hstores', hcapacity, hthreads⟩

theorem Quasi.pop_cases (hstores : s.buffer.Stores xs) (hok : s.state = .ok)
    (h : s.pop t woken = some s') :
    (xs = [] ∧ s' = s.setThread t (.inside .pop true)) ∨
    (∃ message ys, xs = message :: ys ∧ s'.buffer.Stores ys ∧
      s'.buffer.capacity = s.buffer.capacity ∧
      s'.threads = (if decide (xs.length = s.buffer.capacity) then s.condSignal woken
        else s).threads.set t .outside) := by
  cases xs with
  | nil =>
      simp only [Quasi.pop, hok, hstores.isEmpty_eq, List.isEmpty_nil, if_true, Option.pure_def,
        Option.some.injEq] at h
      exact Or.inl ⟨rfl, h.symm⟩
  | cons message ys =>
      obtain ⟨buffer, hpop, hstores', hcapacity⟩ := hstores.popUnsync_cons
      simp only [Quasi.pop, hok, hstores.isEmpty_eq, List.isEmpty_cons, Bool.false_eq_true,
        if_false, hstores.isFull_eq, Option.bind_eq_bind, Option.bind_some, hpop] at h
      obtain ⟨hthreads, hbuffer⟩ := Quasi.unlock_signal (s := s) h rfl rfl
      simp only [Quasi.record] at hbuffer
      rw [← hbuffer] at hstores' hcapacity
      exact Or.inr ⟨message, ys, rfl, hstores', hcapacity, hthreads⟩

theorem QuasiThread.wake_of_sleepsOnRd (h : thread.sleepsOnRd = true) :
    thread.wake.awakeRd = true ∧ thread.wake.sleepsOnWr = false ∧
      thread.wake.awakeWr = false ∧ thread.awakeWr = false := by
  rcases thread with _ | _ | _ | ⟨_ | _, _⟩ <;> simp_all [QuasiThread.sleepsOnRd,
    QuasiThread.wake, QuasiThread.awakeRd, QuasiThread.sleepsOnWr, QuasiThread.awakeWr]

theorem QuasiThread.wake_of_sleepsOnWr (h : thread.sleepsOnWr = true) :
    thread.wake.awakeWr = true ∧ thread.wake.sleepsOnRd = false ∧
      thread.wake.awakeRd = false ∧ thread.awakeRd = false := by
  rcases thread with _ | _ | _ | ⟨_ | _, _⟩ <;> simp_all [QuasiThread.sleepsOnRd,
    QuasiThread.wake, QuasiThread.awakeRd, QuasiThread.sleepsOnWr, QuasiThread.awakeWr]

/-- A signal is enough for one message or one free place. Those who sleep on the other condition
variable are not concerned. -/
theorem Quasi.covered_condSignal {sleeps awake sleeps' awake' : QuasiThread α → Bool} {need : ℕ}
    (hwake : ∀ thread, sleeps thread = true → awake thread.wake = true)
    (hother : ∀ thread, sleeps thread = true → sleeps' thread.wake = false ∧
      awake' thread.wake = false ∧ awake' thread = false)
    (hcan : s.canSignal sleeps woken = true) (hneed : Covered s.threads sleeps' awake' need) :
    Covered (s.condSignal woken).threads sleeps awake 1 ∧
      Covered (s.condSignal woken).threads sleeps' awake' need := by
  cases woken with
  | none =>
      refine ⟨fun hany => ?_, hneed⟩
      simp only [Quasi.canSignal, Bool.not_eq_true'] at hcan
      exact absurd hany (by simp [Quasi.condSignal, hcan])
  | some w =>
      obtain ⟨thread, hw, hsleeps⟩ := (Option.any_eq_true _ _).mp hcan
      obtain ⟨hother₁, hother₂, hother₃⟩ := hother thread hsleeps
      simp only [Quasi.condSignal, hw, Quasi.setThread]
      exact ⟨.wake hw (hwake thread hsleeps), hneed.set hw hother₁ (by simp [hother₂, hother₃])⟩

theorem Served.push (hserved : Served s) (hstores : s.buffer.Stores xs) (hok : s.state = .ok)
    (ht : s.threads[t]? = some (.inside (.push message) false)) (htimely : s.TimelyPush)
    (hcan : s.canSignal QuasiThread.sleepsOnRd woken = true)
    (h : s.push t message woken = some s') : Served s' := by
  have hreaders := hserved.readers
  have hwriters := hserved.writers
  rw [hstores.stored_eq] at hreaders hwriters
  rcases Quasi.push_cases hstores hok h with ⟨hfull, rfl⟩ | ⟨hfull, hstores', hcapacity, hthreads⟩
  · constructor
    · simp only [Quasi.setThread, hstores.stored_eq]
      exact hreaders.set ht rfl (by simp [QuasiThread.awakeRd])
    · simp only [Quasi.setThread, hstores.stored_eq, hfull, Nat.sub_self]
      exact .zero
  · have hlt : xs.length < s.buffer.capacity := lt_of_le_of_ne hstores.le hfull
    obtain ⟨hreaders', hwriters', ht'⟩ :
        Covered (if xs.isEmpty then s.condSignal woken else s).threads QuasiThread.sleepsOnRd
            QuasiThread.awakeRd (xs.length + 1) ∧
          Covered (if xs.isEmpty then s.condSignal woken else s).threads QuasiThread.sleepsOnWr
            QuasiThread.awakeWr (s.buffer.capacity - xs.length) ∧
          (if xs.isEmpty then s.condSignal woken else s).threads[t]? =
            some (.inside (.push message) false) := by
      by_cases hempty : xs = []
      · subst hempty
        obtain ⟨hone, hsame⟩ := Quasi.covered_condSignal
          (fun _ h => (QuasiThread.wake_of_sleepsOnRd h).1)
          (fun _ h => (QuasiThread.wake_of_sleepsOnRd h).2) hcan hwriters
        exact ⟨hone, hsame, Quasi.condSignal_awake ht woken⟩
      · have hnonempty : xs.isEmpty = false := by simpa using hempty
        have hnotfull : s.buffer.full = false := by simpa [hstores.full_eq] using hfull
        simp only [hnonempty, Bool.false_eq_true, if_false]
        refine ⟨fun hany => ?_, hwriters, ht⟩
        have hlate := htimely hnotfull hany
        rwa [hstores.isEmpty_eq, hnonempty, hstores.stored_eq, Bool.false_eq_true, false_or]
          at hlate
    constructor
    · rw [hthreads, hstores'.stored_eq, List.length_append, List.length_singleton]
      exact hreaders'.set ht' rfl (by simp [QuasiThread.awakeRd])
    · rw [hthreads, hstores'.stored_eq, hcapacity, List.length_append, List.length_singleton]
      refine hwriters'.set ht' rfl ?_
      simp only [QuasiThread.awakeWr, Bool.not_false, if_true, Bool.false_eq_true, if_false]
      omega

theorem Served.pop (hserved : Served s) (hstores : s.buffer.Stores xs) (hok : s.state = .ok)
    (ht : s.threads[t]? = some (.inside .pop false)) (htimely : s.TimelyPop)
    (hcan : s.canSignal QuasiThread.sleepsOnWr woken = true)
    (h : s.pop t woken = some s') : Served s' := by
  have hreaders := hserved.readers
  have hwriters := hserved.writers
  rw [hstores.stored_eq] at hreaders hwriters
  rcases Quasi.pop_cases hstores hok h with
    ⟨rfl, rfl⟩ | ⟨message, ys, rfl, hstores', hcapacity, hthreads⟩
  · constructor
    · simp only [Quasi.setThread, hstores.stored_eq]
      exact .zero
    · simp only [Quasi.setThread, hstores.stored_eq]
      exact hwriters.set ht rfl (by simp [QuasiThread.awakeWr])
  · have hle := hstores.le
    rw [List.length_cons] at hle hreaders hwriters hthreads
    obtain ⟨hreaders', hwriters', ht'⟩ :
        Covered (if decide (ys.length + 1 = s.buffer.capacity) then s.condSignal woken
            else s).threads QuasiThread.sleepsOnRd QuasiThread.awakeRd (ys.length + 1) ∧
          Covered (if decide (ys.length + 1 = s.buffer.capacity) then s.condSignal woken
            else s).threads QuasiThread.sleepsOnWr QuasiThread.awakeWr
              (s.buffer.capacity - ys.length) ∧
          (if decide (ys.length + 1 = s.buffer.capacity) then s.condSignal woken
            else s).threads[t]? = some (.inside .pop false) := by
      by_cases hfull : ys.length + 1 = s.buffer.capacity
      · obtain ⟨hone, hsame⟩ := Quasi.covered_condSignal
          (fun _ h => (QuasiThread.wake_of_sleepsOnWr h).1)
          (fun _ h => (QuasiThread.wake_of_sleepsOnWr h).2) hcan hreaders
        have hsub : s.buffer.capacity - ys.length = 1 := by omega
        simp only [hfull, decide_true, if_true, hsub]
        exact ⟨hfull ▸ hsame, hone, Quasi.condSignal_awake ht woken⟩
      · simp only [hfull, decide_false, Bool.false_eq_true, if_false]
        refine ⟨hreaders, fun hany => ?_, ht⟩
        have hlate := htimely (by simp [hstores.isEmpty_eq]) hany
        simp only [hstores.full_eq, List.length_cons, hfull, decide_false, Bool.false_eq_true,
          hstores.stored_eq, false_or] at hlate
        omega
    constructor
    · rw [hthreads, hstores'.stored_eq]
      exact hreaders'.set ht' rfl (by simp [QuasiThread.awakeRd])
    · rw [hthreads, hstores'.stored_eq, hcapacity]
      exact hwriters'.set ht' rfl (by simp [QuasiThread.awakeWr])

/-- Nobody sleeps inside, so nobody has to be awake. -/
theorem Served.of_awake
    (h : ∀ thread ∈ s.threads, thread.isInside = true → thread.asleep = false) : Served s := by
  have hnone : ∀ thread ∈ s.threads, thread.sleepsOnRd = false ∧ thread.sleepsOnWr = false := by
    intro thread hmem
    rcases hthread : thread with _ | _ | _ | ⟨_ | _, _⟩ <;>
      first
      | exact ⟨rfl, rfl⟩
      | simpa [hthread, QuasiThread.isInside, QuasiThread.asleep, QuasiThread.sleepsOnDrop,
          QuasiThread.sleepsOnRd, QuasiThread.sleepsOnWr] using h thread hmem
  constructor <;> intro hany <;> obtain ⟨thread, hmem, hsleeps⟩ := List.any_eq_true.mp hany
  · simp [(hnone thread hmem).1] at hsleeps
  · simp [(hnone thread hmem).2] at hsleeps

theorem Quasi.unlockClean_awake
    (h : ∀ thread ∈ s.threads, thread.isInside = true → thread.asleep = false) :
    ∀ thread ∈ s.unlockClean.threads, thread.isInside = true → thread.asleep = false := by
  unfold Quasi.unlockClean
  split
  · intro thread hmem
    obtain ⟨old, hold, rfl⟩ := List.mem_map.mp hmem
    split
    · simp
    · exact h old hold
  · exact h

theorem Served.refuse (hinv : QuasiInv capacity s xs) (hdropped : s.state = .dropped)
    (h : (s.record (.refused t)).unlock t = some s') : Served s' := by
  simp only [Quasi.unlock, Option.bind_eq_bind, Option.bind_eq_some_iff, Option.pure_def,
    Option.some.injEq] at h
  obtain ⟨_, _, rfl⟩ := h
  refine .of_awake (Quasi.unlockClean_awake fun thread hmem => ?_)
  rcases List.mem_or_eq_of_mem_set hmem with hmem | rfl
  · exact hinv.awake hdropped thread hmem
  · simp [QuasiThread.isInside]

theorem Served.perform (hserved : Served s) (hinv : QuasiInv capacity s xs)
    (ht : s.threads[t]? = some (.inside call false))
    (htimely : (QuasiThread.inside call false).Timely s)
    (hcan : s.signals woken (.inside call false) = true)
    (h : s.perform t woken call = some s') : Served s' := by
  cases hstate : s.state with
  | dropped => cases call <;> simp only [Quasi.perform, Quasi.push, Quasi.pop, hstate] at h <;>
      exact Served.refuse hinv hstate h
  | ok =>
      cases call with
      | push message => exact hserved.push hinv.stores hstate ht htimely hcan h
      | pop => exact hserved.pop hinv.stores hstate ht htimely hcan h

/-- A thread that comes in is on the way to a message or to a free place. -/
theorem Served.setThread (hserved : Served s) (ht : s.threads[t]? = some thread)
    {new : QuasiThread α} (hrd : new.sleepsOnRd = false) (hwr : new.sleepsOnWr = false)
    (hawakeRd : thread.awakeRd = true → new.awakeRd = true)
    (hawakeWr : thread.awakeWr = true → new.awakeWr = true) : Served (s.setThread t new) := by
  have hle : ∀ {a b : Bool}, (a = true → b = true) →
      (if a then 1 else 0) ≤ (if b then 1 else 0) := by
    intro a b hab
    cases a with
    | false => simp
    | true => simp [hab rfl]
  exact ⟨hserved.readers.set ht hrd (Nat.add_le_add_left (hle hawakeRd) _),
    hserved.writers.set ht hwr (Nat.add_le_add_left (hle hawakeWr) _)⟩

theorem QuasiThread.timely_entered {asleep : Bool}
    (ht : s.threads[t]? = some (.entering call asleep))
    (htimely : (QuasiThread.entering call asleep).Timely s) :
    (QuasiThread.inside call false).Timely (s.setThread t (.inside call false)) := by
  have hrd := Heap.countP_set_add QuasiThread.awakeRd ht (.inside call false)
  have hwr := Heap.countP_set_add QuasiThread.awakeWr ht (.inside call false)
  have hsleepsRd : (s.threads.set t (.inside call false)).any QuasiThread.sleepsOnRd =
      s.threads.any QuasiThread.sleepsOnRd := any_set_eq ht rfl (by cases call <;> rfl)
  have hsleepsWr : (s.threads.set t (.inside call false)).any QuasiThread.sleepsOnWr =
      s.threads.any QuasiThread.sleepsOnWr := any_set_eq ht rfl (by cases call <;> rfl)
  cases call with
  | push message =>
      simp only [QuasiThread.awakeRd, Bool.false_eq_true, if_false, Nat.add_zero] at hrd
      simp only [QuasiThread.Timely, Quasi.TimelyPush, Quasi.setThread, hrd, hsleepsRd]
      exact htimely
  | pop =>
      simp only [QuasiThread.awakeWr, Bool.false_eq_true, if_false, Nat.add_zero] at hwr
      simp only [QuasiThread.Timely, Quasi.TimelyPop, Quasi.setThread, hwr, hsleepsWr]
      exact htimely

theorem Quasi.canSignal_set {sleeps : QuasiThread α → Bool} {new : QuasiThread α}
    (ht : s.threads[t]? = some thread) (hold : sleeps thread = false) (hnew : sleeps new = false)
    (hcan : s.canSignal sleeps woken = true) :
    (s.setThread t new).canSignal sleeps woken = true := by
  cases woken with
  | none => rwa [Quasi.canSignal, Quasi.setThread, any_set_eq ht hold hnew]
  | some w =>
      have hne : t ≠ w := by
        rintro rfl
        simp [Quasi.canSignal, ht, hold] at hcan
      simpa [Quasi.canSignal, Quasi.setThread, List.getElem?_set_ne hne] using hcan

theorem Served.enter (hserved : Served s) (hinv : QuasiInv capacity s xs)
    (ht : s.threads[t]? = some (.entering call false))
    (htimely : (QuasiThread.entering call false).Timely s)
    (hcan : s.signals woken (.entering call false) = true)
    (h : s.enter t woken call = some s') : Served s' := by
  obtain ⟨hlt, _⟩ := List.getElem?_eq_some_iff.mp ht
  cases hstate : s.state with
  | dropped =>
      simp only [Quasi.enter, hstate, Option.some.injEq] at h
      rw [← h]
      exact hserved.setThread ht rfl rfl (fun h => h) (fun h => h)
  | ok =>
      simp only [Quasi.enter, hstate] at h
      have hserved' : Served (s.setThread t (.inside call false)) := by
        refine hserved.setThread ht ?_ ?_ (by simp [QuasiThread.awakeRd])
          (by simp [QuasiThread.awakeWr]) <;> cases call <;> rfl
      have hcan' : (s.setThread t (.inside call false)).signals woken (.inside call false) =
          true := by
        cases call <;> exact Quasi.canSignal_set ht rfl rfl hcan
      have hinv' := hinv.entered ht hstate
      rw [hstate] at hinv'
      refine Served.perform ?_ hinv' (List.getElem?_set_self hlt) ?_ ?_ h
      · exact ⟨hserved'.readers, hserved'.writers⟩
      · have htimely' := QuasiThread.timely_entered ht htimely
        cases call <;> exact htimely'
      · cases call <;> exact hcan'

theorem Served.drop (hserved : Served s) (hinv : QuasiInv capacity s xs)
    (ht : s.threads[t]? = some (.dropping false)) (h : s.drop t = some s') : Served s' := by
  cases hstate : s.state with
  | dropped =>
      simp only [Quasi.drop, hstate, Option.some.injEq] at h
      rw [← h]
      exact hserved.setThread ht rfl rfl (fun h => h) (fun h => h)
  | ok =>
      obtain ⟨buffer, hpopAll, _⟩ := hinv.stores.popAll_spec (Nat.lt_succ_of_le hinv.stores.le)
      simp only [Quasi.drop, hstate, hpopAll, Option.bind_eq_bind, Option.bind_some,
        Option.pure_def, Option.some.injEq] at h
      rw [← h]
      refine .of_awake (Quasi.unlockClean_awake fun thread hmem hinside => ?_)
      rcases List.mem_or_eq_of_mem_set hmem with hmem | rfl
      · exact Quasi.asleep_condBroadcast hmem hinside
      · simp [QuasiThread.isInside] at hinside

theorem Served.exec (hserved : Served s) (hinv : QuasiInv capacity s xs) (htimely : act.Timely s)
    (h : s.Step act s') : Served s' := by
  obtain ⟨h, henabled⟩ := h
  cases act with
  | call t call =>
      obtain ⟨thread, ht, hout⟩ := (Option.any_eq_true _ _).mp henabled
      rw [← Option.some.inj h]
      refine hserved.setThread ht rfl rfl ?_ ?_ <;> cases thread <;>
        simp_all [QuasiThread.isOutside, QuasiThread.awakeRd, QuasiThread.awakeWr]
  | callDrop t =>
      obtain ⟨thread, ht, hout⟩ := (Option.any_eq_true _ _).mp henabled
      rw [← Option.some.inj h]
      refine hserved.setThread ht rfl rfl ?_ ?_ <;> cases thread <;>
        simp_all [QuasiThread.isOutside, QuasiThread.awakeRd, QuasiThread.awakeWr]
  | wake t =>
      obtain ⟨thread, ht, _⟩ := (Option.any_eq_true _ _).mp henabled
      simp only [Quasi.exec, ht, Option.bind_eq_bind, Option.bind_some, Option.pure_def,
        Option.some.injEq] at h
      rw [← h]
      refine hserved.setThread ht ?_ ?_ ?_ ?_ <;> rcases thread with _ | _ | _ | ⟨_ | _, _⟩ <;>
        simp [QuasiThread.wake, QuasiThread.sleepsOnRd, QuasiThread.sleepsOnWr,
          QuasiThread.awakeRd, QuasiThread.awakeWr]
  | run t woken =>
      obtain ⟨thread, ht, hcan⟩ := (Option.any_eq_true _ _).mp henabled
      rw [Bool.and_eq_true] at hcan
      have htimely' := htimely thread ht
      simp only [Quasi.exec, ht, Option.bind_eq_bind, Option.bind_some] at h
      cases thread with
      | outside => simp [Quasi.run] at h
      | entering call asleep =>
          obtain rfl : asleep = false := by simpa [QuasiThread.runnable] using hcan.1
          exact hserved.enter hinv ht htimely' hcan.2 h
      | dropping asleep =>
          obtain rfl : asleep = false := by simpa [QuasiThread.runnable] using hcan.1
          exact hserved.drop hinv ht h
      | inside call asleep =>
          obtain rfl : asleep = false := by simpa [QuasiThread.runnable] using hcan.1
          exact hserved.perform hinv ht htimely' hcan.2 h

theorem Served.of_init (hinit : s.Init capacity) : Served s := by
  obtain ⟨zero, threads, rfl⟩ := hinit
  refine .of_awake fun thread hmem hinside => ?_
  obtain rfl := List.eq_of_mem_replicate hmem
  simp [QuasiThread.isInside] at hinside

theorem QuasiThread.runnable_of_awake (h : thread.awakeRd = true ∨ thread.awakeWr = true) :
    thread.isInside = true ∧ thread.runnable = true := by
  rcases thread with _ | _ | _ | ⟨_ | _, _⟩ <;>
    simp_all [QuasiThread.awakeRd, QuasiThread.awakeWr, QuasiThread.isInside,
      QuasiThread.runnable]

theorem Served.not_lostReader (hserved : Served s) (hstores : s.buffer.Stores xs) :
    ¬LostReader s := by
  intro hlost
  have hmessage := hlost.message
  rw [hstores.isEmpty_eq, List.isEmpty_eq_false_iff] at hmessage
  have hle := hserved.readers hlost.sleeps
  rw [hstores.stored_eq] at hle
  have hpos := (List.length_pos_iff.mpr hmessage).trans_le hle
  obtain ⟨thread, hmem, hawake⟩ := List.countP_pos_iff.mp hpos
  obtain ⟨hinside, hrunnable⟩ := QuasiThread.runnable_of_awake (Or.inl hawake)
  simp [hlost.nobody thread hmem hinside] at hrunnable

theorem Served.not_lostWriter (hserved : Served s) (hstores : s.buffer.Stores xs) :
    ¬LostWriter s := by
  intro hlost
  have hfree := hlost.free
  rw [hstores.isFull_eq, Option.some.injEq, decide_eq_false_iff_not] at hfree
  have hle := hserved.writers hlost.sleeps
  rw [hstores.stored_eq] at hle
  have hpos : 0 < s.threads.countP QuasiThread.awakeWr := by
    have hstored := hstores.le
    omega
  obtain ⟨thread, hmem, hawake⟩ := List.countP_pos_iff.mp hpos
  obtain ⟨hinside, hrunnable⟩ := QuasiThread.runnable_of_awake (Or.inr hawake)
  simp [hlost.nobody thread hmem hinside] at hrunnable

/-- As long as everything is done in time, nobody sleeps for no reason. -/
theorem not_lost_of_run (hpos : 0 < capacity)
    (hrun : Lts.Run (Quasi.Init capacity) (fun s act s' => s.Step act s' ∧ act.Timely s) hist s) :
    ¬LostReader s ∧ ¬LostWriter s := by
  have hinv : ∃ xs, QuasiInv capacity s xs ∧ Served s := by
    refine Lts.Run.invariant (I := fun _ s => ∃ xs, QuasiInv capacity s xs ∧ Served s) hrun ?_ ?_
    · exact fun s hinit => ⟨[], .of_init hpos hinit, .of_init hinit⟩
    · intro hist s act s' hinv hstep
      obtain ⟨xs, hinv, hserved⟩ := hinv
      obtain ⟨s₁, ys, hexec, hinv'⟩ := hinv.exec hstep.1.2
      obtain rfl : s₁ = s' := Option.some.inj (hexec.symm.trans hstep.1.1)
      exact ⟨ys, hinv', hserved.exec hinv hstep.2 hstep.1⟩
  obtain ⟨xs, hinv, hserved⟩ := hinv
  exact ⟨hserved.not_lostReader hinv.stores, hserved.not_lostWriter hinv.stores⟩

end Steps

instance Quasi.decidableTimelyPush (s : Quasi α) : Decidable s.TimelyPush :=
  inferInstanceAs (Decidable (_ → _ → _ ∨ _))

instance Quasi.decidableTimelyPop (s : Quasi α) : Decidable s.TimelyPop :=
  inferInstanceAs (Decidable (_ → _ → _ ∨ _))

instance QuasiThread.decidableTimely (s : Quasi α) :
    (thread : QuasiThread α) → Decidable (thread.Timely s)
  | .outside => .isTrue trivial
  | .entering (.push _) _ => inferInstanceAs (Decidable s.TimelyPush)
  | .entering .pop _ => inferInstanceAs (Decidable s.TimelyPop)
  | .dropping _ => .isTrue trivial
  | .inside (.push _) _ => inferInstanceAs (Decidable s.TimelyPush)
  | .inside .pop _ => inferInstanceAs (Decidable s.TimelyPop)

instance QuasiAct.decidableTimely (s : Quasi α) : (act : QuasiAct α) → Decidable (act.Timely s)
  | .call _ _ => .isTrue trivial
  | .callDrop _ => .isTrue trivial
  | .wake _ => .isTrue trivial
  | .run t _ => inferInstanceAs (Decidable (∀ thread ∈ s.threads[t]?, thread.Timely s))

/-- Two threads sleep in `quasi_pop`, and the second message comes after the first one has been
popped. -/
theorem not_lost_two_messages : ∃ s,
    Lts.Run (Quasi.Init 10) (fun s act s' => s.Step act s' ∧ act.Timely s)
      [.call 0 .pop, .run 0 none, .call 1 .pop, .run 1 none, .call 2 (.push 1), .run 2 (some 0),
        .run 0 none, .call 2 (.push 2), .run 2 (some 1)] s ∧
    s.threads = [.outside, .inside .pop false, .outside] ∧ s.buffer.stored = 1 ∧
    ¬LostReader s ∧ ¬LostWriter s := by
  have hinit : (Quasi.new 10 0 3).Init 10 := ⟨0, 3, rfl⟩
  obtain ⟨s, hguarded, hthreads, hstored⟩ := Lts.exists_run_guarded Quasi.exec
    (fun s act => s.enabled act = true ∧ act.Timely s) [.call 0 .pop, .run 0 none, .call 1 .pop,
      .run 1 none, .call 2 (.push 1), .run 2 (some 0), .run 0 none, .call 2 (.push 2),
      .run 2 (some 1)]
    (fun s => s.threads = [.outside, .inside .pop false, .outside] ∧ s.buffer.stored = 1) hinit
    (by decide +kernel)
  have hrun : Lts.Run (Quasi.Init 10) (fun s act s' => s.Step act s' ∧ act.Timely s) _ s :=
    hguarded.mono fun s act s' h => ⟨⟨h.1, h.2.1⟩, h.2.2⟩
  exact ⟨s, hrun, hthreads, hstored, not_lost_of_run (by simp) hrun⟩

/-- Two threads sleep in `quasi_pop`, and two messages come before the one that is signalled has
got the mutex. It pops the first message, and the other thread goes on sleeping. -/
theorem lostReader_two_messages : ∃ s,
    Lts.Run (Quasi.Init 10) Quasi.Step [.call 0 .pop, .run 0 none, .call 1 .pop, .run 1 none,
      .call 2 (.push 1), .run 2 (some 0), .call 2 (.push 2), .run 2 (some 1), .run 0 none] s ∧
    s.threads = [.outside, .inside .pop true, .outside] ∧ s.buffer.stored = 1 ∧ LostReader s := by
  have hinit : (Quasi.new 10 0 3).Init 10 := ⟨0, 3, rfl⟩
  obtain ⟨s, hrun, hthreads, hstored, hmessage⟩ := Lts.exists_run_guarded Quasi.exec
    (fun s act => s.enabled act = true) [.call 0 .pop, .run 0 none, .call 1 .pop, .run 1 none,
      .call 2 (.push 1), .run 2 (some 0), .call 2 (.push 2), .run 2 (some 1), .run 0 none]
    (fun s => s.threads = [.outside, .inside .pop true, .outside] ∧ s.buffer.stored = 1 ∧
      s.buffer.isEmpty = false) hinit (by decide +kernel)
  refine ⟨s, hrun, hthreads, hstored, hmessage, ?_, ?_⟩
  · simp [hthreads, QuasiThread.sleepsOnRd]
  · simp [hthreads, QuasiThread.isInside, QuasiThread.runnable]

end PosixThreads
