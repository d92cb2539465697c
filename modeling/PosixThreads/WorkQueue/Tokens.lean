import PosixThreads.WorkQueue.Basic

/-!
# What the semaphores of the queue count

The mutex has been taken by one thread at most. As long as the queue is valid, each place in the
ring is counted once by one of the semaphores or by a thread that has decremented it, and `waiting`
counts the threads that may wait. Once the queue is not valid, the semaphores are no less than the
threads that wait for them, up to the increments that `wqInvalidate` still has to do.
-/

namespace PosixThreads

namespace WqPlace

def holds : WqPlace → ℕ
  | .checking _ | .counted _ | .locked _ | .posting _ | .copying _ | .unlocking _ => 1
  | .marking | .waking _ | .freeing _ | .resetting => 1
  | _ => 0

def counts : WqPlace → ℕ
  | .counted _ | .blocked _ | .woken _ | .committed _ | .locked _ => 1
  | _ => 0

def waitsFor (m : WqSem) : WqPlace → ℕ
  | .blocked c => if c.decr = m then 1 else 0
  | _ => 0

/-- The thread will transfer a string, whatever happens. -/
def commits (m : WqSem) : WqPlace → ℕ
  | .committed c | .locked c | .posting c | .copying c => if c.decr = m then 1 else 0
  | _ => 0

/-- The thread has decremented a semaphore and not yet transferred a string. -/
def token (m : WqSem) : WqPlace → ℕ
  | .woken c | .committed c | .locked c | .posting c | .copying c => if c.decr = m then 1 else 0
  | _ => 0

/-- The thread has incremented a semaphore before the string is there. -/
def posted (m : WqSem) : WqPlace → ℕ
  | .copying c => if c.incr = m then 1 else 0
  | _ => 0

/-- What `wqInvalidate` has yet to add to a semaphore. -/
def due (waiting : ℤ) (m : WqSem) : WqPlace → ℕ
  | .waking i => (waiting - i).toNat
  | .freeing i => if m = .semFull then (waiting - (i + 1)).toNat else (waiting - i).toNat
  | _ => 0

/-- The thread has made the queue invalid. -/
def Marks : WqPlace → Prop
  | .waking _ | .freeing _ | .resetting => True
  | _ => False

variable {p : WqPlace} {m : WqSem} {waiting : ℤ}

theorem waitsFor_le_counts : p.waitsFor m ≤ p.counts := by
  cases p <;> simp only [waitsFor, counts, le_refl, Nat.zero_le]
  split <;> omega

theorem commits_le_token : p.commits m ≤ p.token m := by
  cases p <;> simp [commits, token]

theorem due_eq_zero (h : p.holds = 0) : p.due waiting m = 0 := by
  cases p <;> first | rfl | cases h

theorem posted_eq_zero (h : p.holds = 0) : p.posted m = 0 := by
  cases p <;> first | rfl | cases h

end WqPlace

/-- How many strings have been transferred behind a decrement of a semaphore. -/
def WorkQueue.done (q : WorkQueue) : WqSem → ℕ
  | .semFull => q.gets.length
  | .semFree => q.puts.length

theorem WqCall.incr_eq (c : WqCall) : c.incr = c.decr.other := by cases c <;> rfl

theorem WqSem.other_eq_iff {m k : WqSem} : m.other = k ↔ m = k.other := by
  cases m <;> cases k <;> decide

theorem WqSem.ne_other (m : WqSem) : m ≠ m.other := by cases m <;> decide

/-! ## One step -/

section Step

variable {q q' : WorkQueue} {p p' : WqPlace} {c : WqCall} {m : WqSem} {r : ℕ}

theorem WorkQueue.wqLock_eq_some : q.wqLock = some q' ↔
    q.mutex ≠ 0 ∧ q' = { q with mutex := q.mutex - 1 } := by
  rw [wqLock]
  by_cases hzero : q.mutex = 0
  · simp [hzero]
  · simp [hzero, eq_comm]

theorem WorkQueue.semWait_eq_some : q.semWait m = some q' ↔
    q.sem m ≠ 0 ∧ q' = { q with sem := Function.update q.sem m (q.sem m - 1) } := by
  rw [semWait]
  by_cases hzero : q.sem m = 0
  · simp [hzero]
  · simp [hzero, eq_comm]

theorem WorkQueue.transfer_spec (h : q.transfer c = some (q', r)) :
    q'.sem = q.sem ∧ q'.mutex = q.mutex ∧ q'.valid = q.valid ∧ q'.waiting = q.waiting ∧
      ∀ m, q'.done m = q.done m + if c.decr = m then 1 else 0 := by
  cases c with
  | put buf =>
      obtain ⟨str, -, heq⟩ := Option.map_eq_some_iff.mp h
      cases heq
      refine ⟨rfl, rfl, rfl, rfl, fun m => ?_⟩
      cases m <;> simp [done, WqCall.decr]
  | pop bufsize =>
      obtain ⟨str, -, heq⟩ := Option.map_eq_some_iff.mp h
      cases heq
      refine ⟨rfl, rfl, rfl, rfl, fun m => ?_⟩
      cases m <;> simp [done, WqCall.decr]

/-- What a step may do. A thread that takes the mutex, one that uses a semaphore, one that reads or
writes `valid` or `waiting`, and one that transfers a string. -/
inductive WqMoves (q : WorkQueue) : WqPlace → WorkQueue → WqPlace → Prop
  | enter {c : WqCall} (hmutex : q.mutex ≠ 0) :
      WqMoves q (.entering c) { q with mutex := q.mutex - 1 } (.checking c)
  | count {c : WqCall} (hvalid : q.valid = true) :
      WqMoves q (.checking c) { q with waiting := q.waiting + 1 } (.counted c)
  | refuse {c : WqCall} (hvalid : q.valid = false) :
      WqMoves q (.checking c) q (.unlocking (some 0))
  | wait {c : WqCall} : WqMoves q (.counted c) q.wqUnlock (.blocked c)
  | wake {c : WqCall} (hsem : q.sem c.decr ≠ 0) :
      WqMoves q (.blocked c)
        { q with sem := Function.update q.sem c.decr (q.sem c.decr - 1) } (.woken c)
  | commit {c : WqCall} (hvalid : q.valid = true) : WqMoves q (.woken c) q (.committed c)
  | giveUp {c : WqCall} (hvalid : q.valid = false) :
      WqMoves q (.woken c) q (.outside (some 0))
  | lock {c : WqCall} (hmutex : q.mutex ≠ 0) :
      WqMoves q (.committed c) { q with mutex := q.mutex - 1 } (.locked c)
  | uncount {c : WqCall} :
      WqMoves q (.locked c) { q with waiting := q.waiting - 1 } (.posting c)
  | post {c : WqCall} : WqMoves q (.posting c) (q.semPost c.incr) (.copying c)
  | transfer {c : WqCall} {q' : WorkQueue} {r : ℕ} (htransfer : q.transfer c = some (q', r)) :
      WqMoves q (.copying c) q' (.unlocking (some r))
  | unlock {result : Option ℕ} : WqMoves q (.unlocking result) q.wqUnlock (.outside result)
  | peek {p : WqPlace} (hp : p = .skipping ∨ p = .dropping) : WqMoves q .peeking q p
  | skip {p : WqPlace} (hp : p = .outside none ∨ p = .dropping) : WqMoves q .skipping q p
  | drop (hmutex : q.mutex ≠ 0) : WqMoves q .dropping { q with mutex := q.mutex - 1 } .marking
  | mark : WqMoves q .marking { q with valid := false } (.waking 0)
  | wakeFull {i : ℕ} (hi : (i : ℤ) < q.waiting) :
      WqMoves q (.waking i) (q.semPost .semFull) (.freeing i)
  | woke {i : ℕ} (hi : q.waiting ≤ i) : WqMoves q (.waking i) q .resetting
  | wakeFree {i : ℕ} : WqMoves q (.freeing i) (q.semPost .semFree) (.waking (i + 1))
  | reset : WqMoves q .resetting { q with waiting := 0 } (.unlocking none)
  | begin {result : Option ℕ} {request : WqRequest} :
      WqMoves q (.outside result) q request.place

theorem WorkQueue.map_wqLock_eq_some {p₁ : WqPlace} :
    (q.wqLock.map fun q => (q, p₁)) = some (q', p') ↔
      q.mutex ≠ 0 ∧ { q with mutex := q.mutex - 1 } = q' ∧ p₁ = p' := by
  simp [Option.map_eq_some_iff, wqLock_eq_some]

theorem WqMoves.of_checking (h : wqGo q (.checking c) = some (q', p')) :
    WqMoves q (.checking c) q' p' := by
  rw [wqGo] at h
  split at h
  · cases h
    exact .count ‹_›
  · cases h
    exact .refuse (Bool.eq_false_of_not_eq_true ‹_›)

theorem WqMoves.of_blocked (h : wqGo q (.blocked c) = some (q', p')) :
    WqMoves q (.blocked c) q' p' := by
  obtain ⟨q₁, hwait, heq⟩ := Option.map_eq_some_iff.mp h
  obtain ⟨hsem, rfl⟩ := WorkQueue.semWait_eq_some.mp hwait
  cases heq
  exact .wake hsem

theorem WqMoves.of_woken (h : wqGo q (.woken c) = some (q', p')) :
    WqMoves q (.woken c) q' p' := by
  rw [wqGo] at h
  split at h
  · cases h
    exact .commit ‹_›
  · cases h
    exact .giveUp (Bool.eq_false_of_not_eq_true ‹_›)

theorem WqMoves.of_copying (h : wqGo q (.copying c) = some (q', p')) :
    WqMoves q (.copying c) q' p' := by
  obtain ⟨⟨q₁, r⟩, htransfer, heq⟩ := Option.map_eq_some_iff.mp h
  cases heq
  exact .transfer htransfer

theorem WqMoves.of_waking {i : ℕ} (h : wqGo q (.waking i) = some (q', p')) :
    WqMoves q (.waking i) q' p' := by
  rw [wqGo] at h
  split at h
  · cases h
    exact .wakeFull ‹_›
  · cases h
    exact .woke (by omega)

theorem wqGo_moves (h : wqGo q p = some (q', p')) : WqMoves q p q' p' := by
  cases p with
  | outside => cases h
  | entering c =>
      obtain ⟨hmutex, rfl, rfl⟩ := WorkQueue.map_wqLock_eq_some.mp h
      exact .enter hmutex
  | checking c => exact .of_checking h
  | counted c =>
      cases h
      exact .wait
  | blocked c => exact .of_blocked h
  | woken c => exact .of_woken h
  | committed c =>
      obtain ⟨hmutex, rfl, rfl⟩ := WorkQueue.map_wqLock_eq_some.mp h
      exact .lock hmutex
  | locked c =>
      cases h
      exact .uncount
  | posting c =>
      cases h
      exact .post
  | copying c => exact .of_copying h
  | unlocking result =>
      cases h
      exact .unlock
  | peeking =>
      cases h
      refine .peek ?_
      split <;> simp
  | skipping =>
      cases h
      refine .skip ?_
      split <;> simp
  | dropping =>
      obtain ⟨hmutex, rfl, rfl⟩ := WorkQueue.map_wqLock_eq_some.mp h
      exact .drop hmutex
  | marking =>
      cases h
      exact .mark
  | waking i => exact .of_waking h
  | freeing i =>
      cases h
      exact .wakeFree
  | resetting =>
      cases h
      exact .reset

theorem wqStep_moves {request : Option WqRequest} (h : wqStep q p request = some (q', p')) :
    WqMoves q p q' p' := by
  cases request with
  | none =>
      rw [wqStep] at h
      exact wqGo_moves h
  | some request =>
      cases p with
      | outside result =>
          cases h
          exact .begin
      | _ => cases h

namespace WqMoves

theorem place_holds (request : WqRequest) : request.place.holds = 0 := by
  cases request <;> rfl

theorem place_counts (request : WqRequest) : request.place.counts = 0 := by
  cases request <;> rfl

theorem place_commits (request : WqRequest) (m : WqSem) : request.place.commits m = 0 := by
  cases request <;> rfl

theorem place_waitsFor (request : WqRequest) (m : WqSem) : request.place.waitsFor m = 0 := by
  cases request <;> rfl

theorem place_due (request : WqRequest) (waiting : ℤ) (m : WqSem) :
    request.place.due waiting m = 0 := by
  cases request <;> rfl

theorem place_token (request : WqRequest) (m : WqSem) : request.place.token m = 0 := by
  cases request <;> rfl

theorem place_posted (request : WqRequest) (m : WqSem) : request.place.posted m = 0 := by
  cases request <;> rfl

theorem mutex_eq (h : WqMoves q p q' p') : q'.mutex + p'.holds = q.mutex + p.holds := by
  cases h with
  | enter hmutex | lock hmutex | drop hmutex => exact Nat.sub_add_cancel (Nat.pos_of_ne_zero hmutex)
  | count | refuse | wake | commit | giveUp | uncount | post | mark | wakeFull | woke | wakeFree
  | reset => rfl
  | wait | unlock => rfl
  | transfer htransfer => rw [(WorkQueue.transfer_spec htransfer).2.1]; rfl
  | peek hp | skip hp => rcases hp with rfl | rfl <;> rfl
  | begin => rw [place_holds]; rfl

theorem valid_of_valid (h : WqMoves q p q' p') (hvalid : q'.valid = true) : q.valid = true := by
  cases h with
  | mark => cases hvalid
  | transfer htransfer => rwa [(WorkQueue.transfer_spec htransfer).2.2.1] at hvalid
  | _ => exact hvalid

/-- As long as the queue is valid, a thread is counted when it begins to wait, and no more when it
transfers a string. -/
theorem waiting_eq (h : WqMoves q p q' p') (hvalid : q'.valid = true)
    (hmarks : p.Marks → q.valid = false) : q'.waiting + p.counts = q.waiting + p'.counts := by
  cases h with
  | count => simp [WqPlace.counts]
  | uncount => simp [WqPlace.counts]
  | mark => cases hvalid
  | reset => simp [hmarks trivial] at hvalid
  | giveUp hinvalid => simp [hinvalid] at hvalid
  | transfer htransfer =>
      rw [(WorkQueue.transfer_spec htransfer).2.2.2.1]
      rfl
  | begin => rw [place_counts]; rfl
  | peek hp | skip hp => rcases hp with rfl | rfl <;> rfl
  | _ => rfl

/-- As long as the queue is valid, a place in the ring goes from a semaphore to the thread that
decrements it, and from there to the other semaphore. -/
theorem balance (h : WqMoves q p q' p') (hvalid : q'.valid = true)
    (hmarks : p.Marks → q.valid = false) (m : WqSem) :
    q'.sem m + q'.done m + p'.token m + (q.done m.other + p.posted m) =
      q.sem m + q.done m + p.token m + (q'.done m.other + p'.posted m) := by
  cases h with
  | @wake c hsem =>
      by_cases hm : c.decr = m
      · subst hm
        simp [WqPlace.token, WqPlace.posted, WorkQueue.done]
        omega
      · simp [WqPlace.token, WqPlace.posted, WorkQueue.done, hm, Function.update_of_ne (Ne.symm hm)]
  | @post c =>
      by_cases hm : c.incr = m
      · subst hm
        simp [WqPlace.token, WqPlace.posted, WorkQueue.done, WorkQueue.semPost]
        omega
      · simp [WqPlace.token, WqPlace.posted, WorkQueue.done, WorkQueue.semPost, hm,
          Function.update_of_ne (Ne.symm hm)]
  | mark => cases hvalid
  | wakeFull => simp [hmarks trivial, WorkQueue.semPost] at hvalid
  | wakeFree => simp [hmarks trivial, WorkQueue.semPost] at hvalid
  | giveUp hinvalid => simp [hinvalid] at hvalid
  | transfer htransfer =>
      obtain ⟨hsem, -, -, -, hdone⟩ := WorkQueue.transfer_spec htransfer
      simp only [hsem, hdone, WqPlace.token, WqPlace.posted, WqCall.incr_eq, WqSem.other_eq_iff]
      omega
  | begin => rw [place_token, place_posted]; rfl
  | peek hp | skip hp => rcases hp with rfl | rfl <;> rfl
  | _ => rfl

/-- Once the queue is not valid, nobody else will transfer a string than those who will
anyway. -/
theorem commits_le (h : WqMoves q p q' p') (hvalid : q'.valid = false) (m : WqSem) :
    q'.done m + p'.commits m + (q.done m.other + p.posted m) ≤
      q.done m + p.commits m + (q'.done m.other + p'.posted m) := by
  cases h with
  | commit hvalid' => simp [hvalid'] at hvalid
  | transfer htransfer =>
      obtain ⟨-, -, -, -, hdone⟩ := WorkQueue.transfer_spec htransfer
      simp only [hdone, WqPlace.commits, WqPlace.posted, WqCall.incr_eq, WqSem.other_eq_iff]
      omega
  | @post c => simp [WqPlace.commits, WqPlace.posted, WorkQueue.semPost, WorkQueue.done]
  | begin => rw [place_commits, place_posted]; rfl
  | peek hp | skip hp => rcases hp with rfl | rfl <;> rfl
  | _ => rfl

theorem waiting_or (h : WqMoves q p q' p') :
    q'.waiting = q.waiting ∨ p.holds = 1 ∧ ∀ w m, p.due w m = 0 := by
  cases h with
  | count | uncount | reset => exact .inr ⟨rfl, fun _ _ => rfl⟩
  | transfer htransfer => exact .inl (WorkQueue.transfer_spec htransfer).2.2.2.1
  | _ => exact .inl rfl

/-- But for those who have just been counted, nobody begins to wait for a semaphore, and it is
decremented only by who has waited for it. -/
theorem wakes_le (h : WqMoves q p q' p') (hcounted : ∀ c, p ≠ .counted c) (m : WqSem) :
    q.sem m + p.due q'.waiting m + p'.waitsFor m ≤
      q'.sem m + p'.due q'.waiting m + p.waitsFor m := by
  cases h with
  | wait => exact absurd rfl (hcounted _)
  | @wake c hsem =>
      by_cases hm : c.decr = m
      · subst hm
        simp [WqPlace.due, WqPlace.waitsFor]
        omega
      · simp [WqPlace.due, WqPlace.waitsFor, hm, Function.update_of_ne (Ne.symm hm)]
  | @post c =>
      by_cases hm : m = c.incr
      · subst hm
        simp [WqPlace.due, WqPlace.waitsFor, WorkQueue.semPost]
      · simp [WqPlace.due, WqPlace.waitsFor, WorkQueue.semPost, Function.update_of_ne hm]
  | transfer htransfer =>
      rw [(WorkQueue.transfer_spec htransfer).1]
      rfl
  | wakeFull hi =>
      cases m with
      | semFull =>
          simp [WqPlace.due, WqPlace.waitsFor, WorkQueue.semPost]
          omega
      | semFree => simp [WqPlace.due, WqPlace.waitsFor, WorkQueue.semPost]
  | wakeFree =>
      cases m with
      | semFull => simp [WqPlace.due, WqPlace.waitsFor, WorkQueue.semPost]
      | semFree =>
          simp [WqPlace.due, WqPlace.waitsFor, WorkQueue.semPost]
          omega
  | woke hi =>
      simp [WqPlace.due, WqPlace.waitsFor]
      omega
  | mark => simp [WqPlace.due, WqPlace.waitsFor]
  | begin => rw [place_due, place_waitsFor]; exact le_rfl
  | peek hp | skip hp => rcases hp with rfl | rfl <;> exact le_rfl
  | _ => exact le_rfl

theorem marks_of_valid (h : WqMoves q p q' p') (hvalid : q.valid = true)
    (hvalid' : q'.valid = false) :
    p.holds = 1 ∧ p' = .waking 0 ∧ q'.waiting = q.waiting := by
  cases h with
  | mark => exact ⟨rfl, rfl, rfl⟩
  | transfer htransfer =>
      rw [(WorkQueue.transfer_spec htransfer).2.2.1, hvalid] at hvalid'
      cases hvalid'
  | _ => exact absurd (hvalid.symm.trans hvalid') (by decide)

theorem marks (h : WqMoves q p q' p') (hmarks : p'.Marks) : p.Marks ∨ q'.valid = false := by
  cases h with
  | mark => exact .inr rfl
  | wakeFull | woke | wakeFree => exact .inl trivial
  | peek hp | skip hp => rcases hp with rfl | rfl <;> cases hmarks
  | begin => rename_i request; cases request <;> cases hmarks
  | _ => cases hmarks

theorem counted (h : WqMoves q p q' p') {c : WqCall} (hp : p' = .counted c) : q'.valid = true := by
  cases h with
  | count hvalid => exact hvalid
  | peek hp' | skip hp' => rcases hp' with rfl | rfl <;> cases hp
  | begin => rename_i request; cases request <;> cases hp
  | _ => cases hp

end WqMoves

end Step

/-! ## Every run -/

section Runs

variable {T : Type*} [DecidableEq T] [Fintype T] {s s' : WqState T}

structure WqInv (s : WqState T) : Prop where
  mutex : s.shared.mutex + ∑ t, (s.pc t).holds = 1
  marks : ∀ t, (s.pc t).Marks → s.shared.valid = false
  counted : ∀ t c, s.pc t = .counted c → s.shared.valid = true
  waiting : s.shared.valid = true → s.shared.waiting = ((∑ t, (s.pc t).counts : ℕ) : ℤ)
  balance : s.shared.valid = true → ∀ m, s.shared.sem m + s.shared.done m +
    ∑ t, (s.pc t).token m = m.start + s.shared.done m.other + ∑ t, (s.pc t).posted m
  commits : ∀ m, s.shared.done m + ∑ t, (s.pc t).commits m ≤
    m.start + s.shared.done m.other + ∑ t, (s.pc t).posted m
  wakes : s.shared.valid = false → ∀ m,
    ∑ t, (s.pc t).waitsFor m ≤ s.shared.sem m + ∑ t, (s.pc t).due s.shared.waiting m

omit [DecidableEq T] in
theorem WqInv.start (h : WqStart T s) : WqInv s := by
  obtain ⟨strungs, -, -, hshared, hpc⟩ := h
  constructor <;>
    simp [hshared, hpc, WorkQueue.wqInit, WqPlace.holds, WqPlace.Marks, WqPlace.counts,
      WqPlace.token, WqPlace.posted, WqPlace.commits]
  · intro m
    cases m <;> rfl
  · intro m
    cases m <;> simp [WorkQueue.done]

theorem WqInv.holds_eq_zero (h : WqInv s) {t u : T} (ht : (s.pc t).holds = 1) (hu : u ≠ t) :
    (s.pc u).holds = 0 := by
  have hsum : (s.pc u).holds + (s.pc t).holds ≤ ∑ v, (s.pc v).holds :=
    Threads.add_le_sum (fun _ p => WqPlace.holds p) s.pc hu
  have := h.mutex
  omega

section Step

variable {t : T} {q' : WorkQueue} {p' : WqPlace}

/-- Whoever goes through while the queue is valid has decremented a semaphore. -/
theorem WqInv.step_commits (h : WqInv s) (hmoves : WqMoves s.shared (s.pc t) q' p') (m : WqSem) :
    q'.done m + ∑ u, (Function.update s.pc t p' u).commits m ≤
      m.start + q'.done m.other + ∑ u, (Function.update s.pc t p' u).posted m := by
  have hposted := Threads.sum_update (fun _ p => WqPlace.posted m p) s.pc t p'
  cases hvalid : q'.valid with
  | true =>
      have htoken := Threads.sum_update (fun _ p => WqPlace.token m p) s.pc t p'
      have hbalance := hmoves.balance hvalid (h.marks t) m
      have hle : ∑ u, (Function.update s.pc t p' u).commits m ≤
          ∑ u, (Function.update s.pc t p' u).token m :=
        Finset.sum_le_sum fun u _ => WqPlace.commits_le_token
      have := h.balance (hmoves.valid_of_valid hvalid) m
      omega
  | false =>
      have hcommits := Threads.sum_update (fun _ p => WqPlace.commits m p) s.pc t p'
      have hle := hmoves.commits_le hvalid m
      have := h.commits m
      omega

/-- Those who wait when the queue is made invalid have been counted. After that they are woken. -/
theorem WqInv.step_wakes (h : WqInv s) (hmoves : WqMoves s.shared (s.pc t) q' p')
    (hvalid' : q'.valid = false) (m : WqSem) :
    ∑ u, (Function.update s.pc t p' u).waitsFor m ≤
      q'.sem m + ∑ u, (Function.update s.pc t p' u).due q'.waiting m := by
  have hwaits := Threads.sum_update (fun _ p => WqPlace.waitsFor m p) s.pc t p'
  cases hvalid : s.shared.valid with
  | true =>
      obtain ⟨-, rfl, hwaiting⟩ := hmoves.marks_of_valid hvalid hvalid'
      have hcounts : ∑ u, (s.pc u).waitsFor m ≤ ∑ u, (s.pc u).counts :=
        Finset.sum_le_sum fun u _ => WqPlace.waitsFor_le_counts
      have hdue := Threads.le_sum (fun _ p => WqPlace.due q'.waiting m p)
        (Function.update s.pc t (.waking 0)) t
      rw [Function.update_self, show (WqPlace.waking 0).due q'.waiting m = (q'.waiting - 0).toNat
        from rfl] at hdue
      rw [show (WqPlace.waking 0).waitsFor m = 0 from rfl] at hwaits
      have := h.waiting hvalid
      omega
  | false =>
      have hdue : ∑ u, (s.pc u).due s.shared.waiting m = ∑ u, (s.pc u).due q'.waiting m := by
        rcases hmoves.waiting_or with heq | ⟨hholds, hzero⟩
        · rw [heq]
        · refine Finset.sum_congr rfl fun u _ => ?_
          by_cases hut : u = t
          · rw [hut, hzero, hzero]
          · have hu := h.holds_eq_zero hholds hut
            rw [WqPlace.due_eq_zero hu, WqPlace.due_eq_zero hu]
      have hsum := Threads.sum_update (fun _ p => WqPlace.due q'.waiting m p) s.pc t p'
      have hcounted : ∀ c, s.pc t ≠ .counted c := fun c hc => by
        rw [h.counted t c hc] at hvalid
        cases hvalid
      have hle := hmoves.wakes_le hcounted m
      have := h.wakes hvalid m
      omega

end Step

theorem WqInv.step {t : T} {q' : WorkQueue} {p' : WqPlace} (h : WqInv s)
    (hmoves : WqMoves s.shared (s.pc t) q' p') : WqInv ⟨q', Function.update s.pc t p'⟩ where
  mutex := by
    have hsum := Threads.sum_update (fun _ p => WqPlace.holds p) s.pc t p'
    have hmutex := hmoves.mutex_eq
    have := h.mutex
    simp only at hsum ⊢
    omega
  marks := by
    intro u hu
    have hfalse : s.shared.valid = false → q'.valid = false := fun hvalid => by
      by_contra hvalid'
      rw [hmoves.valid_of_valid (Bool.eq_true_of_not_eq_false hvalid')] at hvalid
      cases hvalid
    by_cases hut : u = t
    · subst hut
      simp only [Function.update_self] at hu
      rcases hmoves.marks hu with hmarks | hvalid
      · exact hfalse (h.marks _ hmarks)
      · exact hvalid
    · simp only [Function.update_of_ne hut] at hu
      exact hfalse (h.marks u hu)
  counted := by
    intro u c hu
    by_cases hut : u = t
    · subst hut
      simp only [Function.update_self] at hu
      exact hmoves.counted hu
    · simp only [Function.update_of_ne hut] at hu
      by_contra hvalid'
      -- who makes the queue invalid has the mutex, and so has the one who has been counted
      have hholds := (hmoves.marks_of_valid (h.counted u c hu)
        (Bool.eq_false_of_not_eq_true hvalid')).1
      have := h.holds_eq_zero hholds hut
      rw [hu] at this
      cases this
  waiting := by
    intro hvalid
    have hsum := Threads.sum_update (fun _ p => WqPlace.counts p) s.pc t p'
    have hwaiting := hmoves.waiting_eq hvalid (h.marks t)
    have := h.waiting (hmoves.valid_of_valid hvalid)
    simp only at hsum ⊢
    omega
  balance := by
    intro hvalid m
    have htoken := Threads.sum_update (fun _ p => WqPlace.token m p) s.pc t p'
    have hposted := Threads.sum_update (fun _ p => WqPlace.posted m p) s.pc t p'
    have hbalance := hmoves.balance hvalid (h.marks t) m
    have := h.balance (hmoves.valid_of_valid hvalid) m
    simp only at htoken hposted ⊢
    omega
  commits := h.step_commits hmoves
  wakes := h.step_wakes hmoves

theorem wqInv_of_run {hist : List (T × Option WqRequest)} (hrun : WqRun T hist s) : WqInv s := by
  refine hrun.invariant (I := fun _ s => WqInv s) (fun s => WqInv.start)
    fun _ s label s' h hstep => ?_
  obtain ⟨q', p', hgo, rfl⟩ := Threads.move_eq_some.mp hstep
  exact h.step (wqStep_moves hgo)

end Runs

end PosixThreads
