import PosixThreads.WorkQueue.Fifo

/-!
# The calls of the queue

A call waits only as long as it has to: a `wqPop` for a string, a `wqPut` for a free place, and
both only as long as the queue is valid. When it has been made invalid, no thread stays behind in a
call.
-/

namespace PosixThreads

theorem wqGo_eq_none {q : WorkQueue} {p : WqPlace} (h : wqGo q p = none) :
    (∃ result, p = .outside result) ∨ q.mutex = 0 ∧ p.holds = 0 ∨
      (∃ c, p = .blocked c ∧ q.sem c.decr = 0) ∨ ∃ c, p = .copying c ∧ q.transfer c = none := by
  have hlock : q.wqLock = none → q.mutex = 0 := by
    intro hlock
    by_contra hmutex
    simp [WorkQueue.wqLock, hmutex] at hlock
  cases p with
  | outside result => exact .inl ⟨result, rfl⟩
  | entering | committed | dropping =>
      exact .inr (.inl ⟨hlock (Option.map_eq_none_iff.mp h), rfl⟩)
  | blocked c =>
      have hwait := Option.map_eq_none_iff.mp h
      refine .inr (.inr (.inl ⟨c, rfl, ?_⟩))
      by_contra hsem
      simp [WorkQueue.semWait, hsem] at hwait
  | copying c => exact .inr (.inr (.inr ⟨c, rfl, Option.map_eq_none_iff.mp h⟩))
  | checking | woken | waking =>
      rw [wqGo] at h
      split at h <;> cases h
  | _ => cases h

section Runs

variable {T : Type*} [DecidableEq T] [Fintype T] {s : WqState T}
  {hist : List (T × Option WqRequest)}

/-! ## Who waits -/

/-- If no call goes on, the mutex is free, and the threads that are in a call wait for a
semaphore. -/
theorem WqInv.blocked (h : WqInv s) {slots : List (List UInt8)} (hstored : WqStored s.shared slots)
    (hstuck : ∀ t, wqGo s.shared (s.pc t) = none) (t : T) :
    (∃ result, s.pc t = .outside result) ∨
      ∃ c, s.pc t = .blocked c ∧ s.shared.sem c.decr = 0 := by
  have hcopying : ∀ u c, s.pc u = .copying c → s.shared.transfer c ≠ none := by
    intro u c hu hnone
    obtain ⟨q', r, slots', htransfer, -⟩ := h.transfer hstored hu
    rw [hnone] at htransfer
    cases htransfer
  have hholds : ∀ u, (s.pc u).holds = 0 := by
    intro u
    rcases wqGo_eq_none (hstuck u) with ⟨result, hu⟩ | ⟨-, hu⟩ | ⟨c, hu, -⟩ | ⟨c, hu, hnone⟩
    · rw [hu]; rfl
    · exact hu
    · rw [hu]; rfl
    · exact absurd hnone (hcopying u c hu)
  have hmutex := h.mutex
  rw [Finset.sum_eq_zero fun u _ => hholds u] at hmutex
  rcases wqGo_eq_none (hstuck t) with hout | ⟨hzero, -⟩ | hblocked | ⟨c, ht, hnone⟩
  · exact .inl hout
  · omega
  · exact .inr hblocked
  · exact absurd hnone (hcopying t c ht)

/-- Once the queue is not valid, nobody waits: the semaphores have been incremented for all. -/
theorem WqInv.outside (h : WqInv s) {slots : List (List UInt8)} (hstored : WqStored s.shared slots)
    (hstuck : ∀ t, wqGo s.shared (s.pc t) = none) (hvalid : s.shared.valid = false) (t : T) :
    ∃ result, s.pc t = .outside result := by
  have hblocked := h.blocked hstored hstuck
  refine (hblocked t).resolve_right ?_
  rintro ⟨c, ht, hsem⟩
  have hwakes := h.wakes hvalid c.decr
  have hdue : ∑ u, (s.pc u).due s.shared.waiting c.decr = 0 := by
    refine Finset.sum_eq_zero fun u _ => ?_
    rcases hblocked u with ⟨result, hu⟩ | ⟨c, hu, -⟩
    · rw [hu]; rfl
    · rw [hu]; rfl
  have hwaits := Threads.le_sum (fun _ p => WqPlace.waitsFor c.decr p) s.pc t
  have hone : (s.pc t).waitsFor c.decr = 1 := by
    rw [ht]
    exact if_pos rfl
  omega

theorem WqInv.done_eq (h : WqInv s) {slots : List (List UInt8)} (hstored : WqStored s.shared slots)
    (hstuck : ∀ t, wqGo s.shared (s.pc t) = none) (hvalid : s.shared.valid = true) (m : WqSem) :
    s.shared.sem m + s.shared.done m = m.start + s.shared.done m.other := by
  have hbalance := h.balance hvalid m
  have hzero : ∀ u, (s.pc u).token m = 0 ∧ (s.pc u).posted m = 0 := by
    intro u
    rcases h.blocked hstored hstuck u with ⟨result, hu⟩ | ⟨c, hu, -⟩
    · rw [hu]; exact ⟨rfl, rfl⟩
    · rw [hu]; exact ⟨rfl, rfl⟩
  rw [Finset.sum_eq_zero fun u _ => (hzero u).1, Finset.sum_eq_zero fun u _ => (hzero u).2]
    at hbalance
  omega

/-- In every state that is reached, if none of the calls can go on, then each thread is in no call,
or the queue is valid, and it waits in `wqPop` and the queue is empty, or it waits in `wqPut` and
the queue is full. -/
theorem wqRun_waits (hrun : WqRun T hist s) (hstuck : ∀ t, wqGo s.shared (s.pc t) = none) (t : T) :
    (∃ result, s.pc t = .outside result) ∨ s.shared.valid = true ∧
      ((∃ bufsize, s.pc t = .blocked (.pop bufsize)) ∧
          s.shared.puts.length = s.shared.gets.length ∨
        (∃ buf, s.pc t = .blocked (.put buf)) ∧
          s.shared.puts.length = s.shared.gets.length + wqQueueCap) := by
  have hinv := wqInv_of_run hrun
  obtain ⟨slots, hstored⟩ := stored_of_run hrun
  cases hvalid : s.shared.valid with
  | false => exact .inl (hinv.outside hstored hstuck hvalid t)
  | true =>
      refine (hinv.blocked hstored hstuck t).imp_right fun ⟨c, ht, hsem⟩ => ⟨rfl, ?_⟩
      have hdone := hinv.done_eq hstored hstuck hvalid c.decr
      rw [hsem, Nat.zero_add] at hdone
      cases c with
      | pop bufsize =>
          have hlen : s.shared.gets.length = 0 + s.shared.puts.length := hdone
          exact .inl ⟨⟨bufsize, ht⟩, by omega⟩
      | put buf =>
          have hlen : s.shared.puts.length = wqQueueCap + s.shared.gets.length := hdone
          exact .inr ⟨⟨buf, ht⟩, by omega⟩

/-- A thread puts ten strings in, and begins to put an eleventh one. -/
def elevenPuts : List (Fin 1 × Option WqRequest) :=
  let put := (0, some (.call (.put [97])))
  (List.replicate 10 (put :: List.replicate 10 (0, none))).flatten ++
    put :: List.replicate 3 (0, none)

theorem wqRun_waits_elevenPuts : ∃ s, WqRun (Fin 1) elevenPuts s ∧
    (∀ t, wqGo s.shared (s.pc t) = none) ∧ ∀ t, (∃ result, s.pc t = .outside result) ∨
      s.shared.valid = true ∧
        ((∃ bufsize, s.pc t = .blocked (.pop bufsize)) ∧
            s.shared.puts.length = s.shared.gets.length ∨
          (∃ buf, s.pc t = .blocked (.put buf)) ∧
            s.shared.puts.length = s.shared.gets.length + wqQueueCap) := by
  obtain ⟨s, hrun, hstuck⟩ := Lts.exists_run (Threads.move fun _ => wqStep) elevenPuts
    (fun s => ∀ t, (wqGo s.shared (s.pc t)).isNone) (wqStart_sevens (Fin 1)) (by decide +kernel)
  have hnone : ∀ t, wqGo s.shared (s.pc t) = none := fun t =>
    Option.isNone_iff_eq_none.mp (hstuck t)
  exact ⟨s, hrun, hnone, wqRun_waits hrun hnone⟩

/-! ## The end -/

/-- The queue is not valid, and nobody is counted any more. -/
def WorkQueue.Dropped (q : WorkQueue) : Prop := q.valid = false ∧ q.waiting ≤ 0

/-- The steps that are left of a call when the queue has been dropped. -/
def WqPlace.left : WqPlace → ℕ
  | .outside _ => 0
  | .unlocking _ => 1
  | .checking _ | .copying _ | .resetting => 2
  | .entering _ | .posting _ | .waking _ => 3
  | .locked _ | .marking | .freeing _ => 4
  | .committed _ | .dropping => 5
  | .woken _ | .skipping => 6
  | .blocked _ | .peeking => 7
  | .counted _ => 8

theorem wqGo_dropped {q q' : WorkQueue} {p p' : WqPlace} (hq : q.Dropped)
    (h : wqGo q p = some (q', p')) : q'.Dropped ∧ p'.left < p.left := by
  obtain ⟨hvalid, hwaiting⟩ := hq
  cases wqGo_moves h with
  | count hvalid' | commit hvalid' => simp [hvalid] at hvalid'
  | uncount => exact ⟨⟨hvalid, by simp only; omega⟩, Nat.lt_succ_self _⟩
  | transfer htransfer =>
      obtain ⟨-, -, hvalid', hwaiting', -⟩ := WorkQueue.transfer_spec htransfer
      exact ⟨⟨hvalid'.trans hvalid, hwaiting'.trans_le hwaiting⟩, Nat.lt_succ_self _⟩
  | wakeFull hi => omega
  | mark => exact ⟨⟨rfl, hwaiting⟩, by decide⟩
  | reset => exact ⟨⟨hvalid, le_rfl⟩, by decide⟩
  | peek hp | skip hp => rcases hp with rfl | rfl <;> exact ⟨⟨hvalid, hwaiting⟩, by decide⟩
  | begin => cases h
  | _ => exact ⟨⟨hvalid, hwaiting⟩, by simp [WqPlace.left]⟩

/-- Whatever is begun after that, the queue stays as it is, and so it is as soon as the first
`wqInvalidate` has woken the others. -/
theorem WqMoves.dropped {q q' : WorkQueue} {p p' : WqPlace} (h : WqMoves q p q' p')
    (hq : q.valid = false → ¬p.Marks → q.waiting ≤ 0) (hvalid : q'.valid = false)
    (hmarks : ¬p'.Marks) : q'.waiting ≤ 0 := by
  cases h with
  | count hvalid' => simp [hvalid'] at hvalid
  | uncount => exact (sub_le_self _ zero_le_one).trans (hq hvalid id)
  | transfer htransfer =>
      obtain ⟨-, -, hvalid', hwaiting', -⟩ := WorkQueue.transfer_spec htransfer
      rw [hwaiting']
      exact hq (hvalid'.symm.trans hvalid) id
  | mark | wakeFull | woke | wakeFree => exact absurd trivial hmarks
  | reset => exact le_rfl
  | _ => exact hq hvalid id

omit [Fintype T] in
theorem dropped_of_run (hrun : WqRun T hist s) (hvalid : s.shared.valid = false)
    (hmarks : ∀ t, ¬(s.pc t).Marks) : s.shared.Dropped := by
  refine ⟨hvalid, ?_⟩
  refine hrun.invariant (I := fun _ s => s.shared.valid = false → (∀ t, ¬(s.pc t).Marks) →
    s.shared.waiting ≤ 0) (fun s hstart hvalid _ => ?_)
    (fun _ s label s' h hstep hvalid hmarks => ?_) hvalid hmarks
  · obtain ⟨strungs, -, -, hshared, -⟩ := hstart
    rw [hshared] at hvalid
    cases hvalid
  · obtain ⟨q', p', hgo, rfl⟩ := Threads.move_eq_some.mp hstep
    have hmoved := hmarks label.1
    simp only [Function.update_self] at hmoved
    refine (wqStep_moves hgo).dropped (fun hvalid hnot => h hvalid fun u => ?_) hvalid hmoved
    by_cases hu : u = label.1
    · rwa [hu]
    · have hnot := hmarks u
      simp only [Function.update_of_ne hu] at hnot
      exact hnot

/-- The threads that are in a call go on, and no call is begun. -/
abbrev WqReturns (s : WqState T) : List (T × Unit) → WqState T → Prop :=
  Threads.Run (fun s₀ => s₀ = s) fun _ q p _ => wqGo q p

structure WqReturning (s : WqState T) : Prop where
  inv : WqInv s
  stored : ∃ slots, WqStored s.shared slots
  dropped : s.shared.Dropped

theorem WqReturning.run {s' : WqState T} {hist : List (T × Unit)} (h : WqReturning s)
    (hrun : WqReturns s hist s') : WqReturning s' := by
  refine hrun.invariant (I := fun _ s' => WqReturning s') (fun s₀ hs₀ => hs₀ ▸ h)
    fun _ s label s' h hstep => ?_
  obtain ⟨q', p', hgo, rfl⟩ := Threads.move_eq_some.mp hstep
  obtain ⟨slots, hstored⟩ := h.stored
  have hmoves := wqGo_moves hgo
  exact ⟨h.inv.step hmoves, stored_step h.inv hstored hmoves, (wqGo_dropped h.dropped hgo).1⟩

theorem WqReturning.length_le {s' : WqState T} {hist : List (T × Unit)} (h : WqReturning s)
    (hrun : WqReturns s hist s') : hist.length ≤ 8 * Fintype.card T := by
  have hbound := Threads.Run.length_add_measure_le (I := WqReturning) (N := 8 * Fintype.card T)
    (fun _ => 0) (fun _ p => p.left) (fun s₀ _ => ?_)
    (fun s t _ q p h hgo => ?_) (fun _ _ => h.run) hrun
  · omega
  · have hsum : ∑ t, (s₀.pc t).left ≤ ∑ _ : T, 8 := Finset.sum_le_sum fun t _ => by
      cases s₀.pc t <;> simp [WqPlace.left]
    rw [Finset.sum_const, Finset.card_univ, Nat.nsmul_eq_mul] at hsum
    omega
  · have := (wqGo_dropped h.dropped hgo).2
    omega

theorem WqReturning.not_stuck (h : WqReturning s) : (∀ t, ∃ result, s.pc t = .outside result) ∨
    ∃ label s', Threads.move (fun _ q p (_ : Unit) => wqGo q p) s label = some s' := by
  rw [or_iff_not_imp_right]
  intro hblocked
  obtain ⟨slots, hstored⟩ := h.stored
  exact h.inv.outside hstored (fun t => Threads.eq_none_of_blocked hblocked t ()) h.dropped.1

/-- As soon as the queue is not valid and nobody is waking the others any more, the calls that have
been begun return: they take at most eight steps each, whoever goes on, and they can go on until
all have returned. -/
theorem wqRun_returns (hrun : WqRun T hist s) (hvalid : s.shared.valid = false)
    (hmarks : ∀ t, ¬(s.pc t).Marks) {hist' : List (T × Unit)} {s' : WqState T}
    (hreturns : WqReturns s hist' s') :
    hist'.length ≤ 8 * Fintype.card T ∧
      ∃ rest s'', WqReturns s (hist' ++ rest) s'' ∧ ∀ t, ∃ result, s''.pc t = .outside result := by
  obtain ⟨slots, hstored⟩ := stored_of_run hrun
  have h : WqReturning s := ⟨wqInv_of_run hrun, ⟨slots, hstored⟩, dropped_of_run hrun hvalid hmarks⟩
  exact ⟨h.length_le hreturns, Lts.Run.complete h.length_le (fun hrun => (h.run hrun).not_stuck)
    hreturns⟩

/-- While a thread waits to pop a string, another one makes the queue invalid. -/
def reap : List (Fin 2 × Option WqRequest) :=
  let pops : Fin 2 := ⟨0, Nat.zero_lt_two⟩
  let reaper : Fin 2 := ⟨1, Nat.one_lt_two⟩
  (pops, some (.call (.pop 80))) :: List.replicate 3 (pops, none) ++
    (reaper, some .invalidate) :: List.replicate 8 (reaper, none)

theorem wqRun_returns_reap : ∃ s, WqRun (Fin 2) reap s ∧ s.shared.valid = false ∧
    (∀ t, ¬(s.pc t).Marks) ∧ WqReturns s [] s ∧ 0 ≤ 8 * Fintype.card (Fin 2) ∧
      ∃ rest s'', WqReturns s ([] ++ rest) s'' ∧ ∀ t, ∃ result, s''.pc t = .outside result := by
  obtain ⟨s, hrun, hvalid, h0, h1⟩ := Lts.exists_run (Threads.move fun _ => wqStep) reap
    (fun s => s.shared.valid = false ∧ s.pc 0 = .blocked (.pop 80) ∧ s.pc 1 = .outside none)
    (wqStart_sevens (Fin 2)) (by decide +kernel)
  have hmarks : ∀ t, ¬(s.pc t).Marks := by
    intro t
    match t with
    | 0 => rw [h0]; exact id
    | 1 => rw [h1]; exact id
  exact ⟨s, hrun, hvalid, hmarks, .start rfl, wqRun_returns hrun hvalid hmarks (.start rfl)⟩

end Runs

end PosixThreads
