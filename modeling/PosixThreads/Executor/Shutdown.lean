import Mathlib.Algebra.Order.BigOperators.Group.List
import Mathlib.Algebra.Order.Ring.Nat
import PosixThreads.Executor.Idle

/-!
# The end of a thread pool

A pool that has been shut down takes no more tasks. Its workers have been woken up, none of them
goes back to wait, and they exit only when the queue is empty. So
`executor_thread_pool_await_termination` has an end, whatever else is done with the pool meanwhile,
and then each task that was accepted has been run.
-/

namespace PosixThreads

/-- The steps that are left of a worker, but for further tasks. -/
def Worker.left : Worker → ℕ
  | .exited => 0
  | .working _ => 2
  | _ => 1

def ThreadPool.left (s : ThreadPool) : ℕ := 2 * s.tasks.length + (s.workers.map Worker.left).sum

def PoolAction.ofWorker : PoolAction → Bool
  | .enter _ | .finish .. => true
  | _ => false

/-- The pool has been shut down, and nobody waits to be signalled. -/
def ThreadPool.Stopped (s : ThreadPool) : Prop :=
  s.state = .stopping ∧ ∀ worker ∈ s.workers, worker.waits = false

/-- A worker takes a step without a spurious wake-up. -/
def ThreadPool.WorkerStep (s : ThreadPool) (act : PoolAction) (s' : ThreadPool) : Prop :=
  s.Step act s' ∧ match act with
    | .enter w => ∃ worker, s.workers[w]? = some worker ∧ worker.waits = false
    | .finish .. => True
    | _ => False

section Workers

variable {s s' : ThreadPool} {workers : List Worker} {w : ℕ} {old new : Worker} {act : PoolAction}

theorem left_set (h : workers[w]? = some old) (new : Worker) :
    ((workers.set w new).map Worker.left).sum + old.left =
      (workers.map Worker.left).sum + new.left := by
  obtain ⟨hw, hold⟩ := List.getElem?_eq_some_iff.mp h
  have hbefore := ((List.getElem_cons_eraseIdx_perm hw).map Worker.left).sum_eq
  have hafter := ((List.set_perm_cons_eraseIdx hw new).map Worker.left).sum_eq
  rw [hold, List.map_cons, List.sum_cons] at hbefore
  rw [List.map_cons, List.sum_cons] at hafter
  omega

theorem left_signal (workers : List Worker) :
    ((workers.map Worker.signal).map Worker.left).sum = (workers.map Worker.left).sum := by
  rw [List.map_map]
  congr 1
  refine List.map_congr_left fun worker _ => ?_
  cases worker <;> rfl

theorem Worker.waits_signal (worker : Worker) : worker.signal.waits = false := by
  cases worker <;> rfl

theorem waits_set (hwaits : ∀ worker ∈ workers, worker.waits = false) (hnew : new.waits = false) :
    ∀ worker ∈ workers.set w new, worker.waits = false := by
  intro worker hmem
  rcases List.mem_or_eq_of_mem_set hmem with hmem | rfl
  · exact hwaits worker hmem
  · exact hnew

theorem ThreadPool.stopped_shutdown (s : ThreadPool) : s.shutdown.Stopped := by
  refine ⟨rfl, fun worker hmem => ?_⟩
  obtain ⟨worker, -, rfl⟩ := List.mem_map.mp hmem
  exact worker.waits_signal

/-! ## One step -/

/-- What a step leaves of a pool that has been shut down. -/
structure Stops (s : ThreadPool) (act : PoolAction) (s' : ThreadPool) : Prop where
  stopped : s'.Stopped
  left_le : s'.left + (if act.ofWorker then 1 else 0) ≤ s.left
  added : s'.addedTasks = s.addedTasks

theorem Stops.shutdown (s : ThreadPool) (hact : act.ofWorker = false) :
    Stops s act s.shutdown := by
  refine ⟨s.stopped_shutdown, ?_, rfl⟩
  rw [hact, ThreadPool.left, ThreadPool.left, ThreadPool.shutdown, ThreadPool.condBroadcast,
    left_signal]
  exact Nat.le_refl s.left

theorem Stops.takeTask (h : s.Stopped) (hw : s.workers[w]? = some old) (hold : 1 ≤ old.left)
    (hact : act.ofWorker = true) : Stops s act (s.takeTask w) := by
  obtain ⟨hstate, hwaits⟩ := h
  cases htasks : s.tasks with
  | nil =>
      have htake : s.takeTask w = { s with workers := s.workers.set w .exited } := by
        simp [ThreadPool.takeTask, htasks, hstate]
      have hleft := left_set hw .exited
      rw [htake]
      refine ⟨⟨hstate, waits_set hwaits rfl⟩, ?_, rfl⟩
      rw [hact, if_pos rfl, ThreadPool.left, ThreadPool.left]
      rw [show Worker.exited.left = 0 from rfl] at hleft
      simp only
      omega
  | cons task rest =>
      have htake : s.takeTask w = { s with
          tasks := rest
          workers := s.workers.set w (.working task)
          log := s.log ++ [.started task] } := by
        simp [ThreadPool.takeTask, htasks]
      have hleft := left_set hw (.working task)
      rw [htake]
      refine ⟨⟨hstate, waits_set hwaits rfl⟩, ?_, by
        simp [ThreadPool.addedTasks, htasks, PoolEvent.started?]⟩
      rw [hact, if_pos rfl, ThreadPool.left, ThreadPool.left, htasks, List.length_cons]
      rw [show (Worker.working task).left = 2 from rfl] at hleft
      simp only
      omega

theorem Stops.finish {err onErrorResult : Option Error} (h : s.Stopped)
    (hfinish : s.finish w err onErrorResult = some s') (hact : act.ofWorker = true) :
    Stops s act s' := by
  obtain ⟨hstate, hwaits⟩ := h
  obtain ⟨task, hw, rfl⟩ := ThreadPool.finish_spec hfinish
  have hleft := left_set hw .locking
  refine ⟨⟨hstate, waits_set hwaits rfl⟩, ?_, by
    simp [ThreadPool.addedTasks, PoolEvent.started?]⟩
  rw [hact, if_pos rfl, ThreadPool.left, ThreadPool.left]
  simp only [Worker.left] at hleft ⊢
  omega

theorem ThreadPool.Stopped.step (h : s.Stopped) (hstep : s.Step act s') : Stops s act s' := by
  have hstarting : s.state ≠ .starting := by simp [h.1]
  cases act with
  | submit alloc woken =>
      simp only [ThreadPool.Step, ThreadPool.step, ThreadPool.submit, h.1, ne_eq, reduceCtorEq,
        not_false_eq_true, if_true, Option.some.injEq] at hstep
      rw [← hstep]
      exact ⟨⟨rfl, h.2⟩, Nat.le_refl s.left, by simp [ThreadPool.addedTasks, PoolEvent.started?]⟩
  | stopFailed =>
      simp only [ThreadPool.Step, ThreadPool.step] at hstep
      split at hstep
      · rw [← Option.some.inj hstep]
        have hstops : Stops _ .stopFailed _ := .shutdown { s with failing := s.failing - 1 } rfl
        exact ⟨hstops.stopped, hstops.left_le, hstops.added⟩
      · cases hstep
  | shutdown =>
      rw [← Option.some.inj hstep]
      exact .shutdown s rfl
  | setOnError onError =>
      rw [← Option.some.inj hstep]
      exact ⟨h, Nat.le_refl s.left, rfl⟩
  | enter w =>
      obtain ⟨old, hw, hold, rfl⟩ := ThreadPool.enter_spec hstarting hstep
      have hexited : old ≠ .exited := by
        rintro rfl
        simp [ThreadPool.Step, ThreadPool.step, ThreadPool.enter, hw] at hstep
      refine .takeTask h hw ?_ rfl
      cases old <;> simp [Worker.left] at hexited ⊢
  | finish w err onErrorResult => exact .finish h hstep rfl

/-- A pool is stopped by who wakes up the workers that wait. -/
theorem ThreadPool.step_running (hrunning : s.state = .running) (hstep : s.Step act s') :
    s'.state = .running ∨ s'.Stopped := by
  have hstarting : s.state ≠ .starting := by simp [hrunning]
  cases act with
  | submit alloc woken =>
      refine .inl ?_
      simp only [ThreadPool.Step, ThreadPool.step, ThreadPool.submit] at hstep
      split at hstep
      · rw [← Option.some.inj hstep]
        exact hrunning
      · split at hstep
        · split at hstep
          · exact (ThreadPool.condSignal_state hstep).trans hrunning
          · rw [← Option.some.inj hstep]
            exact hrunning
        · rw [← Option.some.inj hstep]
          exact hrunning
  | stopFailed =>
      simp only [ThreadPool.Step, ThreadPool.step] at hstep
      split at hstep
      · rw [← Option.some.inj hstep]
        exact .inr (ThreadPool.stopped_shutdown _)
      · cases hstep
  | shutdown =>
      rw [← Option.some.inj hstep]
      exact .inr s.stopped_shutdown
  | setOnError onError =>
      rw [← Option.some.inj hstep]
      exact .inl hrunning
  | enter w =>
      obtain ⟨old, -, -, rfl⟩ := ThreadPool.enter_spec hstarting hstep
      refine .inl ?_
      rw [ThreadPool.takeTask]
      split
      · rw [if_pos hrunning]
        exact hrunning
      · exact hrunning
  | finish w err onErrorResult =>
      refine .inl ?_
      simp only [ThreadPool.Step, ThreadPool.step, ThreadPool.finish] at hstep
      split at hstep
      · split at hstep
        · rw [← Option.some.inj hstep]
          exact hrunning
        · cases hstep
      · cases hstep

/-! ## Every run -/

theorem ThreadPool.WorkerStep.ofWorker (h : s.WorkerStep act s') : act.ofWorker = true := by
  cases act with
  | enter | finish => rfl
  | _ => exact h.2.elim

theorem ThreadPool.Stopped.exists_workerStep (h : s.Stopped) (hw : s.workers[w]? = some old)
    (hexited : old ≠ .exited) : ∃ act s', s.WorkerStep act s' := by
  have hwaits := h.2 old (List.mem_of_getElem? hw)
  have hstarting : s.state ≠ .starting := by simp [h.1]
  cases old with
  | working task =>
      exact ⟨.finish w none none, _, by
        simp only [ThreadPool.Step, ThreadPool.step, ThreadPool.finish, hw]
        rfl, trivial⟩
  | exited => exact absurd rfl hexited
  | _ =>
      exact ⟨.enter w, s.takeTask w, by
        simp [ThreadPool.Step, ThreadPool.step, ThreadPool.enter, hw, hstarting], _, hw, hwaits⟩

end Workers

section Runs

variable {s s' : ThreadPool} {act : PoolAction} {hist : List PoolAction}

theorem stopped_of_run (hrun : Lts.Run ThreadPool.Init ThreadPool.Step hist s)
    (hstate : s.state = .stopping) : s.Stopped := by
  have hinv : s.state = .running ∨ s.Stopped := by
    refine hrun.invariant (I := fun _ s => s.state = .running ∨ s.Stopped) (fun s hinit => ?_)
      fun _ s act s' h hstep => ?_
    · obtain ⟨size, -, rfl⟩ := hinit
      exact .inl rfl
    · rcases h with hrunning | hstopped
      · exact ThreadPool.step_running hrunning hstep
      · exact .inr (hstopped.step hstep).stopped
  refine hinv.resolve_left fun hrunning => ?_
  rw [hstate] at hrunning
  cases hrunning

/-- Whatever is done with a pool that has been shut down, its workers make no more steps than are
left, and no task is added to the queue any more. -/
theorem ThreadPool.Stopped.run (h : s.Stopped)
    (hrun : Lts.Run (fun s₀ => s₀ = s) ThreadPool.Step hist s') :
    s'.Stopped ∧ s'.left + hist.countP PoolAction.ofWorker ≤ s.left ∧
      s'.addedTasks = s.addedTasks := by
  refine hrun.invariant (I := fun hist s' => s'.Stopped ∧
    s'.left + hist.countP PoolAction.ofWorker ≤ s.left ∧
      s'.addedTasks = s.addedTasks) ?_ ?_
  · rintro s₀ rfl
    exact ⟨h, by simp, rfl⟩
  · rintro hist s₁ act s₂ ⟨hstopped, hleft, hadded⟩ hstep
    have hstops := hstopped.step hstep
    refine ⟨hstops.stopped, ?_, hstops.added.trans hadded⟩
    have := hstops.left_le
    rw [List.countP_append, List.countP_singleton]
    omega

/-- The sum of what is left is two steps for each task and for each worker at most. -/
theorem ThreadPool.left_le (s : ThreadPool) :
    s.left ≤ 2 * (s.tasks.length + s.workers.length) := by
  have hsum : (s.workers.map Worker.left).sum ≤ (s.workers.map Worker.left).length • 2 := by
    refine List.sum_le_card_nsmul _ _ fun k hk => ?_
    obtain ⟨worker, -, rfl⟩ := List.mem_map.mp hk
    cases worker <;> simp [Worker.left]
  rw [List.length_map, Nat.nsmul_eq_mul] at hsum
  rw [ThreadPool.left]
  omega

abbrev WorkerRun (s : ThreadPool) : List PoolAction → ThreadPool → Prop :=
  Lts.Run (fun s₀ => s₀ = s) ThreadPool.WorkerStep

theorem ThreadPool.Stopped.workerRun (h : s.Stopped) (hrun : WorkerRun s hist s') :
    s'.Stopped ∧ s'.left + hist.length ≤ s.left ∧ s'.addedTasks = s.addedTasks := by
  have hcount : hist.countP PoolAction.ofWorker = hist.length := by
    induction hrun with
    | start => rfl
    | snoc _ hstep ih =>
        rw [List.countP_append, List.countP_singleton, hstep.ofWorker, if_pos rfl, ih,
          List.length_append, List.length_singleton]
  have hstops := h.run (hrun.mono fun _ _ _ hstep => hstep.1)
  rwa [hcount] at hstops

theorem ThreadPool.Stopped.exits (h : s.Stopped) :
    ∃ more s', WorkerRun s more s' ∧ ∀ worker ∈ s'.workers, worker = .exited := by
  have hbound : ∀ {hist s'}, WorkerRun s hist s' → hist.length ≤ s.left := by
    intro hist s' hrun
    have := (h.workerRun hrun).2.1
    omega
  have hprogress : ∀ {hist s'}, WorkerRun s hist s' →
      (∀ worker ∈ s'.workers, worker = .exited) ∨ ∃ act s'', s'.WorkerStep act s'' := by
    intro hist s' hrun
    rw [or_iff_not_imp_left]
    intro hnot
    simp only [not_forall] at hnot
    obtain ⟨worker, hmem, hne⟩ := hnot
    obtain ⟨w, hw⟩ := List.mem_iff_getElem?.mp hmem
    exact (h.workerRun hrun).1.exists_workerStep hw hne
  exact Lts.Run.complete hbound hprogress (.start rfl)

/-- After the shutdown of a thread pool its workers make at most two steps for each task in the
queue and each worker, whatever else is done with the pool. They can go on, without spurious
wake-ups, until all of them have exited, so that they can be joined. Then the queue is empty and
each task that has been added to it has been run once. If there was memory for each submission,
these are the tasks that were accepted. -/
theorem pool_shutdown_drains (hrun : Lts.Run ThreadPool.Init ThreadPool.Step hist s)
    (hstate : s.state = .stopping) :
    (∀ more s', Lts.Run (fun s₀ => s₀ = s) ThreadPool.Step more s' →
      more.countP PoolAction.ofWorker ≤ 2 * (s.tasks.length + s.workers.length)) ∧
    (∃ more s', WorkerRun s more s' ∧ (∀ worker ∈ s'.workers, worker = .exited) ∧
      s'.tasks = [] ∧ (finishedTasks s'.log).Perm s.addedTasks) ∧
    ((∀ act ∈ hist, act.allocated = true) → s.addedTasks = submittedTasks s.log) := by
  have hstopped := stopped_of_run hrun hstate
  refine ⟨fun more s' hmore => ?_, ?_, fun halloc => (PoolInv.of_run hrun halloc).queue.symm⟩
  · have hleft := (hstopped.run hmore).2.1
    have := s.left_le
    omega
  · obtain ⟨more, s', hmore, hexited⟩ := hstopped.exits
    have hinv : PoolKept s' := hmore.invariant (I := fun _ s' => PoolKept s')
      (fun s₀ hs₀ => hs₀ ▸ PoolKept.of_run hrun) fun _ _ _ _ h hstep => h.step hstep.1
    obtain ⟨worker, hworker⟩ := List.exists_mem_of_ne_nil _ hinv.workers
    have hempty := (hinv.exited (hexited worker hworker ▸ hworker)).2
    have hidle : workingTasks s'.workers = [] := by
      rw [workingTasks, List.filterMap_eq_nil_iff]
      intro worker hworker
      rw [hexited worker hworker]
      rfl
    have hworking := hinv.working
    have hadded := (hstopped.workerRun hmore).2.2
    rw [ThreadPool.addedTasks, hempty, List.append_nil] at hadded
    rw [hidle, List.append_nil, hadded] at hworking
    exact ⟨more, s', hmore, hexited, hempty, hworking⟩

/-- A pool of two workers is shut down while one of them runs a task and another task is in the
queue. A third one has been lost. -/
theorem pool_shutdown_drains_two_workers : ∃ s,
    Lts.Run ThreadPool.Init ThreadPool.Step [.enter 0, .submit true (some 0), .submit true none,
      .submit false none, .enter 1, .shutdown] s ∧ s.state = .stopping ∧ s.tasks = [1] ∧
    s.addedTasks = [0, 1] ∧
    (∀ more s', Lts.Run (fun s₀ => s₀ = s) ThreadPool.Step more s' →
      more.countP PoolAction.ofWorker ≤ 2 * (s.tasks.length + s.workers.length)) ∧
    ∃ more s', WorkerRun s more s' ∧ (∀ worker ∈ s'.workers, worker = .exited) ∧
      s'.tasks = [] ∧ (finishedTasks s'.log).Perm s.addedTasks := by
  have hinit : (executorThreadPoolNew 2).Init := ⟨2, by simp, rfl⟩
  obtain ⟨s, hrun, hstate, htasks, hadded⟩ := Lts.exists_run ThreadPool.step [.enter 0,
      .submit true (some 0), .submit true none, .submit false none, .enter 1, .shutdown]
    (fun s => s.state = .stopping ∧ s.tasks = [1] ∧ s.addedTasks = [0, 1]) hinit
    (by decide +kernel)
  obtain ⟨hbound, hdrains, -⟩ := pool_shutdown_drains hrun hstate
  exact ⟨s, hrun, hstate, htasks, hadded, hbound, hdrains⟩

end Runs

end PosixThreads
