import Mathlib.Data.List.Perm.Basic
import Mathlib.Data.List.Nodup
import PosixThreads.Common.Error
import PosixThreads.Library.Lts

/-!
# The thread pool

The queue and the state of a thread pool are protected by its mutex, so what a thread does
between locking and unlocking it is one step. A worker that is not in such a step waits for
the mutex, waits to be signalled, runs a task or has exited. Tasks are numbered in the order
in which they were submitted.
-/

namespace PosixThreads

inductive ExecutorSubmission
  | submitted
  | dropped
  deriving DecidableEq, Repr

inductive ThreadPoolState
  | starting
  | running
  | stopping
  deriving DecidableEq, Repr

/-- Where `worker_thread` is: in front of its first lock, in the `pthread_cond_wait` after it,
in front of the mutex, in the other `pthread_cond_wait`, in a task or at its end. A worker
that waits may have been signalled. -/
inductive Worker
  | starting
  | startWaiting (signalled : Bool)
  | locking
  | waiting (signalled : Bool)
  | working (task : ℕ)
  | exited
  deriving DecidableEq, Repr

inductive PoolEvent
  | submit (task : ℕ) (result : ExecutorSubmission)
  | started (task : ℕ)
  | finished (task : ℕ)
  deriving DecidableEq, Repr

/-- `executor_thread_pool_t`, with what has happened to the tasks. `failing` is the number of
threads that are about to stop the pool after a submission has failed. -/
structure ThreadPool where
  state : ThreadPoolState
  tasks : List ℕ
  onError : Bool
  workers : List Worker
  failing : ℕ
  next : ℕ
  log : List PoolEvent
  deriving DecidableEq, Repr

/-- What is left by an `executor_thread_pool_new` that has created all of its threads. They
wait for the mutex meanwhile. -/
def executorThreadPoolNew (size : ℕ) : ThreadPool where
  state := .running
  tasks := []
  onError := false
  workers := List.replicate size .starting
  failing := 0
  next := 0
  log := []

/-- The worker is in `pthread_cond_wait` and has not been signalled. -/
def Worker.waits : Worker → Bool
  | .startWaiting signalled => !signalled
  | .waiting signalled => !signalled
  | _ => false

def Worker.signal : Worker → Worker
  | .startWaiting _ => .startWaiting true
  | .waiting _ => .waiting true
  | worker => worker

/-- `pthread_cond_signal`, which picks one of the workers that wait. -/
def ThreadPool.condSignal (s : ThreadPool) (woken : Option ℕ) : Option ThreadPool :=
  match woken with
  | none => if s.workers.any Worker.waits then none else some s
  | some w =>
      match s.workers[w]? with
      | some worker =>
          if worker.waits then some { s with workers := s.workers.set w worker.signal } else none
      | none => none

def ThreadPool.condBroadcast (s : ThreadPool) : ThreadPool :=
  { s with workers := s.workers.map Worker.signal }

def ThreadPool.shutdown (s : ThreadPool) : ThreadPool :=
  { s with state := .stopping }.condBroadcast

/-- `executor_thread_pool_submit`, up to `on_error`. A task that could not be added to the
queue is reported as submitted. -/
def ThreadPool.submit (s : ThreadPool) (alloc : Bool) (woken : Option ℕ) : Option ThreadPool :=
  let task := s.next
  let s := { s with next := s.next + 1 }
  if s.state ≠ .running then some { s with log := s.log ++ [.submit task .dropped] }
  else if alloc then
    let s := { s with
      tasks := s.tasks ++ [task]
      log := s.log ++ [.submit task .submitted] }
    if s.tasks.length = 1 then s.condSignal woken else some s
  else
    some { s with
      failing := if s.onError then s.failing + 1 else s.failing
      log := s.log ++ [.submit task .submitted] }

/-- The body of the outer loop of `worker_thread` up to where it gives the mutex back. -/
def ThreadPool.takeTask (s : ThreadPool) (w : ℕ) : ThreadPool :=
  match s.tasks with
  | [] =>
      if s.state = .running then { s with workers := s.workers.set w (.waiting false) }
      else { s with workers := s.workers.set w .exited }
  | task :: rest =>
      { s with
        tasks := rest
        workers := s.workers.set w (.working task)
        log := s.log ++ [.started task] }

/-- A worker gets the mutex. It may have been woken up without a signal. -/
def ThreadPool.enter (s : ThreadPool) (w : ℕ) : Option ThreadPool :=
  match s.workers[w]? with
  | some .starting =>
      if s.state = .starting then some { s with workers := s.workers.set w (.startWaiting false) }
      else some (s.takeTask w)
  | some (.startWaiting _) =>
      if s.state = .starting then some { s with workers := s.workers.set w (.startWaiting false) }
      else some (s.takeTask w)
  | some .locking => some (s.takeTask w)
  | some (.waiting _) => some (s.takeTask w)
  | _ => none

/-- The end of a task, which returns `err`. The process is aborted if there is an error and
`on_error` does not take care of it. -/
def ThreadPool.finish (s : ThreadPool) (w : ℕ) (err onErrorResult : Option Error) :
    Option ThreadPool :=
  match s.workers[w]? with
  | some (.working task) =>
      let err :=
        if err.isSome && s.onError then
          errorWrap "The executor's on_error callback has returned an error" onErrorResult
        else err
      match err with
      | none =>
          some { s with
            workers := s.workers.set w .locking
            log := s.log ++ [.finished task] }
      | some _ => none
  | _ => none

inductive PoolAction
  | submit (alloc : Bool) (woken : Option ℕ)
  | stopFailed
  | shutdown
  | setOnError (onError : Bool)
  | enter (worker : ℕ)
  | finish (worker : ℕ) (err onErrorResult : Option Error)

def ThreadPool.step (s : ThreadPool) : PoolAction → Option ThreadPool
  | .submit alloc woken => s.submit alloc woken
  | .stopFailed => if 0 < s.failing then some { s with failing := s.failing - 1 }.shutdown else none
  | .shutdown => some s.shutdown
  | .setOnError onError => some { s with onError := onError }
  | .enter w => s.enter w
  | .finish w err onErrorResult => s.finish w err onErrorResult

/-- A new pool, which has at least one worker. -/
def ThreadPool.Init (s : ThreadPool) : Prop := ∃ size, 0 < size ∧ s = executorThreadPoolNew size

def ThreadPool.Step (s : ThreadPool) (act : PoolAction) (s' : ThreadPool) : Prop :=
  s.step act = some s'

def PoolAction.allocated : PoolAction → Bool
  | .submit alloc _ => alloc
  | _ => true

/-! ## What happens to a task -/

def PoolEvent.submitted? : PoolEvent → Option ℕ
  | .submit task .submitted => some task
  | _ => none

def PoolEvent.dropped? : PoolEvent → Option ℕ
  | .submit task .dropped => some task
  | _ => none

def PoolEvent.started? : PoolEvent → Option ℕ
  | .started task => some task
  | _ => none

def PoolEvent.finished? : PoolEvent → Option ℕ
  | .finished task => some task
  | _ => none

def submittedTasks (log : List PoolEvent) : List ℕ := log.filterMap PoolEvent.submitted?

def droppedTasks (log : List PoolEvent) : List ℕ := log.filterMap PoolEvent.dropped?

def startedTasks (log : List PoolEvent) : List ℕ := log.filterMap PoolEvent.started?

def finishedTasks (log : List PoolEvent) : List ℕ := log.filterMap PoolEvent.finished?

def Worker.task? : Worker → Option ℕ
  | .working task => some task
  | _ => none

def PoolEvent.submission? : PoolEvent → Option ℕ
  | .submit task _ => some task
  | _ => none

def submissions (log : List PoolEvent) : List ℕ := log.filterMap PoolEvent.submission?

theorem filterMap_snoc (f : PoolEvent → Option ℕ) (log : List PoolEvent) (event : PoolEvent) :
    (log ++ [event]).filterMap f = log.filterMap f ++ (f event).toList := by
  cases h : f event <;> simp [h]

@[simp] theorem submittedTasks_snoc (log : List PoolEvent) (event : PoolEvent) :
    submittedTasks (log ++ [event]) = submittedTasks log ++ event.submitted?.toList :=
  filterMap_snoc ..

@[simp] theorem droppedTasks_snoc (log : List PoolEvent) (event : PoolEvent) :
    droppedTasks (log ++ [event]) = droppedTasks log ++ event.dropped?.toList :=
  filterMap_snoc ..

@[simp] theorem startedTasks_snoc (log : List PoolEvent) (event : PoolEvent) :
    startedTasks (log ++ [event]) = startedTasks log ++ event.started?.toList :=
  filterMap_snoc ..

@[simp] theorem finishedTasks_snoc (log : List PoolEvent) (event : PoolEvent) :
    finishedTasks (log ++ [event]) = finishedTasks log ++ event.finished?.toList :=
  filterMap_snoc ..

@[simp] theorem submissions_snoc (log : List PoolEvent) (event : PoolEvent) :
    submissions (log ++ [event]) = submissions log ++ event.submission?.toList :=
  filterMap_snoc ..

def workingTasks (workers : List Worker) : List ℕ := workers.filterMap Worker.task?

section Workers

variable {s s' : ThreadPool} {workers : List Worker} {w : ℕ} {old new : Worker}

theorem workingTasks_set (h : workers[w]? = some old) (new : Worker) :
    ∃ others, (workingTasks workers).Perm (old.task?.toList ++ others) ∧
      (workingTasks (workers.set w new)).Perm (new.task?.toList ++ others) := by
  obtain ⟨hw, hold⟩ := List.getElem?_eq_some_iff.mp h
  have hperm := List.getElem_cons_eraseIdx_perm hw
  rw [hold] at hperm
  have hcons : ∀ worker : Worker, workingTasks (worker :: workers.eraseIdx w) =
      worker.task?.toList ++ workingTasks (workers.eraseIdx w) := by
    intro worker
    cases htask : worker.task? <;> simp [workingTasks, htask]
  refine ⟨workingTasks (workers.eraseIdx w), ?_, ?_⟩
  · rw [← hcons]
    exact (hperm.filterMap _).symm
  · rw [← hcons]
    exact (List.set_perm_cons_eraseIdx hw new).filterMap _

theorem workingTasks_set_perm (h : workers[w]? = some old) (hold : old.task? = none)
    (hnew : new.task? = none) : (workingTasks (workers.set w new)).Perm (workingTasks workers) := by
  obtain ⟨others, hbefore, hafter⟩ := workingTasks_set h new
  rw [hold] at hbefore
  rw [hnew] at hafter
  exact hafter.trans hbefore.symm

theorem Worker.task?_signal (worker : Worker) : worker.signal.task? = worker.task? := by
  cases worker <;> rfl

theorem Worker.signal_eq_exited {worker : Worker} (h : worker.signal = .exited) :
    worker = .exited := by
  cases worker <;> simp_all [Worker.signal]

theorem workingTasks_signal (workers : List Worker) :
    workingTasks (workers.map Worker.signal) = workingTasks workers := by
  rw [workingTasks, List.filterMap_map, workingTasks]
  exact List.filterMap_congr fun worker _ => worker.task?_signal

/-- What is true of a pool, whether there is memory or not. A worker exits only when there is
nothing to do and nothing will be accepted any more. -/
structure PoolKept (s : ThreadPool) : Prop where
  state : s.state ≠ .starting
  workers : s.workers ≠ []
  numbers : submissions s.log = List.range s.next
  working : (finishedTasks s.log ++ workingTasks s.workers).Perm (startedTasks s.log)
  exited : .exited ∈ s.workers → s.state = .stopping ∧ s.tasks = []

/-- With memory, each task that has been accepted has been started or is in the queue. -/
structure PoolInv (s : ThreadPool) : Prop extends PoolKept s where
  queue : submittedTasks s.log = startedTasks s.log ++ s.tasks

def ThreadPool.addedTasks (s : ThreadPool) : List ℕ := startedTasks s.log ++ s.tasks

theorem PoolInv.of_init (h : s.Init) : PoolInv s := by
  obtain ⟨size, hsize, rfl⟩ := h
  refine ⟨⟨by simp [executorThreadPoolNew], ?_, rfl, ?_, ?_⟩, rfl⟩
  · simpa [executorThreadPoolNew] using Nat.ne_of_gt hsize
  · simp [executorThreadPoolNew, workingTasks, finishedTasks, startedTasks,
      List.filterMap_replicate, Worker.task?]
  · simp [executorThreadPoolNew, List.mem_replicate]

/-- Only the workers have changed, and none of them has got or finished a task. -/
theorem PoolKept.of_workers (hinv : PoolKept s) (hne : workers ≠ [])
    (hworking : (workingTasks workers).Perm (workingTasks s.workers))
    (hexited : .exited ∈ workers → .exited ∈ s.workers) : PoolKept { s with workers := workers } :=
  ⟨hinv.state, hne, hinv.numbers, (hworking.append_left _).trans hinv.working,
    fun h => hinv.exited (hexited h)⟩

theorem PoolKept.setWorker (hinv : PoolKept s) (h : s.workers[w]? = some old)
    (hold : old.task? = none) (hnew : new.task? = none) (hne : new ≠ .exited) :
    PoolKept { s with workers := s.workers.set w new } := by
  refine hinv.of_workers ?_ (workingTasks_set_perm h hold hnew) fun hexited => ?_
  · simpa using hinv.workers
  · exact (List.mem_or_eq_of_mem_set hexited).resolve_right hne.symm

/-- A worker that is signalled neither gets nor finishes a task, and it does not exit. -/
theorem ThreadPool.condSignal_spec {woken : Option ℕ} (h : s.condSignal woken = some s') :
    ∃ workers, s' = { s with workers := workers } ∧ workers.length = s.workers.length ∧
      (workingTasks workers).Perm (workingTasks s.workers) ∧
      (.exited ∈ workers → .exited ∈ s.workers) := by
  cases woken with
  | none =>
      simp only [ThreadPool.condSignal] at h
      split at h
      · simp at h
      · exact ⟨s.workers, (Option.some.inj h).symm, rfl, .refl _, id⟩
  | some w =>
      simp only [ThreadPool.condSignal] at h
      split at h
      · rename_i worker hw
        split at h
        · rename_i hwaits
          have hnone : worker.task? = none := by
            cases worker <;> simp_all [Worker.waits, Worker.task?]
          refine ⟨_, (Option.some.inj h).symm, by simp,
            workingTasks_set_perm hw hnone (worker.task?_signal.trans hnone), fun hexited => ?_⟩
          refine (List.mem_or_eq_of_mem_set hexited).resolve_right fun hexited => ?_
          rw [Worker.signal_eq_exited hexited.symm] at hwaits
          simp [Worker.waits] at hwaits
        · simp at h
      · simp at h

theorem PoolKept.condSignal {woken : Option ℕ} (hinv : PoolKept s)
    (h : s.condSignal woken = some s') : PoolKept s' := by
  obtain ⟨workers, rfl, hlength, hworking, hexited⟩ := ThreadPool.condSignal_spec h
  refine hinv.of_workers ?_ hworking hexited
  rw [← List.length_pos_iff, hlength]
  exact List.length_pos_iff.mpr hinv.workers

theorem PoolKept.shutdown (hinv : PoolKept s) : PoolKept s.shutdown := by
  refine ⟨by simp [ThreadPool.shutdown, ThreadPool.condBroadcast], ?_, hinv.numbers, ?_, ?_⟩
  · simpa [ThreadPool.shutdown, ThreadPool.condBroadcast] using hinv.workers
  · simp only [ThreadPool.shutdown, ThreadPool.condBroadcast, workingTasks_signal]
    exact hinv.working
  · intro h
    obtain ⟨worker, hworker, heq⟩ := List.mem_map.mp h
    rw [Worker.signal_eq_exited heq] at hworker
    exact ⟨rfl, (hinv.exited hworker).2⟩

theorem PoolKept.submission (hinv : PoolKept s) (result : ExecutorSubmission) {tasks : List ℕ}
    {failing : ℕ} (htasks : .exited ∈ s.workers → tasks = []) : PoolKept { s with
      next := s.next + 1
      tasks := tasks
      failing := failing
      log := s.log ++ [.submit s.next result] } := by
  refine ⟨hinv.state, hinv.workers, ?_, ?_, fun hexited =>
    ⟨(hinv.exited hexited).1, htasks hexited⟩⟩
  · rw [List.range_succ, ← hinv.numbers, submissions_snoc]
    rfl
  · simpa [PoolEvent.finished?, PoolEvent.started?] using hinv.working

theorem PoolKept.submit {alloc : Bool} {woken : Option ℕ} (hinv : PoolKept s)
    (h : s.submit alloc woken = some s') : PoolKept s' := by
  have hkept := fun hexited => (hinv.exited hexited).2
  simp only [ThreadPool.submit] at h
  split at h
  · rw [← Option.some.inj h]
    exact hinv.submission .dropped hkept
  · rename_i hrunning
    -- nobody has exited from a pool that is running
    have hnobody : .exited ∉ s.workers := fun hexited =>
      hrunning (by simp [(hinv.exited hexited).1])
    split at h
    · have hinv' : PoolKept { s with
          next := s.next + 1
          tasks := s.tasks ++ [s.next]
          log := s.log ++ [.submit s.next .submitted] } :=
        hinv.submission .submitted fun hexited => absurd hexited hnobody
      split at h
      · exact hinv'.condSignal h
      · rw [← Option.some.inj h]
        exact hinv'
    · rw [← Option.some.inj h]
      exact hinv.submission .submitted hkept

theorem PoolKept.takeTask (hinv : PoolKept s) (h : s.workers[w]? = some old)
    (hold : old.task? = none) : PoolKept (s.takeTask w) := by
  rw [ThreadPool.takeTask]
  split
  · rename_i hempty
    split
    · exact hinv.setWorker h hold rfl (by simp)
    · rename_i hstate
      have hstopping : s.state = .stopping := by
        cases hs : s.state with
        | starting => exact absurd hs hinv.state
        | running => exact absurd hs hstate
        | stopping => rfl
      refine ⟨hinv.state, by simpa using hinv.workers, hinv.numbers, ?_,
        fun _ => ⟨hstopping, hempty⟩⟩
      exact ((workingTasks_set_perm h hold rfl).append_left _).trans hinv.working
  · rename_i task rest htasks
    obtain ⟨others, hbefore, hafter⟩ := workingTasks_set h (.working task)
    rw [hold] at hbefore
    refine ⟨hinv.state, by simpa using hinv.workers, ?_, ?_, ?_⟩
    · simpa [PoolEvent.submission?] using hinv.numbers
    · have hothers : (finishedTasks s.log ++ others).Perm (startedTasks s.log) :=
        (hbefore.append_left _).symm.trans hinv.working
      have hworking : (finishedTasks s.log ++ workingTasks (s.workers.set w (.working task))).Perm
          (startedTasks s.log ++ [task]) :=
        calc (finishedTasks s.log ++ workingTasks (s.workers.set w (.working task))).Perm
              (finishedTasks s.log ++ (task :: others)) := hafter.append_left _
          List.Perm _ (task :: (finishedTasks s.log ++ others)) := List.perm_middle
          List.Perm _ (task :: startedTasks s.log) := hothers.cons task
          List.Perm _ (startedTasks s.log ++ [task]) := (List.perm_append_singleton _ _).symm
      simpa [PoolEvent.finished?, PoolEvent.started?] using hworking
    · intro hexited
      rcases List.mem_or_eq_of_mem_set hexited with hexited | hexited
      · have hempty := (hinv.exited hexited).2
        rw [htasks] at hempty
        simp at hempty
      · simp at hexited

theorem ThreadPool.takeTask_added (s : ThreadPool) (w : ℕ) :
    (s.takeTask w).addedTasks = s.addedTasks ∧
      submittedTasks (s.takeTask w).log = submittedTasks s.log := by
  rw [ThreadPool.takeTask]
  split
  · split <;> exact ⟨rfl, rfl⟩
  · rename_i task rest htasks
    simp [ThreadPool.addedTasks, htasks, PoolEvent.started?, PoolEvent.submitted?]

theorem ThreadPool.enter_spec (hstate : s.state ≠ .starting) (h : s.enter w = some s') :
    ∃ old, s.workers[w]? = some old ∧ old.task? = none ∧ s' = s.takeTask w := by
  simp only [ThreadPool.enter, if_neg hstate] at h
  split at h
  · rename_i hw
    exact ⟨_, hw, rfl, (Option.some.inj h).symm⟩
  · rename_i signalled hw
    exact ⟨_, hw, rfl, (Option.some.inj h).symm⟩
  · rename_i hw
    exact ⟨_, hw, rfl, (Option.some.inj h).symm⟩
  · rename_i signalled hw
    exact ⟨_, hw, rfl, (Option.some.inj h).symm⟩
  · simp at h

theorem PoolKept.enter (hinv : PoolKept s) (h : s.enter w = some s') : PoolKept s' := by
  obtain ⟨old, hw, hold, rfl⟩ := ThreadPool.enter_spec hinv.state h
  exact hinv.takeTask hw hold

theorem ThreadPool.finish_spec {err onErrorResult : Option Error}
    (h : s.finish w err onErrorResult = some s') : ∃ task, s.workers[w]? = some (.working task) ∧
      s' = { s with
        workers := s.workers.set w .locking
        log := s.log ++ [.finished task] } := by
  simp only [ThreadPool.finish] at h
  split at h
  · split at h
    · exact ⟨_, ‹_›, (Option.some.inj h).symm⟩
    · cases h
  · cases h

theorem PoolKept.finish {err onErrorResult : Option Error} (hinv : PoolKept s)
    (h : s.finish w err onErrorResult = some s') : PoolKept s' := by
  obtain ⟨task, hw, rfl⟩ := ThreadPool.finish_spec h
  obtain ⟨others, hbefore, hafter⟩ := workingTasks_set hw .locking
  refine ⟨hinv.state, by simpa using hinv.workers, ?_, ?_, ?_⟩
  · simpa [PoolEvent.submission?] using hinv.numbers
  · have hworking :
        (finishedTasks s.log ++ (task :: workingTasks (s.workers.set w .locking))).Perm
          (startedTasks s.log) :=
      (((hafter.cons task).trans hbefore.symm).append_left _).trans hinv.working
    simpa [PoolEvent.finished?, PoolEvent.started?] using hworking
  · intro hexited
    refine hinv.exited ((List.mem_or_eq_of_mem_set hexited).resolve_right ?_)
    simp

end Workers

section Runs

variable {s s' : ThreadPool} {act : PoolAction} {hist : List PoolAction}

theorem PoolKept.step (hinv : PoolKept s) (h : s.Step act s') : PoolKept s' := by
  cases act with
  | submit alloc woken => exact hinv.submit h
  | stopFailed =>
      simp only [ThreadPool.Step, ThreadPool.step] at h
      split at h
      · have hinv' : PoolKept { s with failing := s.failing - 1 } :=
          ⟨hinv.state, hinv.workers, hinv.numbers, hinv.working, hinv.exited⟩
        rw [← Option.some.inj h]
        exact hinv'.shutdown
      · simp at h
  | shutdown =>
      simp only [ThreadPool.Step, ThreadPool.step, Option.some.injEq] at h
      rw [← h]
      exact hinv.shutdown
  | setOnError onError =>
      simp only [ThreadPool.Step, ThreadPool.step, Option.some.injEq] at h
      rw [← h]
      exact ⟨hinv.state, hinv.workers, hinv.numbers, hinv.working, hinv.exited⟩
  | enter w => exact hinv.enter h
  | finish w err onErrorResult => exact hinv.finish h

theorem ThreadPool.Step.added (h : s.Step act s') (hstate : s.state ≠ .starting)
    (halloc : act.allocated = true) (hqueue : submittedTasks s.log = s.addedTasks) :
    submittedTasks s'.log = s'.addedTasks := by
  cases act with
  | submit alloc woken =>
      obtain rfl : alloc = true := halloc
      simp only [ThreadPool.Step, ThreadPool.step, ThreadPool.submit, if_true] at h
      split at h
      · rw [← Option.some.inj h]
        simpa [ThreadPool.addedTasks, PoolEvent.submitted?, PoolEvent.started?] using hqueue
      · have hadded : submittedTasks (s.log ++ [.submit s.next .submitted]) =
            startedTasks (s.log ++ [.submit s.next .submitted]) ++ (s.tasks ++ [s.next]) := by
          rw [submittedTasks_snoc, hqueue, ThreadPool.addedTasks, startedTasks_snoc]
          simp [PoolEvent.submitted?, PoolEvent.started?]
        split at h
        · obtain ⟨workers, rfl, -⟩ := ThreadPool.condSignal_spec h
          exact hadded
        · rw [← Option.some.inj h]
          exact hadded
  | stopFailed =>
      simp only [ThreadPool.Step, ThreadPool.step] at h
      split at h
      · rw [← Option.some.inj h]
        exact hqueue
      · cases h
  | shutdown | setOnError =>
      rw [← Option.some.inj h]
      exact hqueue
  | enter w =>
      obtain ⟨old, -, -, rfl⟩ := ThreadPool.enter_spec hstate h
      rw [(s.takeTask_added w).1, (s.takeTask_added w).2, hqueue]
  | finish w err onErrorResult =>
      obtain ⟨task, -, rfl⟩ := ThreadPool.finish_spec h
      simpa [ThreadPool.addedTasks, PoolEvent.submitted?, PoolEvent.started?] using hqueue

theorem PoolInv.step (hinv : PoolInv s) (halloc : act.allocated = true) (h : s.Step act s') :
    PoolInv s' :=
  ⟨hinv.toPoolKept.step h, h.added hinv.state halloc hinv.queue⟩

theorem PoolKept.of_run (hrun : Lts.Run ThreadPool.Init ThreadPool.Step hist s) : PoolKept s :=
  Lts.Run.invariant (I := fun _ s => PoolKept s) hrun (fun _ hinit => (PoolInv.of_init hinit).1)
    fun _ _ _ _ hinv hstep => hinv.step hstep

theorem PoolInv.of_run (hrun : Lts.Run ThreadPool.Init ThreadPool.Step hist s)
    (halloc : ∀ act ∈ hist, act.allocated = true) : PoolInv s := by
  refine Lts.Run.invariant
    (I := fun hist s => (∀ act ∈ hist, act.allocated = true) → PoolInv s) hrun ?_ ?_ halloc
  · exact fun s hinit _ => .of_init hinit
  · intro hist s act s' hinv hstep halloc
    refine (hinv fun act hact => halloc act ?_).step (halloc act ?_) hstep
    · exact List.mem_append_left _ hact
    · simp

/-- Tasks are taken from the queue in the order of their submission, each at most once, and a
task that was dropped never. When all the workers have exited, every task that was accepted
has been started and finished exactly once. -/
structure PoolSound (s : ThreadPool) : Prop where
  fifo : startedTasks s.log ++ s.tasks = submittedTasks s.log
  once : ∀ task, (startedTasks s.log).count task ≤ 1
  dropped : ∀ task ∈ droppedTasks s.log, task ∉ startedTasks s.log
  exited : (∀ worker ∈ s.workers, worker = .exited) → s.tasks = [] ∧
    ∀ task ∈ submittedTasks s.log,
      (startedTasks s.log).count task = 1 ∧ (finishedTasks s.log).count task = 1

theorem submissions_perm (log : List PoolEvent) :
    (submittedTasks log ++ droppedTasks log).Perm (submissions log) := by
  induction log with
  | nil => exact .refl _
  | cons event log ih =>
      cases event with
      | submit task result =>
          cases result with
          | submitted => exact ih.cons task
          | dropped => exact List.perm_middle.trans (ih.cons task)
      | started task => exact ih
      | finished task => exact ih

theorem PoolInv.nodup (hinv : PoolInv s) : (submittedTasks s.log ++ droppedTasks s.log).Nodup := by
  rw [(submissions_perm s.log).nodup_iff, hinv.numbers]
  exact List.nodup_range

/-- A thread pool runs each accepted task once, if there is memory for the tasks. -/
theorem poolSound_of_run (hrun : Lts.Run ThreadPool.Init ThreadPool.Step hist s)
    (halloc : ∀ act ∈ hist, act.allocated = true) : PoolSound s := by
  have hinv := PoolInv.of_run hrun halloc
  have hsubmitted : (submittedTasks s.log).Nodup := hinv.nodup.of_append_left
  have hstarted : (startedTasks s.log).Nodup := by
    rw [hinv.queue] at hsubmitted
    exact hsubmitted.of_append_left
  refine ⟨hinv.queue.symm, List.nodup_iff_count_le_one.mp hstarted, ?_, ?_⟩
  · intro task hdropped htask
    have hmem : task ∈ submittedTasks s.log := by
      rw [hinv.queue]
      exact List.mem_append_left _ htask
    exact (List.nodup_append.mp hinv.nodup).2.2 task hmem task hdropped rfl
  · intro hall
    obtain ⟨worker, hworker⟩ := List.exists_mem_of_ne_nil _ hinv.workers
    have hempty := (hinv.exited (hall worker hworker ▸ hworker)).2
    refine ⟨hempty, fun task htask => ?_⟩
    rw [hinv.queue, hempty, List.append_nil] at htask
    have hcount := List.count_eq_one_of_mem hstarted htask
    -- no worker is running a task any more
    have hidle : workingTasks s.workers = [] := by
      rw [workingTasks, List.filterMap_eq_nil_iff]
      intro worker hworker
      rw [hall worker hworker]
      rfl
    have hworking := hinv.working
    rw [hidle, List.append_nil] at hworking
    exact ⟨hcount, (hworking.count_eq task).trans hcount⟩

/-- Two workers, one of which waits and is woken up by the first submission. After the
shutdown a task is dropped, and the workers run what is left before they exit. -/
theorem poolSound_two_workers : ∃ s,
    Lts.Run ThreadPool.Init ThreadPool.Step [.enter 0, .submit true (some 0), .submit true none,
      .enter 1, .shutdown, .submit true none, .enter 0, .finish 1 none none, .finish 0 none none,
      .enter 0, .enter 1] s ∧
    (∀ worker ∈ s.workers, worker = .exited) ∧ startedTasks s.log = [0, 1] ∧
      droppedTasks s.log = [2] ∧ PoolSound s := by
  have hinit : (executorThreadPoolNew 2).Init := ⟨2, by simp, rfl⟩
  obtain ⟨s, hrun, hexited, hstarted, hdropped⟩ := Lts.exists_run ThreadPool.step [.enter 0,
      .submit true (some 0), .submit true none, .enter 1, .shutdown, .submit true none, .enter 0,
      .finish 1 none none, .finish 0 none none, .enter 0, .enter 1]
    (fun s => (∀ worker ∈ s.workers, worker = .exited) ∧ startedTasks s.log = [0, 1] ∧
      droppedTasks s.log = [2]) hinit (by decide +kernel)
  refine ⟨s, hrun, hexited, hstarted, hdropped, poolSound_of_run hrun ?_⟩
  simp [PoolAction.allocated]

end Runs

end PosixThreads
