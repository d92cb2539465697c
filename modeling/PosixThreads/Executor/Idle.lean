import PosixThreads.Executor.ThreadPool
import PosixThreads.Library.Heap

/-!
# Workers that wait although there are tasks

`executor_thread_pool_submit` signals a worker only if the queue was empty before. A second
submission that comes before the signalled worker has taken its task wakes up nobody. When
the worker then runs the first task, the second one stays in the queue, and the other workers
go on waiting.

A worker is awake if it is on its way to the queue. As long as no submission makes the queue
longer than the number of these workers while another one waits, somebody is going to take
every task.
-/

namespace PosixThreads

/-- The worker is about to look at the queue: it has been signalled or waits for the mutex. -/
def Worker.awake : Worker → Bool
  | .starting => true
  | .startWaiting signalled => signalled
  | .locking => true
  | .waiting signalled => signalled
  | .working _ => false
  | .exited => false

/-- There is a task that nobody will take soon: a worker waits without having been signalled,
and all those that do not wait like this are running tasks. -/
structure IdleWorker (s : ThreadPool) : Prop where
  running : s.state = .running
  tasks : s.tasks ≠ []
  waits : ∃ worker ∈ s.workers, worker.waits = true
  others : ∀ worker ∈ s.workers, worker.waits = true ∨ ∃ task, worker = .working task

/-- A submission is timely if nobody waits, or if the queue is empty, or if there are more
workers on their way to the queue than tasks in it. -/
def PoolAction.Timely (s : ThreadPool) : PoolAction → Prop
  | .submit _ _ => (∃ worker ∈ s.workers, worker.waits = true) →
      s.tasks = [] ∨ s.tasks.length < s.workers.countP Worker.awake
  | _ => True

instance (s : ThreadPool) : (act : PoolAction) → Decidable (act.Timely s)
  | .submit _ _ => inferInstanceAs (Decidable (_ → _))
  | .stopFailed => .isTrue trivial
  | .shutdown => .isTrue trivial
  | .setOnError _ => .isTrue trivial
  | .enter _ => .isTrue trivial
  | .finish _ _ _ => .isTrue trivial

def Attended (s : ThreadPool) : Prop :=
  s.state = .running → (∃ worker ∈ s.workers, worker.waits = true) →
    s.tasks.length ≤ s.workers.countP Worker.awake

section Workers

variable {s s' : ThreadPool} {w : ℕ} {old new : Worker} {act : PoolAction}
  {hist : List PoolAction}

theorem Worker.awake_eq_false_of_waits {worker : Worker} (h : worker.waits = true) :
    worker.awake = false := by
  cases worker <;> simp_all [Worker.waits, Worker.awake]

theorem Worker.awake_signal {worker : Worker} (h : worker.waits = true) :
    worker.signal.awake = true := by
  cases worker <;> simp_all [Worker.waits, Worker.signal, Worker.awake]

theorem exists_waits_of_set (hnew : new.waits = false)
    (h : ∃ worker ∈ s.workers.set w new, worker.waits = true) :
    ∃ worker ∈ s.workers, worker.waits = true := by
  obtain ⟨worker, hmem, hwaits⟩ := h
  refine ⟨worker, (List.mem_or_eq_of_mem_set hmem).resolve_right ?_, hwaits⟩
  rintro rfl
  simp [hnew] at hwaits

theorem Attended.of_init (h : s.Init) : Attended s := by
  obtain ⟨size, _, rfl⟩ := h
  intro _ _
  exact Nat.zero_le _

/-- A queue that was empty has one task now, for which somebody has been signalled. -/
theorem Attended.condSignal {woken : Option ℕ} (hlength : s.tasks.length = 1)
    (h : s.condSignal woken = some s') : Attended s' := by
  cases woken with
  | none =>
      simp only [ThreadPool.condSignal] at h
      split at h
      · simp at h
      · rename_i hnone
        rw [← Option.some.inj h]
        intro _ hwaits
        obtain ⟨worker, hmem, hwaits⟩ := hwaits
        exact absurd (List.any_eq_true.mpr ⟨worker, hmem, hwaits⟩) hnone
  | some w =>
      simp only [ThreadPool.condSignal] at h
      split at h
      · rename_i worker hw
        split at h
        · rename_i hwaits
          rw [← Option.some.inj h]
          intro _ _
          have hcount := Heap.countP_set_add Worker.awake hw worker.signal
          rw [Worker.awake_signal hwaits, Worker.awake_eq_false_of_waits hwaits] at hcount
          simp only [Bool.false_eq_true, if_false, if_true] at hcount
          change s.tasks.length ≤ (s.workers.set w worker.signal).countP Worker.awake
          omega
        · simp at h
      · simp at h

theorem Attended.submit {alloc : Bool} {woken : Option ℕ} (hinv : Attended s)
    (htimely : (PoolAction.submit alloc woken).Timely s)
    (h : s.submit alloc woken = some s') : Attended s' := by
  simp only [ThreadPool.submit] at h
  split at h
  · rw [← Option.some.inj h]
    exact hinv
  · split at h
    · split at h
      · rename_i hlength
        exact Attended.condSignal hlength h
      · rename_i hlength
        rw [← Option.some.inj h]
        intro _ hwaits
        rcases htimely hwaits with hempty | hlt
        · simp [hempty] at hlength
        · simpa using Nat.succ_le_of_lt hlt
    · rw [← Option.some.inj h]
      exact hinv

/-- A worker looks at the queue. If there is a task, it takes one. -/
theorem Attended.takeTask (hinv : Attended s) (h : s.workers[w]? = some old) :
    Attended (s.takeTask w) := by
  rw [ThreadPool.takeTask]
  split
  · rename_i hempty
    split <;>
    · intro _ _
      simp [hempty]
  · rename_i task rest htasks
    intro hrunning hwaits
    have hlength := hinv hrunning (exists_waits_of_set rfl hwaits)
    have hcount := Heap.countP_set_add Worker.awake h (.working task)
    rw [htasks, List.length_cons] at hlength
    have hone : (if old.awake then 1 else 0) ≤ 1 := by split <;> simp
    change rest.length ≤ (s.workers.set w (.working task)).countP Worker.awake
    rw [show (Worker.working task).awake = false from rfl] at hcount
    simp only [Bool.false_eq_true, if_false] at hcount
    omega

theorem Attended.enter (hinv : Attended s) (hstate : s.state ≠ .starting)
    (h : s.enter w = some s') : Attended s' := by
  obtain ⟨old, hw, _, rfl⟩ := ThreadPool.enter_spec hstate h
  exact hinv.takeTask hw

theorem Attended.finish {err onErrorResult : Option Error} (hinv : Attended s)
    (h : s.finish w err onErrorResult = some s') : Attended s' := by
  simp only [ThreadPool.finish] at h
  split at h
  · rename_i task hw
    split at h
    · rw [← Option.some.inj h]
      intro hrunning hwaits
      have hlength := hinv hrunning (exists_waits_of_set rfl hwaits)
      have hcount := Heap.countP_set_add Worker.awake hw .locking
      simp only [Worker.awake, Bool.false_eq_true, if_false, if_true] at hcount
      change s.tasks.length ≤ (s.workers.set w .locking).countP Worker.awake
      omega
    · simp at h
  · simp at h

theorem Attended.shutdown : Attended s.shutdown := by
  intro hrunning
  simp [ThreadPool.shutdown, ThreadPool.condBroadcast] at hrunning

theorem ThreadPool.condSignal_state {woken : Option ℕ} (h : s.condSignal woken = some s') :
    s'.state = s.state := by
  simp only [ThreadPool.condSignal] at h
  grind

/-- The state of a pool changes only when it is stopped. -/
theorem ThreadPool.step_state (hstate : s.state ≠ .starting) (h : s.Step act s') :
    s'.state = s.state ∨ s'.state = .stopping := by
  cases act with
  | submit alloc woken =>
      refine Or.inl ?_
      simp only [ThreadPool.Step, ThreadPool.step, ThreadPool.submit] at h
      split at h
      · rw [← Option.some.inj h]
      · split at h
        · split at h
          · have hstate := ThreadPool.condSignal_state h
            exact hstate
          · rw [← Option.some.inj h]
        · rw [← Option.some.inj h]
  | stopFailed =>
      simp only [ThreadPool.Step, ThreadPool.step] at h
      split at h
      · rw [← Option.some.inj h]
        exact Or.inr rfl
      · simp at h
  | shutdown =>
      rw [← Option.some.inj h]
      exact Or.inr rfl
  | setOnError onError =>
      rw [← Option.some.inj h]
      exact Or.inl rfl
  | enter w =>
      obtain ⟨old, _, _, rfl⟩ := ThreadPool.enter_spec hstate h
      refine Or.inl ?_
      rw [ThreadPool.takeTask]
      split
      · split <;> rfl
      · rfl
  | finish w err onErrorResult =>
      refine Or.inl ?_
      simp only [ThreadPool.Step, ThreadPool.step, ThreadPool.finish] at h
      grind

theorem Attended.step (hinv : Attended s) (hstate : s.state ≠ .starting) (htimely : act.Timely s)
    (h : s.Step act s') : Attended s' := by
  cases act with
  | submit alloc woken => exact hinv.submit htimely h
  | stopFailed =>
      simp only [ThreadPool.Step, ThreadPool.step] at h
      split at h
      · rw [← Option.some.inj h]
        exact Attended.shutdown
      · simp at h
  | shutdown =>
      simp only [ThreadPool.Step, ThreadPool.step, Option.some.injEq] at h
      rw [← h]
      exact Attended.shutdown
  | setOnError onError =>
      simp only [ThreadPool.Step, ThreadPool.step, Option.some.injEq] at h
      rw [← h]
      exact hinv
  | enter w => exact hinv.enter hstate h
  | finish w err onErrorResult => exact hinv.finish h

/-- As long as submissions are timely, no worker waits while tasks are left to nobody. -/
theorem not_idleWorker_of_run
    (hrun : Lts.Run ThreadPool.Init (fun s act s' => s.Step act s' ∧ act.Timely s) hist s) :
    ¬IdleWorker s := by
  have hinv : s.state ≠ .starting ∧ Attended s := by
    refine Lts.Run.invariant (I := fun _ s => s.state ≠ .starting ∧ Attended s) hrun ?_ ?_
    · intro s hinit
      exact ⟨(PoolInv.of_init hinit).state, .of_init hinit⟩
    · intro hist s act s' hinv hstep
      refine ⟨?_, hinv.2.step hinv.1 hstep.2 hstep.1⟩
      rcases ThreadPool.step_state hinv.1 hstep.1 with hstate | hstate
      · exact hstate ▸ hinv.1
      · simp [hstate]
  intro hidle
  have hlength := hinv.2 hidle.running hidle.waits
  have hpos : 0 < s.workers.countP Worker.awake :=
    (List.length_pos_iff.mpr hidle.tasks).trans_le hlength
  obtain ⟨worker, hmem, hawake⟩ := List.countP_pos_iff.mp hpos
  rcases hidle.others worker hmem with hwaits | ⟨task, rfl⟩
  · simp [Worker.awake_eq_false_of_waits hwaits] at hawake
  · simp [Worker.awake] at hawake

/-- Two workers wait, and the second task comes after the first one has been taken. -/
theorem not_idleWorker_two_workers : ∃ s,
    Lts.Run ThreadPool.Init (fun s act s' => s.Step act s' ∧ act.Timely s) [.enter 0, .enter 1,
      .submit true (some 0), .enter 0, .submit true (some 1)] s ∧
    s.tasks = [1] ∧ s.workers = [.working 0, .waiting true] ∧ ¬IdleWorker s := by
  have hinit : (executorThreadPoolNew 2).Init := ⟨2, by simp, rfl⟩
  obtain ⟨s, hrun, htasks, hworkers⟩ := Lts.exists_run_guarded ThreadPool.step
    (fun s act => act.Timely s) [.enter 0, .enter 1, .submit true (some 0), .enter 0,
      .submit true (some 1)]
    (fun s => s.tasks = [1] ∧ s.workers = [.working 0, .waiting true]) hinit (by decide +kernel)
  exact ⟨s, hrun, htasks, hworkers, not_idleWorker_of_run hrun⟩

/-- Two workers wait, and two tasks come before the one that is signalled has got the mutex. It
runs the first task, and the second one is left to a worker that nobody wakes up. -/
theorem idleWorker_two_submits : ∃ s,
    Lts.Run ThreadPool.Init ThreadPool.Step [.enter 0, .enter 1, .submit true (some 0),
      .submit true none, .enter 0] s ∧
    s.tasks = [1] ∧ s.workers = [.working 0, .waiting false] ∧ IdleWorker s := by
  have hinit : (executorThreadPoolNew 2).Init := ⟨2, by simp, rfl⟩
  obtain ⟨s, hrun, hrunning, htasks, hworkers⟩ := Lts.exists_run ThreadPool.step
    [.enter 0, .enter 1, .submit true (some 0), .submit true none, .enter 0]
    (fun s => s.state = .running ∧ s.tasks = [1] ∧ s.workers = [.working 0, .waiting false]) hinit
    (by decide +kernel)
  refine ⟨s, hrun, htasks, hworkers, hrunning, by simp [htasks], ?_, ?_⟩
  · simp [hworkers, Worker.waits]
  · simp [hworkers, Worker.waits]

theorem ThreadPool.enter_of_awake {worker : Worker} {task : ℕ} {rest : List ℕ}
    (hstate : s.state ≠ .starting) (hw : s.workers[w]? = some worker)
    (hawake : worker.awake = true) (htasks : s.tasks = task :: rest) :
    s.enter w = some { s with
      tasks := rest
      workers := s.workers.set w (.working task)
      log := s.log ++ [.started task] } := by
  cases worker <;>
    simp_all [Worker.awake, ThreadPool.enter, ThreadPool.takeTask]

/-- There are more tasks than workers on their way to the queue. When each of these has taken
one, a task is left. -/
theorem exists_idleWorker (hrun : Lts.Run ThreadPool.Init ThreadPool.Step hist s)
    (hinv : PoolInv s) (hrunning : s.state = .running)
    (hwaits : ∃ worker ∈ s.workers, worker.waits = true)
    (hlt : s.workers.countP Worker.awake < s.tasks.length) :
    ∃ hist' s', Lts.Run ThreadPool.Init ThreadPool.Step (hist ++ hist') s' ∧ IdleWorker s' := by
  induction hn : s.workers.countP Worker.awake generalizing hist s with
  | zero =>
      refine ⟨[], s, by simpa using hrun, hrunning, ?_, hwaits, fun worker hmem => ?_⟩
      · exact List.ne_nil_of_length_pos (Nat.zero_lt_of_lt hlt)
      · have hasleep := List.countP_eq_zero.mp hn worker hmem
        cases worker with
        | working task => exact Or.inr ⟨task, rfl⟩
        | exited => simp [(hinv.exited hmem).1] at hrunning
        | starting => simp [Worker.awake] at hasleep
        | locking => simp [Worker.awake] at hasleep
        | startWaiting signalled => simpa [Worker.awake, Worker.waits] using hasleep
        | waiting signalled => simpa [Worker.awake, Worker.waits] using hasleep
  | succ n ih =>
      have hpos : 0 < s.workers.countP Worker.awake := by omega
      obtain ⟨worker, hmem, hawake⟩ := List.countP_pos_iff.mp hpos
      obtain ⟨w, hw⟩ := List.mem_iff_getElem?.mp hmem
      obtain ⟨task, rest, htasks⟩ := List.exists_cons_of_length_pos (Nat.zero_lt_of_lt hlt)
      have henter := ThreadPool.enter_of_awake hinv.state hw hawake htasks
      have hstep : s.Step (.enter w) _ := henter
      have hcount := Heap.countP_set_add Worker.awake hw (.working task)
      rw [hawake, show (Worker.working task).awake = false from rfl] at hcount
      simp only [Bool.false_eq_true, if_false, if_true] at hcount
      rw [htasks, List.length_cons] at hlt
      have hwaits' : ∃ worker ∈ s.workers.set w (.working task), worker.waits = true := by
        obtain ⟨waiter, hwaiter, hwaits⟩ := hwaits
        refine ⟨waiter, ?_, hwaits⟩
        obtain ⟨v, hv⟩ := List.mem_iff_getElem?.mp hwaiter
        have hne : w ≠ v := by
          rintro rfl
          rw [hw] at hv
          rw [Option.some.inj hv, Worker.awake_eq_false_of_waits hwaits] at hawake
          simp at hawake
        exact List.mem_of_getElem? ((List.getElem?_set_ne hne).trans hv)
      obtain ⟨hist', s', hrun', hidle⟩ :=
        ih (hrun.snoc hstep) (hinv.step rfl hstep) hrunning hwaits' (by simp only; omega)
          (by simp only; omega)
      exact ⟨.enter w :: hist', s', by simpa using hrun', hidle⟩

theorem idleWorker_of_not_timely {woken : Option ℕ}
    (hrun : Lts.Run ThreadPool.Init ThreadPool.Step hist s)
    (halloc : ∀ act ∈ hist, act.allocated = true) (hrunning : s.state = .running)
    (hlate : ¬(PoolAction.submit true woken).Timely s) (h : s.submit true woken = some s') :
    ∃ hist' s'', Lts.Run ThreadPool.Init ThreadPool.Step (hist ++ .submit true woken :: hist') s'' ∧
      IdleWorker s'' := by
  simp only [PoolAction.Timely, Classical.not_imp, not_or, not_lt] at hlate
  obtain ⟨hwaits, hne, hle⟩ := hlate
  have hinv := PoolInv.of_run hrun halloc
  have hstep : s.Step (.submit true woken) s' := h
  have hinv' := hinv.step rfl hstep
  have hone : s.tasks.length + 1 ≠ 1 := by simpa using hne
  simp only [ThreadPool.submit, hrunning, ne_eq, not_true_eq_false, if_false, if_true,
    List.length_append, List.length_singleton, if_neg hone, Option.some.injEq] at h
  have hstate : s'.state = .running := by rw [← h]
  have hworkers : s'.workers = s.workers := by rw [← h]
  have hlength : s'.tasks.length = s.tasks.length + 1 := by simp [← h]
  obtain ⟨hist', s'', hrun', hidle⟩ := exists_idleWorker (hrun.snoc hstep) hinv' hstate
    (hworkers ▸ hwaits) (by rw [hworkers, hlength]; omega)
  exact ⟨hist', s'', by simpa using hrun', hidle⟩

end Workers

end PosixThreads
