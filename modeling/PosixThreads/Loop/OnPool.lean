import PosixThreads.Executor.Submission
import PosixThreads.Loop.Queued

/-!
# The loop on a thread pool

The loop and the thread pool that is its executor. `loop_dispatch_task` submits a task of the loop
to the pool, and the task takes its steps in the worker that has got it. The pool may have other
users.

A handler that is queued is polled again only after its task has run. So a task that the pool
has not added to its queue, while it says that it has, is the last one of its handler.
-/

namespace PosixThreads

/-- `numbered` are the tasks that the pool has accepted and that have not returned, with the
numbers they have there. -/
structure LoopOnPool where
  loop : Loop
  pool : ThreadPool
  numbered : List (ℕ × LoopTask)

/-- The loop takes a step, it submits a task, a worker takes a step in a task of the loop, or
something else happens to the pool. -/
inductive LoopOnPoolAction
  | loop (act : LoopAction)
  | submit (alloc : Bool) (woken : Option ℕ)
  | task (worker : ℕ) (task : LoopTask) (answer : TaskAnswer)
  | pool (act : PoolAction)

def Loop.submits (s : Loop) : Option PollMeta :=
  match s.pc with
  | .dispatchSubmit entry _ => if entry.handler = notifyId then none else some entry
  | _ => none

def Loop.usesExecutor (s : Loop) : LoopAction → Bool
  | .loop _ => s.submits.isSome
  | .task _ _ => true
  | _ => false

section Loop

variable {s s' : Loop} {act : LoopAction} {entry : PollMeta}

theorem Loop.submits_spec (h : s.submits = some entry) :
    ∃ rest, s.pc = .dispatchSubmit entry rest ∧ entry.handler ≠ notifyId := by
  unfold Loop.submits at h
  split at h
  · rename_i entry' rest hpc
    split at h
    · simp at h
    · obtain rfl := Option.some.inj h
      exact ⟨rest, hpc, ‹_›⟩
  · simp at h

theorem Loop.Step.tasks_of_not_usesExecutor (h : s.Step act s')
    (huses : s.usesExecutor act = false) : s'.tasks = s.tasks := by
  cases h.outcome with
  | proceed _ hproceed =>
      obtain ⟨calls, pipe, raised, rfl⟩ := Loop.proceed_frame hproceed
      rfl
  | task => simp [Loop.usesExecutor] at huses
  | loop hstep =>
      cases hpc : s.pc with
      | dispatch entry rest =>
          simp only [Loop.loopStep, hpc, Option.some.injEq] at hstep
          rw [← hstep]
          exact (LoopFrame.compareExchange s _ _ _).tasks
      | dispatchSubmit entry rest =>
          have hnotify : entry.handler = notifyId := by
            simpa [Loop.usesExecutor, Loop.submits, hpc] using huses
          simp only [Loop.loopStep, hpc, if_pos hnotify, Option.some.injEq] at hstep
          rw [← hstep]
      | inlineTask task rest =>
          simp only [Loop.loopStep, hpc] at hstep
          split at hstep
          · simp at hstep
          · rename_i s₁ task₁ htask
            rw [← Option.some.inj hstep]
            exact (taskStep_spec htask).frame.tasks
          · rename_i s₁ htask
            split at hstep <;>
            · rw [← Option.some.inj hstep]
              exact (taskStep_spec htask).frame.tasks
      | _ =>
          rw [Loop.loopStep, hpc] at hstep
          grind [Loop.setHandler, Loop.setStatus]
  | _ => rfl

end Loop

namespace LoopOnPool

def step (t : LoopOnPool) : LoopOnPoolAction → Option LoopOnPool
  | .loop act =>
      if t.loop.usesExecutor act then none
      else (t.loop.step act).map fun loop => { t with loop := loop }
  | .submit alloc woken => do
      let entry ← t.loop.submits
      let pool ← t.pool.submit alloc woken
      let submitted := decide (pool.result = some .submitted)
      let loop ← t.loop.loopStep
        ⟨true, submitted, none, ⟨true, true⟩, ⟨none, true, true, ⟨true, true⟩⟩⟩
      let accepted := if submitted then
        [(t.pool.next, LoopTask.mk entry.handler entry.flags .submitted)] else []
      return ⟨loop, pool, accepted ++ t.numbered⟩
  | .task w task answer =>
      match t.pool.workers[w]? with
      | some (.working n) =>
          if (n, task) ∈ t.numbered then do
            let (_, task') ← t.loop.taskStep task answer
            let loop ← t.loop.step (.task task answer)
            return { t with
              loop := loop
              numbered := task'.toList.map (n, ·) ++ t.numbered.erase (n, task) }
          else none
      | _ => none
  | .pool act =>
      -- a task ends when its callback has returned
      if ∃ p ∈ t.numbered, act.finishes t.pool = some p.1 then none
      else (t.pool.step act).map fun pool => { t with pool := pool }

def Init (t : LoopOnPool) : Prop := t.loop.Init ∧ t.pool.Init ∧ t.numbered = []

def Step (t : LoopOnPool) (act : LoopOnPoolAction) (t' : LoopOnPool) : Prop := t.step act = some t'

def HasRoom (t : LoopOnPool) : LoopOnPoolAction → Prop
  | .submit alloc woken => (PoolAction.submit alloc woken).HasRoom t.pool
  | .pool act => act.HasRoom t.pool
  | _ => True

instance (t : LoopOnPool) (act : LoopOnPoolAction) : Decidable (t.HasRoom act) :=
  match act with
  | .submit alloc woken => inferInstanceAs (Decidable ((PoolAction.submit alloc woken).HasRoom _))
  | .pool act => inferInstanceAs (Decidable (act.HasRoom t.pool))
  | .loop _ | .task _ _ _ => isTrue trivial

/-- A task of the handler will run or is running: it is in the queue and no worker has exited, or a
worker has got it. -/
def Served (t : LoopOnPool) (h : ℕ) : Prop :=
  ∃ p ∈ t.numbered, p.2.handler = h ∧ p.2.isFinished = false ∧
    (p.1 ∈ t.pool.tasks ∧ .exited ∉ t.pool.workers ∨ p.1 ∈ workingTasks t.pool.workers)

instance (t : LoopOnPool) (h : ℕ) : Decidable (t.Served h) :=
  inferInstanceAs (Decidable (∃ _ ∈ _, _ ∧ _ ∧ (_ ∧ _ ∨ _)))

/-- Every queued handler has a task, unless the loop thread is about to submit it, runs it itself,
or has failed and is about to unregister the handler. -/
def QueuedServed (t : LoopOnPool) : Prop :=
  ∀ h, (t.loop.handler h).status = .queued →
    h ∈ t.loop.pc.inHand ∨ h ∈ unfinishedOf t.loop.pc.inlineTasks ∨ t.Served h

/-! ## The invariant -/

structure OnPoolInv (t : LoopOnPool) : Prop where
  queued : QueuedInv t.loop
  pool : PoolInv t.pool
  numbered : (t.numbered.map Prod.snd).Perm t.loop.tasks
  served : ∀ p ∈ t.numbered, p.1 ∈ t.pool.serves

variable {t t' : LoopOnPool} {hist : List LoopOnPoolAction}

theorem OnPoolInv.of_init (h : t.Init) : OnPoolInv t := by
  obtain ⟨hloop, hpool, hnumbered⟩ := h
  refine ⟨.of_init hloop, .of_init hpool, ?_, by simp [hnumbered]⟩
  obtain ⟨handler, -, hloop⟩ := hloop
  simp [hnumbered, hloop, loopNew]

theorem OnPoolInv.loopStep {act : LoopAction} (hinv : OnPoolInv t)
    (h : t.Step (.loop act) t') : OnPoolInv t' := by
  simp only [Step, step] at h
  split at h
  · simp at h
  · rename_i huses
    obtain ⟨loop, hloop, rfl⟩ := Option.map_eq_some_iff.mp h
    refine ⟨hinv.queued.step hloop, hinv.pool, ?_, hinv.served⟩
    rw [Loop.Step.tasks_of_not_usesExecutor hloop (Bool.not_eq_true _ ▸ huses)]
    exact hinv.numbered

/-- A task that the pool says it has accepted is in the queue, as there is room for it. -/
theorem OnPoolInv.submit {alloc : Bool} {woken : Option ℕ} (hinv : OnPoolInv t)
    (hroom : t.HasRoom (.submit alloc woken)) (h : t.Step (.submit alloc woken) t') :
    OnPoolInv t' := by
  simp only [Step, step, Option.bind_eq_bind, Option.bind_eq_some_iff, Option.pure_def,
    Option.some.injEq] at h
  obtain ⟨entry, hsubmits, pool, hpool, loop, hloop, rfl⟩ := h
  obtain ⟨rest, hpc, hne⟩ := Loop.submits_spec hsubmits
  have hqueued := hinv.queued.loopStep hloop
  have hstep : t.pool.Step (.submit alloc woken) pool := hpool
  have hpoolRoom : (PoolAction.submit alloc woken).HasRoom t.pool := hroom
  have hpool' : PoolInv pool := hinv.pool.step_of_hasRoom hpoolRoom hstep
  have hserved : ∀ p ∈ t.numbered, p.1 ∈ pool.serves := fun p hp =>
    ThreadPool.serves_of_step hinv.pool.state hstep (hinv.served p hp)
      (by simp [PoolAction.finishes])
  simp only [Loop.loopStep, hpc, if_neg hne] at hloop
  by_cases hsubmitted : pool.result = some .submitted
  · simp only [hsubmitted, decide_true, if_true, Option.some.injEq] at hloop ⊢
    refine ⟨hqueued, hpool', ?_, ?_⟩
    · rw [← hloop]
      exact hinv.numbered.cons _
    · simp only [List.singleton_append, List.forall_mem_cons]
      refine ⟨?_, hserved⟩
      cases (ThreadPool.submit_spec hpool).1 with
      | rejected _ _ hresult => simp [hresult] at hsubmitted
      | added _ _ htasks =>
          rw [ThreadPool.serves, htasks]
          simp
      | lost hstate halloc =>
          exact absurd hroom (by simp [HasRoom, PoolAction.HasRoom, hstate, halloc])
  · simp only [hsubmitted, decide_false, Bool.false_eq_true, if_false, Option.some.injEq] at hloop ⊢
    refine ⟨hqueued, hpool', ?_, by simpa using hserved⟩
    rw [← hloop]
    exact hinv.numbered

theorem OnPoolInv.taskStep {w : ℕ} {task : LoopTask} {answer : TaskAnswer} (hinv : OnPoolInv t)
    (h : t.Step (.task w task answer) t') : OnPoolInv t' := by
  simp only [Step, step] at h
  split at h
  · rename_i n hw
    split at h
    · rename_i hmem
      simp only [Option.bind_eq_bind, Option.bind_eq_some_iff, Option.pure_def,
        Option.some.injEq] at h
      obtain ⟨⟨s₁, task'⟩, htask, loop, hloop, rfl⟩ := h
      have hserved := hinv.served _ hmem
      refine ⟨hinv.queued.step hloop, hinv.pool, ?_, fun p hp => ?_⟩
      · obtain ⟨hold, s₂, task₂, htask₂, rfl⟩ := Loop.Step.of_task hloop
        obtain ⟨rfl, rfl⟩ := Prod.mk.inj (Option.some.inj (htask.symm.trans htask₂))
        have herase : ((t.numbered.erase (n, task)).map Prod.snd).Perm (t.loop.tasks.erase task) :=
          (((List.perm_cons_erase hmem).map Prod.snd).symm.trans
            (hinv.numbered.trans (List.perm_cons_erase hold))).cons_inv
        have hsnd : (Prod.snd ∘ fun task : LoopTask => (n, task)) = id := rfl
        rw [List.map_append, List.map_map, hsnd, List.map_id]
        exact herase.append_left _
      · rcases List.mem_append.mp hp with hp | hp
        · obtain ⟨_, -, rfl⟩ := List.mem_map.mp hp
          exact hserved
        · exact hinv.served p (List.mem_of_mem_erase hp)
    · simp at h
  · simp at h

theorem OnPoolInv.poolStep {act : PoolAction} (hinv : OnPoolInv t) (hroom : t.HasRoom (.pool act))
    (h : t.Step (.pool act) t') : OnPoolInv t' := by
  simp only [Step, step] at h
  split at h
  · simp at h
  · rename_i hreturned
    obtain ⟨pool, hpool, rfl⟩ := Option.map_eq_some_iff.mp h
    refine ⟨hinv.queued, hinv.pool.step_of_hasRoom hroom hpool, hinv.numbered, fun p hp => ?_⟩
    refine ThreadPool.serves_of_step hinv.pool.state hpool (hinv.served p hp) fun hfinishes => ?_
    exact hreturned ⟨p, hp, hfinishes⟩

theorem OnPoolInv.step {act : LoopOnPoolAction} (hinv : OnPoolInv t) (hroom : t.HasRoom act)
    (h : t.Step act t') : OnPoolInv t' := by
  cases act with
  | loop act => exact hinv.loopStep h
  | submit alloc woken => exact hinv.submit hroom h
  | task w task answer => exact hinv.taskStep h
  | pool act => exact hinv.poolStep hroom h

/-- A handler that is queued is in the hand of the loop thread or has a task. -/
theorem OnPoolInv.queuedServed (hinv : OnPoolInv t) : t.QueuedServed := by
  intro h hqueued
  rcases hinv.queued.queued h hqueued with hunfinished | hinHand
  · refine .inr ?_
    rw [Loop.unfinished, unfinishedOf_append, List.mem_append] at hunfinished
    refine hunfinished.imp_right fun hmem => ?_
    obtain ⟨task, htask, hfinished, rfl⟩ : ∃ task ∈ t.loop.tasks, task.isFinished = false ∧
        task.handler = h := by
      simpa [unfinishedOf, and_assoc] using hmem
    obtain ⟨p, hp, rfl⟩ := List.mem_map.mp (hinv.numbered.symm.subset htask)
    refine ⟨p, hp, rfl, hfinished, ?_⟩
    refine (List.mem_append.mp (hinv.served p hp)).imp_left fun hqueue => ⟨hqueue, ?_⟩
    -- a worker exits only when the queue is empty
    intro hexited
    rw [(hinv.pool.exited hexited).2] at hqueue
    exact absurd hqueue List.not_mem_nil
  · exact .inl hinHand

/-- The result of a submission is truthful exactly if there is room for the task or the pool is not
running. If that is so for all submissions, then every handler that is queued has a task that will
run. -/
theorem queuedServed_of_run (s : ThreadPool) (alloc : Bool) (woken : Option ℕ)
    (hist : List LoopOnPoolAction) (t : LoopOnPool) :
    (∀ s', s.submit alloc woken = some s' →
      (s.SubmitTruthful s' ↔ s.state ≠ .running ∨ alloc = true)) ∧
    (Lts.Run Init (fun t act t' => t.Step act t' ∧ t.HasRoom act) hist t → t.QueuedServed) := by
  refine ⟨fun s' h => ThreadPool.submitTruthful_iff h, fun hrun => ?_⟩
  refine OnPoolInv.queuedServed (Lts.Run.invariant (I := fun _ t => OnPoolInv t) hrun ?_ ?_)
  · exact fun t hinit => .of_init hinit
  · exact fun _ t act t' hinv hstep => hinv.step hstep.2 hstep.1

def fresh : LoopOnPool := ⟨loopNew fun _ => notifyHandler, executorThreadPoolNew 1, []⟩

theorem init_fresh : fresh.Init := ⟨Loop.init_new, ⟨1, Nat.one_pos, rfl⟩, rfl⟩

/-- The handler 1 is forced, and the loop is about to submit its task. -/
def dispatchActs : List LoopOnPoolAction :=
  (([.register 1, .proceed .interrupt true, .force 1, .proceed (.forced 1) true] :
    List LoopAction) ++ List.replicate 26 loopNotified).map .loop

/-- The task is added to the queue, and the worker takes it. -/
theorem queuedServed_added : ∃ t,
    Lts.Run Init (fun t act t' => t.Step act t' ∧ t.HasRoom act)
      (dispatchActs ++ [.submit true none, .pool (.enter 0)]) t ∧
      (t.loop.handler 1).status = .queued ∧ workingTasks t.pool.workers = [0] ∧ t.QueuedServed ∧
      ∃ pool, (executorThreadPoolNew 1).submit true none = some pool ∧
        (executorThreadPoolNew 1).SubmitTruthful pool := by
  obtain ⟨t, hrun, hqueued, hworking⟩ := Lts.exists_run_guarded step HasRoom
    (dispatchActs ++ [.submit true none, .pool (.enter 0)])
    (fun t => (t.loop.handler 1).status = .queued ∧ workingTasks t.pool.workers = [0])
    init_fresh (by decide +kernel)
  obtain ⟨htruthful, hserved⟩ := queuedServed_of_run (executorThreadPoolNew 1) true none
    (dispatchActs ++ [.submit true none, .pool (.enter 0)]) t
  exact ⟨t, hrun, hqueued, hworking, hserved hrun, _, rfl, (htruthful _ rfl).mpr (.inr rfl)⟩

/-- There is no memory for the node, and the pool has no `on_error`. The submission returns that the
task has been submitted. The loop goes on, the queue stays empty, and the handler stays queued. -/
theorem not_queuedServed_lost : ∃ t t',
    Lts.Run Init Step dispatchActs t ∧ t.Step (.submit false none) t' ∧
      t'.pool.result = some .submitted ∧ t'.pool.tasks = [] ∧ ¬ t.pool.SubmitTruthful t'.pool ∧
      t'.loop.pc = .submit [] ∧ (t'.loop.handler 1).status = .queued ∧ ¬ t'.QueuedServed := by
  obtain ⟨t, hrun, htest⟩ := Lts.exists_run step dispatchActs
    (fun t => ((t.step (.submit false none)).any fun t' =>
      decide (t'.pool.result = some .submitted ∧ t'.pool.tasks = [] ∧
        ¬ t.pool.SubmitTruthful t'.pool ∧ t'.loop.pc = .submit [] ∧
        (t'.loop.handler 1).status = .queued ∧ ¬ t'.Served 1)) = true)
    init_fresh (by decide +kernel)
  obtain ⟨t', hstep, htest⟩ := (Option.any_eq_true _ _).mp htest
  obtain ⟨hresult, htasks, huntruthful, hpc, hqueued, hserved⟩ := of_decide_eq_true htest
  refine ⟨t, t', hrun, hstep, hresult, htasks, huntruthful, hpc, hqueued, fun h => ?_⟩
  rcases h 1 hqueued with hinHand | hinline | hserved'
  · simp [hpc, LoopPc.inHand] at hinHand
  · simp [hpc, LoopPc.inlineTasks] at hinline
  · exact hserved hserved'

end LoopOnPool

end PosixThreads
