import PosixThreads.Loop.Errors

/-!
# Isolation of errors

The comment at `on_error` promises that a handler without one is unregistered when it fails,
and that the loop goes on. The task pushes the error of such a handler like an error of
`on_error` itself, though, and `loop_run` ends with it; the handler becomes ready again. As
long as no handler without an `on_error` fails, the loop ends with an error of a handler only
if an `on_error` has returned one.
-/

namespace PosixThreads

/-- An error of a handler ends the loop only if an `on_error` has returned an error, and a
handler without `on_error` that has failed is unregistered once its task is finished. -/
structure ErrorIsolation (t : LoopTrace) : Prop where
  aborted : t.aborted = true → t.onErrorFailed = true
  unregistered : ∀ h ∈ t.failed, h ∉ t.loop.unfinished →
    (t.loop.handler h).status = .unregistered

/-- `process` returns no error to a task of a handler without `on_error`. -/
def Loop.FailuresHandled (s : Loop) (act : LoopAction) : Prop :=
  ∀ p ∈ s.stepTask act, s.failsUnhandled p.1 p.2 = false

instance (s : Loop) (act : LoopAction) : Decidable (s.FailuresHandled act) :=
  inferInstanceAs (Decidable (∀ p ∈ s.stepTask act, s.failsUnhandled p.1 p.2 = false))

/-! ## Calm states -/

def LoopTask.Calm (s : Loop) (task : LoopTask) : Prop :=
  match task.phase with
  | .submitted => True
  | .processing => True
  | .failed _ => (s.handler task.handler).onError = true
  | .pushing _ => False
  | .updating err => err = none
  | .finished err => err = none

def LoopPc.Calm : LoopPc → Prop
  | .results _ err => err = none
  | .resultsClear err => err = none
  | _ => True

structure Loop.Calm (s : Loop) : Prop where
  errors : s.errors = []
  tasks : ∀ task ∈ s.pc.inlineTasks ++ s.tasks, task.Calm s
  results : s.pc.Calm

section Calm

variable {s s' : Loop} {act : LoopAction} {task : LoopTask}

theorem LoopTask.Calm.of_onError (h : task.Calm s)
    (honError : ∀ x, (s'.handler x).onError = (s.handler x).onError) : task.Calm s' := by
  cases hphase : task.phase with
  | failed err =>
      simp only [LoopTask.Calm, hphase] at h ⊢
      exact (honError _).trans h
  | _ =>
      simp only [LoopTask.Calm, hphase] at h ⊢
      try exact h

theorem taskStep_processing {task' : Option LoopTask} {answer : TaskAnswer}
    (hphase : task.phase = .processing) (h : s.taskStep task answer = some (s', task')) :
    s.processResult task answer = none ∧ task' = some { task with phase := .updating none } ∨
    ∃ err, s.processResult task answer = some err ∧
      task' = some { task with phase := .failed err } := by
  simp only [Loop.taskStep, hphase] at h
  simp only [Loop.processResult, hphase]
  by_cases hnotify : task.handler = notifyId
  · rw [if_pos hnotify] at h ⊢
    split at h
    · exact Or.inl ⟨‹_›, (Prod.mk.inj (Option.some.inj h)).2.symm⟩
    · exact Or.inr ⟨_, ‹_›, (Prod.mk.inj (Option.some.inj h)).2.symm⟩
  · rw [if_neg hnotify] at h ⊢
    split at h
    · exact Or.inl ⟨‹_›, (Prod.mk.inj (Option.some.inj h)).2.symm⟩
    · exact Or.inr ⟨_, ‹_›, (Prod.mk.inj (Option.some.inj h)).2.symm⟩

/-- A calm task stays so, unless `process` or `on_error` returns an error that is not caught. -/
theorem LoopTask.Calm.taskStep {task' : Option LoopTask} {answer : TaskAnswer}
    (hcalm : task.Calm s) (h : s.taskStep task answer = some (s', task'))
    (hhandled : s.failsUnhandled task answer = false)
    (hcaught : s.onErrorFails task answer = false) :
    task.pushes answer = [] ∧ ∀ next ∈ task'.toList, next.Calm s' := by
  cases hphase : task.phase with
  | submitted =>
      simp only [Loop.taskStep, hphase, Option.some.injEq, Prod.mk.injEq] at h
      obtain ⟨rfl, rfl⟩ := h
      simp [LoopTask.pushes, LoopTask.Calm, hphase]
  | processing =>
      have honError := ((taskStep_spec h).evolves task.handler).onError
      have hpushes : task.pushes answer = [] := by rw [LoopTask.pushes, hphase]
      refine ⟨hpushes, fun next hnext => ?_⟩
      rcases taskStep_processing hphase h with ⟨_, rfl⟩ | ⟨err, herr, rfl⟩
      · rw [List.mem_singleton.mp hnext]
        rfl
      · rw [List.mem_singleton.mp hnext]
        refine honError.trans ?_
        simpa [Loop.failsUnhandled, herr] using hhandled
  | failed err =>
      have honError : (s.handler task.handler).onError = true := by
        simpa [LoopTask.Calm, hphase] using hcalm
      have hresult : answer.result = none := by
        simpa [Loop.onErrorFails, hphase, honError] using hcaught
      simp only [Loop.taskStep, hphase, honError, if_true, hresult, errorWrap, Option.map_none,
        Option.some.injEq, Prod.mk.injEq] at h
      obtain ⟨rfl, rfl⟩ := h
      simp [LoopTask.pushes, LoopTask.Calm, hphase]
  | pushing err => simp [LoopTask.Calm, hphase] at hcalm
  | updating err =>
      simp only [Loop.taskStep, hphase, Option.some.injEq, Prod.mk.injEq] at h
      obtain ⟨rfl, rfl⟩ := h
      simpa [LoopTask.pushes, LoopTask.Calm, hphase] using hcalm
  | finished err =>
      have hpushes : task.pushes answer = [] := by rw [LoopTask.pushes, hphase]
      cases taskStep_spec h with
      | running hphase' | updated hphase' => simp [LoopTask.isFinished, hphase] at hphase'
      | returned => exact ⟨hpushes, by simp⟩

/-- The tasks are those that have been there, and new ones that are calm. -/
theorem Loop.Calm.of_tasks (hcalm : s.Calm)
    (honError : ∀ x, (s'.handler x).onError = (s.handler x).onError)
    (herrors : s'.errors = []) (hresults : s'.pc.Calm) (new : List LoopTask)
    (hnew : ∀ task ∈ new, task.Calm s')
    (htasks : s'.pc.inlineTasks ++ s'.tasks ⊆ new ++ (s.pc.inlineTasks ++ s.tasks)) : s'.Calm := by
  refine ⟨herrors, fun task hmem => ?_, hresults⟩
  rcases List.mem_append.mp (htasks hmem) with hmem | hmem
  · exact hnew task hmem
  · exact (hcalm.tasks task hmem).of_onError honError

theorem Loop.Calm.inlineTask {answer : LoopAnswer} {rest : List PollMeta} (hcalm : s.Calm)
    (hpc : s.pc = .inlineTask task rest) (h : s.loopStep answer = some s')
    (hhandled : s.failsUnhandled task answer.task = false)
    (hcaught : s.onErrorFails task answer.task = false) : s'.Calm := by
  have honError := fun x => (loopStep_evolves h x).onError
  have htask : task.Calm s := hcalm.tasks task (by simp [LoopPc.inlineTasks, hpc])
  simp only [Loop.loopStep, hpc] at h
  split at h
  · simp at h
  · rename_i s₁ task₁ htaskStep
    have hcalm' := htask.taskStep htaskStep hhandled hcaught
    have htasks := (taskStep_spec htaskStep).frame.tasks
    have herrors := taskStep_errors htaskStep
    rw [hcalm.errors, hcalm'.1] at herrors
    rw [← Option.some.inj h] at honError ⊢
    refine hcalm.of_tasks honError herrors trivial _ hcalm'.2 ?_
    simp [LoopPc.inlineTasks, htasks]
  · rename_i s₁ htaskStep
    have hcalm' := htask.taskStep htaskStep hhandled hcaught
    have htasks := (taskStep_spec htaskStep).frame.tasks
    have herrors := taskStep_errors htaskStep
    rw [hcalm.errors, hcalm'.1] at herrors
    split at h <;>
    · rw [← Option.some.inj h] at honError ⊢
      refine hcalm.of_tasks honError herrors trivial _ hcalm'.2 ?_
      simp [LoopPc.inlineTasks, htasks]

theorem Loop.Calm.dispatchSubmit {answer : LoopAnswer} {entry : PollMeta} {rest : List PollMeta}
    (hcalm : s.Calm) (hpc : s.pc = .dispatchSubmit entry rest)
    (h : s.loopStep answer = some s') : s'.Calm := by
  have honError := fun x => (loopStep_evolves h x).onError
  have hnew : ∀ s' : Loop, ∀ task ∈ [LoopTask.mk entry.handler entry.flags .submitted],
      task.Calm s' := by
    intro s' task hmem
    rw [List.mem_singleton.mp hmem]
    trivial
  simp only [Loop.loopStep, hpc] at h
  split at h
  · rw [← Option.some.inj h] at honError ⊢
    refine hcalm.of_tasks honError hcalm.errors trivial _ (hnew _) ?_
    simp [LoopPc.inlineTasks]
  · split at h
    · rw [← Option.some.inj h] at honError ⊢
      refine hcalm.of_tasks honError hcalm.errors trivial _ (hnew _) ?_
      simp [LoopPc.inlineTasks]
    · rw [← Option.some.inj h] at honError ⊢
      refine hcalm.of_tasks honError hcalm.errors trivial _ (hnew _) ?_
      simp [LoopPc.inlineTasks]

theorem Loop.Calm.processResults {answer : LoopAnswer} {err : Option Error} (hcalm : s.Calm)
    (hpc : (∃ i, s.pc = .results i err) ∨ s.pc = .resultsClear err)
    (h : s.loopStep answer = some s') : s'.Calm := by
  have honError := fun x => (loopStep_evolves h x).onError
  rcases hpc with ⟨i, hpc⟩ | hpc
  · have herr : err = none := by simpa [LoopPc.Calm, hpc] using hcalm.results
    simp only [Loop.loopStep, hpc, hcalm.errors, List.getElem?_nil, Option.some.injEq] at h
    rw [← h] at honError ⊢
    refine hcalm.of_tasks honError rfl herr [] (by simp) ?_
    simp [LoopPc.inlineTasks]
  · have herr : err = none := by simpa [LoopPc.Calm, hpc] using hcalm.results
    simp only [Loop.loopStep, hpc, herr, Option.some.injEq] at h
    rw [← h] at honError ⊢
    refine hcalm.of_tasks honError rfl trivial [] (by simp) ?_
    simp [LoopPc.inlineTasks]

theorem Loop.Calm.loopStep {answer : LoopAnswer} (hcalm : s.Calm) (h : s.loopStep answer = some s')
    (hhandled : ∀ p ∈ s.stepTask (.loop answer), s.failsUnhandled p.1 p.2 = false)
    (hcaught : ∀ p ∈ s.stepTask (.loop answer), s.onErrorFails p.1 p.2 = false) : s'.Calm := by
  cases hpc : s.pc with
  | inlineTask task rest =>
      have hmem : (task, answer.task) ∈ s.stepTask (.loop answer) := by simp [Loop.stepTask, hpc]
      exact hcalm.inlineTask hpc h (hhandled _ hmem) (hcaught _ hmem)
  | dispatchSubmit entry rest => exact hcalm.dispatchSubmit hpc h
  | results i err => exact hcalm.processResults (Or.inl ⟨i, hpc⟩) h
  | resultsClear err => exact hcalm.processResults (Or.inr hpc) h
  | _ =>
      -- no task is started or goes on, and no error is looked for
      have honError := fun x => (loopStep_evolves h x).onError
      have hsame : s'.errors = s.errors ∧ s'.tasks = s.tasks ∧ s'.pc.inlineTasks = [] ∧
          s'.pc.Calm := by
        rw [Loop.loopStep, hpc] at h
        grind [LoopPc.Calm, LoopPc.inlineTasks, Loop.setHandler, Loop.setStatus,
          Loop.compareExchange]
      obtain ⟨herrors, htasks, hinline, hpc'⟩ := hsame
      refine hcalm.of_tasks honError (herrors.trans hcalm.errors) hpc' [] (by simp) ?_
      simp [hinline, htasks]

theorem Loop.Calm.submittedTask {answer : TaskAnswer} (hcalm : s.Calm)
    (h : s.Step (.task task answer) s')
    (hhandled : s.failsUnhandled task answer = false)
    (hcaught : s.onErrorFails task answer = false) : s'.Calm := by
  have honError := fun x => (h.evolves x).onError
  obtain ⟨hmem, s₁, task', htaskStep, hs'⟩ := h.of_task
  have htask : task.Calm s := hcalm.tasks task (List.mem_append_right _ hmem)
  have hcalm' := htask.taskStep htaskStep hhandled hcaught
  have herrors := taskStep_errors htaskStep
  have hpc := (taskStep_spec htaskStep).frame.pc
  rw [hcalm.errors, hcalm'.1] at herrors
  rw [hs'] at honError ⊢
  refine hcalm.of_tasks honError herrors (hpc ▸ hcalm.results) _ hcalm'.2 ?_
  intro next hnext
  simp only [hpc, List.mem_append] at hnext ⊢
  rcases hnext with hnext | hnext | hnext
  · exact Or.inr (Or.inl hnext)
  · exact Or.inl hnext
  · exact Or.inr (Or.inr (List.mem_of_mem_erase hnext))

theorem Loop.Calm.step (hcalm : s.Calm) (h : s.Step act s')
    (hhandled : ∀ p ∈ s.stepTask act, s.failsUnhandled p.1 p.2 = false)
    (hcaught : ∀ p ∈ s.stepTask act, s.onErrorFails p.1 p.2 = false) : s'.Calm := by
  have honError := fun x => (h.evolves x).onError
  cases h.outcome with
  | proceed _ hproceed =>
      obtain ⟨calls, pipe, raised, rfl⟩ := Loop.proceed_frame hproceed
      exact ⟨hcalm.errors, hcalm.tasks, hcalm.results⟩
  | task => exact hcalm.submittedTask h (hhandled _ rfl) (hcaught _ rfl)
  | loop hstep => exact hcalm.loopStep hstep hhandled hcaught
  | _ =>
      refine hcalm.of_tasks honError hcalm.errors hcalm.results [] (by simp) ?_
      exact List.Subset.refl _

theorem Loop.Calm.aborts (hcalm : s.Calm) : s.pc.aborts = false := by
  cases hpc : s.pc with
  | inlineTask task rest =>
      have htask : task.Calm s := hcalm.tasks task (by simp [LoopPc.inlineTasks, hpc])
      obtain ⟨handler, flags, phase⟩ := task
      cases phase with
      | finished err =>
          have herr : err = none := htask
          rw [herr]
          rfl
      | _ => rfl
  | resultsClear err =>
      have herr : err = none := by simpa [LoopPc.Calm, hpc] using hcalm.results
      rw [herr]
      rfl
  | _ => rfl

end Calm

/-! ## Runs -/

section Runs

variable {t t' : LoopTrace} {act : LoopAction} {hist : List LoopAction}

structure IsolationInv (t : LoopTrace) : Prop where
  failed : t.failed = []
  calm : t.onErrorFailed = false → t.loop.Calm ∧ t.aborted = false

theorem IsolationInv.of_init (h : t.Init) : IsolationInv t := by
  obtain ⟨⟨handler, _, hloop⟩, ht⟩ := h
  rw [hloop] at ht
  rw [ht]
  refine ⟨rfl, fun _ => ⟨⟨rfl, ?_, trivial⟩, rfl⟩⟩
  simp [loopNew, LoopPc.inlineTasks]

theorem IsolationInv.step (hinv : IsolationInv t) (h : t.Step act t')
    (hhandled : t.loop.FailuresHandled act) : IsolationInv t' := by
  obtain ⟨s, hs, rfl⟩ := Option.map_eq_some_iff.mp h
  constructor
  · have hnone : (t.loop.stepTask act).filter (fun p => t.loop.failsUnhandled p.1 p.2) = none := by
      rw [Option.filter_eq_none_iff]
      intro p hp
      rw [hhandled p hp]
      simp
    simp [hinv.failed, hnone]
  · intro hcaught
    obtain ⟨hcaught, hcaught'⟩ := Bool.or_eq_false_iff.mp hcaught
    obtain ⟨hcalm, haborted⟩ := hinv.calm hcaught
    refine ⟨hcalm.step hs hhandled fun p hp => ?_, ?_⟩
    · simpa [Option.mem_def.mp hp] using hcaught'
    · simp [haborted, hcalm.aborts]

/-- If no handler without an `on_error` fails, then the loop ends with an error of a handler only
if an `on_error` has failed. -/
theorem errorIsolation_of_run
    (hrun : Lts.Run LoopTrace.Init (fun t act t' => t.Step act t' ∧ t.loop.FailuresHandled act)
      hist t) : ErrorIsolation t := by
  have hinv : IsolationInv t :=
    Lts.Run.invariant (I := fun _ t => IsolationInv t) hrun (fun _ => IsolationInv.of_init)
      fun _ _ _ _ hinv hstep => hinv.step hstep.1 hstep.2
  constructor
  · intro haborted
    by_contra hcaught
    have hcalm := hinv.calm (by simpa using hcaught)
    rw [hcalm.2] at haborted
    simp at haborted
  · intro h hmem
    rw [hinv.failed] at hmem
    simp at hmem

/-- The loop itself unregisters no handler before it ends, whether the handler has failed or
not. -/
theorem not_errorIsolation_of_failed {h : ℕ}
    (hrun : Lts.Run LoopTrace.Init (fun t act t' =>
      t.Step act t' ∧ act ≠ .unregister h ∧ t.loop.pc.leaving = false) hist t)
    (hfailed : h ∈ t.failed) (hfinished : h ∉ t.loop.unfinished) : ¬ ErrorIsolation t := by
  have hstatus : (t.loop.handler h).status ≠ .unregistered := by
    refine Lts.Run.invariant (I := fun _ t => (t.loop.handler h).status ≠ .unregistered) hrun ?_ ?_
    · rintro t ⟨⟨handler, hfresh, hloop⟩, _⟩
      rw [hloop]
      by_cases hnotify : h = notifyId
      · simp [loopNew, hnotify, notifyHandler]
      · simp [loopNew, Function.update_of_ne hnotify, (hfresh h).1]
    · intro _ t act t' hstatus hall hstatus'
      obtain ⟨hstep, hact, hleave⟩ := hall
      rcases (hstep.spec.1.evolves h).registered hstatus' with hbefore | hcause | hcause
      · exact hstatus hbefore
      · exact hact hcause
      · simp [hleave] at hcause
  exact fun hisolation => hstatus (hisolation.unregistered h hfailed hfinished)

end Runs

/-- The `on_error` of the handler 1 fails as well, and the loop ends with its error. -/
theorem errorIsolation_onError_fails : ∃ hist t,
    Lts.Run LoopTrace.Init (fun t act t' => t.Step act t' ∧ t.loop.FailuresHandled act) hist t ∧
      t.aborted = true ∧ ErrorIsolation t := by
  let err : Error := .wrap "A handler's on_error method has returned an error"
    (.fromPosix "read(2) failed")
  obtain ⟨t, hrun, haborted⟩ := Lts.exists_run_guarded LoopTrace.step
    (fun t act => t.loop.FailuresHandled act)
    (failedTaskActs ++ [failedTaskStep (.pushing err)] ++ List.replicate 4 loopGoesOn)
    (fun t => t.aborted = true) (LoopTrace.init_fresh true) (by decide +kernel)
  exact ⟨_, t, hrun, haborted, errorIsolation_of_run hrun⟩

/-- The handler 1 has no `on_error`. When it has failed it is ready again, and then `loop_run`
returns its error, without any `on_error` having been called. -/
theorem not_errorIsolation_no_onError : ∃ hist t,
    Lts.Run LoopTrace.Init LoopTrace.Step hist t ∧ 1 ∈ t.failed ∧ 1 ∉ t.loop.unfinished ∧
      (t.loop.handler 1).status = .ready ∧ ¬ ErrorIsolation t ∧
      ∃ more t', Lts.Run LoopTrace.Init LoopTrace.Step (hist ++ more) t' ∧
        t'.loop.pc = .idle (some (some failedTaskError)) ∧ t'.onErrorFailed = false ∧
        ¬ ErrorIsolation t' := by
  have htest : ((Lts.execAll LoopTrace.step (.fresh false) (failedTaskActs ++
      [failedTaskStep (.pushing failedTaskError), failedTaskStep (.updating none)])).any fun t =>
      decide (1 ∈ t.failed ∧ 1 ∉ t.loop.unfinished ∧ (t.loop.handler 1).status = .ready) &&
        (Lts.execAll LoopTrace.step t (List.replicate 7 loopGoesOn)).any fun t' =>
          decide (t'.loop.pc = .idle (some (some failedTaskError)) ∧ t'.onErrorFailed = false ∧
            t'.aborted = true)) = true := by
    decide +kernel
  obtain ⟨t, ht, htest⟩ := (Option.any_eq_true _ _).mp htest
  obtain ⟨htest, htest'⟩ := (Bool.and_eq_true _ _).mp htest
  obtain ⟨hfailed, hfinished, hstatus⟩ := of_decide_eq_true htest
  obtain ⟨t', ht', htest'⟩ := (Option.any_eq_true _ _).mp htest'
  obtain ⟨hpc, honError, haborted⟩ := of_decide_eq_true htest'
  have hrun := Lts.Run.execAll (.start (LoopTrace.init_fresh false)) ht
  refine ⟨_, t, hrun, hfailed, hfinished, hstatus, fun hisolation => ?_, _, t', hrun.execAll ht',
    hpc, honError, fun hisolation => ?_⟩
  · rw [hisolation.unregistered 1 hfailed hfinished] at hstatus
    simp at hstatus
  · rw [hisolation.aborted haborted] at honError
    simp at honError

end PosixThreads
