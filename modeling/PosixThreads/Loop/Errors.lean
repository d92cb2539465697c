import Mathlib.Data.List.Induction
import PosixThreads.Loop.Dispatch

/-!
# Errors of handlers

A task pushes the error of its handler to `loop->errors` while it holds `pending_mtx`, and
`loop_process_task_results` reads the vector and clears it while it holds `error_mtx`. The two
do not exclude each other: an error that is pushed after the last one has been read and before
the vector is cleared is gone. So are errors that there is no memory to wrap or to combine. The
state of the loop is followed here together with what has been pushed, what the calls of
`loop_process_task_results` have read and returned, and which callbacks have failed.
-/

namespace PosixThreads

/-! ## What is observed of a step -/

def Loop.stepTask (s : Loop) : LoopAction → Option (LoopTask × TaskAnswer)
  | .task task answer => some (task, answer)
  | .loop answer =>
      match s.pc with
      | .inlineTask task _ => some (task, answer.task)
      | _ => none
  | _ => none

def Loop.processResult (s : Loop) (task : LoopTask) (answer : TaskAnswer) : Option Error :=
  match task.phase with
  | .processing =>
      if task.handler = notifyId then (s.notifyProcess task.flags).2 else answer.result
  | _ => none

def LoopTask.pushes (task : LoopTask) (answer : TaskAnswer) : List Error :=
  match task.phase with
  | .pushing err => if answer.pushed then [err] else []
  | _ => []

/-- An `on_error` has been called by the task and returns an error. -/
def Loop.onErrorFails (s : Loop) (task : LoopTask) (answer : TaskAnswer) : Bool :=
  match task.phase with
  | .failed _ => (s.handler task.handler).onError && answer.result.isSome
  | _ => false

/-- The handler of the task has no `on_error`, and its `process` returns an error. -/
def Loop.failsUnhandled (s : Loop) (task : LoopTask) (answer : TaskAnswer) : Bool :=
  !(s.handler task.handler).onError && (s.processResult task answer).isSome

def Loop.pushes (s : Loop) (act : LoopAction) : List Error :=
  ((s.stepTask act).map fun p => p.1.pushes p.2).getD []

/-- The loop thread leaves the loop with an error that it has got from a task. -/
def LoopPc.aborts : LoopPc → Bool
  | .inlineTask ⟨_, _, .finished (some _)⟩ _ => true
  | .resultsClear (some _) => true
  | _ => false

/-- The loop thread has read all errors and has not cleared the vector. -/
def LoopPc.clearing : LoopPc → Bool
  | .resultsClear _ => true
  | _ => false

/-- A loop and what has happened to it. `pushed` are the errors that tasks have pushed, `taken`
those that the current call of `loop_process_task_results` has read, and `returned` has for
each call that has returned what it has read and its result. `failed` are the handlers without
`on_error` whose `process` has failed. -/
structure LoopTrace where
  loop : Loop
  pushed : List Error
  taken : List Error
  returned : List (List Error × Option Error)
  failed : List ℕ
  onErrorFailed : Bool
  aborted : Bool

/-- The errors that `loop_process_task_results` reads and returns in a step of the loop thread. -/
def LoopTrace.read (t : LoopTrace) : LoopAction → List Error × List (List Error × Option Error)
  | .loop _ =>
      match t.loop.pc with
      | .results i _ => (t.taken ++ t.loop.errors[i]?.toList, t.returned)
      | .resultsClear err => ([], t.returned ++ [(t.taken, err)])
      | _ => (t.taken, t.returned)
  | _ => (t.taken, t.returned)

def LoopAction.ofLoop : LoopAction → Bool
  | .loop _ => true
  | _ => false

def LoopTrace.step (t : LoopTrace) (act : LoopAction) : Option LoopTrace :=
  (t.loop.step act).map fun s =>
    { loop := s
      pushed := t.pushed ++ t.loop.pushes act
      taken := (t.read act).1
      returned := (t.read act).2
      failed := t.failed ++
        ((t.loop.stepTask act).filter fun p => t.loop.failsUnhandled p.1 p.2).toList.map
          fun p => p.1.handler
      onErrorFailed := t.onErrorFailed ||
        (t.loop.stepTask act).any fun p => t.loop.onErrorFails p.1 p.2
      aborted := t.aborted || (act.ofLoop && t.loop.pc.aborts) }

def LoopTrace.Init (t : LoopTrace) : Prop :=
  t.loop.Init ∧ t = ⟨t.loop, [], [], [], [], false, false⟩

def LoopTrace.Step (t : LoopTrace) (act : LoopAction) (t' : LoopTrace) : Prop :=
  t.step act = some t'

/-! ## The steps of a task -/

section Tasks

variable {s s' : Loop} {task : LoopTask} {task' : Option LoopTask} {answer : TaskAnswer}

theorem Loop.compareExchange_errors (s : Loop) (h : ℕ) (expected desired : HandlerStatus) :
    (s.compareExchange h expected desired).errors = s.errors := by
  rw [Loop.compareExchange]
  split <;> rfl

theorem taskStep_errors (h : s.taskStep task answer = some (s', task')) :
    s'.errors = s.errors ++ task.pushes answer := by
  cases hphase : task.phase with
  | pushing err =>
      simp only [Loop.taskStep, hphase] at h
      split at h
      · simp at h
      · split at h <;>
        · rename_i hpushed
          obtain ⟨rfl, rfl⟩ := Prod.mk.inj (Option.some.inj h)
          simp [LoopTask.pushes, hphase, hpushed]
  | updating err =>
      simp only [Loop.taskStep, hphase, Option.some.injEq, Prod.mk.injEq] at h
      obtain ⟨rfl, rfl⟩ := h
      simp [LoopTask.pushes, hphase, Loop.compareExchange_errors]
  | finished err =>
      have hout := taskStep_spec h
      cases hout with
      | running hphase' | updated hphase' => simp [LoopTask.isFinished, hphase] at hphase'
      | returned _ hs =>
          split at hs
          · simp [LoopTask.pushes, hphase, hs]
          · obtain ⟨pipe, rfl, _⟩ := Loop.notifyPost_spec hs
            simp [LoopTask.pushes, hphase]
  | processing =>
      obtain ⟨pipe, hpipe⟩ := s.notifyProcess_spec task.flags
      simp only [Loop.taskStep, hphase] at h
      split at h <;>
      · split at h <;>
        · obtain ⟨rfl, rfl⟩ := Prod.mk.inj (Option.some.inj h)
          simp [LoopTask.pushes, hphase, hpipe]
  | _ => 
      rw [Loop.taskStep, hphase] at h
      have hs : s' = s := by grind
      simp [LoopTask.pushes, hphase, hs]

end Tasks

section Steps

variable {s s' : Loop} {act : LoopAction} {answer : LoopAnswer}

theorem Loop.Step.of_task {task : LoopTask} {answer : TaskAnswer}
    (h : s.Step (.task task answer) s') : task ∈ s.tasks ∧
      ∃ s₁ task', s.taskStep task answer = some (s₁, task') ∧
        s' = { s₁ with tasks := task'.toList ++ s.tasks.erase task } := by
  simp only [Loop.Step, Loop.step] at h
  split at h
  · split at h
    · simp at h
    · rename_i s₁ task' htask
      exact ⟨‹_›, s₁, task', htask, (Option.some.inj h).symm⟩
  · simp at h

/-- A task leaves the other fields to the loop thread. -/
theorem Loop.Step.pc_of_not_ofLoop (h : s.Step act s') (hact : act.ofLoop = false) :
    s'.pc = s.pc := by
  cases h.outcome with
  | proceed _ hproceed =>
      obtain ⟨calls, pipe, raised, rfl⟩ := Loop.proceed_frame hproceed
      rfl
  | task _ hout => exact hout.frame.pc
  | loop => simp [LoopAction.ofLoop] at hact
  | _ => rfl

/-- The handlers in the list and the entries of the vectors belong to the loop thread. -/
theorem Loop.Step.lists_of_not_ofLoop (h : s.Step act s') (hact : act.ofLoop = false) :
    s'.handlers = s.handlers ∧ s'.pollMeta = s.pollMeta := by
  cases h.outcome with
  | proceed _ hproceed =>
      obtain ⟨calls, pipe, raised, rfl⟩ := Loop.proceed_frame hproceed
      exact ⟨rfl, rfl⟩
  | task _ hout => exact ⟨hout.frame.handlers, hout.frame.pollMeta⟩
  | loop => simp [LoopAction.ofLoop] at hact
  | _ => exact ⟨rfl, rfl⟩

theorem Loop.Step.errors_of_not_clearing (h : s.Step act s')
    (hclearing : act.ofLoop = true → s.pc.clearing = false) :
    s'.errors = s.errors ++ s.pushes act := by
  cases h.outcome with
  | proceed _ hproceed =>
      obtain ⟨calls, pipe, raised, rfl⟩ := Loop.proceed_frame hproceed
      simp [Loop.pushes, Loop.stepTask]
  | task =>
      obtain ⟨_, s₁, task', htask, hs'⟩ := h.of_task
      rw [congrArg Loop.errors hs']
      simpa [Loop.pushes, Loop.stepTask] using taskStep_errors htask
  | loop hstep =>
      have hpc' := hclearing rfl
      cases hpc : s.pc with
      | inlineTask task rest =>
          simp only [Loop.loopStep, hpc] at hstep
          split at hstep
          · simp at hstep
          · rename_i s₁ task₁ htask
            rw [← Option.some.inj hstep]
            simpa [Loop.pushes, Loop.stepTask, hpc] using taskStep_errors htask
          · rename_i s₁ htask
            split at hstep <;>
            · rw [← Option.some.inj hstep]
              simpa [Loop.pushes, Loop.stepTask, hpc] using taskStep_errors htask
      | resultsClear err => simp [hpc, LoopPc.clearing] at hpc'
      | dispatch entry rest =>
          simp only [Loop.loopStep, hpc, Option.some.injEq] at hstep
          rw [← hstep]
          simp [Loop.pushes, Loop.stepTask, hpc, Loop.compareExchange_errors]
      | _ =>
          -- the other steps of the loop thread leave the vector alone
          have herrors : s'.errors = s.errors := by
            rw [Loop.loopStep, hpc] at hstep
            grind [Loop.setHandler, Loop.setStatus]
          simp [Loop.pushes, Loop.stepTask, hpc, herrors]
  | _ => simp [Loop.pushes, Loop.stepTask, Loop.loopRegister, Loop.setHandler, Loop.setStatus]

end Steps

/-! ## The results of the tasks -/

/-- The error that `loop_process_task_results` makes of the errors that it reads. -/
def resultsError (errors : List Error) : Option Error :=
  errors.zipIdx.foldl (fun err p =>
    errorCombine err
      (some (if 0 < p.2 then .wrap "Another handler has failed" p.1 else p.1))) none

inductive Error.PartOf (part : Error) : Error → Prop
  | self : PartOf part part
  | wrap {str : String} {err : Error} (h : PartOf part err) : PartOf part (.wrap str err)
  | primary {err err' : Error} (h : PartOf part err) : PartOf part (.combined err err')
  | secondary {err err' : Error} (h : PartOf part err') : PartOf part (.combined err err')

/-- Every error that a task has pushed is still in the vector, or it has been read by exactly
one call of `loop_process_task_results`, and is a part of what the call has returned. -/
structure ErrorsKept (t : LoopTrace) : Prop where
  kept : t.pushed = (t.returned.map Prod.fst).flatten ++ t.loop.errors
  part : ∀ call ∈ t.returned, ∀ err ∈ call.1, ∃ result, call.2 = some result ∧ err.PartOf result

/-- No error is pushed after the last one has been read and before the vector is cleared. -/
def Loop.PushesInTime (s : Loop) (act : LoopAction) : Prop :=
  s.pc.clearing = true → s.pushes act = []

instance (s : Loop) (act : LoopAction) : Decidable (s.PushesInTime act) :=
  inferInstanceAs (Decidable (_ → _))

/-- There is memory for what is made of an error behind the first one. -/
def Loop.merges (s : Loop) : LoopAction → Bool
  | .loop answer =>
      match s.pc with
      | .results (i + 1) _ =>
          s.errors.length ≤ i + 1 || (answer.memory.wrap && answer.memory.combine)
      | _ => true
  | _ => true

def Loop.KeepsErrors (s : Loop) (act : LoopAction) : Prop :=
  s.PushesInTime act ∧ s.merges act = true

instance (s : Loop) (act : LoopAction) : Decidable (s.KeepsErrors act) :=
  inferInstanceAs (Decidable (_ ∧ _))

/-- What `loop_process_task_results` has read so far, where the loop thread is in it. -/
def LoopPc.Reads (errors taken : List Error) : LoopPc → Prop
  | .results i err => i ≤ errors.length ∧ taken = errors.take i ∧ err = resultsError taken
  | .resultsClear err => taken = errors ∧ err = resultsError taken
  | _ => taken = []

@[simp] theorem resultsError_nil : resultsError [] = none := rfl

theorem resultsError_append_singleton (errors : List Error) (err : Error) :
    resultsError (errors ++ [err]) = errorCombine (resultsError errors)
      (some (if 0 < errors.length then .wrap "Another handler has failed" err else err)) := by
  simp [resultsError, List.zipIdx_append]

theorem partOf_resultsError {errors : List Error} {err : Error} (h : err ∈ errors) :
    ∃ result, resultsError errors = some result ∧ err.PartOf result := by
  induction errors using List.reverseRecOn with
  | nil => simp at h
  | append_singleton errors last ih =>
      rw [resultsError_append_singleton]
      rcases List.mem_append.mp h with h | h
      · obtain ⟨result, hresult, hpart⟩ := ih h
        rw [hresult]
        exact ⟨_, rfl, .primary hpart⟩
      · rw [List.mem_singleton.mp h]
        have hlast : last.PartOf
            (if 0 < errors.length then .wrap "Another handler has failed" last else last) := by
          split
          · exact .wrap .self
          · exact .self
        cases resultsError errors with
        | none => exact ⟨_, rfl, hlast⟩
        | some primary => exact ⟨_, rfl, .secondary hlast⟩

theorem errorCombine_resultsError {errors : List Error} (err : Error) {memory : ErrorMemory}
    (hmemory : 0 < errors.length → memory.wrap = true ∧ memory.combine = true) :
    errorCombine (resultsError errors)
        (some (if 0 < errors.length then
          errorFromCstr "Another handler has failed" (some err) memory.wrap else err))
        memory.combine =
      resultsError (errors ++ [err]) := by
  rw [resultsError_append_singleton]
  by_cases hlength : 0 < errors.length
  · obtain ⟨hwrap, hcombine⟩ := hmemory hlength
    rw [if_pos hlength, if_pos hlength, hwrap, hcombine, errorFromCstr_some]
  · obtain rfl : errors = [] := List.eq_nil_of_length_eq_zero (by omega)
    rfl

theorem LoopPc.Reads.append {errors taken new : List Error} {pc : LoopPc}
    (h : pc.Reads errors taken) (hnew : pc.clearing = true → new = []) :
    pc.Reads (errors ++ new) taken := by
  cases pc with
  | results i err =>
      obtain ⟨hi, htaken, herr⟩ := h
      refine ⟨?_, ?_, herr⟩
      · rw [List.length_append]
        exact Nat.le_add_right_of_le hi
      · rw [List.take_append_of_le_length hi]
        exact htaken
  | resultsClear err =>
      rw [hnew rfl, List.append_nil]
      exact h
  | _ => exact h

theorem Loop.Step.clear {s s' : Loop} {answer : LoopAnswer} {err : Option Error}
    (h : s.Step (.loop answer) s') (hpc : s.pc = .resultsClear err) :
    s'.errors = [] ∧ s'.pc.Reads [] [] := by
  cases err <;>
  · simp only [Loop.Step, Loop.step, Loop.loopStep, hpc, Option.some.injEq] at h
    rw [← h]
    exact ⟨rfl, rfl⟩

section Results

variable {t t' : LoopTrace} {act : LoopAction} {hist : List LoopAction}

structure ErrorsInv (t : LoopTrace) : Prop where
  kept : t.pushed = (t.returned.map Prod.fst).flatten ++ t.loop.errors
  reads : t.loop.pc.Reads t.loop.errors t.taken
  result : ∀ call ∈ t.returned, call.2 = resultsError call.1

theorem LoopTrace.Step.spec (h : t.Step act t') : t.loop.Step act t'.loop ∧
    t'.pushed = t.pushed ++ t.loop.pushes act ∧ t'.taken = (t.read act).1 ∧
    t'.returned = (t.read act).2 := by
  obtain ⟨s, hs, rfl⟩ := Option.map_eq_some_iff.mp h
  exact ⟨hs, rfl, rfl, rfl⟩

theorem LoopTrace.read_of_not_ofLoop (t : LoopTrace) (hact : act.ofLoop = false) :
    t.read act = (t.taken, t.returned) := by
  cases act with
  | loop => simp [LoopAction.ofLoop] at hact
  | _ => rfl

/-- A step of another thread, or of the loop thread before or after
`loop_process_task_results`. -/
theorem ErrorsInv.other (hinv : ErrorsInv t) (h : t.Step act t')
    (hclearing : act.ofLoop = true → t.loop.pc.clearing = false)
    (hread : t.read act = (t.taken, t.returned))
    (hreads : t'.loop.pc.Reads t'.loop.errors t.taken) : ErrorsInv t' := by
  obtain ⟨hloop, hpushed, htaken, hreturned⟩ := h.spec
  rw [hread] at htaken hreturned
  constructor
  · rw [hpushed, hreturned, hinv.kept, hloop.errors_of_not_clearing hclearing,
      List.append_assoc]
  · rw [htaken]
    exact hreads
  · rw [hreturned]
    exact hinv.result

theorem ErrorsInv.results {answer : LoopAnswer} {i : ℕ} {err : Option Error} (hinv : ErrorsInv t)
    (h : t.Step (.loop answer) t') (hpc : t.loop.pc = .results i err)
    (hmerges : t.loop.merges (.loop answer) = true) : ErrorsInv t' := by
  obtain ⟨hloop, hpushed, htaken, hreturned⟩ := h.spec
  have hreads := hinv.reads
  rw [hpc] at hreads
  obtain ⟨hi, htaken', herr⟩ := hreads
  have hpushes : t.loop.pushes (.loop answer) = [] := by
    simp [Loop.pushes, Loop.stepTask, hpc]
  simp only [LoopTrace.read, hpc] at htaken hreturned
  simp only [Loop.Step, Loop.step, Loop.loopStep, hpc] at hloop
  rw [hpushes, List.append_nil] at hpushed
  split at hloop
  · rename_i taskErr hget
    rw [hget] at htaken
    obtain ⟨hlt, hget'⟩ := List.getElem?_eq_some_iff.mp hget
    have htake : t'.taken = t.loop.errors.take (i + 1) := by
      rw [htaken, htaken', List.take_add_one, hget]
    have hlength : t.taken.length = i := by
      rw [htaken', List.length_take, Nat.min_eq_left hi]
    refine ⟨?_, ?_, ?_⟩
    · rw [hpushed, hreturned, ← Option.some.inj hloop]
      exact hinv.kept
    · rw [← Option.some.inj hloop]
      have hmemory : 0 < t.taken.length →
          answer.memory.wrap = true ∧ answer.memory.combine = true := by
        rw [hlength]
        intro hpos
        obtain ⟨j, rfl⟩ := Nat.exists_eq_succ_of_ne_zero (Nat.ne_of_gt hpos)
        rw [Loop.merges, hpc] at hmerges
        simpa [Nat.not_le.mpr hlt] using hmerges
      have hcombined := errorCombine_resultsError taskErr hmemory
      rw [hlength, ← herr] at hcombined
      refine ⟨hlt, htake, ?_⟩
      rw [htaken, Option.toList_some, ← hcombined]
    · rw [hreturned]
      exact hinv.result
  · rename_i hget
    have hlength := List.getElem?_eq_none_iff.mp hget
    rw [hget, Option.toList_none, List.append_nil] at htaken
    refine ⟨?_, ?_, ?_⟩
    · rw [hpushed, hreturned, ← Option.some.inj hloop]
      exact hinv.kept
    · rw [htaken, ← Option.some.inj hloop]
      refine ⟨?_, herr⟩
      rw [htaken', List.take_of_length_le hlength]
    · rw [hreturned]
      exact hinv.result

theorem ErrorsInv.clear {answer : LoopAnswer} {err : Option Error} (hinv : ErrorsInv t)
    (h : t.Step (.loop answer) t') (hpc : t.loop.pc = .resultsClear err) : ErrorsInv t' := by
  obtain ⟨hloop, hpushed, htaken, hreturned⟩ := h.spec
  have hreads := hinv.reads
  rw [hpc] at hreads
  obtain ⟨htaken', herr⟩ := hreads
  have hpushes : t.loop.pushes (.loop answer) = [] := by
    simp [Loop.pushes, Loop.stepTask, hpc]
  have hclear := hloop.clear hpc
  simp only [LoopTrace.read, hpc] at htaken hreturned
  constructor
  · rw [hpushed, hpushes, hreturned, hclear.1, hinv.kept]
    simp [htaken']
  · rw [hclear.1, htaken]
    exact hclear.2
  · rw [hreturned]
    intro call hcall
    rcases List.mem_append.mp hcall with hcall | hcall
    · exact hinv.result call hcall
    · rw [List.mem_singleton.mp hcall]
      exact herr

theorem ErrorsInv.step (hinv : ErrorsInv t) (h : t.Step act t')
    (hkeeps : t.loop.KeepsErrors act) : ErrorsInv t' := by
  by_cases hact : act.ofLoop = true
  · cases act with
    | loop answer =>
        cases hpc : t.loop.pc with
        | results i err => exact hinv.results h hpc hkeeps.2
        | resultsClear err => exact hinv.clear h hpc
        | _ =>
            -- `loop_process_task_results` has not been called, or it is called now
            have htaken : t.taken = [] := by simpa [LoopPc.Reads, hpc] using hinv.reads
            have hreads : t'.loop.pc.Reads t'.loop.errors [] := by
              have hloop : t.loop.loopStep answer = some t'.loop := h.spec.1
              rw [Loop.loopStep, hpc] at hloop
              grind [LoopPc.Reads, resultsError_nil]
            refine hinv.other h (fun _ => by simp [hpc, LoopPc.clearing]) ?_ ?_
            · simp [LoopTrace.read, hpc]
            · rw [htaken]
              exact hreads
    | _ => simp [LoopAction.ofLoop] at hact
  · have hact' : act.ofLoop = false := by simpa using hact
    refine hinv.other h (fun h => absurd h hact) (t.read_of_not_ofLoop hact') ?_
    rw [h.spec.1.pc_of_not_ofLoop hact', h.spec.1.errors_of_not_clearing fun h => absurd h hact]
    exact hinv.reads.append hkeeps.1

theorem ErrorsInv.of_init (h : t.Init) : ErrorsInv t := by
  obtain ⟨⟨handler, _, hloop⟩, ht⟩ := h
  rw [hloop] at ht
  rw [ht]
  exact ⟨rfl, rfl, by simp⟩

/-- If no error is pushed in front of the clear, and there is memory for what is made of the
errors, then none is lost. -/
theorem errorsKept_of_run
    (hrun : Lts.Run LoopTrace.Init (fun t act t' => t.Step act t' ∧ t.loop.KeepsErrors act)
      hist t) : ErrorsKept t := by
  have hinv : ErrorsInv t :=
    Lts.Run.invariant (I := fun _ t => ErrorsInv t) hrun (fun _ => ErrorsInv.of_init)
      fun _ _ _ _ hinv hstep => hinv.step hstep.1 hstep.2
  refine ⟨hinv.kept, fun call hcall err herr => ?_⟩
  rw [hinv.result call hcall]
  exact partOf_resultsError herr

/-- An error that is pushed in front of the clear is lost with it. -/
theorem ErrorsInv.lost {t'' : LoopTrace} {answer : LoopAnswer} (hinv : ErrorsInv t)
    (hpush : t.Step act t') (hlate : ¬ t.loop.PushesInTime act)
    (hclear : t'.Step (.loop answer) t'') : ¬ ErrorsKept t'' := by
  obtain ⟨hclearing, hnew⟩ := Classical.not_imp.mp hlate
  cases hpc : t.loop.pc with
  | resultsClear err =>
      have hact : act.ofLoop = false := by
        cases act with
        | loop => simp [Loop.pushes, Loop.stepTask, hpc] at hnew
        | _ => rfl
      have hread := t.read_of_not_ofLoop hact
      obtain ⟨hloop, hpushed, htaken, hreturned⟩ := hpush.spec
      have hpc' := (hloop.pc_of_not_ofLoop hact).trans hpc
      obtain ⟨hloop', hpushed', _, hreturned'⟩ := hclear.spec
      have hreads := hinv.reads
      rw [hpc] at hreads
      intro hkept
      have heq := hkept.kept
      simp only [LoopTrace.read, hpc', Loop.pushes, Loop.stepTask, Option.map_none,
        Option.getD_none, List.append_nil] at hpushed' hreturned'
      rw [hpushed', hpushed, hinv.kept, hreturned', hreturned, htaken, hread, hreads.1,
        (hloop'.clear hpc').1] at heq
      simp [hnew] at heq
  | _ => simp [hpc, LoopPc.clearing] at hclearing

end Results

/-- A new loop whose handlers all have an `on_error`, or none of them has. -/
def LoopTrace.fresh (onError : Bool) : LoopTrace :=
  ⟨loopNew fun _ => { notifyHandler with onError := onError }, [], [], [], [], false, false⟩

theorem LoopTrace.init_fresh (onError : Bool) : (LoopTrace.fresh onError).Init :=
  ⟨⟨_, fun _ => ⟨rfl, rfl⟩, rfl⟩, rfl⟩

def loopGoesOn : LoopAction :=
  .loop ⟨true, true, some [.empty, .empty], ⟨true, true⟩, ⟨none, true, true, ⟨true, true⟩⟩⟩

def failedTaskError : Error :=
  .wrap "A handler has returned an error" (.fromPosix "read(2) failed")

def failedTaskStep (phase : TaskPhase) (handler : ℕ := 1) : LoopAction :=
  .task ⟨handler, .empty, phase⟩ ⟨some (.fromPosix "read(2) failed"), true, true, ⟨true, true⟩⟩

/-- The loop submits the task of the handler 1, whose `process` fails. -/
def failedTaskActs : List LoopAction :=
  [.register 1, .force 1] ++ List.replicate 21 loopGoesOn ++
    [failedTaskStep .submitted, failedTaskStep .processing,
      failedTaskStep (.failed (.fromPosix "read(2) failed"))]

/-- The error is pushed before the loop thread looks at the vector, and it is returned. -/
theorem errorsKept_pushed_in_time : ∃ t,
    Lts.Run LoopTrace.Init (fun t act t' => t.Step act t' ∧ t.loop.KeepsErrors act)
      (failedTaskActs ++ [failedTaskStep (.pushing failedTaskError)] ++
        List.replicate 4 loopGoesOn) t ∧
      t.pushed = [failedTaskError] ∧ t.returned = [([failedTaskError], some failedTaskError)] ∧
      ErrorsKept t := by
  obtain ⟨t, hrun, hpushed, hreturned⟩ := Lts.exists_run_guarded LoopTrace.step
    (fun t act => t.loop.KeepsErrors act)
    (failedTaskActs ++ [failedTaskStep (.pushing failedTaskError)] ++
      List.replicate 4 loopGoesOn)
    (fun t => t.pushed = [failedTaskError] ∧
      t.returned = [([failedTaskError], some failedTaskError)])
    (LoopTrace.init_fresh false) (by decide +kernel)
  exact ⟨t, hrun, hpushed, hreturned, errorsKept_of_run hrun⟩

/-- The error is pushed in front of the clear. Nothing is left of it, and the call of
`loop_process_task_results` has returned no error. -/
theorem not_errorsKept_pushed_before_clear : ∃ hist t,
    Lts.Run LoopTrace.Init LoopTrace.Step hist t ∧ t.pushed = [failedTaskError] ∧
      t.loop.errors = [] ∧ t.returned = [([], none)] ∧ ¬ ErrorsKept t := by
  obtain ⟨t, hrun, hpushed, herrors, hreturned⟩ := Lts.exists_run LoopTrace.step
    (failedTaskActs ++
      [loopGoesOn, loopGoesOn, failedTaskStep (.pushing failedTaskError), loopGoesOn])
    (fun t => t.pushed = [failedTaskError] ∧ t.loop.errors = [] ∧ t.returned = [([], none)])
    (LoopTrace.init_fresh false) (by decide +kernel)
  refine ⟨_, t, hrun, hpushed, herrors, hreturned, fun hkept => ?_⟩
  have hempty := hkept.kept
  rw [hpushed, hreturned, herrors] at hempty
  simp at hempty

/-- The tasks of the handlers 1 and 2 fail, and there is no memory to combine their errors. -/
def uncombinedActs : List LoopAction :=
  let goesOn (memory : ErrorMemory) : LoopAction :=
    .loop ⟨true, true, some [.empty, .empty, .empty], memory, ⟨none, true, true, ⟨true, true⟩⟩⟩
  [.register 1, .register 2, .force 1, .force 2] ++ List.replicate 29 (goesOn ⟨true, true⟩) ++
    [1, 2].flatMap (fun handler => [.submitted, .processing,
      .failed (.fromPosix "read(2) failed"), .pushing failedTaskError].map
        fun phase => failedTaskStep phase handler) ++
    List.replicate 2 (goesOn ⟨true, true⟩) ++ List.replicate 3 (goesOn ⟨true, false⟩)

theorem not_errorsKept_uncombined : ∃ t,
    Lts.Run LoopTrace.Init LoopTrace.Step uncombinedActs t ∧
      t.returned = [([failedTaskError, failedTaskError], some .sentinel)] ∧ ¬ ErrorsKept t := by
  obtain ⟨t, hrun, hreturned⟩ := Lts.exists_run LoopTrace.step uncombinedActs
    (fun t => t.returned = [([failedTaskError, failedTaskError], some .sentinel)])
    (LoopTrace.init_fresh false) (by decide +kernel)
  refine ⟨t, hrun, hreturned, fun hkept => ?_⟩
  have hmem : ([failedTaskError, failedTaskError], some Error.sentinel) ∈ t.returned := by
    rw [hreturned]
    exact List.mem_singleton_self _
  obtain ⟨result, hresult, hpart⟩ := hkept.part _ hmem failedTaskError List.mem_cons_self
  cases hresult
  cases hpart

end PosixThreads
