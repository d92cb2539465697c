import Mathlib.Data.List.Nodup
import Mathlib.Logic.Relation
import PosixThreads.Library.Lts
import PosixThreads.Loop.Basic

/-!
# Tasks of a handler

The loop submits a task for a handler that was ready when it was put into the set to be
polled. It marks the handler as queued before that, and the task makes it ready again at its
end, unless it has been unregistered in the meantime. So a handler has at most one task that
has not got to this point, whatever other threads do to its status.
-/

namespace PosixThreads

/-! ## Handlers and their tasks -/

def LoopTask.isFinished (task : LoopTask) : Bool :=
  match task.phase with
  | .finished _ => true
  | _ => false

/-- The handlers of the tasks that have not updated the status. -/
def unfinishedOf (tasks : List LoopTask) : List ℕ :=
  (tasks.filter fun task => !task.isFinished).map LoopTask.handler

def LoopPc.inlineTasks : LoopPc → List LoopTask
  | .inlineTask task _ => [task]
  | _ => []

/-- The tasks that have been submitted and not finished, by their handlers. -/
def Loop.unfinished (s : Loop) : List ℕ := unfinishedOf (s.pc.inlineTasks ++ s.tasks)

/-- The handlers that the loop may yet submit a task for in this iteration. -/
def Loop.chosen (s : Loop) : List ℕ :=
  match s.pc with
  | .preparing _ _ _ => s.pollMeta.map PollMeta.handler
  | .prepareFlags h _ _ _ => s.pollMeta.map PollMeta.handler ++ [h]
  | .prepareForce h _ _ _ _ => s.pollMeta.map PollMeta.handler ++ [h]
  | .poll _ => s.pollMeta.map PollMeta.handler
  | .submit rest => rest.map PollMeta.handler
  | .dispatch entry rest => entry.handler :: rest.map PollMeta.handler
  | .dispatchSubmit entry rest => entry.handler :: rest.map PollMeta.handler
  | .inlineTask _ rest => rest.map PollMeta.handler
  | _ => []

/-- The handlers that `loop_prepare_pollfd` has yet to look at. -/
def LoopPc.upcoming : LoopPc → List ℕ
  | .preparing rest _ _ => rest
  | .prepareFlags _ rest _ _ => rest
  | .prepareForce _ _ rest _ _ => rest
  | _ => []

/-- The handlers that have yet to be taken from `pending_handlers`. -/
def Loop.waiting (s : Loop) : List ℕ :=
  match s.pc with
  | .registering rest _ => rest
  | _ => s.pendingHandlers

@[simp] theorem unfinishedOf_nil : unfinishedOf [] = [] := rfl

theorem unfinishedOf_append (tasks tasks' : List LoopTask) :
    unfinishedOf (tasks ++ tasks') = unfinishedOf tasks ++ unfinishedOf tasks' := by
  simp [unfinishedOf]

theorem unfinishedOf_singleton (task : LoopTask) :
    unfinishedOf [task] = if task.isFinished then [] else [task.handler] := by
  cases h : task.isFinished <;> simp [unfinishedOf, h]

theorem unfinishedOf_perm {tasks tasks' : List LoopTask} (h : tasks.Perm tasks') :
    (unfinishedOf tasks).Perm (unfinishedOf tasks') :=
  (h.filter _).map _

inductive TaskOutcome (s : Loop) (task : LoopTask) (written : Bool) : Loop → Option LoopTask → Prop
  | running {s' : Loop} {task' : LoopTask} (hphase : task.isFinished = false)
      (hs : s' = s ∨ (∃ errors, s' = { s with errors := errors }) ∨
        task.handler = notifyId ∧ s' = (s.notifyProcess task.flags).1)
      (hhandler : task'.handler = task.handler) (hphase' : task'.isFinished = false) :
      TaskOutcome s task written s' (some task')
  | updated {task' : LoopTask} (hphase : task.isFinished = false)
      (hhandler : task'.handler = task.handler) (hphase' : task'.isFinished = true) :
      TaskOutcome s task written (s.compareExchange task.handler .queued .ready) (some task')
  | returned {s' : Loop} (hphase : task.isFinished = true)
      (hs : if task.handler = notifyId then s' = s else s.notifyPost written = some s') :
      TaskOutcome s task written s' none

theorem taskStep_spec {s s' : Loop} {task : LoopTask} {task' : Option LoopTask}
    {answer : TaskAnswer} (h : s.taskStep task answer = some (s', task')) :
    TaskOutcome s task answer.written s' task' := by
  cases hphase : task.phase with
  | submitted =>
      simp only [Loop.taskStep, hphase, Option.some.injEq, Prod.mk.injEq] at h
      obtain ⟨rfl, rfl⟩ := h
      exact .running (by simp [LoopTask.isFinished, hphase]) (Or.inl rfl) rfl rfl
  | processing =>
      have hrunning : task.isFinished = false := by simp [LoopTask.isFinished, hphase]
      by_cases hnotify : task.handler = notifyId
      · simp only [Loop.taskStep, hphase, if_pos hnotify] at h
        split at h <;>
        · obtain ⟨rfl, rfl⟩ := Prod.mk.inj (Option.some.inj h)
          exact .running hrunning (Or.inr (Or.inr ⟨hnotify, rfl⟩)) rfl rfl
      · simp only [Loop.taskStep, hphase, if_neg hnotify] at h
        split at h <;>
        · obtain ⟨rfl, rfl⟩ := Prod.mk.inj (Option.some.inj h)
          exact .running hrunning (Or.inl rfl) rfl rfl
  | failed err =>
      have hrunning : task.isFinished = false := by simp [LoopTask.isFinished, hphase]
      simp only [Loop.taskStep, hphase] at h
      split at h
      · split at h <;>
        · obtain ⟨rfl, rfl⟩ := Prod.mk.inj (Option.some.inj h)
          exact .running hrunning (Or.inl rfl) rfl rfl
      · obtain ⟨rfl, rfl⟩ := Prod.mk.inj (Option.some.inj h)
        exact .running hrunning (Or.inl rfl) rfl rfl
  | pushing err =>
      have hrunning : task.isFinished = false := by simp [LoopTask.isFinished, hphase]
      simp only [Loop.taskStep, hphase] at h
      split at h
      · simp at h
      · split at h
        · obtain ⟨rfl, rfl⟩ := Prod.mk.inj (Option.some.inj h)
          exact .running hrunning (Or.inr (Or.inl ⟨_, rfl⟩)) rfl rfl
        · obtain ⟨rfl, rfl⟩ := Prod.mk.inj (Option.some.inj h)
          exact .running hrunning (Or.inl rfl) rfl rfl
  | updating err =>
      simp only [Loop.taskStep, hphase, Option.some.injEq, Prod.mk.injEq] at h
      obtain ⟨rfl, rfl⟩ := h
      exact .updated (by simp [LoopTask.isFinished, hphase]) rfl rfl
  | finished err =>
      have hfinished : task.isFinished = true := by simp [LoopTask.isFinished, hphase]
      by_cases hnotify : task.handler = notifyId
      · simp only [Loop.taskStep, hphase, if_pos hnotify] at h
        obtain ⟨rfl, rfl⟩ := Prod.mk.inj (Option.some.inj h)
        exact .returned hfinished (by rw [if_pos hnotify])
      · simp only [Loop.taskStep, hphase, if_neg hnotify, Option.map_eq_some_iff] at h
        obtain ⟨s₁, hpost, h⟩ := h
        obtain ⟨rfl, rfl⟩ := Prod.mk.inj h
        exact .returned hfinished (by rwa [if_neg hnotify])

inductive LoopOutcome (s : Loop) : LoopAction → Loop → Prop
  | register {h : ℕ} (hne : h ≠ notifyId) (hloop : (s.handler h).loop = false)
      (hpending : s.pc.holdsPending = false) : LoopOutcome s (.register h) (s.loopRegister h)
  | unregister {h : ℕ} (hne : h ≠ notifyId) :
      LoopOutcome s (.unregister h) (s.setStatus h .unregistered)
  | force {h : ℕ} (hne : h ≠ notifyId) :
      LoopOutcome s (.force h) { s.setHandler h { s.handler h with force := true } with
        calls := .forced h :: s.calls }
  | setPendingMask {h : ℕ} {flags : PollFlags} (hne : h ≠ notifyId) :
      LoopOutcome s (.setPendingMask h flags)
        (s.setHandler h { s.handler h with pendingFlags := flags })
  | stop : LoopOutcome s .stop { s with stopped := true, calls := .wakeup :: s.calls }
  | proceed {call : PendingCall} {written : Bool} {s' : Loop} (hcall : call ∈ s.calls)
      (hproceed : ({ s with calls := s.calls.erase call } : Loop).proceed call written = some s') :
      LoopOutcome s (.proceed call written) s'
  | task {task : LoopTask} {answer : TaskAnswer} {s' : Loop} {task' : Option LoopTask}
      (htask : task ∈ s.tasks) (hout : TaskOutcome s task answer.written s' task') :
      LoopOutcome s (.task task answer) { s' with tasks := task'.toList ++ s.tasks.erase task }
  | loop {answer : LoopAnswer} {s' : Loop} (hstep : s.loopStep answer = some s') :
      LoopOutcome s (.loop answer) s'

/-- `handler_set_pending_mask` compares the mask with itself, so there is no interruption. -/
theorem Loop.Step.outcome {s s' : Loop} {act : LoopAction} (h : s.Step act s') :
    LoopOutcome s act s' := by
  cases act with
  | register x =>
      simp only [Loop.Step, Loop.step] at h
      split at h
      · rename_i hcond
        rw [← Option.some.inj h]
        exact .register hcond.1 hcond.2.1 hcond.2.2
      · simp at h
  | unregister x =>
      simp only [Loop.Step, Loop.step] at h
      split at h
      · rw [← Option.some.inj h]
        exact .unregister ‹_›
      · simp at h
  | force x =>
      simp only [Loop.Step, Loop.step] at h
      split at h
      · rw [← Option.some.inj h]
        exact .force ‹_›
      · simp at h
  | setPendingMask x flags =>
      simp only [Loop.Step, Loop.step, Loop.handlerSetPendingMask, ne_eq, not_true_eq_false,
        false_and, if_false] at h
      split at h
      · rw [← Option.some.inj h]
        exact .setPendingMask ‹_›
      · simp at h
  | stop =>
      simp only [Loop.Step, Loop.step, Option.some.injEq] at h
      rw [← h]
      exact .stop
  | proceed call written =>
      simp only [Loop.Step, Loop.step] at h
      split at h
      · exact .proceed ‹_› h
      · simp at h
  | task task answer =>
      simp only [Loop.Step, Loop.step] at h
      split at h
      · split at h
        · simp at h
        · rename_i s₁ task' hstep
          rw [← Option.some.inj h]
          exact .task ‹_› (taskStep_spec hstep)
      · simp at h
  | loop answer => exact .loop h

/-! ## The invariant -/

/-- A handler is listed once, and it is ready only if it has no unfinished task. -/
structure LoopInv (s : Loop) : Prop where
  once : (s.handlers ++ s.waiting).Nodup
  listed : ∀ h ∈ s.handlers ++ s.waiting, h ≠ notifyId → (s.handler h).loop = true
  chosen : (s.chosen ++ s.pc.upcoming).Nodup
  single : (s.chosen ++ s.unfinished).Nodup
  busy : ∀ h ∈ s.unfinished, (s.handler h).status ≠ .ready
  dispatched : ∀ entry rest, s.pc = .dispatchSubmit entry rest →
    (s.handler entry.handler).status ≠ .ready

section Handlers

variable {s s' : Loop} {h h' : ℕ}

theorem Loop.setHandler_handler (x : Handler) :
    (s.setHandler h x).handler h' = if h' = h then x else s.handler h' := by
  simp [Loop.setHandler, Function.update_apply]

theorem Loop.compareExchange_handler (expected desired : HandlerStatus) :
    (s.compareExchange h expected desired).handler h' =
      if h' = h ∧ (s.handler h).status = expected then { s.handler h with status := desired }
      else s.handler h' := by
  by_cases hstatus : (s.handler h).status = expected
  · simp [Loop.compareExchange, hstatus, Loop.setStatus, Loop.setHandler_handler]
  · simp [Loop.compareExchange, hstatus]

/-- What is left alone by all but the loop thread and by `loop_register`. -/
structure LoopFrame (s s' : Loop) : Prop where
  handlers : s'.handlers = s.handlers
  pendingHandlers : s'.pendingHandlers = s.pendingHandlers
  pollMeta : s'.pollMeta = s.pollMeta
  tasks : s'.tasks = s.tasks
  pc : s'.pc = s.pc
  loop : ∀ h, (s'.handler h).loop = (s.handler h).loop

theorem LoopFrame.refl (s : Loop) : LoopFrame s s := ⟨rfl, rfl, rfl, rfl, rfl, fun _ => rfl⟩

theorem LoopFrame.setHandler {x : Handler} (hloop : x.loop = (s.handler h).loop) :
    LoopFrame s (s.setHandler h x) := by
  refine ⟨rfl, rfl, rfl, rfl, rfl, fun h' => ?_⟩
  rw [Loop.setHandler_handler]
  split
  · rename_i heq
    rw [heq, hloop]
  · rfl

theorem LoopFrame.compareExchange (s : Loop) (h : ℕ) (expected desired : HandlerStatus) :
    LoopFrame s (s.compareExchange h expected desired) := by
  rw [Loop.compareExchange]
  split
  · exact .setHandler rfl
  · exact .refl s

theorem Loop.writePipe_spec {written : Bool} (h : s.writePipe written = some s') :
    ∃ pipe, 0 < pipe ∧ s' = { s with pipe := pipe } := by
  simp only [Loop.writePipe] at h
  split at h
  · exact ⟨s.pipe + 1, Nat.succ_pos _, (Option.some.inj h).symm⟩
  · split at h
    · exact ⟨s.pipe, ‹_›, (Option.some.inj h).symm⟩
    · simp at h

/-- After `notify_post` there is something in the pipe, if the flag has kept its promise. -/
theorem Loop.notifyPost_spec {written : Bool} (h : s.notifyPost written = some s') :
    ∃ pipe, s' = { s with pipe := pipe, raised := true } ∧
      ((s.raised = true → 0 < s.pipe) → 0 < pipe) := by
  simp only [Loop.notifyPost, Option.map_eq_some_iff] at h
  obtain ⟨s₁, hs₁, rfl⟩ := h
  split at hs₁
  · rename_i hraised
    rw [← Option.some.inj hs₁]
    exact ⟨s.pipe, rfl, fun hpipe => hpipe hraised⟩
  · obtain ⟨pipe, hpipe, rfl⟩ := Loop.writePipe_spec hs₁
    exact ⟨pipe, rfl, fun _ => hpipe⟩

theorem Loop.notifyProcess_spec (s : Loop) (flags : PollFlags) :
    ∃ pipe, (s.notifyProcess flags).1 = { s with pipe := pipe, raised := false } := by
  rw [Loop.notifyProcess]
  split
  · split
    · exact ⟨s.pipe - 1, rfl⟩
    · exact ⟨s.pipe, rfl⟩
  · exact ⟨s.pipe, rfl⟩

theorem LoopInv.of_frame (hinv : LoopInv s) (hframe : LoopFrame s s')
    (hready : ∀ h, (s'.handler h).status = .ready → (s.handler h).status = .ready) :
    LoopInv s' := by
  have hwaiting : s'.waiting = s.waiting := by
    rw [Loop.waiting, Loop.waiting, hframe.pc, hframe.pendingHandlers]
  have hchosen : s'.chosen = s.chosen := by
    rw [Loop.chosen, Loop.chosen, hframe.pc, hframe.pollMeta]
  have hunfinished : s'.unfinished = s.unfinished := by
    rw [Loop.unfinished, Loop.unfinished, hframe.pc, hframe.tasks]
  constructor
  · rw [hframe.handlers, hwaiting]
    exact hinv.once
  · rw [hframe.handlers, hwaiting]
    exact fun x hx hne => (hframe.loop x).trans (hinv.listed x hx hne)
  · rw [hchosen, hframe.pc]
    exact hinv.chosen
  · rw [hchosen, hunfinished]
    exact hinv.single
  · rw [hunfinished]
    exact fun x hx hx' => hinv.busy x hx (hready x hx')
  · rw [hframe.pc]
    exact fun entry rest hpc hx => hinv.dispatched entry rest hpc (hready _ hx)

end Handlers

section Tasks

variable {s s' s'' : Loop} {task : LoopTask} {task' : Option LoopTask} {others : List LoopTask}
  {written : Bool}

theorem TaskOutcome.frame (h : TaskOutcome s task written s' task') : LoopFrame s s' := by
  cases h with
  | running _ hs _ _ =>
      rcases hs with rfl | ⟨errors, rfl⟩ | ⟨_, rfl⟩
      · exact .refl _
      · exact ⟨rfl, rfl, rfl, rfl, rfl, fun _ => rfl⟩
      · obtain ⟨pipe, hpipe⟩ := s.notifyProcess_spec task.flags
        rw [hpipe]
        exact ⟨rfl, rfl, rfl, rfl, rfl, fun _ => rfl⟩
  | updated => exact .compareExchange s _ _ _
  | returned _ hs =>
      split at hs
      · rw [hs]
        exact .refl s
      · obtain ⟨pipe, rfl, _⟩ := Loop.notifyPost_spec hs
        exact ⟨rfl, rfl, rfl, rfl, rfl, fun _ => rfl⟩

/-- Only a task that is now finished can have made its handler ready. -/
theorem TaskOutcome.ready (h : TaskOutcome s task written s' task') :
    (unfinishedOf task'.toList = unfinishedOf [task] ∧
      ∀ h, (s'.handler h).status = .ready → (s.handler h).status = .ready) ∨
    (unfinishedOf task'.toList = [] ∧ unfinishedOf [task] = [task.handler] ∧
      ∀ h ≠ task.handler, (s'.handler h).status = .ready → (s.handler h).status = .ready) := by
  cases h with
  | running hphase hs hhandler hphase' =>
      refine Or.inl ⟨by simp [unfinishedOf_singleton, hphase, hphase', hhandler], fun h => ?_⟩
      rcases hs with rfl | ⟨errors, rfl⟩ | ⟨_, rfl⟩
      · exact id
      · exact id
      · obtain ⟨pipe, hpipe⟩ := s.notifyProcess_spec task.flags
        rw [hpipe]
        exact id
  | updated hphase hhandler hphase' =>
      refine Or.inr ⟨by simp [unfinishedOf_singleton, hphase'],
        by simp [unfinishedOf_singleton, hphase], fun h hne => ?_⟩
      rw [Loop.compareExchange_handler, if_neg fun hand => hne hand.1]
      exact id
  | returned hphase hs =>
      refine Or.inl ⟨by simp [unfinishedOf_singleton, hphase], fun h => ?_⟩
      split at hs
      · rw [hs]
        exact id
      · obtain ⟨pipe, rfl, _⟩ := Loop.notifyPost_spec hs
        exact id

/-- A step of one of the tasks, after which the loop may have less to choose from. -/
theorem LoopInv.taskStep (hinv : LoopInv s) (hout : TaskOutcome s task written s' task')
    (hbefore : (s.pc.inlineTasks ++ s.tasks).Perm (task :: others))
    (hafter : (s''.pc.inlineTasks ++ s''.tasks).Perm (task'.toList ++ others))
    (hhandler : s''.handler = s'.handler) (hhandlers : s''.handlers = s.handlers)
    (hwaiting : s''.waiting = s.waiting) (hchosen : s''.chosen.Sublist s.chosen)
    (hupcoming : s''.pc.upcoming.Sublist s.pc.upcoming)
    (hdispatch : ∀ entry rest, s''.pc = .dispatchSubmit entry rest →
      s.pc = .dispatchSubmit entry rest) : LoopInv s'' := by
  have hold : s.unfinished.Perm (unfinishedOf [task] ++ unfinishedOf others) := by
    rw [← unfinishedOf_append]
    exact unfinishedOf_perm hbefore
  have hnew : s''.unfinished.Perm (unfinishedOf task'.toList ++ unfinishedOf others) := by
    rw [← unfinishedOf_append]
    exact unfinishedOf_perm hafter
  have hsingle : (s.chosen ++ (unfinishedOf [task] ++ unfinishedOf others)).Nodup :=
    (hold.append_left s.chosen).nodup_iff.mp hinv.single
  have hready : ∀ h ∈ s''.chosen ++ (unfinishedOf task'.toList ++ unfinishedOf others),
      (s''.handler h).status = .ready → (s.handler h).status = .ready := by
    intro h hmem hstatus
    rw [hhandler] at hstatus
    rcases hout.ready with ⟨_, hkeep⟩ | ⟨hnil, hone, hkeep⟩
    · exact hkeep h hstatus
    · -- the handler of the finished task is not among the others
      refine hkeep h ?_ hstatus
      rintro rfl
      rw [hone, List.nodup_append] at hsingle
      rw [hnil, List.nil_append, List.mem_append] at hmem
      rcases hmem with hmem | hmem
      · exact hsingle.2.2 _ (hchosen.subset hmem) _ (by simp) rfl
      · exact (List.nodup_cons.mp hsingle.2.1).1 hmem
  have hsub : (unfinishedOf task'.toList).Sublist (unfinishedOf [task]) := by
    rcases hout.ready with ⟨heq, _⟩ | ⟨hnil, _, _⟩
    · rw [heq]
    · rw [hnil]
      exact List.nil_sublist _
  constructor
  · rw [hhandlers, hwaiting]
    exact hinv.once
  · rw [hhandlers, hwaiting]
    intro h hmem hne
    rw [hhandler, hout.frame.loop]
    exact hinv.listed h hmem hne
  · exact hinv.chosen.sublist (hchosen.append hupcoming)
  · rw [(hnew.append_left _).nodup_iff]
    exact hsingle.sublist (hchosen.append (hsub.append_right _))
  · intro h hmem hstatus
    rw [hnew.mem_iff] at hmem
    refine hinv.busy h ?_ (hready h (List.mem_append_right _ hmem) hstatus)
    rw [hold.mem_iff]
    exact (hsub.append_right _).subset hmem
  · intro entry rest hpc hstatus
    refine hinv.dispatched entry rest (hdispatch entry rest hpc) (hready _ ?_ hstatus)
    rw [Loop.chosen, hpc]
    simp

end Tasks

/-! ## Steps of the loop thread -/

section LoopThread

variable {s s' : Loop} {answer : LoopAnswer}

attribute [local simp] Loop.waiting Loop.chosen LoopPc.upcoming LoopPc.inlineTasks

theorem LoopInv.goto (hinv : LoopInv s) (hhandler : s'.handler = s.handler)
    (htasks : s'.tasks = s.tasks) (hinline : s'.pc.inlineTasks = s.pc.inlineTasks)
    (hlisted : (s'.handlers ++ s'.waiting).Sublist (s.handlers ++ s.waiting))
    (hchosen : (s'.chosen ++ s'.pc.upcoming).Sublist (s.chosen ++ s.pc.upcoming))
    (hsub : s'.chosen.Sublist s.chosen)
    (hdispatch : ∀ entry rest, s'.pc = .dispatchSubmit entry rest →
      (s.handler entry.handler).status ≠ .ready) : LoopInv s' := by
  have hunfinished : s'.unfinished = s.unfinished := by
    rw [Loop.unfinished, Loop.unfinished, htasks, hinline]
  constructor
  · exact hinv.once.sublist hlisted
  · rw [hhandler]
    exact fun h hmem => hinv.listed h (hlisted.subset hmem)
  · exact hinv.chosen.sublist hchosen
  · rw [hunfinished]
    exact hinv.single.sublist (hsub.append_right _)
  · rw [hunfinished, hhandler]
    exact hinv.busy
  · rw [hhandler]
    exact hdispatch

theorem LoopInv.registering {rest : List ℕ} {err : Option Error} (hinv : LoopInv s)
    (hpc : s.pc = .registering rest err) (h : s.loopStep answer = some s') : LoopInv s' := by
  cases rest with
  | nil =>
      simp only [Loop.loopStep, hpc, Option.some.injEq] at h
      rw [← h]
      apply hinv.goto <;> simp [hpc]
  | cons x rest =>
      simp only [Loop.loopStep, hpc] at h
      split at h
      · split at h
        · rw [← Option.some.inj h]
          apply hinv.goto <;> simp [hpc]
        · rw [← Option.some.inj h]
          apply hinv.goto <;> simp [hpc]
      · simp at h
      · rw [← Option.some.inj h]
        apply hinv.goto <;> simp [hpc]

theorem LoopInv.sweep {i : ℕ} {err : Option Error} (hinv : LoopInv s)
    (hpc : s.pc = .sweep i err) (h : s.loopStep answer = some s') : LoopInv s' := by
  cases i with
  | zero =>
      cases err <;>
      · simp only [Loop.loopStep, hpc, Option.some.injEq] at h
        rw [← h]
        apply hinv.goto <;> simp [hpc]
  | succ i =>
      simp only [Loop.loopStep, hpc] at h
      split at h
      · simp at h
      · split at h
        · rw [← Option.some.inj h]
          have hsub := (List.eraseIdx_sublist s.handlers i).append_right s.pendingHandlers
          apply hinv.goto <;> simp [hpc, hsub]
        · rw [← Option.some.inj h]
          apply hinv.goto <;> simp [hpc]

/-- A handler that is ready has no unfinished task. -/
theorem LoopInv.choose {x : ℕ} {rest : List ℕ} {empty forced empty' : Bool} (hinv : LoopInv s)
    (hpc : s.pc = .preparing (x :: rest) empty forced) (hready : (s.handler x).status = .ready) :
    LoopInv { s with pc := .prepareFlags x rest empty' forced } := by
  have hnot : x ∉ s.unfinished := fun hmem => hinv.busy x hmem hready
  have hwaiting : s.waiting = s.pendingHandlers := by rw [Loop.waiting, hpc]
  have hchosen : s.chosen = s.pollMeta.map PollMeta.handler := by rw [Loop.chosen, hpc]
  have hunfinished : s.unfinished = unfinishedOf s.tasks := by rw [Loop.unfinished, hpc]; rfl
  have hnodup : (s.chosen ++ x :: rest).Nodup := by
    have hnodup := hinv.chosen
    rwa [hpc] at hnodup
  constructor
  · exact hwaiting ▸ hinv.once
  · exact hwaiting ▸ hinv.listed
  · have heq : s.chosen ++ x :: rest = (s.chosen ++ [x]) ++ rest := by simp
    rw [heq, hchosen] at hnodup
    exact hnodup
  · have hx : x ∉ s.chosen := fun hmem =>
      (List.nodup_append.mp hnodup).2.2 x hmem x List.mem_cons_self rfl
    have hmiddle : (x :: (s.chosen ++ s.unfinished)).Nodup :=
      List.nodup_cons.mpr ⟨List.not_mem_append hx hnot, hinv.single⟩
    have hperm : ((s.chosen ++ [x]) ++ s.unfinished).Perm (x :: (s.chosen ++ s.unfinished)) := by
      simp
    have hnodup' := hperm.nodup_iff.mpr hmiddle
    rw [hchosen, hunfinished] at hnodup'
    exact hnodup'
  · have hbusy := hinv.busy
    rw [hunfinished] at hbusy
    exact hbusy
  · intro entry rest hpc'
    simp at hpc'

theorem LoopInv.startPrepare (hinv : LoopInv s) (hpc : s.pc = .prepare) :
    LoopInv { s with pollMeta := [], pc := .preparing s.handlers false false } := by
  have hwaiting : s.waiting = s.pendingHandlers := by rw [Loop.waiting, hpc]
  have hunfinished : s.unfinished = unfinishedOf s.tasks := by rw [Loop.unfinished, hpc]; rfl
  constructor
  · exact hwaiting ▸ hinv.once
  · exact hwaiting ▸ hinv.listed
  · exact hinv.once.of_append_left
  · have hsingle := hinv.single.of_append_right
    rw [hunfinished] at hsingle
    exact hsingle
  · have hbusy := hinv.busy
    rw [hunfinished] at hbusy
    exact hbusy
  · intro entry rest hpc'
    simp at hpc'

theorem LoopInv.preparing {rest : List ℕ} {empty forced : Bool} (hinv : LoopInv s)
    (hpc : s.pc = .preparing rest empty forced) (h : s.loopStep answer = some s') :
    LoopInv s' := by
  cases rest with
  | nil =>
      simp only [Loop.loopStep, hpc] at h
      split at h
      · rw [← Option.some.inj h]
        apply hinv.goto <;> simp [hpc]
      · rw [← Option.some.inj h]
        apply hinv.goto <;> simp [hpc]
  | cons x rest =>
      simp only [Loop.loopStep, hpc] at h
      split at h
      · rw [← Option.some.inj h]
        apply hinv.goto <;> simp [hpc]
      · rw [← Option.some.inj h]
        apply hinv.goto <;> simp [hpc]
      · rw [← Option.some.inj h]
        exact hinv.choose hpc ‹_›

theorem LoopInv.setHandler {x : ℕ} {y : Handler} (hinv : LoopInv s)
    (hstatus : y.status = .ready → (s.handler x).status = .ready)
    (hloop : y.loop = (s.handler x).loop) : LoopInv (s.setHandler x y) := by
  refine hinv.of_frame (.setHandler hloop) fun h => ?_
  rw [Loop.setHandler_handler]
  split
  · rename_i heq
    rw [heq]
    exact hstatus
  · exact id

theorem LoopInv.prepareHandler {x : ℕ} {rest : List ℕ} {empty forced : Bool} (hinv : LoopInv s)
    (hpc : s.pc = .prepareFlags x rest empty forced ∨
      ∃ events, s.pc = .prepareForce x events rest empty forced)
    (h : s.loopStep answer = some s') : LoopInv s' := by
  rcases hpc with hpc | ⟨events, hpc⟩
  · have hinv' : LoopInv (s.setHandler x
        { s.handler x with currentFlags := (s.handler x).pendingFlags.allIn }) :=
      hinv.setHandler id rfl
    have hpc' : (s.setHandler x
        { s.handler x with currentFlags := (s.handler x).pendingFlags.allIn }).pc = _ := hpc
    simp only [Loop.loopStep, hpc] at h
    split at h
    · rw [← Option.some.inj h]
      apply hinv'.goto <;> simp [hpc']
    · rw [← Option.some.inj h]
      apply hinv'.goto <;> simp [hpc']
  · have hinv' : LoopInv (s.setHandler x { s.handler x with force := false }) :=
      hinv.setHandler id rfl
    have hpc' : (s.setHandler x { s.handler x with force := false }).pc = _ := hpc
    simp only [Loop.loopStep, hpc] at h
    split at h
    · rw [← Option.some.inj h]
      apply hinv'.goto <;> simp [hpc']
    · rw [← Option.some.inj h]
      apply hinv'.goto <;> simp [hpc']

theorem map_zipWith_handler {entries : List PollMeta} {revents : List PollFlags}
    (f : PollMeta → PollFlags → PollFlags) (hlength : revents.length = entries.length) :
    (List.zipWith (fun entry flags => { entry with flags := f entry flags }) entries revents).map
      PollMeta.handler = entries.map PollMeta.handler := by
  induction entries generalizing revents with
  | nil => simp
  | cons entry entries ih =>
      cases revents with
      | nil => simp at hlength
      | cons flags revents => simp [ih (by simpa using hlength)]

theorem LoopInv.poll {forced : Bool} (hinv : LoopInv s) (hpc : s.pc = .poll forced)
    (h : s.loopStep answer = some s') : LoopInv s' := by
  simp only [Loop.loopStep, hpc] at h
  split at h
  · rw [← Option.some.inj h]
    apply hinv.goto <;> simp [hpc]
  · split at h
    · rename_i revents _ hresult
      have hlength : revents.length = s.pollMeta.length := hresult.1
      rw [← Option.some.inj h]
      apply hinv.goto <;> simp [hpc, map_zipWith_handler _ hlength]
    · simp at h

theorem LoopInv.submit {rest : List PollMeta} (hinv : LoopInv s) (hpc : s.pc = .submit rest)
    (h : s.loopStep answer = some s') : LoopInv s' := by
  cases rest with
  | nil =>
      simp only [Loop.loopStep, hpc, Option.some.injEq] at h
      rw [← h]
      apply hinv.goto <;> simp [hpc]
  | cons entry rest =>
      simp only [Loop.loopStep, hpc] at h
      split at h
      · rw [← Option.some.inj h]
        apply hinv.goto <;> simp [hpc]
      · split at h
        · rw [← Option.some.inj h]
          apply hinv.goto <;> simp [hpc]
        · rw [← Option.some.inj h]
          apply hinv.goto <;> simp [hpc]

theorem LoopInv.dispatch {entry : PollMeta} {rest : List PollMeta} (hinv : LoopInv s)
    (hpc : s.pc = .dispatch entry rest) (h : s.loopStep answer = some s') : LoopInv s' := by
  simp only [Loop.loopStep, hpc, Option.some.injEq] at h
  have hframe := LoopFrame.compareExchange s entry.handler .ready .queued
  have hinv' : LoopInv (s.compareExchange entry.handler .ready .queued) := by
    refine hinv.of_frame hframe fun x hready => ?_
    rw [Loop.compareExchange_handler] at hready
    split at hready
    · simp at hready
    · exact hready
  have hpc' := hframe.pc.trans hpc
  have hqueued : ((s.compareExchange entry.handler .ready .queued).handler entry.handler).status ≠
      .ready := by
    rw [Loop.compareExchange_handler]
    split
    · simp
    · rename_i hnot
      exact fun hready => hnot ⟨rfl, hready⟩
  rw [← h]
  apply hinv'.goto <;> simp [hpc']
  exact hqueued

theorem LoopInv.start {x : ℕ} (hinv : LoopInv s) (hstatus : (s.handler x).status ≠ .ready)
    (hhandler : s'.handler = s.handler)
    (hlisted : s'.handlers ++ s'.waiting = s.handlers ++ s.waiting)
    (hchosen : s.chosen = x :: s'.chosen) (hupcoming : s'.pc.upcoming = [])
    (hunfinished : s'.unfinished = x :: s.unfinished)
    (hdispatch : ∀ entry rest, s'.pc ≠ .dispatchSubmit entry rest) : LoopInv s' := by
  have hsingle := hinv.single
  rw [hchosen, List.cons_append, ← List.perm_middle.nodup_iff, ← hunfinished] at hsingle
  constructor
  · rw [hlisted]
    exact hinv.once
  · rw [hlisted, hhandler]
    exact hinv.listed
  · rw [hupcoming, List.append_nil]
    exact hsingle.of_append_left
  · exact hsingle
  · rw [hunfinished, hhandler]
    intro h hmem
    rcases List.mem_cons.mp hmem with rfl | hmem
    · exact hstatus
    · exact hinv.busy h hmem
  · exact fun entry rest hpc => absurd hpc (hdispatch entry rest)

theorem LoopInv.dispatchSubmit {entry : PollMeta} {rest : List PollMeta} (hinv : LoopInv s)
    (hpc : s.pc = .dispatchSubmit entry rest) (h : s.loopStep answer = some s') : LoopInv s' := by
  have hstatus := hinv.dispatched entry rest hpc
  simp only [Loop.loopStep, hpc] at h
  split at h
  · rw [← Option.some.inj h]
    apply hinv.start hstatus <;>
      simp [Loop.unfinished, unfinishedOf, LoopTask.isFinished, hpc]
  · split at h
    · rw [← Option.some.inj h]
      apply hinv.start hstatus <;>
        simp [Loop.unfinished, unfinishedOf, LoopTask.isFinished, hpc]
    · rw [← Option.some.inj h]
      apply hinv.goto <;> simp [hpc]

theorem LoopInv.inlineTask {task : LoopTask} {rest : List PollMeta} (hinv : LoopInv s)
    (hpc : s.pc = .inlineTask task rest) (h : s.loopStep answer = some s') : LoopInv s' := by
  have hbefore : (s.pc.inlineTasks ++ s.tasks).Perm (task :: s.tasks) := by
    rw [hpc]
    exact .refl _
  simp only [Loop.loopStep, hpc] at h
  split at h
  · simp at h
  · rename_i s₁ task₁ hstep
    have hout := taskStep_spec hstep
    have hframe := hout.frame
    rw [← Option.some.inj h]
    apply hinv.taskStep hout hbefore <;>
      simp [hpc, hframe.handlers, hframe.pendingHandlers, hframe.tasks]
  · rename_i s₁ hstep
    have hout := taskStep_spec hstep
    have hframe := hout.frame
    split at h
    · rw [← Option.some.inj h]
      apply hinv.taskStep hout hbefore <;>
        simp [hpc, hframe.handlers, hframe.pendingHandlers, hframe.tasks]
    · rw [← Option.some.inj h]
      apply hinv.taskStep hout hbefore <;>
        simp [hpc, hframe.handlers, hframe.pendingHandlers, hframe.tasks]

theorem LoopInv.leave {rest : List PollMeta} {err : Option Error} (hinv : LoopInv s)
    (hpc : s.pc = .leave rest err) (h : s.loopStep answer = some s') : LoopInv s' := by
  cases rest with
  | nil =>
      simp only [Loop.loopStep, hpc, Option.some.injEq] at h
      rw [← h]
      apply hinv.goto <;> simp [hpc]
  | cons entry rest =>
      simp only [Loop.loopStep, hpc, Option.some.injEq] at h
      have hinv' : LoopInv (s.setStatus entry.handler .unregistered) :=
        hinv.setHandler (fun hready => by simp at hready) rfl
      have hpc' : (s.setStatus entry.handler .unregistered).pc = .leave (entry :: rest) err := hpc
      rw [← h]
      apply hinv'.goto <;> simp [hpc']

theorem LoopInv.loopStep (hinv : LoopInv s) (h : s.loopStep answer = some s') : LoopInv s' := by
  cases hpc : s.pc with
  | idle result =>
      simp only [Loop.loopStep, hpc, Option.some.injEq] at h
      rw [← h]
      apply hinv.goto <;> simp [hpc]
  | register =>
      simp only [Loop.loopStep, hpc, Option.some.injEq] at h
      rw [← h]
      apply hinv.goto <;> simp [hpc]
  | registering rest err => exact hinv.registering hpc h
  | sweep i err => exact hinv.sweep hpc h
  | prepare =>
      simp only [Loop.loopStep, hpc] at h
      split at h
      · rw [← Option.some.inj h]
        apply hinv.goto <;> simp [hpc]
      · rw [← Option.some.inj h]
        exact hinv.startPrepare hpc
  | preparing rest empty forced => exact hinv.preparing hpc h
  | prepareFlags x rest empty forced => exact hinv.prepareHandler (Or.inl hpc) h
  | prepareForce x events rest empty forced => exact hinv.prepareHandler (Or.inr ⟨events, hpc⟩) h
  | poll forced => exact hinv.poll hpc h
  | submit rest => exact hinv.submit hpc h
  | dispatch entry rest => exact hinv.dispatch hpc h
  | dispatchSubmit entry rest => exact hinv.dispatchSubmit hpc h
  | inlineTask task rest => exact hinv.inlineTask hpc h
  | results i err =>
      simp only [Loop.loopStep, hpc] at h
      split at h
      · rw [← Option.some.inj h]
        apply hinv.goto <;> simp [hpc]
      · rw [← Option.some.inj h]
        apply hinv.goto <;> simp [hpc]
  | resultsClear err =>
      cases err <;>
      · simp only [Loop.loopStep, hpc, Option.some.injEq] at h
        rw [← h]
        apply hinv.goto <;> simp [hpc]
  | leave rest err => exact hinv.leave hpc h

end LoopThread

/-! ## Runs -/

section Runs

variable {s s' : Loop} {act : LoopAction} {hist : List LoopAction}

theorem LoopInv.register {x : ℕ} (hinv : LoopInv s) (hne : x ≠ notifyId)
    (hloop : (s.handler x).loop = false) (hpending : s.pc.holdsPending = false) :
    LoopInv (s.loopRegister x) := by
  have hwaiting' : (s.loopRegister x).waiting = s.waiting ++ [x] := by
    cases hpc : s.pc with
    | registering => simp [hpc, LoopPc.holdsPending] at hpending
    | _ => simp [Loop.waiting, Loop.loopRegister, Loop.setHandler, hpc]
  have hnew : x ∉ s.handlers ++ s.waiting := fun hmem => by
    rw [hinv.listed x hmem hne] at hloop
    simp at hloop
  have hready : ∀ h, ((s.loopRegister x).handler h).status = (s.handler h).status := by
    intro h
    simp only [Loop.loopRegister, Loop.setHandler_handler]
    split
    · rename_i heq
      rw [heq]
    · rfl
  constructor
  · rw [hwaiting', ← List.append_assoc]
    exact List.nodup_append.mpr ⟨hinv.once, by simp, fun h hmem h' hmem' heq =>
      hnew (List.mem_singleton.mp hmem' ▸ heq ▸ hmem)⟩
  · intro h hmem hne'
    simp only [Loop.loopRegister, Loop.setHandler_handler]
    split
    · rfl
    · rename_i hnotx
      refine hinv.listed h ?_ hne'
      rw [hwaiting', ← List.append_assoc, List.mem_append] at hmem
      exact hmem.resolve_right fun hx => hnotx (List.mem_singleton.mp hx)
  · exact hinv.chosen
  · exact hinv.single
  · exact fun h hmem => hready h ▸ hinv.busy h hmem
  · exact fun entry rest hpc => hready entry.handler ▸ hinv.dispatched entry rest hpc

/-- The rest of a call has to do with notifications only. -/
theorem Loop.proceed_frame {call : PendingCall} {written : Bool}
    (h : ({ s with calls := s.calls.erase call } : Loop).proceed call written = some s') :
    ∃ calls pipe raised, s' = { s with calls := calls, pipe := pipe, raised := raised } := by
  cases call with
  | forced x =>
      simp only [Loop.proceed] at h
      split at h <;> exact ⟨_, _, _, (Option.some.inj h).symm⟩
  | interrupt =>
      obtain ⟨pipe, rfl, _⟩ := Loop.notifyPost_spec h
      exact ⟨_, _, _, rfl⟩
  | wakeup =>
      obtain ⟨pipe, _, rfl⟩ := Loop.writePipe_spec h
      exact ⟨_, _, _, rfl⟩

theorem LoopInv.step (hinv : LoopInv s) (h : s.Step act s') : LoopInv s' := by
  cases h.outcome with
  | register hne hloop hpending => exact hinv.register hne hloop hpending
  | unregister => exact hinv.setHandler (fun hready => by simp at hready) rfl
  | force =>
      refine (hinv.setHandler ?_ ?_).of_frame ⟨rfl, rfl, rfl, rfl, rfl, fun _ => rfl⟩ fun _ => id
      · exact id
      · rfl
  | setPendingMask => exact hinv.setHandler id rfl
  | stop => exact hinv.of_frame ⟨rfl, rfl, rfl, rfl, rfl, fun _ => rfl⟩ fun _ => id
  | proceed _ hproceed =>
      obtain ⟨calls, pipe, raised, rfl⟩ := Loop.proceed_frame hproceed
      exact hinv.of_frame ⟨rfl, rfl, rfl, rfl, rfl, fun _ => rfl⟩ fun _ => id
  | task htask hout =>
      have hframe := hout.frame
      have hbefore := ((List.perm_cons_erase htask).append_left s.pc.inlineTasks).trans
        List.perm_middle
      apply hinv.taskStep hout hbefore
      · simp only [hframe.pc]
        exact List.perm_append_comm_assoc _ _ _
      · rfl
      · exact hframe.handlers
      · simp only [Loop.waiting, hframe.pc, hframe.pendingHandlers]
      · simp only [Loop.chosen, hframe.pc, hframe.pollMeta, List.Sublist.refl]
      · simp only [hframe.pc, List.Sublist.refl]
      · simp only [hframe.pc, imp_self, implies_true]
  | loop hstep => exact hinv.loopStep hstep

theorem LoopInv.of_init (h : s.Init) : LoopInv s := by
  obtain ⟨handler, _, rfl⟩ := h
  refine ⟨?_, ?_, ?_, ?_, ?_, ?_⟩ <;>
    simp [loopNew, Loop.waiting, Loop.chosen, Loop.unfinished, LoopPc.upcoming, LoopPc.inlineTasks]

/-! ## What happens to a handler -/

def LoopPc.leaving : LoopPc → Bool
  | .leave _ _ => true
  | _ => false

/-- A handler keeps its vtable, and once it is unregistered it stays so. There is a `cause` for
it to be unregistered. -/
structure Handler.Evolves (cause : Prop) (x y : Handler) : Prop where
  onError : y.onError = x.onError
  unregistered : x.status = .unregistered → y.status = .unregistered
  registered : y.status = .unregistered → x.status = .unregistered ∨ cause

theorem Handler.Evolves.refl {cause : Prop} (x : Handler) : x.Evolves cause x :=
  ⟨rfl, id, Or.inl⟩

theorem Handler.Evolves.mono {cause cause' : Prop} {x y : Handler} (h : x.Evolves cause y)
    (himp : cause → cause') : x.Evolves cause' y :=
  ⟨h.onError, h.unregistered, fun hy => (h.registered hy).imp_right himp⟩

theorem Loop.setHandler_evolves {cause : Prop} {x y : ℕ} {z : Handler}
    (honError : z.onError = (s.handler x).onError)
    (hstatus : z.status = (s.handler x).status ∨ z.status = .unregistered ∧ (y = x → cause)) :
    (s.handler y).Evolves cause ((s.setHandler x z).handler y) := by
  rw [Loop.setHandler_handler]
  split
  · rename_i heq
    rw [heq]
    rcases hstatus with hstatus | ⟨hstatus, hcause⟩
    · exact ⟨honError, fun h => hstatus.trans h, fun h => Or.inl (hstatus ▸ h)⟩
    · exact ⟨honError, fun _ => hstatus, fun _ => Or.inr (hcause heq)⟩
  · exact .refl _

theorem Loop.compareExchange_evolves {cause : Prop} {expected desired : HandlerStatus}
    (hexpected : expected ≠ .unregistered) (hdesired : desired ≠ .unregistered) (x y : ℕ) :
    (s.handler y).Evolves cause ((s.compareExchange x expected desired).handler y) := by
  rw [Loop.compareExchange_handler]
  split
  · rename_i hand
    rw [hand.1]
    refine ⟨rfl, fun h => ?_, fun h => absurd h hdesired⟩
    exact absurd (hand.2.symm.trans h) hexpected
  · exact .refl _

theorem TaskOutcome.evolves {task : LoopTask} {task' : Option LoopTask} {written : Bool}
    (hout : TaskOutcome s task written s' task') (x : ℕ) :
    (s.handler x).Evolves False (s'.handler x) := by
  cases hout with
  | running _ hs _ _ =>
      rcases hs with rfl | ⟨errors, rfl⟩ | ⟨_, rfl⟩
      · exact .refl _
      · exact .refl _
      · obtain ⟨pipe, hpipe⟩ := s.notifyProcess_spec task.flags
        rw [hpipe]
        exact .refl _
  | updated => exact Loop.compareExchange_evolves (by simp) (by simp) _ _
  | returned _ hs =>
      split at hs
      · rw [hs]
        exact .refl _
      · obtain ⟨pipe, rfl, _⟩ := Loop.notifyPost_spec hs
        exact .refl _

theorem loopStep_evolves {answer : LoopAnswer} (hstep : s.loopStep answer = some s') (x : ℕ) :
    (s.handler x).Evolves (s.pc.leaving = true) (s'.handler x) := by
  cases hpc : s.pc with
  | prepareFlags y rest empty forced =>
      simp only [Loop.loopStep, hpc] at hstep
      split at hstep <;>
      · rw [← Option.some.inj hstep]
        exact Loop.setHandler_evolves rfl (Or.inl rfl)
  | prepareForce y events rest empty forced =>
      simp only [Loop.loopStep, hpc] at hstep
      split at hstep <;>
      · rw [← Option.some.inj hstep]
        exact Loop.setHandler_evolves rfl (Or.inl rfl)
  | dispatch entry rest =>
      simp only [Loop.loopStep, hpc, Option.some.injEq] at hstep
      rw [← hstep]
      exact Loop.compareExchange_evolves (by simp) (by simp) _ x
  | inlineTask task rest =>
      simp only [Loop.loopStep, hpc] at hstep
      split at hstep
      · simp at hstep
      · rename_i s₁ task₁ htask
        rw [← Option.some.inj hstep]
        exact ((taskStep_spec htask).evolves x).mono False.elim
      · rename_i s₁ htask
        split at hstep <;>
        · rw [← Option.some.inj hstep]
          exact ((taskStep_spec htask).evolves x).mono False.elim
  | leave rest err =>
      cases rest with
      | nil =>
          simp only [Loop.loopStep, hpc, Option.some.injEq] at hstep
          rw [← hstep]
          exact .refl _
      | cons entry rest =>
          simp only [Loop.loopStep, hpc, Option.some.injEq] at hstep
          rw [← hstep]
          exact Loop.setHandler_evolves rfl (Or.inr ⟨rfl, fun _ => rfl⟩)
  | _ =>
      -- the other steps leave the handlers alone
      have hhandler : s'.handler = s.handler := by
        rw [Loop.loopStep, hpc] at hstep
        grind
      rw [hhandler]
      exact .refl _

theorem Loop.Step.evolves (hstep : s.Step act s') (x : ℕ) :
    (s.handler x).Evolves (act = .unregister x ∨ s.pc.leaving = true) (s'.handler x) := by
  cases hstep.outcome with
  | register => exact Loop.setHandler_evolves rfl (Or.inl rfl)
  | unregister =>
      exact Loop.setHandler_evolves rfl (Or.inr ⟨rfl, fun heq => Or.inl (heq ▸ rfl)⟩)
  | force => exact Loop.setHandler_evolves rfl (Or.inl rfl)
  | setPendingMask => exact Loop.setHandler_evolves rfl (Or.inl rfl)
  | stop => exact .refl _
  | proceed _ hproceed =>
      obtain ⟨calls, pipe, raised, rfl⟩ := Loop.proceed_frame hproceed
      exact .refl _
  | task _ hout => exact (hout.evolves x).mono False.elim
  | loop hstep => exact (loopStep_evolves hstep x).mono Or.inr

/-- There is at most one submitted task of a handler that has not updated its status, and an
unregistered handler stays so. -/
structure TasksSound (s : Loop) : Prop where
  single : ∀ h, s.unfinished.count h ≤ 1
  unregistered : ∀ h, (s.handler h).status = .unregistered →
    ∀ s', Relation.ReflTransGen (fun s s' => ∃ act, s.Step act s') s s' →
      (s'.handler h).status = .unregistered

/-- In every run of the loop the tasks of a handler come one after the other. -/
theorem tasksSound_of_run (hrun : Lts.Run Loop.Init Loop.Step hist s) : TasksSound s := by
  have hinv : LoopInv s :=
    Lts.Run.invariant (I := fun _ s => LoopInv s) hrun (fun _ => LoopInv.of_init)
      fun _ _ _ _ hinv hstep => hinv.step hstep
  refine ⟨fun h => ?_, fun h hstatus s' hsteps => ?_⟩
  · exact List.nodup_iff_count_le_one.mp hinv.single.of_append_right h
  · induction hsteps with
    | refl => exact hstatus
    | tail _ hstep ih =>
        obtain ⟨act, hstep⟩ := hstep
        exact (hstep.evolves h).unregistered ih

end Runs

theorem Loop.init_new : (loopNew fun _ => notifyHandler).Init := ⟨_, fun _ => ⟨rfl, rfl⟩, rfl⟩

/-- The loop finds the handler 1 forced and submits its task, and the handler is unregistered
before the task ends. -/
def forcedTaskActs : List LoopAction :=
  let answer : LoopAnswer := ⟨true, true, some [⟨true, false, false, false⟩, .empty],
    ⟨true, true⟩, ⟨none, true, true, ⟨true, true⟩⟩⟩
  [.register 1, .proceed .interrupt true, .force 1, .proceed (.forced 1) true] ++
    List.replicate 27 (.loop answer) ++
    [.task ⟨1, .empty, .submitted⟩ answer.task, .unregister 1]

/-- The handler has one task, and stays unregistered when it ends. -/
theorem tasksSound_forced_task : ∃ s,
    Lts.Run Loop.Init Loop.Step forcedTaskActs s ∧ s.unfinished = [1] ∧
      (s.handler 1).status = .unregistered ∧ TasksSound s := by
  obtain ⟨s, hrun, hunfinished, hstatus⟩ := Lts.exists_run Loop.step forcedTaskActs
    (fun s => s.unfinished = [1] ∧ (s.handler 1).status = .unregistered) Loop.init_new
    (by decide +kernel)
  exact ⟨s, hrun, hunfinished, hstatus, tasksSound_of_run hrun⟩

end PosixThreads
