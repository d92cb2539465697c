import PosixThreads.Loop.Mask

/-!
# Queued handlers

A handler becomes queued in `loop_dispatch_task`, in front of the submission of its task. It stays
queued until the task updates the status. If the executor rejects the task then `loop_run` fails,
and it unregisters the handlers in the vector `meta`, to which the handler belongs.
-/

namespace PosixThreads

/-- The queued handlers that the loop thread has yet to do something about: it is about to submit
the task, or it is unregistering the handlers. -/
def LoopPc.inHand : LoopPc → List ℕ
  | .dispatchSubmit entry _ => [entry.handler]
  | .leave rest _ => rest.map PollMeta.handler
  | _ => []

/-- The entries that `loop_submit_tasks` is working on or has yet to look at. -/
def LoopPc.toSubmit : LoopPc → List PollMeta
  | .submit rest => rest
  | .dispatch entry rest => entry :: rest
  | .dispatchSubmit entry rest => entry :: rest
  | .inlineTask _ rest => rest
  | _ => []

/-- A queued handler has a task that has not updated the status, or it is in the hand of the loop
thread. -/
structure QueuedInv (s : Loop) : Prop where
  entries : ∀ entry ∈ s.pc.toSubmit, entry ∈ s.pollMeta
  queued : ∀ h, (s.handler h).status = .queued → h ∈ s.unfinished ∨ h ∈ s.pc.inHand

section Tasks

variable {s s' s'' : Loop} {task : LoopTask} {task' : Option LoopTask} {others : List LoopTask}
  {written : Bool}

theorem TaskOutcome.queued (hout : TaskOutcome s task written s' task') {x : ℕ}
    (hx : (s'.handler x).status = .queued) :
    (s.handler x).status = .queued ∧
      (x ∈ unfinishedOf [task] → x ∈ unfinishedOf task'.toList) := by
  cases hout with
  | running hphase hs hhandler hphase' =>
      refine ⟨?_, by simp [unfinishedOf_singleton, hphase, hphase', hhandler]⟩
      rcases hs with rfl | ⟨errors, rfl⟩ | ⟨_, rfl⟩
      · exact hx
      · exact hx
      · obtain ⟨pipe, hpipe⟩ := s.notifyProcess_spec task.flags
        rwa [hpipe] at hx
  | updated hphase hhandler hphase' =>
      rw [Loop.compareExchange_handler] at hx
      split at hx
      · simp at hx
      · rename_i hnot
        refine ⟨hx, fun hmem => absurd ?_ hnot⟩
        obtain rfl : x = task.handler := by simpa [unfinishedOf_singleton, hphase] using hmem
        exact ⟨rfl, hx⟩
  | returned hphase hs =>
      refine ⟨?_, by simp [unfinishedOf_singleton, hphase]⟩
      split at hs
      · rwa [hs] at hx
      · obtain ⟨pipe, rfl, _⟩ := Loop.notifyPost_spec hs
        exact hx

theorem QueuedInv.taskStep (hinv : QueuedInv s) (hout : TaskOutcome s task written s' task')
    (hbefore : (s.pc.inlineTasks ++ s.tasks).Perm (task :: others))
    (hafter : (s''.pc.inlineTasks ++ s''.tasks).Perm (task'.toList ++ others))
    (hhandler : s''.handler = s'.handler) (hmeta : s''.pollMeta = s.pollMeta)
    (hentries : ∀ entry ∈ s''.pc.toSubmit, entry ∈ s.pc.toSubmit)
    (hinHand : ∀ h ∈ s.pc.inHand, h ∈ s''.pc.inHand) : QueuedInv s'' := by
  refine ⟨fun entry hentry => hmeta ▸ hinv.entries entry (hentries entry hentry), fun x hx => ?_⟩
  rw [hhandler] at hx
  obtain ⟨hqueued, hgoesOn⟩ := hout.queued hx
  refine (hinv.queued x hqueued).imp (fun hmem => ?_) (hinHand x)
  have hold : x ∈ unfinishedOf [task] ++ unfinishedOf others := by
    rw [← unfinishedOf_append]
    exact (unfinishedOf_perm hbefore).subset hmem
  have hnew : x ∈ unfinishedOf (task'.toList ++ others) := by
    rw [unfinishedOf_append]
    exact List.mem_append.mpr ((List.mem_append.mp hold).imp_left hgoesOn)
  exact (unfinishedOf_perm hafter).symm.subset hnew

end Tasks

section Steps

variable {s s' : Loop} {act : LoopAction} {answer : LoopAnswer} {hist : List LoopAction}

theorem QueuedInv.goto (hinv : QueuedInv s)
    (hqueued : ∀ x, (s'.handler x).status = .queued → (s.handler x).status = .queued)
    (hunfinished : s'.unfinished = s.unfinished)
    (hinHand : ∀ x ∈ s.pc.inHand, (s'.handler x).status = .queued → x ∈ s'.pc.inHand)
    (hentries : ∀ entry ∈ s'.pc.toSubmit, entry ∈ s'.pollMeta) : QueuedInv s' := by
  refine ⟨hentries, fun x hx => ?_⟩
  rw [hunfinished]
  exact (hinv.queued x (hqueued x hx)).imp_right fun hmem => hinHand x hmem hx

theorem QueuedInv.other (hinv : QueuedInv s) (h : s.Step act s') (hact : act.ofLoop = false)
    (htasks : s'.tasks = s.tasks) : QueuedInv s' := by
  have hpc := h.pc_of_not_ofLoop hact
  have hmeta := (h.lists_of_not_ofLoop hact).2
  refine hinv.goto (fun x => (h.passes hact x).queued) ?_ ?_ ?_
  · rw [Loop.unfinished, Loop.unfinished, hpc, htasks]
  · rw [hpc]
    exact fun _ hx _ => hx
  · rw [hpc, hmeta]
    exact hinv.entries

/-- The loop thread goes on and leaves the tasks alone. It has no queued handler in its hand. -/
theorem QueuedInv.pass (hinv : QueuedInv s) (hinHand : s.pc.inHand = [])
    (hstatus : ∀ x, (s'.handler x).status = (s.handler x).status) (htasks : s'.tasks = s.tasks)
    (hinline : s'.pc.inlineTasks = s.pc.inlineTasks)
    (hentries : ∀ entry ∈ s'.pc.toSubmit, entry ∈ s'.pollMeta) : QueuedInv s' := by
  refine hinv.goto (fun x hx => hstatus x ▸ hx) ?_ ?_ hentries
  · rw [Loop.unfinished, Loop.unfinished, htasks, hinline]
  · rw [hinHand]
    exact fun _ hx => absurd hx List.not_mem_nil

theorem QueuedInv.setHandler {x : ℕ} {y : Handler} (hinv : QueuedInv s)
    (hstatus : y.status = (s.handler x).status) : QueuedInv (s.setHandler x y) :=
  hinv.goto (fun z hz => (Loop.setHandler_keeps Handler.status hstatus z).symm.trans hz) rfl
    (fun _ hz _ => hz) hinv.entries

attribute [local simp] LoopPc.inHand LoopPc.toSubmit LoopPc.inlineTasks Loop.unfinished

theorem QueuedInv.dispatch {entry : PollMeta} {rest : List PollMeta} (hinv : QueuedInv s)
    (hpc : s.pc = .dispatch entry rest) (h : s.loopStep answer = some s') : QueuedInv s' := by
  simp only [Loop.loopStep, hpc, Option.some.injEq] at h
  have hframe := LoopFrame.compareExchange s entry.handler .ready .queued
  rw [← h]
  refine ⟨?_, fun x hx => ?_⟩
  · simpa [hpc, hframe.pollMeta] using hinv.entries
  · by_cases hne : x = entry.handler
    · exact .inr (by simp [hne])
    · have hx' : (s.handler x).status = .queued := by
        simpa [Loop.compareExchange_handler, hne] using hx
      refine .inl ?_
      simpa [hpc, hframe.tasks] using hinv.queued x hx'

/-- The handler in the hand of the loop thread gets its task, or `loop_run` fails. -/
theorem QueuedInv.dispatchSubmit {entry : PollMeta} {rest : List PollMeta} (hinv : QueuedInv s)
    (hpc : s.pc = .dispatchSubmit entry rest) (h : s.loopStep answer = some s') :
    QueuedInv s' := by
  have hentries : entry ∈ s.pollMeta ∧ ∀ other ∈ rest, other ∈ s.pollMeta := by
    simpa [hpc] using hinv.entries
  have hqueued : ∀ x, (s.handler x).status = .queued →
      x ∈ unfinishedOf s.tasks ∨ x = entry.handler := by
    simpa [hpc] using hinv.queued
  simp only [Loop.loopStep, hpc] at h
  split at h
  · rw [← Option.some.inj h]
    refine ⟨hentries.2, fun x hx => .inl ?_⟩
    simpa [unfinishedOf, LoopTask.isFinished, or_comm] using hqueued x hx
  · split at h
    · rw [← Option.some.inj h]
      refine ⟨hentries.2, fun x hx => .inl ?_⟩
      simpa [unfinishedOf, LoopTask.isFinished, or_comm] using hqueued x hx
    · rw [← Option.some.inj h]
      refine ⟨by simp, fun x hx => ?_⟩
      rcases hqueued x hx with hmem | rfl
      · exact .inl hmem
      · exact .inr (List.mem_map_of_mem hentries.1)

theorem QueuedInv.inlineTask {task : LoopTask} {rest : List PollMeta} (hinv : QueuedInv s)
    (hpc : s.pc = .inlineTask task rest) (h : s.loopStep answer = some s') : QueuedInv s' := by
  have hbefore : (s.pc.inlineTasks ++ s.tasks).Perm (task :: s.tasks) := by
    rw [hpc]
    exact .refl _
  simp only [Loop.loopStep, hpc] at h
  split at h
  · simp at h
  · rename_i s₁ task₁ hstep
    have hout := taskStep_spec hstep
    rw [← Option.some.inj h]
    apply hinv.taskStep hout hbefore <;> simp [hpc, hout.frame.tasks, hout.frame.pollMeta]
  · rename_i s₁ hstep
    have hout := taskStep_spec hstep
    split at h
    · rw [← Option.some.inj h]
      apply hinv.taskStep hout hbefore <;> simp [hpc, hout.frame.tasks, hout.frame.pollMeta]
    · rw [← Option.some.inj h]
      apply hinv.taskStep hout hbefore <;> simp [hpc, hout.frame.tasks, hout.frame.pollMeta]

theorem QueuedInv.leave {rest : List PollMeta} {err : Option Error} (hinv : QueuedInv s)
    (hpc : s.pc = .leave rest err) (h : s.loopStep answer = some s') : QueuedInv s' := by
  cases rest with
  | nil =>
      simp only [Loop.loopStep, hpc, Option.some.injEq] at h
      rw [← h]
      apply hinv.pass <;> simp [hpc]
  | cons entry rest =>
      simp only [Loop.loopStep, hpc, Option.some.injEq] at h
      rw [← h]
      refine hinv.goto (fun x hx => ?_) (by simp [hpc, Loop.setStatus, Loop.setHandler])
        (fun x hmem hx => ?_) (by simp)
      · simp only [Loop.setStatus, Loop.setHandler_handler] at hx
        split at hx
        · simp at hx
        · exact hx
      · -- the handler that has been unregistered is not queued
        have hne : x ≠ entry.handler := by
          rintro rfl
          simp [Loop.setStatus, Loop.setHandler_handler] at hx
        simpa [hpc, hne] using hmem

theorem QueuedInv.loopStep (hinv : QueuedInv s) (h : s.loopStep answer = some s') :
    QueuedInv s' := by
  cases hpc : s.pc with
  | dispatch entry rest => exact hinv.dispatch hpc h
  | dispatchSubmit entry rest => exact hinv.dispatchSubmit hpc h
  | inlineTask task rest => exact hinv.inlineTask hpc h
  | leave rest err => exact hinv.leave hpc h
  | prepareFlags x rest empty forced =>
      have hinv' : QueuedInv (s.setHandler x
          { s.handler x with currentFlags := (s.handler x).pendingFlags.allIn }) :=
        hinv.setHandler rfl
      have hpc' : (s.setHandler x
          { s.handler x with currentFlags := (s.handler x).pendingFlags.allIn }).pc = _ := hpc
      simp only [Loop.loopStep, hpc] at h
      split at h <;>
      · rw [← Option.some.inj h]
        apply hinv'.pass <;> simp [hpc']
  | prepareForce x events rest empty forced =>
      have hinv' : QueuedInv (s.setHandler x { s.handler x with force := false }) :=
        hinv.setHandler rfl
      have hpc' : (s.setHandler x { s.handler x with force := false }).pc = _ := hpc
      simp only [Loop.loopStep, hpc] at h
      split at h <;>
      · rw [← Option.some.inj h]
        apply hinv'.pass <;> simp [hpc']
  | submit rest =>
      have hentries : ∀ entry ∈ rest, entry ∈ s.pollMeta := by
        simpa [hpc] using hinv.entries
      have hsame : s'.handler = s.handler ∧ s'.tasks = s.tasks ∧ s'.pc.inlineTasks = [] ∧
          s'.pollMeta = s.pollMeta ∧ ∀ entry ∈ s'.pc.toSubmit, entry ∈ rest := by
        rw [Loop.loopStep, hpc] at h
        grind [LoopPc.toSubmit, LoopPc.inlineTasks]
      obtain ⟨hhandler, htasks, hinline, hmeta, hrest⟩ := hsame
      refine hinv.pass (by simp [hpc]) (fun x => by rw [hhandler]) htasks ?_ ?_
      · rw [hinline, hpc]
        rfl
      · exact fun entry hentry => hmeta ▸ hentries entry (hrest entry hentry)
  | _ =>
      -- the other steps leave the handlers and the tasks alone
      have hsame : s'.handler = s.handler ∧ s'.tasks = s.tasks ∧ s'.pc.inlineTasks = [] ∧
          ∀ entry ∈ s'.pc.toSubmit, entry ∈ s'.pollMeta := by
        rw [Loop.loopStep, hpc] at h
        grind [LoopPc.toSubmit, LoopPc.inlineTasks]
      obtain ⟨hhandler, htasks, hinline, hentries⟩ := hsame
      refine hinv.pass (by simp [hpc]) (fun x => by rw [hhandler]) htasks ?_ hentries
      rw [hinline, hpc]
      rfl

theorem QueuedInv.step (hinv : QueuedInv s) (h : s.Step act s') : QueuedInv s' := by
  cases h.outcome with
  | register | unregister | force | setPendingMask | stop => exact hinv.other h rfl rfl
  | proceed _ hproceed =>
      obtain ⟨calls, pipe, raised, rfl⟩ := Loop.proceed_frame hproceed
      exact hinv.other h rfl rfl
  | task htask hout =>
      have hframe := hout.frame
      have hbefore := ((List.perm_cons_erase htask).append_left s.pc.inlineTasks).trans
        List.perm_middle
      apply hinv.taskStep hout hbefore
      · simp only [hframe.pc]
        exact List.perm_append_comm_assoc _ _ _
      · rfl
      · exact hframe.pollMeta
      · simp only [hframe.pc, imp_self, implies_true]
      · simp only [hframe.pc, imp_self, implies_true]
  | loop hstep => exact hinv.loopStep hstep

theorem QueuedInv.of_init (h : s.Init) : QueuedInv s := by
  obtain ⟨handler, hfresh, rfl⟩ := h
  refine ⟨by simp [loopNew], fun x hx => ?_⟩
  by_cases hne : x = notifyId
  · simp [loopNew, hne, notifyHandler] at hx
  · simp [loopNew, hne, (hfresh x).1] at hx

end Steps

end PosixThreads
