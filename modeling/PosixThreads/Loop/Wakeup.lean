import PosixThreads.Loop.Dispatch

/-!
# Notifications of the loop

The loop looks at the flag `stopped`, at `pending_handlers` and at the flags `force` of the
handlers that are ready before it calls `poll`. Whoever changes one of these later has yet to
notify the loop, or has done so, and then there is something in the pipe: `notify_process` is
the only one to take it out, after `poll` has returned. A handler that is queued while the
loop looks at it is made ready by its task, which notifies the loop as well.
-/

namespace PosixThreads

def PendingCall.notifies (s : Loop) : PendingCall → Bool
  | .forced h => (s.handler h).loop
  | .interrupt => true
  | .wakeup => true

/-- There is something in the pipe, or somebody is about to put something there. -/
def Loop.Coming (s : Loop) : Prop :=
  0 < s.pipe ∨ (∃ call ∈ s.calls, call.notifies s = true) ∨ ∃ task ∈ s.tasks, task.isFinished = true

/-- The loop has taken the handlers out of `pending_handlers`, and has not yet polled. -/
def LoopPc.pendingTaken : LoopPc → Bool
  | .sweep _ _ => true
  | .prepare => true
  | .preparing _ _ _ => true
  | .prepareFlags _ _ _ _ => true
  | .prepareForce _ _ _ _ _ => true
  | .poll _ => true
  | _ => false

/-- The handlers that the loop has yet to look at, if it is preparing to poll or polling. -/
def LoopPc.ahead : LoopPc → Option (List ℕ)
  | .preparing [] true _ => none
  | .preparing rest _ _ => some rest
  | .prepareFlags h rest _ _ => some (h :: rest)
  | .prepareForce h _ rest _ _ => some (h :: rest)
  | .poll _ => some []
  | _ => none

structure NotifyInv (s : Loop) : Prop where
  raised : s.raised = true → 0 < s.pipe
  notify : (s.handler notifyId).force = false
  tasks : ∀ task ∈ s.tasks, task.handler ≠ notifyId
  pending : s.pc.pendingTaken = true → s.pendingHandlers ≠ [] → s.Coming
  stopped : s.pc.ahead ≠ none → s.stopped = true → s.Coming
  forced : ∀ rest, s.pc.ahead = some rest → ∀ h ∈ s.handlers, h ∉ rest →
    (s.handler h).status = .ready → (s.handler h).force = true → s.Coming

/-! ## What is to come -/

section Coming

variable {s s' : Loop}

/-- What is to come still comes if nothing of it has been taken away. -/
theorem Loop.Coming.mono (h : s.Coming) (hpipe : s.pipe ≤ s'.pipe)
    (hcalls : ∀ call ∈ s.calls, call.notifies s = true → call ∈ s'.calls)
    (htasks : ∀ task ∈ s.tasks, task.isFinished = true → task ∈ s'.tasks)
    (hloop : ∀ h, (s'.handler h).loop = (s.handler h).loop) : s'.Coming := by
  rcases h with hpos | ⟨call, hcall, hnotifies⟩ | ⟨task, htask, hfinished⟩
  · exact .inl (Nat.lt_of_lt_of_le hpos hpipe)
  · refine .inr (.inl ⟨call, hcalls call hcall hnotifies, ?_⟩)
    cases call with
    | forced h => exact (hloop h).trans hnotifies
    | interrupt | wakeup => rfl
  · exact .inr (.inr ⟨task, htasks task htask hfinished, hfinished⟩)

theorem Loop.Coming.setHandler {x : ℕ} {y : Handler} (h : s.Coming)
    (hloop : y.loop = (s.handler x).loop) : (s.setHandler x y).Coming :=
  h.mono (Nat.le_refl _) (fun _ hcall _ => hcall) (fun _ htask _ => htask)
    (LoopFrame.setHandler hloop).loop

theorem Loop.Coming.proceed {call : PendingCall} {written : Bool}
    (hraised : s.raised = true → 0 < s.pipe)
    (h : ({ s with calls := s.calls.erase call } : Loop).proceed call written = some s')
    (hcoming : s.Coming) : s'.Coming := by
  cases call with
  | forced x =>
      simp only [Loop.proceed] at h
      split at h
      · rw [← Option.some.inj h]
        exact .inr (.inl ⟨.interrupt, by simp, rfl⟩)
      · rename_i hx
        rw [← Option.some.inj h]
        refine hcoming.mono (Nat.le_refl _) (fun call hcall hnotifies => ?_)
          (fun _ htask _ => htask) fun _ => rfl
        have hne : call ≠ .forced x := by
          rintro rfl
          exact hx hnotifies
        exact (List.mem_erase_of_ne hne).mpr hcall
  | interrupt =>
      obtain ⟨pipe, rfl, hpipe⟩ := Loop.notifyPost_spec h
      exact .inl (hpipe hraised)
  | wakeup =>
      obtain ⟨pipe, hpipe, rfl⟩ := Loop.writePipe_spec h
      exact .inl hpipe

/-- A task that has not made its handler ready is of no consequence, and one that returns notifies
the loop. -/
theorem Loop.Coming.task {task : LoopTask} {task' : Option LoopTask} {written : Bool}
    (hraised : s.raised = true → 0 < s.pipe) (hnotify : task.handler ≠ notifyId)
    (hout : TaskOutcome s task written s' task') (hcoming : s.Coming) :
    Loop.Coming { s' with tasks := task'.toList ++ s.tasks.erase task } := by
  cases hout with
  | running hphase hs hhandler hphase' =>
      have hs' : ∃ errors, s' = { s with errors := errors } := by
        rcases hs with rfl | hs | ⟨heq, _⟩
        · exact ⟨_, rfl⟩
        · exact hs
        · exact absurd heq hnotify
      obtain ⟨errors, rfl⟩ := hs'
      refine hcoming.mono (Nat.le_refl _) (fun _ hcall _ => hcall)
        (fun other hother hfinished => ?_) fun _ => rfl
      have hne : other ≠ task := by
        rintro rfl
        rw [hphase] at hfinished
        simp at hfinished
      exact List.mem_append_right _ ((List.mem_erase_of_ne hne).mpr hother)
  | updated hphase hhandler hphase' =>
      rename_i task'
      exact .inr (.inr ⟨task', by simp, hphase'⟩)
  | returned _ hs =>
      rw [if_neg hnotify] at hs
      obtain ⟨pipe, rfl, hpipe⟩ := Loop.notifyPost_spec hs
      exact .inl (hpipe hraised)

end Coming

section Others

variable {s s' : Loop}

/-- Once there is something to come, nothing else is asked for. -/
theorem NotifyInv.of_coming (hcoming : s'.Coming) (hraised : s'.raised = true → 0 < s'.pipe)
    (hnotify : (s'.handler notifyId).force = false)
    (htasks : ∀ task ∈ s'.tasks, task.handler ≠ notifyId) : NotifyInv s' :=
  ⟨hraised, hnotify, htasks, fun _ _ => hcoming, fun _ _ => hcoming,
    fun _ _ _ _ _ _ _ => hcoming⟩

/-- Nothing has happened that the loop would have to look at. -/
theorem NotifyInv.of_quiet (hinv : NotifyInv s) (hcoming : s.Coming → s'.Coming)
    (hraised : s'.raised = true → 0 < s'.pipe) (hnotify : (s'.handler notifyId).force = false)
    (htasks : ∀ task ∈ s'.tasks, task.handler ≠ notifyId) (hpc : s'.pc = s.pc)
    (hhandlers : s'.handlers = s.handlers) (hpending : s'.pendingHandlers = s.pendingHandlers)
    (hstopped : s'.stopped = s.stopped)
    (hforced : ∀ h ∈ s.handlers, (s'.handler h).status = .ready → (s'.handler h).force = true →
      (s.handler h).status = .ready ∧ (s.handler h).force = true) : NotifyInv s' := by
  refine ⟨hraised, hnotify, htasks, ?_, ?_, ?_⟩
  · rw [hpc, hpending]
    exact fun htaken hne => hcoming (hinv.pending htaken hne)
  · rw [hpc, hstopped]
    exact fun hahead hstop => hcoming (hinv.stopped hahead hstop)
  · rw [hpc, hhandlers]
    intro rest hahead h hmem hrest hready hforce
    obtain ⟨hready', hforce'⟩ := hforced h hmem hready hforce
    exact hcoming (hinv.forced rest hahead h hmem hrest hready' hforce')

theorem NotifyInv.setHandler {x : ℕ} {y : Handler} (hinv : NotifyInv s)
    (hready : y.status = .ready → (s.handler x).status = .ready)
    (hforce : y.force = (s.handler x).force) (hloop : y.loop = (s.handler x).loop) :
    NotifyInv (s.setHandler x y) := by
  refine hinv.of_quiet ?_ hinv.raised ?_ hinv.tasks rfl rfl rfl rfl ?_
  · exact fun hcoming => hcoming.setHandler hloop
  · rw [Loop.setHandler_handler]
    split
    · rename_i heq
      rw [hforce, ← heq]
      exact hinv.notify
    · exact hinv.notify
  · intro h _
    rw [Loop.setHandler_handler]
    split
    · rename_i heq
      rw [heq, hforce]
      exact fun hy hf => ⟨hready hy, hf⟩
    · exact fun hy hf => ⟨hy, hf⟩

theorem NotifyInv.register {x : ℕ} (hinv : NotifyInv s) (hne : x ≠ notifyId) :
    NotifyInv (s.loopRegister x) := by
  refine .of_coming (Or.inr (Or.inl ⟨.interrupt, by simp [Loop.loopRegister], rfl⟩)) hinv.raised ?_
    hinv.tasks
  simp only [Loop.loopRegister, Loop.setHandler_handler, if_neg hne.symm]
  exact hinv.notify

/-- `handler_force` notifies the loop if the handler is registered. -/
theorem NotifyInv.force {x : ℕ} (hinv : NotifyInv s) (hloop : LoopInv s) (hne : x ≠ notifyId) :
    NotifyInv { s.setHandler x { s.handler x with force := true } with
      calls := .forced x :: s.calls } := by
  have hnotify : ((s.setHandler x { s.handler x with force := true }).handler notifyId).force =
      false := by
    rw [Loop.setHandler_handler, if_neg hne.symm]
    exact hinv.notify
  have hframe : LoopFrame s (s.setHandler x { s.handler x with force := true }) := .setHandler rfl
  have hloops := hframe.loop
  by_cases hx : (s.handler x).loop = true
  · refine .of_coming (Or.inr (Or.inl ⟨.forced x, by simp, ?_⟩)) hinv.raised hnotify hinv.tasks
    exact (hloops x).trans hx
  · refine hinv.of_quiet ?_ hinv.raised hnotify hinv.tasks rfl rfl rfl rfl ?_
    · exact fun hcoming => hcoming.mono (Nat.le_refl _)
        (fun _ hcall _ => List.mem_cons_of_mem _ hcall) (fun _ htask _ => htask) hloops
    · intro h hmem hready hforce
      have hne' : h ≠ x := by
        rintro rfl
        exact hx (hloop.listed h (List.mem_append_left _ hmem) hne)
      simp only [Loop.setHandler_handler, if_neg hne'] at hready hforce
      exact ⟨hready, hforce⟩

theorem NotifyInv.proceed {call : PendingCall} {written : Bool} (hinv : NotifyInv s)
    (h : ({ s with calls := s.calls.erase call } : Loop).proceed call written = some s') :
    NotifyInv s' := by
  have hcoming := Loop.Coming.proceed hinv.raised h
  cases call with
  | forced x =>
      simp only [Loop.proceed] at h
      split at h <;>
      · rw [← Option.some.inj h] at hcoming ⊢
        exact hinv.of_quiet hcoming hinv.raised hinv.notify hinv.tasks rfl rfl rfl rfl
          fun h _ hready hforce => ⟨hready, hforce⟩
  | interrupt =>
      obtain ⟨pipe, rfl, hpipe⟩ := Loop.notifyPost_spec h
      have hpos := hpipe hinv.raised
      exact .of_coming (Or.inl hpos) (fun _ => hpos) hinv.notify hinv.tasks
  | wakeup =>
      obtain ⟨pipe, hpipe, rfl⟩ := Loop.writePipe_spec h
      exact .of_coming (Or.inl hpipe) (fun _ => hpipe) hinv.notify hinv.tasks

theorem Loop.compareExchange_force (s : Loop) (x h : ℕ) (expected desired : HandlerStatus) :
    ((s.compareExchange x expected desired).handler h).force = (s.handler h).force := by
  rw [Loop.compareExchange_handler]
  split
  · rename_i hand
    rw [hand.1]
  · rfl

theorem Loop.compareExchange_eq (s : Loop) (x : ℕ) (expected desired : HandlerStatus) :
    s.compareExchange x expected desired =
      { s with handler := (s.compareExchange x expected desired).handler } := by
  rw [Loop.compareExchange]
  split <;> rfl

theorem NotifyInv.task {task : LoopTask} {task' : Option LoopTask} {written : Bool}
    (hinv : NotifyInv s) (hmem : task ∈ s.tasks) (hout : TaskOutcome s task written s' task') :
    NotifyInv { s' with tasks := task'.toList ++ s.tasks.erase task } := by
  have hnotify := hinv.tasks task hmem
  have hcoming := Loop.Coming.task hinv.raised hnotify hout
  have hothers : ∀ other ∈ s.tasks.erase task, other.handler ≠ notifyId :=
    fun other hother => hinv.tasks other (List.mem_of_mem_erase hother)
  cases hout with
  | running hphase hs hhandler hphase' =>
      have hs' : ∃ errors, s' = { s with errors := errors } := by
        rcases hs with rfl | hs | ⟨heq, _⟩
        · exact ⟨_, rfl⟩
        · exact hs
        · exact absurd heq hnotify
      obtain ⟨errors, rfl⟩ := hs'
      refine hinv.of_quiet hcoming hinv.raised hinv.notify ?_ rfl rfl rfl rfl
        fun h _ hready hforce => ⟨hready, hforce⟩
      intro other hother
      rcases List.mem_append.mp hother with hother | hother
      · rw [Option.toList_some, List.mem_singleton] at hother
        rw [hother, hhandler]
        exact hnotify
      · exact hothers other hother
  | updated hphase hhandler hphase' =>
      rename_i task'
      rw [Loop.compareExchange_eq]
      refine .of_coming (Or.inr (Or.inr ⟨task', by simp, hphase'⟩)) hinv.raised ?_ ?_
      · exact (s.compareExchange_force _ _ _ _).trans hinv.notify
      · intro other hother
        rcases List.mem_append.mp hother with hother | hother
        · rw [Option.toList_some, List.mem_singleton] at hother
          rw [hother, hhandler]
          exact hnotify
        · exact hothers other hother
  | returned hphase hs =>
      rw [if_neg hnotify] at hs
      obtain ⟨pipe, rfl, hpipe⟩ := Loop.notifyPost_spec hs
      have hpos := hpipe hinv.raised
      exact .of_coming (Or.inl hpos) (fun _ => hpos) hinv.notify hothers

end Others

section LoopThread

variable {s s' : Loop} {answer : LoopAnswer}

/-- The loop will look at everything again before it polls. -/
theorem NotifyInv.of_unwatched (hraised : s'.raised = true → 0 < s'.pipe)
    (hnotify : (s'.handler notifyId).force = false)
    (htasks : ∀ task ∈ s'.tasks, task.handler ≠ notifyId) (htaken : s'.pc.pendingTaken = false)
    (hahead : s'.pc.ahead = none) : NotifyInv s' :=
  ⟨hraised, hnotify, htasks, by simp [htaken], by simp [hahead], by simp [hahead]⟩

theorem NotifyInv.look (hinv : NotifyInv s) (hpipe : s'.pipe = s.pipe)
    (hraised : s'.raised = s.raised) (hcalls : s'.calls = s.calls) (htasks : s'.tasks = s.tasks)
    (hloop : ∀ h, (s'.handler h).loop = (s.handler h).loop)
    (hnotify : (s'.handler notifyId).force = false)
    (hpending : s'.pc.pendingTaken = true → s'.pendingHandlers ≠ [] →
      s.pc.pendingTaken = true ∧ s.pendingHandlers ≠ [])
    (hstopped : s'.pc.ahead ≠ none → s'.stopped = true →
      s.pc.ahead ≠ none ∧ s.stopped = true)
    (hforced : ∀ rest, s'.pc.ahead = some rest → ∀ h ∈ s'.handlers, h ∉ rest →
      (s'.handler h).status = .ready → (s'.handler h).force = true →
        ∃ rest', s.pc.ahead = some rest' ∧ h ∈ s.handlers ∧ h ∉ rest' ∧
          (s.handler h).status = .ready ∧ (s.handler h).force = true) : NotifyInv s' := by
  have hcoming : s.Coming → s'.Coming := fun h =>
    h.mono (Nat.le_of_eq hpipe.symm) (fun _ hcall _ => hcalls ▸ hcall)
      (fun _ htask _ => htasks ▸ htask) hloop
  refine ⟨?_, hnotify, htasks ▸ hinv.tasks, ?_, ?_, ?_⟩
  · rw [hraised, hpipe]
    exact hinv.raised
  · intro htaken hne
    obtain ⟨htaken', hne'⟩ := hpending htaken hne
    exact hcoming (hinv.pending htaken' hne')
  · intro hahead hstop
    obtain ⟨hahead', hstop'⟩ := hstopped hahead hstop
    exact hcoming (hinv.stopped hahead' hstop')
  · intro rest hahead h hmem hrest hready hforce
    obtain ⟨rest', hahead', hmem', hrest', hready', hforce'⟩ :=
      hforced rest hahead h hmem hrest hready hforce
    exact hcoming (hinv.forced rest' hahead' h hmem' hrest' hready' hforce')

theorem NotifyInv.registering {rest : List ℕ} {err : Option Error} (hinv : NotifyInv s)
    (hpc : s.pc = .registering rest err) (h : s.loopStep answer = some s') : NotifyInv s' := by
  cases rest with
  | nil =>
      simp only [Loop.loopStep, hpc, Option.some.injEq] at h
      rw [← h]
      apply hinv.look <;> simp [LoopPc.ahead, hinv.notify]
  | cons x rest =>
      simp only [Loop.loopStep, hpc] at h
      split at h
      · split at h <;>
        · rw [← Option.some.inj h]
          exact .of_unwatched hinv.raised hinv.notify hinv.tasks rfl rfl
      · simp at h
      · rw [← Option.some.inj h]
        exact .of_unwatched hinv.raised hinv.notify hinv.tasks rfl rfl

theorem NotifyInv.sweep {i : ℕ} {err : Option Error} (hinv : NotifyInv s)
    (hpc : s.pc = .sweep i err) (h : s.loopStep answer = some s') : NotifyInv s' := by
  cases i with
  | zero =>
      cases err with
      | none =>
          simp only [Loop.loopStep, hpc, Option.some.injEq] at h
          rw [← h]
          apply hinv.look <;> simp [LoopPc.ahead, LoopPc.pendingTaken, hpc, hinv.notify]
      | some err =>
          simp only [Loop.loopStep, hpc, Option.some.injEq] at h
          rw [← h]
          exact .of_unwatched hinv.raised hinv.notify hinv.tasks rfl rfl
  | succ i =>
      simp only [Loop.loopStep, hpc] at h
      split at h
      · simp at h
      · split at h <;>
        · rw [← Option.some.inj h]
          apply hinv.look <;> simp [LoopPc.ahead, LoopPc.pendingTaken, hpc, hinv.notify]

theorem NotifyInv.prepare (hinv : NotifyInv s) (hpc : s.pc = .prepare)
    (h : s.loopStep answer = some s') : NotifyInv s' := by
  simp only [Loop.loopStep, hpc] at h
  split at h
  · rw [← Option.some.inj h]
    apply hinv.look <;> simp [LoopPc.ahead, LoopPc.pendingTaken, hpc, hinv.notify]
  · rename_i hstopped
    rw [← Option.some.inj h]
    apply hinv.look <;> simp [LoopPc.ahead, LoopPc.pendingTaken, hpc, hinv.notify, hstopped]
    exact fun h hmem hnot => absurd hmem hnot

theorem ahead_preparing {rest rest' : List ℕ} {empty forced : Bool}
    (h : (LoopPc.preparing rest empty forced).ahead = some rest') : rest' = rest := by
  cases rest with
  | nil => cases empty <;> simp_all [LoopPc.ahead]
  | cons => simpa [LoopPc.ahead, eq_comm] using h

theorem NotifyInv.skip {x : ℕ} {rest : List ℕ} {empty empty' forced : Bool} (hinv : NotifyInv s)
    (hpc : s.pc = .preparing (x :: rest) empty forced) (hx : (s.handler x).status ≠ .ready) :
    NotifyInv { s with pc := .preparing rest empty' forced } := by
  refine hinv.look rfl rfl rfl rfl (fun _ => rfl) hinv.notify ?_ ?_ ?_
  · simp [hpc, LoopPc.pendingTaken]
  · simp [hpc, LoopPc.ahead]
  · intro rest' hahead h hmem hrest hready hforce
    rw [ahead_preparing hahead] at hrest
    have hne : h ≠ x := fun heq => hx (heq ▸ hready)
    exact ⟨x :: rest, by simp [hpc, LoopPc.ahead], hmem, by simp [hne, hrest], hready, hforce⟩

theorem NotifyInv.preparing {rest : List ℕ} {empty forced : Bool} (hinv : NotifyInv s)
    (hpc : s.pc = .preparing rest empty forced) (h : s.loopStep answer = some s') :
    NotifyInv s' := by
  cases rest with
  | nil =>
      simp only [Loop.loopStep, hpc] at h
      split at h
      · rw [← Option.some.inj h]
        exact .of_unwatched hinv.raised hinv.notify hinv.tasks rfl rfl
      · rename_i hempty
        rw [← Option.some.inj h]
        rw [Bool.not_eq_true] at hempty
        apply hinv.look <;> simp [LoopPc.ahead, LoopPc.pendingTaken, hpc, hempty, hinv.notify]
        exact fun h hmem hready hforce => ⟨hmem, hready, hforce⟩
  | cons x rest =>
      simp only [Loop.loopStep, hpc] at h
      split at h
      · rename_i hx
        rw [← Option.some.inj h]
        exact hinv.skip hpc (by simp [hx])
      · rename_i hx
        rw [← Option.some.inj h]
        exact hinv.skip hpc (by simp [hx])
      · rw [← Option.some.inj h]
        apply hinv.look <;> simp [LoopPc.ahead, LoopPc.pendingTaken, hpc, hinv.notify]
        exact fun h hmem hne hrest hready hforce => ⟨hmem, ⟨hne, hrest⟩, hready, hforce⟩

theorem NotifyInv.prepareFlags {x : ℕ} {rest : List ℕ} {empty forced : Bool} (hinv : NotifyInv s)
    (hpc : s.pc = .prepareFlags x rest empty forced) (h : s.loopStep answer = some s') :
    NotifyInv s' := by
  have hinv' : NotifyInv (s.setHandler x
      { s.handler x with currentFlags := (s.handler x).pendingFlags.allIn }) :=
    hinv.setHandler id rfl rfl
  have hpc' : (s.setHandler x
      { s.handler x with currentFlags := (s.handler x).pendingFlags.allIn }).pc = _ := hpc
  simp only [Loop.loopStep, hpc] at h
  split at h
  · rw [← Option.some.inj h]
    apply hinv'.look <;> simp [LoopPc.ahead, LoopPc.pendingTaken, hpc', hinv'.notify]
    exact fun h hmem hne hrest hready hforce => ⟨hmem, ⟨hne, hrest⟩, hready, hforce⟩
  · rw [← Option.some.inj h]
    exact .of_unwatched hinv'.raised hinv'.notify hinv'.tasks rfl rfl

theorem NotifyInv.prepareForce {x : ℕ} {events : PollFlags} {rest : List ℕ} {empty forced : Bool}
    (hinv : NotifyInv s) (hpc : s.pc = .prepareForce x events rest empty forced)
    (h : s.loopStep answer = some s') : NotifyInv s' := by
  have hnotify : ((s.setHandler x { s.handler x with force := false }).handler notifyId).force =
      false := by
    rw [Loop.setHandler_handler]
    split
    · rfl
    · exact hinv.notify
  have hframe : LoopFrame s (s.setHandler x { s.handler x with force := false }) := .setHandler rfl
  simp only [Loop.loopStep, hpc] at h
  split at h
  · rw [← Option.some.inj h]
    refine hinv.look rfl rfl rfl rfl hframe.loop hnotify ?_ ?_ ?_
    · simp [hpc, LoopPc.pendingTaken, Loop.setHandler]
    · simp [hpc, LoopPc.ahead, Loop.setHandler]
    · intro rest' hahead h hmem hrest hready hforce
      rw [ahead_preparing hahead] at hrest
      have hne : h ≠ x := by
        rintro rfl
        simp [Loop.setHandler_handler] at hforce
      simp only [Loop.setHandler_handler, if_neg hne] at hready hforce
      exact ⟨x :: rest, by simp [hpc, LoopPc.ahead], hmem, by simp [hne, hrest], hready, hforce⟩
  · rw [← Option.some.inj h]
    exact .of_unwatched hinv.raised hnotify hinv.tasks rfl rfl

/-- The task of `notify` runs in the loop thread, and takes a byte out of the pipe together
with the flag `raised`. -/
theorem NotifyInv.inlineTask {task : LoopTask} {rest : List PollMeta} (hinv : NotifyInv s)
    (hpc : s.pc = .inlineTask task rest) (h : s.loopStep answer = some s') : NotifyInv s' := by
  have hstep : ∀ {s₁ : Loop} {task₁ : Option LoopTask},
      TaskOutcome s task answer.task.written s₁ task₁ →
        (s₁.raised = true → 0 < s₁.pipe) ∧ (s₁.handler notifyId).force = false ∧
          s₁.tasks = s.tasks := by
    intro s₁ task₁ hout
    cases hout with
    | running _ hs _ _ =>
        rcases hs with rfl | ⟨errors, rfl⟩ | ⟨_, rfl⟩
        · exact ⟨hinv.raised, hinv.notify, rfl⟩
        · exact ⟨hinv.raised, hinv.notify, rfl⟩
        · obtain ⟨pipe, hpipe⟩ := s.notifyProcess_spec task.flags
          rw [hpipe]
          exact ⟨by simp, hinv.notify, rfl⟩
    | updated =>
        rw [Loop.compareExchange_eq]
        exact ⟨hinv.raised, (s.compareExchange_force _ _ _ _).trans hinv.notify, rfl⟩
    | returned _ hs =>
        split at hs
        · rw [hs]
          exact ⟨hinv.raised, hinv.notify, rfl⟩
        · obtain ⟨pipe, rfl, hpipe⟩ := Loop.notifyPost_spec hs
          exact ⟨fun _ => hpipe hinv.raised, hinv.notify, rfl⟩
  simp only [Loop.loopStep, hpc] at h
  split at h
  · simp at h
  · rename_i s₁ task₁ htask
    obtain ⟨hraised, hnotify, htasks⟩ := hstep (taskStep_spec htask)
    rw [← Option.some.inj h]
    exact .of_unwatched hraised hnotify (htasks ▸ hinv.tasks) rfl rfl
  · rename_i s₁ htask
    obtain ⟨hraised, hnotify, htasks⟩ := hstep (taskStep_spec htask)
    split at h <;>
    · rw [← Option.some.inj h]
      exact .of_unwatched hraised hnotify (htasks ▸ hinv.tasks) rfl rfl

theorem NotifyInv.loopStep (hinv : NotifyInv s) (h : s.loopStep answer = some s') :
    NotifyInv s' := by
  cases hpc : s.pc with
  | registering rest err => exact hinv.registering hpc h
  | sweep i err => exact hinv.sweep hpc h
  | prepare => exact hinv.prepare hpc h
  | preparing rest empty forced => exact hinv.preparing hpc h
  | prepareFlags x rest empty forced => exact hinv.prepareFlags hpc h
  | prepareForce x events rest empty forced => exact hinv.prepareForce hpc h
  | inlineTask task rest => exact hinv.inlineTask hpc h
  | dispatch entry rest =>
      simp only [Loop.loopStep, hpc, Option.some.injEq] at h
      rw [← h, Loop.compareExchange_eq]
      exact .of_unwatched hinv.raised ((s.compareExchange_force _ _ _ _).trans hinv.notify)
        hinv.tasks rfl rfl
  | dispatchSubmit entry rest =>
      simp only [Loop.loopStep, hpc] at h
      split at h
      · rw [← Option.some.inj h]
        exact .of_unwatched hinv.raised hinv.notify hinv.tasks rfl rfl
      · rename_i hne
        split at h
        · rw [← Option.some.inj h]
          refine .of_unwatched hinv.raised hinv.notify ?_ rfl rfl
          simpa using ⟨hne, hinv.tasks⟩
        · rw [← Option.some.inj h]
          exact .of_unwatched hinv.raised hinv.notify hinv.tasks rfl rfl
  | leave rest err =>
      cases rest with
      | nil =>
          simp only [Loop.loopStep, hpc, Option.some.injEq] at h
          rw [← h]
          exact .of_unwatched hinv.raised hinv.notify hinv.tasks rfl rfl
      | cons entry rest =>
          simp only [Loop.loopStep, hpc, Option.some.injEq] at h
          have hinv' : NotifyInv (s.setStatus entry.handler .unregistered) :=
            hinv.setHandler (fun hready => by simp at hready) rfl rfl
          rw [← h]
          exact .of_unwatched hinv'.raised hinv'.notify hinv'.tasks rfl rfl
  | _ =>
      -- the other steps lead to places where the loop has yet to look at everything
      have hsame : s'.raised = s.raised ∧ s'.pipe = s.pipe ∧ s'.handler = s.handler ∧
          s'.tasks = s.tasks ∧ s'.pc.pendingTaken = false ∧ s'.pc.ahead = none := by
        rw [Loop.loopStep, hpc] at h
        grind [LoopPc.pendingTaken, LoopPc.ahead]
      obtain ⟨hraised, hpipe, hhandler, htasks, htaken, hahead⟩ := hsame
      refine .of_unwatched ?_ (hhandler ▸ hinv.notify) (htasks ▸ hinv.tasks) htaken hahead
      rw [hraised, hpipe]
      exact hinv.raised

end LoopThread

section Runs

variable {s s' : Loop} {act : LoopAction} {hist : List LoopAction}

theorem NotifyInv.step (hinv : NotifyInv s) (hloop : LoopInv s) (h : s.Step act s') :
    NotifyInv s' := by
  cases h.outcome with
  | register hne => exact hinv.register hne
  | unregister => exact hinv.setHandler (fun hready => by simp at hready) rfl rfl
  | force hne => exact hinv.force hloop hne
  | setPendingMask => exact hinv.setHandler id rfl rfl
  | stop =>
      exact .of_coming (Or.inr (Or.inl ⟨.wakeup, by simp, rfl⟩)) hinv.raised hinv.notify hinv.tasks
  | proceed _ hproceed => exact hinv.proceed hproceed
  | task htask hout => exact hinv.task htask hout
  | loop hstep => exact hinv.loopStep hstep

theorem NotifyInv.of_init (h : s.Init) : NotifyInv s := by
  obtain ⟨handler, _, rfl⟩ := h
  exact .of_unwatched (by simp [loopNew]) (by simp [loopNew, notifyHandler]) (by simp [loopNew])
    rfl rfl

/-- While the loop waits in `poll` with nothing in the pipe, there is nothing left for it to
do, unless a thread is about to notify it. -/
structure NothingLost (s : Loop) : Prop where
  forced : ∀ h ∈ s.handlers, ¬((s.handler h).status = .ready ∧ (s.handler h).force = true)
  pending : s.pendingHandlers = []
  stopped : s.stopped = false

/-- No notification of the loop is lost in any run. -/
theorem nothingLost_of_run (hrun : Lts.Run Loop.Init Loop.Step hist s) (hpc : s.pc = .poll false)
    (hpipe : s.pipe = 0) (hcalls : s.calls = [])
    (htasks : ∀ task ∈ s.tasks, task.isFinished = false) : NothingLost s := by
  have hinv : LoopInv s ∧ NotifyInv s := by
    refine Lts.Run.invariant (I := fun _ s => LoopInv s ∧ NotifyInv s) hrun ?_ ?_
    · exact fun s hinit => ⟨.of_init hinit, .of_init hinit⟩
    · exact fun _ s act s' hinv hstep => ⟨hinv.1.step hstep, hinv.2.step hinv.1 hstep⟩
  have hnone : ¬s.Coming := by
    rintro (hpos | ⟨call, hcall, _⟩ | ⟨task, htask, hfinished⟩)
    · omega
    · simp [hcalls] at hcall
    · simp [htasks task htask] at hfinished
  refine ⟨fun h hmem hforced => ?_, ?_, ?_⟩
  · exact hnone (hinv.2.forced [] (by rw [hpc]; rfl) h hmem (by simp) hforced.1 hforced.2)
  · by_contra hne
    exact hnone (hinv.2.pending (by rw [hpc]; rfl) hne)
  · rw [← Bool.not_eq_true]
    exact fun hstopped => hnone (hinv.2.stopped (by simp [hpc, LoopPc.ahead]) hstopped)

end Runs

/-- The handler 1 is registered and forced, and the loop submits its task and polls again. -/
def blockedActs : List LoopAction :=
  let answer : LoopAnswer := ⟨true, true, some [⟨true, false, false, false⟩, .empty],
    ⟨true, true⟩, ⟨none, true, true, ⟨true, true⟩⟩⟩
  [.register 1, .proceed .interrupt true, .force 1, .proceed (.forced 1) true] ++
    List.replicate 16 (.loop answer) ++ [.proceed .interrupt true] ++
    List.replicate 25 (.loop answer)

/-- The loop waits while the task of the handler has yet to run. -/
theorem nothingLost_blocked : ∃ s,
    Lts.Run Loop.Init Loop.Step blockedActs s ∧ s.pc = .poll false ∧ s.pipe = 0 ∧
      s.unfinished = [1] ∧ NothingLost s := by
  obtain ⟨s, hrun, hpc, hpipe, hcalls, hunfinished, htasks⟩ := Lts.exists_run Loop.step blockedActs
    (fun s => s.pc = .poll false ∧ s.pipe = 0 ∧ s.calls = [] ∧ s.unfinished = [1] ∧
      ∀ task ∈ s.tasks, task.isFinished = false) Loop.init_new (by decide +kernel)
  exact ⟨s, hrun, hpc, hpipe, hunfinished, nothingLost_of_run hrun hpc hpipe hcalls htasks⟩

end PosixThreads
