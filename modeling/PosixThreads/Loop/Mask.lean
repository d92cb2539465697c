import PosixThreads.Loop.Shutdown
import PosixThreads.Loop.Wakeup

/-!
# Masks of handlers

The loop polls a handler with the mask that is pending when it looks at the handler.
`handler_set_pending_mask` would interrupt the loop if it changed the mask, but it takes the new
mask for the previous one, so it returns the new one and interrupts nothing.

As long as no call changes the mask of a registered handler that is ready, a loop that waits polls
its handlers with the masks that are pending.
-/

namespace PosixThreads

/-- `handler_set_pending_mask` with its result, up to the interruption. -/
def Loop.callSetPendingMask (s : Loop) (h : ℕ) (flags : PollFlags) : PollFlags × Loop :=
  let prev := flags
  let s := s.setHandler h { s.handler h with pendingFlags := flags }
  (prev, if prev ≠ flags ∧ (s.handler h).loop = true then
    { s with calls := .interrupt :: s.calls } else s)

/-- The handler belongs to a loop, and there is no task of it. -/
def Loop.Settled (s : Loop) (h : ℕ) : Prop :=
  (s.handler h).loop = true ∧ (s.handler h).status = .ready

instance (s : Loop) (h : ℕ) : Decidable (s.Settled h) := inferInstanceAs (Decidable (_ ∧ _))

/-- What a step promises that is a call of `handler_set_pending_mask`: the result is the previous
mask, and if the mask has changed then the loop is going to be notified. -/
def Loop.MaskCallSound (s s' : Loop) : LoopAction → Prop
  | .setPendingMask h flags => s.Settled h →
      (s.callSetPendingMask h flags).1 = (s.handler h).pendingFlags ∧
        (flags ≠ (s.handler h).pendingFlags → s'.Coming)
  | _ => True

/-- A step that is such a call sets the mask which the handler has already. -/
def Loop.KeepsMask (s : Loop) : LoopAction → Prop
  | .setPendingMask h flags => s.Settled h → flags = (s.handler h).pendingFlags
  | _ => True

instance (s : Loop) (act : LoopAction) : Decidable (s.KeepsMask act) :=
  match act with
  | .setPendingMask h flags =>
      inferInstanceAs (Decidable (s.Settled h → flags = (s.handler h).pendingFlags))
  | .register _ | .unregister _ | .force _ | .stop | .proceed _ _ | .task _ _ | .loop _ =>
      isTrue trivial

/-- Every handler that is ready is polled with the mask that is pending. -/
def Loop.MasksPolled (s : Loop) : Prop :=
  ∀ h ∈ s.handlers, (s.handler h).status = .ready →
    (∃ entry ∈ s.pollMeta, entry.handler = h) ∧
      ∀ entry ∈ s.pollMeta, entry.handler = h → entry.events = (s.handler h).pendingFlags.allIn

instance (s : Loop) : Decidable s.MasksPolled :=
  inferInstanceAs (Decidable (∀ _ ∈ _, _ → (∃ _ ∈ _, _) ∧ ∀ _ ∈ _, _ → _))

/-- A call keeps its promise exactly if it changes nothing. -/
theorem maskCallSound_iff {s s' : Loop} {act : LoopAction} :
    s.MaskCallSound s' act ↔ s.KeepsMask act := by
  cases act with
  | setPendingMask h flags =>
      constructor
      · exact fun hsound hsettled => (hsound hsettled).1
      · intro hkeeps hsettled
        exact ⟨hkeeps hsettled, fun hne => absurd (hkeeps hsettled) hne⟩
  | _ => exact Iff.rfl

/-! ## The other threads -/

section Others

variable {s s' : Loop} {act : LoopAction}

structure Loop.Passes (s s' : Loop) (act : LoopAction) (x : ℕ) : Prop where
  queued : (s'.handler x).status = .queued → (s.handler x).status = .queued
  ready : (s'.handler x).status = .ready → (s.handler x).status = .ready ∨
    (s.handler x).status = .queued ∧ s'.Coming
  pending : (∀ flags, act = .setPendingMask x flags → flags = (s.handler x).pendingFlags) →
    (s'.handler x).pendingFlags = (s.handler x).pendingFlags

theorem Loop.Passes.of_handler {x : ℕ} (h : s'.handler x = s.handler x) : s.Passes s' act x :=
  ⟨fun hq => h ▸ hq, fun hr => .inl (h ▸ hr), fun _ => by rw [h]⟩

theorem Loop.Passes.setHandler {x h : ℕ} {y : Handler}
    (hhandler : s'.handler = (s.setHandler h y).handler)
    (hstatus : y.status = (s.handler h).status ∨ y.status = .unregistered)
    (hpending : (∀ flags, act = .setPendingMask h flags → flags = (s.handler h).pendingFlags) →
      y.pendingFlags = (s.handler h).pendingFlags) : s.Passes s' act x := by
  by_cases hx : x = h
  · subst hx
    have hy : s'.handler x = y := by
      rw [hhandler, Loop.setHandler_handler, if_pos rfl]
    refine ⟨?_, ?_, ?_⟩
    · rw [hy]
      rcases hstatus with hstatus | hstatus
      · exact fun hq => hstatus ▸ hq
      · simp [hstatus]
    · rw [hy]
      rcases hstatus with hstatus | hstatus
      · exact fun hr => .inl (hstatus ▸ hr)
      · simp [hstatus]
    · rw [hy]
      exact hpending
  · refine .of_handler ?_
    rw [hhandler, Loop.setHandler_handler, if_neg hx]

theorem TaskOutcome.passes {task : LoopTask} {task' : Option LoopTask} {answer : TaskAnswer}
    (hout : TaskOutcome s task answer.written s' task') (x : ℕ) :
    s.Passes { s' with tasks := task'.toList ++ s.tasks.erase task } (.task task answer) x := by
  cases hout with
  | running _ hs _ _ =>
      refine .of_handler ?_
      rcases hs with rfl | ⟨errors, rfl⟩ | ⟨_, rfl⟩
      · rfl
      · rfl
      · obtain ⟨pipe, hpipe⟩ := s.notifyProcess_spec task.flags
        rw [hpipe]
  | updated hphase hhandler hphase' =>
      rename_i task'
      -- the handler becomes ready if it has been queued, and the task has yet to return
      have hcoming : Loop.Coming { s.compareExchange task.handler .queued .ready with
          tasks := (some task').toList ++ s.tasks.erase task } :=
        .inr (.inr ⟨task', by simp, hphase'⟩)
      by_cases hx : x = task.handler ∧ (s.handler task.handler).status = .queued
      · have hafter : (s.compareExchange task.handler .queued .ready).handler x =
            { s.handler task.handler with status := .ready } :=
          (Loop.compareExchange_handler _ _).trans (if_pos hx)
        obtain ⟨rfl, hqueued⟩ := hx
        refine ⟨fun _ => hqueued, fun _ => .inr ⟨hqueued, hcoming⟩, fun _ => ?_⟩
        have hpending := congrArg Handler.pendingFlags hafter
        exact hpending
      · refine .of_handler ?_
        exact (Loop.compareExchange_handler _ _).trans (if_neg hx)
  | returned _ hs =>
      refine .of_handler ?_
      split at hs
      · rw [hs]
      · obtain ⟨pipe, rfl, _⟩ := Loop.notifyPost_spec hs
        rfl

theorem Loop.Step.passes (h : s.Step act s') (hact : act.ofLoop = false) (x : ℕ) :
    s.Passes s' act x := by
  cases h.outcome with
  | register => exact .setHandler rfl (.inl rfl) fun _ => rfl
  | unregister => exact .setHandler rfl (.inr rfl) fun _ => rfl
  | force => exact .setHandler rfl (.inl rfl) fun _ => rfl
  | setPendingMask => exact .setHandler rfl (.inl rfl) fun hflags => hflags _ rfl
  | stop => exact .of_handler rfl
  | proceed _ hproceed =>
      obtain ⟨calls, pipe, raised, rfl⟩ := Loop.proceed_frame hproceed
      exact .of_handler rfl
  | task _ hout => exact hout.passes x
  | loop => simp [LoopAction.ofLoop] at hact

/-- What is to come still comes after a step of another thread. -/
theorem Loop.Step.coming (h : s.Step act s') (hact : act.ofLoop = false) (hinv : NotifyInv s)
    (hcoming : s.Coming) : s'.Coming := by
  cases h.outcome with
  | register => exact .inr (.inl ⟨.interrupt, by simp [Loop.loopRegister], rfl⟩)
  | unregister | setPendingMask => exact hcoming.setHandler rfl
  | force =>
      rename_i x hne
      have hset : (s.setHandler x { s.handler x with force := true }).Coming :=
        hcoming.setHandler rfl
      exact hset.mono (Nat.le_refl _) (fun _ hcall _ => List.mem_cons_of_mem _ hcall)
        (fun _ htask _ => htask) fun _ => rfl
  | stop => exact .inr (.inl ⟨.wakeup, by simp, rfl⟩)
  | proceed _ hproceed => exact .proceed hinv.raised hproceed hcoming
  | task htask hout => exact .task hinv.raised (hinv.tasks _ htask) hout hcoming
  | loop => simp [LoopAction.ofLoop] at hact

end Others

/-! ## The handlers that are polled -/

def Loop.masks (s : Loop) : List (ℕ × PollFlags) :=
  match s.pc with
  | .preparing _ _ _ | .prepareFlags _ _ _ _ | .poll _ =>
      s.pollMeta.map fun entry => (entry.handler, entry.events)
  | .prepareForce h events _ _ _ =>
      s.pollMeta.map (fun entry => (entry.handler, entry.events)) ++ [(h, events)]
  | _ => []

def LoopPc.reading : LoopPc → Option ℕ
  | .prepareFlags h _ _ _ => some h
  | _ => none

/-- What the loop has looked at has the mask that is pending, and it has looked at everything that
is ready. -/
structure MaskInv (s : Loop) : Prop where
  ahead : ∀ rest, s.pc.ahead = some rest → ∀ h ∈ rest, h ∈ s.handlers
  reading : ∀ h, s.pc.reading = some h → (s.handler h).status ≠ .queued
  masks : ∀ p ∈ s.masks, p.1 ∈ s.handlers ∧ (s.handler p.1).status ≠ .queued ∧
    ((s.handler p.1).status = .ready → p.2 = (s.handler p.1).pendingFlags.allIn)
  all : ∀ rest, s.pc.ahead = some rest → ∀ h ∈ s.handlers, h ∉ rest →
    (s.handler h).status = .ready → (∃ entry ∈ s.pollMeta, entry.handler = h) ∨ s.Coming

section Masks

variable {s s' : Loop} {act : LoopAction} {answer : LoopAnswer}

theorem MaskInv.other (hinv : MaskInv s) (hloop : LoopInv s) (hnotify : NotifyInv s)
    (h : s.Step act s') (hact : act.ofLoop = false) (hkeeps : s.KeepsMask act) : MaskInv s' := by
  have hpc := h.pc_of_not_ofLoop hact
  obtain ⟨hhandlers, hmeta⟩ := h.lists_of_not_ofLoop hact
  have hmasks : s'.masks = s.masks := by
    simp only [Loop.masks, hpc, hmeta]
  refine ⟨?_, ?_, ?_, ?_⟩
  · rw [hpc, hhandlers]
    exact hinv.ahead
  · rw [hpc]
    exact fun x hx hqueued => hinv.reading x hx ((h.passes hact x).queued hqueued)
  · rw [hmasks, hhandlers]
    rintro ⟨x, events⟩ hp
    obtain ⟨hmem, hnotQueued, hevents⟩ := hinv.masks _ hp
    have hpasses := h.passes hact x
    refine ⟨hmem, fun hqueued => hnotQueued (hpasses.queued hqueued), fun hready' => ?_⟩
    have hready : (s.handler x).status = .ready :=
      (hpasses.ready hready').resolve_right fun hqueued => hnotQueued hqueued.1
    have hpending := hpasses.pending fun flags hcall => by
      subst hcall
      cases h.outcome with
      | setPendingMask hne =>
          exact hkeeps ⟨hloop.listed x (List.mem_append_left _ hmem) hne, hready⟩
    rw [hpending]
    exact hevents hready
  · rw [hpc, hhandlers, hmeta]
    intro rest hahead x hmem hrest hready'
    rcases (h.passes hact x).ready hready' with hready | ⟨-, hcoming⟩
    · exact (hinv.all rest hahead x hmem hrest hready).imp_right (h.coming hact hnotify)
    · exact .inr hcoming

theorem MaskInv.look (hinv : MaskInv s) (hhandlers : s'.handlers = s.handlers)
    (hcoming : s.Coming → s'.Coming)
    (hstatus : ∀ x, (s'.handler x).status = (s.handler x).status)
    (hpending : ∀ x, (s'.handler x).pendingFlags = (s.handler x).pendingFlags)
    (hreading : ∀ x, s'.pc.reading = some x → (s.handler x).status ≠ .queued)
    (hmasks : ∀ p ∈ s'.masks, p ∈ s.masks ∨ p.1 ∈ s.handlers ∧
      (s.handler p.1).status ≠ .queued ∧ p.2 = (s.handler p.1).pendingFlags.allIn)
    (hmeta : ∀ entry ∈ s.pollMeta, entry ∈ s'.pollMeta)
    (hahead : ∀ rest', s'.pc.ahead = some rest' → ∃ rest, s.pc.ahead = some rest ∧
      (∀ x ∈ rest', x ∈ rest) ∧ ∀ x ∈ rest, x ∉ rest' → (s.handler x).status = .ready →
        ∃ entry ∈ s'.pollMeta, entry.handler = x) : MaskInv s' := by
  refine ⟨?_, ?_, ?_, ?_⟩
  · intro rest' hrest' x hx
    obtain ⟨rest, hrest, hsub, -⟩ := hahead rest' hrest'
    rw [hhandlers]
    exact hinv.ahead rest hrest x (hsub x hx)
  · intro x hx
    rw [hstatus]
    exact hreading x hx
  · intro p hp
    rw [hhandlers, hstatus, hpending]
    rcases hmasks p hp with hp | ⟨hmem, hnotQueued, hevents⟩
    · exact hinv.masks p hp
    · exact ⟨hmem, hnotQueued, fun _ => hevents⟩
  · intro rest' hrest' x hmem hx hready
    obtain ⟨rest, hrest, -, hnew⟩ := hahead rest' hrest'
    rw [hhandlers] at hmem
    rw [hstatus] at hready
    by_cases hx' : x ∈ rest
    · exact .inl (hnew x hx' hx hready)
    · rcases hinv.all rest hrest x hmem hx' hready with ⟨entry, hentry, heq⟩ | hc
      · exact .inl ⟨entry, hmeta entry hentry, heq⟩
      · exact .inr (hcoming hc)

/-- Outside of `loop_prepare_pollfd` and `poll` there is nothing to know. -/
theorem MaskInv.of_unwatched (hahead : s'.pc.ahead = none) (hreading : s'.pc.reading = none)
    (hmasks : s'.masks = []) : MaskInv s' :=
  ⟨by simp [hahead], by simp [hreading], by simp [hmasks], by simp [hahead]⟩

theorem MaskInv.skip {x : ℕ} {rest : List ℕ} {empty empty' forced : Bool} (hinv : MaskInv s)
    (hpc : s.pc = .preparing (x :: rest) empty forced) (hx : (s.handler x).status ≠ .ready) :
    MaskInv { s with pc := .preparing rest empty' forced } := by
  refine hinv.look rfl id (fun _ => rfl) (fun _ => rfl) (by simp [LoopPc.reading]) ?_
    (fun _ hentry => hentry) ?_
  · exact fun p hp => .inl (by simpa [Loop.masks, hpc] using hp)
  · intro rest' hahead
    obtain rfl := ahead_preparing hahead
    refine ⟨x :: rest', by simp [hpc, LoopPc.ahead], fun _ hy => List.mem_cons_of_mem _ hy, ?_⟩
    intro y hy hnot hready
    rcases List.mem_cons.mp hy with rfl | hy
    · exact absurd hready hx
    · exact absurd hy hnot

theorem MaskInv.preparing {rest : List ℕ} {empty forced : Bool} (hinv : MaskInv s)
    (hpc : s.pc = .preparing rest empty forced) (h : s.loopStep answer = some s') :
    MaskInv s' := by
  cases rest with
  | nil =>
      simp only [Loop.loopStep, hpc] at h
      split at h
      · rw [← Option.some.inj h]
        exact .of_unwatched rfl rfl rfl
      · rename_i hempty
        rw [← Option.some.inj h]
        refine hinv.look rfl id (fun _ => rfl) (fun _ => rfl) (by simp [LoopPc.reading]) ?_
          (fun _ hentry => hentry) ?_
        · exact fun p hp => .inl (by simpa [Loop.masks, hpc] using hp)
        · intro rest' hahead
          obtain rfl : rest' = [] := by simpa [LoopPc.ahead, eq_comm] using hahead
          exact ⟨[], by simp [hpc, LoopPc.ahead, hempty], by simp, by simp⟩
  | cons x rest =>
      simp only [Loop.loopStep, hpc] at h
      split at h
      · rename_i hx
        rw [← Option.some.inj h]
        exact hinv.skip hpc (by simp [hx])
      · rename_i hx
        rw [← Option.some.inj h]
        exact hinv.skip hpc (by simp [hx])
      · rename_i hx
        rw [← Option.some.inj h]
        refine hinv.look rfl id (fun _ => rfl) (fun _ => rfl) ?_ ?_ (fun _ hentry => hentry) ?_
        · intro y hy
          obtain rfl : x = y := by simpa [LoopPc.reading] using hy
          simp [hx]
        · exact fun p hp => .inl (by simpa [Loop.masks, hpc] using hp)
        · intro rest' hahead
          obtain rfl : x :: rest = rest' := by simpa [LoopPc.ahead] using hahead
          exact ⟨x :: rest, by simp [hpc, LoopPc.ahead], fun _ hy => hy,
            fun _ hy hnot => absurd hy hnot⟩

/-- What is the same in the new value of a handler is the same for all handlers. -/
theorem Loop.setHandler_keeps {α : Type} (f : Handler → α) {x : ℕ} {z : Handler}
    (hf : f z = f (s.handler x)) (y : ℕ) : f ((s.setHandler x z).handler y) = f (s.handler y) := by
  rw [Loop.setHandler_handler]
  split
  · rename_i heq
    rw [hf, heq]
  · rfl

theorem MaskInv.setHandler {x : ℕ} {y : Handler} (hinv : MaskInv s)
    (hstatus : y.status = (s.handler x).status)
    (hpending : y.pendingFlags = (s.handler x).pendingFlags)
    (hloop : y.loop = (s.handler x).loop) : MaskInv (s.setHandler x y) :=
  hinv.look rfl (fun hcoming => hcoming.setHandler hloop)
    (Loop.setHandler_keeps Handler.status hstatus)
    (Loop.setHandler_keeps Handler.pendingFlags hpending) (fun h hh => hinv.reading h hh)
    (fun _ hp => .inl hp) (fun _ hentry => hentry)
    fun rest hrest => ⟨rest, hrest, fun _ hh => hh, fun _ hh hnot => absurd hh hnot⟩

theorem MaskInv.prepareFlags {x : ℕ} {rest : List ℕ} {empty forced : Bool} (hinv : MaskInv s)
    (hpc : s.pc = .prepareFlags x rest empty forced) (h : s.loopStep answer = some s') :
    MaskInv s' := by
  have hahead : s.pc.ahead = some (x :: rest) := by simp [hpc, LoopPc.ahead]
  have hmem := hinv.ahead _ hahead x List.mem_cons_self
  have hnotQueued := hinv.reading x (by simp [hpc, LoopPc.reading])
  have hinv' : MaskInv (s.setHandler x
      { s.handler x with currentFlags := (s.handler x).pendingFlags.allIn }) :=
    hinv.setHandler rfl rfl rfl
  simp only [Loop.loopStep, hpc] at h
  split at h
  · rw [← Option.some.inj h]
    refine hinv'.look rfl id (fun _ => rfl) (fun _ => rfl) (by simp [LoopPc.reading]) ?_
      (fun _ hentry => hentry) ?_
    · intro p hp
      simp only [Loop.masks, List.mem_append, List.mem_singleton] at hp
      rcases hp with hp | rfl
      · exact .inl (by simpa [Loop.masks, Loop.setHandler, hpc] using hp)
      · exact .inr ⟨hmem, by simpa [Loop.setHandler_handler] using hnotQueued,
          by simp [Loop.setHandler_handler]⟩
    · intro rest' hahead'
      obtain rfl : x :: rest = rest' := by simpa [LoopPc.ahead] using hahead'
      exact ⟨x :: rest, hahead, fun _ hy => hy, fun _ hy hnot => absurd hy hnot⟩
  · rw [← Option.some.inj h]
    exact .of_unwatched rfl rfl rfl

theorem MaskInv.prepareForce {x : ℕ} {events : PollFlags} {rest : List ℕ} {empty forced : Bool}
    (hinv : MaskInv s) (hpc : s.pc = .prepareForce x events rest empty forced)
    (h : s.loopStep answer = some s') : MaskInv s' := by
  have hahead : s.pc.ahead = some (x :: rest) := by simp [hpc, LoopPc.ahead]
  have hinv' : MaskInv (s.setHandler x { s.handler x with force := false }) :=
    hinv.setHandler rfl rfl rfl
  simp only [Loop.loopStep, hpc] at h
  split at h
  · rw [← Option.some.inj h]
    refine hinv'.look rfl id (fun _ => rfl) (fun _ => rfl) (by simp [LoopPc.reading]) ?_
      (fun _ hentry => List.mem_append_left _ hentry) ?_
    · exact fun p hp => .inl (by simpa [Loop.masks, Loop.setHandler, hpc] using hp)
    · intro rest' hahead'
      obtain rfl := ahead_preparing hahead'
      refine ⟨x :: rest', hahead, fun _ hy => List.mem_cons_of_mem _ hy, ?_⟩
      intro y hy hnot _
      rcases List.mem_cons.mp hy with rfl | hy
      · exact ⟨_, List.mem_append_right _ (List.mem_singleton_self _), rfl⟩
      · exact absurd hy hnot
  · rw [← Option.some.inj h]
    exact .of_unwatched rfl rfl rfl

theorem MaskInv.loopStep (hinv : MaskInv s) (h : s.loopStep answer = some s') : MaskInv s' := by
  cases hpc : s.pc with
  | prepare =>
      simp only [Loop.loopStep, hpc] at h
      split at h
      · rw [← Option.some.inj h]
        exact .of_unwatched rfl rfl rfl
      · rw [← Option.some.inj h]
        refine ⟨fun rest hrest x hx => ?_, by simp [LoopPc.reading], by simp [Loop.masks], ?_⟩
        · rwa [← ahead_preparing hrest]
        · intro rest hrest x hmem hx
          rw [ahead_preparing hrest] at hx
          exact absurd hmem hx
  | preparing rest empty forced => exact hinv.preparing hpc h
  | prepareFlags x rest empty forced => exact hinv.prepareFlags hpc h
  | prepareForce x events rest empty forced => exact hinv.prepareForce hpc h
  | _ =>
      have hpc' : s'.pc.ahead = none ∧ s'.pc.reading = none ∧ s'.masks = [] := by
        rw [Loop.loopStep, hpc] at h
        grind [LoopPc.ahead, LoopPc.reading, Loop.masks]
      exact .of_unwatched hpc'.1 hpc'.2.1 hpc'.2.2

theorem MaskInv.step (hinv : MaskInv s) (hloop : LoopInv s) (hnotify : NotifyInv s)
    (h : s.Step act s') (hkeeps : s.KeepsMask act) : MaskInv s' := by
  cases hact : act.ofLoop with
  | true =>
      cases act with
      | loop answer => exact hinv.loopStep h
      | _ => simp [LoopAction.ofLoop] at hact
  | false => exact hinv.other hloop hnotify h hact hkeeps

theorem MaskInv.of_init (h : s.Init) : MaskInv s := by
  obtain ⟨handler, _, rfl⟩ := h
  exact .of_unwatched rfl rfl rfl

end Masks

section Runs

variable {s : Loop} {hist : List LoopAction}

theorem maskInv_of_run
    (hrun : Lts.Run Loop.Init (fun s act s' => s.Step act s' ∧ s.KeepsMask act) hist s) :
    MaskInv s := by
  have hinv : LoopInv s ∧ NotifyInv s ∧ MaskInv s := by
    refine Lts.Run.invariant (I := fun _ s => LoopInv s ∧ NotifyInv s ∧ MaskInv s) hrun ?_ ?_
    · exact fun s hinit => ⟨.of_init hinit, .of_init hinit, .of_init hinit⟩
    · rintro _ s act s' ⟨hloop, hnotify, hmask⟩ ⟨hstep, hkeeps⟩
      exact ⟨hloop.step hstep, hnotify.step hloop hstep, hmask.step hloop hnotify hstep hkeeps⟩
  exact hinv.2.2

/-- The runs in which every call of `handler_set_pending_mask` keeps its promise are those in which
no call changes the mask of a handler that is registered and ready. In such a run, when the loop
waits, there is nothing in the pipe and nobody is about to notify the loop, every handler that is
ready is polled with the mask that is pending. -/
theorem masksPolled_of_run :
    (Lts.Run Loop.Init (fun s act s' => s.Step act s' ∧ s.MaskCallSound s' act) hist s ↔
      Lts.Run Loop.Init (fun s act s' => s.Step act s' ∧ s.KeepsMask act) hist s) ∧
    (Lts.Run Loop.Init (fun s act s' => s.Step act s' ∧ s.KeepsMask act) hist s →
      ∀ forced, s.pc = .poll forced → s.pipe = 0 → s.calls = [] →
        (∀ task ∈ s.tasks, task.isFinished = false) → s.MasksPolled) := by
  refine ⟨?_, fun hrun forced hpc hpipe hcalls htasks h hmem hready => ⟨?_, ?_⟩⟩
  · simp only [maskCallSound_iff]
  · have hnone : ¬s.Coming := by
      rintro (hpos | ⟨call, hcall, _⟩ | ⟨task, htask, hfinished⟩)
      · omega
      · simp [hcalls] at hcall
      · simp [htasks task htask] at hfinished
    have hahead : s.pc.ahead = some [] := by rw [hpc]; rfl
    exact ((maskInv_of_run hrun).all [] hahead h hmem (by simp) hready).resolve_right hnone
  · rintro entry hentry rfl
    have hmask : (entry.handler, entry.events) ∈ s.masks := by
      simp only [Loop.masks, hpc]
      exact List.mem_map_of_mem hentry
    exact ((maskInv_of_run hrun).masks _ hmask).2.2 hready

end Runs

/-- The handler 1 is registered, and the loop polls for the second time. -/
def secondPollActs : List LoopAction :=
  [.register 1, .proceed .interrupt true] ++ List.replicate 41 loopNotified

/-- The mask of the handler 1 is set to what it is. -/
theorem masksPolled_kept : ∃ s,
    Lts.Run Loop.Init (fun s act s' => s.Step act s' ∧ s.KeepsMask act)
      (secondPollActs ++ [.setPendingMask 1 ⟨true, false, false, false⟩]) s ∧
      s.pc = .poll false ∧ s.handlers = [0, 1] ∧ s.MasksPolled := by
  obtain ⟨s, hrun, hpc, hhandlers, hpipe, hcalls, htasks⟩ := Lts.exists_run_guarded Loop.step
    Loop.KeepsMask (secondPollActs ++ [.setPendingMask 1 ⟨true, false, false, false⟩])
    (fun s => s.pc = .poll false ∧ s.handlers = [0, 1] ∧ s.pipe = 0 ∧ s.calls = [] ∧ s.tasks = [])
    Loop.init_new (by decide +kernel)
  exact ⟨s, hrun, hpc, hhandlers,
    masksPolled_of_run.2 hrun false hpc hpipe hcalls (by simp [htasks])⟩

/-- While the loop waits, another thread asks for the handler 1 to be polled for writing too. The
call returns the new mask, and the loop goes on waiting without it. -/
theorem not_masksPolled_changed : ∃ s s',
    Lts.Run Loop.Init Loop.Step secondPollActs s ∧ s.Settled 1 ∧
      s.Step (.setPendingMask 1 ⟨true, true, false, false⟩) s' ∧
      (s.callSetPendingMask 1 ⟨true, true, false, false⟩).1 ≠ (s.handler 1).pendingFlags ∧
      s'.pc = .poll false ∧ s'.pipe = 0 ∧ s'.calls = [] ∧ s'.tasks = [] ∧ ¬ s'.MasksPolled := by
  obtain ⟨s, hrun, hsettled, hprev, htest⟩ := Lts.exists_run Loop.step secondPollActs
    (fun s => s.Settled 1 ∧
      (s.callSetPendingMask 1 ⟨true, true, false, false⟩).1 ≠ (s.handler 1).pendingFlags ∧
      ((s.step (.setPendingMask 1 ⟨true, true, false, false⟩)).any fun s' =>
        decide (s'.pc = .poll false ∧ s'.pipe = 0 ∧ s'.calls = [] ∧ s'.tasks = [] ∧
          ¬ s'.MasksPolled)) = true)
    Loop.init_new (by decide +kernel)
  obtain ⟨s', hstep, htest⟩ := (Option.any_eq_true _ _).mp htest
  exact ⟨s, s', hrun, hsettled, hstep, hprev, of_decide_eq_true htest⟩

end PosixThreads
