import Mathlib.Data.Nat.Notation
import Mathlib.Logic.Function.Basic
import PosixThreads.Common.Error

/-!
# The event loop

The state of a loop is shared by the thread in `loop_run`, the executor threads that run
`loop_handler_task_cb`, and any threads that call `loop_register`, `loop_stop`,
`handler_force` and the like. They take turns in steps that touch the shared state once; a
critical section that no other thread can look into is one step. The mutex of a handler is
left out, so that there are more interleavings here than there are in the program.

A call that has changed the state but has not yet notified the loop is kept in `calls`.
-/

namespace PosixThreads

structure PollFlags where
  read : Bool
  write : Bool
  err : Bool
  hup : Bool
  deriving DecidableEq, Repr

def PollFlags.empty : PollFlags := ⟨false, false, false, false⟩

/-- The flags in `LOOP_ALL_IN`. -/
def PollFlags.allIn (flags : PollFlags) : PollFlags := { flags with err := false, hup := false }

/-- `flags & (mask | (LOOP_HUP | LOOP_ERR))`. -/
def PollFlags.restrict (flags mask : PollFlags) : PollFlags :=
  { flags with
    read := flags.read && mask.read
    write := flags.write && mask.write }

inductive HandlerStatus
  | ready
  | queued
  | unregistered
  deriving DecidableEq, Repr

/-- The fields of `handler_t` that the loop uses. `loop` tells whether the pointer to the
loop is set, and `onError` whether the vtable has an `on_error`. -/
structure Handler where
  status : HandlerStatus
  passive : Bool
  force : Bool
  loop : Bool
  onError : Bool
  currentFlags : PollFlags
  pendingFlags : PollFlags
  deriving DecidableEq, Repr

/-- The entry of a handler in the vectors `pollfd` and `meta`. -/
structure PollMeta where
  handler : ℕ
  events : PollFlags
  flags : PollFlags
  forced : Bool
  deriving DecidableEq, Repr

/-- Where `loop_handler_task_cb` is: not called yet, in `process`, in front of `on_error`, in
front of the vector of errors, in front of the update of the status, or after it. The last
two know the error that is returned to the executor. -/
inductive TaskPhase
  | submitted
  | processing
  | failed (err : Error)
  | pushing (err : Error)
  | updating (err : Option Error)
  | finished (err : Option Error)
  deriving DecidableEq, Repr

structure LoopTask where
  handler : ℕ
  flags : PollFlags
  phase : TaskPhase
  deriving DecidableEq, Repr

/-- What is left of a call: `handler_force` has yet to look at the loop of the handler,
`notify_post` or `notify_wakeup` has yet to be called. -/
inductive PendingCall
  | forced (handler : ℕ)
  | interrupt
  | wakeup
  deriving DecidableEq, Repr

inductive LoopPc
  | idle (result : Option (Option Error))
  | register
  | registering (rest : List ℕ) (err : Option Error)
  | sweep (i : ℕ) (err : Option Error)
  | prepare
  | preparing (rest : List ℕ) (empty forced : Bool)
  | prepareFlags (handler : ℕ) (rest : List ℕ) (empty forced : Bool)
  | prepareForce (handler : ℕ) (events : PollFlags) (rest : List ℕ) (empty forced : Bool)
  | poll (forced : Bool)
  | submit (rest : List PollMeta)
  | dispatch (entry : PollMeta) (rest : List PollMeta)
  | dispatchSubmit (entry : PollMeta) (rest : List PollMeta)
  | inlineTask (task : LoopTask) (rest : List PollMeta)
  | results (i : ℕ) (err : Option Error)
  | resultsClear (err : Option Error)
  | leave (rest : List PollMeta) (err : Option Error)
  deriving DecidableEq, Repr

/-- The handlers are numbered, and the one of `loop->notify` has the number 0. -/
def notifyId : ℕ := 0

/-- `loop_t` and what it refers to. `pipe` is the number of bytes in the pipe of `notify`,
and `tasks` are those that the executor has accepted. -/
structure Loop where
  handler : ℕ → Handler
  handlers : List ℕ
  pendingHandlers : List ℕ
  errors : List Error
  stopped : Bool
  raised : Bool
  pipe : ℕ
  pollMeta : List PollMeta
  tasks : List LoopTask
  calls : List PendingCall
  pc : LoopPc

/-- `loop_process_registrations` holds `pending_mtx` in its first loop. -/
def LoopPc.holdsPending : LoopPc → Bool
  | .registering _ _ => true
  | _ => false

def Loop.setHandler (s : Loop) (h : ℕ) (x : Handler) : Loop :=
  { s with handler := Function.update s.handler h x }

def Loop.setStatus (s : Loop) (h : ℕ) (status : HandlerStatus) : Loop :=
  s.setHandler h { s.handler h with status := status }

/-- `atomic_compare_exchange_strong` on the status of a handler. -/
def Loop.compareExchange (s : Loop) (h : ℕ) (expected desired : HandlerStatus) : Loop :=
  if (s.handler h).status = expected then s.setStatus h desired else s

/-! ## Notifications -/

/-- A `write` of one byte to the pipe. If it would block, then because the pipe is full. -/
def Loop.writePipe (s : Loop) (written : Bool) : Option Loop :=
  if written then some { s with pipe := s.pipe + 1 }
  else if 0 < s.pipe then some s
  else none

def Loop.notifyPost (s : Loop) (written : Bool) : Option Loop :=
  let posted := if s.raised then some s else s.writePipe written
  posted.map fun s => { s with raised := true }

def Loop.notifyWakeup (s : Loop) (written : Bool) : Option Loop := s.writePipe written

/-- `notify_process`. The callback of the loop returns no error. -/
def Loop.notifyProcess (s : Loop) (flags : PollFlags) : Loop × Option Error :=
  if flags.read then
    if 0 < s.pipe then ({ s with pipe := s.pipe - 1, raised := false }, none)
    else ({ s with raised := false }, some (.combined (.fromPosix "read(2) failed")
      (.okIf "read_count == 1")))
  else ({ s with raised := false }, none)

/-! ## Tasks -/

/-- The answers of the surroundings to a step of a task: what `process` or `on_error`
returns, whether the vector has memory for an error, whether the pipe takes a byte, and whether
there is memory for the errors that are made. -/
structure TaskAnswer where
  result : Option Error
  pushed : Bool
  written : Bool
  memory : ErrorMemory

/-- A step of `loop_handler_task_cb`. The new task is `none` when it has returned. -/
def Loop.taskStep (s : Loop) (task : LoopTask) (answer : TaskAnswer) :
    Option (Loop × Option LoopTask) :=
  match task.phase with
  | .submitted => some (s, some { task with phase := .processing })
  | .processing =>
      let (s, err) :=
        if task.handler = notifyId then s.notifyProcess task.flags else (s, answer.result)
      match err with
      | none => some (s, some { task with phase := .updating none })
      | some err => some (s, some { task with phase := .failed err })
  | .failed err =>
      if (s.handler task.handler).onError then
        match errorWrap "A handler's on_error method has returned an error" answer.result
          answer.memory.wrap with
        | none => some (s, some { task with phase := .updating none })
        | some err => some (s, some { task with phase := .pushing err })
      else
        some (s, some { task with
          phase := .pushing
            (errorFromCstr "A handler has returned an error" (some err) answer.memory.wrap) })
  | .pushing err =>
      if s.pc.holdsPending then none
      else if answer.pushed then
        some ({ s with errors := s.errors ++ [err] }, some { task with phase := .updating none })
      else
        some (s, some { task with
          phase := .updating
            (errorCombine (some (.fromCommon .memoryAllocationFailure)) (some err)
              answer.memory.combine) })
  | .updating err =>
      some (s.compareExchange task.handler .queued .ready,
        some { task with phase := .finished err })
  | .finished _ =>
      let posted := if task.handler = notifyId then some s else s.notifyPost answer.written
      posted.map fun s => (s, none)

/-! ## The thread in `loop_run` -/

/-- The answers of the surroundings to a step of `loop_run`: whether memory can be allocated,
whether the executor accepts a task, what `poll` returns, and whether there is memory for the
errors that are made. -/
structure LoopAnswer where
  alloc : Bool
  submitted : Bool
  revents : Option (List PollFlags)
  memory : ErrorMemory
  task : TaskAnswer

/-- What `poll` can return. The pipe of `notify` can be read exactly if there is something in
it, and with an infinite timeout there is an event. -/
def Loop.PollResult (s : Loop) (forced : Bool) (revents : List PollFlags) : Prop :=
  revents.length = s.pollMeta.length ∧
    (∀ p ∈ s.pollMeta.zip revents, p.1.handler = notifyId →
      p.2.read = (p.1.events.read && decide (0 < s.pipe))) ∧
    (forced = true ∨ ∃ flags ∈ revents, flags ≠ .empty)

instance (s : Loop) (forced : Bool) (revents : List PollFlags) :
    Decidable (s.PollResult forced revents) :=
  inferInstanceAs (Decidable (_ ∧ _ ∧ _))

/-- A step of `loop_run`. The result is `none` when the loop thread has to wait, or when an
assertion fails. -/
def Loop.loopStep (s : Loop) (answer : LoopAnswer) : Option Loop :=
  match s.pc with
  | .idle _ => some { s with pollMeta := [], pc := .register }
  -- `loop_process_registrations`
  | .register => some { s with pc := .registering s.pendingHandlers none }
  | .registering (h :: rest) err =>
      match (s.handler h).status with
      | .ready =>
          if answer.alloc then
            some { s with handlers := s.handlers ++ [h], pc := .registering rest err }
          else some { s with pc := .registering [] (some (.fromCommon .memoryAllocationFailure)) }
      | .queued => none
      | .unregistered => some { s with pc := .registering rest err }
  | .registering [] err =>
      some { s with pendingHandlers := [], pc := .sweep s.handlers.length err }
  | .sweep (i + 1) err =>
      match s.handlers[i]? with
      | none => none
      | some h =>
          if (s.handler h).status = .unregistered then
            some { s with handlers := s.handlers.eraseIdx i, pc := .sweep i err }
          else some { s with pc := .sweep i err }
  | .sweep 0 none => some { s with pc := .prepare }
  | .sweep 0 (some err) => some { s with pc := .leave s.pollMeta (some err) }
  -- `loop_prepare_pollfd`
  | .prepare =>
      if s.stopped then some { s with pollMeta := [], pc := .preparing [] true false }
      else some { s with pollMeta := [], pc := .preparing s.handlers false false }
  | .preparing (h :: rest) empty forced =>
      match (s.handler h).status with
      | .unregistered => some { s with pc := .preparing rest empty forced }
      | .queued => some { s with pc := .preparing rest (empty && (s.handler h).passive) forced }
      | .ready =>
          some { s with pc := .prepareFlags h rest (empty && (s.handler h).passive) forced }
  | .prepareFlags h rest empty forced =>
      let flags := (s.handler h).pendingFlags.allIn
      let s := s.setHandler h { s.handler h with currentFlags := flags }
      if answer.alloc then some { s with pc := .prepareForce h flags rest empty forced }
      else
        some { s with pc := .leave s.pollMeta (some (.fromCommon .memoryAllocationFailure)) }
  | .prepareForce h events rest empty forced =>
      let force := (s.handler h).force
      let s := s.setHandler h { s.handler h with force := false }
      if answer.alloc then
        some { s with
          pollMeta := s.pollMeta ++ [⟨h, events, .empty, force⟩]
          pc := .preparing rest empty (forced || force) }
      else
        some { s with pc := .leave s.pollMeta (some (.fromCommon .memoryAllocationFailure)) }
  | .preparing [] empty forced =>
      if empty then some { s with pc := .leave s.pollMeta none }
      else some { s with pc := .poll forced }
  -- `loop_poll`
  | .poll forced =>
      match answer.revents with
      | none => some { s with
          pc := .leave s.pollMeta
            (some (.wrap "Could not await I/O events" (.fromPosix "poll(2) failed"))) }
      | some revents =>
          if s.PollResult forced revents then
            let entries := List.zipWith (fun entry flags =>
              { entry with
                flags := flags.restrict (s.handler entry.handler).currentFlags }) s.pollMeta revents
            some { s with pollMeta := entries, pc := .submit entries }
          else none
  -- `loop_submit_tasks`
  | .submit (entry :: rest) =>
      if entry.flags = .empty ∧ entry.forced = false then some { s with pc := .submit rest }
      else if answer.alloc then some { s with pc := .dispatch entry rest }
      else some { s with pc := .leave s.pollMeta (some (.okIf "ctx != NULL")) }
  | .submit [] => some { s with pc := .results 0 none }
  | .dispatch entry rest =>
      some { s.compareExchange entry.handler .ready .queued with pc := .dispatchSubmit entry rest }
  | .dispatchSubmit entry rest =>
      if entry.handler = notifyId then
        some { s with pc := .inlineTask ⟨entry.handler, entry.flags, .submitted⟩ rest }
      else if answer.submitted then
        some { s with
          tasks := ⟨entry.handler, entry.flags, .submitted⟩ :: s.tasks
          pc := .submit rest }
      else
        some { s with
          pc := .leave s.pollMeta
            (some (.fromCstr "A handler task has been rejected by the executor")) }
  | .inlineTask task rest =>
      match s.taskStep task answer.task with
      | none => none
      | some (s, some task) => some { s with pc := .inlineTask task rest }
      | some (s, none) =>
          match task.phase with
          | .finished (some err) => some { s with pc := .leave s.pollMeta (some err) }
          | _ => some { s with pc := .submit rest }
  -- `loop_process_task_results`
  | .results i err =>
      match s.errors[i]? with
      | some taskErr =>
          let taskErr :=
            if 0 < i then
              errorFromCstr "Another handler has failed" (some taskErr) answer.memory.wrap
            else taskErr
          some { s with
            pc := .results (i + 1) (errorCombine err (some taskErr) answer.memory.combine) }
      | none => some { s with pc := .resultsClear err }
  | .resultsClear none => some { s with errors := [], pc := .register }
  | .resultsClear (some err) =>
      some { s with errors := [], pc := .leave s.pollMeta (some err) }
  -- the label `fail` of `loop_run`
  | .leave (entry :: rest) err =>
      some { s.setStatus entry.handler .unregistered with pc := .leave rest err }
  | .leave [] err => some { s with pc := .idle (some err) }

/-! ## All threads -/

/-- A step of the system. The calls on handlers are for those of the users of the loop, which
have no access to `notify`, and each is registered once. -/
inductive LoopAction
  | register (handler : ℕ)
  | unregister (handler : ℕ)
  | force (handler : ℕ)
  | setPendingMask (handler : ℕ) (flags : PollFlags)
  | stop
  | proceed (call : PendingCall) (written : Bool)
  | task (task : LoopTask) (answer : TaskAnswer)
  | loop (answer : LoopAnswer)

/-- `loop_register`, up to the interruption. -/
def Loop.loopRegister (s : Loop) (h : ℕ) : Loop :=
  { s.setHandler h { s.handler h with loop := true } with
    pendingHandlers := s.pendingHandlers ++ [h]
    calls := .interrupt :: s.calls }

/-- `handler_set_pending_mask`, up to the interruption. -/
def Loop.handlerSetPendingMask (s : Loop) (h : ℕ) (flags : PollFlags) : Loop :=
  let prev := flags
  let s := s.setHandler h { s.handler h with pendingFlags := flags }
  if prev ≠ flags ∧ (s.handler h).loop = true then { s with calls := .interrupt :: s.calls } else s

def Loop.proceed (s : Loop) (call : PendingCall) (written : Bool) : Option Loop :=
  match call with
  | .forced h =>
      if (s.handler h).loop then some { s with calls := .interrupt :: s.calls } else some s
  | .interrupt => s.notifyPost written
  | .wakeup => s.notifyWakeup written

def Loop.step (s : Loop) (act : LoopAction) : Option Loop :=
  match act with
  | .register h =>
      if h ≠ notifyId ∧ (s.handler h).loop = false ∧ s.pc.holdsPending = false then
        some (s.loopRegister h)
      else none
  | .unregister h => if h ≠ notifyId then some (s.setStatus h .unregistered) else none
  | .force h =>
      if h ≠ notifyId then
        some { s.setHandler h { s.handler h with force := true } with
          calls := .forced h :: s.calls }
      else none
  | .setPendingMask h flags => if h ≠ notifyId then some (s.handlerSetPendingMask h flags) else none
  | .stop => some { s with stopped := true, calls := .wakeup :: s.calls }
  | .proceed call written =>
      if call ∈ s.calls then ({ s with calls := s.calls.erase call }).proceed call written else none
  | .task task answer =>
      if task ∈ s.tasks then
        match s.taskStep task answer with
        | none => none
        | some (s', task') => some { s' with tasks := task'.toList ++ s.tasks.erase task }
      else none
  | .loop answer => s.loopStep answer

def Handler.Fresh (x : Handler) : Prop := x.status = .ready ∧ x.loop = false

/-- The handler that `notify_new` and `loop_new` set up. -/
def notifyHandler : Handler where
  status := .ready
  passive := true
  force := false
  loop := false
  onError := false
  currentFlags := .empty
  pendingFlags := ⟨true, false, false, false⟩

/-- The state that `loop_new` leaves, with the handlers that may be registered later. -/
def loopNew (handler : ℕ → Handler) : Loop where
  handler := Function.update handler notifyId notifyHandler
  handlers := []
  pendingHandlers := [notifyId]
  errors := []
  stopped := false
  raised := false
  pipe := 0
  pollMeta := []
  tasks := []
  calls := []
  pc := .idle none

def Loop.Init (s : Loop) : Prop := ∃ handler, (∀ h, (handler h).Fresh) ∧ s = loopNew handler

def Loop.Step (s : Loop) (act : LoopAction) (s' : Loop) : Prop := s.step act = some s'

end PosixThreads
