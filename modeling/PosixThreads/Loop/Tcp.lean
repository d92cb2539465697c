import Mathlib.Data.List.Nodup
import PosixThreads.Library.Lts
import PosixThreads.Loop.Io

/-!
# Writing to a TCP handler

The write requests of an established client handler are kept in a queue. `tcp_write`
adds one at the end, and `tcp_client_handle_write` passes the first one to
`io_process_write_req` until it has been written or the queue is empty. A request is
removed after its last callback: an `on_write` that returns no error, an `on_error` that
returns one, or the `on_error` of a request that is dropped. An `on_error` that returns
no error has the request tried again, and an `on_write` that fails is followed by an
`on_error`.
-/

namespace PosixThreads

/-- What a user callback does: the error it returns, and whether it has called
`tcp_shutdown_output`. -/
structure TcpCallback where
  err : Option Error
  shutdownOutput : Bool

/-- The answers of the surroundings to one turn of `tcp_client_handle_write`. -/
structure TcpEnv where
  iovMax : ℕ
  iovResized : Bool
  writev : Option ℕ
  onWrite : TcpCallback
  onError : Error → TcpCallback

/-- `tcp_write_req_t`. The callbacks may be `NULL`. Requests are numbered in the order in
which they were added. -/
structure TcpWriteReq where
  id : ℕ
  writeReq : WriteReq
  onWrite : Bool
  onError : Bool
  deriving DecidableEq, Repr

/-- The fields of `tcp_handler_t` that writing uses. Of the pending mask this is the flag
`LOOP_WRITE`. -/
structure TcpHandler where
  writeReqs : List TcpWriteReq
  outputShut : Bool
  loopWrite : Bool
  registered : Bool
  deriving DecidableEq, Repr

/-- What happens to the requests. A callback comes with what it has returned, and one that
is `NULL` is listed at its turn like the others, with the result that stands in for it. -/
inductive TcpEvent
  | queued (id : ℕ)
  | onWrite (id : ℕ) (result : Option Error)
  | onError (id : ℕ) (err result : Option Error)
  | removed (id : ℕ)
  deriving DecidableEq, Repr

/-- `tcp_client_process_write_req_on_write`. -/
def TcpWriteReq.processOnWrite (env : TcpEnv) (req : TcpWriteReq) : TcpCallback :=
  if req.onWrite then env.onWrite else ⟨none, false⟩

/-- `tcp_client_process_write_req_on_error`. -/
def TcpWriteReq.processOnError (env : TcpEnv) (req : TcpWriteReq) (err : Error) : TcpCallback :=
  if req.onError then env.onError err else ⟨some err, false⟩

def TcpWriteReq.ioEnv (env : TcpEnv) (req : TcpWriteReq) : IoEnv where
  iovMax := env.iovMax
  iovResized := env.iovResized
  writev := env.writev
  onWrite := (req.processOnWrite env).err
  onError := fun err => (req.processOnError env err).err

def TcpWriteReq.callback (env : TcpEnv) (req : TcpWriteReq) : IoCall → TcpCallback
  | .onWrite => req.processOnWrite env
  | .onError err => req.processOnError env err

def TcpWriteReq.event (env : TcpEnv) (req : TcpWriteReq) : IoCall → TcpEvent
  | .onWrite => .onWrite req.id (req.processOnWrite env).err
  | .onError err => .onError req.id (some err) (req.processOnError env err).err

/-- `tcp_client_process_write_req`, for the first request `req` of the queue. The result is
`none` when an assertion fails. -/
def tcpClientProcessWriteReq (env : TcpEnv) (self : TcpHandler) (req : TcpWriteReq)
    (rest : List TcpWriteReq) (err : Option Error) :
    Option (TcpHandler × IoProcessResult × Option Error × List TcpEvent) := do
  let out ← ioProcessWriteReq (req.ioEnv env) err req.writeReq
  let self := { self with
    writeReqs := { req with writeReq := out.req } :: rest
    outputShut := self.outputShut ||
      out.calls.any fun call => (req.callback env call).shutdownOutput }
  return (self, out.processed, out.err, out.calls.map (req.event env))

/-- What can be said of a call of `tcp_client_handle_write`: it has returned, an assertion
has failed, or it is at the start of another turn. -/
inductive TcpOutcome
  | returned (self : TcpHandler) (err : Option Error) (events : List TcpEvent)
  | aborted
  | running (self : TcpHandler) (err : Option Error) (events : List TcpEvent)

def TcpOutcome.after (events : List TcpEvent) : TcpOutcome → TcpOutcome
  | .returned self err events' => .returned self err (events ++ events')
  | .aborted => .aborted
  | .running self err events' => .running self err (events ++ events')

def TcpOutcome.isRunning : TcpOutcome → Bool
  | .running _ _ _ => true
  | _ => false

/-- One turn of the loop of `tcp_client_handle_write`. The flag tells whether the loop is
left. -/
def tcpWriteTurn (env : TcpEnv) (self : TcpHandler) (req : TcpWriteReq) (rest : List TcpWriteReq)
    (err : Option Error) : Option (TcpHandler × Option Error × List TcpEvent × Bool) := do
  let (self, processed, err, events) ← tcpClientProcessWriteReq env self req rest err
  match processed with
  | .processFinished =>
      return ({ self with writeReqs := self.writeReqs.drop 1 }, err,
        events ++ [.removed req.id], err.isNone)
  | .processPartial => return (self, err, events, err.isNone)
  | .processAgain => return (self, err, events, false)

/-- The loop of `tcp_client_handle_write`, for as many turns as there are answers. -/
def tcpWriteLoop : List TcpEnv → TcpHandler → Option Error → TcpOutcome
  | [], self, err =>
      if !self.outputShut && self.writeReqs.length > 0 then .running self err []
      else .returned self err []
  | env :: envs, self, err =>
      if self.outputShut then .returned self err []
      else
        match self.writeReqs with
        | [] => .returned self err []
        | req :: rest =>
            match tcpWriteTurn env self req rest err with
            | none => .aborted
            | some (self, err, events, true) => .returned self err events
            | some (self, err, events, false) => (tcpWriteLoop envs self err).after events

def tcpClientDropWriteReqs (drop : ℕ → TcpCallback) (self : TcpHandler) :
    TcpHandler × Option Error × List TcpEvent :=
  let callback (req : TcpWriteReq) := if req.onError then drop req.id else ⟨none, false⟩
  ({ self with
      writeReqs := []
      outputShut := self.outputShut ||
        self.writeReqs.any fun req => (callback req).shutdownOutput },
    self.writeReqs.foldl (fun err req => errorCombine err (callback req).err) none,
    self.writeReqs.map (fun req => .onError req.id none (callback req).err) ++
      self.writeReqs.map fun req => .removed req.id)

/-- `LOOP_WRITE` is taken out of the pending mask when there is nothing left to write. -/
def TcpHandler.clearLoopWrite (self : TcpHandler) : TcpHandler :=
  if self.writeReqs.length = 0 then { self with loopWrite := false } else self

/-- What `tcp_client_handle_write` does after its loop. -/
def tcpHandleWriteOut (drop : ℕ → TcpCallback) (self : TcpHandler) (err : Option Error)
    (events : List TcpEvent) : TcpHandler × Option Error × List TcpEvent :=
  let (self, err, events) :=
    if self.outputShut then
      let (self, dropErr, dropEvents) := tcpClientDropWriteReqs drop self
      (self, errorCombine err (errorWrap
        "Encountered a failure while processing output shutdown" dropErr), events ++ dropEvents)
    else (self, err, events)
  (self.clearLoopWrite, err, events)

def tcpClientHandleWrite (envs : List TcpEnv) (drop : ℕ → TcpCallback) (self : TcpHandler) :
    TcpOutcome :=
  match tcpWriteLoop envs self none with
  | .returned self err events =>
      let (self, err, events) := tcpHandleWriteOut drop self err events
      .returned self err events
  | .aborted => .aborted
  | .running self err events => .running self err events

/-- `tcp_write`. The request gets the number `id`, and `pushed` tells whether there is
memory for it. -/
def tcpWrite (id : ℕ) (slices : List Slice) (onWrite onError pushed : Bool) (self : TcpHandler) :
    Option (TcpHandler × Option Error × List TcpEvent) := do
  assertThat self.registered
  if self.outputShut then
    return (self, errorWrap "The output has been shut down" (okIf false "!self->output_shut"), [])
  else if pushed then
    return ({ self with
      writeReqs := self.writeReqs ++ [⟨id, ⟨slices, 0⟩, onWrite, onError⟩]
      loopWrite := true }, none, [.queued id])
  else return (self, some (.fromCommon .memoryAllocationFailure), [])

/-- `tcp_client_free`, up to the queue of requests. -/
def tcpClientFree (drop : ℕ → TcpCallback) (self : TcpHandler) :
    Option (TcpHandler × List TcpEvent) := do
  assertThat self.registered
  let (self, _, events) := tcpClientDropWriteReqs drop self
  return (self, events)

/-! ## Turns of the loop -/

/-- What one turn does with the request `id`. It fails after an `on_write` or without one,
and `on_error` decides what becomes of the request. -/
inductive TcpTurn (onError : Error → Option Error) (id : ℕ) :
    IoProcessResult → Option Error → List TcpEvent → Prop
  | written : TcpTurn onError id .processFinished none [.onWrite id none]
  | resumed : TcpTurn onError id .processPartial none []
  | again {err : Error} {before : List TcpEvent} (hresult : onError err = none)
      (hbefore : before = [] ∨ before = [.onWrite id (some err)]) :
      TcpTurn onError id .processAgain none (before ++ [.onError id (some err) none])
  | failed {err err' : Error} {before : List TcpEvent} (hresult : onError err = some err')
      (hbefore : before = [] ∨ before = [.onWrite id (some err)]) :
      TcpTurn onError id .processFinished (some err')
        (before ++ [.onError id (some err) (some err')])

section Turn

variable {env : TcpEnv} {self self' : TcpHandler} {req : TcpWriteReq} {rest : List TcpWriteReq}
  {err err' : Option Error} {processed : IoProcessResult} {events : List TcpEvent}

theorem tcpTurn_of_ioFail {wr : WriteReq} {calls : List IoCall} {err : Error}
    (hcalls : calls = [] ∨ calls = [.onWrite] ∧ (req.processOnWrite env).err = some err) :
    TcpTurn (req.ioEnv env).onError req.id (ioFail (req.ioEnv env) wr calls err).processed
      (ioFail (req.ioEnv env) wr calls err).err
      ((ioFail (req.ioEnv env) wr calls err).calls.map (req.event env)) := by
  have hbefore : calls.map (req.event env) = [] ∨
      calls.map (req.event env) = [.onWrite req.id (some err)] := by
    rcases hcalls with hcalls | ⟨hcalls, hresult⟩
    · exact Or.inl (by rw [hcalls]; rfl)
    · exact Or.inr (by rw [hcalls, List.map_singleton, TcpWriteReq.event, hresult])
  cases herr : (req.ioEnv env).onError err with
  | none =>
      have hresult : (req.processOnError env err).err = none := herr
      simp only [ioFail, herr, List.map_append, List.map_singleton, TcpWriteReq.event, hresult]
      exact .again herr hbefore
  | some err' =>
      have hresult : (req.processOnError env err).err = some err' := herr
      simp only [ioFail, herr, List.map_append, List.map_singleton, TcpWriteReq.event, hresult]
      exact .failed herr hbefore

theorem tcpTurn_of_ioProcessWriteReq {out : IoOutcome}
    (h : ioProcessWriteReq (req.ioEnv env) err req.writeReq = some out) :
    TcpTurn (req.ioEnv env).onError req.id out.processed out.err
      (out.calls.map (req.event env)) := by
  cases err with
  | some err =>
      simp only [ioProcessWriteReq, Option.some.injEq] at h
      rw [← h]
      exact tcpTurn_of_ioFail (Or.inl rfl)
  | none =>
      simp only [ioProcessWriteReq] at h
      split at h
      · split at h
        · rw [← Option.some.inj h]
          exact tcpTurn_of_ioFail (Or.inl rfl)
        · split at h
          · split at h
            · cases hresult : (req.ioEnv env).onWrite with
              | none =>
                  have hresult' : (req.processOnWrite env).err = none := hresult
                  simp only [hresult, Option.some.injEq] at h
                  rw [← h]
                  simp only [List.map_singleton, TcpWriteReq.event, hresult']
                  exact .written
              | some err =>
                  simp only [hresult, Option.some.injEq] at h
                  rw [← h]
                  exact tcpTurn_of_ioFail (Or.inr ⟨rfl, hresult⟩)
            · rw [← Option.some.inj h]
              exact .resumed
          · simp at h
      · rw [← Option.some.inj h]
        exact tcpTurn_of_ioFail (Or.inl rfl)

theorem tcpClientProcessWriteReq_spec
    (h : tcpClientProcessWriteReq env self req rest err = some (self', processed, err', events)) :
    self'.writeReqs.map TcpWriteReq.id = req.id :: rest.map TcpWriteReq.id ∧
      TcpTurn (req.ioEnv env).onError req.id processed err' events := by
  simp only [tcpClientProcessWriteReq, Option.bind_eq_bind, Option.bind_eq_some_iff,
    Option.pure_def, Option.some.injEq, Prod.mk.injEq] at h
  obtain ⟨out, hout, hself, hprocessed, herr, hevents⟩ := h
  rw [← hself, ← hprocessed, ← herr, ← hevents]
  exact ⟨rfl, tcpTurn_of_ioProcessWriteReq hout⟩

end Turn

/-! ## What happens to a request -/

def TcpEvent.callId : TcpEvent → Option ℕ
  | .onWrite id _ => some id
  | .onError id _ _ => some id
  | _ => none

def TcpEvent.queuedId : TcpEvent → Option ℕ
  | .queued id => some id
  | _ => none

def TcpEvent.removedId : TcpEvent → Option ℕ
  | .removed id => some id
  | _ => none

/-- The callback has the request removed: an `on_write` that returns no error, an `on_error`
that returns one, or the `on_error` of a dropped request, which has no error to report. -/
def TcpEvent.isFinal : TcpEvent → Bool
  | .onWrite _ none => true
  | .onError _ none _ => true
  | .onError _ (some _) (some _) => true
  | _ => false

def callsOf (id : ℕ) (log : List TcpEvent) : List TcpEvent :=
  log.filter fun event => event.callId = some id

def queuedIds (log : List TcpEvent) : List ℕ := log.filterMap TcpEvent.queuedId

def removedIds (log : List TcpEvent) : List ℕ := log.filterMap TcpEvent.removedId

def Answered (calls : List TcpEvent) : Prop :=
  ∃ again last, calls = again ++ [last] ∧ last.isFinal = true ∧
    ∀ call ∈ again, call.isFinal = false

/-- An `on_write` that fails is followed by an `on_error` with its error. -/
def Followed (log : List TcpEvent) : Prop :=
  ∀ before after id err, log = before ++ .onWrite id (some err) :: after →
    ∃ result after', after = .onError id (some err) result :: after'

@[simp] theorem callsOf_append (id : ℕ) (log log' : List TcpEvent) :
    callsOf id (log ++ log') = callsOf id log ++ callsOf id log' :=
  List.filter_append ..

@[simp] theorem queuedIds_append (log log' : List TcpEvent) :
    queuedIds (log ++ log') = queuedIds log ++ queuedIds log' :=
  List.filterMap_append ..

@[simp] theorem removedIds_append (log log' : List TcpEvent) :
    removedIds (log ++ log') = removedIds log ++ removedIds log' :=
  List.filterMap_append ..

@[simp] theorem callsOf_removed (id : ℕ) (ids : List ℕ) :
    callsOf id (ids.map .removed) = [] := by
  simp [callsOf, TcpEvent.callId]

@[simp] theorem queuedIds_removed (ids : List ℕ) : queuedIds (ids.map .removed) = [] := by
  simp [queuedIds, TcpEvent.queuedId]

@[simp] theorem removedIds_removed (ids : List ℕ) : removedIds (ids.map .removed) = ids := by
  simp [removedIds, TcpEvent.removedId, Function.comp_def]

theorem append_eq_append_cons {α : Type*} {xs ys before after : List α} {a : α}
    (h : xs ++ ys = before ++ a :: after) :
    (∃ after', xs = before ++ a :: after' ∧ after = after' ++ ys) ∨
      ∃ before', ys = before' ++ a :: after ∧ before = xs ++ before' := by
  rcases List.append_eq_append_iff.mp h with ⟨before', hbefore, hys⟩ | ⟨tail, hxs, htail⟩
  · exact Or.inr ⟨before', hys, hbefore⟩
  · cases tail with
    | nil => exact Or.inr ⟨[], by simpa using htail.symm, by simpa using hxs.symm⟩
    | cons b tail =>
        rw [List.cons_append, List.cons.injEq] at htail
        exact Or.inl ⟨tail, by rw [hxs, htail.1], htail.2⟩

theorem Followed.append {log log' : List TcpEvent} (h : Followed log) (h' : Followed log') :
    Followed (log ++ log') := by
  intro before after id err heq
  rcases append_eq_append_cons heq with ⟨after₁, hlog, hafter⟩ | ⟨before₁, hlog, _⟩
  · obtain ⟨result, after₂, hafter₁⟩ := h _ _ _ _ hlog
    exact ⟨result, after₂ ++ log', by rw [hafter, hafter₁]; rfl⟩
  · exact h' _ _ _ _ hlog

theorem followed_of_forall {log : List TcpEvent}
    (h : ∀ id err, TcpEvent.onWrite id (some err) ∉ log) : Followed log := by
  intro before after id err heq
  exact absurd (by rw [heq]; simp) (h id err)

theorem Answered.of_append {calls calls' : List TcpEvent} (h : Answered calls')
    (hwait : ∀ call ∈ calls, call.isFinal = false) : Answered (calls ++ calls') := by
  obtain ⟨again, last, heq, hlast, hagain⟩ := h
  refine ⟨calls ++ again, last, by rw [heq, List.append_assoc], hlast, fun call hcall => ?_⟩
  rcases List.mem_append.mp hcall with hcall | hcall
  · exact hwait call hcall
  · exact hagain call hcall

/-- The state of a queue with the requests `ids`, after `next` of them have been added. -/
structure LogInv (log : List TcpEvent) (ids : List ℕ) (next : ℕ) : Prop where
  queued : queuedIds log = List.range next
  fifo : removedIds log ++ ids = List.range next
  removed : ∀ before after id, log = before ++ .removed id :: after →
    Answered (callsOf id before) ∧ callsOf id after = []
  waiting : ∀ id ∉ removedIds log, ∀ call ∈ callsOf id log, call.isFinal = false
  followed : Followed log

section Log

variable {log calls : List TcpEvent} {ids rest : List ℕ} {next : ℕ}

theorem LogInv.not_removed (h : LogInv log ids next) {id : ℕ} (hid : id ∈ ids) :
    id ∉ removedIds log := by
  have hnodup : (removedIds log ++ ids).Nodup := by
    rw [h.fifo]
    exact List.nodup_range
  exact fun hrem => (List.nodup_append.mp hnodup).2.2 _ hrem _ hid rfl

/-- Callbacks of the requests in the queue, and then the removal of the first ones. -/
theorem LogInv.turn (ids : List ℕ) (h : LogInv log (ids ++ rest) next)
    (hcalls : ∀ event ∈ calls, ∃ id ∈ ids ++ rest, event.callId = some id)
    (hanswered : ∀ id ∈ ids, Answered (callsOf id calls))
    (hwaiting : ∀ id ∉ ids, ∀ call ∈ callsOf id calls, call.isFinal = false)
    (hfollowed : Followed calls) :
    LogInv (log ++ (calls ++ ids.map .removed)) rest next := by
  have hqueued : queuedIds calls = [] := by
    rw [queuedIds, List.filterMap_eq_nil_iff]
    intro event hevent
    obtain ⟨id, _, hid⟩ := hcalls event hevent
    cases event <;> simp_all [TcpEvent.callId, TcpEvent.queuedId]
  have hremoved : removedIds calls = [] := by
    rw [removedIds, List.filterMap_eq_nil_iff]
    intro event hevent
    obtain ⟨id, _, hid⟩ := hcalls event hevent
    cases event <;> simp_all [TcpEvent.callId, TcpEvent.removedId]
  have hothers : ∀ id ∈ removedIds log, callsOf id calls = [] := by
    intro id hid
    rw [callsOf, List.filter_eq_nil_iff]
    intro event hevent hcall
    obtain ⟨id', hid', hcall'⟩ := hcalls event hevent
    have heq : id' = id := by simpa [hcall'] using hcall
    exact h.not_removed hid' (heq ▸ hid)
  refine ⟨by simp [h.queued, hqueued], ?_, ?_, ?_, ?_⟩
  · rw [← h.fifo]
    simp [hremoved]
  · intro before after id heq
    rcases append_eq_append_cons heq with ⟨after₁, hlog, hafter⟩ | ⟨before₁, hevents, hbefore⟩
    · obtain ⟨hans, hafter₁⟩ := h.removed _ _ _ hlog
      have hid : id ∈ removedIds log := by
        rw [hlog]
        simp [removedIds, TcpEvent.removedId]
      exact ⟨hans, by simp [hafter, hafter₁, hothers id hid]⟩
    · rcases append_eq_append_cons hevents with ⟨after₂, hin, _⟩ | ⟨before₂, hin, hbefore₂⟩
      · -- a callback does not remove anything
        obtain ⟨_, _, hcall⟩ := hcalls (.removed id) (by rw [hin]; simp)
        simp [TcpEvent.callId] at hcall
      · obtain ⟨ids₁, ids₂, hids, hmap₁, hmap₂⟩ := List.map_eq_append_iff.mp hin
        have hid : id ∈ ids := by
          have hmem : TcpEvent.removed id ∈ ids.map .removed := by rw [hin]; simp
          simpa using hmem
        obtain ⟨id₂, ids₃, rfl, _, hmap₃⟩ := List.map_eq_cons_iff.mp hmap₂
        have hwait := h.waiting id (h.not_removed (List.mem_append_left _ hid))
        refine ⟨?_, by rw [← hmap₃]; simp⟩
        rw [hbefore, hbefore₂, ← hmap₁]
        simpa using (hanswered id hid).of_append hwait
  · intro id hid call hcall
    rw [removedIds_append, removedIds_append, removedIds_removed, hremoved, List.nil_append,
      List.mem_append, not_or] at hid
    rw [callsOf_append, callsOf_append, callsOf_removed, List.append_nil, List.mem_append] at hcall
    rcases hcall with hcall | hcall
    · exact h.waiting id hid.1 call hcall
    · exact hwaiting id hid.2 call hcall
  · exact h.followed.append (hfollowed.append (followed_of_forall (by simp)))

theorem LogInv.queue (h : LogInv log ids next) :
    LogInv (log ++ [.queued next]) (ids ++ [next]) (next + 1) := by
  refine ⟨?_, ?_, ?_, ?_, h.followed.append (followed_of_forall (by simp))⟩
  · rw [queuedIds_append, h.queued, List.range_succ]
    rfl
  · rw [removedIds_append, List.range_succ, ← h.fifo]
    simp [removedIds, TcpEvent.removedId]
  · intro before after id heq
    rcases append_eq_append_cons heq with ⟨after₁, hlog, hafter⟩ | ⟨before₁, hevents, _⟩
    · obtain ⟨hans, hafter₁⟩ := h.removed _ _ _ hlog
      exact ⟨hans, by rw [hafter, callsOf_append, hafter₁]; rfl⟩
    · cases before₁ <;> simp at hevents
  · intro id hid call hcall
    rw [callsOf_append, List.mem_append] at hcall
    rw [removedIds_append] at hid
    rcases hcall with hcall | hcall
    · exact h.waiting id (fun hmem => hid (List.mem_append_left _ hmem)) call hcall
    · simp [callsOf, TcpEvent.callId] at hcall

end Log

/-! ## One call -/

def TcpHandler.ids (self : TcpHandler) : List ℕ := self.writeReqs.map TcpWriteReq.id

@[simp] theorem TcpHandler.ids_clearLoopWrite (self : TcpHandler) :
    self.clearLoopWrite.ids = self.ids := by
  rw [TcpHandler.clearLoopWrite]
  split <;> rfl

section Call

variable {env : TcpEnv} {envs : List TcpEnv} {drop : ℕ → TcpCallback} {self self' : TcpHandler}
  {req : TcpWriteReq} {rest : List TcpWriteReq} {err err' : Option Error}
  {log events : List TcpEvent} {out : Bool} {next : ℕ}

/-- The callbacks of a turn that fails are those of its request, and only the last one of
them can be final. -/
theorem failedCalls_spec {id : ℕ} {err : Error} {result : Option Error} {before : List TcpEvent}
    (hbefore : before = [] ∨ before = [.onWrite id (some err)]) :
    (∀ event ∈ before ++ [.onError id (some err) result], event.callId = some id) ∧
      (∀ event ∈ before, event.isFinal = false) ∧
      Followed (before ++ [.onError id (some err) result]) := by
  rcases hbefore with hbefore | hbefore
  · rw [hbefore]
    exact ⟨by simp [TcpEvent.callId], by simp, followed_of_forall (by simp)⟩
  · rw [hbefore]
    refine ⟨by simp [TcpEvent.callId], by simp [TcpEvent.isFinal], ?_⟩
    intro before' after id' err' heq
    cases before' with
    | nil =>
        simp only [List.singleton_append, List.nil_append, List.cons.injEq, TcpEvent.onWrite.injEq,
          Option.some.injEq] at heq
        exact ⟨result, [], by rw [← heq.2, heq.1.1, heq.1.2]⟩
    | cons _ before' =>
        cases before' with
        | nil => simp at heq
        | cons _ before' => simp at heq

theorem callsOf_eq_self {id : ℕ} {calls : List TcpEvent}
    (h : ∀ event ∈ calls, event.callId = some id) : callsOf id calls = calls := by
  rw [callsOf, List.filter_eq_self]
  intro event hevent
  simpa using h event hevent

theorem callsOf_eq_nil {id id' : ℕ} {calls : List TcpEvent}
    (h : ∀ event ∈ calls, event.callId = some id) (hne : id' ≠ id) : callsOf id' calls = [] := by
  rw [callsOf, List.filter_eq_nil_iff]
  intro event hevent hcall
  have heq : id = id' := by simpa [h event hevent] using hcall
  exact hne heq.symm

theorem LogInv.again {id : ℕ} {calls : List TcpEvent} {rest : List ℕ}
    (h : LogInv log (id :: rest) next) (hcalls : ∀ event ∈ calls, event.callId = some id)
    (hwaiting : ∀ event ∈ calls, event.isFinal = false) (hfollowed : Followed calls) :
    LogInv (log ++ calls) (id :: rest) next := by
  have hturn := LogInv.turn [] h
    (fun event hevent => ⟨id, by simp, hcalls event hevent⟩) (by simp) ?_ hfollowed
  · simpa using hturn
  · intro id' _ call hcall
    exact hwaiting call (List.mem_of_mem_filter hcall)

theorem LogInv.finish {id : ℕ} {calls : List TcpEvent} {rest : List ℕ}
    (h : LogInv log (id :: rest) next) (hcalls : ∀ event ∈ calls, event.callId = some id)
    (hanswered : Answered calls) (hfollowed : Followed calls) :
    LogInv (log ++ (calls ++ [.removed id])) rest next := by
  have hturn := LogInv.turn [id] h
    (fun event hevent => ⟨id, by simp, hcalls event hevent⟩) ?_ ?_ hfollowed
  · simpa using hturn
  · intro id' hid'
    rw [List.mem_singleton.mp hid', callsOf_eq_self hcalls]
    exact hanswered
  · intro id' hid' call hcall
    rw [callsOf_eq_nil hcalls (by simpa using hid')] at hcall
    simp at hcall

theorem tcpWriteTurn_spec
    (h : tcpWriteTurn env self req rest err = some (self', err', events, out)) :
    (∀ log next, LogInv log (req.id :: rest.map TcpWriteReq.id) next →
      LogInv (log ++ events) self'.ids next) ∧
    (out = false → self'.writeReqs.length = rest.length ∨
      self'.writeReqs.length = rest.length + 1 ∧ ∃ e, (req.processOnError env e).err = none) := by
  simp only [tcpWriteTurn, Option.bind_eq_bind, Option.bind_eq_some_iff, Prod.exists] at h
  obtain ⟨self₁, processed, err₁, events₁, hprocess, h⟩ := h
  obtain ⟨hids, hturn⟩ := tcpClientProcessWriteReq_spec hprocess
  have hlength : self₁.writeReqs.length = rest.length + 1 := by
    simpa using congrArg List.length hids
  have hdrop : (self₁.writeReqs.drop 1).map TcpWriteReq.id = rest.map TcpWriteReq.id := by
    rw [List.map_drop, hids, List.drop_one, List.tail_cons]
  cases hturn with
  | written =>
      simp only [Option.pure_def, Option.some.injEq, Prod.mk.injEq] at h
      obtain ⟨hself, _, hevents, hout⟩ := h
      refine ⟨fun log next hinv => ?_, fun hfalse => ?_⟩
      · rw [← hself, ← hevents, TcpHandler.ids, hdrop]
        refine hinv.finish (by simp [TcpEvent.callId]) ⟨[], _, rfl, rfl, by simp⟩ ?_
        exact followed_of_forall (by simp)
      · rw [← hout] at hfalse
        simp at hfalse
  | resumed =>
      simp only [Option.pure_def, Option.some.injEq, Prod.mk.injEq] at h
      obtain ⟨hself, _, hevents, hout⟩ := h
      refine ⟨fun log next hinv => ?_, fun hfalse => ?_⟩
      · rw [← hself, ← hevents, TcpHandler.ids, hids, List.append_nil]
        exact hinv
      · rw [← hout] at hfalse
        simp at hfalse
  | again hresult hbefore =>
      simp only [Option.pure_def, Option.some.injEq, Prod.mk.injEq] at h
      obtain ⟨hself, _, hevents, _⟩ := h
      refine ⟨fun log next hinv => ?_, fun _ => Or.inr ⟨hself ▸ hlength, _, hresult⟩⟩
      obtain ⟨hcalls, hwaiting, hfollowed⟩ := failedCalls_spec hbefore
      rw [← hself, ← hevents, TcpHandler.ids, hids]
      refine hinv.again hcalls (fun event hevent => ?_) hfollowed
      rcases List.mem_append.mp hevent with hevent | hevent
      · exact hwaiting event hevent
      · rw [List.mem_singleton.mp hevent]
        rfl
  | failed hresult hbefore =>
      simp only [Option.pure_def, Option.some.injEq, Prod.mk.injEq] at h
      obtain ⟨hself, _, hevents, _⟩ := h
      refine ⟨fun log next hinv => ?_, fun _ => Or.inl ?_⟩
      · obtain ⟨hcalls, hwaiting, hfollowed⟩ := failedCalls_spec hbefore
        rw [← hself, ← hevents, TcpHandler.ids, hdrop]
        exact hinv.finish hcalls ⟨_, _, rfl, rfl, hwaiting⟩ hfollowed
      · rw [← hself]
        simp [hlength]

/-- The loop ends at once, has no answer for its next turn, or makes one. -/
theorem tcpWriteLoop_cases (envs : List TcpEnv) (self : TcpHandler) (err : Option Error) :
    tcpWriteLoop envs self err = .returned self err [] ∨
    (envs = [] ∧ tcpWriteLoop envs self err = .running self err []) ∨
    ∃ env envs' req rest, envs = env :: envs' ∧ self.writeReqs = req :: rest ∧
      (tcpWriteLoop envs self err = .aborted ∨
        ∃ self' err' events out,
          tcpWriteTurn env self req rest err = some (self', err', events, out) ∧
          tcpWriteLoop envs self err =
            if out then .returned self' err' events
            else (tcpWriteLoop envs' self' err').after events) := by
  by_cases hshut : self.outputShut = true
  · cases envs <;> exact Or.inl (by simp [tcpWriteLoop, hshut])
  · cases hreqs : self.writeReqs with
    | nil => cases envs <;> exact Or.inl (by simp [tcpWriteLoop, hshut, hreqs])
    | cons req rest =>
        cases envs with
        | nil => exact Or.inr (Or.inl ⟨rfl, by simp [tcpWriteLoop, hshut, hreqs]⟩)
        | cons env envs =>
            refine Or.inr (Or.inr ⟨env, envs, req, rest, rfl, rfl, ?_⟩)
            cases hturn : tcpWriteTurn env self req rest err with
            | none => exact Or.inl (by simp [tcpWriteLoop, hshut, hreqs, hturn])
            | some result =>
                obtain ⟨self', err', events, out⟩ := result
                refine Or.inr ⟨self', err', events, out, rfl, ?_⟩
                cases out <;> simp [tcpWriteLoop, hshut, hreqs, hturn]

/-- What a call has done so far keeps the state of the queue. -/
def TcpOutcome.Keeps (next : ℕ) (log : List TcpEvent) : TcpOutcome → Prop
  | .returned self _ events => LogInv (log ++ events) self.ids next
  | .aborted => True
  | .running self _ events => LogInv (log ++ events) self.ids next

theorem TcpOutcome.Keeps.after {outcome : TcpOutcome} (h : outcome.Keeps next (log ++ events)) :
    (outcome.after events).Keeps next log := by
  cases outcome with
  | aborted => trivial
  | returned self err events' | running self err events' =>
      simpa [TcpOutcome.Keeps, TcpOutcome.after] using h

theorem tcpWriteLoop_keeps (hinv : LogInv log self.ids next) (envs : List TcpEnv)
    (err : Option Error) :
    (tcpWriteLoop envs self err).Keeps next log := by
  induction envs generalizing self err log with
  | nil =>
      rcases tcpWriteLoop_cases [] self err with h | ⟨_, h⟩ | ⟨_, _, _, _, h, _⟩
      · rw [h]
        simpa [TcpOutcome.Keeps] using hinv
      · rw [h]
        simpa [TcpOutcome.Keeps] using hinv
      · simp at h
  | cons env envs ih =>
      rcases tcpWriteLoop_cases (env :: envs) self err with
        h | ⟨h, _⟩ | ⟨_, _, req, rest, henvs, hreqs, h | ⟨self', err', events, out, hturn, h⟩⟩
      · rw [h]
        simpa [TcpOutcome.Keeps] using hinv
      · simp at h
      · rw [h]
        trivial
      · obtain ⟨rfl, rfl⟩ := List.cons.inj henvs
        have hids : self.ids = req.id :: rest.map TcpWriteReq.id := by
          rw [TcpHandler.ids, hreqs, List.map_cons]
        have hinv' := (tcpWriteTurn_spec hturn).1 log next (hids ▸ hinv)
        rw [h]
        cases out with
        | true => exact hinv'
        | false => exact (ih hinv' err').after

theorem callsOf_map (f : TcpWriteReq → TcpEvent) (hf : ∀ req, (f req).callId = some req.id)
    {reqs : List TcpWriteReq} (hnodup : (reqs.map TcpWriteReq.id).Nodup) {id : ℕ}
    (hid : id ∈ reqs.map TcpWriteReq.id) : ∃ req, callsOf id (reqs.map f) = [f req] := by
  induction reqs with
  | nil => simp at hid
  | cons req reqs ih =>
      rw [List.map_cons, List.nodup_cons] at hnodup
      by_cases heq : req.id = id
      · -- the others have another number
        have hrest : callsOf id (reqs.map f) = [] := by
          rw [callsOf, List.filter_eq_nil_iff]
          intro event hevent hcall
          obtain ⟨req', hreq', rfl⟩ := List.mem_map.mp hevent
          rw [hf, decide_eq_true_eq, Option.some.injEq] at hcall
          exact hnodup.1 (List.mem_map.mpr ⟨req', hreq', hcall.trans heq.symm⟩)
        refine ⟨req, ?_⟩
        rw [List.map_cons, callsOf, List.filter_cons_of_pos (by simp [hf, heq])]
        exact congrArg _ hrest
      · obtain ⟨req', hreq'⟩ := ih hnodup.2 (by simpa [Ne.symm heq] using hid)
        refine ⟨req', ?_⟩
        rw [List.map_cons, callsOf, List.filter_cons_of_neg (by simp [hf, heq])]
        exact hreq'

/-- The requests that are dropped all have their last callback, and leave in their order. -/
theorem LogInv.dropped (hinv : LogInv log self.ids next) (drop : ℕ → TcpCallback) :
    LogInv (log ++ (tcpClientDropWriteReqs drop self).2.2)
      (tcpClientDropWriteReqs drop self).1.ids next := by
  set calls : List TcpEvent := self.writeReqs.map fun req =>
    .onError req.id none (if req.onError then drop req.id else ⟨none, false⟩).err with hcalls
  have hevents : (tcpClientDropWriteReqs drop self).2.2 = calls ++ self.ids.map .removed := by
    simp [tcpClientDropWriteReqs, hcalls, TcpHandler.ids, Function.comp_def]
  have hnodup : self.ids.Nodup := by
    have hall : (removedIds log ++ self.ids).Nodup := by
      rw [hinv.fifo]
      exact List.nodup_range
    exact (List.nodup_append.mp hall).2.1
  have hids : (tcpClientDropWriteReqs drop self).1.ids = [] := rfl
  rw [hevents, hids]
  refine LogInv.turn self.ids (by rwa [List.append_nil]) ?_ ?_ ?_ ?_
  · intro event hevent
    obtain ⟨req, hreq, rfl⟩ := List.mem_map.mp hevent
    exact ⟨req.id, by simpa [TcpHandler.ids] using ⟨req, hreq, rfl⟩, rfl⟩
  · intro id hid
    obtain ⟨req, hreq⟩ := callsOf_map (fun req => .onError req.id none
      (if req.onError then drop req.id else ⟨none, false⟩).err) (fun _ => rfl) hnodup hid
    exact ⟨[], _, hreq, rfl, by simp⟩
  · intro id hid call hcall
    obtain ⟨hmem, hcallId⟩ := List.mem_filter.mp hcall
    obtain ⟨req, hreq, rfl⟩ := List.mem_map.mp hmem
    have heq : req.id = id := by simpa [TcpEvent.callId] using hcallId
    exact absurd (List.mem_map.mpr ⟨req, hreq, heq⟩) hid
  · exact followed_of_forall (by simp [hcalls])

theorem tcpHandleWriteOut_keeps (hinv : LogInv (log ++ events) self.ids next) :
    LogInv (log ++ (tcpHandleWriteOut drop self err events).2.2)
      (tcpHandleWriteOut drop self err events).1.ids next := by
  by_cases hshut : self.outputShut = true
  · have hdropped := hinv.dropped drop
    rw [List.append_assoc] at hdropped
    simpa [tcpHandleWriteOut, hshut] using hdropped
  · simpa [tcpHandleWriteOut, hshut] using hinv

theorem tcpClientHandleWrite_keeps (hinv : LogInv log self.ids next) (envs : List TcpEnv)
    (drop : ℕ → TcpCallback) :
    (tcpClientHandleWrite envs drop self).Keeps next log := by
  have hloop := tcpWriteLoop_keeps hinv envs none
  rw [tcpClientHandleWrite]
  cases hout : tcpWriteLoop envs self none with
  | aborted => trivial
  | running self' err' events =>
      rw [hout] at hloop
      exact hloop
  | returned self' err' events =>
      rw [hout] at hloop
      exact tcpHandleWriteOut_keeps hloop

theorem TcpOutcome.isRunning_after (events : List TcpEvent) (outcome : TcpOutcome) :
    (outcome.after events).isRunning = outcome.isRunning := by
  cases outcome <;> rfl

/-- Without an answer that has a request tried again, each turn but the last one removes a
request. -/
theorem tcpWriteLoop_isRunning (hlength : self.writeReqs.length < envs.length)
    (hresults : ∀ env ∈ envs, ∀ e, (env.onError e).err ≠ none) :
    (tcpWriteLoop envs self err).isRunning = false := by
  induction envs generalizing self err with
  | nil => simp at hlength
  | cons env envs ih =>
      rcases tcpWriteLoop_cases (env :: envs) self err with
        h | ⟨h, _⟩ | ⟨_, _, req, rest, henvs, hreqs, h | ⟨self₁, err₁, events₁, out, hturn, h⟩⟩
      · rw [h]
        rfl
      · simp at h
      · rw [h]
        rfl
      · obtain ⟨rfl, rfl⟩ := List.cons.inj henvs
        rw [h]
        cases out with
        | true => rfl
        | false =>
            have hlt : self₁.writeReqs.length < envs.length := by
              rcases (tcpWriteTurn_spec hturn).2 rfl with hrest | ⟨_, e, hagain⟩
              · rw [hreqs, List.length_cons, List.length_cons] at hlength
                omega
              · -- `on_error` has returned no error
                rw [TcpWriteReq.processOnError] at hagain
                split at hagain
                · exact absurd hagain (hresults env (by simp) e)
                · simp at hagain
            rw [if_neg (by simp), TcpOutcome.isRunning_after]
            exact ih hlt fun env henv => hresults env (by simp [henv])

theorem tcpWriteLoop_append (envs' : List TcpEnv)
    (h : tcpWriteLoop envs self err = .running self' err' events) :
    (tcpWriteLoop (envs ++ envs') self err).isRunning =
      (tcpWriteLoop envs' self' err').isRunning := by
  induction envs generalizing self err events with
  | nil =>
      rw [tcpWriteLoop] at h
      split at h
      · simp only [TcpOutcome.running.injEq] at h
        rw [List.nil_append, h.1, h.2.1]
      · simp at h
  | cons env envs ih =>
      rcases tcpWriteLoop_cases (env :: envs) self err with
        h' | ⟨h', _⟩ | ⟨_, _, req, rest, henvs, hreqs, h' | ⟨self₁, err₁, events₁, out, hturn, h'⟩⟩
      · simp [h'] at h
      · simp at h'
      · simp [h'] at h
      · obtain ⟨rfl, rfl⟩ := List.cons.inj henvs
        cases out with
        | true => simp [h'] at h
        | false =>
            have hshut : self.outputShut = false := by
              rw [← Bool.not_eq_true]
              intro hshut
              simp [tcpWriteLoop, hshut] at h
            have hcons : ∀ envs, tcpWriteLoop (env :: envs) self err =
                (tcpWriteLoop envs self₁ err₁).after events₁ := by
              intro envs
              simp [tcpWriteLoop, hshut, hreqs, hturn]
            rw [hcons] at h
            cases hrest : tcpWriteLoop envs self₁ err₁ with
            | returned | aborted => simp [hrest, TcpOutcome.after] at h
            | running self₂ err₂ events₂ =>
                simp only [hrest, TcpOutcome.after, TcpOutcome.running.injEq] at h
                rw [h.1, h.2.1] at hrest
                rw [List.cons_append, hcons, TcpOutcome.isRunning_after]
                exact ih hrest

theorem isRunning_tcpClientHandleWrite (envs : List TcpEnv) (drop : ℕ → TcpCallback)
    (self : TcpHandler) :
    (tcpClientHandleWrite envs drop self).isRunning =
      (tcpWriteLoop envs self none).isRunning := by
  rw [tcpClientHandleWrite]
  cases tcpWriteLoop envs self none <;> rfl

/-- A call that is given answers forever returns, or fails an assertion, unless `on_error`
keeps returning no error. -/
theorem exists_tcpClientHandleWrite (self : TcpHandler) (envs : ℕ → TcpEnv)
    (drop : ℕ → TcpCallback) {first : ℕ}
    (hresults : ∀ n, first ≤ n → ∀ e, ((envs n).onError e).err ≠ none) :
    ∃ n, (tcpClientHandleWrite ((List.range n).map envs) drop self).isRunning = false := by
  simp only [isRunning_tcpClientHandleWrite]
  cases hloop : tcpWriteLoop ((List.range first).map envs) self none with
  | returned self' err' events => exact ⟨first, by rw [hloop]; rfl⟩
  | aborted => exact ⟨first, by rw [hloop]; rfl⟩
  | running self' err' events =>
      refine ⟨first + (self'.writeReqs.length + 1), ?_⟩
      rw [List.range_add, List.map_append, tcpWriteLoop_append _ hloop]
      refine tcpWriteLoop_isRunning (by simp) fun env henv e => ?_
      simp only [List.map_map, List.mem_map, List.mem_range, Function.comp_apply] at henv
      obtain ⟨n, _, rfl⟩ := henv
      exact hresults _ (Nat.le_add_right first n) e

end Call

/-! ## Runs -/

def tcpShutdownOutput (self : TcpHandler) : TcpHandler := { self with outputShut := true }

structure TcpState where
  handler : TcpHandler
  next : ℕ
  log : List TcpEvent
  freed : Bool
  deriving DecidableEq

inductive TcpOp
  | write (slices : List Slice) (onWrite onError pushed : Bool)
  | shutdownOutput
  | handleWrite (envs : List TcpEnv) (drop : ℕ → TcpCallback)
  | free (drop : ℕ → TcpCallback)

/-- An operation that returns. There are none after `tcp_client_free`. -/
def TcpState.exec (s : TcpState) (op : TcpOp) : Option TcpState := do
  assertThat !s.freed
  match op with
  | .write slices onWrite onError pushed =>
      let (handler, err, events) ← tcpWrite s.next slices onWrite onError pushed s.handler
      return ⟨handler, if err.isNone then s.next + 1 else s.next, s.log ++ events, false⟩
  | .shutdownOutput => return { s with handler := tcpShutdownOutput s.handler }
  | .handleWrite envs drop =>
      match tcpClientHandleWrite envs drop s.handler with
      | .returned handler _ events => return { s with handler := handler, log := s.log ++ events }
      | _ => none
  | .free drop =>
      let (handler, events) ← tcpClientFree drop s.handler
      return ⟨handler, s.next, s.log ++ events, true⟩

/-- The handler has become established, and it may have been registered. -/
def TcpState.Init (s : TcpState) : Prop :=
  ∃ registered, s = ⟨⟨[], false, false, registered⟩, 0, [], false⟩

def TcpState.Step (s : TcpState) (op : TcpOp) (s' : TcpState) : Prop := s.exec op = some s'

/-- Requests leave in the order in which they were added. The last callback of a request is
the only final one, it has been called when the request leaves, and none is called later.
Before it there are only those of earlier turns, which had the request tried again, and an
`on_write` that fails is followed by `on_error`. A call in which `on_error` does not keep
returning no error comes to an end. -/
structure CallbacksSound (s : TcpState) : Prop where
  fifo : removedIds s.log ++ s.handler.ids = queuedIds s.log
  nodup : (queuedIds s.log).Nodup
  removed : ∀ before after id, s.log = before ++ .removed id :: after →
    Answered (callsOf id before) ∧ callsOf id after = []
  waiting : ∀ id ∉ removedIds s.log, ∀ call ∈ callsOf id s.log, call.isFinal = false
  followed : Followed s.log
  returns : ∀ (envs : ℕ → TcpEnv) (drop : ℕ → TcpCallback) (first : ℕ),
    (∀ n, first ≤ n → ∀ e, ((envs n).onError e).err ≠ none) →
      ∃ n, (tcpClientHandleWrite ((List.range n).map envs) drop s.handler).isRunning = false

/-- Exactly one callback is called for each request, and every call comes to an end. -/
structure OneCallback (s : TcpState) : Prop where
  fifo : removedIds s.log ++ s.handler.ids = queuedIds s.log
  removed : ∀ before after id, s.log = before ++ .removed id :: after →
    (callsOf id before).length = 1 ∧ callsOf id after = []
  returns : ∀ (envs : ℕ → TcpEnv) (drop : ℕ → TcpCallback),
    ∃ n, (tcpClientHandleWrite ((List.range n).map envs) drop s.handler).isRunning = false

theorem TcpState.exec_keeps {s s' : TcpState} {op : TcpOp} (h : s.exec op = some s')
    (hinv : LogInv s.log s.handler.ids s.next) : LogInv s'.log s'.handler.ids s'.next := by
  simp only [TcpState.exec, Option.bind_eq_bind, Option.bind_eq_some_iff] at h
  obtain ⟨_, _, h⟩ := h
  cases op with
  | write slices onWrite onError pushed =>
      simp only [tcpWrite, Option.bind_eq_bind, Option.bind_eq_some_iff, Option.pure_def] at h
      obtain ⟨result, ⟨_, _, hresult⟩, h⟩ := h
      split at hresult
      · simp only [Option.some.injEq] at hresult h
        rw [← h, ← hresult]
        simpa [errorWrap, okIf] using hinv
      · split at hresult
        · simp only [Option.some.injEq] at hresult h
          rw [← h, ← hresult]
          simpa [TcpHandler.ids] using hinv.queue
        · simp only [Option.some.injEq] at hresult h
          rw [← h, ← hresult]
          simpa using hinv
  | shutdownOutput =>
      simp only [Option.pure_def, Option.some.injEq] at h
      rw [← h]
      exact hinv
  | handleWrite envs drop =>
      have hcall := tcpClientHandleWrite_keeps hinv envs drop
      cases hout : tcpClientHandleWrite envs drop s.handler with
      | returned handler err events =>
          rw [hout] at hcall
          simp only [hout, Option.pure_def, Option.some.injEq] at h
          rw [← h]
          exact hcall
      | aborted | running => simp [hout] at h
  | free drop =>
      simp only [tcpClientFree, Option.bind_eq_bind, Option.bind_eq_some_iff, Option.pure_def,
        Option.some.injEq] at h
      obtain ⟨result, ⟨_, _, hresult⟩, h⟩ := h
      rw [← h, ← hresult]
      exact hinv.dropped drop

/-- In every run the callbacks of the requests are called as they should be. -/
theorem callbacksSound_of_run {hist : List TcpOp} {s : TcpState}
    (hrun : Lts.Run TcpState.Init TcpState.Step hist s) : CallbacksSound s := by
  have hinv : LogInv s.log s.handler.ids s.next := by
    refine hrun.invariant ?_ fun _ s op s' hs hstep => TcpState.exec_keeps hstep hs
    rintro s ⟨registered, rfl⟩
    exact ⟨rfl, rfl, by simp, by simp [callsOf], followed_of_forall (by simp)⟩
  refine ⟨hinv.fifo.trans hinv.queued.symm, ?_, hinv.removed, hinv.waiting, hinv.followed, ?_⟩
  · rw [hinv.queued]
    exact List.nodup_range
  · intro envs drop first hresults
    exact exists_tcpClientHandleWrite s.handler envs drop hresults

theorem TcpState.run_execAll (registered : Bool) (ops : List TcpOp) {s : TcpState}
    (h : Lts.execAll TcpState.exec ⟨⟨[], false, false, registered⟩, 0, [], false⟩ ops = some s) :
    Lts.Run TcpState.Init TcpState.Step ops s :=
  Lts.Run.execAll (.start ⟨registered, rfl⟩) h

/-- Answers to one turn with callbacks that leave the output open. -/
def TcpEnv.answering (writev : Option ℕ) (onWrite : Option Error) (onError : Error → Option Error) :
    TcpEnv :=
  ⟨1024, true, writev, ⟨onWrite, false⟩, fun err => ⟨onError err, false⟩⟩

/-- The first request is written, and the two others are dropped when writing the second one
fails after the output has been shut down. -/
theorem callbacksSound_three_requests : ∃ s,
    Lts.Run TcpState.Init TcpState.Step [
      .write [[97]] true true true, .write [[98]] true true true, .write [[99]] true true true,
      .handleWrite [.answering (some 1) none some] fun _ => ⟨none, false⟩,
      .handleWrite [⟨1024, true, none, ⟨none, false⟩, fun err => ⟨some err, true⟩⟩]
        fun _ => ⟨none, false⟩] s ∧
    removedIds s.log = [0, 1, 2] ∧ CallbacksSound s := by
  refine ⟨⟨⟨[], true, false, true⟩, 3, [.queued 0, .queued 1, .queued 2, .onWrite 0 none,
    .removed 0, .onError 1 (some (.fromPosix "writev(2) failed"))
      (some (.fromPosix "writev(2) failed")), .removed 1, .onError 2 none none, .removed 2],
    false⟩, ?_⟩
  have hrun := TcpState.run_execAll true [
      .write [[97]] true true true, .write [[98]] true true true, .write [[99]] true true true,
      .handleWrite [.answering (some 1) none some] fun _ => ⟨none, false⟩,
      .handleWrite [⟨1024, true, none, ⟨none, false⟩, fun err => ⟨some err, true⟩⟩]
        fun _ => ⟨none, false⟩] rfl
  exact ⟨hrun, by decide, callbacksSound_of_run hrun⟩

/-- The request is told that writing it has failed, and is written after that. Writing that
goes on failing is tried again without end. -/
theorem not_oneCallback_again :
    (∃ s, Lts.Run TcpState.Init TcpState.Step [.write [[97]] true true true,
        .handleWrite [.answering none none fun _ => none, .answering (some 1) none fun _ => none]
          fun _ => ⟨none, false⟩] s ∧
      callsOf 0 s.log = [.onError 0 (some (.fromPosix "writev(2) failed")) none, .onWrite 0 none] ∧
      removedIds s.log = [0] ∧ ¬OneCallback s) ∧
    ∃ s, Lts.Run TcpState.Init TcpState.Step [.write [[97]] true true true] s ∧
      (∀ n, (tcpClientHandleWrite (List.replicate n (.answering none none fun _ => none))
        (fun _ => ⟨none, false⟩) s.handler).isRunning = true) ∧ ¬OneCallback s := by
  constructor
  · refine ⟨_, TcpState.run_execAll true _ rfl, by decide, by decide, fun h => ?_⟩
    have hlength := (h.removed [.queued 0, .onError 0 (some (.fromPosix "writev(2) failed")) none,
      .onWrite 0 none] [] 0 rfl).1
    simp [callsOf, TcpEvent.callId] at hlength
  · have hrunning : ∀ n, (tcpClientHandleWrite
        (List.replicate n (.answering none none fun _ => none)) (fun _ => ⟨none, false⟩)
          ⟨[⟨0, ⟨[[97]], 0⟩, true, true⟩], false, true, true⟩).isRunning = true := by
      intro n
      rw [isRunning_tcpClientHandleWrite]
      induction n with
      | zero => rfl
      | succ n ih =>
          rw [List.replicate_succ]
          exact (TcpOutcome.isRunning_after [.onError 0 (some (.fromPosix "writev(2) failed")) none]
            _).trans ih
    refine ⟨_, TcpState.run_execAll true _ rfl, hrunning, fun h => ?_⟩
    obtain ⟨n, hn⟩ := h.returns (fun _ => .answering none none fun _ => none) fun _ => ⟨none, false⟩
    rw [List.map_const', List.length_range] at hn
    exact absurd ((hrunning n).symm.trans hn) (by simp)

end PosixThreads
