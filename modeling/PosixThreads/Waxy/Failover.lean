import PosixThreads.Waxy.Relay.Chunks

/-!
# The addresses of an upstream

`upstream_init` connects to the first of the addresses that a host has been resolved to. When a
connection fails, `upstream_reconnect` gives the context to a new handler for the next address, and
the old handler is unregistered with no context. The handler that still has it when it is freed
frees the write handle as well.

`tcp_connect` sets its variable `state` if `connect` answers at once, but it does not store it in
the handler. Such a handler stays in `TCP_HANDLER_CONNECTING`, without `LOOP_WRITE` in its mask.
-/

namespace PosixThreads

inductive AddressFamily
  | inet
  | inet6
  | other
  deriving DecidableEq, Repr

structure AddrInfo (A : Type) where
  family : AddressFamily
  addr : A
  deriving DecidableEq, Repr

inductive TcpHandlerState
  | connecting
  | connected
  | fail
  | established
  deriving DecidableEq, Repr

/-- The answers of `connect`: it succeeds, it sets `EINPROGRESS`, or it fails otherwise. -/
inductive ConnectStatus
  | ok
  | inProgress
  | failed
  deriving DecidableEq, Repr

inductive ConnectOutcome
  | pending
  | connected
  | failed
  deriving DecidableEq, Repr

/-- The flags with which a handler is called, and the answers to its two calls of
`get_socket_error`: `none` if `getsockopt` fails. -/
structure ConnectEvents where
  loopErr : Bool
  loopHup : Bool
  loopWrite : Bool
  first : Option ℕ
  second : Option ℕ
  deriving DecidableEq, Repr

/-- `error_from_errno`. The number stands for its text. -/
def errorFromErrno (code : ℕ) : Option Error :=
  if code = 0 then none else some (.fromCstr (toString code))

def getSocketError : Option ℕ → Option Error
  | none => some (.fromPosix "getsockopt(2) failed")
  | some code => errorWrap "A socket has signalled an error" (errorFromErrno code)

/-- The error of the socket is asked for if `LOOP_ERR` is set. -/
def ConnectEvents.error (events : ConnectEvents) (answer : Option ℕ) : Option Error :=
  if events.loopErr then getSocketError answer else none

/-- What the events say of a connection that is in progress. -/
def ConnectEvents.outcome (events : ConnectEvents) : ConnectOutcome :=
  if (events.error events.first).isSome then .failed
  else if events.loopWrite then
    if (events.error events.second).isSome then .failed else .connected
  else .pending

/-- The handler of an upstream until it is connected. `customData` is set if it has the context, and
`loop` if it has been registered. Its history is the answer of `connect` and what has been polled of
the socket. -/
structure UpstreamHandler (A : Type) where
  addr : AddrInfo A
  state : TcpHandlerState
  pendingError : Option Error
  loopWrite : Bool
  forced : Bool
  customData : Bool
  loop : Bool
  unregistered : Bool
  freed : Bool
  status : ConnectStatus
  polled : ConnectOutcome
  deriving DecidableEq, Repr

/-- `upstream_ctx_t`, as far as connecting uses it. -/
structure FailoverCtx (A : Type) where
  addrHead : Bool
  addrNext : List (AddrInfo A)
  wr : ℕ
  deriving DecidableEq, Repr

/-- What a callback has returned and done: the error, the handler and the context after it, and the
handler that has been registered by it. -/
structure ConnectCall (A : Type) where
  err : Option Error
  handler : UpstreamHandler A
  ctx : FailoverCtx A
  next : Option (UpstreamHandler A)

section Code

variable {A : Type}

/-- `tcp_connect`, if the handler and its socket can be created. -/
def tcpConnect (addr : AddrInfo A) (status : ConnectStatus) : Option (UpstreamHandler A) := do
  assertThat (addr.family = .inet || addr.family = .inet6)
  let (state, pendingError) : TcpHandlerState × Option Error :=
    match status with
    | .inProgress => (.connecting, none)
    | .failed => (.fail, some (.fromPosix "connect(2) failed"))
    | .ok => (.connected, none)
  return {
    addr := addr
    -- as `client_init` has left it
    state := .connecting
    pendingError := pendingError
    loopWrite := state = .connecting
    forced := state ≠ .connecting
    customData := false
    loop := false
    unregistered := false
    freed := false
    status := status
    polled := .pending }

def upstreamNewHandler (status : ConnectStatus) (ctx : FailoverCtx A) :
    Option (Except Error (UpstreamHandler A) × FailoverCtx A) :=
  match ctx.addrNext with
  | [] => some (.error (.wrap "Could not connect to the upstream server"
      (.okIf "ctx->addr_next != NULL")), ctx)
  | addr :: addrNext => do
      let tcp ← tcpConnect addr status
      return (.ok { tcp with customData := true }, { ctx with addrNext := addrNext })

/-- `loop_register`, if there is memory. -/
def UpstreamHandler.register (tcp : UpstreamHandler A) : UpstreamHandler A :=
  { tcp with loop := true }

/-- `upstream_reconnect`. The error that it gets is logged if there is another address. -/
def upstreamReconnect (status : ConnectStatus) (ctx : FailoverCtx A) (handler : UpstreamHandler A)
    (err : Option Error) : Option (ConnectCall A) := do
  assertThat handler.customData
  match ← upstreamNewHandler status ctx with
  | (.error reconnectErr, ctx) =>
      return ⟨errorCombine (some reconnectErr) err, handler, ctx, none⟩
  | (.ok tcp, ctx) =>
      let handler := { handler with
        customData := false
        unregistered := true }
      return ⟨none, handler, ctx, some tcp.register⟩

/-- `upstream_on_connect`, as far as the addresses are concerned. -/
def upstreamOnConnect (ctx : FailoverCtx A) (handler : UpstreamHandler A) :
    Option (ConnectCall A) := do
  assertThat handler.customData
  return ⟨none, handler, { ctx with addrHead := false, addrNext := [] }, none⟩

def tcpClientHandleConnectFail (status : ConnectStatus) (ctx : FailoverCtx A)
    (handler : UpstreamHandler A) (err : Option Error) : Option (ConnectCall A) := do
  assertThat (handler.state = .fail)
  upstreamReconnect status ctx { handler with loopWrite := false } err

def tcpClientHandleConnected (events : ConnectEvents) (status : ConnectStatus)
    (ctx : FailoverCtx A) (handler : UpstreamHandler A) : Option (ConnectCall A) := do
  assertThat (handler.state = .connected)
  let handler := { handler with loopWrite := false }
  match events.error events.second with
  | some err => tcpClientHandleConnectFail status ctx { handler with state := .fail } (some err)
  | none => upstreamOnConnect ctx { handler with state := .established }

def tcpClientHandleConnecting (events : ConnectEvents) (status : ConnectStatus)
    (ctx : FailoverCtx A) (handler : UpstreamHandler A) : Option (ConnectCall A) := do
  assertThat (handler.state = .connecting)
  match events.error events.first with
  | some err => tcpClientHandleConnectFail status ctx { handler with state := .fail } (some err)
  | none =>
      if events.loopWrite then
        tcpClientHandleConnected events status ctx { handler with state := .connected }
      else return ⟨none, handler, ctx, none⟩

/-- `tcp_client_process`, for a handler that is not in `TCP_HANDLER_ESTABLISHED`. -/
def tcpClientProcess (events : ConnectEvents) (status : ConnectStatus) (ctx : FailoverCtx A)
    (handler : UpstreamHandler A) : Option (ConnectCall A) :=
  match handler.state with
  | .connecting => tcpClientHandleConnecting events status ctx handler
  | .connected => tcpClientHandleConnected events status ctx handler
  | .fail =>
      tcpClientHandleConnectFail status ctx { handler with pendingError := none }
        handler.pendingError
  | .established => none

def upstreamOnError (handler : UpstreamHandler A) : UpstreamHandler A :=
  { handler with unregistered := true }

/-- An error is passed to `upstream_on_error`. -/
def ConnectCall.handled (call : ConnectCall A) : ConnectCall A :=
  if call.err.isSome then { call with handler := upstreamOnError call.handler } else call

/-- `loop_handler_task_cb`. The flag `force` has been taken before. -/
def loopHandlerTask (events : ConnectEvents) (status : ConnectStatus) (ctx : FailoverCtx A)
    (handler : UpstreamHandler A) : Option (ConnectCall A) := do
  let call ← tcpClientProcess events status ctx { handler with forced := false }
  return call.handled

end Code

/-- The answer of `connect` counts, and what has been polled if there was none yet. -/
def UpstreamHandler.outcome {A : Type} (handler : UpstreamHandler A) : ConnectOutcome :=
  match handler.status with
  | .ok => .connected
  | .failed => .failed
  | .inProgress => handler.polled

/-- The loop calls the handler with these events. It polls for `POLLOUT` only if the mask has it. -/
def UpstreamHandler.due {A : Type} (handler : UpstreamHandler A) (events : ConnectEvents) : Bool :=
  !handler.freed && !handler.unregistered && handler.state ≠ .established &&
    (handler.forced || events.loopErr || events.loopHup || events.loopWrite) &&
    (!events.loopWrite || handler.loopWrite)

/-- The upstream of a cache entry: its handlers in the order in which they have been created, with
those that have been freed, the context and whether it is alive, how often the write handle has been
freed, and the cache that it shares with others. -/
structure Failover (A : Type) where
  handlers : List (UpstreamHandler A)
  ctx : FailoverCtx A
  live : Bool
  wrFrees : ℕ
  world : World

/-- The loop calls a handler, with the answer of `connect` for the next address. A connected handler
is unregistered in the end, and one that is unregistered is freed. Others use the cache, and a
connected handler does. -/
inductive FailoverAct
  | process (i : ℕ) (events : ConnectEvents) (status : ConnectStatus)
  | close (i : ℕ)
  | free (i : ℕ)
  | cache (op : CacheOp)
  deriving DecidableEq, Repr

/-- `upstream_init`, after `getaddrinfo`. -/
def upstreamInit {A : Type} (world : World) (wr : ℕ) (addrs : List (AddrInfo A))
    (status : ConnectStatus) : Option (Failover A) := do
  match ← upstreamNewHandler status ⟨!addrs.isEmpty, addrs, wr⟩ with
  | (.ok tcp, ctx) => return ⟨[tcp.register], ctx, true, 0, world⟩
  | (.error _, ctx) =>
      let world ← world.cacheWrFree wr
      return ⟨[], { ctx with addrHead := false }, false, 1, world⟩

namespace Failover

variable {A : Type}

def tried (s : Failover A) : List (AddrInfo A) := s.handlers.map fun handler => handler.addr

def connected (s : Failover A) : Bool :=
  s.handlers.any fun handler => handler.state = .established

def owners (s : Failover A) : List (UpstreamHandler A) :=
  s.handlers.filter fun handler => handler.customData && !handler.freed

def process (s : Failover A) (i : ℕ) (handler : UpstreamHandler A) (events : ConnectEvents)
    (status : ConnectStatus) : Option (Failover A) := do
  let call ← loopHandlerTask events status s.ctx handler
  let handler := { call.handler with
    polled := if handler.polled = .pending then events.outcome else handler.polled }
  return { s with
    handlers := s.handlers.set i handler ++ call.next.toList
    ctx := call.ctx }

/-- `handler_free`: `upstream_ctx_free` and `tcp_client_free`. -/
def handlerFree (s : Failover A) (i : ℕ) (handler : UpstreamHandler A) : Option (Failover A) := do
  assertThat handler.loop
  let s := { s with handlers := s.handlers.set i { handler with freed := true } }
  if handler.customData then
    let world ← s.world.cacheWrFree s.ctx.wr
    return { s with
      live := false
      wrFrees := s.wrFrees + 1
      world := world }
  else return s

def exec (alloc : Alloc) (s : Failover A) : FailoverAct → Option (Failover A)
  | .process i events status => do
      let handler ← s.handlers[i]?
      if handler.due events then s.process i handler events status else none
  | .close i => do
      let handler ← s.handlers[i]?
      if handler.state = .established && !handler.unregistered then
        return { s with handlers := s.handlers.set i { handler with unregistered := true } }
      else none
  | .free i => do
      let handler ← s.handlers[i]?
      if handler.unregistered && !handler.freed then s.handlerFree i handler else none
  | .cache op =>
      if op.wrHandle = some s.ctx.wr ∧ (s.connected = false ∨ op = .wrFree s.ctx.wr) then none
      else do
        let (_, world) ← s.world.exec alloc op
        return { s with world := world }

/-- `upstream_init` has been called with the write handle of an entry with nothing in it. -/
def Init (alloc : Alloc) (addrs : List (AddrInfo A)) (arc : ℕ) (s : Failover A) : Prop :=
  (∀ addr ∈ addrs, addr.family = .inet ∨ addr.family = .inet6) ∧
    ∃ chist world wr status, Run alloc chist world ∧ world.emptyEntry wr arc = true ∧
      upstreamInit world wr addrs status = some s

def Step (alloc : Alloc) (s : Failover A) (act : FailoverAct) (s' : Failover A) : Prop :=
  s.exec alloc act = some s'

end Failover

/-- All addresses have been tried, as far as is known, and no connection has been made. A handler
that is forced has still to be called. -/
def Failover.Failed {A : Type} (s : Failover A) : Prop :=
  ∀ handler ∈ s.handlers, handler.outcome = .failed ∧ handler.forced = false

/-- The addresses are tried in their order until one connects, always one handler has the context,
and if none connects, the write handle is freed once and the entry is invalid. -/
structure FailoverSound {A : Type} (alloc : Alloc) (addrs : List (AddrInfo A)) (arc : ℕ)
    (s : Failover A) : Prop where
  order : s.tried <+: addrs
  next : ∀ i handler, s.handlers[i]? = some handler → i + 1 < s.handlers.length →
    handler.outcome = .failed
  settled : ∀ handler ∈ s.handlers, handler.forced = false →
    (handler.outcome = .connected → handler.state = .established) ∧
    (handler.outcome = .failed → handler.unregistered = true)
  exhausted : s.Failed → s.tried = addrs
  returns : ∀ i handler events status, s.handlers[i]? = some handler →
    handler.due events = true → (s.exec alloc (.process i events status)).isSome = true
  owner : s.owners.length = if s.live then 1 else 0
  wrFrees : s.wrFrees = if s.live then 0 else 1
  ended : s.live = false → s.Failed ∨ ∃ handler ∈ s.handlers, handler.outcome = .connected
  freed : s.Failed → s.live = true → ∃ i s', s.Step alloc (.free i) s' ∧ s'.live = false
  invalid : s.Failed → s.live = false → ∀ e, s.world.entry arc = some e → e.state = .entryInvalid

/-! ## What a call does -/

section Calls

variable {A : Type} {events : ConnectEvents} {status : ConnectStatus} {ctx : FailoverCtx A}
  {handler : UpstreamHandler A}

def UpstreamHandler.failed (handler : UpstreamHandler A) (customData : Bool) : UpstreamHandler A :=
  { handler with
    state := .fail
    loopWrite := false
    forced := false
    customData := customData
    unregistered := true }

inductive ConnectEffect (events : ConnectEvents) (status : ConnectStatus) (ctx : FailoverCtx A)
    (handler : UpstreamHandler A) :
    UpstreamHandler A → FailoverCtx A → Option (UpstreamHandler A) → Prop
  | waiting (hout : events.outcome = .pending) :
      ConnectEffect events status ctx handler { handler with forced := false } ctx none
  | connected (hout : events.outcome = .connected) :
      ConnectEffect events status ctx handler
        { handler with state := .established, loopWrite := false, forced := false }
        { ctx with addrHead := false, addrNext := [] } none
  | exhausted (hout : events.outcome = .failed) (hnil : ctx.addrNext = []) :
      ConnectEffect events status ctx handler (handler.failed true) ctx none
  | moved {addr : AddrInfo A} {addrNext : List (AddrInfo A)} (tcp : UpstreamHandler A)
      (hout : events.outcome = .failed) (hnext : ctx.addrNext = addr :: addrNext)
      (htcp : tcpConnect addr status = some tcp) :
      ConnectEffect events status ctx handler (handler.failed false)
        { ctx with addrNext := addrNext } (some { tcp with customData := true, loop := true })

theorem tcpConnect_isSome {addr : AddrInfo A} (hfamily : addr.family = .inet ∨ addr.family = .inet6)
    (status : ConnectStatus) : (tcpConnect addr status).isSome = true := by
  rcases hfamily with hfamily | hfamily <;> simp [tcpConnect, hfamily]

/-- A connection that fails is followed by a connection to the next address. -/
theorem connectFail_effect (status : ConnectStatus) (howns : handler.customData = true)
    (hfamily : ∀ addr ∈ ctx.addrNext, addr.family = .inet ∨ addr.family = .inet6)
    (hout : events.outcome = .failed) (loopWrite : Bool) (err : Error) :
    ∃ call, tcpClientHandleConnectFail status ctx
        { handler with state := .fail, loopWrite := loopWrite, forced := false } (some err) =
          some call ∧
      ConnectEffect events status ctx handler call.handled.handler call.handled.ctx
        call.handled.next := by
  obtain ⟨_, _, _, _, _, customData, _, _, _, _, _⟩ := handler
  simp only at howns
  subst howns
  cases hnext : ctx.addrNext with
  | nil =>
      simp only [tcpClientHandleConnectFail, upstreamReconnect, upstreamNewHandler, hnext,
        decide_true, assertThat_true, Option.bind_eq_bind, Option.bind_some, Option.pure_def]
      exact ⟨_, rfl, .exhausted hout hnext⟩
  | cons addr addrNext =>
      obtain ⟨tcp, htcp⟩ := Option.isSome_iff_exists.mp
        (tcpConnect_isSome (hfamily addr (by simp [hnext])) status)
      simp only [tcpClientHandleConnectFail, upstreamReconnect, upstreamNewHandler, hnext, htcp,
        decide_true, assertThat_true, Option.bind_eq_bind, Option.bind_some, Option.pure_def]
      exact ⟨_, rfl, .moved tcp hout hnext htcp⟩

theorem loopHandlerTask_effect (events : ConnectEvents) (status : ConnectStatus)
    (howns : handler.customData = true)
    (hstate : handler.state = .connecting)
    (hfamily : ∀ addr ∈ ctx.addrNext, addr.family = .inet ∨ addr.family = .inet6) :
    ∃ call, loopHandlerTask events status ctx handler = some call ∧
      ConnectEffect events status ctx handler call.handler call.ctx call.next := by
  suffices hcall : ∃ call, tcpClientProcess events status ctx { handler with forced := false } =
      some call ∧ ConnectEffect events status ctx handler call.handled.handler call.handled.ctx
        call.handled.next by
    obtain ⟨call, hprocess, heffect⟩ := hcall
    exact ⟨call.handled, by rw [loopHandlerTask, hprocess]; rfl, heffect⟩
  have hfail := fun hout : events.outcome = .failed =>
    connectFail_effect status howns hfamily hout
  obtain ⟨_, state, _, loopWrite, _, customData, _, _, _, _, _⟩ := handler
  simp only at howns hstate
  subst howns hstate
  simp only [tcpClientProcess, tcpClientHandleConnecting, decide_true, assertThat_true,
    Option.bind_eq_bind, Option.bind_some]
  cases hfirst : events.error events.first with
  | some err =>
      exact hfail (by simp [ConnectEvents.outcome, hfirst]) loopWrite err
  | none =>
      cases hwrite : events.loopWrite with
      | false =>
          have hout : events.outcome = .pending := by simp [ConnectEvents.outcome, hfirst, hwrite]
          exact ⟨_, rfl, .waiting hout⟩
      | true =>
          simp only [if_true, tcpClientHandleConnected, decide_true, assertThat_true,
            Option.bind_eq_bind, Option.bind_some]
          cases hsecond : events.error events.second with
          | some err =>
              exact hfail (by simp [ConnectEvents.outcome, hfirst, hwrite, hsecond]) false err
          | none =>
              have hout : events.outcome = .connected := by
                simp [ConnectEvents.outcome, hfirst, hwrite, hsecond]
              simp only [upstreamOnConnect, assertThat_true, Option.bind_eq_bind,
                Option.bind_some]
              exact ⟨_, rfl, .connected hout⟩

end Calls

/-! ## The handlers of a run -/

structure UpstreamHandler.Ok {A : Type} (handler : UpstreamHandler A) : Prop where
  loop : handler.loop = true
  polled : handler.state = .connecting ∧ handler.polled = .pending ∨
    handler.state = .established ∧ handler.polled = .connected ∨
    handler.state = .fail ∧ handler.polled = .failed
  forced : handler.state ≠ .connecting ∨ handler.status = .inProgress → handler.forced = false
  unregistered : handler.state ≠ .established →
    (handler.unregistered = true ↔ handler.state = .fail)
  immediate : handler.status ≠ .inProgress →
    handler.loopWrite = false ∧ handler.state ≠ .established
  freed : handler.freed = true → handler.unregistered = true

/-- All handlers before the last one have failed and given the context away. -/
structure Chain {A : Type} (addrs : List (AddrInfo A)) (olds : List (UpstreamHandler A))
    (last : UpstreamHandler A) (ctx : FailoverCtx A) (live : Bool) : Prop where
  passed : ∀ handler ∈ olds, handler.state = .fail ∧ handler.customData = false
  owns : last.customData = true
  freed : last.freed = !live
  order : (olds ++ [last]).map (fun handler => handler.addr) <+: addrs
  rest : last.state ≠ .established →
    (olds ++ [last]).map (fun handler => handler.addr) ++ ctx.addrNext = addrs
  drained : last.state = .fail → ctx.addrNext = []

structure ChainInv {A : Type} (addrs : List (AddrInfo A)) (s : Failover A) : Prop where
  family : ∀ addr ∈ addrs, addr.family = .inet ∨ addr.family = .inet6
  ok : ∀ handler ∈ s.handlers, handler.Ok
  wrFrees : s.wrFrees = if s.live then 0 else 1
  chain : s.handlers = [] ∧ addrs = [] ∧ s.live = false ∨
    ∃ olds last, s.handlers = olds ++ [last] ∧ Chain addrs olds last s.ctx s.live

section Chain

variable {A : Type} {alloc : Alloc} {addrs : List (AddrInfo A)} {events : ConnectEvents}
  {status : ConnectStatus} {ctx ctx' : FailoverCtx A} {s s' : Failover A} {i : ℕ}
  {olds : List (UpstreamHandler A)} {handler handler' last : UpstreamHandler A}
  {next : Option (UpstreamHandler A)} {live : Bool}

theorem getElem?_concat {α : Type} {xs : List α} {x y : α}
    (hget : (xs ++ [x])[i]? = some y) : xs[i]? = some y ∨ i = xs.length ∧ y = x := by
  rw [List.getElem?_append] at hget
  split at hget
  · exact Or.inl hget
  · rename_i hle
    rw [List.getElem?_singleton] at hget
    split at hget
    · exact Or.inr ⟨by omega, (Option.some.inj hget).symm⟩
    · simp at hget

theorem tcpConnect_ok {addr : AddrInfo A} {tcp : UpstreamHandler A}
    (htcp : tcpConnect addr status = some tcp) :
    ({ tcp with customData := true, loop := true } : UpstreamHandler A).Ok ∧ tcp.addr = addr ∧
      tcp.state = .connecting ∧ tcp.freed = false := by
  simp only [tcpConnect, Option.bind_eq_bind, Option.bind_eq_some_iff, Option.pure_def] at htcp
  obtain ⟨_, _, htcp⟩ := htcp
  cases status with
  | ok | inProgress | failed =>
      rw [← Option.some.inj htcp]
      refine ⟨⟨rfl, Or.inl ⟨rfl, rfl⟩, ?_, ?_, ?_, ?_⟩, rfl, rfl, rfl⟩ <;> simp

theorem ConnectEvents.outcome_ne_connected (hwrite : events.loopWrite = false) :
    events.outcome ≠ .connected := by
  simp only [ConnectEvents.outcome, hwrite]
  split <;> simp

theorem UpstreamHandler.Ok.effect (h : handler.Ok) (hstate : handler.state = .connecting)
    (hdue : handler.due events = true)
    (heffect : ConnectEffect events status ctx handler handler' ctx' next) :
    ({ handler' with polled := events.outcome } : UpstreamHandler A).Ok := by
  simp only [UpstreamHandler.due, Bool.and_eq_true, Bool.not_eq_true', Bool.or_eq_true] at hdue
  obtain ⟨⟨⟨⟨hfreed, hunregistered⟩, _⟩, _⟩, hwrite⟩ := hdue
  have himmediate : handler.status ≠ .inProgress → events.outcome ≠ .connected := by
    intro hstatus
    refine ConnectEvents.outcome_ne_connected ?_
    simpa [(h.immediate hstatus).1] using hwrite
  cases heffect with
  | waiting hout =>
      exact ⟨h.loop, Or.inl ⟨hstate, hout⟩, fun _ => rfl, h.unregistered,
        h.immediate, h.freed⟩
  | connected hout =>
      refine ⟨h.loop, Or.inr (Or.inl ⟨rfl, hout⟩), fun _ => rfl, by simp, ?_, h.freed⟩
      exact fun hstatus => absurd hout (himmediate hstatus)
  | exhausted hout hnil =>
      exact ⟨h.loop, Or.inr (Or.inr ⟨rfl, hout⟩), fun _ => rfl, by simp [UpstreamHandler.failed],
        by simp [UpstreamHandler.failed], fun _ => rfl⟩
  | moved tcp hout hnext htcp =>
      exact ⟨h.loop, Or.inr (Or.inr ⟨rfl, hout⟩), fun _ => rfl, by simp [UpstreamHandler.failed],
        by simp [UpstreamHandler.failed], fun _ => rfl⟩

/-- The only handler that the loop calls before a connection is made is the last one. -/
theorem ChainInv.due (h : ChainInv addrs s) (hget : s.handlers[i]? = some handler)
    (hdue : handler.due events = true) :
    handler.state = .connecting ∧ handler.polled = .pending ∧
      ∃ olds, s.handlers = olds ++ [handler] ∧ i = olds.length ∧
        Chain addrs olds handler s.ctx s.live := by
  have hok := h.ok handler (List.mem_of_getElem? hget)
  simp only [UpstreamHandler.due, Bool.and_eq_true, Bool.not_eq_true', decide_eq_true_eq] at hdue
  obtain ⟨⟨⟨⟨_, hunregistered⟩, hestablished⟩, _⟩, _⟩ := hdue
  have hfail : handler.state ≠ .fail := by
    rw [Ne, ← hok.unregistered hestablished, hunregistered]
    simp
  have hconnecting := hok.polled.resolve_right (by simp [hestablished, hfail])
  refine ⟨hconnecting.1, hconnecting.2, ?_⟩
  rcases h.chain with ⟨hnil, _⟩ | ⟨olds, last, hhandlers, hchain⟩
  · simp [hnil] at hget
  · rw [hhandlers] at hget
    rcases getElem?_concat hget with hold | ⟨hi, rfl⟩
    · exact absurd (hchain.passed handler (List.mem_of_getElem? hold)).1 hfail
    · exact ⟨olds, hhandlers, hi, hchain⟩

/-- The context goes to the next handler, or it stays with the last one. -/
theorem Chain.effect (h : Chain addrs olds handler ctx live)
    (hstate : handler.state = .connecting) (hfreed : handler.freed = false)
    (heffect : ConnectEffect events status ctx handler handler' ctx' next) :
    ∃ olds' last, (olds ++ [{ handler' with polled := events.outcome }]) ++ next.toList =
      olds' ++ [last] ∧ Chain addrs olds' last ctx' live := by
  have horder := h.order
  have hrest := h.rest (by simp [hstate])
  simp only [List.map_append, List.map_cons, List.map_nil] at horder hrest
  cases heffect with
  | waiting hout =>
      refine ⟨olds, _, List.append_nil _, h.passed, h.owns, h.freed, ?_, ?_, h.drained⟩
      · simpa using horder
      · simpa using fun _ => hrest
  | connected hout =>
      refine ⟨olds, _, List.append_nil _, h.passed, h.owns, h.freed, ?_, ?_, ?_⟩
      · simpa using horder
      · simp
      · simp
  | exhausted hout hnil =>
      refine ⟨olds, _, List.append_nil _, h.passed, rfl, h.freed, ?_, ?_, fun _ => hnil⟩
      · simpa [UpstreamHandler.failed] using horder
      · simpa [UpstreamHandler.failed] using hrest
  | @moved addr addrNext tcp hout hnext htcp =>
      obtain ⟨_, haddr, hconnecting, hfresh⟩ := tcpConnect_ok htcp
      have hlive : live = true := by simpa [hfreed] using h.freed
      rw [hnext] at hrest
      refine ⟨olds ++ [_], _, rfl, ?_, rfl, ?_, ?_, ?_, ?_⟩
      · intro old hold
        rcases List.mem_append.mp hold with hold | hold
        · exact h.passed old hold
        · rw [List.mem_singleton] at hold
          rw [hold]
          exact ⟨rfl, rfl⟩
      · simp [hfresh, hlive]
      · refine ⟨addrNext, ?_⟩
        simpa [haddr, UpstreamHandler.failed] using hrest
      · intro _
        simpa [haddr, UpstreamHandler.failed] using hrest
      · simp [hconnecting]

theorem ConnectEffect.wr_eq (heffect : ConnectEffect events status ctx handler handler' ctx' next) :
    ctx'.wr = ctx.wr := by
  cases heffect with
  | waiting | connected | exhausted | moved => rfl

theorem ConnectEffect.next_ok {tcp : UpstreamHandler A}
    (heffect : ConnectEffect events status ctx handler handler' ctx' next) (htcp : tcp ∈ next) :
    tcp.Ok := by
  cases heffect with
  | waiting | connected | exhausted => simp at htcp
  | moved tcp' _ _ hconnect =>
      rw [← Option.some.inj htcp]
      exact (tcpConnect_ok hconnect).1

theorem Failover.connected_eq_false_iff :
    s.connected = false ↔ ∀ handler ∈ s.handlers, handler.state ≠ .established := by
  simp [Failover.connected]

theorem Chain.connected_eq (h : Chain addrs olds last s.ctx s.live)
    (hhandlers : s.handlers = olds ++ [last]) :
    s.connected = false ↔ last.state ≠ .established := by
  rw [Failover.connected_eq_false_iff, hhandlers]
  constructor
  · intro hall
    exact hall last (by simp)
  · intro hlast handler hmem
    rcases List.mem_append.mp hmem with hold | hmem
    · simp [(h.passed handler hold).1]
    · rw [List.mem_singleton] at hmem
      rwa [hmem]

theorem ChainInv.process (alloc : Alloc) (h : ChainInv addrs s)
    (hget : s.handlers[i]? = some handler) (hdue : handler.due events = true)
    (status : ConnectStatus) :
    ∃ s', s.exec alloc (.process i events status) = some s' ∧ ChainInv addrs s' ∧
      s'.live = s.live ∧ s'.ctx.wr = s.ctx.wr ∧ s'.world = s.world ∧ s.connected = false := by
  obtain ⟨hstate, hpolled, olds, hhandlers, rfl, hchain⟩ := h.due hget hdue
  have hok := h.ok handler (List.mem_of_getElem? hget)
  have hestablished : handler.state ≠ .established := by simp [hstate]
  have hfreed : handler.freed = false := by
    simp only [UpstreamHandler.due, Bool.and_eq_true, Bool.not_eq_true'] at hdue
    exact hdue.1.1.1.1
  have hfamily : ∀ addr ∈ s.ctx.addrNext, addr.family = .inet ∨ addr.family = .inet6 := by
    intro addr haddr
    refine h.family addr ?_
    rw [← hchain.rest hestablished]
    exact List.mem_append_right _ haddr
  obtain ⟨call, hcall, heffect⟩ := loopHandlerTask_effect events status hchain.owns hstate hfamily
  refine ⟨{ s with
    handlers := olds ++ [{ call.handler with polled := events.outcome }] ++ call.next.toList
    ctx := call.ctx }, ?_, ⟨h.family, ?_, h.wrFrees, Or.inr (hchain.effect hstate hfreed heffect)⟩,
    rfl, heffect.wr_eq, rfl, (hchain.connected_eq hhandlers).mpr hestablished⟩
  · simp [Failover.exec, hdue, Failover.process, hcall, hpolled, hhandlers]
  · intro handler' hmem
    rcases List.mem_append.mp hmem with hmem | hmem
    · rcases List.mem_append.mp hmem with hold | hmem
      · exact h.ok handler' (by simp [hhandlers, hold])
      · rw [List.mem_singleton] at hmem
        rw [hmem]
        exact hok.effect hstate hdue heffect
    · exact heffect.next_ok (by simpa using hmem)

theorem map_set_of_eq {α β : Type} {f : α → β} {xs : List α} {x y : α}
    (hget : xs[i]? = some x) (hf : f y = f x) : (xs.set i y).map f = xs.map f := by
  obtain ⟨hlt, rfl⟩ := List.getElem?_eq_some_iff.mp hget
  rw [List.map_set, hf, ← List.getElem_map f (h := by simpa using hlt), List.set_getElem_self]

theorem Chain.set (h : Chain addrs olds last ctx live)
    (hget : (olds ++ [last])[i]? = some handler) (haddr : handler'.addr = handler.addr)
    (hstate : handler'.state = handler.state)
    (howns : handler'.customData = handler.customData) {live' : Bool}
    (hfreed : handler.customData = true → handler'.freed = !live')
    (hlive : handler.customData = false → live' = live) :
    ∃ olds' last', (olds ++ [last]).set i handler' = olds' ++ [last'] ∧
      Chain addrs olds' last' ctx live' := by
  have hmap : ((olds ++ [last]).set i handler').map (fun handler => handler.addr) =
      (olds ++ [last]).map fun handler => handler.addr := map_set_of_eq hget haddr
  rcases getElem?_concat hget with hold | ⟨rfl, rfl⟩
  · obtain ⟨hlt, _⟩ := List.getElem?_eq_some_iff.mp hold
    obtain ⟨hfail, hnone⟩ := h.passed handler (List.mem_of_getElem? hold)
    have hset : (olds ++ [last]).set i handler' = olds.set i handler' ++ [last] :=
      List.set_append_left _ _ hlt
    rw [hset] at hmap
    rw [hlive hnone]
    refine ⟨_, _, hset, ?_, h.owns, h.freed, hmap ▸ h.order, hmap ▸ h.rest, h.drained⟩
    intro old hmem
    rcases List.mem_or_eq_of_mem_set hmem with hmem | rfl
    · exact h.passed old hmem
    · exact ⟨hstate.trans hfail, howns.trans hnone⟩
  · have hset : (olds ++ [handler]).set olds.length handler' = olds ++ [handler'] := by simp
    rw [hset] at hmap
    refine ⟨_, _, hset, h.passed, howns.trans h.owns, hfreed h.owns, hmap ▸ h.order, ?_, ?_⟩
    · rw [hmap, hstate]
      exact h.rest
    · rw [hstate]
      exact h.drained

theorem ChainInv.set (h : ChainInv addrs s) (hget : s.handlers[i]? = some handler)
    (hok : handler'.Ok) (haddr : handler'.addr = handler.addr)
    (hstate : handler'.state = handler.state)
    (howns : handler'.customData = handler.customData) {live' : Bool} {wrFrees : ℕ}
    (hwrFrees : wrFrees = if live' then 0 else 1)
    (hfreed : handler.customData = true → handler'.freed = !live')
    (hlive : handler.customData = false → live' = s.live) (world : World) :
    ChainInv addrs ⟨s.handlers.set i handler', s.ctx, live', wrFrees, world⟩ := by
  refine ⟨h.family, ?_, hwrFrees, ?_⟩
  · intro old hmem
    rcases List.mem_or_eq_of_mem_set hmem with hmem | rfl
    · exact h.ok old hmem
    · exact hok
  · rcases h.chain with ⟨hnil, _⟩ | ⟨olds, last, hhandlers, hchain⟩
    · simp [hnil] at hget
    · rw [hhandlers] at hget
      have hset := hchain.set hget haddr hstate howns hfreed hlive
      rw [← hhandlers] at hset
      exact Or.inr hset

/-- The context is alive as long as the handler that has it. -/
theorem ChainInv.freed_eq (h : ChainInv addrs s) (hmem : handler ∈ s.handlers)
    (howns : handler.customData = true) : handler.freed = !s.live := by
  rcases h.chain with ⟨hnil, _⟩ | ⟨olds, last, hhandlers, hchain⟩
  · simp [hnil] at hmem
  · rw [hhandlers] at hmem
    rcases List.mem_append.mp hmem with hold | hmem
    · simp [(hchain.passed handler hold).2] at howns
    · rw [List.mem_singleton] at hmem
      rw [hmem]
      exact hchain.freed

theorem ChainInv.close (h : ChainInv addrs s) (hget : s.handlers[i]? = some handler)
    (hstate : handler.state = .established) :
    ChainInv addrs
      { s with handlers := s.handlers.set i { handler with unregistered := true } } := by
  have hmem := List.mem_of_getElem? hget
  have hok := h.ok handler hmem
  have hok' : ({ handler with unregistered := true } : UpstreamHandler A).Ok :=
    ⟨hok.loop, hok.polled, hok.forced, fun hne => absurd hstate hne, hok.immediate, fun _ => rfl⟩
  exact h.set hget hok' rfl rfl rfl h.wrFrees (h.freed_eq hmem) (fun _ => rfl) s.world

theorem ChainInv.free (h : ChainInv addrs s) (hget : s.handlers[i]? = some handler)
    (hunregistered : handler.unregistered = true) (hfreed : handler.freed = false)
    (world : World) :
    ChainInv addrs ⟨s.handlers.set i { handler with freed := true }, s.ctx,
      s.live && !handler.customData, if handler.customData then s.wrFrees + 1 else s.wrFrees,
      world⟩ := by
  have hmem := List.mem_of_getElem? hget
  have hok := h.ok handler hmem
  have hok' : ({ handler with freed := true } : UpstreamHandler A).Ok :=
    ⟨hok.loop, hok.polled, hok.forced, hok.unregistered, hok.immediate, fun _ => hunregistered⟩
  refine h.set hget hok' rfl rfl rfl ?_ ?_ ?_ world
  · cases howns : handler.customData with
    | false => simpa using h.wrFrees
    | true =>
        have hlive : s.live = true := by simpa [hfreed] using h.freed_eq hmem howns
        simp [h.wrFrees, hlive]
  · intro howns
    simp [howns]
  · intro howns
    simp [howns]

theorem Failover.connected_set (hget : s.handlers[i]? = some handler)
    (hstate : handler'.state = handler.state) (live : Bool) (wrFrees : ℕ) (world : World) :
    (⟨s.handlers.set i handler', s.ctx, live, wrFrees, world⟩ : Failover A).connected =
      s.connected := by
  have hany : ∀ handlers : List (UpstreamHandler A),
      (handlers.any fun handler => handler.state = .established) =
        (handlers.map fun handler => handler.state).any fun state => state = .established := by
    intro handlers
    rw [List.any_map]
    rfl
  simp only [Failover.connected, hany]
  rw [map_set_of_eq (f := fun handler => handler.state) hget hstate]

end Chain

/-! ## The entry -/

/-- The write handle is the one of the entry. Until a connection is made nobody writes to the
entry. -/
structure EntryInv {A : Type} (alloc : Alloc) (arc : ℕ) (s : Failover A) : Prop where
  run : ∃ chist, Run alloc chist s.world
  known : arc < s.world.arcs.next
  handle : s.live = true → s.world.wrEntry s.ctx.wr = some arc
  entry : s.connected = false → ∀ e, s.world.entry arc = some e →
    e.state = if s.live then .entryPartial else .entryInvalid

section Entry

variable {A : Type} {alloc : Alloc} {arc : ℕ} {s s' : Failover A} {op : CacheOp}
  {event : CacheEvent} {world : World}

theorem EntryInv.congr (h : EntryInv alloc arc s) (hworld : s'.world = s.world)
    (hlive : s'.live = s.live) (hwr : s'.ctx.wr = s.ctx.wr)
    (hconnected : s'.connected = false → s.connected = false) : EntryInv alloc arc s' := by
  refine ⟨hworld ▸ h.run, hworld ▸ h.known, ?_, ?_⟩
  · rw [hlive, hworld, hwr]
    exact h.handle
  · intro hno
    rw [hlive, hworld]
    exact h.entry (hconnected hno)

theorem EntryInv.cache (h : EntryInv alloc arc s)
    (hop : op.wrHandle = some s.ctx.wr → s.connected = true ∧ op ≠ .wrFree s.ctx.wr)
    (hexec : s.world.exec alloc op = some (event, world)) :
    EntryInv alloc arc { s with world := world } := by
  obtain ⟨chist, hrun⟩ := h.run
  obtain ⟨seq, hinv⟩ := hrun.inv
  obtain ⟨⟨seq', _, hout⟩, _, htraced⟩ := hinv.step hexec
  refine ⟨⟨_, hrun.step hexec⟩, h.known.trans_le htraced.urls.arcs_le, ?_, ?_⟩
  · intro hlive
    have hfree : op ≠ .wrFree s.ctx.wr := by
      intro heq
      exact (hop (by rw [heq]; rfl)).2 heq
    exact wrEntry_of_outcome hout hfree (h.handle hlive)
  · intro hno e' he'
    have hno' : s.connected = false := hno
    obtain ⟨e, he, _⟩ := htraced.urls.entry_of_lt h.known he'
    have hother : op.wrHandle ≠ some s.ctx.wr := by
      intro hwr
      simp [hno'] at hop
      exact hop hwr
    have hunique : ∀ {i : ℕ}, s.world.wrEntry i = some arc → i = s.ctx.wr := by
      intro i hi
      cases hlive : s.live with
      | true => exact hrun.writerInv.unique hi (h.handle hlive)
      | false =>
          -- an invalid entry has no write handle
          have hinvalid := h.entry hno' e he
          rw [hlive] at hinvalid
          exact absurd hinvalid (hrun.writerInv.valid hi he)
    have hbody := body_of_exec hinv hunique hother hexec he he'
    rw [(CacheEntry.fields_of_body hbody).2.1]
    exact h.entry hno' e he

/-- The write handle can be freed, and its entry becomes invalid. -/
theorem EntryInv.wrFree (h : EntryInv alloc arc s) (hlive : s.live = true) :
    ∃ world, s.world.cacheWrFree s.ctx.wr = some world ∧ ∀ (handlers : List (UpstreamHandler A))
      (wrFrees : ℕ), (s.connected = true →
        (⟨handlers, s.ctx, false, wrFrees, world⟩ : Failover A).connected = true) →
      EntryInv alloc arc ⟨handlers, s.ctx, false, wrFrees, world⟩ := by
  obtain ⟨chist, hrun⟩ := h.run
  obtain ⟨seq, hinv⟩ := hrun.inv
  have hwr := h.handle hlive
  obtain ⟨arcEntry, ha⟩ := hinv.toRefInv.wr_arc hwr
  have he := World.entry_of_get ha
  obtain ⟨w₁, world, hfree, _, hkept, _, hcases⟩ := cacheWrFree_spec hinv.toCacheInv hwr ha
  have hexec : s.world.exec alloc (.wrFree s.ctx.wr) = some (.silent, world) := by
    simp [World.exec, hfree]
  obtain ⟨_, _, htraced⟩ := hinv.step hexec
  refine ⟨world, hfree, fun handlers wrFrees hconnected => ⟨⟨_, hrun.step hexec⟩,
    h.known.trans_le htraced.urls.arcs_le, by simp, ?_⟩⟩
  intro hno e' he'
  have hno' : s.connected = false := by
    cases hs : s.connected with
    | false => rfl
    | true => rw [hconnected hs] at hno; exact absurd hno (by simp)
  have hpartial := h.entry hno' _ he
  rw [hlive] at hpartial
  rcases hcases with ⟨_, hstate⟩ | ⟨_, hrew⟩
  · exact absurd hpartial hstate
  · have he₁ := hrew.entry arc
    rw [if_pos rfl] at he₁
    exact (CacheEntry.fields_of_body (hkept.body_eq he₁ he')).2.1

end Entry

/-! ## Runs -/

section Runs

variable {A : Type} {alloc : Alloc} {addrs : List (AddrInfo A)} {arc i : ℕ} {s s' : Failover A}
  {act : FailoverAct} {handler : UpstreamHandler A} {hist : List FailoverAct}

structure FailoverInv (alloc : Alloc) (addrs : List (AddrInfo A)) (arc : ℕ) (s : Failover A) : Prop
    extends ChainInv addrs s, EntryInv alloc arc s

theorem failoverInv_of_init (hinit : s.Init alloc addrs arc) : FailoverInv alloc addrs arc s := by
  obtain ⟨hfamily, chist, world, wr, status, hrun, hempty, hinit⟩ := hinit
  obtain ⟨seq, hinv⟩ := hrun.inv
  simp only [World.emptyEntry, Bool.and_eq_true, decide_eq_true_eq] at hempty
  obtain ⟨hwr, hentry⟩ := hempty
  obtain ⟨arcEntry, ha⟩ := hinv.toRefInv.wr_arc hwr
  -- the write handle, as if the first handler had been created already
  have hentryInv : ∀ (handlers : List (UpstreamHandler A)) (ctx : FailoverCtx A) (wrFrees : ℕ),
      ctx.wr = wr → EntryInv alloc arc ⟨handlers, ctx, true, wrFrees, world⟩ := by
    intro handlers ctx wrFrees hctx
    refine ⟨⟨chist, hrun⟩, Heap.lt_next_of_get ha, fun _ => hctx ▸ hwr, fun _ e he => ?_⟩
    have he' : world.entry arc = some e := he
    rw [he', Option.all_some] at hentry
    simp only [Bool.and_eq_true, decide_eq_true_eq] at hentry
    exact hentry.1.2
  cases addrs with
  | nil =>
      have hstart := hentryInv [] ⟨false, [], wr⟩ 0 rfl
      obtain ⟨world', hfree, hinvalid⟩ := hstart.wrFree rfl
      simp only at hfree
      simp only [upstreamInit, upstreamNewHandler, Option.bind_eq_bind, Option.bind_some, hfree,
        Option.pure_def, Option.some.injEq] at hinit
      rw [← hinit]
      exact ⟨⟨hfamily, by simp, rfl, Or.inl ⟨rfl, rfl, rfl⟩⟩, hinvalid [] 1 id⟩
  | cons addr addrNext =>
      simp only [upstreamInit, upstreamNewHandler, Option.bind_eq_bind, Option.bind_eq_some_iff,
        Option.pure_def] at hinit
      obtain ⟨_, ⟨tcp, htcp, hresult⟩, hinit⟩ := hinit
      rw [← Option.some.inj hresult] at hinit
      simp only [Option.some.injEq] at hinit
      obtain ⟨hok, haddr, hconnecting, hfreed⟩ := tcpConnect_ok htcp
      rw [← hinit]
      refine ⟨⟨hfamily, ?_, rfl, Or.inr ⟨[], _, rfl, ?_⟩⟩, hentryInv _ _ 0 rfl⟩
      · intro handler hmem
        rw [List.mem_singleton] at hmem
        rw [hmem]
        exact hok
      · refine ⟨by simp, rfl, hfreed, ⟨addrNext, ?_⟩, fun _ => ?_, ?_⟩
        · simp [UpstreamHandler.register, haddr]
        · simp [UpstreamHandler.register, haddr]
        · simp [UpstreamHandler.register, hconnecting]

theorem FailoverInv.free (h : FailoverInv alloc addrs arc s)
    (hget : s.handlers[i]? = some handler) (hunregistered : handler.unregistered = true)
    (hfreed : handler.freed = false) :
    ∃ s', s.handlerFree i handler = some s' ∧ FailoverInv alloc addrs arc s' ∧
      s'.live = (s.live && !handler.customData) := by
  have hmem := List.mem_of_getElem? hget
  have hloop := (h.ok handler hmem).loop
  have hconnected : ∀ live wrFrees world,
      (⟨s.handlers.set i { handler with freed := true }, s.ctx, live, wrFrees, world⟩ :
        Failover A).connected = s.connected := Failover.connected_set hget rfl
  cases howns : handler.customData with
  | false =>
      have hchain := h.toChainInv.free hget hunregistered hfreed s.world
      have hlive : (s.live && !handler.customData) = s.live := by simp [howns]
      have hwrFrees : (if handler.customData then s.wrFrees + 1 else s.wrFrees) = s.wrFrees := by
        simp [howns]
      rw [hlive, hwrFrees] at hchain
      refine ⟨{ s with handlers := s.handlers.set i { handler with freed := true } }, ?_,
        ⟨hchain, ?_⟩, by simp⟩
      · simp [Failover.handlerFree, hloop, howns]
      · exact h.toEntryInv.congr rfl rfl rfl fun hno => (hconnected _ _ _).symm.trans hno
  | true =>
      have hlive : s.live = true := by simpa [hfreed] using h.freed_eq hmem howns
      obtain ⟨world, hfree, hentry⟩ := h.toEntryInv.wrFree hlive
      have hchain := h.toChainInv.free hget hunregistered hfreed world
      have hlive' : (s.live && !handler.customData) = false := by simp [howns]
      have hwrFrees : (if handler.customData then s.wrFrees + 1 else s.wrFrees) =
          s.wrFrees + 1 := by
        simp [howns]
      rw [hlive', hwrFrees] at hchain
      refine ⟨_, ?_, ⟨hchain, hentry _ _ fun hyes => (hconnected _ _ _).trans hyes⟩, by simp⟩
      simp [Failover.handlerFree, hloop, howns, hfree]

theorem FailoverInv.step (h : FailoverInv alloc addrs arc s) (hstep : s.Step alloc act s') :
    FailoverInv alloc addrs arc s' := by
  cases act with
  | process i events status =>
      cases hget : s.handlers[i]? with
      | none => simp [Failover.Step, Failover.exec, hget] at hstep
      | some handler =>
          cases hdue : handler.due events with
          | false => simp [Failover.Step, Failover.exec, hget, hdue] at hstep
          | true =>
              obtain ⟨s₁, hexec, hchain, hlive, hwr, hworld, hno⟩ :=
                h.toChainInv.process alloc hget hdue status
              rw [Failover.Step, hexec, Option.some.injEq] at hstep
              rw [← hstep]
              exact ⟨hchain, h.toEntryInv.congr hworld hlive hwr fun _ => hno⟩
  | close i =>
      simp only [Failover.Step, Failover.exec, Option.bind_eq_bind,
        Option.bind_eq_some_iff] at hstep
      obtain ⟨handler, hget, hstep⟩ := hstep
      split at hstep
      · rename_i hguard
        simp only [Bool.and_eq_true, decide_eq_true_eq] at hguard
        rw [← Option.some.inj hstep]
        refine ⟨h.toChainInv.close hget hguard.1, h.toEntryInv.congr rfl rfl rfl fun hno => ?_⟩
        exact (Failover.connected_set hget (by rfl) _ _ _).symm.trans hno
      · simp at hstep
  | free i =>
      simp only [Failover.Step, Failover.exec, Option.bind_eq_bind,
        Option.bind_eq_some_iff] at hstep
      obtain ⟨handler, hget, hstep⟩ := hstep
      split at hstep
      · rename_i hguard
        simp only [Bool.and_eq_true, Bool.not_eq_true'] at hguard
        obtain ⟨s₁, hfree, hinv, _⟩ := h.free hget hguard.1 hguard.2
        rw [hfree, Option.some.injEq] at hstep
        exact hstep ▸ hinv
      · simp at hstep
  | cache op =>
      simp only [Failover.Step, Failover.exec] at hstep
      split at hstep
      · simp at hstep
      · rename_i hguard
        simp only [Option.bind_eq_bind, Option.bind_eq_some_iff, Option.pure_def,
          Option.some.injEq] at hstep
        obtain ⟨⟨event, world⟩, hexec, hstep⟩ := hstep
        rw [← hstep]
        refine ⟨⟨h.family, h.ok, h.wrFrees, h.chain⟩, h.toEntryInv.cache (fun hwr => ?_) hexec⟩
        rw [not_and, not_or, Bool.not_eq_false] at hguard
        exact hguard hwr

theorem failoverInv_of_run
    (hrun : Lts.Run (Failover.Init alloc addrs arc) (Failover.Step alloc) hist s) :
    FailoverInv alloc addrs arc s := by
  refine Lts.Run.invariant (I := fun _ s => FailoverInv alloc addrs arc s) hrun
    (fun s hinit => failoverInv_of_init hinit) ?_
  exact fun hist s act s' hinv hstep => hinv.step hstep

/-- `connect` has set `EINPROGRESS`, or the handler has not been called yet, or the socket has
reported the failure of `connect` once more. -/
def UpstreamHandler.Heard (handler : UpstreamHandler A) : Prop :=
  handler.status = .inProgress ∨ handler.forced = true ∨
    handler.status = .failed ∧ handler.polled = .failed

theorem UpstreamHandler.Heard.outcome_eq (h : handler.Heard) (hforced : handler.forced = false) :
    handler.outcome = handler.polled := by
  rcases h with hstatus | htrue | ⟨hstatus, hpolled⟩
  · simp [UpstreamHandler.outcome, hstatus]
  · simp [hforced] at htrue
  · simp [UpstreamHandler.outcome, hstatus, hpolled]

theorem UpstreamHandler.Ok.of_fail (h : handler.Ok) (hstate : handler.state = .fail) :
    handler.forced = false ∧ handler.polled = .failed ∧ handler.unregistered = true := by
  refine ⟨h.forced (Or.inl (by simp [hstate])), ?_, (h.unregistered (by simp [hstate])).mpr hstate⟩
  simpa [hstate] using h.polled

theorem UpstreamHandler.Ok.fail_iff (h : handler.Ok) :
    handler.state = .fail ↔ handler.polled = .failed := by
  rcases h.polled with ⟨hstate, hpolled⟩ | ⟨hstate, hpolled⟩ | ⟨hstate, hpolled⟩ <;>
    simp [hstate, hpolled]

theorem UpstreamHandler.Ok.established_iff (h : handler.Ok) :
    handler.state = .established ↔ handler.polled = .connected := by
  rcases h.polled with ⟨hstate, hpolled⟩ | ⟨hstate, hpolled⟩ | ⟨hstate, hpolled⟩ <;>
    simp [hstate, hpolled]

/-- A handler that `connect` has answered at once does not notice it. -/
theorem FailoverSound.heard (hsound : FailoverSound alloc addrs arc s) (h : ChainInv addrs s)
    (hmem : handler ∈ s.handlers) : handler.Heard := by
  have hok := h.ok handler hmem
  by_cases hprogress : handler.status = .inProgress
  · exact Or.inl hprogress
  cases hforced : handler.forced with
  | true => exact Or.inr (Or.inl hforced)
  | false =>
      obtain ⟨hconnected, hfailed⟩ := hsound.settled handler hmem hforced
      have hestablished := (hok.immediate hprogress).2
      cases hstatus : handler.status with
      | inProgress => exact absurd hstatus hprogress
      | ok => exact absurd (hconnected (by simp [UpstreamHandler.outcome, hstatus])) hestablished
      | failed =>
          have hunregistered := hfailed (by simp [UpstreamHandler.outcome, hstatus])
          have hstate := (hok.unregistered hestablished).mp hunregistered
          exact Or.inr (Or.inr ⟨hstatus, (hok.of_fail hstate).2.1⟩)

/-- Only the last handler can be the owner of the context. -/
theorem Chain.owners_length {olds : List (UpstreamHandler A)} {last : UpstreamHandler A}
    (h : Chain addrs olds last s.ctx s.live) (hhandlers : s.handlers = olds ++ [last]) :
    s.owners.length = if s.live then 1 else 0 := by
  have holds : olds.filter (fun handler => handler.customData && !handler.freed) = [] := by
    rw [List.filter_eq_nil_iff]
    intro handler hmem
    simp [(h.passed handler hmem).2]
  rw [Failover.owners, hhandlers, List.filter_append, holds, List.nil_append]
  cases hlive : s.live <;> simp [h.owns, h.freed, hlive]

section Heard

variable (h : FailoverInv alloc addrs arc s) (hheard : ∀ handler ∈ s.handlers, handler.Heard)

include h hheard

theorem FailoverInv.failed_iff :
    s.Failed ↔ ∀ handler ∈ s.handlers, handler.state = .fail := by
  constructor
  · intro hfailed handler hmem
    obtain ⟨houtcome, hforced⟩ := hfailed handler hmem
    rw [(h.ok handler hmem).fail_iff, ← (hheard handler hmem).outcome_eq hforced, houtcome]
  · intro hfail handler hmem
    obtain ⟨hforced, hpolled, _⟩ := (h.ok handler hmem).of_fail (hfail handler hmem)
    exact ⟨((hheard handler hmem).outcome_eq hforced).trans hpolled, hforced⟩

theorem FailoverInv.settled : ∀ handler ∈ s.handlers, handler.forced = false →
    (handler.outcome = .connected → handler.state = .established) ∧
    (handler.outcome = .failed → handler.unregistered = true) := by
  intro handler hmem hforced
  have hok := h.ok handler hmem
  rw [(hheard handler hmem).outcome_eq hforced, ← hok.established_iff, ← hok.fail_iff]
  exact ⟨id, fun hstate => (hok.of_fail hstate).2.2⟩

theorem FailoverInv.invalid (hall : s.Failed) (hlive : s.live = false) :
    ∀ e, s.world.entry arc = some e → e.state = .entryInvalid := by
  intro e he
  have hno : s.connected = false := by
    refine Failover.connected_eq_false_iff.mpr fun handler hmem => ?_
    simp [(h.failed_iff hheard).mp hall handler hmem]
  simpa [hlive] using h.entry hno e he

theorem FailoverInv.sound : FailoverSound alloc addrs arc s := by
  have hfailed := h.failed_iff hheard
  have hsettled := h.settled hheard
  have hinvalid := h.invalid hheard
  have hreturns : ∀ i handler events status, s.handlers[i]? = some handler →
      handler.due events = true → (s.exec alloc (.process i events status)).isSome = true := by
    intro i handler events status hget hdue
    obtain ⟨s', hexec, _⟩ := h.toChainInv.process alloc hget hdue status
    rw [hexec]
    rfl
  rcases h.chain with ⟨hnil, rfl, hlive⟩ | ⟨olds, last, hhandlers, hchain⟩
  · exact ⟨by simp [Failover.tried, hnil], by simp [hnil], hsettled, by simp [Failover.tried, hnil],
      hreturns, by simp [Failover.owners, hnil, hlive], h.wrFrees,
      fun _ => Or.inl (hfailed.mpr (by simp [hnil])), by simp [hlive], hinvalid⟩
  · have hlast : last ∈ s.handlers := by simp [hhandlers]
    have hok := h.ok last hlast
    have hall : last.state = .fail → s.Failed := by
      intro hstate
      refine hfailed.mpr fun handler hmem => ?_
      rw [hhandlers] at hmem
      rcases List.mem_append.mp hmem with hold | hmem
      · exact (hchain.passed handler hold).1
      · rw [List.mem_singleton] at hmem
        rw [hmem, hstate]
    have htried : s.tried = (olds ++ [last]).map fun handler => handler.addr := by
      rw [Failover.tried, hhandlers]
    refine ⟨htried ▸ hchain.order, ?_, hsettled, ?_, hreturns, hchain.owners_length hhandlers,
      h.wrFrees, ?_, ?_, hinvalid⟩
    · intro i handler hget hlt
      have hmem := List.mem_of_getElem? hget
      rw [hhandlers] at hget hlt
      rcases getElem?_concat hget with hold | ⟨hi, _⟩
      · have hstate := (hchain.passed handler (List.mem_of_getElem? hold)).1
        obtain ⟨hforced, hpolled, _⟩ := (h.ok handler hmem).of_fail hstate
        rw [(hheard handler hmem).outcome_eq hforced, hpolled]
      · simp [hi] at hlt
    · intro hfailures
      have hstate := hfailed.mp hfailures last hlast
      have hrest := hchain.rest (by simp [hstate])
      rwa [hchain.drained hstate, List.append_nil, ← htried] at hrest
    · intro hlive
      have hunregistered := hok.freed (by simp [hchain.freed, hlive])
      by_cases hestablished : last.state = .established
      · have hforced := hok.forced (Or.inl (by simp [hestablished]))
        refine Or.inr ⟨last, hlast, ?_⟩
        rw [(hheard last hlast).outcome_eq hforced, ← hok.established_iff, hestablished]
      · exact Or.inl (hall ((hok.unregistered hestablished).mp hunregistered))
    · intro hfailures hlive
      have hstate := hfailed.mp hfailures last hlast
      have hunregistered := (hok.of_fail hstate).2.2
      have hfreed : last.freed = false := by simp [hchain.freed, hlive]
      have hget : s.handlers[olds.length]? = some last := by simp [hhandlers]
      obtain ⟨s', hfree, _, hlive'⟩ := h.free hget hunregistered hfreed
      refine ⟨olds.length, s', ?_, by simp [hlive', hchain.owns]⟩
      simp [Failover.Step, Failover.exec, hget, hunregistered, hfreed, hfree]

end Heard

end Runs

/-- Whatever `connect` answers, the addresses are tried as they should be exactly as long as no
handler has been called for which it has answered at once. The one exception is a failure that the
socket reports again. -/
theorem failoverSound_iff_of_run {A : Type} {alloc : Alloc} {addrs : List (AddrInfo A)} {arc : ℕ}
    {hist : List FailoverAct} {s : Failover A}
    (hrun : Lts.Run (Failover.Init alloc addrs arc) (Failover.Step alloc) hist s) :
    FailoverSound alloc addrs arc s ↔ ∀ handler ∈ s.handlers, handler.Heard := by
  have hinv := failoverInv_of_run hrun
  constructor
  · intro hsound handler hmem
    exact hsound.heard hinv.toChainInv hmem
  · intro hheard
    exact hinv.sound hheard

/-! ## Some runs -/

instance UpstreamHandler.decidableHeard {A : Type} (handler : UpstreamHandler A) :
    Decidable handler.Heard :=
  inferInstanceAs (Decidable (handler.status = .inProgress ∨ handler.forced = true ∨
    handler.status = .failed ∧ handler.polled = .failed))

instance Failover.decidableFailed {A : Type} (s : Failover A) : Decidable s.Failed :=
  inferInstanceAs (Decidable (∀ handler ∈ s.handlers,
    handler.outcome = .failed ∧ handler.forced = false))

theorem exists_failoverRun (addrs : List (AddrInfo ℕ)) (status : ConnectStatus)
    (acts : List FailoverAct) (P : Failover ℕ → Bool)
    (hfamily : ∀ addr ∈ addrs, addr.family = .inet ∨ addr.family = .inet6)
    (htest : ((cacheRun (fun _ => true) 100 [.fetch ⟨.initial, []⟩]).any fun x =>
      x.2.emptyEntry 0 0 && (upstreamInit x.2 0 addrs status).any fun s =>
        (Lts.execAll (Failover.exec fun _ => true) s acts).any P) = true) :
    ∃ s, Lts.Run (Failover.Init (fun _ => true) addrs 0) (Failover.Step fun _ => true) acts s ∧
      P s = true := by
  obtain ⟨⟨chist, world⟩, hcache, htest⟩ := (Option.any_eq_true _ _).mp htest
  rw [Bool.and_eq_true] at htest
  obtain ⟨hempty, htest⟩ := htest
  obtain ⟨s, hinit, htest⟩ := (Option.any_eq_true _ _).mp htest
  obtain ⟨s', hexec, hP⟩ := (Option.any_eq_true _ _).mp htest
  have hstart : Failover.Init (fun _ => true) addrs 0 s :=
    ⟨hfamily, chist, world, 0, status, run_of_cacheRun hcache, hempty, hinit⟩
  exact ⟨s', Lts.Run.execAll (.start hstart) hexec, hP⟩

def twoAddrs : List (AddrInfo ℕ) := [⟨.inet, 0⟩, ⟨.inet6, 1⟩]

theorem family_of_twoAddrs : ∀ addr ∈ twoAddrs, addr.family = .inet ∨ addr.family = .inet6 := by
  decide

def refusedEvents : ConnectEvents := ⟨true, true, true, some 111, some 0⟩

/-- The handler is called because it is forced. The socket is not connected. -/
def forcedEvents : ConnectEvents := ⟨false, true, false, some 0, some 0⟩

/-- Both connections are refused after a while. -/
theorem failoverSound_two_addrs : ∃ s : Failover ℕ,
    Lts.Run (Failover.Init (fun _ => true) twoAddrs 0) (Failover.Step fun _ => true)
      [.process 0 refusedEvents .inProgress, .free 0, .process 1 refusedEvents .ok, .free 1] s ∧
    s.tried = twoAddrs ∧ s.wrFrees = 1 ∧
    (s.world.entry 0).map (fun e => e.state) = some .entryInvalid ∧
    FailoverSound (fun _ => true) twoAddrs 0 s := by
  obtain ⟨s, hrun, htest⟩ := exists_failoverRun twoAddrs .inProgress
    [.process 0 refusedEvents .inProgress, .free 0, .process 1 refusedEvents .ok, .free 1]
    (fun s => decide (s.tried = twoAddrs ∧ s.wrFrees = 1 ∧
      (s.world.entry 0).map (fun e => e.state) = some .entryInvalid ∧
      ∀ handler ∈ s.handlers, handler.Heard)) family_of_twoAddrs (by decide +kernel)
  obtain ⟨htried, hfrees, hentry, hheard⟩ := of_decide_eq_true htest
  exact ⟨s, hrun, htried, hfrees, hentry, (failoverSound_iff_of_run hrun).mpr hheard⟩

/-- The first connection fails at once, and the second address is never tried. Or it succeeds at
once, and the handler is not told. -/
theorem not_failoverSound_at_once :
    (∃ s : Failover ℕ, Lts.Run (Failover.Init (fun _ => true) twoAddrs 0)
      (Failover.Step fun _ => true) [.process 0 forcedEvents .inProgress] s ∧
      s.Failed ∧ ¬FailoverSound (fun _ => true) twoAddrs 0 s) ∧
    ∃ s : Failover ℕ, Lts.Run (Failover.Init (fun _ => true) twoAddrs 0)
      (Failover.Step fun _ => true) [.process 0 forcedEvents .inProgress] s ∧
      (∃ handler ∈ s.handlers, handler.outcome = .connected) ∧
      ¬FailoverSound (fun _ => true) twoAddrs 0 s := by
  constructor
  · obtain ⟨s, hrun, htest⟩ := exists_failoverRun twoAddrs .failed
      [.process 0 forcedEvents .inProgress]
      (fun s => decide (s.Failed ∧ s.tried ≠ twoAddrs)) family_of_twoAddrs (by decide +kernel)
    obtain ⟨hfailed, hne⟩ := of_decide_eq_true htest
    exact ⟨s, hrun, hfailed, fun hsound => hne (hsound.exhausted hfailed)⟩
  · obtain ⟨s, hrun, htest⟩ := exists_failoverRun twoAddrs .ok
      [.process 0 forcedEvents .inProgress]
      (fun s => decide (∃ handler ∈ s.handlers, handler.outcome = .connected ∧
        handler.forced = false ∧ handler.state ≠ .established)) family_of_twoAddrs
      (by decide +kernel)
    obtain ⟨handler, hmem, houtcome, hforced, hne⟩ := of_decide_eq_true htest
    exact ⟨s, hrun, ⟨handler, hmem, houtcome⟩,
      fun hsound => hne ((hsound.settled handler hmem hforced).1 houtcome)⟩

end PosixThreads
