import PosixThreads.Loop.Tcp
import PosixThreads.Waxy.Failover

/-!
# The listening socket

`server_new` binds a socket to the first of the addresses of the server. Before the first connection
an error of the socket makes `server_on_fail` go on with the next address. Everything that comes
after the first connection ends the loop if it fails, but for the client of a new connection, which
is meant to be dropped then.

The client is dropped before it has been registered. `tcp_client_free` asserts that a handler has
been.
-/

namespace PosixThreads

inductive ServerPhase
  | bind
  | listen
  deriving DecidableEq, Repr

structure ServerHandler (A : Type) where
  addr : AddrInfo A
  unregistered : Bool
  deriving DecidableEq, Repr

/-- `server_ctx_t`. The pointer `addr_head` is not `NULL` as long as the list of addresses has not
been freed, and `freeaddrinfos` counts how often it has been. The addresses that have been tried are
kept as a history. -/
structure ServerCtx (A : Type) where
  addrHead : Bool
  nextAddr : List (AddrInfo A)
  phase : ServerPhase
  freeaddrinfos : ℕ
  tried : List (AddrInfo A)
  deriving DecidableEq, Repr

/-- The flags with which a handler is called, and the errors that are met then: what `getsockopt`
answers, the errors of `tcp_accept`, of `client_init` and of registering a client, and those of
`tcp_server_new` and `tcp_server_listen` for the next address and of registering its handler. -/
structure ServerEvents where
  loopErr : Bool
  loopRead : Bool
  answer : Option ℕ
  accept : Option Error
  clientInit : Option Error
  clientRegister : Option Error
  bindNext : Option Error
  nextRegister : Option Error
  deriving DecidableEq, Repr

/-- What a callback has returned and done: the error, the handler and the context after it, the
handler that has been registered by it, and whether there is a new client. -/
structure ServerCall (A : Type) where
  err : Option Error
  handler : ServerHandler A
  ctx : ServerCtx A
  next : Option (ServerHandler A)
  client : Bool

section Code

variable {A : Type}

/-- `server_new_tcp_serv`, which must not use a list of addresses that has been freed. -/
def serverNewTcpServ (err : Option Error) (ctx : ServerCtx A) :
    Option (Except Error (ServerHandler A) × ServerCtx A) := do
  assertThat ctx.addrHead
  match ctx.nextAddr with
  | [] => return (.error (.wrap "No suitable bind address found" (.okIf "ctx->next_addr != NULL")),
      ctx)
  | addr :: nextAddr =>
      let ctx := { ctx with
        nextAddr := nextAddr
        tried := ctx.tried ++ [addr] }
      assertThat (addr.family = .inet || addr.family = .inet6)
      match err with
      | some err => return (.error err, ctx)
      | none => return (.ok ⟨addr, false⟩, ctx)

def serverOnFail (events : ServerEvents) (ctx : ServerCtx A) (serv : ServerHandler A)
    (err : Error) : Option (ServerCall A) :=
  match ctx.phase with
  | .listen => some ⟨some err, serv, ctx, none, false⟩
  | .bind => do
      match ← serverNewTcpServ events.bindNext ctx with
      | (.error servNewErr, ctx) =>
          return ⟨errorCombine (some err) (some servNewErr), serv, ctx, none, false⟩
      | (.ok newServ, ctx) =>
          let serv := { serv with unregistered := true }
          match events.nextRegister with
          | some servNewErr =>
              return ⟨errorCombine (some err) (some servNewErr), serv, ctx, none, false⟩
          | none => return ⟨none, serv, ctx, some newServ, false⟩

/-- The handler that `tcp_accept` has made. -/
def acceptedClient : TcpHandler := ⟨[], false, false, false⟩

/-- `handler_free` for the handler of a client. There are no requests, and so no callbacks. -/
def acceptedClientFree : Option Unit := do
  let _ ← tcpClientFree (fun _ => ⟨none, false⟩) acceptedClient
  return ()

/-- `freeaddrinfo(ctx->addr_head)`, and `NULL` instead. -/
def ServerCtx.freeAddrs (ctx : ServerCtx A) : ServerCtx A :=
  { ctx with
    addrHead := false
    freeaddrinfos := if ctx.addrHead then ctx.freeaddrinfos + 1 else ctx.freeaddrinfos }

def serverOnNewConn (events : ServerEvents) (ctx : ServerCtx A) (serv : ServerHandler A) :
    Option (ServerCall A) :=
  let ctx := { ctx.freeAddrs with phase := .listen }
  match errorWrap "Could not accept a connection" events.accept with
  | some err => some ⟨some err, serv, ctx, none, false⟩
  | none =>
      match events.clientInit with
      | some _ => do
          acceptedClientFree
          return ⟨none, serv, ctx, none, false⟩
      | none =>
          match errorWrap "Could not register a client handler" events.clientRegister with
          | some _ => do
              acceptedClientFree
              return ⟨none, serv, ctx, none, false⟩
          | none => some ⟨none, serv, ctx, none, true⟩

def tcpServerProcess (events : ServerEvents) (ctx : ServerCtx A) (serv : ServerHandler A) :
    Option (ServerCall A) :=
  match if events.loopErr then getSocketError events.answer else none with
  | some err => some ⟨some err, serv, ctx, none, false⟩
  | none =>
      if events.loopRead then serverOnNewConn events ctx serv
      else some ⟨none, serv, ctx, none, false⟩

/-- `loop_handler_task_cb`, with `tcp_server_on_error`. -/
def serverTask (events : ServerEvents) (ctx : ServerCtx A) (serv : ServerHandler A) :
    Option (ServerCall A) := do
  let call ← tcpServerProcess events ctx serv
  match call.err with
  | some err => serverOnFail events call.ctx call.handler err
  | none => return call

end Code

/-- The handlers that have been registered, in their order, the context, the number of clients, and
whether `loop_run` has returned, with which error, and whether `server_free` has been called. -/
structure WaxyServer (A : Type) where
  handlers : List (ServerHandler A)
  ctx : ServerCtx A
  clients : ℕ
  ended : Bool
  err : Option Error
  freed : Bool
  deriving DecidableEq, Repr

/-- The loop calls a handler, or it is stopped, and the server is freed. -/
inductive ServerAct
  | process (i : ℕ) (events : ServerEvents)
  | stop
  | free
  deriving DecidableEq, Repr

namespace WaxyServer

variable {A : Type}

def enabled (s : WaxyServer A) : ServerAct → Bool
  | .process i _ => !s.ended && s.handlers[i]?.any fun serv => !serv.unregistered
  | .stop => !s.ended
  | .free => s.ended && !s.freed

/-- The handler `i` is called. An error that is left ends the loop. -/
def process (s : WaxyServer A) (i : ℕ) (serv : ServerHandler A) (events : ServerEvents) :
    Option (WaxyServer A) := do
  let call ← serverTask events s.ctx serv
  return { s with
    handlers := s.handlers.set i call.handler ++ call.next.toList
    ctx := call.ctx
    clients := if call.client then s.clients + 1 else s.clients
    ended := call.err.isSome
    err := call.err }

/-- `server_free`, as far as the addresses are concerned. -/
def serverFree (s : WaxyServer A) : WaxyServer A :=
  { s with
    ctx := s.ctx.freeAddrs
    freed := true }

def exec (s : WaxyServer A) : ServerAct → Option (WaxyServer A)
  | .process i events => do s.process i (← s.handlers[i]?) events
  | .stop => some { s with ended := true }
  | .free => some s.serverFree

def Init (addrs : List (AddrInfo A)) (s : WaxyServer A) : Prop :=
  (∀ addr ∈ addrs, addr.family = .inet ∨ addr.family = .inet6) ∧
    ∃ serv ctx, serverNewTcpServ none ⟨true, addrs, .bind, 0, []⟩ = some (.ok serv, ctx) ∧
      s = ⟨[serv], ctx, 0, false, none, false⟩

def Step (s : WaxyServer A) (act : ServerAct) (s' : WaxyServer A) : Prop :=
  s.enabled act = true ∧ s.exec act = some s'

def listening (s : WaxyServer A) : List (ServerHandler A) :=
  s.handlers.filter fun serv => !serv.unregistered

end WaxyServer

def ServerEvents.socketError (events : ServerEvents) : Option Error :=
  if events.loopErr then getSocketError events.answer else none

def ServerEvents.accepts (events : ServerEvents) : Prop :=
  events.socketError = none ∧ events.loopRead = true ∧ events.accept = none

def WaxyServer.Fails {A : Type} (s : WaxyServer A) (events : ServerEvents) : Prop :=
  events.socketError ≠ none ∧ (s.ctx.phase = .listen ∨ s.ctx.nextAddr = [] ∨
      events.bindNext ≠ none ∨ events.nextRegister ≠ none) ∨
    events.socketError = none ∧ events.loopRead = true ∧ events.accept ≠ none

section Call

variable {A : Type} {events : ServerEvents} {ctx : ServerCtx A} {serv : ServerHandler A}

def ServerCtx.advance (ctx : ServerCtx A) (addr : AddrInfo A) (rest : List (AddrInfo A)) :
    ServerCtx A :=
  { ctx with
    nextAddr := rest
    tried := ctx.tried ++ [addr] }

inductive ServerTask (events : ServerEvents) (ctx : ServerCtx A) (serv : ServerHandler A) :
    Option (ServerCall A) → Prop
  | aborts (haccepts : events.accepts)
      (hclient : events.clientInit ≠ none ∨ events.clientRegister ≠ none) :
      ServerTask events ctx serv none
  | nothing (hsocket : events.socketError = none) (hread : events.loopRead = false) :
      ServerTask events ctx serv (some ⟨none, serv, ctx, none, false⟩)
  | client (haccepts : events.accepts)
      (hclient : events.clientInit = none ∧ events.clientRegister = none) :
      ServerTask events ctx serv
        (some ⟨none, serv, { ctx.freeAddrs with phase := .listen }, none, true⟩)
  | acceptFails {err : Error} (hsocket : events.socketError = none)
      (hread : events.loopRead = true) (haccept : events.accept ≠ none) :
      ServerTask events ctx serv
        (some ⟨some err, serv, { ctx.freeAddrs with phase := .listen }, none, false⟩)
  | socketFails {err : Error} (hsocket : events.socketError ≠ none)
      (hlast : ctx.phase = .listen ∨ ctx.nextAddr = []) :
      ServerTask events ctx serv (some ⟨some err, serv, ctx, none, false⟩)
  | bindFails {err : Error} {addr : AddrInfo A} {rest : List (AddrInfo A)}
      (hsocket : events.socketError ≠ none) (hbind : events.bindNext ≠ none)
      (hnext : ctx.nextAddr = addr :: rest) :
      ServerTask events ctx serv (some ⟨some err, serv, ctx.advance addr rest, none, false⟩)
  | registerFails {err : Error} {addr : AddrInfo A} {rest : List (AddrInfo A)}
      (hsocket : events.socketError ≠ none) (hregister : events.nextRegister ≠ none)
      (hnext : ctx.nextAddr = addr :: rest) :
      ServerTask events ctx serv
        (some ⟨some err, { serv with unregistered := true }, ctx.advance addr rest, none, false⟩)
  | next {addr : AddrInfo A} {rest : List (AddrInfo A)} (hsocket : events.socketError ≠ none)
      (hphase : ctx.phase = .bind) (hbind : events.bindNext = none)
      (hregister : events.nextRegister = none) (hnext : ctx.nextAddr = addr :: rest) :
      ServerTask events ctx serv (some ⟨none, { serv with unregistered := true },
        ctx.advance addr rest, some ⟨addr, false⟩, false⟩)

theorem serverNewTcpServ_nil (haddr : ctx.addrHead = true) (hnext : ctx.nextAddr = [])
    (err : Option Error) : ∃ noAddr, serverNewTcpServ err ctx = some (.error noAddr, ctx) := by
  rw [serverNewTcpServ, haddr, hnext]
  exact ⟨_, rfl⟩

theorem serverNewTcpServ_cons {addr : AddrInfo A} {rest : List (AddrInfo A)}
    (haddr : ctx.addrHead = true) (hnext : ctx.nextAddr = addr :: rest)
    (hfamily : addr.family = .inet ∨ addr.family = .inet6) (err : Option Error) :
    serverNewTcpServ err ctx = some (match err with
      | some err => (.error err, ctx.advance addr rest)
      | none => (.ok ⟨addr, false⟩, ctx.advance addr rest)) := by
  have hok : (addr.family = .inet || addr.family = .inet6) = true := by simpa using hfamily
  obtain ⟨addrHead, nextAddr, phase, freeaddrinfos, tried⟩ := ctx
  obtain rfl : addrHead = true := haddr
  obtain rfl : nextAddr = addr :: rest := hnext
  simp only [serverNewTcpServ, hok, assertThat_true, Option.bind_eq_bind, Option.bind_some]
  cases err <;> rfl

theorem serverOnFail_spec (hbind : ctx.phase = .bind → ctx.addrHead = true)
    (hfamily : ∀ addr ∈ ctx.nextAddr, addr.family = .inet ∨ addr.family = .inet6) {err : Error}
    (hsocket : events.socketError = some err) :
    ServerTask events ctx serv (serverOnFail events ctx serv err) := by
  have hne : events.socketError ≠ none := by simp [hsocket]
  cases hphase : ctx.phase with
  | listen =>
      rw [serverOnFail, hphase]
      exact .socketFails hne (.inl hphase)
  | bind =>
      cases hnext : ctx.nextAddr with
      | nil =>
          obtain ⟨noAddr, hnew⟩ := serverNewTcpServ_nil (hbind hphase) hnext events.bindNext
          simp only [serverOnFail, hphase, hnew]
          exact .socketFails hne (.inr hnext)
      | cons addr rest =>
          have hnew := serverNewTcpServ_cons (hbind hphase) hnext
            (hfamily addr (hnext ▸ List.mem_cons_self)) events.bindNext
          cases hopen : events.bindNext with
          | some openErr =>
              rw [hopen] at hnew
              simp only [serverOnFail, hphase, hopen, hnew]
              exact .bindFails hne (by simp [hopen]) hnext
          | none =>
              rw [hopen] at hnew
              cases hregister : events.nextRegister with
              | some registerErr =>
                  simp only [serverOnFail, hphase, hopen, hnew, hregister]
                  exact .registerFails hne (by simp [hregister]) hnext
              | none =>
                  simp only [serverOnFail, hphase, hopen, hnew, hregister]
                  exact .next hne hphase hopen hregister hnext

theorem serverOnNewConn_spec (hsocket : events.socketError = none)
    (hread : events.loopRead = true) : ServerTask events ctx serv (do
      let call ← serverOnNewConn events ctx serv
      match call.err with
      | some err => serverOnFail events call.ctx call.handler err
      | none => return call) := by
  cases haccept : events.accept with
  | some err =>
      simp only [serverOnNewConn, haccept, errorWrap, Option.map_some]
      exact .acceptFails hsocket hread (by simp [haccept])
  | none =>
      have haccepts : events.accepts := ⟨hsocket, hread, haccept⟩
      cases hinit : events.clientInit with
      | some err =>
          simp only [serverOnNewConn, haccept, errorWrap, Option.map_none, hinit]
          exact .aborts haccepts (.inl (by simp [hinit]))
      | none =>
          cases hregister : events.clientRegister with
          | some err =>
              simp only [serverOnNewConn, haccept, errorWrap, Option.map_none, hinit, hregister,
                Option.map_some]
              exact .aborts haccepts (.inr (by simp [hregister]))
          | none =>
              simp only [serverOnNewConn, haccept, errorWrap, Option.map_none, hinit, hregister]
              exact .client haccepts ⟨hinit, hregister⟩

theorem serverTask_spec (hbind : ctx.phase = .bind → ctx.addrHead = true)
    (hfamily : ∀ addr ∈ ctx.nextAddr, addr.family = .inet ∨ addr.family = .inet6) :
    ServerTask events ctx serv (serverTask events ctx serv) := by
  cases hsocket : events.socketError with
  | some err =>
      have herr : (if events.loopErr then getSocketError events.answer else none) = some err :=
        hsocket
      have hfail : ServerTask events ctx serv (serverOnFail events ctx serv err) :=
        serverOnFail_spec hbind hfamily hsocket
      simp only [serverTask, tcpServerProcess, herr]
      exact hfail
  | none =>
      have herr : (if events.loopErr then getSocketError events.answer else none) = none := hsocket
      cases hread : events.loopRead with
      | false =>
          simp only [serverTask, tcpServerProcess, herr, hread]
          exact .nothing hsocket hread
      | true =>
          simp only [serverTask, tcpServerProcess, herr, hread]
          exact serverOnNewConn_spec hsocket hread

end Call

/-! ## Every run -/

structure ServerInv {A : Type} (addrs : List (AddrInfo A)) (s : WaxyServer A) : Prop where
  family : ∀ addr ∈ s.ctx.nextAddr, addr.family = .inet ∨ addr.family = .inet6
  order : s.ctx.tried ++ s.ctx.nextAddr = addrs
  phase : s.ended = false → s.ctx.phase = .bind → s.ctx.addrHead = true
  listening : s.ended = false → s.listening.length = 1
  freeaddrinfos : s.ctx.freeaddrinfos = if s.ctx.addrHead then 0 else 1
  freed : s.freed = true → s.ctx.addrHead = false

section Runs

variable {A : Type} {addrs : List (AddrInfo A)} {s s' : WaxyServer A} {ctx : ServerCtx A}

theorem ServerCtx.freeAddrs_freeaddrinfos
    (h : ctx.freeaddrinfos = if ctx.addrHead then 0 else 1) : ctx.freeAddrs.freeaddrinfos = 1 := by
  rw [ServerCtx.freeAddrs, h]
  cases ctx.addrHead <;> rfl

theorem ServerInv.start (h : WaxyServer.Init addrs s) : ServerInv addrs s := by
  obtain ⟨hfamily, serv, ctx, hnew, rfl⟩ := h
  cases addrs with
  | nil => cases hnew
  | cons addr rest =>
      let start : ServerCtx A := ⟨true, addr :: rest, .bind, 0, []⟩
      have hstart : serverNewTcpServ none start =
          some (.ok ⟨addr, false⟩, start.advance addr rest) :=
        serverNewTcpServ_cons rfl rfl (hfamily addr List.mem_cons_self) none
      cases hstart.symm.trans hnew
      exact ⟨fun a ha => hfamily a (List.mem_cons_of_mem addr ha), rfl, fun _ _ => rfl,
        fun _ => rfl, rfl, fun h => absurd h (by simp)⟩

theorem ServerInv.advance (h : ServerInv addrs s) {addr : AddrInfo A} {rest : List (AddrInfo A)}
    (hnext : s.ctx.nextAddr = addr :: rest) :
    (∀ a ∈ rest, a.family = .inet ∨ a.family = .inet6) ∧
      (s.ctx.tried ++ [addr]) ++ rest = addrs := by
  refine ⟨fun a ha => h.family a (hnext ▸ List.mem_cons_of_mem addr ha), ?_⟩
  rw [List.append_assoc, List.singleton_append, ← hnext, h.order]

theorem length_listening {serv serv' : ServerHandler A} {i : ℕ} {next : Option (ServerHandler A)}
    (hget : s.handlers[i]? = some serv) (hserv : serv.unregistered = false)
    (hone : s.listening.length = 1)
    (hnext : [serv'].countP (fun serv => !serv.unregistered) +
      next.toList.countP (fun serv => !serv.unregistered) = 1) :
    ((s.handlers.set i serv' ++ next.toList).filter fun serv => !serv.unregistered).length = 1 := by
  obtain ⟨hi, rfl⟩ := List.getElem?_eq_some_iff.mp hget
  have hcount : s.handlers.countP (fun serv => !serv.unregistered) = 1 := by
    rwa [List.countP_eq_length_filter]
  rw [← List.countP_eq_length_filter, List.countP_append, List.countP_set hi, hcount]
  simp only [hserv, Bool.not_false, if_true]
  rw [List.countP_singleton] at hnext
  omega

theorem ServerInv.task (h : ServerInv addrs s) {i : ℕ} {events : ServerEvents}
    (henabled : s.enabled (.process i events) = true) :
    ∃ serv, s.handlers[i]? = some serv ∧ serv.unregistered = false ∧ s.ended = false ∧
      ServerTask events s.ctx serv (serverTask events s.ctx serv) := by
  rw [WaxyServer.enabled, Bool.and_eq_true, Bool.not_eq_true', Option.any_eq_true] at henabled
  obtain ⟨hended, serv, hget, hserv⟩ := henabled
  exact ⟨serv, hget, by simpa using hserv, hended,
    serverTask_spec (h.phase hended) h.family⟩

theorem ServerInv.process (h : ServerInv addrs s) {i : ℕ} {events : ServerEvents}
    (henabled : s.enabled (.process i events) = true)
    (hexec : s.exec (.process i events) = some s') :
    ServerInv addrs s' ∧ (s'.ended = true ↔ s.Fails events) := by
  obtain ⟨serv, hget, hserv, hended, htask⟩ := h.task henabled
  simp only [WaxyServer.exec, hget, WaxyServer.process, Option.bind_eq_bind,
    Option.bind_some] at hexec
  generalize serverTask events s.ctx serv = call at htask hexec
  have hone := h.listening hended
  have hsame : [serv].countP (fun serv : ServerHandler A => !serv.unregistered) +
      (none : Option (ServerHandler A)).toList.countP (fun serv => !serv.unregistered) = 1 := by
    simp [hserv]
  have hfree := ServerCtx.freeAddrs_freeaddrinfos h.freeaddrinfos
  cases htask with
  | aborts => cases hexec
  | nothing hsocket hread =>
      cases hexec
      refine ⟨⟨h.family, h.order, fun _ => h.phase hended,
        fun _ => length_listening hget hserv hone hsame, h.freeaddrinfos, h.freed⟩, ?_⟩
      simp [WaxyServer.Fails, hsocket, hread]
  | client haccepts =>
      cases hexec
      refine ⟨⟨h.family, h.order, fun _ hphase => (by cases hphase),
        fun _ => length_listening hget hserv hone hsame, hfree, fun _ => rfl⟩, ?_⟩
      simp [WaxyServer.Fails, haccepts.1, haccepts.2.2]
  | acceptFails hsocket hread haccept =>
      cases hexec
      refine ⟨⟨h.family, h.order, fun hnot => (by cases hnot), fun hnot => (by cases hnot), hfree,
        fun _ => rfl⟩, ?_⟩
      simp [WaxyServer.Fails, hsocket, hread, haccept]
  | socketFails hsocket hlast =>
      cases hexec
      refine ⟨⟨h.family, h.order, fun hnot => (by cases hnot), fun hnot => (by cases hnot),
        h.freeaddrinfos, h.freed⟩, ?_⟩
      exact iff_of_true rfl (.inl ⟨hsocket, hlast.imp_right .inl⟩)
  | bindFails hsocket hbind hnext =>
      cases hexec
      obtain ⟨hfamily, horder⟩ := h.advance hnext
      refine ⟨⟨hfamily, horder, fun hnot => (by cases hnot), fun hnot => (by cases hnot),
        h.freeaddrinfos, h.freed⟩, ?_⟩
      exact iff_of_true rfl (.inl ⟨hsocket, .inr (.inr (.inl hbind))⟩)
  | registerFails hsocket hregister hnext =>
      cases hexec
      obtain ⟨hfamily, horder⟩ := h.advance hnext
      refine ⟨⟨hfamily, horder, fun hnot => (by cases hnot), fun hnot => (by cases hnot),
        h.freeaddrinfos, h.freed⟩, ?_⟩
      exact iff_of_true rfl (.inl ⟨hsocket, .inr (.inr (.inr hregister))⟩)
  | next hsocket hphase hbind hregister hnext =>
      cases hexec
      obtain ⟨hfamily, horder⟩ := h.advance hnext
      refine ⟨⟨hfamily, horder, fun _ => h.phase hended,
        fun _ => length_listening hget hserv hone rfl, h.freeaddrinfos, h.freed⟩, ?_⟩
      simp [WaxyServer.Fails, hsocket, hphase, hbind, hregister, hnext]

theorem ServerInv.step {act : ServerAct} (h : ServerInv addrs s) (hstep : s.Step act s') :
    ServerInv addrs s' := by
  obtain ⟨henabled, hexec⟩ := hstep
  cases act with
  | process i events => exact (h.process henabled hexec).1
  | stop =>
      cases hexec
      exact ⟨h.family, h.order, fun hnot => (by cases hnot), fun hnot => (by cases hnot),
        h.freeaddrinfos, h.freed⟩
  | free =>
      cases hexec
      have hended : s.ended = true := (Bool.and_eq_true _ _ ▸ henabled).1
      refine ⟨h.family, h.order, fun hnot => ?_, fun hnot => ?_,
        ServerCtx.freeAddrs_freeaddrinfos h.freeaddrinfos, fun _ => rfl⟩
      · exact absurd (hended.symm.trans hnot) (by simp)
      · exact absurd (hended.symm.trans hnot) (by simp)

end Runs

end PosixThreads
