import PosixThreads.Loop.Tcp
import PosixThreads.Waxy.Cache.Run
import PosixThreads.Waxy.Upstream

/-!
# Writing the request to an upstream

`upstream_on_connect` allocates an array with the five slices of the request and queues it. The
callbacks of the request free the array. The one for errors asserts that the array has one slice,
so a request that cannot be written ends the proxy, wherever the failure comes from: from `writev`,
from a queue that is dropped after the output has been shut down, or from a handler that is freed.
-/

namespace PosixThreads

/-- The handler of an upstream from `upstream_on_connect` on: the queue of its requests, how often
the slices have been freed, whether it has been unregistered and whether it has been freed. -/
structure UpstreamConn where
  tcp : TcpHandler
  freed : ℕ
  unregistered : Bool
  released : Bool
  wr : ℕ
  world : World

/-- What becomes of a call: it returns, or an assertion fails. -/
inductive UpstreamResult
  | returned (c : UpstreamConn)
  | aborted

/-- The socket can be written, with the answers to the calls of one turn. Or the output is shut
down, the socket has failed, or the loop frees the handler. -/
inductive UpstreamAct
  | handleWrite (iovMax : ℕ) (iovResized : Bool) (writev : Option ℕ)
  | shutdownOutput
  | socketError
  | free
  deriving DecidableEq, Repr

/-- `upstream_on_request_write`, as far as the queue is concerned. -/
def upstreamOnRequestWrite : TcpCallback := ⟨none, true⟩

def upstreamOnRequestWriteErr (err : Option Error) (slices : List Slice) (freed : ℕ) :
    Option (Option Error × ℕ) := do
  assertThat (slices.length = 1)
  return (err, freed + 1)

/-- The callbacks that have been called for a request with these slices. -/
def playCallbacks (slices : List Slice) : List TcpEvent → ℕ → Option ℕ
  | [], freed => some freed
  | .onWrite _ _ :: events, freed => playCallbacks slices events (freed + 1)
  | .onError _ err _ :: events, freed => do
      let (_, freed) ← upstreamOnRequestWriteErr err slices freed
      playCallbacks slices events freed
  | _ :: events, freed => playCallbacks slices events freed

namespace UpstreamConn

def new (wr : ℕ) (world : World) : UpstreamConn where
  tcp := ⟨[], false, false, true⟩
  freed := 0
  unregistered := false
  released := false
  wr := wr
  world := world

def slices (c : UpstreamConn) : List Slice :=
  (c.tcp.writeReqs.head?.map fun req => req.writeReq.slices).getD []

def onConnect (url : Url) (allocated pushed : Bool) (c : UpstreamConn) :
    Option (Option Error × UpstreamConn) :=
  if allocated then do
    let (tcp, err, _) ← tcpWrite 0 (upstreamSlices url) true true pushed c.tcp
    return (err, { c with
      tcp := tcp
      freed := if err.isSome then c.freed + 1 else c.freed })
  else some (okIf false "slices != NULL", c)

/-- What `tcp_client_handle_write` calls. An error is returned as it is. -/
def tcpEnv (iovMax : ℕ) (iovResized : Bool) (writev : Option ℕ) : TcpEnv where
  iovMax := iovMax
  iovResized := iovResized
  writev := writev
  onWrite := upstreamOnRequestWrite
  onError := fun err => ⟨some err, false⟩

/-- A dropped request has no error. -/
def dropCallback (_ : ℕ) : TcpCallback := ⟨none, false⟩

/-- The callbacks of the request, after its queue has become `tcp`. -/
def played (c : UpstreamConn) (tcp : TcpHandler) (events : List TcpEvent) :
    Option UpstreamConn := do
  return { c with
    tcp := tcp
    freed := ← playCallbacks c.slices events c.freed }

def onError (c : UpstreamConn) : UpstreamConn := { c with unregistered := true }

/-- `tcp_client_handle_write`, and what the loop does with an error. It is called only if there is
something to write. -/
def handleWrite (env : TcpEnv) (c : UpstreamConn) : Option UpstreamResult :=
  if c.tcp.writeReqs = [] then none
  else
    match tcpClientHandleWrite [env] dropCallback c.tcp with
    | .returned tcp err events =>
        match c.played tcp events with
        | none => some .aborted
        | some c => some (.returned (if err.isSome then c.onError else c))
    | .aborted => some .aborted
    | .running _ _ _ => none

/-- `handler_free`: `upstream_ctx_free` and `tcp_client_free`. -/
def free (c : UpstreamConn) : UpstreamResult :=
  match (do
    let world ← c.world.cacheWrFree c.wr
    let (tcp, events) ← tcpClientFree dropCallback c.tcp
    let c ← { c with world := world }.played tcp events
    return { c with unregistered := true, released := true }) with
  | none => .aborted
  | some c => .returned c

def exec (c : UpstreamConn) (act : UpstreamAct) : Option UpstreamResult :=
  if c.released then none
  else
    match act with
    | .handleWrite iovMax iovResized writev => c.handleWrite (tcpEnv iovMax iovResized writev)
    | .shutdownOutput => some (.returned { c with tcp := { c.tcp with outputShut := true } })
    | .socketError => some (.returned c.onError)
    | .free => some c.free

/-- `upstream_on_connect` has queued the request for the URL of an entry. -/
def Init (c : UpstreamConn) : Prop :=
  ∃ alloc chist wr world arc e, Run alloc chist world ∧ world.wrEntry wr = some arc ∧
    world.entry arc = some e ∧ (new wr world).onConnect e.url true true = some (none, c)

def Step (c : UpstreamConn) (act : UpstreamAct) (c' : UpstreamConn) : Prop :=
  c.exec act = some (.returned c')

/-- The entry of the upstream is invalid, as far as there is anybody who can see it. -/
def Invalid (c : UpstreamConn) (arc : ℕ) : Prop :=
  ∀ e, c.world.entry arc = some e → e.state = .entryInvalid

/-- A write that fails is contained: nothing is aborted, the slices are freed once, and the handler
is unregistered. When it is freed, its entry becomes invalid. -/
def Contained (c : UpstreamConn) (act : UpstreamAct) : Prop :=
  ∃ c₁, c.Step act c₁ ∧ c₁.unregistered = true ∧ ∃ c₂ arc,
    (c₂ = c₁ ∧ c₁.released = true ∨ c₁.Step .free c₂) ∧
    c₂.freed = 1 ∧ c.world.wrEntry c.wr = some arc ∧ c₂.Invalid arc

end UpstreamConn

/-- The request in the queue cannot be written: the iovec array cannot be allocated, `writev`
fails, or the queue is dropped. -/
def UpstreamAct.fails (c : UpstreamConn) : UpstreamAct → Bool
  | .handleWrite _ iovResized writev => c.tcp.outputShut || !iovResized || writev.isNone
  | .free => true
  | _ => false

section Runs

variable {c c' : UpstreamConn} {act : UpstreamAct} {hist : List UpstreamAct}

/-- The request in the queue has five slices, and its callbacks are set. -/
def RequestQueued (c : UpstreamConn) : Prop :=
  c.released = false ∧ c.tcp.registered = true ∧ ∃ id req,
    c.tcp.writeReqs = [⟨id, req, true, true⟩] ∧ req.slices.length = 5

theorem requestQueued_of_init (hinit : c.Init) : RequestQueued c := by
  obtain ⟨alloc, chist, wr, world, arc, e, _, _, _, hconnect⟩ := hinit
  simp only [UpstreamConn.onConnect, UpstreamConn.new, tcpWrite, assertThat_true, if_true,
    Option.bind_eq_bind, Option.bind_some, Option.pure_def, Option.some.injEq, Prod.mk.injEq,
    Bool.false_eq_true, if_false, List.nil_append] at hconnect
  rw [← hconnect.2]
  exact ⟨rfl, rfl, 0, _, rfl, rfl⟩

/-- The error callback of a request with five slices fails its assertion. -/
theorem playCallbacks_onError {slices : List Slice} (hlength : slices.length = 5) (id : ℕ)
    (err result : Option Error) (events : List TcpEvent) (freed : ℕ) :
    playCallbacks slices (.onError id err result :: events) freed = none := by
  simp [playCallbacks, upstreamOnRequestWriteErr, hlength]

/-- A write that fails, or finds the output shut down, calls the error callback first. -/
theorem tcpClientHandleWrite_fails (iovMax : ℕ) {tcp : TcpHandler} {id : ℕ} {req : WriteReq}
    {iovResized : Bool} {writev : Option ℕ} (hqueue : tcp.writeReqs = [⟨id, req, true, true⟩])
    (hfails : (tcp.outputShut || !iovResized || writev.isNone) = true) :
    ∃ tcp' err cause result events,
      tcpClientHandleWrite [UpstreamConn.tcpEnv iovMax iovResized writev]
        UpstreamConn.dropCallback tcp =
          .returned tcp' err (.onError id cause result :: events) := by
  obtain ⟨writeReqs, outputShut, loopWrite, registered⟩ := tcp
  simp only at hqueue hfails
  subst hqueue
  cases outputShut with
  | true => exact ⟨_, _, _, _, _, rfl⟩
  | false =>
      cases iovResized with
      | false => exact ⟨_, _, _, _, _, rfl⟩
      | true =>
          cases writev with
          | none => exact ⟨_, _, _, _, _, rfl⟩
          | some count => simp at hfails

/-- A write that does not fail leaves the request in the queue, with more of it written, or empties
the queue. -/
theorem tcpClientHandleWrite_accepts {tcp tcp' : TcpHandler} {id iovMax count : ℕ} {req : WriteReq}
    {err : Option Error} {events : List TcpEvent} (hqueue : tcp.writeReqs = [⟨id, req, true, true⟩])
    (hshut : tcp.outputShut = false)
    (hwrite : tcpClientHandleWrite [UpstreamConn.tcpEnv iovMax true (some count)]
      UpstreamConn.dropCallback tcp = .returned tcp' err events) :
    tcp'.registered = tcp.registered ∧ (tcp'.writeReqs = [] ∨ ∃ req',
      tcp'.writeReqs = [⟨id, req', true, true⟩] ∧ req'.slices = req.slices) := by
  obtain ⟨writeReqs, outputShut, loopWrite, registered⟩ := tcp
  simp only at hqueue hshut
  subst hqueue hshut
  let env := UpstreamConn.tcpEnv iovMax true (some count)
  have hio : ioProcessWriteReq (TcpWriteReq.ioEnv env ⟨id, req, true, true⟩) none req =
      if req.writtenCount + count ≤ (ioIovec iovMax req).2 then
        if req.writtenCount + count = (ioIovec iovMax req).2 then
          some ⟨{ req with writtenCount := req.writtenCount + count }, .processFinished, none,
            [.onWrite]⟩
        else some ⟨{ req with writtenCount := req.writtenCount + count }, .processPartial, none, []⟩
      else none := rfl
  by_cases hle : req.writtenCount + count ≤ (ioIovec iovMax req).2
  · rw [if_pos hle] at hio
    by_cases heq : req.writtenCount + count = (ioIovec iovMax req).2
    · rw [if_pos heq] at hio
      have hloop : ∃ events,
          tcpWriteLoop [env] ⟨[⟨id, req, true, true⟩], false, loopWrite, registered⟩ none =
            .returned ⟨[], true, loopWrite, registered⟩ none events := by
        simp only [tcpWriteLoop, tcpWriteTurn, tcpClientProcessWriteReq, hio]
        exact ⟨_, rfl⟩
      obtain ⟨events', hloop⟩ := hloop
      simp only [tcpClientHandleWrite, env] at hloop hwrite
      rw [hloop] at hwrite
      cases hwrite
      exact ⟨rfl, Or.inl rfl⟩
    · rw [if_neg heq] at hio
      have hloop : tcpWriteLoop [env] ⟨[⟨id, req, true, true⟩], false, loopWrite, registered⟩ none =
          .returned ⟨[⟨id, { req with writtenCount := req.writtenCount + count }, true, true⟩],
            false, loopWrite, registered⟩ none [] := by
        simp only [tcpWriteLoop, tcpWriteTurn, tcpClientProcessWriteReq, hio]
        rfl
      simp only [tcpClientHandleWrite, env] at hloop hwrite
      rw [hloop] at hwrite
      cases hwrite
      exact ⟨rfl, Or.inr ⟨_, rfl, rfl⟩⟩
  · rw [if_neg hle] at hio
    have hloop : tcpWriteLoop [env] ⟨[⟨id, req, true, true⟩], false, loopWrite, registered⟩ none =
        .aborted := by
      simp only [tcpWriteLoop, tcpWriteTurn, tcpClientProcessWriteReq, hio]
      rfl
    simp only [tcpClientHandleWrite, env] at hloop hwrite
    rw [hloop] at hwrite
    cases hwrite

theorem RequestQueued.length_slices (h : RequestQueued c) : c.slices.length = 5 := by
  obtain ⟨_, _, id, req, hqueue, hlength⟩ := h
  simp [UpstreamConn.slices, hqueue, hlength]

theorem UpstreamConn.played_onError (hlength : c.slices.length = 5) (tcp : TcpHandler) (id : ℕ)
    (err result : Option Error) (events : List TcpEvent) :
    c.played tcp (.onError id err result :: events) = none := by
  rw [UpstreamConn.played, playCallbacks_onError hlength]
  rfl

theorem UpstreamConn.free_eq_aborted {tcp : TcpHandler} {id : ℕ} {err result : Option Error}
    {events : List TcpEvent} (hlength : c.slices.length = 5)
    (hdrop : tcpClientFree UpstreamConn.dropCallback c.tcp =
      some (tcp, .onError id err result :: events)) : c.free = .aborted := by
  simp only [UpstreamConn.free, hdrop, Option.bind_eq_bind, Option.bind_some]
  cases c.world.cacheWrFree c.wr with
  | none => rfl
  | some world =>
      have hlength' : ({ c with world := world } : UpstreamConn).slices.length = 5 := hlength
      simp only [Option.bind_some, UpstreamConn.played_onError hlength']
      rfl

/-- Every failure calls the error callback, which aborts. -/
theorem RequestQueued.aborted (h : RequestQueued c) (hfails : act.fails c = true) :
    c.exec act = some .aborted := by
  have hlength := h.length_slices
  obtain ⟨hreleased, hregistered, id, req, hqueue, _⟩ := h
  cases act with
  | handleWrite iovMax iovResized writev =>
      obtain ⟨tcp, err, cause, result, events, hwrite⟩ :=
        tcpClientHandleWrite_fails iovMax hqueue hfails
      simp only [UpstreamConn.exec, hreleased, UpstreamConn.handleWrite, hqueue, hwrite,
        UpstreamConn.played_onError hlength]
      rfl
  | shutdownOutput => simp [UpstreamAct.fails] at hfails
  | socketError => simp [UpstreamAct.fails] at hfails
  | free =>
      have hdrop : ∃ tcp cause result events, tcpClientFree UpstreamConn.dropCallback c.tcp =
          some (tcp, .onError id cause result :: events) := by
        simp only [tcpClientFree, hregistered, assertThat_true, tcpClientDropWriteReqs, hqueue]
        exact ⟨_, _, _, _, rfl⟩
      obtain ⟨tcp, cause, result, events, hdrop⟩ := hdrop
      rw [UpstreamConn.exec, if_neg (by simp [hreleased])]
      exact congrArg some (UpstreamConn.free_eq_aborted hlength hdrop)

/-- The queue has the request with its five slices until it is empty. -/
def QueueInv (c : UpstreamConn) : Prop := c.tcp.writeReqs = [] ∨ RequestQueued c

theorem UpstreamConn.step_free (h : c.Step .free c') : c'.tcp.writeReqs = [] := by
  simp only [UpstreamConn.Step, UpstreamConn.exec] at h
  split at h
  · simp at h
  simp only [UpstreamConn.free, Option.some.injEq] at h
  split at h
  · simp at h
  · rename_i c₁ hfree
    simp only [Option.bind_eq_bind, Option.bind_eq_some_iff, UpstreamConn.played, Option.pure_def,
      Option.some.injEq] at hfree
    obtain ⟨world, _, ⟨tcp, events⟩, hdrop, c₂, ⟨freed, _, hc₂⟩, hc₁⟩ := hfree
    simp only [tcpClientFree, tcpClientDropWriteReqs, Option.bind_eq_bind, Option.bind_eq_some_iff,
      Option.pure_def, Option.some.injEq, Prod.mk.injEq] at hdrop
    obtain ⟨_, _, htcp, _⟩ := hdrop
    rw [← UpstreamResult.returned.inj h, ← hc₁, ← hc₂, ← htcp]

theorem RequestQueued.step_handleWrite {iovMax : ℕ} {iovResized : Bool} {writev : Option ℕ}
    (hqueued : RequestQueued c) (h : c.Step (.handleWrite iovMax iovResized writev) c') :
    QueueInv c' := by
  cases hfails : (UpstreamAct.handleWrite iovMax iovResized writev).fails c with
  | true => simp [UpstreamConn.Step, hqueued.aborted hfails] at h
  | false =>
      simp only [UpstreamAct.fails, Bool.or_eq_false_iff, Bool.not_eq_false'] at hfails
      obtain ⟨⟨hshut, hresized⟩, hwritev⟩ := hfails
      obtain ⟨count, rfl⟩ := Option.isSome_iff_exists.mp (by simpa using hwritev)
      obtain ⟨hreleased, hregistered, id, req, hqueue, hlength⟩ := hqueued
      rw [UpstreamConn.Step, UpstreamConn.exec, if_neg (by simp [hreleased]), hresized] at h
      simp only [UpstreamConn.handleWrite] at h
      split at h
      · simp at h
      split at h
      · rename_i tcp err events hwrite
        obtain ⟨hreg, hqueue'⟩ := tcpClientHandleWrite_accepts hqueue hshut hwrite
        split at h
        · simp at h
        · rename_i c₁ hplayed
          simp only [UpstreamConn.played, Option.bind_eq_bind, Option.bind_eq_some_iff,
            Option.pure_def, Option.some.injEq] at hplayed
          obtain ⟨freed, _, hc₁⟩ := hplayed
          have hc' := UpstreamResult.returned.inj (Option.some.inj h)
          have htcp : c'.tcp = tcp ∧ c'.released = false := by
            rw [← hc', ← hc₁]
            split <;> exact ⟨rfl, hreleased⟩
          rcases hqueue' with hnil | ⟨req', hreq', hslices⟩
          · exact Or.inl (htcp.1 ▸ hnil)
          · refine Or.inr ⟨htcp.2, ?_, id, req', ?_, hslices ▸ hlength⟩
            · rw [htcp.1, hreg, hregistered]
            · rw [htcp.1, hreq']
      · simp at h
      · simp at h

theorem QueueInv.step (hinv : QueueInv c) (h : c.Step act c') : QueueInv c' := by
  cases act with
  | free => exact Or.inl (UpstreamConn.step_free h)
  | shutdownOutput =>
      simp only [UpstreamConn.Step, UpstreamConn.exec] at h
      split at h
      · simp at h
      · rw [← UpstreamResult.returned.inj (Option.some.inj h)]
        exact hinv
  | socketError =>
      simp only [UpstreamConn.Step, UpstreamConn.exec] at h
      split at h
      · simp at h
      · rw [← UpstreamResult.returned.inj (Option.some.inj h)]
        exact hinv
  | handleWrite iovMax iovResized writev =>
      rcases hinv with hnil | hqueued
      · simp [UpstreamConn.Step, UpstreamConn.exec, UpstreamConn.handleWrite, hnil] at h
      · exact hqueued.step_handleWrite h

theorem QueueInv.of_run (hrun : Lts.Run UpstreamConn.Init UpstreamConn.Step hist c) :
    QueueInv c := by
  refine Lts.Run.invariant (I := fun _ c => QueueInv c) hrun
    (fun c hinit => Or.inr (requestQueued_of_init hinit)) ?_
  exact fun hist c act c' hinv hstep => hinv.step hstep

end Runs

/-- Whenever the request that `upstream_on_connect` has queued cannot be written, the proxy aborts.
No such failure is contained. -/
theorem not_contained_of_run {hist : List UpstreamAct} {c : UpstreamConn}
    {act : UpstreamAct} (hrun : Lts.Run UpstreamConn.Init UpstreamConn.Step hist c)
    (hqueued : c.tcp.writeReqs ≠ []) (hfails : act.fails c = true) :
    c.exec act = some .aborted ∧ ¬c.Contained act := by
  have haborted := ((QueueInv.of_run hrun).resolve_left hqueued).aborted hfails
  refine ⟨haborted, fun hcontained => ?_⟩
  obtain ⟨c₁, hstep, _⟩ := hcontained
  simp [UpstreamConn.Step, haborted] at hstep

/-- The request for `url` has been queued, and nothing has been done with it. -/
def UpstreamConn.queued (wr : ℕ) (world : World) (url : Url) : UpstreamConn :=
  { new wr world with tcp := ⟨[⟨0, ⟨upstreamSlices url, 0⟩, true, true⟩], false, true, true⟩ }

def UpstreamResult.isAborted : UpstreamResult → Bool
  | .returned _ => false
  | .aborted => true

/-- The call returns, and the request is still in the queue. -/
def UpstreamResult.isQueued : UpstreamResult → Bool
  | .returned c => !c.tcp.writeReqs.isEmpty
  | .aborted => false

theorem exists_upstreamConn (path : List UInt8) (P : UpstreamConn → Bool)
    (htest : ((clientAcceptUrl (fun _ => true) path).any fun url =>
      (cacheRun (fun _ => true) 100 [.fetch url]).any fun x => (x.2.wrEntry 0).any fun arc =>
        (x.2.entry arc).any fun e => P (.queued 0 x.2 e.url)) = true) :
    ∃ c : UpstreamConn, c.Init ∧ P c = true := by
  obtain ⟨url, _, htest⟩ := (Option.any_eq_true _ _).mp htest
  obtain ⟨⟨chist, world⟩, hcache, htest⟩ := (Option.any_eq_true _ _).mp htest
  obtain ⟨arc, hwr, htest⟩ := (Option.any_eq_true _ _).mp htest
  obtain ⟨e, he, htest⟩ := (Option.any_eq_true _ _).mp htest
  exact ⟨_, ⟨_, chist, 0, world, arc, e, run_of_cacheRun hcache, hwr, he, rfl⟩, htest⟩

/-- Three bytes of the request are written, and then `writev` fails. -/
theorem not_contained_two_writes :
    ∃ c : UpstreamConn, Lts.Run UpstreamConn.Init UpstreamConn.Step
      [.handleWrite 16 true (some 3)] c ∧
      c.exec (.handleWrite 16 true none) = some .aborted ∧
      ¬c.Contained (.handleWrite 16 true none) := by
  obtain ⟨c, hinit, htest⟩ := exists_upstreamConn (cstr "http://h/")
    (fun c => (c.exec (.handleWrite 16 true (some 3))).any UpstreamResult.isQueued)
    (by decide +kernel)
  obtain ⟨result, hexec, hqueued⟩ := (Option.any_eq_true _ _).mp htest
  cases result with
  | aborted => simp [UpstreamResult.isQueued] at hqueued
  | returned c₁ =>
      have hstart : Lts.Run UpstreamConn.Init UpstreamConn.Step [] c := .start hinit
      have hrun : Lts.Run UpstreamConn.Init UpstreamConn.Step [.handleWrite 16 true (some 3)] c₁ :=
        hstart.snoc hexec
      have hne : c₁.tcp.writeReqs ≠ [] := by simpa [UpstreamResult.isQueued] using hqueued
      have hfails : (UpstreamAct.handleWrite 16 true none).fails c₁ = true := by
        simp [UpstreamAct.fails]
      exact ⟨c₁, hrun, not_contained_of_run hrun hne hfails⟩

/-- The first `writev` fails, or the handler is freed before it. -/
theorem not_contained_first_write :
    ∃ c : UpstreamConn, c.Init ∧ ¬c.Contained (.handleWrite 16 true none) ∧ ¬c.Contained .free := by
  obtain ⟨c, hinit, htest⟩ := exists_upstreamConn (cstr "http://h/")
    (fun c => (c.exec (.handleWrite 16 true none)).any UpstreamResult.isAborted &&
      (c.exec .free).any UpstreamResult.isAborted) (by decide +kernel)
  rw [Bool.and_eq_true] at htest
  have hnot : ∀ act, (c.exec act).any UpstreamResult.isAborted = true → ¬c.Contained act := by
    intro act haborted hcontained
    obtain ⟨c₁, hstep, _⟩ := hcontained
    rw [show c.exec act = some (.returned c₁) from hstep] at haborted
    simp [UpstreamResult.isAborted] at haborted
  exact ⟨c, hinit, hnot _ htest.1, hnot _ htest.2⟩

end PosixThreads
