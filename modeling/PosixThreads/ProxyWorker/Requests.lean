import PosixThreads.ProxyWorker.Delivery

/-!
# Requests on their way to the servers

A worker sends a request when `select` finds the connection to the server writable, so the
connection has to be in the write set as long as a request is in its queue. `beginConnectToServer`
puts it there for a connection that is in progress only. A connection that is there at once is only
read from, and the request that is queued for it afterwards is never sent. So is one whose
connection turns out to have failed.

The other workers change the cache between the events of this one, so each event comes with the
cache that it finds. Which descriptors the system gives to new connections is left open.
-/

namespace PosixThreads

variable {M : Type}

namespace ProxyWorker

/-- Every connection to a server for which something is queued is in the write set. -/
def Served (w : ProxyWorker M) : Prop :=
  ∀ fd server, w.servers fd = some server → server.msgQueue ≠ [] → w.writeSet fd = true

/-- The part of `readMessageFrom` for a client, and whether the cache is unlocked behind it. A
worker that has kept the lock does not get it once more. -/
def readRequest (parse : M → Option HttpRequest) (w : ProxyWorker M) (keepsLock : Bool) (fd : ℕ)
    (message : M) (table : CacheTable M) (answers : ConnectAnswers) :
    Option (ProxyWorker M × Bool) := do
  let w := if (w.clients fd).isSome then w else w.setClient fd .new
  match ← w.beginRequest parse fd message with
  | (.returned _, w) => return (w, !keepsLock)
  | (.locks request, w) =>
      assertThat (!keepsLock)
      let done := w.finishRequest fd message request table answers
      return (done.worker, done.unlocked)

/-- What `closeConnection` does to the worker. -/
def closeConnection (w : ProxyWorker M) (fd : ℕ) : ProxyWorker M :=
  { w with
    clients := Function.update w.clients fd none
    servers := Function.update w.servers fd none
    readSet := Function.update w.readSet fd false
    writeSet := Function.update w.writeSet fd false }

def connectedAtOnce (w : ProxyWorker M) (hostname : String) (answers : ConnectAnswers) :
    Option ℕ :=
  if answers.nonblocking && (w.dnsMap hostname || answers.resolves) &&
      decide (answers.connect = .connected) then answers.socket
  else none

end ProxyWorker

structure RequestState (M : Type) where
  worker : ProxyWorker M
  keepsLock : Bool

/-- The events of a worker: a request of a client, a writable descriptor, a timeout, a new part for
a client and the end of a connection. -/
inductive RequestAct (M : Type)
  | request (fd : ℕ) (message : M) (table : CacheTable M) (answers : ConnectAnswers)
  | write (fd : ℕ) (table : CacheTable M) (finished written : Bool)
  | loot (fd : ℕ) (table : CacheTable M) (reset : Bool)
  | notify (fd : ℕ)
  | close (fd : ℕ)

namespace RequestState

def exec (parse : M → Option HttpRequest) (s : RequestState M) :
    RequestAct M → Option (RequestState M)
  | .request fd message table answers => do
      assertThat (s.worker.servers fd).isNone
      let (w, unlocked) ← s.worker.readRequest parse s.keepsLock fd message table answers
      return ⟨w, !unlocked⟩
  | .write fd table finished written => do
      let (_, w) ← s.worker.writeMessageTo table fd finished written
      return { s with worker := w }
  | .loot fd table reset => do
      return { s with worker := ← s.worker.lootNewResourceParts table fd reset }
  | .notify fd => return { s with worker := s.worker.addWrite fd }
  | .close fd => return { s with worker := s.worker.closeConnection fd }

def Init (s : RequestState M) : Prop := ∀ fd, s.worker.servers fd = none

def Step (parse : M → Option HttpRequest) (s : RequestState M) (act : RequestAct M)
    (s' : RequestState M) : Prop :=
  s.exec parse act = some s'

end RequestState

/-- A request does not make a connection at once, unless its descriptor is in the write set for
another reason, and a connection with a request in its queue has not failed. -/
def RequestAct.Meets (parse : M → Option HttpRequest) (s : RequestState M) : RequestAct M → Prop
  | .request _ message table answers =>
      ∀ request, parse message = some request → request.method = "GET" →
        table request.uri = none → ∀ host, request.host? = some host →
        ∀ sd, s.worker.connectedAtOnce host answers = some sd → s.worker.writeSet sd = true
  | .write fd _ finished _ =>
      ∀ server, s.worker.servers fd = some server → server.connected = false →
        server.msgQueue ≠ [] → finished = true
  | _ => True

namespace ProxyWorker

variable {parse : M → Option HttpRequest} {w w' w₁ : ProxyWorker M} {fd sd : ℕ} {message : M}
  {table : CacheTable M} {answers : ConnectAnswers} {keepsLock unlocked : Bool}

/-! ## Steps that have nothing to do with servers -/

structure Keeps (w w' : ProxyWorker M) : Prop where
  servers_eq : w'.servers = w.servers
  writeSet_mono : ∀ fd, w.writeSet fd = true → w'.writeSet fd = true

theorem Keeps.refl (w : ProxyWorker M) : Keeps w w := ⟨rfl, fun _ h => h⟩

theorem Keeps.trans (h : Keeps w w₁) (h' : Keeps w₁ w') : Keeps w w' :=
  ⟨h'.servers_eq.trans h.servers_eq, fun fd hfd => h'.writeSet_mono fd (h.writeSet_mono fd hfd)⟩

theorem Keeps.served (h : Keeps w w') (hw : w.Served) : w'.Served := by
  intro fd server hserver hqueue
  rw [h.servers_eq] at hserver
  exact h.writeSet_mono fd (hw fd server hserver hqueue)

/-- If only one descriptor has been touched, then it is enough to look at that one. -/
theorem served_iff_at (fd : ℕ) (hw : w.Served)
    (hservers : ∀ fd', fd' ≠ fd → w'.servers fd' = w.servers fd')
    (hset : ∀ fd', fd' ≠ fd → w.writeSet fd' = true → w'.writeSet fd' = true) :
    w'.Served ↔ ∀ server, w'.servers fd = some server → server.msgQueue ≠ [] →
      w'.writeSet fd = true := by
  refine ⟨fun hserved => hserved fd, fun hself fd' server hserver hqueue => ?_⟩
  by_cases heq : fd' = fd
  · subst heq
    exact hself server hserver hqueue
  · rw [hservers fd' heq] at hserver
    exact hset fd' heq (hw fd' server hserver hqueue)

theorem keeps_setClient (w : ProxyWorker M) (fd : ℕ) (client : ClientInfo M) :
    Keeps w (w.setClient fd client) := ⟨rfl, fun _ h => h⟩

theorem keeps_addWrite (w : ProxyWorker M) (fd : ℕ) : Keeps w (w.addWrite fd) := by
  refine ⟨rfl, fun fd' hfd' => ?_⟩
  by_cases heq : fd' = fd
  · simp [addWrite, heq]
  · simpa [addWrite, heq] using hfd'

theorem Keeps.addWrite_if (h : Keeps w w') (fd : ℕ) (test : Bool) :
    Keeps w (if test then w' else w'.addWrite fd) := by
  cases test with
  | true => exact h
  | false => exact h.trans (keeps_addWrite w' fd)

theorem keeps_lootNewResourceParts {reset : Bool}
    (h : lootNewResourceParts table w fd reset = some w') : Keeps w w' := by
  cases hclient : w.clients fd with
  | none =>
      simp only [lootNewResourceParts, hclient, Option.some.injEq] at h
      exact h ▸ .refl w
  | some client =>
      simp only [lootNewResourceParts, hclient, Option.bind_eq_bind, Option.bind_eq_some_iff,
        Option.pure_def, Option.some.injEq] at h
      obtain ⟨queue, -, rfl⟩ := h
      split
      · exact (keeps_setClient w fd _).trans (keeps_addWrite _ fd)
      · exact keeps_setClient w fd _

theorem keeps_writeToClient {written : Bool} {code : ℤ}
    (h : writeToClient table w fd written = some (code, w')) : Keeps w w' := by
  simp only [writeToClient, Option.bind_eq_bind, Option.bind_eq_some_iff] at h
  obtain ⟨w₁, hloot, client, -, h⟩ := h
  have hkeeps := keeps_lootNewResourceParts hloot
  cases hqueue : client.msgQueue with
  | nil =>
      simp only [hqueue, Option.pure_def, Option.some.injEq, Prod.mk.injEq] at h
      exact h.2 ▸ hkeeps
  | cons msg queue =>
      simp only [hqueue, Option.pure_def] at h
      have hadd := hkeeps.addWrite_if fd queue.isEmpty
      cases written with
      | true =>
          simp only [if_true, Option.some.injEq, Prod.mk.injEq] at h
          exact h.2 ▸ hadd.trans (keeps_setClient _ fd _)
      | false =>
          simp only [Bool.false_eq_true, if_false, Option.some.injEq, Prod.mk.injEq] at h
          exact h.2 ▸ hadd.trans (keeps_setClient _ fd _)

theorem keeps_answerFromCache (w : ProxyWorker M) (fd : ℕ) (request : HttpRequest)
    (table : CacheTable M) (res : ResourceInfo M) :
    Keeps w (w.answerFromCache fd request table res).worker :=
  (Keeps.refl w).addWrite_if fd res.parts.isEmpty

/-! ## Requests -/

/-- Either there is no new connection, or it is in the write set unless it is there at once. -/
theorem beginConnectToServer_cases (w : ProxyWorker M) (host : String)
    (answers : ConnectAnswers) :
    (∃ w', w.beginConnectToServer host answers = (none, w') ∧ Keeps w w' ∧
      w.connectedAtOnce host answers = none) ∨
    ∃ sd server w', w.beginConnectToServer host answers = (some sd, w') ∧
      w'.servers = Function.update w.servers sd (some server) ∧
      (∀ fd, w.writeSet fd = true → w'.writeSet fd = true) ∧
      (w'.writeSet sd = true ↔
        ∀ sd', w.connectedAtOnce host answers = some sd' → w.writeSet sd' = true) := by
  obtain ⟨socket, nonblocking, resolves, connect⟩ := answers
  cases socket with
  | none => exact .inl ⟨w, rfl, .refl w, by simp [connectedAtOnce]⟩
  | some sd =>
      cases nonblocking with
      | false => exact .inl ⟨w, rfl, .refl w, by simp [connectedAtOnce]⟩
      | true =>
          simp only [beginConnectToServer, connectedAtOnce, Bool.not_true, Bool.false_eq_true,
            if_false, Bool.true_and]
          cases hknown : w.dnsMap host || resolves with
          | false =>
              simp only [Bool.or_eq_false_iff] at hknown
              exact .inl ⟨w, by simp [hknown], .refl w, by simp⟩
          | true =>
              have hknown' : (!w.dnsMap host && !resolves) = false := by
                rw [← Bool.not_or, hknown, Bool.not_true]
              simp only [hknown', Bool.false_eq_true, if_false]
              cases connect with
              | failed => exact .inl ⟨_, rfl, ⟨rfl, fun _ h => h⟩, by simp⟩
              | inProgress =>
                  refine .inr ⟨sd, _, _, rfl, rfl, (keeps_addWrite _ sd).writeSet_mono, ?_⟩
                  simp [setServer, addWrite]
              | connected =>
                  refine .inr ⟨sd, _, _, rfl, rfl, fun _ h => h, ?_⟩
                  simp [setServer, addRead]

theorem served_fetchFromServer (hw : w.Served) (fd : ℕ) (message : M) (request : HttpRequest)
    (table : CacheTable M) (answers : ConnectAnswers) :
    (w.fetchFromServer fd message request table answers).worker.Served ↔
      ∀ host, request.host? = some host →
        ∀ sd, w.connectedAtOnce host answers = some sd → w.writeSet sd = true := by
  cases hhost : request.host? with
  | none => simpa [fetchFromServer, hhost] using hw
  | some host =>
      rcases w.beginConnectToServer_cases host answers with
        ⟨w', hbegin, hkeeps, hnone⟩ | ⟨sd, server, w', hbegin, hservers, hmono, hset⟩
      · simpa [fetchFromServer, hhost, hbegin, hnone] using hkeeps.served hw
      · simp only [fetchFromServer, hhost, hbegin, Option.some.injEq, forall_eq']
        rw [← hset, served_iff_at sd hw]
        · simp [setServer]
        · intro fd' hne
          simp [setServer, hservers, hne]
        · exact fun fd' _ => hmono fd'

theorem beginRequest_eq {start : RequestStart}
    (h : w.beginRequest parse fd message = some (start, w')) :
    w'.servers = w.servers ∧ w'.writeSet = w.writeSet ∧ w'.dnsMap = w.dnsMap ∧
      ∀ request, start = .locks request ↔
        parse message = some request ∧ request.method = "GET" := by
  simp only [beginRequest, Option.bind_eq_bind, Option.bind_eq_some_iff] at h
  obtain ⟨client, -, h⟩ := h
  cases hparse : parse message with
  | none =>
      simp only [hparse, Option.pure_def, Option.some.injEq, Prod.mk.injEq] at h
      obtain ⟨rfl, rfl⟩ := h
      exact ⟨rfl, rfl, rfl, by simp⟩
  | some request =>
      simp only [hparse, Option.pure_def] at h
      split at h
      · next hmethod =>
          simp only [Option.some.injEq, Prod.mk.injEq] at h
          obtain ⟨rfl, rfl⟩ := h
          refine ⟨rfl, rfl, rfl, fun request' => ⟨nofun, ?_⟩⟩
          rintro ⟨hrequest, hget⟩
          rw [Option.some.inj hrequest] at hmethod
          exact absurd hget hmethod
      · next hmethod =>
          simp only [Option.some.injEq, Prod.mk.injEq] at h
          obtain ⟨rfl, rfl⟩ := h
          refine ⟨rfl, rfl, rfl, fun request' => ?_⟩
          simp only [ne_eq, Decidable.not_not] at hmethod
          simp only [RequestStart.locks.injEq, Option.some.injEq]
          exact ⟨fun heq => ⟨heq, heq ▸ hmethod⟩, And.left⟩

theorem served_readRequest (hw : w.Served)
    (h : w.readRequest parse keepsLock fd message table answers = some (w', unlocked)) :
    w'.Served ↔ ∀ request, parse message = some request → request.method = "GET" →
      table request.uri = none → ∀ host, request.host? = some host →
      ∀ sd, w.connectedAtOnce host answers = some sd → w.writeSet sd = true := by
  simp only [readRequest, Option.bind_eq_bind, Option.bind_eq_some_iff] at h
  obtain ⟨⟨start, w₁⟩, hbegin, h⟩ := h
  obtain ⟨hservers, hset, hdns, hstart⟩ := beginRequest_eq hbegin
  have hstarts : (if (w.clients fd).isSome then w else w.setClient fd .new) =
      { w with clients := (if (w.clients fd).isSome then w else w.setClient fd .new).clients } := by
    split <;> rfl
  rw [hstarts] at hservers hset hdns
  have hw₁ : w₁.Served := by
    intro fd server
    rw [hservers, hset]
    exact hw fd server
  cases start with
  | returned code =>
      simp only [Option.pure_def, Option.some.injEq, Prod.mk.injEq] at h
      refine iff_of_true (h.1 ▸ hw₁) fun request hparse hget => ?_
      have := (hstart request).mpr ⟨hparse, hget⟩
      simp at this
  | locks request =>
      obtain ⟨hparse, hget⟩ := (hstart request).mp rfl
      obtain ⟨-, -, h⟩ := Option.bind_eq_some_iff.mp h
      simp only [Option.pure_def, Option.some.injEq, Prod.mk.injEq] at h
      simp only [hparse, Option.some.injEq, forall_eq', hget, true_imp_iff]
      rw [← h.1]
      cases hres : table request.uri with
      | some res =>
          have hkeeps := w₁.keeps_answerFromCache fd request table res
          simpa [finishRequest, hres] using hkeeps.served hw₁
      | none =>
          simp only [finishRequest, hres, true_imp_iff,
            served_fetchFromServer hw₁ fd message request table answers]
          simp only [connectedAtOnce, hdns, hset]

/-! ## Writable descriptors -/

/-- A write to a server leaves every server served if and only if it does not find out that the
connection for a request has failed. -/
theorem served_writeToServer {server : ServerInfo M} (hw : w.Served)
    (hserver : w.servers fd = some server) (finished written : Bool) :
    ((w.removeWrite fd).writeToServer fd server finished written).2.Served ↔
      (server.connected = false → server.msgQueue ≠ [] → finished = true) := by
  obtain ⟨-, hservers⟩ := (w.removeWrite fd).writeToServer_frame server finished written
  rw [served_iff_at fd hw hservers]
  · obtain ⟨queue, connected, name⟩ := server
    cases connected with
    | false =>
        cases finished with
        | false => simp [writeToServer, removeWrite, hserver]
        | true =>
            cases queue <;> simp [writeToServer, setServer, addRead, addWrite, removeWrite]
    | true =>
        cases queue with
        | nil => simp [writeToServer, removeWrite, hserver]
        | cons msg queue => cases queue <;> simp [writeToServer, setServer, addWrite, removeWrite]
  · intro fd' hne hset
    obtain ⟨queue, connected, name⟩ := server
    have hset' : (w.removeWrite fd).writeSet fd' = true := by simpa [removeWrite, hne] using hset
    cases connected with
    | false =>
        cases finished with
        | false => exact hset'
        | true =>
            cases queue <;> simp [writeToServer, setServer, addRead, addWrite, hset', hne]
    | true =>
        cases queue with
        | nil => exact hset'
        | cons msg queue => cases queue <;> simp [writeToServer, setServer, addWrite, hset', hne]

theorem served_writeMessageTo {finished written : Bool} {code : ℤ} (hw : w.Served)
    (h : writeMessageTo table w fd finished written = some (code, w')) :
    w'.Served ↔ ∀ server, w.servers fd = some server → server.connected = false →
      server.msgQueue ≠ [] → finished = true := by
  cases hserver : w.servers fd with
  | some server =>
      cases hclient : w.clients fd with
      | some client => simp [writeMessageTo, removeWrite, hserver, hclient, assertThat] at h
      | none =>
          rw [writeMessageTo_server finished written hserver hclient, Option.some.injEq] at h
          have hiff := served_writeToServer hw hserver finished written
          rw [h] at hiff
          simpa using hiff
  | none =>
      have hremoved : (w.removeWrite fd).Served := by
        rw [served_iff_at fd hw]
        · simp [removeWrite, hserver]
        · exact fun _ _ => rfl
        · intro fd' hne
          simp [removeWrite, hne]
      refine iff_of_true ?_ (fun server hserver' => absurd hserver' (by simp))
      simp only [writeMessageTo, Option.bind_eq_bind] at h
      have hnone : (w.removeWrite fd).servers fd = none := hserver
      rw [hnone] at h
      simp only at h
      split at h
      · exact (keeps_writeToClient h).served hremoved
      · simp only [Option.pure_def, Option.some.injEq, Prod.mk.injEq] at h
        exact h.2 ▸ hremoved

theorem served_closeConnection (hw : w.Served) (fd : ℕ) : (w.closeConnection fd).Served := by
  rw [served_iff_at fd hw]
  · simp [closeConnection]
  · intro fd' hne
    simp [closeConnection, hne]
  · intro fd' hne
    simp [closeConnection, hne]

end ProxyWorker

section Runs

variable {parse : M → Option HttpRequest} {s s' : RequestState M} {act : RequestAct M}

/-- After an event every server is served if and only if the event meets the condition. -/
theorem RequestState.served_iff_meets (hs : s.worker.Served) (hstep : s.Step parse act s') :
    s'.worker.Served ↔ act.Meets parse s := by
  cases act with
  | request fd message table answers =>
      simp only [Step, exec, Option.bind_eq_bind, Option.bind_eq_some_iff, Option.pure_def,
        Option.some.injEq] at hstep
      obtain ⟨_, -, ⟨w, unlocked⟩, hread, rfl⟩ := hstep
      exact ProxyWorker.served_readRequest hs hread
  | write fd table finished written =>
      simp only [Step, exec, Option.bind_eq_bind, Option.bind_eq_some_iff, Option.pure_def,
        Option.some.injEq] at hstep
      obtain ⟨⟨code, w⟩, hwrite, rfl⟩ := hstep
      exact ProxyWorker.served_writeMessageTo hs hwrite
  | loot fd table reset =>
      simp only [Step, exec, Option.bind_eq_bind, Option.bind_eq_some_iff, Option.pure_def,
        Option.some.injEq] at hstep
      obtain ⟨w, hloot, rfl⟩ := hstep
      exact iff_of_true ((ProxyWorker.keeps_lootNewResourceParts hloot).served hs) trivial
  | notify fd =>
      obtain rfl := Option.some.inj hstep
      exact iff_of_true ((s.worker.keeps_addWrite fd).served hs) trivial
  | close fd =>
      obtain rfl := Option.some.inj hstep
      exact iff_of_true (ProxyWorker.served_closeConnection hs fd) trivial

end Runs

/-- Every server is served in every state of a run if and only if no request makes a connection at
once in it and no connection for a request fails. -/
theorem requestsServed_iff (parse : M → Option HttpRequest) (hist : List (RequestAct M))
    (s : RequestState M) :
    Lts.Run RequestState.Init (fun s act s' => s.Step parse act s' ∧ s'.worker.Served) hist s ↔
      Lts.Run RequestState.Init (fun s act s' => s.Step parse act s' ∧ act.Meets parse s)
        hist s := by
  refine Lts.Run.iff_of_invariant (I := fun s => s.worker.Served) ?_ ?_ ?_
  · intro s hinit fd server hserver
    rw [hinit fd] at hserver
    simp at hserver
  · intro s act s' hs hstep
    exact RequestState.served_iff_meets hs hstep
  · intro s act s' hs hstep hmeets
    exact (RequestState.served_iff_meets hs hstep).mpr hmeets

def requestExample : RequestState ℕ where
  worker := {
    id := 0
    clients := fun fd => if fd = 4 then some .new else none
    servers := fun _ => none
    readSet := fun fd => fd == 4
    writeSet := fun _ => false
    dnsMap := fun host => host == "a" }
  keepsLock := false

/-- The connection to the server is there at once, and the request for it waits in no set. -/
theorem not_requestsServed_at_once :
    ∃ s : RequestState ℕ, Lts.Run RequestState.Init
      (RequestState.Step fun _ => some ⟨"GET", "http://a/", [("Host", "a")]⟩)
      [.request 4 10 (fun _ => none) ⟨some 5, true, true, .connected⟩] s ∧ ¬s.worker.Served := by
  obtain ⟨s, hrun, hserver, hset⟩ := Lts.exists_run
    (RequestState.exec fun _ => some ⟨"GET", "http://a/", [("Host", "a")]⟩)
    [.request 4 10 (fun _ => none) ⟨some 5, true, true, .connected⟩]
    (fun s => s.worker.servers 5 = some ⟨[10], true, "http://a/"⟩ ∧ s.worker.writeSet 5 = false)
    (show requestExample.Init from fun _ => rfl) (by decide +kernel)
  refine ⟨s, hrun, fun hserved => ?_⟩
  have := hserved 5 _ hserver (by simp)
  rw [hset] at this
  simp at this

end PosixThreads
