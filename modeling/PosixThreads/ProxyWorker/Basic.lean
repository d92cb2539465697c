import Mathlib.Data.Nat.Notation
import Mathlib.Data.Int.Notation
import Mathlib.Logic.Function.Basic
import PosixThreads.Common.Error

/-!
# The worker proxy

A worker of the proxy serves its clients from the cache, which it shares with the other workers,
and fetches what is not there from a server. Messages are known by their addresses or by whatever
else they can be told apart by. What the system answers to a call is given with the call, and a
call that fails an assertion is `none`.

`lock` and `unlock` of the cache are the only use of its mutex, and `readClientRequest` is the only
place where they occur. It is therefore split into the part in front of `lock` and the part behind
it. Deleting messages is left out.
-/

namespace PosixThreads

namespace StatusCode

def fail : ℤ := -1

def success : ℤ := 0

end StatusCode

/-- What `readClientRequest` reads of a request that has been parsed. -/
structure HttpRequest where
  method : String
  uri : String
  headers : List (String × String)
  deriving DecidableEq, Repr

/-- `ClientInfo`, with the messages that have been written to the client since its request. -/
structure ClientInfo (M : Type) where
  msgQueue : List M
  resName : String
  recvMsgCount : ℕ
  written : List M
  deriving DecidableEq, Repr

structure ServerInfo (M : Type) where
  msgQueue : List M
  connected : Bool
  resName : String
  deriving DecidableEq, Repr

/-- `ResourceInfo`. `completed` is whether the status is `ParsingCompleted`, and a subscriber is a
worker and a descriptor. -/
structure ResourceInfo (M : Type) where
  completed : Bool
  parts : List M
  subscribers : List (ℕ × ℕ)
  deriving DecidableEq, Repr

abbrev CacheTable (M : Type) := String → Option (ResourceInfo M)

/-- `ProxyWorker`, known by a number. `dnsMap` says which hosts have an address. -/
structure ProxyWorker (M : Type) where
  id : ℕ
  clients : ℕ → Option (ClientInfo M)
  servers : ℕ → Option (ServerInfo M)
  readSet : ℕ → Bool
  writeSet : ℕ → Bool
  dnsMap : String → Bool

inductive ConnectResult
  | connected
  | inProgress
  | failed
  deriving DecidableEq, Repr

structure ConnectAnswers where
  socket : Option ℕ
  nonblocking : Bool
  resolves : Bool
  connect : ConnectResult
  deriving DecidableEq, Repr

variable {M : Type}

def ClientInfo.new : ClientInfo M := ⟨[], "", 0, []⟩

def ResourceInfo.new : ResourceInfo M := ⟨false, [], []⟩

def HttpRequest.host? (request : HttpRequest) : Option String :=
  (request.headers.find? (·.1 = "Host")).map Prod.snd

namespace ProxyWorker

def addWrite (w : ProxyWorker M) (fd : ℕ) : ProxyWorker M :=
  { w with writeSet := Function.update w.writeSet fd true }

def removeWrite (w : ProxyWorker M) (fd : ℕ) : ProxyWorker M :=
  { w with writeSet := Function.update w.writeSet fd false }

def addRead (w : ProxyWorker M) (fd : ℕ) : ProxyWorker M :=
  { w with readSet := Function.update w.readSet fd true }

def setClient (w : ProxyWorker M) (fd : ℕ) (client : ClientInfo M) : ProxyWorker M :=
  { w with clients := Function.update w.clients fd (some client) }

def setServer (w : ProxyWorker M) (fd : ℕ) (server : ServerInfo M) : ProxyWorker M :=
  { w with servers := Function.update w.servers fd (some server) }

/-! ## Requests -/

/-- `beginConnectToServer` with `HTTP_PORT`, which is a valid port. The descriptor is `none` if it
fails. -/
def beginConnectToServer (w : ProxyWorker M) (hostname : String) (answers : ConnectAnswers) :
    Option ℕ × ProxyWorker M :=
  match answers.socket with
  | none => (none, w)
  | some sd =>
      if !answers.nonblocking then (none, w)
      else if !w.dnsMap hostname && !answers.resolves then (none, w)
      else
        let w := { w with dnsMap := Function.update w.dnsMap hostname true }
        match answers.connect with
        | .failed => (none, w)
        | .inProgress => (some sd, (w.addWrite sd).setServer sd ⟨[], false, ""⟩)
        | .connected => (some sd, (w.addRead sd).setServer sd ⟨[], true, ""⟩)

/-- Where `readClientRequest` has got to before it locks the cache. -/
inductive RequestStart
  | returned (code : ℤ)
  | locks (request : HttpRequest)
  deriving DecidableEq, Repr

/-- `readClientRequest` up to `cache->lock()`. -/
def beginRequest (parse : M → Option HttpRequest) (w : ProxyWorker M) (fd : ℕ) (message : M) :
    Option (RequestStart × ProxyWorker M) := do
  let client ← w.clients fd
  let client := { client with
    msgQueue := []
    recvMsgCount := 0
    written := [] }
  match parse message with
  | none => return (.returned StatusCode.fail, w.setClient fd client)
  | some request =>
      let w := w.setClient fd { client with resName := request.uri }
      if request.method ≠ "GET" then return (.returned StatusCode.success, w)
      else return (.locks request, w)

/-- What is left of the cache and of the worker when `readClientRequest` returns, and whether it
has called `cache->unlock()`. -/
structure RequestEnd (M : Type) where
  code : ℤ
  unlocked : Bool
  table : CacheTable M
  worker : ProxyWorker M

/-- The resource is in the cache: a client subscribes to it unless it is complete. -/
def answerFromCache (w : ProxyWorker M) (fd : ℕ) (request : HttpRequest) (table : CacheTable M)
    (res : ResourceInfo M) : RequestEnd M where
  code := StatusCode.success
  unlocked := true
  table :=
    if res.completed then table
    else Function.update table request.uri
      (some { res with subscribers := res.subscribers ++ [(w.id, fd)] })
  worker := if res.parts.isEmpty then w else w.addWrite fd

/-- The resource is not in the cache: it is fetched from the server with the name that the first
`Host` header gives. -/
def fetchFromServer (w : ProxyWorker M) (fd : ℕ) (message : M) (request : HttpRequest)
    (table : CacheTable M) (answers : ConnectAnswers) : RequestEnd M :=
  match request.host? with
  | none => ⟨StatusCode.fail, false, table, w⟩
  | some host =>
      match w.beginConnectToServer host answers with
      | (none, w) => ⟨StatusCode.fail, false, table, w⟩
      | (some sd, w) =>
          let connected := (w.servers sd).any ServerInfo.connected
          ⟨sd, true, Function.update table request.uri
            (some { ResourceInfo.new with subscribers := [(w.id, fd)] }),
            w.setServer sd ⟨[message], connected, request.uri⟩⟩

/-- `readClientRequest` from `cache->lock()` on. -/
def finishRequest (w : ProxyWorker M) (fd : ℕ) (message : M) (request : HttpRequest)
    (table : CacheTable M) (answers : ConnectAnswers) : RequestEnd M :=
  match table request.uri with
  | some res => w.answerFromCache fd request table res
  | none => w.fetchFromServer fd message request table answers

/-- `readClientRequest` of a worker that gets the lock at once. The last component is whether it
returns without holding it. -/
def readClientRequest (parse : M → Option HttpRequest) (w : ProxyWorker M) (fd : ℕ) (message : M)
    (table : CacheTable M) (answers : ConnectAnswers) : Option (ℤ × Bool) := do
  match ← w.beginRequest parse fd message with
  | (.returned code, _) => return (code, true)
  | (.locks request, w) =>
      let done := w.finishRequest fd message request table answers
      return (done.code, done.unlocked)

/-! ## Answers -/

/-- The queue of a client after `lootNewResourceParts`. It is `none` if the copy begins behind the
end of the parts. -/
def lootQueue (table : CacheTable M) (client : ClientInfo M) : Option (List M) :=
  match table client.resName with
  | none => some client.msgQueue
  | some res =>
      if client.msgQueue.isEmpty then do
        assertThat (client.recvMsgCount ≤ res.parts.length)
        return res.parts.drop client.recvMsgCount
      else some client.msgQueue

def lootNewResourceParts (table : CacheTable M) (w : ProxyWorker M) (fd : ℕ) (reset : Bool) :
    Option (ProxyWorker M) :=
  match w.clients fd with
  | none => some w
  | some client => do
      let queue ← lootQueue table client
      let w := w.setClient fd { client with msgQueue := queue }
      return if reset && !queue.isEmpty then w.addWrite fd else w

/-- The part of `writeMessageTo` for a server. `finished` is the answer of `finishConnectToServer`
and `written` that of `WriteAll`. -/
def writeToServer (w : ProxyWorker M) (fd : ℕ) (server : ServerInfo M) (finished written : Bool) :
    ℤ × ProxyWorker M :=
  if !server.connected then
    if !finished then (StatusCode.success, w)
    else
      let w := (w.addRead fd).setServer fd { server with connected := true }
      (StatusCode.success, if server.msgQueue.isEmpty then w else w.addWrite fd)
  else
    match server.msgQueue with
    | [] => (StatusCode.success, w)
    | _ :: queue =>
        let w := w.setServer fd { server with msgQueue := queue }
        let w := if queue.isEmpty then w else w.addWrite fd
        (if written then StatusCode.success else StatusCode.fail, w)

/-- The part of `writeMessageTo` for a client. -/
def writeToClient (table : CacheTable M) (w : ProxyWorker M) (fd : ℕ) (written : Bool) :
    Option (ℤ × ProxyWorker M) := do
  let w ← lootNewResourceParts table w fd false
  let client ← w.clients fd
  match client.msgQueue with
  | [] => return (StatusCode.success, w)
  | msg :: queue =>
      let w := if queue.isEmpty then w else w.addWrite fd
      if written then
        return (StatusCode.success, w.setClient fd { client with
          msgQueue := queue
          recvMsgCount := client.recvMsgCount + 1
          written := client.written ++ [msg] })
      else return (StatusCode.fail, w.setClient fd { client with msgQueue := queue })

def writeMessageTo (table : CacheTable M) (w : ProxyWorker M) (fd : ℕ)
    (finished written : Bool) : Option (ℤ × ProxyWorker M) := do
  let w := w.removeWrite fd
  match w.servers fd with
  | some server => do
      assertThat (w.clients fd).isNone
      return w.writeToServer fd server finished written
  | none =>
      if (w.clients fd).isSome then w.writeToClient table fd written
      else return (StatusCode.success, w)

end ProxyWorker

end PosixThreads
