import PosixThreads.ProxyWorker.Response

/-!
# The thread-per-connection proxy

Here every client has a thread, and so has every resource that is being downloaded. The threads of
the clients wait for the parts of a resource in `eventfd_read`, all on one event in semaphore mode,
which the thread of the server posts as often as the resource has subscribers. A list of parts, a
status, a number of subscribers and the counter of the event are all that the threads have in common
then; each access to one of them is a step.

`handleResponse` is split into what it works out from the data that only the server's thread uses,
and the accesses that follow from that. A process that an assertion or an exception ends makes no
further steps.
-/

namespace PosixThreads

def StatusCode.completed : ℤ := 1

namespace MultithreadProxy

/-! ## The server -/

/-- What only the thread of the server uses of `SimpleResource`. -/
structure Download where
  fullData : Option Message
  currentLength : ℕ
  contentLength : ℕ
  deriving DecidableEq, Repr

/-- The accesses of the server's thread to what it shares: to add a part, to set the status to
`COMPLETED`, and both halves of `notifySubscribers`. -/
inductive ServerStep
  | add (part : Part)
  | count
  | post
  | complete
  deriving DecidableEq, Repr

/-- How `handleResponse` goes on: the download behind it, the accesses, and the return code. -/
structure Handled where
  download : Download
  steps : List ServerStep
  code : ℤ
  deriving DecidableEq, Repr

namespace Download

def new : Download := ⟨none, 0, 0⟩

/-- The end of `handleResponse` for a response that has been parsed. `full` is the message that the
parser was given. -/
def afterParse (completed : Bool) (d : Download) (full : Message) (part : Part) :
    ParseResult × Response → Option Handled
  | (.error, _) => return ⟨d, [.add part], StatusCode.fail⟩
  | (.incompleted, response) => do
      let length? ← response.expectedLength full
      assertThat !completed
      return ⟨{ d with contentLength := length?.getD d.contentLength },
        [.add part, .count, .post], StatusCode.success⟩
  | (.completed, _) => do
      let _ ← d.fullData
      return ⟨{ d with fullData := none }, [.add part, .count, .post, .complete],
        StatusCode.completed⟩

/-- `handleResponse` behind the place where the part has been added to the full data. -/
def account (parse : ResponseParser) (completed : Bool) (d : Download) (full : Message)
    (part : Part) : Option Handled :=
  let d := { d with currentLength := d.currentLength + part.data.length }
  if d.currentLength < d.contentLength then
    return ⟨d, [.add part, .count, .post], StatusCode.success⟩
  else if d.contentLength == d.currentLength && decide (0 < d.currentLength) then
    return ⟨{ d with fullData := none }, [.add part, .complete, .count, .post],
      StatusCode.completed⟩
  else d.afterParse completed full part (parse full.data)

/-- `handleResponse`. The status of the resource, which only the server changes, is given. -/
def handleResponse (parse : ResponseParser) (memory : ℕ → Bool) (completed : Bool) (d : Download)
    (part : Part) : Option Handled :=
  if part.data.isEmpty then return ⟨d, [], StatusCode.success⟩
  else if d.contentLength == 0 then do
    let (added, full, fullData) ← addToFullData memory part d.fullData
    let d := { d with fullData := some fullData }
    if added then d.account parse completed full part
    else return ⟨d, [.add part], StatusCode.fail⟩
  else d.account parse completed part.toMessage part

end Download

/-- The thread of the server. It has handled the last part when there are no steps left, and goes on
reading then if `code` is `SUCCESS`. -/
structure ServerThread where
  download : Download
  steps : List ServerStep
  code : ℤ
  postCount : ℕ
  deriving DecidableEq, Repr

/-! ## The clients -/

/-- The next access of a client's thread, which has received `recv` parts. -/
inductive ClientThread
  /-- `getStatus` in `handleRequest`. -/
  | starts
  /-- `sendAvailableParts` in `handleRequest`, with the status that has been found. -/
  | sendsFirst (recv : ℕ) (completed : Bool)
  | subscribes (recv : ℕ)
  /-- `eventfd_read`. -/
  | reads (recv : ℕ)
  /-- `sendAvailableParts` in `run`. -/
  | sends (recv : ℕ)
  /-- `getStatus` in `run`. -/
  | asksStatus (recv : ℕ)
  /-- The comparison with the number of parts, for a resource that is complete. -/
  | asksSize (recv : ℕ)
  /-- `cancel` in `freeResources`. -/
  | leaves
  | gone
  deriving DecidableEq, Repr

structure NotifyState where
  completed : Bool
  parts : List Part
  subscribesCount : ℕ
  counter : ℕ
  server : ServerThread
  clients : List ClientThread
  deriving DecidableEq, Repr

/-- The server's thread gets a part, makes its next step or gives up, a client gets hold of the
resource, or a client's thread makes its next step. `ok` is whether what it writes or reads can be
written or read. -/
inductive NotifyAct
  | part (part : Part)
  | server
  | quit
  | spawn
  | client (i : ℕ) (ok : Bool)
  deriving DecidableEq, Repr

namespace NotifyState

def new : NotifyState where
  completed := false
  parts := []
  subscribesCount := 0
  counter := 0
  server := ⟨.new, [], StatusCode.success, 0⟩
  clients := []

def serverReads (s : NotifyState) : Bool :=
  s.server.steps.isEmpty && s.server.code == StatusCode.success

def execServer (s : NotifyState) : Option NotifyState :=
  match s.server.steps with
  | [] => none
  | step :: steps =>
      let s := { s with server := { s.server with steps := steps } }
      match step with
      | .add part => some { s with parts := s.parts ++ [part] }
      | .count => some { s with server := { s.server with
          postCount := if s.subscribesCount = 0 then 1 else s.subscribesCount } }
      | .post => some { s with counter := s.counter + s.server.postCount }
      | .complete => some { s with completed := true }

def setClient (s : NotifyState) (i : ℕ) (client : ClientThread) : NotifyState :=
  { s with clients := s.clients.set i client }

def execClient (s : NotifyState) (i : ℕ) (ok : Bool) : ClientThread → Option NotifyState
  | .starts => some (s.setClient i (.sendsFirst 0 s.completed))
  | .sendsFirst recv completed =>
      -- What `sendAvailableParts` returns is not looked at here.
      if recv < s.parts.length && ok then
        some (s.setClient i (.sendsFirst (recv + 1) completed))
      else
        let recv := if recv < s.parts.length then recv + 1 else recv
        some (s.setClient i (if completed then .leaves else .subscribes recv))
  | .subscribes recv =>
      some ({ s with subscribesCount := s.subscribesCount + 1 }.setClient i (.reads recv))
  | .reads recv =>
      if !ok then some (s.setClient i .leaves)
      else if s.counter = 0 then none
      else some ({ s with counter := s.counter - 1 }.setClient i (.sends recv))
  | .sends recv =>
      if recv < s.parts.length then
        some (s.setClient i (if ok then .sends (recv + 1) else .leaves))
      else some (s.setClient i (.asksStatus recv))
  | .asksStatus recv =>
      some (s.setClient i (if s.completed then .asksSize recv else .reads recv))
  | .asksSize recv =>
      some (s.setClient i (if recv = s.parts.length then .leaves else .reads recv))
  | .leaves =>
      some ({ s with subscribesCount := s.subscribesCount - 1 }.setClient i .gone)
  | .gone => none

def exec (parse : ResponseParser) (memory : ℕ → Bool) (s : NotifyState) :
    NotifyAct → Option NotifyState
  | .part part => do
      assertThat s.serverReads
      let handled ← s.server.download.handleResponse parse memory s.completed part
      return { s with server := { s.server with
        download := handled.download
        steps := handled.steps
        code := handled.code } }
  | .server => s.execServer
  | .quit => do
      assertThat s.serverReads
      return { s with server := { s.server with code := StatusCode.fail } }
  | .spawn => some { s with clients := s.clients ++ [.starts] }
  | .client i ok => do s.execClient i ok (← s.clients[i]?)

end NotifyState

end MultithreadProxy

end PosixThreads
