import PosixThreads.HttpAio.Output
import PosixThreads.Library.Lts

/-!
# The printer

This is `run_printer`, which reads a response asynchronously into a buffer and shows it, page by
page if it talks to a terminal. A turn is one round of its loop. The `Answers` are what the system
says in that round, and the bytes that it has stored meanwhile: a read that is under way puts them
where it was told to when it was posted, whatever has become of the buffer since.

The sizes are parameters; `PrinterSizes.source` has those of the program. What is shown is a list
of what is written to the standard output, with the prompts and their erasure in between.
-/

namespace PosixThreads

namespace HttpAio

/-- `INITIAL_BUF_SIZE`, `MIN_READ_SIZE` and `LINE_LIMIT`. -/
structure PrinterSizes where
  initialBufSize : ℕ
  minReadSize : ℕ
  lineLimit : ℕ
  deriving DecidableEq, Repr

def PrinterSizes.source : PrinterSizes := ⟨4194304, 1048576, 25⟩

/-! ## Asynchronous reads -/

/-- What `aio_error` and `aio_return` say of a read. A number in an error is that of `errno`. -/
inductive AioStatus
  | unknown (errno : ℕ)
  | inProgress
  | failed (errno : ℕ)
  | notReturned (errno : ℕ)
  | done (count : ℕ)
  deriving DecidableEq, Repr

/-- `finalize_async_read`: how many bytes have been read, unless the read is under way. -/
def finalizeAsyncRead : AioStatus → Except PrinterErr (Option ℕ)
  | .unknown errno => .error (.posix (some "the read operation failed") errno "aio_error(3) failed")
  | .inProgress => .ok none
  | .failed errno =>
      .error (.posix (some "the read operation failed") errno
        "aio_error(3) indicated an error condition")
  | .notReturned errno =>
      .error (.posix (some "failed to finalize reading from the signal pipe") errno
        "aio_return(3) failed")
  | .done count => .ok (some count)

/-- A posted read of the socket: `aio_buf`, as an offset in the buffer, and `aio_nbytes`. -/
structure AioRead where
  aioBuf : ℕ
  aioNbytes : ℕ
  deriving DecidableEq, Repr

/-- `wrapper_aio_read`, with the number of the error. -/
def aioRead (answer : Option ℕ) : Except PrinterErr Unit :=
  match answer with
  | some errno =>
      .error (.posix (some "failed to post an aio request") errno "aio_read(3) failed")
  | none => .ok ()

inductive Shown
  | cells (cells : List Cell)
  | prompt
  | erased
  deriving DecidableEq, Repr

/-! ## Lines -/

/-- What is behind the line feed that `memchr` finds; it does not look at the last byte. -/
def lineEnd (cells : List Cell) : Option ℕ :=
  (cells.dropLast.findIdx? (· == some 0x0a)).map (· + 1)

/-- The loop of `print_lines`, where `left` lines are missing to `LINE_LIMIT`: how many bytes it
goes through and how many lines are missing then. -/
def takeLines : ℕ → List Cell → ℕ × ℕ
  | 0, _ => (0, 0)
  | left + 1, [] => (0, left + 1)
  | left + 1, cells =>
      match lineEnd cells with
      | none => (cells.length, left + 1)
      | some n =>
          let rest := takeLines left (cells.drop n)
          (n + rest.1, rest.2)

/-- The loop of `has_full_page`, likewise. -/
def fullPage : ℕ → List Cell → Bool
  | 0, _ => true
  | _ + 1, [] => false
  | left + 1, cells =>
      match lineEnd cells with
      | none => false
      | some n => fullPage left (cells.drop n)

def Buf.readable (self : Buf) : Option (List Cell) :=
  Block.read self.buf self.readPos self.availableReadSize

def hasFullPage (sizes : PrinterSizes) (response : Buf) : Option Bool := do
  return fullPage sizes.lineLimit (← response.readable)

/-! ## The printer -/

/-- What the system says in one turn: an error of `aio_suspend`; the status of each of the three
reads; the signal, the bytes of the socket and the input that have been stored; errors of
`aio_read`; whether there is memory for the buffer; the answers of `write`. -/
structure Answers where
  suspend : Option ℕ
  signal : AioStatus
  sigint : Bool
  signalPost : Option ℕ
  sock : AioStatus
  stored : List UInt8
  room : Bool
  sockPost : Option ℕ
  stdin : AioStatus
  typed : List UInt8
  stdinPost : Option ℕ
  writes : List (Except ℕ ℕ)

/-- The variables of `run_printer`. The `await_entry` of a read is `NULL` if it is not posted. A
function that has returned has a result, which is an error or `OK`. -/
structure Printer where
  lineCount : ℕ
  waitingForUser : Bool
  waitingForServer : Bool
  running : Bool
  eof : Bool
  shouldPaginate : Bool
  response : Buf
  signalAwait : Bool
  sockAwait : Option AioRead
  stdinAwait : Bool
  result : Option (Option PrinterErr)
  deriving DecidableEq, Repr

namespace Printer

/-- `buf_free` and `return error`. -/
def returned (self : Printer) (error : Option PrinterErr) : Printer :=
  { self with response := self.response.free, result := some error }

def signalDataRequest (answer : Option ℕ) (self : Printer) : Except PrinterErr Printer :=
  (aioRead answer).map fun _ => { self with signalAwait := true }

def stdinDataRequest (answer : Option ℕ) (self : Printer) : Except PrinterErr Printer :=
  (aioRead answer).map fun _ => { self with stdinAwait := true }

/-- The room that `sock_data_request` makes. -/
def makeRoom (sizes : PrinterSizes) (room : Bool) (response : Buf) : Option (Option Err × Buf) :=
  if response.immediatelyAvailableWriteSize < sizes.minReadSize then do
    let (error, response) ← response.ensureEnoughWriteSpace room sizes.initialBufSize
    return (errFromErr error none, response)
  else some (none, response)

def sockDataRequest (sizes : PrinterSizes) (room : Bool) (answer : Option ℕ) (self : Printer) :
    Option (Except PrinterErr Printer) := do
  let (error, response) ← makeRoom sizes room self.response
  match error with
  | some error => return .error (.plain error)
  | none =>
      return (aioRead answer).map fun _ =>
        { self with
          response := response
          sockAwait := some ⟨response.writePos, response.immediatelyAvailableWriteSize⟩ }

def signalDataProcess (a : Answers) (self : Printer) : Except PrinterErr Printer :=
  if self.signalAwait then
    match finalizeAsyncRead a.signal with
    | .error error => .error (.err (some "reading from the signal pipe failed") error)
    | .ok none => .ok self
    | .ok (some 0) => .error (.bool "the signal pipe was closed unexpectedly")
    | .ok (some _) =>
        wrapErr (some "failed to post a read request")
          ({ self with running := self.running && !a.sigint }.signalDataRequest a.signalPost)
  else .ok self

/-- The rest of `sock_data_process`, behind `buf_write`. -/
def sockDataCommitted (sizes : PrinterSizes) (a : Answers) (count : ℕ) (error : Option Err)
    (self : Printer) : Option (Except PrinterErr Printer) :=
  match error with
  | some error =>
      some (.error (.plain (.err (some "failed to commit received data to the buffer") error)))
  | none =>
      if count = 0 then some (.ok { self with eof := true, sockAwait := none })
      else
        (self.sockDataRequest sizes a.room a.sockPost).map
          (wrapErr (some "failed to post a read request"))

def sockDataProcess (sizes : PrinterSizes) (a : Answers) (self : Printer) :
    Option (Except PrinterErr Printer) :=
  if self.sockAwait.isSome then
    match finalizeAsyncRead a.sock with
    | .error error => some (.error (.err (some "reading from the remote host failed") error))
    | .ok none => some (.ok self)
    | .ok (some count) => do
        let (error, response) ← self.response.write (.null count)
        { self with response := response }.sockDataCommitted sizes a count error
  else some (.ok self)

/-- The assignment to `waiting_for_server`. -/
def waitForServer (sizes : PrinterSizes) (self : Printer) : Option Printer :=
  if !self.waitingForUser && self.shouldPaginate && !self.eof then do
    let full ← hasFullPage sizes self.response
    return { self with waitingForServer := !full }
  else some { self with waitingForServer := false }

/-- `stdin_data_process`. What it erases is gone even if the request behind fails. -/
def stdinDataProcess (a : Answers) (self : Printer) : List Shown × Except PrinterErr Printer :=
  if self.stdinAwait then
    match finalizeAsyncRead a.stdin with
    | .error error => ([], .error (.err (some "reading from stdin failed") error))
    | .ok none => ([], .ok self)
    | .ok (some 0) =>
        ([.erased], .ok
          { self with shouldPaginate := false, waitingForUser := false, stdinAwait := false })
    | .ok (some count) =>
        let pressed := (a.typed.take count).contains 0x20 && self.waitingForUser
        let self := { self with waitingForUser := self.waitingForUser && !pressed }
        (if pressed then [.erased] else [],
          wrapErr (some "failed to post a read request") (self.stdinDataRequest a.stdinPost))
  else ([], .ok self)

/-- `print_lines`, with what is written. Its error is not looked at. -/
def printLines (sizes : PrinterSizes) (a : Answers) (self : Printer) :
    Option (List Shown × Printer) := do
  let cells ← self.response.readable
  let (count, left) := takeLines (sizes.lineLimit - self.lineCount) cells
  let (_, _, response) ← self.response.read false count
  return ([.cells (writeAll a.writes (cells.take count)).1],
    { self with response := response, lineCount := sizes.lineLimit - left })

/-- The part of a turn behind the printing. -/
def endTurn (sizes : PrinterSizes) (self : Printer) : List Shown × Printer :=
  if self.eof && self.response.availableReadSize == 0 then ([], self.returned none)
  else
    let full := self.shouldPaginate && self.lineCount == sizes.lineLimit
    let self := if full then { self with waitingForUser := true, lineCount := 0 } else self
    (if full then [.prompt] else [], if self.running then self else self.returned none)

/-- The printing of a page, or of nothing if there is something to wait for. -/
def printPage (sizes : PrinterSizes) (a : Answers) (self : Printer) :
    Option (List Shown × Printer) := do
  let (shown, self) ←
    if !self.waitingForUser && !self.waitingForServer then self.printLines sizes a
    else some ([], self)
  let (prompt, self) := self.endTurn sizes
  return (shown ++ prompt, self)

/-- The rest of the printing of everything, behind `write_all`. -/
def printedAll (sizes : PrinterSizes) (error : Option PrinterErr) (count : ℕ) (self : Printer) :
    Option (List Shown × Printer) :=
  match error with
  | some error =>
      some ([], self.returned (some (.err (some "failed to write the received data") error)))
  | none => do
      let (error, _, response) ← self.response.read false count
      match error with
      | some error => return ([], self.returned (some (.plain error)))
      | none => return { self with response := response }.endTurn sizes

def printAll (sizes : PrinterSizes) (a : Answers) (self : Printer) :
    Option (List Shown × Printer) := do
  let cells ← self.response.readable
  let (written, error) := writeAll a.writes cells
  let (prompt, self) ← self.printedAll sizes error cells.length
  return (.cells written :: prompt, self)

def print (sizes : PrinterSizes) (a : Answers) (self : Printer) : Option (List Shown × Printer) :=
  if self.shouldPaginate then self.printPage sizes a else self.printAll sizes a

/-- The part of a turn behind `sock_data_process`. -/
def display (sizes : PrinterSizes) (a : Answers) (self : Printer) :
    Option (List Shown × Printer) := do
  let self ← self.waitForServer sizes
  let (erased, result) := self.stdinDataProcess a
  match result with
  | .error error => return (erased, self.returned (some (.err none error)))
  | .ok self =>
      let (shown, self) ← self.print sizes a
      return (erased ++ shown, self)

/-- The part of a turn behind `signal_data_process`. -/
def receive (sizes : PrinterSizes) (a : Answers) (self : Printer) :
    Option (List Shown × Printer) := do
  match ← self.sockDataProcess sizes a with
  | .error error => return ([], self.returned (some (.err none error)))
  | .ok self => self.display sizes a

/-- A read of the socket stores its bytes in the memory of the buffer. -/
def store (a : Answers) (self : Printer) : Option Printer :=
  match self.sockAwait with
  | none => some self
  | some request => do
      let buf ← Block.write self.response.buf request.aioBuf (a.stored.map some)
      return { self with response := { self.response with buf := buf } }

def turn (sizes : PrinterSizes) (a : Answers) (self : Printer) :
    Option (List Shown × Printer) := do
  let self ← self.store a
  match a.suspend with
  | some errno => return ([], self.returned (some (.posix none errno "aio_suspend(3) failed")))
  | none =>
      match self.signalDataProcess a with
      | .error error => return ([], self.returned (some (.err none error)))
      | .ok self => self.receive sizes a

def firstRequests (sizes : PrinterSizes) (a : Answers) (self : Printer) :
    Option (Except PrinterErr Printer) :=
  match wrapErr none (self.signalDataRequest a.signalPost) with
  | .error error => some (.error error)
  | .ok self =>
      match wrapErr none
          (if self.shouldPaginate then self.stdinDataRequest a.stdinPost else .ok self) with
      | .error error => some (.error error)
      | .ok self => (self.sockDataRequest sizes a.room a.sockPost).map (wrapErr none)

/-- The part of `run_printer` in front of its loop. -/
def start (sizes : PrinterSizes) (a : Answers) (shouldPaginate : Bool) :
    Option (Except PrinterErr Printer) :=
  match Buf.new a.room sizes.initialBufSize false with
  | .error error =>
      some (.error (.plain (.err (some "failed to allocate the buffer") error)))
  | .ok response =>
      firstRequests sizes a
        ⟨0, false, false, true, false, shouldPaginate, response, false, none, false, none⟩

end Printer

/-! ## Runs -/

/-- The bytes of the socket are stored where there is room for them, and there are as many as the
read says when it is done. -/
def Answers.Fits (a : Answers) (request : AioRead) : Prop :=
  a.stored.length ≤ request.aioNbytes ∧ ∀ count, a.sock = .done count → a.stored.length = count

def Answers.received (a : Answers) : List UInt8 :=
  match a.suspend, a.sock with
  | none, .done _ => a.stored
  | _, _ => []

/-- What the system may say to a printer: nothing is stored if no read of the socket is posted. -/
def Answers.Legal (a : Answers) (p : Printer) : Prop :=
  match p.sockAwait with
  | none => a.stored = []
  | some request => a.Fits request

/-- A turn of a printer that has not returned, with what is shown. -/
def PrinterStep (sizes : PrinterSizes) (p : Printer) (label : Answers × List Shown)
    (p' : Printer) : Prop :=
  p.result = none ∧ label.1.Legal p ∧ p.turn sizes label.1 = some (label.2, p')

def PrinterInit (sizes : PrinterSizes) (shouldPaginate : Bool) (p : Printer) : Prop :=
  ∃ a, Printer.start sizes a shouldPaginate = some (.ok p)

abbrev PrinterRun (sizes : PrinterSizes) (shouldPaginate : Bool) :
    List (Answers × List Shown) → Printer → Prop :=
  Lts.Run (PrinterInit sizes shouldPaginate) (PrinterStep sizes)

end HttpAio

end PosixThreads
