import PosixThreads.Library.Lts
import PosixThreads.Waxy.Cache.Commit

/-!
# Relaying a response

`upstream_on_read` gets what an upstream has sent piece by piece. It copies the pieces until the
header of the response is complete, commits the entry if the status is 200, and writes every
piece to the entry. At the end of the stream it completes the entry.

A call of `upstream_on_read` is cut at its calls of the cache, and the other users of the cache
come in between. The parser is `phr_parse_response`, of which only `PhrSound` is known. It is
called again with every piece, and is told how much of the copy it has seen before.
-/

namespace PosixThreads

/-- The answers of `phr_parse_response`: `-2`, `-1`, or the length of the header. -/
inductive PhrResult
  | incomplete
  | invalid
  | parsed (count : ℕ) (status : ℤ)
  deriving DecidableEq, Repr

/-- `phr_parse_response`, with the bytes and `last_len`. -/
abbrev PhrParse := List UInt8 → ℕ → PhrResult

/-- A header that has been parsed, or that is not valid, stays as it is when more bytes follow.
The argument `last_len`, the length of what was not complete before, may be used to answer sooner
that the header is not complete, but only if it is not, or that it is not valid. -/
structure PhrSound (parse : PhrParse) : Prop where
  empty : parse [] 0 = .incomplete
  append : ∀ {bytes : List UInt8} {count : ℕ} {status : ℤ} (more : List UInt8),
    parse bytes 0 = .parsed count status → parse (bytes ++ more) 0 = .parsed count status
  invalid : ∀ {bytes : List UInt8} (more : List UInt8),
    parse bytes 0 = .invalid → parse (bytes ++ more) 0 = .invalid
  shortcut : ∀ {bytes more : List UInt8},
    (∀ count status, parse bytes 0 ≠ .parsed count status) →
    parse (bytes ++ more) bytes.length = .invalid → parse (bytes ++ more) 0 = .invalid
  sound : ∀ {bytes : List UInt8} {lastLen count : ℕ} {status : ℤ},
    parse bytes lastLen = .parsed count status → parse bytes 0 = .parsed count status
  complete : ∀ {bytes more : List UInt8} {count : ℕ} {status : ℤ},
    (∀ count status, parse bytes 0 ≠ .parsed count status) →
    parse (bytes ++ more) 0 = .parsed count status →
    parse (bytes ++ more) bytes.length = .parsed count status

/-- `upstream_ctx_t`, as far as `upstream_on_read` uses it. -/
structure UpstreamCtx where
  buf : List UInt8
  wr : ℕ
  responseParsed : Bool
  deriving DecidableEq, Repr

/-- Why `upstream_on_read` has unregistered its handler. -/
inductive RelayEnd
  | noMemory
  | abruptEnd
  | invalidResponse
  | writeError
  | complete
  deriving DecidableEq, Repr

/-- Where the relay is: between two calls of `upstream_on_read`, at a call of the cache, or at the
end. -/
inductive RelayPc
  | waiting
  | commits (slice : List UInt8) (eof : Bool)
  | writes (slice : List UInt8) (eof : Bool)
  | completes
  | unregistered (cause : RelayEnd)
  deriving DecidableEq, Repr

structure Relay where
  ctx : UpstreamCtx
  pc : RelayPc
  world : World
  deriving DecidableEq, Repr

/-- The write handle that an operation uses. -/
def CacheOp.wrHandle : CacheOp → Option ℕ
  | .write wr _ => some wr
  | .commit wr => some wr
  | .complete wr => some wr
  | .wrFree wr => some wr
  | _ => none

/-- A piece arrives, with the answer of the allocator for the copy of it, or the relay goes on, or
another user of the cache does something. -/
inductive RelayAct
  | read (slice : List UInt8) (eof memory : Bool)
  | call
  | other (op : CacheOp)
  deriving DecidableEq, Repr

namespace Relay

def copies (r : Relay) (slice : List UInt8) (memory : Bool) : Bool :=
  memory && r.ctx.buf.length + slice.length < ptrdiffMax

/-- `upstream_on_read` up to the first call of the cache. -/
def onRead (parse : PhrParse) (r : Relay) (slice : List UInt8) (eof memory : Bool) : Relay :=
  if r.ctx.responseParsed then { r with pc := .writes slice eof }
  else if r.copies slice memory then
    let lastLen := r.ctx.buf.length
    let buf := r.ctx.buf ++ slice
    match parse buf lastLen with
    | .incomplete =>
        { r with
          ctx := { r.ctx with buf := buf }
          pc := if eof then .unregistered .abruptEnd else .writes slice eof }
    | .invalid =>
        { r with
          ctx := { r.ctx with buf := buf }
          pc := .unregistered .invalidResponse }
    | .parsed _ status =>
        { r with
          ctx := { r.ctx with buf := [], responseParsed := true }
          pc := if status = 200 then .commits slice eof else .writes slice eof }
  else { r with pc := .unregistered .noMemory }

/-- `upstream_on_read` from one call of the cache to the next one. The error of a commit is only
logged. -/
def call (alloc : Alloc) (r : Relay) : Option Relay :=
  match r.pc with
  | .commits slice eof => do
      let (_, w) ← r.world.cacheWrCommit alloc r.ctx.wr
      return { r with world := w, pc := .writes slice eof }
  | .writes slice eof => do
      let (err, w) ← r.world.cacheWrWrite alloc r.ctx.wr slice
      return { r with
        world := w
        pc := if err.isSome then .unregistered .writeError
          else if eof then .completes else .waiting }
  | .completes => do
      let w ← r.world.cacheWrComplete r.ctx.wr
      return { r with world := w, pc := .unregistered .complete }
  | .waiting => none
  | .unregistered _ => none

def exec (alloc : Alloc) (parse : PhrParse) (r : Relay) : RelayAct → Option Relay
  | .read slice eof memory =>
      if r.pc = .waiting then some (r.onRead parse slice eof memory) else none
  | .call => r.call alloc
  | .other op =>
      if op.wrHandle = some r.ctx.wr then none
      else do
        let (_, w) ← r.world.exec alloc op
        return { r with world := w }

end Relay

structure RelayStep where
  before : Relay
  act : RelayAct
  deriving DecidableEq, Repr

/-- A relay starts with a write handle to an entry with nothing in it. -/
structure RelayStart (alloc : Alloc) (a : ℕ) (r : Relay) : Prop where
  run : ∃ hist, Run alloc hist r.world
  handle : r.world.wrEntry r.ctx.wr = some a
  entry : ∀ {e : CacheEntry}, r.world.entry a = some e →
    e.buf = [] ∧ e.state = .entryPartial ∧ e.committed = false
  buf_eq : r.ctx.buf = []
  parsed_eq : r.ctx.responseParsed = false
  pc_eq : r.pc = .waiting

def Relay.Step (alloc : Alloc) (parse : PhrParse) (r : Relay) (s : RelayStep) (r' : Relay) :
    Prop :=
  s.before = r ∧ r.exec alloc parse s.act = some r'

/-! ## What a run has done -/

def RelayStep.slice (s : RelayStep) : Option (List UInt8) :=
  match s.act with
  | .read slice _ _ => some slice
  | _ => none

def arrived (hist : List RelayStep) : List (List UInt8) := hist.filterMap RelayStep.slice

def ended (hist : List RelayStep) : Bool :=
  hist.any fun s => match s.act with
    | .read _ eof _ => eof
    | _ => false

def RelayStep.isCommit (s : RelayStep) : Bool :=
  match s.act, s.before.pc with
  | .call, .commits _ _ => true
  | _, _ => false

/-- The pieces before the one with which the relay has failed, or which it has not written yet. -/
def RelayPc.relayed (slices : List (List UInt8)) : RelayPc → List (List UInt8)
  | .waiting => slices
  | .completes => slices
  | .unregistered .complete => slices
  | _ => slices.dropLast

def RelayPc.between : RelayPc → Bool
  | .waiting => true
  | .unregistered _ => true
  | _ => false

/-- A part of the bytes is a header with the status. -/
def HeaderStatus (parse : PhrParse) (bytes : List UInt8) (status : ℤ) : Prop :=
  ∃ header count, header <+: bytes ∧ parse header 0 = .parsed count status

def RelayStep.cacheSucceeds (alloc : Alloc) (s : RelayStep) : Bool :=
  match s.act, s.before.pc with
  | .call, .commits _ _ =>
      (s.before.world.cacheWrCommit alloc s.before.ctx.wr).any fun x => x.1.isNone
  | .call, .writes slice _ =>
      (s.before.world.cacheWrWrite alloc s.before.ctx.wr slice).any fun x => x.1.isNone
  | _, _ => true

def RelayStep.copySucceeds (s : RelayStep) : Bool :=
  match s.act with
  | .read slice _ memory => s.before.ctx.responseParsed || s.before.copies slice memory
  | _ => true

/-- The cache returns no errors, and what has to be copied can be. -/
def RelayStep.succeeds (alloc : Alloc) (s : RelayStep) : Bool :=
  s.cacheSucceeds alloc && s.copySucceeds

/-- A commit finds no entry with the URL in the cache. -/
def RelayStep.findsNothing (a : ℕ) (s : RelayStep) : Bool :=
  !s.isCommit || (s.before.world.entry a).any fun e => (s.before.world.boundEntry e.url).isNone

/-- In addition no other entry is in the way of a commit. -/
def RelayStep.takesIn (alloc : Alloc) (a : ℕ) (s : RelayStep) : Bool :=
  s.succeeds alloc && s.findsNothing a

/-- What is relayed, when the entry is committed and when it is completed. If all steps are `ok` or
`okCommit`, this depends on the stream only and not on how it has been cut: nothing of a stream
with a header is turned down. -/
structure RelaySound (alloc : Alloc) (parse : PhrParse) (ok okCommit : RelayStep → Bool) (a : ℕ)
    (hist : List RelayStep) (r : Relay) : Prop where
  returns : r.pc.between = true ∨ (r.call alloc).isSome = true
  buffer : ∃ e, r.world.entry a = some e ∧ e.buf = (r.pc.relayed (arrived hist)).flatten
  once : hist.countP RelayStep.isCommit ≤ 1
  accepted : (∀ s ∈ hist, ok s = true) → r.pc.between = true → ∀ stream status,
    (arrived hist).flatten <+: stream → HeaderStatus parse stream status →
    r.pc = .waiting ∨ ended hist = true
  committed : (∀ s ∈ hist, okCommit s = true) → r.pc.between = true → ∀ status e,
    HeaderStatus parse (arrived hist).flatten status → r.world.entry a = some e →
    (e.committed = true ↔ status = 200)
  completed : (∀ s ∈ hist, ok s = true) → r.pc.between = true → ∀ status e,
    HeaderStatus parse (arrived hist).flatten status → r.world.entry a = some e →
    (e.state = .entryComplete ↔ ended hist = true)

end PosixThreads
