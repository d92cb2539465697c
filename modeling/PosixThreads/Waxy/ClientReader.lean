import PosixThreads.Library.Lts
import PosixThreads.Waxy.Cache.Basic

/-!
# The reader of a client

The context of a client is shared by its TCP handler and by its reader of the cache, which are
processed by different threads. It has a pointer to each of the two handlers, and the callback that
a handler has for its end sets the pointer to it to `NULL`. The pointers are protected by the mutex
of the context, but the callbacks of the reader unregister the TCP handler after they have given
the mutex back, and read the pointer once more for it.

Each access of the context is a step of its own. The mutex of the TCP handler, which is locked for
`tcp_write`, is left out: it makes a thread wait, but it does not protect the pointers.
-/

namespace PosixThreads

/-- Who locks the mutex of the context: `client_on_free`, a callback of the reader, or
`client_on_rd_free`. -/
inductive ClientParty
  | client
  | reader
  | readerFree
  deriving DecidableEq, Repr

/-- `client_ctx_t`, as far as it is shared: the holder of the mutex, whether the pointers to the
handlers are not `NULL`, and whether the handlers have been unregistered through them. -/
structure ClientShared where
  mtx : Option ClientParty
  tcp : Bool
  rd : Bool
  tcpUnregistered : Bool
  rdUnregistered : Bool
  deriving DecidableEq, Repr

namespace ClientShared

/-- `assert_mutex_lock` on a mutex that is free. -/
def lock (m : ClientShared) (t : ClientParty) : Option ClientShared :=
  if m.mtx = none then some { m with mtx := some t } else none

def unlock (m : ClientShared) (t : ClientParty) : Option ClientShared := do
  assertThat (m.mtx = some t)
  return { m with mtx := none }

/-- `ctx->tcp` is used as a handler. -/
def useTcp (m : ClientShared) : Option ClientShared := do
  assertThat m.tcp
  return m

/-- `handler_unregister` with `ctx->tcp`. -/
def unregisterTcp (m : ClientShared) : Option ClientShared := do
  let m ← m.useTcp
  return { m with tcpUnregistered := true }

/-- `handler_unregister` with the reader. -/
def unregisterRd (m : ClientShared) : ClientShared := { m with rdUnregistered := true }

end ClientShared

/-- Where `client_cache_on_read` is: in front of locking the mutex, of reading `ctx->tcp`, of
giving the mutex back and unregistering the reader if it is `NULL`, of allocating the buffer, of
the three calls that write it, of giving the mutex back, or of giving it back and unregistering the
client after a failure. -/
inductive ReadPc
  | lock
  | check
  | goneUnlock
  | goneUnregister
  | malloc
  | handlerLock
  | write
  | handlerUnlock (failed : Bool)
  | unlock
  | failUnlock
  | failUnregister
  deriving DecidableEq, Repr

inductive UpdatePc
  | lock
  | check
  | goneUnlock
  | goneUnregister
  | remoteInfo
  | unlock
  | invalidUnregister
  deriving DecidableEq, Repr

/-- Where `client_on_free` and `client_on_rd_free` are. Only the first one has a look at the other
pointer. -/
inductive FreePc
  | lock
  | clear
  | other
  | unlock
  | done
  deriving DecidableEq, Repr

/-- A step of `client_cache_on_read`, with the answer of `malloc` or of `tcp_write`. At the end
there is no place. -/
def clientCacheOnRead (pc : ReadPc) (ok : Bool) (m : ClientShared) :
    Option (Option ReadPc × ClientShared) :=
  match pc with
  | .lock => do return (some .check, ← m.lock .reader)
  | .check => some (some (if m.tcp then .malloc else .goneUnlock), m)
  | .goneUnlock => do return (some .goneUnregister, ← m.unlock .reader)
  | .goneUnregister => some (none, m.unregisterRd)
  | .malloc => some (some (if ok then .handlerLock else .failUnlock), m)
  | .handlerLock => do return (some .write, ← m.useTcp)
  | .write => do return (some (.handlerUnlock !ok), ← m.useTcp)
  | .handlerUnlock failed => do
      return (some (if failed then .failUnlock else .unlock), ← m.useTcp)
  | .unlock => do return (none, ← m.unlock .reader)
  | .failUnlock => do return (some .failUnregister, ← m.unlock .reader)
  | .failUnregister => do return (none, ← m.unregisterTcp)

def clientCacheOnUpdate (pc : UpdatePc) (state : CacheEntryState) (m : ClientShared) :
    Option (Option UpdatePc × ClientShared) :=
  match pc with
  | .lock => do return (some .check, ← m.lock .reader)
  | .check => some (some (if m.tcp then .remoteInfo else .goneUnlock), m)
  | .goneUnlock => do return (some .goneUnregister, ← m.unlock .reader)
  | .goneUnregister => some (none, m.unregisterRd)
  | .remoteInfo => do return (some .unlock, ← m.useTcp)
  | .unlock => do
      let m ← m.unlock .reader
      match state with
      | .entryInvalid => return (some .invalidUnregister, m)
      | .entryPartial => return (none, m)
      | .entryComplete => return (none, m)
  | .invalidUnregister => do return (none, ← m.unregisterTcp)

def clientOnFree (pc : FreePc) (m : ClientShared) : Option (FreePc × ClientShared) :=
  match pc with
  | .lock => do return (.clear, ← m.lock .client)
  | .clear => some (.other, { m with tcp := false })
  | .other => some (.unlock, if m.rd then m.unregisterRd else m)
  | .unlock => do return (.done, ← m.unlock .client)
  | .done => none

def clientOnRdFree (pc : FreePc) (m : ClientShared) : Option (FreePc × ClientShared) :=
  match pc with
  | .lock => do return (.clear, ← m.lock .readerFree)
  | .clear => some (.unlock, { m with rd := false })
  | .other => none
  | .unlock => do return (.done, ← m.unlock .readerFree)
  | .done => none

inductive ReaderPc
  | idle
  | onRead (pc : ReadPc)
  | onUpdate (pc : UpdatePc) (state : CacheEntryState)
  deriving DecidableEq, Repr

structure ClientReader where
  shared : ClientShared
  reader : ReaderPc
  clientFree : FreePc
  readerFree : FreePc
  deriving DecidableEq, Repr

/-- The loop calls a callback of the reader, or one of the three goes on. -/
inductive ReaderAct
  | beginRead
  | beginUpdate (state : CacheEntryState)
  | reader (ok : Bool)
  | clientFree
  | readerFree
  deriving DecidableEq, Repr

namespace ClientReader

def new : ClientReader := ⟨⟨none, true, true, false, false⟩, .idle, .lock, .lock⟩

/-- The reader is processed by one thread at a time, and it is not freed before that has ended. -/
def exec (s : ClientReader) : ReaderAct → Option ClientReader
  | .beginRead =>
      if s.reader = .idle ∧ s.readerFree = .lock then some { s with reader := .onRead .lock }
      else none
  | .beginUpdate state =>
      if s.reader = .idle ∧ s.readerFree = .lock then
        some { s with reader := .onUpdate .lock state }
      else none
  | .reader ok =>
      match s.reader with
      | .idle => none
      | .onRead pc => do
          let (pc, m) ← clientCacheOnRead pc ok s.shared
          return { s with
            shared := m
            reader := pc.elim .idle .onRead }
      | .onUpdate pc state => do
          let (pc, m) ← clientCacheOnUpdate pc state s.shared
          return { s with
            shared := m
            reader := pc.elim .idle fun pc => .onUpdate pc state }
  | .clientFree => do
      let (pc, m) ← clientOnFree s.clientFree s.shared
      return { s with
        shared := m
        clientFree := pc }
  | .readerFree =>
      if s.reader = .idle then do
        let (pc, m) ← clientOnRdFree s.readerFree s.shared
        return { s with
          shared := m
          readerFree := pc }
      else none

def Init (s : ClientReader) : Prop := s = new

def Step (s : ClientReader) (act : ReaderAct) (s' : ClientReader) : Prop := s.exec act = some s'

end ClientReader

def ReaderPc.usesTcp : ReaderPc → Bool
  | .onRead .handlerLock => true
  | .onRead .write => true
  | .onRead (.handlerUnlock _) => true
  | .onRead .failUnregister => true
  | .onUpdate .remoteInfo _ => true
  | .onUpdate .invalidUnregister _ => true
  | _ => false

def ReaderPc.unguarded : ReaderPc → Bool
  | .onRead .failUnregister => true
  | .onUpdate .invalidUnregister _ => true
  | _ => false

/-- `ctx->tcp` is not `NULL` where it is used as a handler. -/
def ClientReader.TcpSound (s : ClientReader) : Prop :=
  s.reader.usesTcp = true → s.shared.tcp = true

/-- `client_on_free` does not clear `ctx->tcp` while the reader uses it without the mutex. -/
def ReaderAct.waits (s : ClientReader) : ReaderAct → Bool
  | .clientFree => !(decide (s.clientFree = .clear) && s.reader.unguarded)
  | _ => true

/-! ## The mutex -/

def ReadPc.locked : ReadPc → Bool
  | .lock => false
  | .goneUnregister => false
  | .failUnregister => false
  | _ => true

def UpdatePc.locked : UpdatePc → Bool
  | .lock => false
  | .goneUnregister => false
  | .invalidUnregister => false
  | _ => true

def FreePc.locked : FreePc → Bool
  | .lock => false
  | .done => false
  | _ => true

def ReaderPc.locked : ReaderPc → Bool
  | .idle => false
  | .onRead pc => pc.locked
  | .onUpdate pc _ => pc.locked

def ReaderPc.checked : ReaderPc → Bool
  | .idle => false
  | .onRead pc => pc ≠ .lock && pc ≠ .check && pc ≠ .goneUnlock && pc ≠ .goneUnregister
  | .onUpdate pc _ => pc ≠ .lock && pc ≠ .check && pc ≠ .goneUnlock && pc ≠ .goneUnregister

namespace ClientReader

def holds (s : ClientReader) : ClientParty → Bool
  | .client => s.clientFree.locked
  | .reader => s.reader.locked
  | .readerFree => s.readerFree.locked

end ClientReader

section Mutex

variable {m m' : ClientShared} {t : ClientParty} {held held' ok : Bool}

inductive MtxStep (t : ClientParty) (m m' : ClientShared) : Bool → Bool → Prop
  | lock (hfree : m.mtx = none) (hmine : m'.mtx = some t) : MtxStep t m m' false true
  | unlock (hmine : m.mtx = some t) (hfree : m'.mtx = none) : MtxStep t m m' true false
  | keep {held : Bool} (hsame : m'.mtx = m.mtx) : MtxStep t m m' held held

theorem ClientShared.lock_eq (h : m.lock t = some m') :
    m.mtx = none ∧ m' = { m with mtx := some t } := by
  simp only [ClientShared.lock] at h
  split at h
  · exact ⟨‹_›, (Option.some.inj h).symm⟩
  · simp at h

theorem ClientShared.unlock_eq (h : m.unlock t = some m') :
    m.mtx = some t ∧ m' = { m with mtx := none } := by
  by_cases hmtx : m.mtx = some t
  · refine ⟨hmtx, ?_⟩
    simpa [ClientShared.unlock, hmtx, eq_comm] using h
  · simp [ClientShared.unlock, hmtx] at h

theorem ClientShared.useTcp_eq (h : m.useTcp = some m') : m' = m := by
  cases htcp : m.tcp with
  | true => simpa [ClientShared.useTcp, htcp, eq_comm] using h
  | false => simp [ClientShared.useTcp, htcp] at h

theorem ClientShared.unregisterTcp_eq (h : m.unregisterTcp = some m') :
    m' = { m with tcpUnregistered := true } := by
  cases htcp : m.tcp with
  | true => simpa [ClientShared.unregisterTcp, ClientShared.useTcp, htcp, eq_comm] using h
  | false => simp [ClientShared.unregisterTcp, ClientShared.useTcp, htcp] at h

/-- A step of `client_cache_on_read`: what it does to the mutex, and that it leaves `ctx->tcp` as
it is, which is not `NULL` behind the check. -/
theorem clientCacheOnRead_step {pc : ReadPc} {pc' : Option ReadPc}
    (h : clientCacheOnRead pc ok m = some (pc', m')) :
    MtxStep .reader m m' pc.locked (ReaderPc.locked (pc'.elim .idle .onRead)) ∧
      m'.tcp = m.tcp ∧
      ((pc'.elim .idle .onRead : ReaderPc).checked = true →
        (ReaderPc.onRead pc).checked = true ∨ m.tcp = true) := by
  cases pc <;> simp only [clientCacheOnRead, Option.bind_eq_bind, Option.bind_eq_some_iff,
    Option.pure_def, Option.some.injEq, Prod.mk.injEq] at h
  case lock =>
    obtain ⟨m₁, hlock, rfl, rfl⟩ := h
    obtain ⟨hfree, rfl⟩ := ClientShared.lock_eq hlock
    exact ⟨.lock hfree rfl, rfl, by simp [ReaderPc.checked]⟩
  case check =>
    obtain ⟨rfl, rfl⟩ := h
    cases htcp : m.tcp <;> exact ⟨.keep rfl, rfl, by simp [ReaderPc.checked]⟩
  case goneUnlock =>
    obtain ⟨m₁, hunlock, rfl, rfl⟩ := h
    obtain ⟨hmine, rfl⟩ := ClientShared.unlock_eq hunlock
    exact ⟨.unlock hmine rfl, rfl, by simp [ReaderPc.checked]⟩
  case goneUnregister =>
    obtain ⟨rfl, rfl⟩ := h
    exact ⟨.keep rfl, rfl, by simp [ReaderPc.checked]⟩
  case malloc =>
    obtain ⟨rfl, rfl⟩ := h
    cases ok <;> exact ⟨.keep rfl, rfl, by simp [ReaderPc.checked]⟩
  case handlerLock =>
    obtain ⟨m₁, huse, rfl, rfl⟩ := h
    obtain rfl := ClientShared.useTcp_eq huse
    exact ⟨.keep rfl, rfl, by simp [ReaderPc.checked]⟩
  case write =>
    obtain ⟨m₁, huse, rfl, rfl⟩ := h
    obtain rfl := ClientShared.useTcp_eq huse
    exact ⟨.keep rfl, rfl, by simp [ReaderPc.checked]⟩
  case handlerUnlock failed =>
    obtain ⟨m₁, huse, rfl, rfl⟩ := h
    obtain rfl := ClientShared.useTcp_eq huse
    cases failed <;> exact ⟨.keep rfl, rfl, by simp [ReaderPc.checked]⟩
  case unlock =>
    obtain ⟨m₁, hunlock, rfl, rfl⟩ := h
    obtain ⟨hmine, rfl⟩ := ClientShared.unlock_eq hunlock
    exact ⟨.unlock hmine rfl, rfl, by simp [ReaderPc.checked]⟩
  case failUnlock =>
    obtain ⟨m₁, hunlock, rfl, rfl⟩ := h
    obtain ⟨hmine, rfl⟩ := ClientShared.unlock_eq hunlock
    exact ⟨.unlock hmine rfl, rfl, by simp [ReaderPc.checked]⟩
  case failUnregister =>
    obtain ⟨m₁, hunregister, rfl, rfl⟩ := h
    obtain rfl := ClientShared.unregisterTcp_eq hunregister
    exact ⟨.keep rfl, rfl, by simp [ReaderPc.checked]⟩

theorem clientCacheOnUpdate_step {pc : UpdatePc} {state : CacheEntryState} {pc' : Option UpdatePc}
    (h : clientCacheOnUpdate pc state m = some (pc', m')) :
    MtxStep .reader m m' pc.locked
        (ReaderPc.locked (pc'.elim .idle fun pc => .onUpdate pc state)) ∧
      m'.tcp = m.tcp ∧
      ((pc'.elim .idle fun pc => .onUpdate pc state : ReaderPc).checked = true →
        (ReaderPc.onUpdate pc state).checked = true ∨ m.tcp = true) := by
  cases pc <;> simp only [clientCacheOnUpdate, Option.bind_eq_bind, Option.bind_eq_some_iff,
    Option.pure_def, Option.some.injEq, Prod.mk.injEq] at h
  case lock =>
    obtain ⟨m₁, hlock, rfl, rfl⟩ := h
    obtain ⟨hfree, rfl⟩ := ClientShared.lock_eq hlock
    exact ⟨.lock hfree rfl, rfl, by simp [ReaderPc.checked]⟩
  case check =>
    obtain ⟨rfl, rfl⟩ := h
    cases htcp : m.tcp <;> exact ⟨.keep rfl, rfl, by simp [ReaderPc.checked]⟩
  case goneUnlock =>
    obtain ⟨m₁, hunlock, rfl, rfl⟩ := h
    obtain ⟨hmine, rfl⟩ := ClientShared.unlock_eq hunlock
    exact ⟨.unlock hmine rfl, rfl, by simp [ReaderPc.checked]⟩
  case goneUnregister =>
    obtain ⟨rfl, rfl⟩ := h
    exact ⟨.keep rfl, rfl, by simp [ReaderPc.checked]⟩
  case remoteInfo =>
    obtain ⟨m₁, huse, rfl, rfl⟩ := h
    obtain rfl := ClientShared.useTcp_eq huse
    exact ⟨.keep rfl, rfl, by simp [ReaderPc.checked]⟩
  case unlock =>
    obtain ⟨m₁, hunlock, h⟩ := h
    obtain ⟨hmine, rfl⟩ := ClientShared.unlock_eq hunlock
    cases state <;> obtain ⟨rfl, rfl⟩ := h <;>
      exact ⟨.unlock hmine rfl, rfl, by simp [ReaderPc.checked]⟩
  case invalidUnregister =>
    obtain ⟨m₁, hunregister, rfl, rfl⟩ := h
    obtain rfl := ClientShared.unregisterTcp_eq hunregister
    exact ⟨.keep rfl, rfl, by simp [ReaderPc.checked]⟩

/-- A step of `client_on_free`, which clears `ctx->tcp` only with the mutex. -/
theorem clientOnFree_step {pc pc' : FreePc} (h : clientOnFree pc m = some (pc', m')) :
    MtxStep .client m m' pc.locked pc'.locked ∧ (pc ≠ .clear → m'.tcp = m.tcp) := by
  cases pc <;> simp only [clientOnFree, Option.bind_eq_bind, Option.bind_eq_some_iff,
    Option.pure_def, Option.some.injEq, Prod.mk.injEq, reduceCtorEq] at h
  case lock =>
    obtain ⟨m₁, hlock, rfl, rfl⟩ := h
    obtain ⟨hfree, rfl⟩ := ClientShared.lock_eq hlock
    exact ⟨.lock hfree rfl, fun _ => rfl⟩
  case clear =>
    obtain ⟨rfl, rfl⟩ := h
    exact ⟨.keep rfl, fun hne => absurd rfl hne⟩
  case other =>
    obtain ⟨rfl, rfl⟩ := h
    cases hrd : m.rd <;> exact ⟨.keep rfl, fun _ => rfl⟩
  case unlock =>
    obtain ⟨m₁, hunlock, rfl, rfl⟩ := h
    obtain ⟨hmine, rfl⟩ := ClientShared.unlock_eq hunlock
    exact ⟨.unlock hmine rfl, fun _ => rfl⟩

theorem clientOnRdFree_step {pc pc' : FreePc} (h : clientOnRdFree pc m = some (pc', m')) :
    MtxStep .readerFree m m' pc.locked pc'.locked ∧ m'.tcp = m.tcp := by
  cases pc <;> simp only [clientOnRdFree, Option.bind_eq_bind, Option.bind_eq_some_iff,
    Option.pure_def, Option.some.injEq, Prod.mk.injEq, reduceCtorEq] at h
  case lock =>
    obtain ⟨m₁, hlock, rfl, rfl⟩ := h
    obtain ⟨hfree, rfl⟩ := ClientShared.lock_eq hlock
    exact ⟨.lock hfree rfl, rfl⟩
  case clear =>
    obtain ⟨rfl, rfl⟩ := h
    exact ⟨.keep rfl, rfl⟩
  case unlock =>
    obtain ⟨m₁, hunlock, rfl, rfl⟩ := h
    obtain ⟨hmine, rfl⟩ := ClientShared.unlock_eq hunlock
    exact ⟨.unlock hmine rfl, rfl⟩

end Mutex

/-! ## Runs -/

section Runs

variable {s s' : ClientReader} {act : ReaderAct} {hist : List ReaderAct} {t : ClientParty}

/-- The mutex is held by those whose place says so, and `ctx->tcp` is not `NULL` behind the
checks. -/
structure ReaderInv (s : ClientReader) : Prop where
  owner : ∀ t, s.shared.mtx = some t ↔ s.holds t = true
  tcp : s.reader.checked = true → s.shared.tcp = true

theorem ReaderInv.of_init (hinit : s.Init) : ReaderInv s := by
  rw [hinit]
  refine ⟨fun t => ?_, fun hchecked => by simp [ClientReader.new, ReaderPc.checked] at hchecked⟩
  cases t <;> simp [ClientReader.new, ClientReader.holds, FreePc.locked, ReaderPc.locked]

theorem ReaderInv.owner_step {held held' : Bool} (hinv : ReaderInv s)
    (hmtx : MtxStep t s.shared s'.shared held held') (hheld : s.holds t = held)
    (hheld' : s'.holds t = held') (hothers : ∀ u, u ≠ t → s'.holds u = s.holds u) :
    ∀ u, s'.shared.mtx = some u ↔ s'.holds u = true := by
  intro u
  cases hmtx with
  | lock hfree hmine =>
      by_cases hu : u = t
      · simp [hu, hmine, hheld']
      · have hnot := (hinv.owner u).not.mp (by simp [hfree])
        rw [hmine, hothers u hu]
        simp [hnot, Ne.symm hu]
  | unlock hmine hfree =>
      by_cases hu : u = t
      · simp [hu, hfree, hheld']
      · have hnot := (hinv.owner u).not.mp (by simp [hmine, Ne.symm hu])
        rw [hfree, hothers u hu]
        simp [hnot]
  | keep hsame =>
      rw [hsame, hinv.owner u]
      by_cases hu : u = t
      · rw [hu, hheld, hheld']
      · rw [hothers u hu]

/-- A use of `ctx->tcp` comes behind a check. -/
theorem ReaderPc.checked_of_usesTcp {pc : ReaderPc} (h : pc.usesTcp = true) :
    pc.checked = true := by
  cases pc with
  | idle => simp [ReaderPc.usesTcp] at h
  | onRead pc => cases pc <;> simp_all [ReaderPc.usesTcp, ReaderPc.checked]
  | onUpdate pc state => cases pc <;> simp_all [ReaderPc.usesTcp, ReaderPc.checked]

/-- Behind a check, the mutex is given back only before the last use. -/
theorem ReaderPc.unguarded_of_checked {pc : ReaderPc} (h : pc.checked = true)
    (hnot : pc.locked = false) : pc.unguarded = true := by
  cases pc with
  | idle => simp [ReaderPc.checked] at h
  | onRead pc =>
      cases pc <;>
        simp_all [ReaderPc.unguarded, ReaderPc.checked, ReaderPc.locked, ReadPc.locked]
  | onUpdate pc state =>
      cases pc <;>
        simp_all [ReaderPc.unguarded, ReaderPc.checked, ReaderPc.locked, UpdatePc.locked]

theorem ReaderInv.reader_step {pc : ReaderPc} {m : ClientShared} (hinv : ReaderInv s)
    (hmtx : MtxStep .reader s.shared m s.reader.locked pc.locked) (htcp : m.tcp = s.shared.tcp)
    (hchecked : pc.checked = true → s.reader.checked = true ∨ s.shared.tcp = true) :
    ReaderInv { s with shared := m, reader := pc } := by
  refine ⟨hinv.owner_step hmtx rfl rfl fun u hu => by cases u <;> simp_all [ClientReader.holds],
    fun hpc => ?_⟩
  rw [htcp]
  exact (hchecked hpc).elim hinv.tcp id

theorem ReaderInv.begin_step {pc : ReaderPc} (hinv : ReaderInv s) (hidle : s.reader = .idle)
    (hlocked : pc.locked = false) (hchecked : pc.checked = false) :
    ReaderInv { s with reader := pc } := by
  refine hinv.reader_step ?_ rfl (by simp [hchecked])
  rw [hidle, hlocked]
  exact .keep rfl

/-- The pointer is cleared only while the reader does not rely on it. -/
theorem ReaderInv.tcp_clientFree {pc' : FreePc} {m' : ClientShared} (hinv : ReaderInv s)
    (hwaits : ReaderAct.clientFree.waits s = true)
    (hfree : clientOnFree s.clientFree s.shared = some (pc', m'))
    (hchecked : s.reader.checked = true) : m'.tcp = true := by
  have hne : s.clientFree ≠ .clear := by
    intro hclear
    -- the mutex is with `client_on_free`, so the reader does not have it
    have hmine := (hinv.owner .client).mpr (by simp [ClientReader.holds, hclear, FreePc.locked])
    have hnot : s.reader.locked = false := by
      have hother := (hinv.owner .reader).not.mp (by simp [hmine])
      simpa [ClientReader.holds] using hother
    have hunguarded := ReaderPc.unguarded_of_checked hchecked hnot
    simp [ReaderAct.waits, hclear, hunguarded] at hwaits
  exact ((clientOnFree_step hfree).2 hne).trans (hinv.tcp hchecked)

theorem ReaderInv.step (hinv : ReaderInv s) (hwaits : act.waits s = true) (h : s.Step act s') :
    ReaderInv s' := by
  cases act with
  | beginRead =>
      simp only [ClientReader.Step, ClientReader.exec] at h
      split at h
      · rename_i hidle
        rw [← Option.some.inj h]
        exact hinv.begin_step hidle.1 rfl rfl
      · simp at h
  | beginUpdate state =>
      simp only [ClientReader.Step, ClientReader.exec] at h
      split at h
      · rename_i hidle
        rw [← Option.some.inj h]
        exact hinv.begin_step hidle.1 rfl rfl
      · simp at h
  | reader ok =>
      simp only [ClientReader.Step, ClientReader.exec] at h
      split at h
      · simp at h
      · rename_i pc hpc
        simp only [Option.bind_eq_bind, Option.bind_eq_some_iff, Option.pure_def,
          Option.some.injEq] at h
        obtain ⟨⟨pc', m'⟩, hread, rfl⟩ := h
        obtain ⟨hmtx, htcp, hchecked⟩ := clientCacheOnRead_step hread
        refine hinv.reader_step ?_ htcp ?_
        · rwa [hpc]
        · rwa [hpc]
      · rename_i pc state hpc
        simp only [Option.bind_eq_bind, Option.bind_eq_some_iff, Option.pure_def,
          Option.some.injEq] at h
        obtain ⟨⟨pc', m'⟩, hupdate, rfl⟩ := h
        obtain ⟨hmtx, htcp, hchecked⟩ := clientCacheOnUpdate_step hupdate
        refine hinv.reader_step ?_ htcp ?_
        · rwa [hpc]
        · rwa [hpc]
  | clientFree =>
      simp only [ClientReader.Step, ClientReader.exec, Option.bind_eq_bind,
        Option.bind_eq_some_iff, Option.pure_def, Option.some.injEq] at h
      obtain ⟨⟨pc', m'⟩, hfree, rfl⟩ := h
      exact ⟨hinv.owner_step (clientOnFree_step hfree).1 rfl rfl
        fun u hu => by cases u <;> simp_all [ClientReader.holds], hinv.tcp_clientFree hwaits hfree⟩
  | readerFree =>
      simp only [ClientReader.Step, ClientReader.exec] at h
      split at h
      · simp only [Option.bind_eq_bind, Option.bind_eq_some_iff, Option.pure_def,
          Option.some.injEq] at h
        obtain ⟨⟨pc', m'⟩, hfree, rfl⟩ := h
        obtain ⟨hmtx, htcp⟩ := clientOnRdFree_step hfree
        refine ⟨hinv.owner_step hmtx rfl rfl
          fun u hu => by cases u <;> simp_all [ClientReader.holds], fun hchecked => ?_⟩
        exact htcp.trans (hinv.tcp hchecked)
      · simp at h

theorem ReaderInv.tcpSound (hinv : ReaderInv s) : s.TcpSound :=
  fun huses => hinv.tcp (ReaderPc.checked_of_usesTcp huses)

/-- The pointer is `NULL` at a use after a step that does not meet the condition. -/
theorem ReaderAct.not_tcpSound (hwaits : act.waits s = false) (h : s.Step act s') :
    ¬s'.TcpSound := by
  cases act <;> simp only [ReaderAct.waits, reduceCtorEq, Bool.not_eq_false',
    Bool.and_eq_true, decide_eq_true_eq] at hwaits
  obtain ⟨hclear, hunguarded⟩ := hwaits
  simp only [ClientReader.Step, ClientReader.exec, clientOnFree, hclear, Option.bind_eq_bind,
    Option.bind_some, Option.pure_def, Option.some.injEq] at h
  rw [← h]
  have huses : s.reader.usesTcp = true := by
    cases hpc : s.reader with
    | idle => simp [hpc, ReaderPc.unguarded] at hunguarded
    | onRead pc => cases pc <;> simp_all [ReaderPc.unguarded, ReaderPc.usesTcp]
    | onUpdate pc state => cases pc <;> simp_all [ReaderPc.unguarded, ReaderPc.usesTcp]
  intro hsound
  simpa using hsound huses

theorem ReaderInv.of_run (hrun : Lts.Run ClientReader.Init
    (fun s act s' => s.Step act s' ∧ act.waits s = true) hist s) : ReaderInv s := by
  refine Lts.Run.invariant (I := fun _ s => ReaderInv s) hrun (fun s => ReaderInv.of_init) ?_
  exact fun hist s act s' hinv hstep => hinv.step hstep.2 hstep.1

end Runs

/-- In a run in which `client_on_free` waits for the reader, `ctx->tcp` is not `NULL` where it is
used as a handler. This stays so with one more step exactly if that step waits, too. -/
theorem tcpSound_of_run {hist : List ReaderAct} {s : ClientReader}
    (hrun : Lts.Run ClientReader.Init (fun s act s' => s.Step act s' ∧ act.waits s = true)
      hist s) :
    s.TcpSound ∧ ∀ act s', s.Step act s' → (s'.TcpSound ↔ act.waits s = true) := by
  have hinv := ReaderInv.of_run hrun
  refine ⟨hinv.tcpSound, fun act s' hstep => ⟨fun hsound => ?_, fun hwaits => ?_⟩⟩
  · by_contra hwaits
    exact ReaderAct.not_tcpSound (by simpa using hwaits) hstep hsound
  · exact (hinv.step hwaits hstep).tcpSound

/-- The steps of a call of `client_cache_on_read` that cannot write its buffer, of
`client_on_free`, and of another call, which finds that the client has gone. -/
def readerExample : List ReaderAct :=
  .beginRead :: [true, true, true, true, false, true, true, true].map .reader ++
  List.replicate 4 .clientFree ++
  .beginRead :: List.replicate 4 (.reader true)

theorem tcpSound_two_reads :
    ∃ s : ClientReader, Lts.Run ClientReader.Init
      (fun s act s' => s.Step act s' ∧ act.waits s = true) readerExample s ∧
      s.shared = ⟨none, false, true, true, true⟩ ∧ s.reader = .idle ∧ s.TcpSound := by
  have hinit : ClientReader.new.Init := rfl
  obtain ⟨s, hrun, hshared, hreader⟩ := Lts.exists_run_guarded ClientReader.exec
    (fun s act => act.waits s = true) readerExample
    (fun s => s.shared = ⟨none, false, true, true, true⟩ ∧ s.reader = .idle) hinit
    (by decide +kernel)
  exact ⟨s, hrun, hshared, hreader, (tcpSound_of_run hrun).1⟩

theorem exists_not_tcpSound (acts : List ReaderAct)
    (htest : ((Lts.execAll ClientReader.exec ClientReader.new acts).any fun s =>
      decide (s.reader.usesTcp = true ∧ s.shared.tcp = false)) = true) :
    ∃ s : ClientReader, Lts.Run ClientReader.Init ClientReader.Step acts s ∧ ¬s.TcpSound := by
  have hinit : ClientReader.new.Init := rfl
  obtain ⟨s, hrun, huses, htcp⟩ := Lts.exists_run ClientReader.exec acts _ hinit htest
  exact ⟨s, hrun, fun hsound => by simp [hsound huses] at htcp⟩

/-- The entry is invalid, or there is no memory for the buffer, and `client_on_free` clears
`ctx->tcp` after the reader has given the mutex back. -/
theorem not_tcpSound_free :
    (∃ s : ClientReader, Lts.Run ClientReader.Init ClientReader.Step
      (.beginUpdate .entryInvalid :: List.replicate 4 (.reader true) ++
        [.clientFree, .clientFree]) s ∧ ¬s.TcpSound) ∧
    ∃ s : ClientReader, Lts.Run ClientReader.Init ClientReader.Step
      (.beginRead :: [true, true, false, true].map .reader ++ [.clientFree, .clientFree]) s ∧
      ¬s.TcpSound :=
  ⟨exists_not_tcpSound _ (by decide +kernel), exists_not_tcpSound _ (by decide +kernel)⟩

end PosixThreads
