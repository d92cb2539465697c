import PosixThreads.Library.Lts
import PosixThreads.Loop.Basic
import PosixThreads.Loop.Io

/-!
# Reading from a TCP handler

`tcp_client_handle_established` reads from the socket when `poll` reports input or that the
connection has been hung up. The end of the input is noted in `eof` by a read that returns
nothing, but only if the input has been shut down before: by `LOOP_HUP` or by
`tcp_shutdown_input`. A peer that has closed its side only makes reads return nothing, so
`on_read` is called with an empty slice and without `eof`. And since `LOOP_HUP` is reported
whatever the mask is, `on_read` is called again after the end of the input.
-/

namespace PosixThreads

def readBufferSize : ℕ := 16384

/-- The fields of `tcp_handler_t` that reading uses. The callbacks may be `NULL`, and of the
pending mask this is the flag `LOOP_READ`. -/
structure TcpReader where
  onRead : Bool
  onReadError : Bool
  inputShut : Bool
  eof : Bool
  loopRead : Bool
  deriving DecidableEq, Repr

/-- What `on_read` does: the error it returns, and whether it has called
`tcp_shutdown_input`. -/
structure TcpReadCallback where
  err : Option Error
  shutdownInput : Bool

/-- The answers of the surroundings to a call of `tcp_client_handle_established`: the error of
the socket, whether there is memory for a buffer, what `read` returns, and the callbacks. -/
structure TcpReadEnv where
  socketError : Option Error
  onSocketError : Error → Option Error
  alloc : Bool
  read : Except Error Slice
  onRead : TcpReadCallback
  onReadError : Error → Option Error

structure ReadCall where
  slice : Slice
  eof : Bool
  deriving DecidableEq, Repr

def tcpShutdownInput (self : TcpReader) : TcpReader := { self with inputShut := true }

def tcpIsEof (self : TcpReader) : Bool := self.eof

def tcpClientHandleRead (env : TcpReadEnv) (self : TcpReader) :
    TcpReader × Option Error × List ReadCall :=
  let (self, err, calls) :=
    if env.alloc then
      match env.read with
      | .error err => (self, some err, [])
      | .ok slice =>
          let self := if self.inputShut && slice.isEmpty then { self with eof := true } else self
          let calls := [⟨slice, tcpIsEof self⟩]
          let self := if env.onRead.shutdownInput then tcpShutdownInput self else self
          match env.onRead.err with
          | some err => (self, some err, calls)
          | none => (if self.eof then { self with loopRead := false } else self, none, calls)
    else
      (self, some (.wrap "Could not allocate a buffer for received data" (.okIf "buf != NULL")), [])
  match err with
  | none => (self, none, calls)
  | some err => (self, if self.onReadError then env.onReadError err else some err, calls)

/-- The error of the socket that `on_read_error` has left. -/
def TcpReadEnv.socketErrorLeft (env : TcpReadEnv) (flags : PollFlags) (self : TcpReader) :
    Option Error :=
  let err := if flags.err then env.socketError else none
  err.bind fun err => if self.onReadError then env.onSocketError err else some err

/-- `tcp_client_handle_established`, up to the writing of requests. The callbacks of these have
no access to the fields here, except by `tcp_shutdown_input`. -/
def tcpClientHandleEstablished (env : TcpReadEnv) (flags : PollFlags) (self : TcpReader) :
    TcpReader × Option Error × List ReadCall :=
  match env.socketErrorLeft flags self with
  | some err => (self, some err, [])
  | none =>
      let self := if flags.hup then { self with inputShut := true } else self
      if self.onRead && (flags.read || flags.hup) then tcpClientHandleRead env self
      else (self, none, [])

structure TcpReadState where
  handler : TcpReader
  log : List ReadCall

inductive TcpReadOp
  | process (flags : PollFlags) (env : TcpReadEnv)
  | shutdownInput

/-- What `read` can return: not more than the buffer holds, and nothing after it has returned
nothing. -/
def TcpReadState.canRead (s : TcpReadState) (slice : Slice) : Bool :=
  decide (slice.length ≤ readBufferSize) && (s.log.all (fun call => !call.slice.isEmpty) ||
    slice.isEmpty)

def TcpReadState.exec (s : TcpReadState) (op : TcpReadOp) : Option TcpReadState :=
  match op with
  | .process flags env =>
      if env.read.toOption.all s.canRead then
        let (handler, _, calls) := tcpClientHandleEstablished env flags s.handler
        some ⟨handler, s.log ++ calls⟩
      else none
  | .shutdownInput => some { s with handler := tcpShutdownInput s.handler }

/-- An established handler after `tcp_read` with a callback. -/
def TcpReadState.Init (s : TcpReadState) : Prop :=
  ∃ onReadError inputShut, s = ⟨⟨true, onReadError, inputShut, false, true⟩, []⟩

def TcpReadState.Step (s : TcpReadState) (op : TcpReadOp) (s' : TcpReadState) : Prop :=
  s.exec op = some s'

/-- An empty slice comes once, in the last call, and only then `tcp_is_eof` is true. -/
structure ReadsSound (log : List ReadCall) : Prop where
  last : ∀ before call after, log = before ++ call :: after → call.slice = [] → after = []
  eof : ∀ call ∈ log, call.slice = [] → call.eof = true
  earlier : ∀ before call, log = before ++ [call] → call.slice = [] →
    ∀ other ∈ before, other.eof = false

def TcpReadEnv.delivers (env : TcpReadEnv) (flags : PollFlags) (self : TcpReader) : Option Slice :=
  if (env.socketErrorLeft flags self).isNone && self.onRead && (flags.read || flags.hup) &&
      env.alloc then
    env.read.toOption
  else none

/-- A call meets the contract if nothing is read after a read that has returned nothing, and
if `LOOP_HUP` comes with such a read or before it, unless the input was shut down. -/
def TcpReadOp.Clean (s : TcpReadState) : TcpReadOp → Prop
  | .process flags env =>
      ((∃ call ∈ s.log, call.slice = []) → env.delivers flags s.handler = none) ∧
      (env.delivers flags s.handler = some [] → (s.handler.inputShut || flags.hup) = true)
  | .shutdownInput => True

instance (s : TcpReadState) : (op : TcpReadOp) → Decidable (op.Clean s)
  | .process _ _ => inferInstanceAs (Decidable (_ ∧ _))
  | .shutdownInput => .isTrue trivial

section Read

variable {s s' : TcpReadState} {op : TcpReadOp} {hist : List TcpReadOp} {log : List ReadCall}

/-- What becomes of a handler when `slice` is delivered, where `shut` tells whether the input is
known to be shut down. -/
structure ReadEffect (x : TcpReader) (shut : Bool) (slice : Option Slice) (x' : TcpReader)
    (calls : List ReadCall) : Prop where
  onRead : x'.onRead = x.onRead
  eof : x'.eof = (x.eof || slice.any fun slice => shut && slice.isEmpty)
  calls : calls = slice.toList.map fun slice => ⟨slice, x'.eof⟩

theorem tcpClientHandleRead_spec (env : TcpReadEnv) (self : TcpReader) :
    ReadEffect self self.inputShut (if env.alloc then env.read.toOption else none)
      (tcpClientHandleRead env self).1 (tcpClientHandleRead env self).2.2 := by
  cases halloc : env.alloc with
  | false => constructor <;> simp [tcpClientHandleRead, halloc]
  | true =>
      cases hread : env.read with
      | error err => constructor <;> simp [tcpClientHandleRead, halloc, hread, Except.toOption]
      | ok slice =>
          cases hshut : (self.inputShut && slice.isEmpty) <;>
          cases hcall : env.onRead.shutdownInput <;>
          cases herr : env.onRead.err <;>
          cases heof : self.eof <;>
          constructor <;>
            simp [tcpClientHandleRead, halloc, hread, hshut, hcall, herr, heof, Except.toOption,
              tcpIsEof, tcpShutdownInput]

theorem tcpClientHandleEstablished_spec (env : TcpReadEnv) (flags : PollFlags)
    (self : TcpReader) :
    ReadEffect self (self.inputShut || flags.hup) (env.delivers flags self)
      (tcpClientHandleEstablished env flags self).1
      (tcpClientHandleEstablished env flags self).2.2 := by
  simp only [tcpClientHandleEstablished, TcpReadEnv.delivers]
  cases herr : env.socketErrorLeft flags self with
  | some err => constructor <;> simp
  | none =>
      cases honRead : self.onRead with
      | false => cases hhup : flags.hup <;> constructor <;> simp [honRead]
      | true =>
          cases hhup : flags.hup with
          | false =>
              cases hread : flags.read with
              | false => constructor <;> simp [honRead]
              | true => simpa [honRead] using tcpClientHandleRead_spec env self
          | true =>
              obtain ⟨honRead', heof, hcalls⟩ :=
                tcpClientHandleRead_spec env { self with inputShut := true }
              constructor
              · simpa [honRead] using honRead'
              · simpa [honRead] using heof
              · simpa [honRead] using hcalls

/-- One more call: it must be the first one with an empty slice, or there is none. -/
theorem readsSound_snoc_iff {call : ReadCall} : ReadsSound (log ++ [call]) ↔
    ReadsSound log ∧ (∀ other ∈ log, other.slice ≠ []) ∧
      (call.slice = [] → call.eof = true ∧ ∀ other ∈ log, other.eof = false) := by
  constructor
  · intro h
    have hne : ∀ other ∈ log, other.slice ≠ [] := by
      intro other hmem hempty
      obtain ⟨before, after, rfl⟩ := List.append_of_mem hmem
      have hafter := h.last before other (after ++ [call]) (by simp) hempty
      simp at hafter
    refine ⟨⟨?_, ?_, ?_⟩, hne, fun hempty => ⟨?_, ?_⟩⟩
    · rintro before other after rfl hempty
      exact absurd hempty (hne other (by simp))
    · intro other hmem hempty
      exact absurd hempty (hne other hmem)
    · rintro before other rfl hempty
      exact absurd hempty (hne other (by simp))
    · exact h.eof call (by simp) hempty
    · exact h.earlier log call rfl hempty
  · rintro ⟨_, hne, hcall⟩
    -- an empty slice can only be that of the last call
    have hlast : ∀ other ∈ log ++ [call], other.slice = [] → other = call := by
      intro other hmem hempty
      rcases List.mem_append.mp hmem with hmem | hmem
      · exact absurd hempty (hne other hmem)
      · exact List.mem_singleton.mp hmem
    refine ⟨?_, ?_, ?_⟩
    · intro before other after heq hempty
      rcases List.eq_nil_or_concat after with rfl | ⟨after', x, rfl⟩
      · rfl
      · have hlog : log = before ++ other :: after' := by
          rw [List.concat_eq_append, ← List.cons_append, ← List.append_assoc] at heq
          exact (List.append_inj' heq rfl).1
        exact absurd hempty (hne other (by simp [hlog]))
    · intro other hmem hempty
      obtain rfl := hlast other hmem hempty
      exact (hcall hempty).1
    · intro before other heq hempty
      obtain ⟨rfl, hother⟩ := List.append_inj' heq rfl
      obtain rfl : call = other := by simpa using hother
      exact (hcall hempty).2

structure EofInv (s : TcpReadState) : Prop where
  handler : s.handler.eof = true → ∃ call ∈ s.log, call.slice = []
  calls : ∀ call ∈ s.log, call.eof = true → ∃ other ∈ s.log, other.slice = []

theorem TcpReadState.Step.effect (h : s.Step op s') :
    (op = .shutdownInput ∧ s'.log = s.log ∧ s'.handler.eof = s.handler.eof) ∨
    ∃ flags env, op = .process flags env ∧
      ∃ calls, s'.log = s.log ++ calls ∧ ReadEffect s.handler (s.handler.inputShut || flags.hup)
        (env.delivers flags s.handler) s'.handler calls := by
  cases op with
  | shutdownInput =>
      rw [← Option.some.inj h]
      exact Or.inl ⟨rfl, rfl, rfl⟩
  | process flags env =>
      simp only [TcpReadState.Step, TcpReadState.exec] at h
      split at h
      · rw [← Option.some.inj h]
        exact Or.inr ⟨flags, env, rfl, _, rfl, tcpClientHandleEstablished_spec env flags s.handler⟩
      · simp at h

theorem EofInv.step (hinv : EofInv s) (h : s.Step op s') : EofInv s' := by
  rcases h.effect with ⟨_, hlog, heof⟩ | ⟨flags, env, _, calls, hlog, heffect⟩
  · refine ⟨fun heof' => ?_, ?_⟩
    · rw [hlog]
      exact hinv.handler (heof ▸ heof')
    · rw [hlog]
      exact hinv.calls
  · have hhandler : s'.handler.eof = true → ∃ call ∈ s'.log, call.slice = [] := by
      intro heof
      rw [heffect.eof, Bool.or_eq_true] at heof
      rw [hlog, heffect.calls]
      rcases heof with heof | hslice
      · obtain ⟨call, hmem, hempty⟩ := hinv.handler heof
        exact ⟨call, List.mem_append_left _ hmem, hempty⟩
      · obtain ⟨slice, hslice, hshut⟩ := (Option.any_eq_true _ _).mp hslice
        rw [Bool.and_eq_true, List.isEmpty_iff] at hshut
        refine ⟨⟨slice, s'.handler.eof⟩, List.mem_append_right _ ?_, hshut.2⟩
        simp [hslice]
    refine ⟨hhandler, fun call hmem heof => ?_⟩
    rw [hlog] at hmem
    rcases List.mem_append.mp hmem with hmem | hmem
    · obtain ⟨other, hother, hempty⟩ := hinv.calls call hmem heof
      exact ⟨other, hlog ▸ List.mem_append_left _ hother, hempty⟩
    · rw [heffect.calls] at hmem
      obtain ⟨slice, _, rfl⟩ := List.mem_map.mp hmem
      exact hhandler heof

/-- A step keeps the contract exactly if it is clean. -/
theorem readsSound_step_iff (hinv : EofInv s) (h : s.Step op s') :
    ReadsSound s'.log ↔ ReadsSound s.log ∧ op.Clean s := by
  rcases h.effect with ⟨rfl, hlog, _⟩ | ⟨flags, env, rfl, calls, hlog, heffect⟩
  · rw [hlog]
    simp [TcpReadOp.Clean]
  · rw [hlog, heffect.calls]
    simp only [TcpReadOp.Clean]
    cases hslice : env.delivers flags s.handler with
    | none => simp
    | some slice =>
        have heof := heffect.eof
        rw [hslice, Option.any_some] at heof
        simp only [Option.toList_some, List.map_cons, List.map_nil, reduceCtorEq, imp_false,
          Option.some.injEq]
        rw [readsSound_snoc_iff]
        refine and_congr_right fun _ => ⟨?_, ?_⟩
        · rintro ⟨hne, hcall⟩
          refine ⟨fun ⟨call, hmem, hempty⟩ => hne call hmem hempty, fun hempty => ?_⟩
          have hnot : s.handler.eof = false := by
            rw [← Bool.not_eq_true]
            intro heof'
            obtain ⟨call, hmem, hempty'⟩ := hinv.handler heof'
            exact hne call hmem hempty'
          have htrue := (hcall hempty).1
          rw [heof, hnot, hempty] at htrue
          simpa using htrue
        · rintro ⟨hnone, hshut⟩
          have hne : ∀ other ∈ s.log, other.slice ≠ [] :=
            fun other hmem hempty => hnone ⟨other, hmem, hempty⟩
          refine ⟨hne, fun hempty => ⟨?_, fun other hmem => ?_⟩⟩
          · simp only [heof, hshut hempty, Bool.true_and, Bool.or_eq_true, List.isEmpty_iff]
            exact Or.inr hempty
          · rw [← Bool.not_eq_true]
            intro heof'
            obtain ⟨call, hmem', hempty'⟩ := hinv.calls other hmem heof'
            exact hne call hmem' hempty'

theorem EofInv.of_init (h : s.Init) : EofInv s := by
  obtain ⟨onReadError, inputShut, rfl⟩ := h
  exact ⟨by simp, by simp⟩

theorem EofInv.of_run (hrun : Lts.Run TcpReadState.Init TcpReadState.Step hist s) : EofInv s :=
  Lts.Run.invariant (I := fun _ s => EofInv s) hrun (fun _ => .of_init)
    fun _ _ _ _ hinv hstep => hinv.step hstep

/-- The end of input is signalled as promised exactly in the runs whose steps are all clean. -/
theorem readsSound_iff (hrun : Lts.Run TcpReadState.Init TcpReadState.Step hist s) :
    ReadsSound s.log ↔
      Lts.Run TcpReadState.Init (fun s op s' => s.Step op s' ∧ op.Clean s) hist s := by
  constructor
  · intro hsound
    induction hrun with
    | start hinit => exact .start hinit
    | snoc hrun hstep ih =>
        obtain ⟨hsound, hclean⟩ := (readsSound_step_iff (.of_run hrun) hstep).mp hsound
        exact (ih hsound).snoc ⟨hstep, hclean⟩
  · intro hclean
    have hinv : EofInv s ∧ ReadsSound s.log := by
      refine Lts.Run.invariant (I := fun _ s => EofInv s ∧ ReadsSound s.log) hclean ?_ ?_
      · intro s hinit
        refine ⟨.of_init hinit, ?_⟩
        obtain ⟨onReadError, inputShut, rfl⟩ := hinit
        exact ⟨by simp, by simp, by simp⟩
      · intro hist s op s' hinv hstep
        exact ⟨hinv.1.step hstep.1, (readsSound_step_iff hinv.1 hstep.1).mpr ⟨hinv.2, hstep.2⟩⟩
    exact hinv.2

/-- A call of an established handler in which nothing fails. -/
def TcpReadOp.reading (read hup : Bool) (slice : Slice) : TcpReadOp :=
  .process ⟨read, false, false, hup⟩ ⟨none, some, true, .ok slice, ⟨none, false⟩, some⟩

/-- Data, and then `LOOP_HUP` with the end of the input. -/
theorem readsSound_after_hup : ∃ s,
    Lts.Run TcpReadState.Init TcpReadState.Step [.reading true false [97],
      .reading true true []] s ∧
    s.log = [⟨[97], false⟩, ⟨[], true⟩] ∧ ReadsSound s.log := by
  have hinit : TcpReadState.Init ⟨⟨true, false, false, false, true⟩, []⟩ := ⟨false, false, rfl⟩
  obtain ⟨s, hclean, hlog⟩ := Lts.exists_run_guarded TcpReadState.exec (fun s op => op.Clean s)
    [.reading true false [97], .reading true true []]
    (fun s => s.log = [⟨[97], false⟩, ⟨[], true⟩]) hinit (by decide +kernel)
  have hrun := hclean.mono fun _ _ _ hstep => hstep.1
  exact ⟨s, hrun, hlog, (readsSound_iff hrun).mpr hclean⟩

/-- A peer closes its side and `poll` does not report `LOOP_HUP`, so the empty slice comes again
and again and without `eof`. Or it does report it, and then goes on doing so. -/
theorem not_readsSound_half_closed :
    (∃ s, Lts.Run TcpReadState.Init TcpReadState.Step [.reading true false [],
        .reading true false []] s ∧
      s.log = [⟨[], false⟩, ⟨[], false⟩] ∧ ¬ReadsSound s.log) ∧
    ∃ s, Lts.Run TcpReadState.Init TcpReadState.Step [.reading true true [],
        .reading false true []] s ∧
      s.log = [⟨[], true⟩, ⟨[], true⟩] ∧ ¬ReadsSound s.log := by
  have hinit : TcpReadState.Init ⟨⟨true, false, false, false, true⟩, []⟩ := ⟨false, false, rfl⟩
  constructor
  · refine ⟨_, Lts.Run.execAll (.start hinit) rfl, rfl, fun hsound => ?_⟩
    exact absurd (hsound.last [] ⟨[], false⟩ [⟨[], false⟩] rfl rfl) (by simp)
  · refine ⟨_, Lts.Run.execAll (.start hinit) rfl, rfl, fun hsound => ?_⟩
    exact absurd (hsound.last [] ⟨[], true⟩ [⟨[], true⟩] rfl rfl) (by simp)

end Read

end PosixThreads
