import PosixThreads.Library.Lts
import PosixThreads.Waxy.Client

/-!
# Error replies to clients

A client sends its request piece by piece. `client_on_read` appends every piece to a buffer and
has the buffer parsed again, until there is a request in it. A request is answered with 400 if it
is malformed and with 405 if its method is not supported. The flag `request_processed` is set in
front of `client_process_request` only, so nothing stops a malformed request from being answered
again when more of it arrives.

The parser is `phr_parse_request`, which is told how much of the buffer it has seen before.
-/

namespace PosixThreads

/-- The answers of `phr_parse_request`: `-2`, `-1`, or the request. -/
inductive PhrRequest
  | incomplete
  | invalid
  | parsed (method path : List UInt8) (minorVersion : ℤ)
  deriving DecidableEq, Repr

/-- `phr_parse_request`, with the bytes and `last_len`. -/
abbrev PhrRequestParse := List UInt8 → ℕ → PhrRequest

/-- Bytes that are not a request do not become one when more bytes follow. -/
def PhrRequestStable (parse : PhrRequestParse) : Prop :=
  ∀ (bytes more : List UInt8) (lastLen lastLen' : ℕ) (method path : List UInt8)
    (minorVersion : ℤ), parse bytes lastLen = .invalid →
      parse (bytes ++ more) lastLen' ≠ .parsed method path minorVersion

/-- `bad_request_slice`. Its length counts the terminator. -/
def badRequest : List UInt8 :=
  cstr "HTTP/1.1 400 Bad Request\r\nServer: waxy\r\nConnection: close\r\n" ++
  cstr "Content-Type: text/plain\r\nContent-Length: 17\r\n\r\n400 Bad Request\r\n" ++ [0]

def maxRequestSize : ℕ := 16 * 1024 * 1024

/-- A connection of a client: `client_ctx_t` as far as requests are concerned, whether the handler
has been unregistered by a callback of its own, the error responses that have been queued, and the
URLs that have been passed to `cache_fetch`. -/
structure ClientConn where
  buf : List UInt8
  requestProcessed : Bool
  unregistered : Bool
  queued : List (List UInt8)
  fetched : List Url
  deriving DecidableEq

def ClientCall.tcpWrite? : ClientCall → Option (List UInt8)
  | .tcpWrite slice => some slice
  | _ => none

def ClientCall.cacheFetch? : ClientCall → Option Url
  | .cacheFetch url => some url
  | _ => none

namespace ClientConn

def new : ClientConn := ⟨[], false, false, [], []⟩

def unregister (c : ClientConn) : ClientConn := { c with unregistered := true }

/-- `client_process_request` on a connection. -/
def processRequest (env : ClientEnv) (method path : List UInt8) (minorVersion : ℤ)
    (c : ClientConn) : Option (Option Error × ClientConn) := do
  let out ← clientProcessRequest env method path minorVersion
  let replies := if env.tcpWrite.isNone then out.calls.filterMap ClientCall.tcpWrite? else []
  return (out.err, { c with
    unregistered := c.unregistered || out.unregister
    queued := c.queued ++ replies
    fetched := c.fetched ++ out.calls.filterMap ClientCall.cacheFetch? })

def handleHttpRequest (parse : PhrRequestParse) (env : ClientEnv) (c : ClientConn) (prevLen : ℕ)
    (eof : Bool) : Option (Option Error × ClientConn) :=
  if c.requestProcessed then some (none, if eof then c.unregister else c)
  else if maxRequestSize < c.buf.length then some (none, c.unregister)
  else
    match parse c.buf prevLen with
    | .incomplete => some (none, if eof then c.unregister else c)
    | .invalid =>
        -- an error of `tcp_write` is logged and freed
        if env.tcpWrite.isSome then some (none, c.unregister)
        else some (none, { c with queued := c.queued ++ [badRequest] })
    | .parsed method path minorVersion =>
        processRequest env method path minorVersion { c with requestProcessed := true }

def appends (c : ClientConn) (slice : List UInt8) (memory : Bool) : Bool :=
  memory && c.buf.length + slice.length < ptrdiffMax

/-- `client_on_read`. An error reaches `client_on_error`, which unregisters the handler. -/
def onRead (parse : PhrRequestParse) (env : ClientEnv) (c : ClientConn) (slice : List UInt8)
    (eof memory : Bool) : Option ClientConn := do
  let prevLen := c.buf.length
  if c.requestProcessed then
    let (_, c) ← c.handleHttpRequest parse env prevLen eof
    return c
  else if c.appends slice memory then
    let (err, c) ← { c with buf := c.buf ++ slice }.handleHttpRequest parse env prevLen eof
    return if err.isSome then c.unregister else c
  else return c.unregister

end ClientConn

/-- What happens to a connection: something has been read, an error response has been written, or
the socket has failed. -/
inductive ClientAct
  | read (slice : List UInt8) (eof memory : Bool) (env : ClientEnv)
  | written
  | failed

namespace ClientConn

def exec (parse : PhrRequestParse) (c : ClientConn) : ClientAct → Option ClientConn
  | .read slice eof memory env =>
      if c.unregistered then none else c.onRead parse env slice eof memory
  | .written => if c.queued = [] then none else some c.unregister
  | .failed => some c.unregister

def Init (c : ClientConn) : Prop := c = new

def Step (parse : PhrRequestParse) (c : ClientConn) (act : ClientAct) (c' : ClientConn) : Prop :=
  c.exec parse act = some c'

end ClientConn

/-- A client gets at most one error response, and none if the cache is asked for it. -/
structure RepliesSound (c : ClientConn) : Prop where
  length_le : c.queued.length ≤ 1
  exclusive : c.queued = [] ∨ c.fetched = []

/-- An error response that can be queued is the first one if the request is malformed. If its
method is not supported, then its version is not supported either or its URL is not acceptable. -/
def ClientAct.AnswersOnce (parse : PhrRequestParse) (c : ClientConn) : ClientAct → Prop
  | .read slice _ memory env =>
      c.requestProcessed = false → c.appends slice memory = true →
      (c.buf ++ slice).length ≤ maxRequestSize → env.tcpWrite = none →
      match parse (c.buf ++ slice) c.buf.length with
      | .incomplete => True
      | .invalid => c.queued = []
      | .parsed method path minorVersion =>
          method = cstr "GET" ∨ ¬(minorVersion = 0 ∨ minorVersion = 1) ∨
            ¬PathAcceptable env.alloc path
  | _ => True

/-! ## One call -/

section Call

variable {parse : PhrRequestParse} {env : ClientEnv} {c c' : ClientConn}
  {slice method path : List UInt8} {eof memory : Bool} {minorVersion : ℤ}

/-- What `client_process_request` queues and what it passes to `cache_fetch`. -/
structure ProcessedAs (env : ClientEnv) (method path : List UInt8) (minorVersion : ℤ)
    (replies : List (List UInt8)) (urls : List Url) : Prop where
  length_le : replies.length ≤ 1
  replied : replies ≠ [] ↔
    (minorVersion = 0 ∨ minorVersion = 1) ∧ method ≠ cstr "GET" ∧ env.tcpWrite = none
  fetched : urls ≠ [] ↔ (minorVersion = 0 ∨ minorVersion = 1) ∧
    (method = cstr "GET" ∨ env.tcpWrite = none) ∧ PathAcceptable env.alloc path

theorem filterMap_cacheFetch?_ne_nil (calls : List ClientCall) :
    calls.filterMap ClientCall.cacheFetch? ≠ [] ↔ calls.any ClientCall.isFetch = true := by
  rw [Ne, List.filterMap_eq_nil_iff, List.any_eq_true]
  constructor
  · intro hne
    by_contra hnone
    refine hne fun call hcall => ?_
    cases call with
    | cacheFetch url => exact absurd ⟨_, hcall, rfl⟩ hnone
    | tcpWrite slice => rfl
    | urlParse slice => rfl
    | stringFree buf => rfl
  · rintro ⟨call, hcall, hfetch⟩ hnil
    have hnone := hnil call hcall
    cases call <;> simp_all [ClientCall.cacheFetch?, ClientCall.isFetch]

theorem filterMap_tcpWrite?_urlCalls (parsed : UrlParseResult) (path : List UInt8) :
    (urlCalls parsed path).filterMap ClientCall.tcpWrite? = [] := by
  unfold urlCalls
  cases (clientCheckUrl parsed).1 <;> cases parsed.fatal <;> rfl

theorem ClientConn.processRequest_eq (env : ClientEnv) (method path : List UInt8)
    (minorVersion : ℤ) (c : ClientConn) :
    ∃ err unregister replies urls, c.processRequest env method path minorVersion =
        some (err, { c with
          unregistered := c.unregistered || unregister
          queued := c.queued ++ replies
          fetched := c.fetched ++ urls }) ∧
      ProcessedAs env method path minorVersion replies urls := by
  obtain ⟨parsed, hparse, _⟩ := exists_urlParse env.alloc path
  by_cases hversion : minorVersion = 0 ∨ minorVersion = 1
  · by_cases hmethod : method = cstr "GET" ∨ env.tcpWrite = none
    · obtain ⟨err, unregister, hrun⟩ := clientProcessRequest_of_url hversion hmethod hparse
      have hfetch := urlCalls_any_isFetch hparse
      refine ⟨err, unregister, _, _, by rw [ClientConn.processRequest, hrun]; rfl, ?_, ?_, ?_⟩
      · by_cases hget : method = cstr "GET" <;> cases env.tcpWrite <;>
          simp [hget, filterMap_tcpWrite?_urlCalls, ClientCall.tcpWrite?]
      · by_cases hget : method = cstr "GET" <;> cases hwrite : env.tcpWrite <;>
          simp [hget, hversion, filterMap_tcpWrite?_urlCalls, ClientCall.tcpWrite?]
      · rw [filterMap_cacheFetch?_ne_nil, List.any_append, ← hfetch]
        by_cases hget : method = cstr "GET" <;>
          simp_all [ClientCall.isFetch]
    · rw [not_or] at hmethod
      obtain ⟨err, herr⟩ := Option.ne_none_iff_exists'.mp hmethod.2
      have hrun : clientProcessRequest env method path minorVersion = _ :=
        clientProcessRequest_of_error hversion hmethod.1 herr
      refine ⟨some (.wrap "Could not sent an error response" err), true, [], [], ?_, by simp,
        ?_, ?_⟩
      · simp [ClientConn.processRequest, hrun, herr, ClientCall.cacheFetch?]
      · simp [herr]
      · simp [herr, hmethod.1]
  · have hrun : clientProcessRequest env method path minorVersion = _ :=
      clientProcessRequest_of_version hversion
    refine ⟨none, true, [], [], by simp [ClientConn.processRequest, hrun], by simp, ?_, ?_⟩
    · simp [hversion]
    · simp [hversion]

/-- The parser is called when more of a request has been read. -/
def ClientConn.Parses (c : ClientConn) (slice : List UInt8) (memory : Bool) : Prop :=
  c.requestProcessed = false ∧ c.appends slice memory = true ∧
    (c.buf ++ slice).length ≤ maxRequestSize

/-- What `client_on_read` can do: nothing that can be seen from outside, answer a malformed
request, or process a request. -/
inductive ReadOutcome (parse : PhrRequestParse) (env : ClientEnv) (c : ClientConn)
    (slice : List UInt8) (memory : Bool) : ClientConn → Prop
  | quiet {c' : ClientConn} (hqueued : c'.queued = c.queued) (hfetched : c'.fetched = c.fetched)
      (hprocessed : c'.requestProcessed = c.requestProcessed) (hbuf : c.buf <+: c'.buf)
      (hother : c.Parses slice memory → env.tcpWrite = none →
        parse (c.buf ++ slice) c.buf.length = .incomplete) :
      ReadOutcome parse env c slice memory c'
  | malformed {c' : ClientConn} (hparses : c.Parses slice memory) (hwrite : env.tcpWrite = none)
      (hparse : parse (c.buf ++ slice) c.buf.length = .invalid)
      (hqueued : c'.queued = c.queued ++ [badRequest]) (hfetched : c'.fetched = c.fetched)
      (hprocessed : c'.requestProcessed = false) (hbuf : c'.buf = c.buf ++ slice) :
      ReadOutcome parse env c slice memory c'
  | processed {c' : ClientConn} {method path : List UInt8} {minorVersion : ℤ}
      {replies : List (List UInt8)} {urls : List Url} (hparses : c.Parses slice memory)
      (hparse : parse (c.buf ++ slice) c.buf.length = .parsed method path minorVersion)
      (has : ProcessedAs env method path minorVersion replies urls)
      (hqueued : c'.queued = c.queued ++ replies) (hfetched : c'.fetched = c.fetched ++ urls)
      (hprocessed : c'.requestProcessed = true) : ReadOutcome parse env c slice memory c'

theorem readOutcome_of_processed (hprocessed : c.requestProcessed = true)
    (hread : c.onRead parse env slice eof memory = some c') :
    ReadOutcome parse env c slice memory c' := by
  simp only [ClientConn.onRead, hprocessed, if_true, ClientConn.handleHttpRequest,
    Option.bind_eq_bind, Option.bind_some, Option.pure_def, Option.some.injEq] at hread
  rw [← hread]
  refine .quiet ?_ ?_ ?_ ?_ (fun hparses => ?_)
  · cases eof <;> rfl
  · cases eof <;> rfl
  · cases eof <;> rfl
  · cases eof <;> exact List.prefix_refl _
  · simp [hparses.1] at hprocessed

theorem readOutcome_of_parses (hparses : c.Parses slice memory)
    (hread : c.onRead parse env slice eof memory = some c') :
    ReadOutcome parse env c slice memory c' := by
  have hlarge : ¬maxRequestSize < (c.buf ++ slice).length := Nat.not_lt_of_le hparses.2.2
  simp only [ClientConn.onRead, ClientConn.handleHttpRequest, hparses.1, hparses.2.1, hlarge,
    if_true, if_false, Option.bind_eq_bind, Option.bind_eq_some_iff, Option.pure_def,
    Option.some.injEq, Bool.false_eq_true] at hread
  obtain ⟨⟨err, c₁⟩, hhandle, hread⟩ := hread
  cases hparse : parse (c.buf ++ slice) c.buf.length with
  | incomplete =>
      simp only [hparse, Option.some.injEq, Prod.mk.injEq] at hhandle
      obtain ⟨rfl, rfl⟩ := hhandle
      rw [← hread]
      refine .quiet ?_ ?_ ?_ ?_ (fun _ _ => hparse)
      · cases eof <;> rfl
      · cases eof <;> rfl
      · cases eof <;> exact hparses.1.symm
      · cases eof <;> exact List.prefix_append _ _
  | invalid =>
      cases hwrite : env.tcpWrite with
      | some werr =>
          simp only [hparse, hwrite, Option.isSome_some, if_true, Option.some.injEq,
            Prod.mk.injEq] at hhandle
          obtain ⟨rfl, rfl⟩ := hhandle
          rw [← hread]
          refine .quiet rfl rfl hparses.1.symm (List.prefix_append _ _) fun _ hnone => ?_
          simp [hwrite] at hnone
      | none =>
          simp only [hparse, hwrite, Option.isSome_none, Bool.false_eq_true, if_false,
            Option.some.injEq, Prod.mk.injEq] at hhandle
          obtain ⟨rfl, rfl⟩ := hhandle
          rw [← hread]
          exact .malformed hparses hwrite hparse rfl rfl rfl rfl
  | parsed method path minorVersion =>
      obtain ⟨err', unregister, replies, urls, hrun, has⟩ :=
        ClientConn.processRequest_eq env method path minorVersion
          { c with buf := c.buf ++ slice, requestProcessed := true }
      simp only [hparse] at hhandle
      rw [hrun, Option.some.injEq, Prod.mk.injEq] at hhandle
      obtain ⟨rfl, rfl⟩ := hhandle
      rw [← hread]
      refine .processed hparses hparse has ?_ ?_ ?_
      · cases err' <;> rfl
      · cases err' <;> rfl
      · cases err' <;> rfl

theorem readOutcome_of_onRead (hread : c.onRead parse env slice eof memory = some c') :
    ReadOutcome parse env c slice memory c' := by
  by_cases hprocessed : c.requestProcessed = true
  · exact readOutcome_of_processed hprocessed hread
  rw [Bool.not_eq_true] at hprocessed
  by_cases happends : c.appends slice memory = true
  · by_cases hlarge : maxRequestSize < (c.buf ++ slice).length
    · simp only [ClientConn.onRead, ClientConn.handleHttpRequest, hprocessed, happends, hlarge,
        if_true, if_false, Option.bind_eq_bind, Option.bind_some, Option.pure_def,
        Option.some.injEq, Bool.false_eq_true] at hread
      rw [← hread]
      exact .quiet rfl rfl hprocessed.symm (List.prefix_append _ _) fun hparses =>
        absurd hparses.2.2 (Nat.not_le_of_lt hlarge)
    · exact readOutcome_of_parses ⟨hprocessed, happends, Nat.le_of_not_lt hlarge⟩ hread
  · simp only [ClientConn.onRead, hprocessed, happends, if_false, Option.pure_def,
      Option.some.injEq, Bool.false_eq_true] at hread
    rw [← hread]
    exact .quiet rfl rfl rfl (List.prefix_refl _) fun hparses =>
      absurd hparses.2.1 happends

end Call

/-! ## Whole connections -/

section Runs

variable {parse : PhrRequestParse} {c c' : ClientConn} {act : ClientAct} {hist : List ClientAct}

/-- As long as no request has been processed, at most one malformed one has been answered. It is
at the beginning of the buffer. -/
structure RepliesInv (parse : PhrRequestParse) (c : ClientConn) : Prop where
  sound : RepliesSound c
  unfetched : c.requestProcessed = false → c.fetched = []
  rejected : c.requestProcessed = false → c.queued ≠ [] →
    ∃ bytes lastLen, bytes <+: c.buf ∧ parse bytes lastLen = .invalid

theorem RepliesInv.of_init (hinit : c.Init) : RepliesInv parse c := by
  rw [hinit]
  exact ⟨⟨by decide, Or.inl rfl⟩, fun _ => rfl, fun _ hne => absurd rfl hne⟩

theorem RepliesInv.quiet (hinv : RepliesInv parse c) (hqueued : c'.queued = c.queued)
    (hfetched : c'.fetched = c.fetched) (hprocessed : c'.requestProcessed = c.requestProcessed)
    (hbuf : c.buf <+: c'.buf) : RepliesInv parse c' := by
  refine ⟨⟨hqueued ▸ hinv.sound.length_le, hqueued ▸ hfetched ▸ hinv.sound.exclusive⟩, ?_, ?_⟩
  · rw [hprocessed, hfetched]
    exact hinv.unfetched
  · rw [hprocessed, hqueued]
    intro hnot hne
    obtain ⟨bytes, lastLen, hpre, hparse⟩ := hinv.rejected hnot hne
    exact ⟨bytes, lastLen, hpre.trans hbuf, hparse⟩

/-- A request is processed only if nothing has been answered before. -/
theorem RepliesInv.queued_eq_nil {slice method path : List UInt8} {memory : Bool}
    {minorVersion : ℤ} (hstable : PhrRequestStable parse) (hinv : RepliesInv parse c)
    (hparses : c.Parses slice memory)
    (hparse : parse (c.buf ++ slice) c.buf.length = .parsed method path minorVersion) :
    c.queued = [] := by
  by_contra hne
  obtain ⟨bytes, lastLen, ⟨more, hmore⟩, hinvalid⟩ := hinv.rejected hparses.1 hne
  have hne' := hstable bytes (more ++ slice) lastLen c.buf.length method path minorVersion hinvalid
  rw [← List.append_assoc, hmore] at hne'
  exact hne' hparse

/-- Only a read can be seen from outside. -/
theorem ClientConn.step_cases (h : c.Step parse act c') :
    (act.AnswersOnce parse c ∧ c'.queued = c.queued ∧ c'.fetched = c.fetched ∧
      c'.requestProcessed = c.requestProcessed ∧ c'.buf = c.buf) ∨
    ∃ slice eof memory env, act = .read slice eof memory env ∧
      ReadOutcome parse env c slice memory c' := by
  cases act with
  | written =>
      simp only [ClientConn.Step, ClientConn.exec] at h
      split at h
      · simp at h
      · rw [← Option.some.inj h]
        exact Or.inl ⟨trivial, rfl, rfl, rfl, rfl⟩
  | failed =>
      rw [← Option.some.inj h]
      exact Or.inl ⟨trivial, rfl, rfl, rfl, rfl⟩
  | read slice eof memory env =>
      simp only [ClientConn.Step, ClientConn.exec] at h
      split at h
      · simp at h
      · exact Or.inr ⟨slice, eof, memory, env, rfl, readOutcome_of_onRead h⟩

/-- The step lemma: the answers stay as they should be exactly under the condition. -/
theorem RepliesInv.step (hstable : PhrRequestStable parse) (hinv : RepliesInv parse c)
    (h : c.Step parse act c') :
    (act.AnswersOnce parse c → RepliesInv parse c') ∧
      (RepliesSound c' → act.AnswersOnce parse c) := by
  rcases ClientConn.step_cases h with ⟨honce, hqueued, hfetched, hprocessed, hbuf⟩ |
    ⟨slice, eof, memory, env, rfl, hout⟩
  · exact ⟨fun _ => hinv.quiet hqueued hfetched hprocessed (hbuf ▸ List.prefix_refl _),
      fun _ => honce⟩
  cases hout with
  | quiet hqueued hfetched hprocessed hbuf hother =>
      refine ⟨fun _ => hinv.quiet hqueued hfetched hprocessed hbuf, fun _ => ?_⟩
      intro hnot happends hlength hwrite
      rw [hother ⟨hnot, happends, hlength⟩ hwrite]
      trivial
  | malformed hparses hwrite hparse hqueued hfetched hprocessed hbuf =>
      refine ⟨fun honce => ?_, fun hsound => ?_⟩
      · have hnil := honce hparses.1 hparses.2.1 hparses.2.2 hwrite
        simp only [hparse] at hnil
        have hnone := hinv.unfetched hparses.1
        refine ⟨⟨by simp [hqueued, hnil], Or.inr (hfetched.trans hnone)⟩,
          fun _ => hfetched.trans hnone, fun _ _ => ?_⟩
        exact ⟨_, _, hbuf ▸ List.prefix_refl _, hparse⟩
      · intro _ _ _ _
        simp only [hparse]
        have hle := hsound.length_le
        rw [hqueued, List.length_append, List.length_singleton] at hle
        exact List.eq_nil_of_length_eq_zero (by omega)
  | processed hparses hparse has hqueued hfetched hprocessed =>
      have hnil := hinv.queued_eq_nil hstable hparses hparse
      have hnone := hinv.unfetched hparses.1
      rw [hnil, List.nil_append] at hqueued
      rw [hnone, List.nil_append] at hfetched
      refine ⟨fun honce => ?_, fun hsound => ?_⟩
      · refine ⟨⟨hqueued ▸ has.length_le, ?_⟩, ?_, ?_⟩
        · by_contra hboth
          rw [not_or, hqueued, hfetched] at hboth
          obtain ⟨hversion, hmethod, hwrite⟩ := has.replied.mp hboth.1
          obtain ⟨_, _, hpath⟩ := has.fetched.mp hboth.2
          have hcond := honce hparses.1 hparses.2.1 hparses.2.2 hwrite
          simp only [hparse] at hcond
          rcases hcond with hget | hbad | hunacceptable
          · exact hmethod hget
          · exact hbad hversion
          · exact hunacceptable hpath
        · simp [hprocessed]
        · simp [hprocessed]
      · intro _ _ _ hwrite
        simp only [hparse]
        by_contra hcond
        rw [not_or, not_or, not_not, not_not] at hcond
        obtain ⟨hmethod, hversion, hpath⟩ := hcond
        rcases hsound.exclusive with hnoReply | hnoFetch
        · exact has.replied.mpr ⟨hversion, hmethod, hwrite⟩ (hqueued ▸ hnoReply)
        · exact has.fetched.mpr ⟨hversion, Or.inr hwrite, hpath⟩ (hfetched ▸ hnoFetch)

theorem RepliesSound.of_step (h : c.Step parse act c') (hsound : RepliesSound c') :
    RepliesSound c := by
  have hmono : c.queued <+: c'.queued ∧ c.fetched <+: c'.fetched := by
    rcases ClientConn.step_cases h with ⟨_, hqueued, hfetched, _⟩ | ⟨_, _, _, _, _, hout⟩
    · simp [hqueued, hfetched]
    · cases hout with
      | quiet hqueued hfetched => simp [hqueued, hfetched]
      | malformed _ _ _ hqueued hfetched => simp [hqueued, hfetched]
      | processed _ _ _ hqueued hfetched => simp [hqueued, hfetched]
  obtain ⟨hqueued, hfetched⟩ := hmono
  refine ⟨hqueued.length_le.trans hsound.length_le, hsound.exclusive.imp ?_ ?_⟩
  · exact fun hnil => List.prefix_nil.mp (hnil ▸ hqueued)
  · exact fun hnil => List.prefix_nil.mp (hnil ▸ hfetched)

theorem RepliesInv.of_run (hstable : PhrRequestStable parse)
    (hrun : Lts.Run ClientConn.Init
      (fun c act c' => c.Step parse act c' ∧ act.AnswersOnce parse c) hist c) :
    RepliesInv parse c := by
  refine Lts.Run.invariant (I := fun _ c => RepliesInv parse c) hrun
    (fun c => RepliesInv.of_init) ?_
  exact fun hist c act c' hinv hstep => (hinv.step hstable hstep.1).1 hstep.2

end Runs

/-- A client gets at most one error response, and none if the cache is asked for it, exactly if
each step of the connection meets the condition. -/
theorem repliesSound_iff_of_run {parse : PhrRequestParse} (hstable : PhrRequestStable parse)
    {hist : List ClientAct} {c : ClientConn}
    (hrun : Lts.Run ClientConn.Init (ClientConn.Step parse) hist c) :
    RepliesSound c ↔ Lts.Run ClientConn.Init
      (fun c act c' => c.Step parse act c' ∧ act.AnswersOnce parse c) hist c := by
  refine ⟨fun hsound => ?_, fun hrun' => (RepliesInv.of_run hstable hrun').sound⟩
  induction hrun with
  | start hinit => exact .start hinit
  | snoc _ hstep ih =>
      have hrun' := ih (hsound.of_step hstep)
      have hinv := RepliesInv.of_run hstable hrun'
      exact hrun'.snoc ⟨hstep, (hinv.step hstable hstep).2 hsound⟩

/-- A parser that knows two requests. No request begins with a control character. -/
def phrRequestExample : PhrRequestParse := fun bytes _ =>
  if bytes.head? = some 1 then .invalid
  else if cstr "GET http://h/ HTTP/1.1\r\n\r\n" <+: bytes then
    .parsed (cstr "GET") (cstr "http://h/") 1
  else if cstr "POST http://h/ HTTP/1.1\r\n\r\n" <+: bytes then
    .parsed (cstr "POST") (cstr "http://h/") 1
  else .incomplete

theorem phrRequestExample_stable : PhrRequestStable phrRequestExample := by
  intro bytes more lastLen lastLen' method path minorVersion hinvalid
  have hhead : bytes.head? = some 1 := by
    by_contra hhead
    simp only [phrRequestExample, hhead, if_false] at hinvalid
    split at hinvalid
    · simp at hinvalid
    · split at hinvalid <;> simp at hinvalid
  have happend : (bytes ++ more).head? = some 1 := by
    cases bytes with
    | nil => simp at hhead
    | cons b bytes => exact hhead
  simp [phrRequestExample, happend]

def clientEnvExample : ClientEnv := ⟨fun _ => true, none, fun _ => none⟩

/-- A request in two pieces, with something behind it, is passed to the cache once. -/
theorem repliesSound_two_pieces :
    ∃ c : ClientConn, RepliesSound c ∧ c.queued = [] ∧ c.fetched.length = 1 ∧
      Lts.Run ClientConn.Init
        (fun c act c' => c.Step phrRequestExample act c' ∧ act.AnswersOnce phrRequestExample c)
        [.read (cstr "GET http://h/") false true clientEnvExample,
          .read (cstr " HTTP/1.1\r\n\r\n") false true clientEnvExample,
          .read (cstr "x") false true clientEnvExample] c := by
  have hinit : ClientConn.new.Init := rfl
  obtain ⟨c, hrun, hqueued, hfetched⟩ := Lts.exists_run (ClientConn.exec phrRequestExample)
    [.read (cstr "GET http://h/") false true clientEnvExample,
      .read (cstr " HTTP/1.1\r\n\r\n") false true clientEnvExample,
      .read (cstr "x") false true clientEnvExample]
    (fun c => c.queued = [] ∧ c.fetched.length = 1) hinit (by decide +kernel)
  have hsound : RepliesSound c := ⟨by simp [hqueued], Or.inl hqueued⟩
  exact ⟨c, hsound, hqueued, hfetched,
    (repliesSound_iff_of_run phrRequestExample_stable hrun).mp hsound⟩

/-- Two pieces of a malformed request are answered both, and a request with an unsupported method
is answered and passed to the cache. -/
theorem not_repliesSound_malformed :
    (∃ c : ClientConn, Lts.Run ClientConn.Init (ClientConn.Step phrRequestExample)
      [.read (1 :: cstr "\r\n\r\n") false true clientEnvExample,
        .read (cstr "\r\n\r\n") false true clientEnvExample] c ∧
      c.queued = [badRequest, badRequest] ∧ ¬RepliesSound c) ∧
    ∃ c : ClientConn, Lts.Run ClientConn.Init (ClientConn.Step phrRequestExample)
      [.read (cstr "POST http://h/ HTTP/1.1\r\n\r\n") false true clientEnvExample] c ∧
      c.queued = [methodNotAllowed] ∧ c.fetched.length = 1 ∧ ¬RepliesSound c := by
  have hinit : ClientConn.new.Init := rfl
  constructor
  · obtain ⟨c, hrun, hqueued⟩ := Lts.exists_run (ClientConn.exec phrRequestExample)
      [.read (1 :: cstr "\r\n\r\n") false true clientEnvExample,
        .read (cstr "\r\n\r\n") false true clientEnvExample]
      (fun c => c.queued = [badRequest, badRequest]) hinit (by decide +kernel)
    refine ⟨c, hrun, hqueued, fun hsound => ?_⟩
    have hle := hsound.length_le
    simp [hqueued] at hle
  · obtain ⟨c, hrun, hqueued, hfetched⟩ := Lts.exists_run (ClientConn.exec phrRequestExample)
      [.read (cstr "POST http://h/ HTTP/1.1\r\n\r\n") false true clientEnvExample]
      (fun c => c.queued = [methodNotAllowed] ∧ c.fetched.length = 1) hinit (by decide +kernel)
    refine ⟨c, hrun, hqueued, hfetched, fun hsound => ?_⟩
    rcases hsound.exclusive with hnil | hnil
    · simp [hqueued] at hnil
    · simp [hnil] at hfetched

end PosixThreads
