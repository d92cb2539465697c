import PosixThreads.Waxy.Url.Bounds
import PosixThreads.Waxy.Url.Eq

/-!
# Requests of clients

`client_process_request` decides what becomes of a parsed request. What it calls is
recorded in the order of the calls: the cache and the socket of the client are behind
`cache_fetch` and `tcp_write`, and an upstream is contacted only by a callback of
`cache_fetch`. What these calls return is up to the environment.
-/

namespace PosixThreads

/-- `method_not_allowed_slice`. Its length counts the terminator. -/
def methodNotAllowed : List UInt8 :=
  cstr "HTTP/1.1 405 Method Not Allowed\r\nServer: waxy\r\nConnection: close\r\n" ++
  cstr "Content-Type: text/plain\r\nContent-Length: 24\r\n\r\n405 Method Not Allowed\r\n" ++ [0]

inductive ClientCall
  | tcpWrite (slice : List UInt8)
  | urlParse (slice : List UInt8)
  | cacheFetch (url : Url)
  | stringFree (buf : List UInt8)
  deriving DecidableEq

structure ClientEnv where
  alloc : Alloc
  tcpWrite : Option Error
  cacheFetch : Url → Option Error

structure ClientOutcome where
  err : Option Error
  unregister : Bool
  calls : List ClientCall

/-- `{0}`. -/
def zeroUrl : Url where
  toUrlRegion := { UrlRegion.initial with
    hostNull := false
    portNull := false
    queryNull := false
    fragmentNull := false }
  buf := []

/-- The port of a URL without one becomes 80. -/
def urlDefaultPort (url : Url) : Url :=
  if url.portNull then { url with port := 80, portNull := false } else url

@[simp] theorem urlDefaultPort_buf (url : Url) : (urlDefaultPort url).buf = url.buf := by
  unfold urlDefaultPort
  split <;> rfl

/-- The chain of checks behind `url_parse`, with the URL after them. -/
def clientCheckUrl (parsed : UrlParseResult) : Option Error × Url :=
  let url := parsed.url.getD zeroUrl
  let err := parsed.err
  let err :=
    if err.isNone then errorWrap "Unsupported scheme" (okIf
      (!sliceCmp (url.scheme.text url.buf) (cstr "http"))
      "slice_cmp(url.scheme, slice_from_cstr(\"http\")) == 0")
    else err
  let err :=
    if err.isNone then errorWrap "The hostname is not specified" (okIf (!url.hostNull)
      "!url.host_null")
    else err
  (err, if err.isNone then urlDefaultPort url else url)

/-- `client_process_request`. An unsupported method is answered, and the request goes on
to the cache. -/
def clientProcessRequest (env : ClientEnv) (method path : List UInt8) (minorVersion : ℤ) :
    Option ClientOutcome :=
  if minorVersion ≠ 0 && minorVersion ≠ 1 then some ⟨none, true, []⟩
  else
    let (err, calls) :=
      if sliceCmp method (cstr "GET") then
        (errorWrap "Could not sent an error response" env.tcpWrite,
          [ClientCall.tcpWrite methodNotAllowed])
      else (none, [])
    if err.isSome then some ⟨err, true, calls⟩
    else do
      let parsed ← urlParse env.alloc path
      let (err, url) := clientCheckUrl parsed
      let urlFree := if parsed.fatal then [] else [ClientCall.stringFree url.buf]
      if err.isSome then
        -- the error is logged and freed
        return ⟨none, true, calls ++ [.urlParse path] ++ urlFree⟩
      else
        let err := env.cacheFetch url
        return ⟨err, err.isSome, calls ++ [.urlParse path, .cacheFetch url] ++ urlFree⟩

/-- The URL that a request for `path` is served for. -/
def clientAcceptUrl (alloc : Alloc) (path : List UInt8) : Option Url := do
  match clientCheckUrl (← urlParse alloc path) with
  | (none, url) => return url
  | (some _, _) => none

/-! ## Acceptable URLs -/

/-- `url_parse` returns no error, the scheme is http and there is a host. -/
def UrlAcceptable (parsed : UrlParseResult) (url : Url) : Prop :=
  parsed.err = none ∧ parsed.url = some url ∧ url.scheme.text url.buf = cstr "http" ∧
    url.hostNull = false

section Check

variable {parsed : UrlParseResult} {url : Url}

theorem clientCheckUrl_of_acceptable (h : UrlAcceptable parsed url) :
    clientCheckUrl parsed = (none, urlDefaultPort url) := by
  obtain ⟨herr, hurl, hscheme, hhost⟩ := h
  have hcmp : sliceCmp (cstr "http") (cstr "http") = false := sliceCmp_eq_false_iff.mpr rfl
  simp [clientCheckUrl, herr, hurl, hscheme, hhost, hcmp, okIf, errorWrap]

theorem acceptable_of_clientCheckUrl (h : (clientCheckUrl parsed).1 = none) :
    ∃ url, UrlAcceptable parsed url := by
  cases herr : parsed.err with
  | some err => simp [clientCheckUrl, herr] at h
  | none =>
      have hscheme : sliceCmp ((parsed.url.getD zeroUrl).scheme.text (parsed.url.getD zeroUrl).buf)
          (cstr "http") = false := by
        by_contra hcmp
        simp [clientCheckUrl, herr, hcmp, okIf, errorWrap] at h
      rw [sliceCmp_eq_false_iff] at hscheme
      have hhost : (parsed.url.getD zeroUrl).hostNull = false := by
        by_contra hnull
        have hcmp : sliceCmp (cstr "http") (cstr "http") = false := sliceCmp_eq_false_iff.mpr rfl
        simp [clientCheckUrl, herr, hscheme, hcmp, hnull, okIf, errorWrap] at h
      cases hurl : parsed.url with
      | none =>
          -- the scheme of a zeroed URL is empty
          rw [hurl, Option.getD_none] at hscheme
          exact absurd hscheme (by decide)
      | some url =>
          rw [hurl, Option.getD_some] at hscheme hhost
          exact ⟨url, herr, hurl, hscheme, hhost⟩

end Check

/-! ## Admission -/

def PathAcceptable (alloc : Alloc) (path : List UInt8) : Prop :=
  ∃ parsed url, urlParse alloc path = some parsed ∧ UrlAcceptable parsed url

def Admissible (alloc : Alloc) (method path : List UInt8) (minorVersion : ℤ) : Prop :=
  (minorVersion = 0 ∨ minorVersion = 1) ∧ method = cstr "GET" ∧ PathAcceptable alloc path

def ClientCall.isFetch : ClientCall → Bool
  | .cacheFetch _ => true
  | _ => false

def ClientCall.isFree : ClientCall → Bool
  | .stringFree _ => true
  | _ => false

/-- The cache is called for the admissible requests only, and the buffer of a URL that has
been parsed is released once, if there is one. -/
structure AdmissionSound (env : ClientEnv) (method path : List UInt8) (minorVersion : ℤ)
    (out : ClientOutcome) : Prop where
  fetched : out.calls.any ClientCall.isFetch = true ↔
    Admissible env.alloc method path minorVersion
  released : ∀ parsed, urlParse env.alloc path = some parsed →
    out.calls.filter ClientCall.isFree =
      if ClientCall.urlParse path ∈ out.calls then
        (if parsed.fatal then [] else parsed.url.toList.map fun url => .stringFree url.buf)
      else []

section Process

variable {env : ClientEnv} {method path : List UInt8} {minorVersion : ℤ}

/-- A URL is returned unless the parse is fatal. -/
theorem exists_urlParse (alloc : Alloc) (slice : List UInt8) :
    ∃ parsed, urlParse alloc slice = some parsed ∧ (parsed.fatal = false → parsed.url.isSome) := by
  rcases urlParse_cases alloc slice with
    ⟨_, hparse⟩ | ⟨s, _, ⟨_, hparse⟩ | ⟨_, err, p, _, _, _, hparse⟩⟩
  · exact ⟨_, hparse, by simp⟩
  · exact ⟨_, hparse, by simp⟩
  · exact ⟨_, hparse, by simp⟩

theorem clientCheckUrl_buf (parsed : UrlParseResult) :
    (clientCheckUrl parsed).2.buf = (parsed.url.getD zeroUrl).buf := by
  simp only [clientCheckUrl, apply_ite Url.buf, urlDefaultPort_buf, ite_self]

def urlCalls (parsed : UrlParseResult) (path : List UInt8) : List ClientCall :=
  .urlParse path :: (if (clientCheckUrl parsed).1.isNone then
    [.cacheFetch (clientCheckUrl parsed).2] else []) ++
  if parsed.fatal then [] else [.stringFree (clientCheckUrl parsed).2.buf]

theorem clientProcessRequest_of_version (h : ¬(minorVersion = 0 ∨ minorVersion = 1)) :
    clientProcessRequest env method path minorVersion = some ⟨none, true, []⟩ := by
  rw [not_or] at h
  simp [clientProcessRequest, h]

theorem clientProcessRequest_of_error {err : Error} (h : minorVersion = 0 ∨ minorVersion = 1)
    (hmethod : method ≠ cstr "GET") (herr : env.tcpWrite = some err) :
    clientProcessRequest env method path minorVersion =
      some ⟨some (.wrap "Could not sent an error response" err), true,
        [.tcpWrite methodNotAllowed]⟩ := by
  have hcmp : sliceCmp method (cstr "GET") = true := by
    rw [← Bool.not_eq_false, sliceCmp_eq_false_iff]
    exact hmethod
  rcases h with rfl | rfl <;> simp [clientProcessRequest, hcmp, herr, errorWrap]

theorem clientProcessRequest_of_url {parsed : UrlParseResult}
    (h : minorVersion = 0 ∨ minorVersion = 1)
    (hmethod : method = cstr "GET" ∨ env.tcpWrite = none)
    (hparse : urlParse env.alloc path = some parsed) :
    ∃ err unregister, clientProcessRequest env method path minorVersion =
      some ⟨err, unregister,
        (if method = cstr "GET" then [] else [.tcpWrite methodNotAllowed]) ++
          urlCalls parsed path⟩ := by
  have hversion : (minorVersion ≠ 0 && minorVersion ≠ 1) = false := by
    rcases h with rfl | rfl <;> rfl
  have hanswer : (if sliceCmp method (cstr "GET") = true then
      (errorWrap "Could not sent an error response" env.tcpWrite,
        [ClientCall.tcpWrite methodNotAllowed])
      else (none, [])) =
      ((none : Option Error),
        if method = cstr "GET" then [] else [ClientCall.tcpWrite methodNotAllowed]) := by
    by_cases hget : method = cstr "GET"
    · rw [if_pos hget, sliceCmp_eq_false_iff.mpr hget]
      rfl
    · have hcmp : sliceCmp method (cstr "GET") = true := by
        rw [← Bool.not_eq_false, sliceCmp_eq_false_iff]
        exact hget
      rw [if_neg hget, hcmp, hmethod.resolve_left hget]
      rfl
  simp only [clientProcessRequest, hversion, hanswer, hparse, urlCalls, Bool.false_eq_true,
    if_false, Option.isSome_none, Option.bind_eq_bind, Option.bind_some]
  cases hcheck : clientCheckUrl parsed with
  | mk err url =>
      cases err with
      | none =>
          exact ⟨env.cacheFetch url, (env.cacheFetch url).isSome, by simp⟩
      | some err => exact ⟨none, true, by simp⟩

theorem urlCalls_any_isFetch {parsed : UrlParseResult}
    (hparse : urlParse env.alloc path = some parsed) :
    (urlCalls parsed path).any ClientCall.isFetch = true ↔ PathAcceptable env.alloc path := by
  have hcalls : (urlCalls parsed path).any ClientCall.isFetch =
      (clientCheckUrl parsed).1.isNone := by
    unfold urlCalls
    cases (clientCheckUrl parsed).1 <;> cases parsed.fatal <;> simp [ClientCall.isFetch]
  rw [hcalls, Option.isNone_iff_eq_none]
  constructor
  · intro hcheck
    obtain ⟨url, hurl⟩ := acceptable_of_clientCheckUrl hcheck
    exact ⟨parsed, url, hparse, hurl⟩
  · rintro ⟨parsed', url, hparse', hurl⟩
    rw [hparse, Option.some.injEq] at hparse'
    rw [hparse', clientCheckUrl_of_acceptable hurl]

theorem urlCalls_filter_isFree {parsed : UrlParseResult}
    (hurl : parsed.fatal = false → parsed.url.isSome) (path : List UInt8) :
    (urlCalls parsed path).filter ClientCall.isFree =
      if parsed.fatal then [] else parsed.url.toList.map fun url => .stringFree url.buf := by
  have hbuf := clientCheckUrl_buf parsed
  unfold urlCalls
  rw [hbuf]
  cases hfatal : parsed.fatal with
  | true => cases (clientCheckUrl parsed).1 <;> simp [ClientCall.isFree]
  | false =>
      obtain ⟨url, hurl⟩ := Option.isSome_iff_exists.mp (hurl hfatal)
      cases (clientCheckUrl parsed).1 <;> simp [ClientCall.isFree, hurl]

/-- A request that goes on to its URL is treated as it should be if its method is right or its
URL is wrong. -/
theorem admissionSound_of_url {parsed : UrlParseResult} {err : Option Error} {unregister : Bool}
    (hversion : minorVersion = 0 ∨ minorVersion = 1)
    (hparse : urlParse env.alloc path = some parsed)
    (hurl : parsed.fatal = false → parsed.url.isSome) :
    AdmissionSound env method path minorVersion ⟨err, unregister,
      (if method = cstr "GET" then [] else [.tcpWrite methodNotAllowed]) ++ urlCalls parsed path⟩ ↔
      (PathAcceptable env.alloc path → method = cstr "GET") := by
  have hfetch : ((if method = cstr "GET" then [] else [ClientCall.tcpWrite methodNotAllowed]) ++
      urlCalls parsed path).any ClientCall.isFetch = true ↔ PathAcceptable env.alloc path := by
    rw [List.any_append, ← urlCalls_any_isFetch hparse]
    split <;> simp [ClientCall.isFetch]
  constructor
  · intro hsound hpath
    exact (hsound.fetched.mp (hfetch.mpr hpath)).2.1
  · intro hmethod
    refine ⟨?_, ?_⟩
    · rw [hfetch]
      exact ⟨fun hpath => ⟨hversion, hmethod hpath, hpath⟩, fun hadm => hadm.2.2⟩
    · intro parsed' hparse'
      rw [hparse, Option.some.injEq] at hparse'
      subst hparse'
      have hcalled : ClientCall.urlParse path ∈
          (if method = cstr "GET" then [] else [ClientCall.tcpWrite methodNotAllowed]) ++
            urlCalls parsed path := by simp [urlCalls]
      rw [if_pos hcalled, List.filter_append, urlCalls_filter_isFree hurl]
      split <;> simp [ClientCall.isFree]

/-- A request that is refused before its URL is parsed is not admissible. -/
theorem admissionSound_of_refused {err : Option Error} {unregister : Bool}
    {calls : List ClientCall} (hcalls : ∀ call ∈ calls, call = .tcpWrite methodNotAllowed)
    (hnot : ¬Admissible env.alloc method path minorVersion) :
    AdmissionSound env method path minorVersion ⟨err, unregister, calls⟩ := by
  refine ⟨⟨fun hfetch => ?_, fun hadm => absurd hadm hnot⟩, fun parsed _ => ?_⟩
  · obtain ⟨call, hcall, hisFetch⟩ := List.any_eq_true.mp hfetch
    rw [hcalls call hcall] at hisFetch
    simp [ClientCall.isFetch] at hisFetch
  · have hparse : ClientCall.urlParse path ∉ calls := fun hmem => by simpa using hcalls _ hmem
    rw [if_neg hparse, List.filter_eq_nil_iff]
    intro call hcall
    rw [hcalls call hcall]
    simp [ClientCall.isFree]

/-- A request is admitted as it should be unless its method is not supported, the answer to
that could be sent, and its version and its URL are all right. -/
theorem admissionSound_iff (env : ClientEnv) (method path : List UInt8) (minorVersion : ℤ) :
    ∃ out, clientProcessRequest env method path minorVersion = some out ∧
      (AdmissionSound env method path minorVersion out ↔
        ¬((minorVersion = 0 ∨ minorVersion = 1) ∧ method ≠ cstr "GET" ∧ env.tcpWrite = none ∧
          PathAcceptable env.alloc path)) := by
  obtain ⟨parsed, hparse, hurl⟩ := exists_urlParse env.alloc path
  by_cases hversion : minorVersion = 0 ∨ minorVersion = 1
  · by_cases hmethod : method = cstr "GET" ∨ env.tcpWrite = none
    · obtain ⟨err, unregister, hrun⟩ := clientProcessRequest_of_url hversion hmethod hparse
      refine ⟨_, hrun, ?_⟩
      rw [admissionSound_of_url hversion hparse hurl]
      constructor
      · rintro hget ⟨_, hne, _, hpath⟩
        exact hne (hget hpath)
      · intro hcond hpath
        by_contra hne
        exact hcond ⟨hversion, hne, hmethod.resolve_left hne, hpath⟩
    · rw [not_or] at hmethod
      obtain ⟨err, herr⟩ := Option.ne_none_iff_exists'.mp hmethod.2
      refine ⟨_, clientProcessRequest_of_error hversion hmethod.1 herr, ?_⟩
      exact ⟨fun _ hcond => hmethod.2 hcond.2.2.1,
        fun _ => admissionSound_of_refused (by simp) fun hadm => hmethod.1 hadm.2.1⟩
  · refine ⟨_, clientProcessRequest_of_version hversion, ?_⟩
    exact ⟨fun _ hcond => hversion hcond.1,
      fun _ => admissionSound_of_refused (by simp) fun hadm => hversion hadm.1⟩

end Process

/-- A POST request is answered with an error and served as well. -/
theorem not_admissionSound_post : ∃ out,
    clientProcessRequest ⟨fun _ => true, none, fun _ => none⟩ (cstr "POST") (cstr "http://h/") 1 =
      some out ∧ ClientCall.tcpWrite methodNotAllowed ∈ out.calls ∧
    ¬AdmissionSound ⟨fun _ => true, none, fun _ => none⟩ (cstr "POST") (cstr "http://h/") 1
      out := by
  have htest : ((clientProcessRequest ⟨fun _ => true, none, fun _ => none⟩ (cstr "POST")
      (cstr "http://h/") 1).any fun out =>
        ClientCall.tcpWrite methodNotAllowed ∈ out.calls && out.calls.any ClientCall.isFetch) =
      true := by
    decide +kernel
  cases hrun : clientProcessRequest ⟨fun _ => true, none, fun _ => none⟩ (cstr "POST")
      (cstr "http://h/") 1 with
  | none => simp [hrun] at htest
  | some out =>
      rw [hrun, Option.any_some, Bool.and_eq_true, decide_eq_true_eq] at htest
      refine ⟨out, rfl, htest.1, fun hsound => ?_⟩
      exact absurd (hsound.fetched.mp htest.2).2.1 (by decide)

end PosixThreads
