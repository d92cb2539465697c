import PosixThreads.Collections.String.Compare
import PosixThreads.HttpAio.Output
import PosixThreads.HttpAio.UrlForm

/-!
# The request

This is `http_get`, which asks a server for a URL. The strings of the URL are formatted with `%s`,
so they are read up to their first null byte. The server that is found for a name and the errors
of connecting to it are a parameter.

As the parser has looked at every character, nothing in a URL can end a line of the request or add
a word to it: the request has the lines that it should have, and the first of them three words.
-/

namespace PosixThreads

def ascii (text : String) : List UInt8 := text.toList.map Char.toUInt8

/-- What is read at a pointer to a string, up to the null byte. -/
def readCstr : List Cell → Option (List UInt8)
  | [] => none
  | none :: _ => none
  | some b :: cells => if b = 0 then some [] else (readCstr cells).map (b :: ·)

theorem readCstr_eq {bs : List UInt8} (hbs : 0 ∉ bs) (spare : List Cell) :
    readCstr (bs.map some ++ some 0 :: spare) = some bs := by
  induction bs with
  | nil => simp [readCstr]
  | cons b bs ih =>
      rw [List.mem_cons, not_or] at hbs
      simp [readCstr, Ne.symm hbs.1, ih hbs.2]

namespace StringT

def asCstr (self : StringT) : Option (List UInt8) := readCstr self.asPtr

theorem Holds.asCstr_eq {self : StringT} {bs : List UInt8} (hholds : Holds self bs)
    (hbs : 0 ∉ bs) : self.asCstr = some bs := by
  obtain ⟨spare, hptr⟩ := hholds.asPtr_eq
  rw [asCstr, hptr, readCstr_eq hbs]

def sprintf (ok : Bool) (formatted : Formatted) : Option (Except CommonErrorCode StringT) := do
  let n := sizeOfSucc formatted.val.length
  let (code, storage) ← Vec.resize 1 ok Vec.new n
  match code with
  | some code => return .error code
  | none =>
      let storage ← storage.setLen n
      assertThat (storage.len ≠ 0)
      let bytes ← vsnprintf storage.storage 0 n formatted.val
      return .ok ⟨{ storage with storage := bytes }⟩

theorem represents_new : Vec.new.Represents ([] : List (Elem 1)) :=
  ⟨⟨[], rfl⟩, rfl, rfl, Nat.zero_le _⟩

theorem sprintf_spec (ok : Bool) {formatted : Formatted} (hlen : formatted.val.length < intMax) :
    sprintf ok formatted = some (.error .memoryAllocationFailure) ∨
      ∃ str, sprintf ok formatted = some (.ok str) ∧ Holds str formatted.val := by
  obtain ⟨text, htext⟩ := formatted
  have hn : sizeOfSucc text.length = text.length + 1 := by rw [sizeOfSucc, if_neg hlen.ne]
  unfold intMax at htext
  rcases represents_new.resize_spec ok Nat.one_pos (Nat.zero_le (text.length + 1)) (by omega) with
    hfail | ⟨hgrown, hrepr⟩
  · refine .inl ?_
    simp only [sprintf, hn, hfail, Option.bind_eq_bind, Option.bind_some]
    rfl
  · have hset : Vec.setLen (Vec.grown 1 Vec.new (text.length + 1)) (text.length + 1) =
        some { Vec.grown 1 Vec.new (text.length + 1) with len := text.length + 1 } := by
      simp [Vec.setLen, Vec.grown]
    have hlength := length_terminated text
    obtain ⟨storage, hwrite, hrepr'⟩ := hrepr.overwrite le_rfl ((text ++ [0]).map byteElem)
      (by simp [Vec.grown])
    rw [cells_bytes, List.map_append, Nat.mul_one] at hwrite
    simp only [List.length_nil, List.take_nil, List.nil_append, Nat.zero_add, hlength] at hrepr'
    refine .inr ⟨⟨{ Vec.grown 1 Vec.new (text.length + 1) with
      storage := storage, len := text.length + 1 }⟩, ?_, hrepr'⟩
    have hformat : vsnprintf (Vec.grown 1 Vec.new (text.length + 1)).storage 0 (text.length + 1)
        text = some storage := by
      rw [vsnprintf, if_neg (by omega), List.take_of_length_le (by omega)]
      exact hwrite
    simp only [sprintf, hn, hgrown, hset, hformat, Option.bind_eq_bind, Option.bind_some,
      Nat.succ_ne_zero, ne_eq, not_false_eq_true, decide_true, assertThat_true]
    rfl

end StringT

namespace HttpAio

open StringT (Holds)

/-- `request_fmt`, with the arguments put in. -/
def requestText (path query host : List UInt8) : List UInt8 :=
  ascii "GET " ++ path ++ query ++ ascii " HTTP/1.1\r\n" ++ ascii "User-Agent: http-printer\r\n" ++
    ascii "Host: " ++ host ++ ascii "\r\n" ++ ascii "Connection: close\r\n" ++ ascii "\r\n"

/-- What the system says to `http_get`: memory for the strings of the URL and for the request, the
error of `create_socket_and_connect`, if any, and the answers of `write`. -/
structure GetAnswers where
  allocs : ℕ → Alloc
  room : Bool
  connect : List UInt8 → List UInt8 → Option PrinterErr
  writes : List (Except ℕ ℕ)

/-- What `http_get` returns, the host and the port it connects to, and what it sends. -/
structure GetResult where
  error : Option PrinterErr
  peer : Option (List UInt8 × List UInt8)
  sent : List Cell
  deriving DecidableEq

def GetResult.failed (error : PrinterErr) : GetResult := ⟨some error, none, []⟩

/-- The part of `http_get` behind `string_sprintf`. -/
def transmit (w : GetAnswers) (host port : List UInt8) (request : StringT) : GetResult :=
  match w.connect host port with
  | some error =>
      ⟨some (.err (some "failed to connect to the server") error), some (host, port), []⟩
  | none =>
      let written := writeAll w.writes (request.asPtr.take request.len)
      ⟨written.2.map (.err (some "failed to send a request to the server")), some (host, port),
        written.1⟩

/-- The port that `http_get` connects to. -/
def portOrHttp (port : StringT) : Option (List UInt8) := do
  let text ← port.asCstr
  return if port.len = 0 then ascii "80" else text

/-- The part of `http_get` for the formatted text. -/
def sendText (w : GetAnswers) (url : UrlT) (text : List UInt8) : Option GetResult :=
  -- a longer text is not formatted
  if h : text.length ≤ intMax then do
    match ← StringT.sprintf w.room ⟨text, h⟩ with
    | .error code => return .failed (.plain (.common "failed to allocate a string" code))
    | .ok request => return transmit w (← url.host.asCstr) (← portOrHttp url.port) request
  else none

/-- The part of `http_get` behind the check of the scheme. -/
def sendRequest (w : GetAnswers) (url : UrlT) : Option GetResult := do
  sendText w url (requestText (← url.path.asCstr) (← url.query.asCstr) (← url.host.asCstr))

/-- The part of `http_get` behind `parse_url`. -/
def getComponents (w : GetAnswers) (url : UrlT) : Option GetResult := do
  let scheme ← url.scheme.asCstr
  if scheme = ascii "http" then sendRequest w url
  else return .failed (.bool "unsupported scheme")

def httpGet (w : GetAnswers) (url : List UInt8) : Option GetResult := do
  match ← (parseUrl w.allocs url).run with
  | .error error => return .failed (.plain (.err (some "failed to parse the URL") error))
  | .ok components => getComponents w components

/-! ## The request for a URL -/

def requestFor (u : UrlParts) : List UInt8 := requestText (pathOrSlash u.path) [] u.host

def requestLines (u : UrlParts) : List (List UInt8) :=
  [ascii "GET " ++ pathOrSlash u.path ++ ascii " HTTP/1.1", ascii "User-Agent: http-printer",
    ascii "Host: " ++ u.host, ascii "Connection: close", []]

def OneWord (text : List UInt8) : Prop := 0x0a ∉ text ∧ 0x0d ∉ text ∧ 0x20 ∉ text

theorem oneWord_of_all {bs : List UInt8} (hbs : bs.all isUrlChar = true) : OneWord bs :=
  ⟨UrlParts.not_mem_of_all hbs (by decide), UrlParts.not_mem_of_all hbs (by decide),
    UrlParts.not_mem_of_all hbs (by decide)⟩

/-- A server that reads line by line gets the lines of the request. -/
theorem splitOn_requestFor {u : UrlParts} (hhost : OneWord u.host)
    (hpath : OneWord (pathOrSlash u.path)) :
    (requestFor u).splitOn 0x0a = (requestLines u).map (· ++ [0x0d]) ++ [[]] := by
  have hjoin : requestFor u =
      [0x0a].intercalate ((requestLines u).map (· ++ [0x0d]) ++ [[]]) := by
    have hfirst : ascii " HTTP/1.1\r\n" = ascii " HTTP/1.1" ++ [0x0d, 0x0a] := by decide
    have hagent : ascii "User-Agent: http-printer\r\n" =
        ascii "User-Agent: http-printer" ++ [0x0d, 0x0a] := by decide
    have hclose : ascii "Connection: close\r\n" = ascii "Connection: close" ++ [0x0d, 0x0a] := by
      decide
    have hend : ascii "\r\n" = [0x0d, 0x0a] := by decide
    simp [requestFor, requestText, requestLines, hfirst, hagent, hclose, hend, List.intercalate]
  rw [hjoin, List.splitOn_intercalate]
  · intro line hline
    simp only [requestLines, List.map_cons, List.map_nil, List.mem_append, List.mem_cons,
      List.not_mem_nil, or_false] at hline
    rcases hline with (rfl | rfl | rfl | rfl | rfl) | rfl
    · simp only [List.mem_append, not_or]
      exact ⟨⟨⟨by decide, hpath.1⟩, by decide⟩, by decide⟩
    · decide
    · simp only [List.mem_append, not_or]
      exact ⟨⟨by decide, hhost.1⟩, by decide⟩
    · decide
    · decide
    · simp
  · simp

theorem splitOn_head_requestLines {u : UrlParts} (hpath : OneWord (pathOrSlash u.path)) :
    (requestLines u).head?.map (List.splitOn 0x20) =
      some [ascii "GET", pathOrSlash u.path, ascii "HTTP/1.1"] := by
  have hjoin : ascii "GET " ++ pathOrSlash u.path ++ ascii " HTTP/1.1" =
      [0x20].intercalate [ascii "GET", pathOrSlash u.path, ascii "HTTP/1.1"] := by
    have hget : ascii "GET " = ascii "GET" ++ [0x20] := by decide
    have hversion : ascii " HTTP/1.1" = [0x20] ++ ascii "HTTP/1.1" := by decide
    simp [hget, hversion, List.intercalate]
  rw [requestLines, List.head?_cons, Option.map_some, hjoin, List.splitOn_intercalate]
  · intro word hword
    simp only [List.mem_cons, List.not_mem_nil, or_false] at hword
    rcases hword with rfl | rfl | rfl
    · decide
    · exact hpath.2.2
    · decide
  · simp

/-- What a server makes of the request, whatever the URL is. -/
structure Readable (u : UrlParts) : Prop where
  lines : (requestFor u).splitOn 0x0a = (requestLines u).map (· ++ [0x0d]) ++ [[]]
  words : (requestLines u).head?.map (List.splitOn 0x20) =
    some [ascii "GET", pathOrSlash u.path, ascii "HTTP/1.1"]
  no_return : ∀ line ∈ requestLines u, 0x0d ∉ line

theorem readable_requestFor {u : UrlParts} (hu : u.WellFormed) : Readable u := by
  have hpath := oneWord_of_all ((pathOrSlash_all _).trans hu.path_chars)
  have hhost := oneWord_of_all hu.host_chars
  refine ⟨splitOn_requestFor hhost hpath, splitOn_head_requestLines hpath, fun line hline => ?_⟩
  simp only [requestLines, List.mem_cons, List.not_mem_nil, or_false] at hline
  rcases hline with rfl | rfl | rfl | rfl | rfl
  · simp only [List.mem_append, not_or]
    exact ⟨⟨by decide, hpath.2.1⟩, by decide⟩
  · decide
  · simp only [List.mem_append, not_or]
    exact ⟨by decide, hhost.2.1⟩
  · decide
  · simp

/-! ## What is sent -/

def UrlParts.portOrHttp (u : UrlParts) : List UInt8 := if u.port = [] then ascii "80" else u.port

/-- `http_get` connects to the server that the URL names, if it connects at all, and sends the
request for the URL, or a part of it if there is an error. -/
structure Gets (url : List UInt8) (result : GetResult) : Prop where
  refused : result.peer = none → result.sent = [] ∧ result.error.isSome = true
  names : ∀ host port, result.peer = some (host, port) → ∃ u : UrlParts, u.WellFormed ∧
    u.text = url ∧ u.scheme = ascii "http" ∧ host = u.host ∧ port = u.portOrHttp ∧ Readable u ∧
    result.sent <+: (requestFor u).map some ∧
    (result.error = none → result.sent = (requestFor u).map some)

theorem gets_failed (url : List UInt8) (error : PrinterErr) : Gets url (.failed error) :=
  ⟨fun _ => ⟨rfl, rfl⟩, by simp [GetResult.failed]⟩

theorem zero_not_mem {f : UInt8 → Bool} (hf : f 0 = false) {bs : List UInt8}
    (hbs : bs.all f = true) : 0 ∉ bs := UrlParts.not_mem_of_all hbs hf

theorem transmit_gets (w : GetAnswers) {url : List UInt8} {u : UrlParts} (hu : u.WellFormed)
    (htext : u.text = url) (hscheme : u.scheme = ascii "http") {request : StringT}
    (hrequest : Holds request (requestFor u)) :
    Gets url (transmit w u.host u.portOrHttp request) := by
  obtain ⟨spare, hptr⟩ := hrequest.asPtr_eq
  have hbytes : request.asPtr.take request.len = (requestFor u).map some := by
    rw [hptr, hrequest.len, ← List.length_map some, List.take_left]
  rw [transmit, hbytes]
  split
  · refine ⟨by simp, fun host port hpeer => ⟨u, hu, htext, hscheme, ?_⟩⟩
    cases hpeer
    exact ⟨rfl, rfl, readable_requestFor hu, List.nil_prefix, by simp⟩
  · refine ⟨by simp, fun host port hpeer => ⟨u, hu, htext, hscheme, ?_⟩⟩
    cases hpeer
    refine ⟨rfl, rfl, readable_requestFor hu, writeAll_prefix _ _, fun hnone => writeAll_none ?_⟩
    simpa using hnone

/-! ## The whole function -/

theorem length_text_le (u : UrlParts) : u.path.length + u.host.length ≤ u.text.length := by
  rw [UrlParts.text, UrlParts.afterScheme, UrlParts.host]
  cases u.authority with
  | none =>
      simp only [Option.map_none, Option.getD_none, List.length_nil, List.length_append,
        List.length_cons]
      omega
  | some a =>
      simp only [Option.map_some, Option.getD_some, Authority.text, List.length_append,
        List.length_cons]
      omega

theorem length_requestFor_le (u : UrlParts) : (requestFor u).length ≤ u.text.length + 0x80 := by
  have hslash : (pathOrSlash u.path).length ≤ u.path.length + 1 := by
    rw [pathOrSlash]
    split <;> simp
  have htext := length_text_le u
  have hfixed : (requestText [] [] []).length = 70 := by decide
  simp only [requestFor, requestText, List.length_append, List.length_nil] at hfixed ⊢
  omega

theorem sendText_spec (w : GetAnswers) {components : UrlT} {text host port : List UInt8}
    (hlen : text.length < intMax) (hhost : components.host.asCstr = some host)
    (hport : portOrHttp components.port = some port) :
    (∃ error, sendText w components text = some (.failed error)) ∨
      ∃ request, Holds request text ∧
        sendText w components text = some (transmit w host port request) := by
  rw [sendText, dif_pos hlen.le]
  have hformatted : (⟨text, hlen.le⟩ : Formatted).val.length < intMax := hlen
  rcases StringT.sprintf_spec w.room hformatted with hfail | ⟨request, hrequest, hholds⟩
  · rw [hfail]
    exact .inl ⟨_, rfl⟩
  · rw [hrequest]
    refine .inr ⟨request, hholds, ?_⟩
    simp only [hhost, hport, Option.bind_eq_bind, Option.bind_some]
    rfl

theorem sendRequest_gets (w : GetAnswers) {url : List UInt8} {u : UrlParts} (hu : u.WellFormed)
    (htext : u.text = url) (hrest : u.rest = none) (hscheme : u.scheme = ascii "http")
    (hlen : url.length + 0x80 < intMax) {components : UrlT} (hgives : Gives components u) :
    ∃ result, sendRequest w components = some result ∧ Gets url result := by
  have hpath : components.path.asCstr = some (pathOrSlash u.path) :=
    hgives.path.asCstr_eq (zero_not_mem (by decide) ((pathOrSlash_all _).trans hu.path_chars))
  have hhost : components.host.asCstr = some u.host :=
    hgives.host.asCstr_eq (zero_not_mem (by decide) hu.host_chars)
  have hquery : components.query.asCstr = some [] := by
    have hnil : u.query = [] := by rw [UrlParts.query, hrest, behind]
    exact hnil ▸ hgives.query.asCstr_eq (by simp [hnil])
  have hport : portOrHttp components.port = some u.portOrHttp := by
    rw [portOrHttp, hgives.port.asCstr_eq (zero_not_mem (by decide) hu.digits),
      hgives.port.len, UrlParts.portOrHttp]
    simp [List.length_eq_zero_iff]
  have hfits : (requestText (pathOrSlash u.path) [] u.host).length < intMax := by
    have := length_requestFor_le u
    rw [htext, requestFor] at this
    omega
  simp only [sendRequest, hpath, hquery, hhost, Option.bind_eq_bind, Option.bind_some]
  rcases sendText_spec w hfits hhost hport with ⟨error, hsend⟩ | ⟨request, hholds, hsend⟩
  · exact ⟨_, hsend, gets_failed _ _⟩
  · exact ⟨_, hsend, transmit_gets w hu htext hscheme hholds⟩

/-- For every URL, `http_get` returns without leaving its strings. It connects only to the server
that is named, and sends it the request for the URL and nothing else. -/
theorem httpGet_gets (w : GetAnswers) {url : List UInt8} (hlen : url.length + 0x80 < intMax) :
    ∃ result, httpGet w url = some result ∧ Gets url result := by
  rw [httpGet, Option.bind_eq_bind]
  rcases parseUrl_spec w.allocs url with
    ⟨-, hmem⟩ | ⟨⟨hcolon, hu, hrest⟩, components, hrun, hgives⟩ | ⟨_, error, hrun⟩
  · rw [hmem]
    exact ⟨_, rfl, gets_failed _ _⟩
  · have hscheme : components.scheme.asCstr = some (UrlParts.ofText url).scheme :=
      hgives.scheme.asCstr_eq (zero_not_mem (by decide) hu.scheme_chars)
    rw [hrun, Option.bind_some]
    simp only [getComponents, hscheme, Option.bind_eq_bind, Option.bind_some]
    by_cases hhttp : (UrlParts.ofText url).scheme = ascii "http"
    · rw [if_pos hhttp]
      exact sendRequest_gets w hu (UrlParts.text_ofText hcolon) hrest hhttp hlen hgives
    · rw [if_neg hhttp]
      exact ⟨_, rfl, gets_failed _ _⟩
  · rw [hrun]
    exact ⟨_, rfl, gets_failed _ _⟩

theorem httpGet_gets_plain : ∃ result,
    httpGet ⟨fun _ => allocAll, true, fun _ _ => none, []⟩ (ascii "http://a:1/b") = some result ∧
      result.peer = some (ascii "a", ascii "1") ∧ result.error = none ∧
      Gets (ascii "http://a:1/b") result := by
  obtain ⟨result, hget, hgets⟩ := httpGet_gets ⟨fun _ => allocAll, true, fun _ _ => none, []⟩
    (show (ascii "http://a:1/b").length + 0x80 < intMax by decide)
  have hrun : (httpGet ⟨fun _ => allocAll, true, fun _ _ => none, []⟩ (ascii "http://a:1/b")).map
      (fun result => (result.peer, result.error)) =
        some (some (ascii "a", ascii "1"), none) := by
    decide +kernel
  rw [hget, Option.map_some, Option.some.injEq, Prod.mk.injEq] at hrun
  exact ⟨result, hget, hrun.1, hrun.2, hgets⟩

end HttpAio

end PosixThreads
