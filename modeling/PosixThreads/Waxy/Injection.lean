import PosixThreads.Waxy.Upstream
import PosixThreads.Waxy.Url.Text

/-!
# Request injection

An upstream cuts the request that `upstream_on_connect` sends into lines. A path or a host
with a line break in it would add lines of its own, for which the one who sends the URL could
choose any header, or a second request. Because the text of a parsed URL is clean, the lines of
the request are always those of the template.
-/

namespace PosixThreads

/-- The lines of a request, cut at each CR LF. -/
def splitCrlf : List UInt8 → List (List UInt8)
  | [] => [[]]
  | [c] => [[c]]
  | c :: d :: rest =>
      if c = '\r'.toUInt8 ∧ d = '\n'.toUInt8 then [] :: splitCrlf rest
      else (splitCrlf (d :: rest)).modifyHead (c :: ·)

/-- The bytes that may end a line. -/
def isLineEnd (c : UInt8) : Bool := c = '\r'.toUInt8 || c = '\n'.toUInt8

/-- The URL brings no line into the request: its lines are those of the template, and all CR
and LF in it are, too. -/
structure NoInjection (url : Url) : Prop where
  host : ∀ c ∈ url.host.text url.buf, isBreak c = false
  path : ∀ c ∈ url.path.text url.buf, isPrintable c = true
  query : ∀ c ∈ url.query.text url.buf, isPrintable c = true
  fragment : ∀ c ∈ url.fragment.text url.buf, isPrintable c = true
  lines : splitCrlf (upstreamRequest url) =
    [cstr "GET " ++ url.path.text url.buf ++ cstr " HTTP/1.1",
      cstr "User-Agent: waxy/101", cstr "Connection: close",
      cstr "Host: " ++ url.host.text url.buf, cstr "Accept: */*", [], []]
  lineEnds : (upstreamRequest url).filter isLineEnd = requestSlices.flatten.filter isLineEnd

theorem splitCrlf_append {text rest : List UInt8} (h : ∀ c ∈ text, c ≠ '\r'.toUInt8) :
    splitCrlf (text ++ cstr "\r\n" ++ rest) = text :: splitCrlf rest := by
  induction text with
  | nil => simp [cstr, splitCrlf]
  | cons c text ih =>
      have hc : c ≠ '\r'.toUInt8 := h c (by simp)
      have ih := ih fun d hd => h d (by simp [hd])
      -- there is always a next byte, the one of the break if not one of the text
      obtain ⟨d, tail, htail⟩ : ∃ d tail, text ++ cstr "\r\n" ++ rest = d :: tail :=
        List.exists_cons_of_ne_nil (by simp [cstr])
      rw [List.cons_append, List.cons_append, htail, splitCrlf, if_neg (fun hcd => hc hcd.1),
        ← htail, ih]
      rfl

section Request

variable {url : Url}

theorem ne_cr_of_isBreak {c : UInt8} (h : isBreak c = false) : c ≠ '\r'.toUInt8 := by
  intro hc
  simp [isBreak, hc] at h

theorem isLineEnd_of_isBreak {c : UInt8} (h : isBreak c = false) : isLineEnd c = false := by
  simp only [isBreak, Bool.or_eq_false_iff] at h
  simp [isLineEnd, h.1.1, h.1.2]

theorem filter_isLineEnd {text : List UInt8} (h : ∀ c ∈ text, isBreak c = false) :
    text.filter isLineEnd = [] :=
  List.filter_eq_nil_iff.mpr fun c hc => by simp [isLineEnd_of_isBreak (h c hc)]

namespace CleanText

theorem host_clean (h : CleanText url) : ∀ c ∈ url.host.text url.buf, isBreak c = false :=
  fun c hc => h.buf c (List.mem_of_mem_drop (List.mem_of_mem_take hc))

theorem path_clean (h : CleanText url) : ∀ c ∈ url.path.text url.buf, isBreak c = false :=
  fun c hc => isBreak_of_isPrintable (h.path c hc)

theorem lines (h : CleanText url) : splitCrlf (upstreamRequest url) =
    [cstr "GET " ++ url.path.text url.buf ++ cstr " HTTP/1.1",
      cstr "User-Agent: waxy/101", cstr "Connection: close",
      cstr "Host: " ++ url.host.text url.buf, cstr "Accept: */*", [], []] := by
  have hrequest : upstreamRequest url =
      (cstr "GET " ++ url.path.text url.buf ++ cstr " HTTP/1.1") ++ cstr "\r\n" ++
      (cstr "User-Agent: waxy/101" ++ cstr "\r\n" ++ (cstr "Connection: close" ++ cstr "\r\n" ++
      ((cstr "Host: " ++ url.host.text url.buf) ++ cstr "\r\n" ++
      (cstr "Accept: */*" ++ cstr "\r\n" ++ ([] ++ cstr "\r\n" ++ []))))) := by
    have hfirst : requestSlices[1] = cstr " HTTP/1.1" ++ cstr "\r\n" ++
        cstr "User-Agent: waxy/101" ++ cstr "\r\n" ++ cstr "Connection: close" ++ cstr "\r\n" ++
        cstr "Host: " := by decide
    have hlast : requestSlices[2] = cstr "\r\n" ++ cstr "Accept: */*" ++ cstr "\r\n" ++
        cstr "\r\n" := by decide
    simp only [upstreamRequest, upstreamSlices, hfirst, hlast, List.flatten_cons, List.flatten_nil,
      List.append_assoc, List.nil_append, List.append_nil]
    rfl
  have hget : ∀ c ∈ cstr "GET " ++ url.path.text url.buf ++ cstr " HTTP/1.1",
      c ≠ '\r'.toUInt8 := by
    refine List.forall_mem_append.mpr ⟨List.forall_mem_append.mpr ⟨by decide +kernel, ?_⟩,
      by decide +kernel⟩
    exact fun c hc => ne_cr_of_isBreak (h.path_clean c hc)
  have hhost : ∀ c ∈ cstr "Host: " ++ url.host.text url.buf, c ≠ '\r'.toUInt8 :=
    List.forall_mem_append.mpr
      ⟨by decide +kernel, fun c hc => ne_cr_of_isBreak (h.host_clean c hc)⟩
  rw [hrequest, splitCrlf_append hget, splitCrlf_append (by decide +kernel),
    splitCrlf_append (by decide +kernel), splitCrlf_append hhost,
    splitCrlf_append (by decide +kernel), splitCrlf_append (by decide +kernel), splitCrlf]

theorem lineEnds (h : CleanText url) :
    (upstreamRequest url).filter isLineEnd = requestSlices.flatten.filter isLineEnd := by
  simp only [upstreamRequest, upstreamSlices, List.flatten_cons, List.filter_append,
    filter_isLineEnd h.path_clean, filter_isLineEnd h.host_clean, List.nil_append]
  rfl

end CleanText

/-- Whatever is parsed, the URL brings no line into the request. -/
theorem noInjection_of_urlParse {alloc : Alloc} {slice : List UInt8} {r : UrlParseResult}
    (h : urlParse alloc slice = some r) (hfatal : r.fatal = false) :
    ∃ url, r.url = some url ∧ NoInjection url := by
  obtain ⟨parsed, hparsed, hsome⟩ := exists_urlParse alloc slice
  obtain rfl : parsed = r := by simpa [h] using hparsed.symm
  obtain ⟨url, hurl⟩ := Option.isSome_iff_exists.mp (hsome hfatal)
  have hparse : urlParse alloc slice = some ⟨parsed.err, false, some url⟩ := by
    rw [h, ← hfatal, ← hurl]
  have hclean := cleanText_of_urlParse hparse
  exact ⟨url, hurl, hclean.host_clean, hclean.path, hclean.query, hclean.fragment, hclean.lines,
    hclean.lineEnds⟩

end Request

/-- A header in the path stays in the path. -/
theorem noInjection_header_in_path : ∃ r url,
    urlParse (fun _ => true) (cstr "http://a\tb/c\r\nX: y\r\n\r\n?\x01 #\r\nf") = some r ∧
    r.fatal = false ∧ r.url = some url ∧ url.scheme.text url.buf = cstr "http" ∧
    url.path.text url.buf = cstr "/cX:%20y" ∧ NoInjection url := by
  have htest : ((urlParse (fun _ => true)
      (cstr "http://a\tb/c\r\nX: y\r\n\r\n?\x01 #\r\nf")).any fun r =>
        decide (r.fatal = false ∧ ∀ url ∈ r.url, url.scheme.text url.buf = cstr "http" ∧
          url.path.text url.buf = cstr "/cX:%20y")) = true := by
    decide +kernel
  obtain ⟨r, hr, htest⟩ := (Option.any_eq_true _ _).mp htest
  obtain ⟨hfatal, htexts⟩ := of_decide_eq_true htest
  obtain ⟨url, hurl, hno⟩ := noInjection_of_urlParse hr hfatal
  obtain ⟨hscheme, hpath⟩ := htexts url hurl
  exact ⟨r, url, hr, hfatal, hurl, hscheme, hpath, hno⟩

end PosixThreads
