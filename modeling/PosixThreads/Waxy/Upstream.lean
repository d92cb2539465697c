import PosixThreads.Waxy.Client

/-!
# Requests to upstreams

The request that `upstream_on_connect` builds for a URL has the path and the host of the
URL between fixed texts. The cache keeps URLs with different queries apart, but the query
is not part of the request, and the path may be empty.
-/

namespace PosixThreads

def requestSlices : List (List UInt8) :=
  [cstr "GET ",
    cstr " HTTP/1.1\r\nUser-Agent: waxy/101\r\nConnection: close\r\nHost: ",
    cstr "\r\nAccept: */*\r\n\r\n"]

/-- The slices that `upstream_on_connect` passes to `tcp_write`. -/
def upstreamSlices (url : Url) : List (List UInt8) :=
  [requestSlices[0], url.path.text url.buf, requestSlices[1], url.host.text url.buf,
    requestSlices[2]]

def upstreamRequest (url : Url) : List UInt8 := (upstreamSlices url).flatten

/-- What stands between the method and the version. -/
def requestTarget (url : Url) : List UInt8 := ((upstreamSlices url)[1]?).getD []

/-- The target of a request for a URL: its path, and its query if there is one. -/
def urlTarget (url : Url) : List UInt8 :=
  url.path.text url.buf ++ if url.queryNull then [] else Char.toUInt8 '?' :: url.query.text url.buf

/-- The requests for two URLs are different, and their targets are those of the URLs. -/
structure RequestsSound (u v : Url) : Prop where
  separated : upstreamRequest u ≠ upstreamRequest v
  target_eq : ∀ url ∈ [u, v], requestTarget url = urlTarget url
  target_ne : ∀ url ∈ [u, v], requestTarget url ≠ []

section Request

variable {alloc : Alloc} {path path' : List UInt8} {u v url : Url}

theorem hostNull_of_clientAcceptUrl (h : clientAcceptUrl alloc path = some url) :
    url.hostNull = false := by
  simp only [clientAcceptUrl, Option.bind_eq_bind, Option.bind_eq_some_iff] at h
  obtain ⟨parsed, _, h⟩ := h
  have hcheck : (clientCheckUrl parsed).1 = none := by
    cases hcheck : clientCheckUrl parsed with
    | mk err url' =>
        cases err with
        | none => rfl
        | some err => simp [hcheck] at h
  obtain ⟨url', hurl⟩ := acceptable_of_clientCheckUrl hcheck
  rw [clientCheckUrl_of_acceptable hurl] at h
  simp only [Option.pure_def, Option.some.injEq] at h
  rw [← h, urlDefaultPort]
  split <;> exact hurl.2.2.2

theorem upstreamRequest_inj (hhost : u.host.text u.buf = v.host.text v.buf) :
    upstreamRequest u = upstreamRequest v ↔ u.path.text u.buf = v.path.text v.buf := by
  constructor
  · intro h
    simp only [upstreamRequest, upstreamSlices, List.flatten_cons, hhost] at h
    exact List.append_cancel_right (List.append_cancel_left h)
  · intro h
    simp only [upstreamRequest, upstreamSlices, h, hhost]

theorem requestTarget_eq_iff : requestTarget url = urlTarget url ↔ url.queryNull = true := by
  cases hquery : url.queryNull <;> simp [requestTarget, upstreamSlices, urlTarget, hquery]

/-- The cache keeps URLs with different paths or queries apart. -/
theorem urlEq_of_differ (hdiff : u.key.path ≠ v.key.path ∨ u.key.query ≠ v.key.query) :
    urlEq u v = false := by
  rw [← Bool.not_eq_true, urlEq_iff]
  intro hkey
  rw [hkey] at hdiff
  simp at hdiff

theorem RequestsSound.cond (h : RequestsSound u v) :
    ∀ url ∈ [u, v], url.queryNull = true ∧ url.path.text url.buf ≠ [] :=
  fun url hurl => ⟨requestTarget_eq_iff.mp (h.target_eq url hurl), h.target_ne url hurl⟩

/-- The requests for two URLs that the cache keeps apart are as they should be exactly if
the URLs have no query and their paths are not empty. -/
theorem requestsSound_iff (hu : clientAcceptUrl alloc path = some u)
    (hv : clientAcceptUrl alloc path' = some v) (hhost : u.key.host = v.key.host)
    (hdiff : u.key.path ≠ v.key.path ∨ u.key.query ≠ v.key.query) :
    urlEq u v = false ∧ (RequestsSound u v ↔
      ∀ url ∈ [u, v], url.queryNull = true ∧ url.path.text url.buf ≠ []) := by
  refine ⟨urlEq_of_differ hdiff, fun h => h.cond, fun hcond => ?_⟩
  have hhost' : u.host.text u.buf = v.host.text v.buf := by
    simpa [Url.key, hostNull_of_clientAcceptUrl hu, hostNull_of_clientAcceptUrl hv] using hhost
  refine ⟨?_, fun url hurl => requestTarget_eq_iff.mpr (hcond url hurl).1,
    fun url hurl => (hcond url hurl).2⟩
  rw [Ne, upstreamRequest_inj hhost']
  rcases hdiff with hpath | hquery
  · exact hpath
  · -- without a query there is no difference in it
    have hnone : ∀ url ∈ [u, v], url.key.query = none := fun url hurl => by
      simp [Url.key, (hcond url hurl).1]
    rw [hnone u (by simp), hnone v (by simp)] at hquery
    exact absurd rfl hquery

end Request

/-- Two different paths on one host are requested as they should be. -/
theorem requestsSound_two_paths : ∃ u v,
    clientAcceptUrl (fun _ => true) (cstr "http://h/a") = some u ∧
    clientAcceptUrl (fun _ => true) (cstr "http://h/b") = some v ∧
    u.key.host = v.key.host ∧ u.key.port = v.key.port ∧ urlEq u v = false ∧
    RequestsSound u v := by
  have htest : ((clientAcceptUrl (fun _ => true) (cstr "http://h/a")).any fun u =>
      (clientAcceptUrl (fun _ => true) (cstr "http://h/b")).any fun v =>
        decide (u.key.host = v.key.host ∧ u.key.port = v.key.port ∧ u.key.path ≠ v.key.path ∧
          ∀ url ∈ [u, v], url.queryNull = true ∧ url.path.text url.buf ≠ [])) = true := by
    decide +kernel
  obtain ⟨u, hu, htest⟩ := (Option.any_eq_true _ _).mp htest
  obtain ⟨v, hv, htest⟩ := (Option.any_eq_true _ _).mp htest
  obtain ⟨hhost, hport, hpath, hcond⟩ := of_decide_eq_true htest
  have hsound := requestsSound_iff hu hv hhost (Or.inl hpath)
  exact ⟨u, v, hu, hv, hhost, hport, hsound.1, hsound.2.mpr hcond⟩

/-- Two URLs that differ only in the query have the same request. -/
theorem not_requestsSound_two_queries : ∃ u v,
    clientAcceptUrl (fun _ => true) (cstr "http://h/?a") = some u ∧
    clientAcceptUrl (fun _ => true) (cstr "http://h/?b") = some v ∧
    u.key.host = v.key.host ∧ u.key.port = v.key.port ∧ u.key.query ≠ v.key.query ∧
    urlEq u v = false ∧ upstreamRequest u = upstreamRequest v ∧ ¬RequestsSound u v := by
  have htest : ((clientAcceptUrl (fun _ => true) (cstr "http://h/?a")).any fun u =>
      (clientAcceptUrl (fun _ => true) (cstr "http://h/?b")).any fun v =>
        decide (u.key.host = v.key.host ∧ u.key.port = v.key.port ∧ u.key.query ≠ v.key.query ∧
          upstreamRequest u = upstreamRequest v)) = true := by
    decide +kernel
  obtain ⟨u, hu, htest⟩ := (Option.any_eq_true _ _).mp htest
  obtain ⟨v, hv, htest⟩ := (Option.any_eq_true _ _).mp htest
  obtain ⟨hhost, hport, hquery, hsame⟩ := of_decide_eq_true htest
  refine ⟨u, v, hu, hv, hhost, hport, hquery, urlEq_of_differ (Or.inr hquery), hsame, ?_⟩
  exact fun hsound => hsound.separated hsame

end PosixThreads
