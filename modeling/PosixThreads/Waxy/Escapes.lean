import PosixThreads.Waxy.Client
import PosixThreads.Waxy.Url.Port

/-!
# Percent escapes

The opaque path, the query and the fragment take a percent sign for a legal character and then
look for two hex digits behind it. The path does the second only, so that every escape in a path
is an illegal character. A plain URL whose parts have allowed bytes and valid escapes is therefore
accepted if and only if there is no escape in its path.
-/

namespace PosixThreads

/-- A text of allowed bytes and of valid escapes. -/
inductive PercentText : List UInt8 → Prop
  | nil : PercentText []
  | char {c : UInt8} {text : List UInt8} (legal : isUrlAscii c = true) (rest : PercentText text) :
      PercentText (c :: text)
  | escape {c d : UInt8} {text : List UInt8} (hc : isAsciiHex c = true) (hd : isAsciiHex d = true)
      (rest : PercentText text) : PercentText ('%'.toUInt8 :: c :: d :: text)

/-- The text of a query: apostrophes are encoded, and everything else is copied. -/
def copiedQuery (text : List UInt8) : List UInt8 :=
  text.flatMap fun c => if c = 0x27 then cstr "%27" else [c]

/-- The URL is parsed without an error, the client accepts it, and the escapes are copied. -/
def EscapesAccepted (scheme host path : List UInt8) (query fragment : Option (List UInt8)) : Prop :=
  ∃ url, urlParse allocAll (plainUrl scheme host path query fragment) =
      some ⟨none, false, some url⟩ ∧
    (clientCheckUrl ⟨none, false, some url⟩).1 = none ∧
    url.path.text url.buf = path ∧
    (∀ text, query = some text → url.query.text url.buf = copiedQuery text) ∧
    (∀ text, fragment = some text → url.fragment.text url.buf = text)

/-! ## Allowed bytes -/

theorem forall_uint8 {P : UInt8 → Prop} (h : ∀ n < 256, P (UInt8.ofNat n)) (c : UInt8) : P c := by
  have := h c.toNat c.toNat_lt
  rwa [UInt8.ofNat_toNat] at this

/-- What the sets do to the bytes that a part may have. -/
theorem percencContains_of_legal (c : UInt8) (h : isUrlAscii c = true ∨ c = '%'.toUInt8) :
    (c ≠ '?'.toUInt8 → percencContains c .path = false) ∧
    (percencContains c .specQuery = true ↔ c = 0x27) ∧
    percencContains c .fragment = false := by
  revert c
  exact forall_uint8 (by decide +kernel)

theorem isUrlAscii_of_isAsciiHex (c : UInt8) (h : isAsciiHex c = true) : isUrlAscii c = true := by
  revert c
  exact forall_uint8 (by decide +kernel)

namespace PercentText

variable {text : List UInt8} {c : UInt8}

theorem mem (h : PercentText text) (hc : c ∈ text) : isUrlAscii c = true ∨ c = '%'.toUInt8 := by
  induction h with
  | nil => simp at hc
  | char legal _ ih =>
      rcases List.mem_cons.mp hc with rfl | hc
      · exact .inl legal
      · exact ih hc
  | escape hd he _ ih =>
      simp only [List.mem_cons] at hc
      rcases hc with rfl | rfl | rfl | hc
      · exact .inr rfl
      · exact .inl (isUrlAscii_of_isAsciiHex _ hd)
      · exact .inl (isUrlAscii_of_isAsciiHex _ he)
      · exact ih hc

theorem escapedText (h : PercentText text) : EscapedText text := by
  induction h with
  | nil =>
      intro t c t' htext
      simp at htext
  | char legal _ ih =>
      intro t c t' htext
      rcases List.cons_eq_append_iff.mp htext with ⟨rfl, hcons⟩ | ⟨t, rfl, htail⟩
      · rw [List.cons.injEq] at hcons
        exact .inl (hcons.1 ▸ legal)
      · exact ih t c t' htail
  | @escape d e text hd he _ ih =>
      have hhex : ∀ t c t', d :: e :: text = t ++ c :: t' →
          isUrlAscii c = true ∨ (c = '%'.toUInt8 ∧ isInvalidPercentEscape t' = false) := by
        intro t c t' htext
        match t with
        | [] =>
            rw [List.nil_append, List.cons.injEq] at htext
            exact .inl (htext.1 ▸ isUrlAscii_of_isAsciiHex _ hd)
        | [_] =>
            simp only [List.cons_append, List.nil_append, List.cons.injEq] at htext
            exact .inl (htext.2.1 ▸ isUrlAscii_of_isAsciiHex _ he)
        | _ :: _ :: t =>
            simp only [List.cons_append, List.cons.injEq] at htext
            exact ih t c t' htext.2.2
      intro t c t' htext
      rcases List.cons_eq_append_iff.mp htext with ⟨rfl, hcons⟩ | ⟨t, rfl, htail⟩
      · rw [List.cons.injEq] at hcons
        obtain ⟨rfl, rfl⟩ := hcons
        exact .inr ⟨rfl, by simp [isInvalidPercentEscape, hd, he]⟩
      · exact hhex t c t' htail

theorem encode_path (h : PercentText text) (hquery : '?'.toUInt8 ∉ text) :
    percentEncodeAll .path text = text := by
  refine (List.flatMap_congr fun c hc => ?_).trans (List.flatMap_singleton' text)
  have hne : c ≠ '?'.toUInt8 := fun heq => hquery (heq ▸ hc)
  rw [percentEncode, (percencContains_of_legal c (h.mem hc)).1 hne, if_neg Bool.false_ne_true]

theorem encode_query (h : PercentText text) :
    percentEncodeAll .specQuery text = copiedQuery text := by
  refine List.flatMap_congr fun c hc => ?_
  have hiff := (percencContains_of_legal c (h.mem hc)).2.1
  rw [percentEncode]
  by_cases hquote : c = 0x27
  · rw [if_pos (hiff.mpr hquote), if_pos hquote, hquote]
    rfl
  · rw [if_neg fun hset => hquote (hiff.mp hset), if_neg hquote]

theorem encode_fragment (h : PercentText text) : percentEncodeAll .fragment text = text := by
  refine (List.flatMap_congr fun c hc => ?_).trans (List.flatMap_singleton' text)
  rw [percentEncode, (percencContains_of_legal c (h.mem hc)).2.2, if_neg Bool.false_ne_true]

end PercentText

/-! ## Errors stay -/

theorem UrlReaches.err_ne_none {alloc : Alloc} {slice : List UInt8} {s : UrlParser × Option Error}
    (hs : UrlReaches alloc slice s) (herr : s.2 ≠ none) {r : UrlParseResult}
    (hr : urlParse alloc slice = some r) : r.err ≠ none := by
  have hkept : ∀ t, Iterate.Reaches (urlLoopBody alloc) s t → t.2 ≠ none := by
    intro t ht
    induction ht with
    | refl => exact herr
    | @tail t t' ht hturn ih =>
        have htr : UrlReaches alloc slice t := ⟨hs.copied, hs.buffered, hs.reaches.trans ht⟩
        have hturn' : urlLoopBody alloc t = .inl t' := hturn
        rcases urlLoopBody_cases alloc htr.inv with
          ⟨_, hbody⟩ | ⟨_, err, p, _, _, ⟨_, hbody⟩ | ⟨_, hbody⟩⟩
        · simp [hbody] at hturn'
        · simp [hbody] at hturn'
        · rw [hbody, Sum.inl.injEq] at hturn'
          rw [← hturn']
          exact fun hnone => ih ((errorCombine_eq_none_iff _ _ _).mp hnone).1
  rcases urlParse_cases alloc slice with
    ⟨hnone, _⟩ | ⟨t, ht, ⟨hstate, hfail⟩ | ⟨hstate, err, p, hstep, _, heof, hdone⟩⟩
  · exact absurd hs (hnone s)
  · have hstate' : t.1.advance.state = .fail := hstate
    have hbody : urlLoopBody alloc t = .inr (.parserFail t.2) := by
      simp [urlLoopBody, hstate']
    rw [hr, Option.some.injEq] at hfail
    rw [hfail]
    exact hkept t (Iterate.reaches_of_done hs.reaches ht.reaches hbody)
  · have hstate' : t.1.advance.state ≠ .fail := hstate
    have hbody : urlLoopBody alloc t = .inr (.finished p (errorCombine t.2 err)) := by
      simp [urlLoopBody, hstate', hstep, heof]
    have hkept' := hkept t (Iterate.reaches_of_done hs.reaches ht.reaches hbody)
    rw [hr, Option.some.injEq] at hdone
    rw [hdone]
    exact fun hnone => hkept' ((errorCombine_eq_none_iff _ _ _).mp hnone).1

/-! ## Plain URLs -/

section Plain

variable {scheme host path : List UInt8} {query fragment : Option (List UInt8)}

theorem urlParse_quiet (h : PlainParts scheme host path query fragment)
    (hquiet : QuietParts path query fragment)
    (hin : (plainUrl scheme host path query fragment).length + 1 ≤ ptrdiffMax)
    (hout : (plainBuf host path query fragment).length + 1 ≤ ptrdiffMax) :
    urlParse allocAll (plainUrl scheme host path query fragment) = some ⟨none, false,
      some ⟨plainRegion host path query fragment, plainBuf host path query fragment⟩⟩ := by
  have hends := endsWith_plain True h (fun _ => hquiet) hin
    (.inr ⟨fun _ => rfl, hout⟩ : Room allocAll False _)
  have hnormal := urlNormalize_of_forall h.ge
  rcases hends none (layout_initial _) with
    ⟨q, err₁, err₂, p', hreach, hstate, hstep, heof, hurl, hnone⟩ | ⟨hfalse, _⟩
  · have hcopied : (allocAll 0 && (plainUrl scheme host path query fragment).length + 1 ≤
        ptrdiffMax) = true := by
      simpa [allocAll] using hin
    have hs : UrlReaches allocAll (plainUrl scheme host path query fragment) (q, err₁) := by
      refine ⟨hcopied, rfl, ?_⟩
      rw [urlLoopStart, hnormal]
      exact hreach
    obtain ⟨rfl, rfl⟩ := hnone trivial
    rw [hs.urlParse_of_eof hstate hstep heof, hurl]
    rfl
  · exact hfalse.elim

theorem reaches_percent (h : PlainParts scheme host path query fragment)
    (hmem : '%'.toUInt8 ∈ path)
    (hin : (plainUrl scheme host path query fragment).length + 1 ≤ ptrdiffMax)
    (hout : (plainBuf host path query fragment).length + 1 ≤ ptrdiffMax) :
    ∃ q err pre rest, UrlReaches allocAll (plainUrl scheme host path query fragment) (q, err) ∧
      At q pre ('%'.toUInt8 :: rest) ∧ q.state = .path ∧ q.special = true := by
  obtain ⟨t, t', hsplit⟩ := List.append_of_mem hmem
  have hlen : (cstr "http").length = 4 := rfl
  have hroom : Room allocAll False (plainBuf host path query fragment).length :=
    .inr ⟨fun _ => rfl, hout⟩
  have hhost : Room allocAll False (cstr "http" ++ host).length :=
    hroom.mono (by simp only [plainBuf, List.length_append]; omega)
  have hpre : scheme ++ cstr "://" ≠ [] := by simp [cstr]
  obtain ⟨hgoes₁, hat₁⟩ := goes_http allocAll False False h.scheme_eq (h.host_head _) hin
    (hroom.mono (by simp only [plainBuf, List.length_append, hlen]; omega))
  obtain ⟨pos₂, allocs₂, hgoes₂, hat₂⟩ := goes_auth False host hat₁ hpre rfl rfl rfl
    (fun c hc => ⟨(h.host_char hc).1, (h.host_char hc).2.2.2.2⟩) h.isDelimiter_rest hhost
  obtain ⟨pos₃, allocs₃, hgoes₃, hat₃⟩ := goes_host False host hat₂ hpre rfl rfl h.host_ne
    (fun c hc => (h.host_char hc).2) h.isDelimiter_rest hhost
  generalize hp₃ : UrlParser.withHost _ host pos₃ allocs₃ = p₃ at hgoes₃ hat₃
  have hbuf₃ : p₃.buf = cstr "http" ++ host := by rw [← hp₃]; rfl
  have hhttp₃ : IsHttp p₃ := by
    rw [← hp₃]
    exact ⟨rfl, List.take_left' rfl, rfl⟩
  have htext₃ : PathText p₃.buf [] p₃ := by
    refine ⟨by simp, ?_, ?_⟩
    · rw [← hp₃]
      simp [UrlParser.withHost]
    · rw [← hp₃]
      simp [UrlParser.extendedPath, UrlParser.bufLen, UrlParser.withHost, httpParser,
        UrlRegion.initial, Region.empty]
  have hat₃' : At p₃ (scheme ++ cstr "://" ++ host) (t ++ '%'.toUInt8 ::
      (t' ++ (optionalPart '?' query ++ optionalPart '#' fragment))) := by
    rw [hsplit] at hat₃
    simpa using hat₃
  obtain ⟨slice, region, pos, allocs, hgoes₄, hat₄, _⟩ := goes_path False t hat₃'
    (by rw [← hp₃]; rfl) hhttp₃ htext₃ (fun c hc => h.path_char (by simp [hsplit, hc])) False.elim
    (hroom.mono (by
      rw [hbuf₃, plainBuf, hsplit]
      simp only [percentEncodeAll_append, List.length_append]
      omega))
  generalize hq : p₃.inPath _ slice region pos allocs = q at hgoes₄ hat₄
  have hnormal := urlNormalize_of_forall h.ge
  have hcopied : (allocAll 0 && (plainUrl scheme host path query fragment).length + 1 ≤
      ptrdiffMax) = true := by
    simpa [allocAll] using hin
  rcases (((hgoes₁.trans hgoes₂).trans hgoes₃).trans hgoes₄) none (layout_initial _) with
    ⟨_, err, hreach, _⟩ | ⟨hfalse, _⟩
  · refine ⟨q, err, _, _, ⟨hcopied, rfl, ?_⟩, hat₄, by rw [← hq, ← hp₃]; rfl,
      by rw [← hq, ← hp₃]; rfl⟩
    rw [urlLoopStart, hnormal]
    exact hreach
  · exact hfalse.elim

/-- A percent sign in the path is an error. -/
theorem urlParse_err_of_percent (h : PlainParts scheme host path query fragment)
    (hmem : '%'.toUInt8 ∈ path)
    (hin : (plainUrl scheme host path query fragment).length + 1 ≤ ptrdiffMax)
    (hout : (plainBuf host path query fragment).length + 1 ≤ ptrdiffMax) {r : UrlParseResult}
    (hr : urlParse allocAll (plainUrl scheme host path query fragment) = some r) :
    r.err ≠ none := by
  obtain ⟨q, err, pre, rest, hs, hat, hstate, hspecial⟩ := reaches_percent h hmem hin hout
  have hc : q.advance.c = some '%'.toUInt8 := hat.c_eq
  have hstate' : q.advance.state = .path := hstate
  have hdelim : isDelimiter q.advance.special (some '%'.toUInt8) = false := by
    have hspecial' : q.advance.special = true := hspecial
    rw [hspecial']
    decide
  obtain ⟨e, herr⟩ : ∃ e, charErr (!isUrlAscii '%'.toUInt8 && '%'.toUInt8 < 0x80)
      "An illegal character was detected in the path" q.advance '%'.toUInt8 = some e := by
    have hillegal : (!isUrlAscii '%'.toUInt8 && '%'.toUInt8 < 0x80) = true := by decide
    rw [hillegal, charErr]
    cases percentErr q.advance '%'.toUInt8 with
    | none => exact ⟨_, rfl⟩
    | some e => exact ⟨e, rfl⟩
  have hstep : urlParserStep allocAll q.advance =
      appendOrFail allocAll q.advance (percentEncode .path '%'.toUInt8) (some e)
        fun p => some (some e, p) := by
    simp only [urlParserStep, hstate', urlParserPath, hc, hdelim, Bool.false_eq_true, if_false,
      herr]
  -- the turn has an error whether its push succeeds or fails
  have hturn : ∃ e' p, urlParserStep allocAll q.advance = some (some e', p) ∧
      p.input = q.input ∧ p.pos = q.advance.pos := by
    rw [hstep, appendOrFail]
    rcases UrlParser.append_cases allocAll q.advance (percentEncode .path '%'.toUInt8) with
      ⟨_, happend⟩ | happend
    · rw [happend]
      exact ⟨e, _, rfl, rfl, rfl⟩
    · rw [happend]
      exact ⟨_, _, rfl, rfl, rfl⟩
  obtain ⟨e', p, hstep', hinput, hpos⟩ := hturn
  obtain ⟨_, heof⟩ := hat.next hinput hpos
  have hturn' : Iterate.Turn (urlLoopBody allocAll) (q, err) (p, errorCombine err (some e')) :=
    urlLoopBody_of_step (by rw [hstate]; decide) hstep' heof
  refine (hs.turn hturn').err_ne_none ?_ hr
  exact fun hnone => by simp at hnone

/-- A plain URL of allowed bytes and valid escapes is accepted if and only if there is no escape
in its path. -/
theorem escapesAccepted_iff (h : PlainParts scheme host path query fragment)
    (hpath : PercentText path) (hquery : ∀ text, query = some text → PercentText text)
    (hfragment : ∀ text, fragment = some text → PercentText text)
    (hin : (plainUrl scheme host path query fragment).length + 1 ≤ ptrdiffMax)
    (hout : (plainBuf host path query fragment).length + 1 ≤ ptrdiffMax) :
    EscapesAccepted scheme host path query fragment ↔ '%'.toUInt8 ∉ path := by
  constructor
  · rintro ⟨url, hparse, _⟩ hmem
    exact urlParse_err_of_percent h hmem hin hout hparse rfl
  · intro hmem
    have hlegal : ∀ c ∈ path, isUrlAscii c = true := by
      intro c hc
      exact (hpath.mem hc).resolve_right fun heq => hmem (heq ▸ hc)
    have hquiet : QuietParts path query fragment :=
      ⟨hlegal, fun text ht => (hquery text ht).escapedText,
        fun text ht => (hfragment text ht).escapedText⟩
    have htexts : UrlTexts
        ⟨plainRegion host path query fragment, plainBuf host path query fragment⟩ host path query
        fragment := plainRegion_texts
    refine ⟨_, urlParse_quiet h hquiet hin hout, ?_, ?_, ?_, ?_⟩
    · rw [clientCheckUrl_of_acceptable ⟨rfl, rfl, htexts.scheme, htexts.hostNull⟩]
    · rw [htexts.path]
      exact hpath.encode_path fun hmem => (h.path_char hmem).1 rfl
    · rintro text rfl
      rw [htexts.query]
      exact (hquery text rfl).encode_query
    · rintro text rfl
      rw [htexts.fragment]
      exact (hfragment text rfl).encode_fragment

end Plain

/-- Escapes in the query and in the fragment. -/
theorem escapesAccepted_query :
    EscapesAccepted (cstr "http") (cstr "h") (cstr "/p") (some (cstr "a%20b"))
      (some (cstr "%4f")) := by
  have hparts : PlainParts (cstr "http") (cstr "h") (cstr "/p") (some (cstr "a%20b"))
      (some (cstr "%4f")) :=
    ⟨by decide, by decide +kernel, by decide +kernel, by decide +kernel, by decide +kernel,
      fun text ht => by cases ht; decide +kernel, fun text ht => by cases ht; decide +kernel⟩
  have hpath : PercentText (cstr "/p") := .char (by decide) (.char (by decide) .nil)
  have hquery : PercentText (cstr "a%20b") :=
    .char (by decide) (.escape (by decide) (by decide) (.char (by decide) .nil))
  have hfragment : PercentText (cstr "%4f") := .escape (by decide) (by decide) .nil
  exact (escapesAccepted_iff hparts hpath (fun text ht => by cases ht; exact hquery)
    (fun text ht => by cases ht; exact hfragment) (by decide) (by decide)).mpr (by decide +kernel)

/-- An escape in the path. -/
theorem not_escapesAccepted_path :
    PlainParts (cstr "http") (cstr "h") (cstr "/a%20b") none none ∧
    PercentText (cstr "/a%20b") ∧
    ¬ EscapesAccepted (cstr "http") (cstr "h") (cstr "/a%20b") none none := by
  refine ⟨⟨by decide, by decide +kernel, by decide +kernel, by decide +kernel, by decide +kernel,
    nofun, nofun⟩, ?_, ?_⟩
  · exact .char (by decide) (.char (by decide)
      (.escape (by decide) (by decide) (.char (by decide) .nil)))
  · rintro ⟨url, hparse, _⟩
    have herr : ((urlParse allocAll (plainUrl (cstr "http") (cstr "h") (cstr "/a%20b") none
        none)).any fun r => r.err.isSome) = true := by
      decide +kernel
    rw [hparse] at herr
    simp at herr

end PosixThreads
