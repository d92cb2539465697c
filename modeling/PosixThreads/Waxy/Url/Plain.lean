import PosixThreads.Waxy.Url.Run

/-!
# The decomposition of a plain URL

A plain `http` URL has no user info and no port. The authority state reads its host,
drops it and moves back, the host state reads it again, and the path, the query and
the fragment follow in one buffer. `goes_http` runs the parser up to the authority,
the lemmas after it over one component each, and `urlParse_plain` puts them together.
-/

namespace PosixThreads

theorem isAsciiAlpha_of_toLower {c : UInt8} (h : isAsciiLowerAlpha (toLower c) = true) :
    isAsciiAlpha c = true := by
  unfold toLower at h
  split at h
  · rename_i hupper
    simp [isAsciiAlpha, hupper]
  · simp [isAsciiAlpha, h]

/-! ## Normalisation -/

theorem removeTabNl_of_forall (i : ℕ) {input : List UInt8} (h : ∀ c ∈ input, 0x21 ≤ c) :
    removeTabNl i input false = (input, false) := by
  induction i with
  | zero => rfl
  | succ i ih =>
      unfold removeTabNl
      split
      · rename_i c hc
        have hle := h c (List.mem_of_getElem? hc)
        rw [if_neg]
        · exact ih
        · simp only [Bool.or_eq_true, decide_eq_true_eq]
          rintro ((rfl | rfl) | rfl) <;> exact absurd hle (by decide)
      · exact ih

theorem isC0Space_of_ge {c : UInt8} (h : 0x21 ≤ c) : isC0Space c = false := by
  rw [UInt8.le_iff_toNat_le] at h
  simp only [isC0Space, decide_eq_false_iff_not, UInt8.le_iff_toNat_le]
  have h33 : (0x21 : UInt8).toNat = 33 := rfl
  have h32 : (0x20 : UInt8).toNat = 32 := rfl
  omega

theorem urlNormalize_of_forall {input : List UInt8} (h : ∀ c ∈ input, 0x21 ≤ c) :
    urlNormalize input = (none, input) := by
  have hspace : ∀ c ∈ input, isC0Space c = false := fun c hc => isC0Space_of_ge (h c hc)
  have htake : ∀ l : List UInt8, (∀ c ∈ l, isC0Space c = false) → l.takeWhile isC0Space = [] := by
    intro l hl
    cases l with
    | nil => rfl
    | cons c l => simp [List.takeWhile, hl c (by simp)]
  have hstart : input.takeWhile isC0Space = [] := htake input hspace
  have hend : input.reverse.takeWhile isC0Space = [] :=
    htake _ fun c hc => hspace c (by simpa using hc)
  have htrailing : urlRemoveTrailing input = (none, input) := by
    simp [urlRemoveTrailing, hstart, hend]
  simp [urlNormalize, htrailing, urlRemoveTabNl, removeTabNl_of_forall _ h]

/-! ## The scheme -/

/-- The parser when it begins to read the authority of an `http` URL. -/
def httpParser (input : List UInt8) : UrlParser :=
  { UrlParser.initial input with
    result := { UrlRegion.initial with scheme := ⟨0, 4⟩ }
    buf := cstr "http"
    sliceStart := 4
    pos := 6
    state := .auth
    special := true
    allocs := 6 }

theorem eq_of_map_toLower {scheme : List UInt8} (h : scheme.map toLower = cstr "http") :
    ∃ a b c d, scheme = [a, b, c, d] ∧ (∀ x ∈ scheme, isAsciiAlpha x = true) := by
  have halpha : ∀ x ∈ scheme, isAsciiAlpha x = true := by
    intro x hx
    apply isAsciiAlpha_of_toLower
    have hmem : toLower x ∈ cstr "http" := h ▸ List.mem_map_of_mem hx
    have hall : ∀ y ∈ cstr "http", isAsciiLowerAlpha y = true := by decide +kernel
    exact hall _ hmem
  have hlen : scheme.length = 4 := by
    rw [← List.length_map (f := toLower), h]
    rfl
  match scheme, hlen with
  | [a, b, c, d], _ => exact ⟨a, b, c, d, rfl, halpha⟩

section Scheme

variable (alloc : Alloc) (lossy quiet : Prop) {input : List UInt8}

def schemeParser (input : List UInt8) (a : UInt8) : UrlParser :=
  { UrlParser.initial input with buf := [toLower a], pos := 0, state := .scheme, allocs := 3 }

theorem goes_schemeStart {a : UInt8} {rest : List UInt8} (ha : isAsciiAlpha a = true)
    (hat : At (.initial input) [] (a :: rest)) (hroom : Room alloc lossy 1) :
    Runs alloc lossy quiet (.initial input) (schemeParser input a) ∧
      At (schemeParser input a) [a] rest := by
  have hc : (UrlParser.initial input).advance.c = some a := hat.c_eq
  have hpos : (-1 : UInt64) + 1 = 0 := by decide
  have hstep : urlParserStep alloc (UrlParser.initial input).advance =
      appendOrFail alloc (UrlParser.initial input).advance [toLower a] none
        fun p => some (none, { p with state := .scheme }) := by
    have hturn : urlParserStep alloc (UrlParser.initial input).advance =
        urlParserSchemeStart alloc (UrlParser.initial input).advance := rfl
    rw [hturn]
    simp only [urlParserSchemeStart, hc, ha, if_true]
  obtain ⟨hnext, heof⟩ := hat.next (q := schemeParser input a) rfl
    (by simp [schemeParser, UrlParser.initial, UrlParser.advance, hpos])
  have hpushed : (fun p : UrlParser => (some (none, { p with state := .scheme }) : UrlTurn))
      { (UrlParser.initial input).advance with
        buf := (UrlParser.initial input).buf ++ [toLower a]
        allocs := (UrlParser.initial input).allocs + 1 } =
      some (none, schemeParser input a) := by
    simp [schemeParser, UrlParser.initial, UrlParser.advance, hpos]
  exact ⟨.push (by simp [UrlParser.initial]) hc (by simpa [UrlParser.initial] using hroom)
    hstep (fun _ _ => hpushed) (fun _ => rfl) heof, hnext⟩

def colonParser (input : List UInt8) : UrlParser :=
  { httpParser input with pos := 4, state := .specAuthSlash }

theorem goes_schemeEnd (input : List UInt8) {p : UrlParser} {pre rest : List UInt8}
    (hat : At p pre (':'.toUInt8 :: rest)) (hp : p = { UrlParser.initial input with
      buf := cstr "http", pos := 3, state := .scheme, allocs := 6 }) :
    Runs alloc lossy quiet p (colonParser input) ∧
      At (colonParser input) (pre ++ [':'.toUInt8]) rest := by
  have hc : p.advance.c = some ':'.toUInt8 := hat.c_eq
  have hstep : urlParserStep alloc p.advance = some (none, colonParser input) := by
    have hturn : urlParserStep alloc p.advance = urlParserScheme alloc p.advance := by
      subst hp
      rfl
    have hchar : isSchemeChar ':'.toUInt8 = false := by decide
    rw [hturn]
    simp only [urlParserScheme, hc, hchar, if_false, if_true, Bool.false_eq_true]
    subst hp
    have hspecial : urlParserIsSpecial (cstr "http") ≠ 0 := by decide
    have hfile : cstr "http" ≠ cstr "file" := by decide
    have hlen : (cstr "http").length = 4 := rfl
    have htake : (cstr "http").take 4 = cstr "http" := rfl
    simp [urlParserSchemeEnd, UrlParser.slice, UrlParser.bufRegion, sliceToRegion, regionToSlice,
      UrlParser.initial, UrlParser.advance, Region.text, hlen, htake, hspecial, hfile, ptrdiffMax,
      colonParser, httpParser]
  obtain ⟨hnext, heof⟩ := hat.next (q := colonParser input) (by subst hp; rfl)
    (by subst hp; simp [colonParser, UrlParser.advance])
  exact ⟨.turn (by simp [hp]) (fun _ => ⟨none, hstep, fun _ => rfl⟩) heof, hnext⟩

theorem goes_slashes {pre rest : List UInt8}
    (hat : At (colonParser input) pre ('/'.toUInt8 :: '/'.toUInt8 :: rest))
    (hrest : rest.head? ≠ some '/'.toUInt8 ∧ rest.head? ≠ some '\\'.toUInt8) :
    Runs alloc lossy quiet (colonParser input) (httpParser input) ∧
      At (httpParser input) (pre ++ cstr "//") rest := by
  have hc : (colonParser input).advance.c = some '/'.toUInt8 := hat.c_eq
  have hinput : input = pre ++ '/'.toUInt8 :: '/'.toUInt8 :: rest := hat.input_eq
  have hrem : (colonParser input).advance.remStartsWith "/" = true := by
    have heof := UrlParser.isEof_of_c hc
    have hdrop : (colonParser input).advance.input.drop
        ((colonParser input).advance.pos.toNat + 1) = '/'.toUInt8 :: rest := by
      have hpos : (colonParser input).advance.pos.toNat = pre.length := hat.pos_eq
      rw [hpos]
      have hi : (colonParser input).advance.input =
          (pre ++ ['/'.toUInt8]) ++ '/'.toUInt8 :: rest := by
        simp [UrlParser.advance, colonParser, httpParser, UrlParser.initial, hinput]
      rw [hi]
      exact List.drop_left' (by simp)
    unfold UrlParser.remStartsWith UrlParser.remaining
    rw [hdrop, if_neg (by simp [heof])]
    rfl
  -- the turn in `STATE_SPEC_AUTH_SLASH`
  have hstep₁ : urlParserStep alloc (colonParser input).advance =
      some (none, { colonParser input with state := .specAuthIgnoreSlash, pos := 6 }) := by
    have hturn : urlParserStep alloc (colonParser input).advance =
        urlParserSpecAuthSlash (colonParser input).advance := rfl
    rw [hturn, urlParserSpecAuthSlash, if_pos ⟨hc, hrem⟩]
    simp [UrlParser.advance, colonParser]
  obtain ⟨hat₁, heof₁⟩ := hat.skip
    (q := { colonParser input with state := .specAuthIgnoreSlash, pos := 6 }) rfl
    (by simp [UrlParser.advance, colonParser])
  -- the turn in `STATE_SPEC_AUTH_IGNORE_SLASH`
  have hc₁ := hat₁.c_eq
  have hstep₂ : urlParserStep alloc
      ({ colonParser input with state := .specAuthIgnoreSlash, pos := 6 } : UrlParser).advance =
      some (none, httpParser input) := by
    have hturn : urlParserStep alloc
        ({ colonParser input with state := .specAuthIgnoreSlash, pos := 6 } : UrlParser).advance =
        urlParserSpecAuthIgnoreSlash ({ colonParser input with
          state := .specAuthIgnoreSlash, pos := 6 } : UrlParser).advance := rfl
    rw [hturn]
    simp only [urlParserSpecAuthIgnoreSlash, hc₁]
    rw [if_pos hrest]
    simp [UrlParser.advance, colonParser, httpParser]
  obtain ⟨hat₂, heof₂⟩ := hat₁.back (q := httpParser input) (by simp) rfl
    (by simp [UrlParser.advance, httpParser])
  exact ⟨(Runs.turn (by simp [colonParser]) (fun _ => ⟨none, hstep₁, fun _ => rfl⟩) heof₁).trans
    (Runs.turn (by simp) (fun _ => ⟨none, hstep₂, fun _ => rfl⟩) heof₂), hat₂⟩

theorem goes_http {scheme rest : List UInt8} (hscheme : scheme.map toLower = cstr "http")
    (hrest : rest.head? ≠ some '/'.toUInt8 ∧ rest.head? ≠ some '\\'.toUInt8)
    (hfit : (scheme ++ cstr "://" ++ rest).length < ptrdiffMax) (hroom : Room alloc lossy 4) :
    Runs alloc lossy quiet (.initial (scheme ++ cstr "://" ++ rest))
      (httpParser (scheme ++ cstr "://" ++ rest)) ∧
      At (httpParser (scheme ++ cstr "://" ++ rest)) (scheme ++ cstr "://") rest := by
  obtain ⟨a, b, c, d, rfl, halpha⟩ := eq_of_map_toLower hscheme
  have hlower : toLower a = 'h'.toUInt8 ∧ toLower b = 't'.toUInt8 ∧ toLower c = 't'.toUInt8 ∧
      toLower d = 'p'.toUInt8 := by
    simpa [cstr] using hscheme
  generalize hinput : [a, b, c, d] ++ cstr "://" ++ rest = input
  have h0 : At (.initial input) [] (a :: b :: c :: d :: cstr "://" ++ rest) := by
    refine ⟨?_, ?_, ?_⟩
    · simp [UrlParser.initial, ← hinput]
    · simp [UrlParser.initial, UrlParser.advance]
    · simpa [← hinput] using hfit
  obtain ⟨hgoes₁, h₁⟩ := goes_schemeStart alloc lossy quiet (halpha a (by simp)) h0
    (hroom.mono (by simp))
  have hpush : ∀ x ∈ [b, c, d], ∀ (q : UrlParser) (buf : List UInt8) (pos : UInt64) (allocs : ℕ),
      q = { schemeParser input a with buf := buf, pos := pos, allocs := allocs } →
      q.c = some x → ∃ err, urlParserStep alloc q =
        appendOrFail alloc q [toLower x] err fun p => some (none, p) := by
    intro x hx q buf pos allocs hq hc
    have hchar : isSchemeChar x = true := by
      simp [isSchemeChar, isAsciiAlphanum, halpha x (by simp at hx ⊢; tauto)]
    have hturn : urlParserStep alloc q = urlParserScheme alloc q := by
      subst hq
      rfl
    refine ⟨none, ?_⟩
    rw [hturn]
    simp only [urlParserScheme, hc, hchar, if_true]
  obtain ⟨hgoes₂, h₂⟩ := @goes_pushed alloc lossy quiet (fun c => [toLower c]) [b, c, d] _ _ _
    (by simpa using h₁) (by simp [schemeParser]) hpush
    (hroom.mono (by simp [schemeParser]))
  obtain ⟨hgoes₃, h₃⟩ := goes_schemeEnd alloc lossy quiet input h₂ (by
    simp [UrlParser.pushed, schemeParser, UrlParser.initial, hlower, cstr])
  obtain ⟨hgoes₄, h₄⟩ := goes_slashes alloc lossy quiet h₃ hrest
  exact ⟨((hgoes₁.trans hgoes₂).trans hgoes₃).trans hgoes₄, by simpa [cstr] using h₄⟩

end Scheme

/-! ## The authority -/

section Authority

variable {alloc : Alloc} {lossy : Prop} {p : UrlParser} {pre rest : List UInt8}

/-- The authority state copies text without at signs and delimiters. -/
theorem goes_auth_text (quiet : Prop) (text : List UInt8) (hat : At p pre (text ++ rest))
    (hstate : p.state = .auth)
    (htext : ∀ c ∈ text, c ≠ '@'.toUInt8 ∧ isDelimiter p.special (some c) = false)
    (hroom : Room alloc lossy (p.buf ++ text).length) :
    Runs alloc lossy quiet p (p.pushed (fun c => [c]) text) ∧
      At (p.pushed (fun c => [c]) text) (pre ++ text) rest := by
  refine goes_pushed quiet text hat (by simp [hstate]) ?_ (by simpa using hroom)
  intro c hc q buf pos allocs hq hqc
  obtain ⟨hne, hdelim⟩ := htext c hc
  have hturn : urlParserStep alloc q = urlParserAuth alloc q := by
    subst hq
    simp only [urlParserStep, hstate]
  refine ⟨none, ?_⟩
  rw [hturn]
  have hdelim' : isDelimiter q.special (some c) = false := by rw [hq]; exact hdelim
  simp only [urlParserAuth, hqc, Option.some.injEq, hne, if_false, hdelim', Bool.false_eq_true]

theorem goes_host_text (quiet : Prop) (text : List UInt8) (hat : At p pre (text ++ rest))
    (hstate : p.state = .host)
    (htext : ∀ c ∈ text, c ≠ ':'.toUInt8 ∧ c ≠ '['.toUInt8 ∧ c ≠ ']'.toUInt8 ∧
      isDelimiter p.special (some c) = false)
    (hroom : Room alloc lossy (p.buf ++ text).length) :
    Runs alloc lossy quiet p (p.pushed (fun c => [c]) text) ∧
      At (p.pushed (fun c => [c]) text) (pre ++ text) rest := by
  refine goes_pushed quiet text hat (by simp [hstate]) ?_ (by simpa using hroom)
  intro c hc q buf pos allocs hq hqc
  obtain ⟨hcolon, hopen, hclose, hdelim⟩ := htext c hc
  have hturn : urlParserStep alloc q = urlParserHost alloc q := by
    subst hq
    simp only [urlParserStep, hstate]
  refine ⟨none, ?_⟩
  rw [hturn]
  have hdelim' : isDelimiter q.special (some c) = false := by rw [hq]; exact hdelim
  simp only [urlParserHost, hqc, Option.some.injEq, hcolon, hopen, hclose, if_false, hdelim',
    Bool.false_eq_true, decide_false, Bool.false_and]

theorem not_isDelimiter_at (special : Bool) : isDelimiter special (some '@'.toUInt8) = false := by
  cases special <;> decide

theorem not_isDelimiter_colon (special : Bool) :
    isDelimiter special (some ':'.toUInt8) = false := by
  cases special <;> decide

theorem urlParserAuth_of_isDelimiter (alloc : Alloc) (h : Buffered p)
    (hdelim : isDelimiter p.special p.c = true) (hhost : p.atSignSeen = false ∨ p.bufLen ≠ 0) :
    urlParserAuth alloc p = some (none, { p with
      buf := p.buf.take p.sliceStart
      pos := p.pos - UInt64.ofNat (p.bufLen + 1)
      state := .host }) := by
  have hc : p.c ≠ some '@'.toUInt8 := by
    intro hc
    rw [hc, not_isDelimiter_at] at hdelim
    simp at hdelim
  have hempty : ¬(p.atSignSeen && decide (p.bufLen = 0)) = true := by
    rcases hhost with h | h <;> simp [h]
  have hpopped : p.buf.take (p.buf.length - p.bufLen) = p.buf.take p.sliceStart := by
    have := h.sliceStart_le
    simp only [UrlParser.bufLen]
    congr 1
    omega
  have hlen : (p.buf.take p.sliceStart).length = p.sliceStart := by
    simp [h.sliceStart_le]
  rw [urlParserAuth, if_neg hc, if_pos hdelim, urlParserAuthEnd, if_neg hempty]
  simp only [h.slice_eq, Option.bind_eq_bind, Option.bind_some, hpopped, hlen]

theorem urlParserHost_of_isDelimiter (alloc : Alloc) (h : Buffered p)
    (hdelim : isDelimiter p.special p.c = true) (hhost : p.bufLen ≠ 0) :
    urlParserHost alloc p = some (none, { p with
      sliceStart := p.buf.length
      result := { p.result with host := ⟨p.sliceStart, p.bufLen⟩, hostNull := false }
      pos := p.pos - 1
      state := .path }) := by
  have hc : p.c ≠ some ':'.toUInt8 := by
    intro hc
    rw [hc, not_isDelimiter_colon] at hdelim
    simp at hdelim
  have hback : Buffered { p with pos := p.pos - 1 } := ⟨h.sliceStart_le, h.buf_lt⟩
  have hlen : UrlParser.bufLen { p with pos := p.pos - 1 } = p.bufLen := rfl
  simp only [urlParserHost, hc, decide_false, Bool.false_and, Bool.false_eq_true, if_false, hdelim,
    if_true, hlen, hhost, Bool.and_false, hback.takeHost_eq, Option.bind_eq_bind,
    Option.bind_some]

/-- The authority state reads the host, drops it and moves back in front of it. -/
theorem goes_auth (quiet : Prop) (host : List UInt8) (hat : At p pre (host ++ rest))
    (hpre : pre ≠ []) (hstate : p.state = .auth) (hslice : p.sliceStart = p.buf.length)
    (hseen : p.atSignSeen = false)
    (htext : ∀ c ∈ host, c ≠ '@'.toUInt8 ∧ isDelimiter p.special (some c) = false)
    (hrest : isDelimiter p.special rest.head? = true)
    (hroom : Room alloc lossy (p.buf ++ host).length) :
    ∃ pos allocs, Runs alloc lossy quiet p { p with pos := pos, state := .host, allocs := allocs } ∧
      At { p with pos := pos, state := .host, allocs := allocs } pre (host ++ rest) := by
  obtain ⟨hgoes, hat'⟩ := goes_auth_text quiet host hat hstate htext hroom
  obtain ⟨hbuf, hsliceq, hlen⟩ := UrlParser.pushed_advance (List.flatMap_singleton' host) hslice
  generalize hq : p.pushed (fun c => [c]) host = q at hgoes hat' hbuf hsliceq hlen
  have hstateq : q.state = .auth := by rw [← hq]; exact hstate
  have hdelim : isDelimiter q.advance.special q.advance.c = true := by
    have hspecial : q.advance.special = p.special := by rw [← hq]; rfl
    rw [hat'.c_eq, hspecial]
    exact hrest
  have hstep : Layout q → urlParserStep alloc q.advance = some (none, { p with
      pos := q.advance.pos - UInt64.ofNat (host.length + 1)
      state := .host
      allocs := q.allocs }) := by
    intro hlayout
    have hturn : urlParserStep alloc q.advance = urlParserAuth alloc q.advance := by
      have : q.advance.state = .auth := hstateq
      simp only [urlParserStep, this]
    rw [hturn, urlParserAuth_of_isDelimiter alloc hlayout.advance.toBuffered hdelim
      (.inl (by rw [← hq]; exact hseen)), hlen, hbuf, hsliceq, List.take_left]
    simp [← hq, UrlParser.pushed, UrlParser.advance, hslice]
  obtain ⟨hat₂, heof⟩ := hat'.rewind (q := { p with
      pos := q.advance.pos - UInt64.ofNat (host.length + 1)
      state := .host
      allocs := q.allocs }) hpre (by rw [← hq]; rfl) rfl
  refine ⟨_, _, hgoes.trans (.turn (by simp [hstateq]) (fun h => ?_) heof), hat₂⟩
  exact ⟨none, hstep h, fun _ => rfl⟩

/-- The parser after a host that begins at the end of the buffer. -/
def UrlParser.withHost (p : UrlParser) (host : List UInt8) (pos : UInt64) (allocs : ℕ) :
    UrlParser :=
  { p with
    buf := p.buf ++ host
    sliceStart := p.buf.length + host.length
    result := { p.result with host := ⟨p.buf.length, host.length⟩, hostNull := false }
    pos := pos
    state := .path
    allocs := allocs }

theorem goes_host (quiet : Prop) (host : List UInt8) (hat : At p pre (host ++ rest))
    (hpre : pre ≠ []) (hstate : p.state = .host) (hslice : p.sliceStart = p.buf.length)
    (hne : host ≠ [])
    (htext : ∀ c ∈ host, c ≠ ':'.toUInt8 ∧ c ≠ '['.toUInt8 ∧ c ≠ ']'.toUInt8 ∧
      isDelimiter p.special (some c) = false)
    (hrest : isDelimiter p.special rest.head? = true)
    (hroom : Room alloc lossy (p.buf ++ host).length) :
    ∃ pos allocs, Runs alloc lossy quiet p (p.withHost host pos allocs) ∧
      At (p.withHost host pos allocs) (pre ++ host) rest := by
  obtain ⟨hgoes, hat'⟩ := goes_host_text quiet host hat hstate htext hroom
  obtain ⟨hbuf, hsliceq, hlen⟩ := UrlParser.pushed_advance (List.flatMap_singleton' host) hslice
  generalize hq : p.pushed (fun c => [c]) host = q at hgoes hat' hbuf hsliceq hlen
  have hstateq : q.state = .host := by rw [← hq]; exact hstate
  have hdelim : isDelimiter q.advance.special q.advance.c = true := by
    have hspecial : q.advance.special = p.special := by rw [← hq]; rfl
    rw [hat'.c_eq, hspecial]
    exact hrest
  have hstep : Layout q → urlParserStep alloc q.advance =
      some (none, p.withHost host (q.advance.pos - 1) q.allocs) := by
    intro hlayout
    have hturn : urlParserStep alloc q.advance = urlParserHost alloc q.advance := by
      have : q.advance.state = .host := hstateq
      simp only [urlParserStep, this]
    have hlen' : q.advance.bufLen ≠ 0 := by
      rw [hlen]
      exact (List.length_pos_iff.mpr hne).ne'
    rw [hturn, urlParserHost_of_isDelimiter alloc hlayout.advance.toBuffered hdelim hlen', hlen,
      hbuf, hsliceq]
    simp [← hq, UrlParser.pushed, UrlParser.advance, UrlParser.withHost]
  obtain ⟨hat₂, heof⟩ := hat'.back (q := p.withHost host (q.advance.pos - 1) q.allocs)
    (by simp [hpre]) (by rw [← hq]; rfl) rfl
  refine ⟨_, _, hgoes.trans (.turn (by simp [hstateq]) (fun h => ?_) heof), hat₂⟩
  exact ⟨none, hstep h, fun _ => rfl⟩

end Authority

/-! ## Illegal characters -/

/-- Every byte is allowed, or it is a percent sign with two hex digits behind it. -/
def EscapedText (text : List UInt8) : Prop :=
  ∀ t c t', text = t ++ c :: t' →
    isUrlAscii c = true ∨ (c = '%'.toUInt8 ∧ isInvalidPercentEscape t' = false)

theorem isInvalidPercentEscape_append {text : List UInt8}
    (h : isInvalidPercentEscape text = false) (rest : List UInt8) :
    isInvalidPercentEscape (text ++ rest) = false := by
  match text with
  | [] => simp [isInvalidPercentEscape] at h
  | [_] => simp [isInvalidPercentEscape] at h
  | _ :: _ :: _ => simpa [isInvalidPercentEscape] using h

theorem charErr_of_isUrlAscii {p : UrlParser} {c : UInt8} {str : String} {other : Bool}
    (h : isUrlAscii c = true) : charErr (!isUrlAscii c && other) str p c = none := by
  have hne : c ≠ '%'.toUInt8 := by
    rintro rfl
    exact absurd h (by decide)
  simp [charErr, percentErr, hne, h]

theorem charErr_of_escapedText {p : UrlParser} {t t' rest : List UInt8} {text : List UInt8}
    {c : UInt8} {str : String} (h : EscapedText text) (htext : text = t ++ c :: t')
    (hrem : p.remaining = t' ++ rest ++ [0]) :
    charErr (!isUrlAscii c && c ≠ '%'.toUInt8) str p c = none := by
  rcases h t c t' htext with hlegal | ⟨rfl, hvalid⟩
  · exact charErr_of_isUrlAscii hlegal
  · have hvalid' : isInvalidPercentEscape p.remaining = false := by
      rw [hrem, List.append_assoc]
      exact isInvalidPercentEscape_append hvalid _
    simp [charErr, percentErr, hvalid']

/-! ## The path -/

section Path

variable {alloc : Alloc} {lossy : Prop} {p : UrlParser} {pre rest base text : List UInt8}

structure IsHttp (p : UrlParser) : Prop where
  scheme : p.result.scheme = ⟨0, 4⟩
  text : p.buf.take 4 = cstr "http"
  special : p.special = true

theorem IsHttp.length_le (h : IsHttp p) : 4 ≤ p.buf.length := by
  have hlen := congrArg List.length h.text
  simp only [List.length_take, cstr] at hlen
  simp at hlen
  exact hlen

theorem IsHttp.append (h : IsHttp p) (bytes : List UInt8) :
    (p.buf ++ bytes).take 4 = cstr "http" := by
  rw [List.take_append_of_le_length h.length_le]
  exact h.text

theorem fixDriveLetter_of_isHttp (h : IsHttp p) : fixDriveLetter p = some p := by
  have hslice : regionToSlice p.buf p.result.scheme = some (cstr "http") := by
    simp [regionToSlice, h.scheme, Region.text, h.text, ptrdiffMax]
  have hne : cstr "http" ≠ cstr "file" := by decide
  simp [fixDriveLetter, hslice, hne]

/-- The parser after a segment has been closed. -/
def UrlParser.closePath (p : UrlParser) : UrlParser :=
  { p with sliceStart := p.buf.length, result := { p.result with path := p.extendedPath } }

/-- The bytes `text` of the path have been read behind `base`. Some of them belong to
closed segments. -/
structure PathText (base text : List UInt8) (p : UrlParser) : Prop where
  buf_eq : p.buf = base ++ text
  sliceStart_le : p.sliceStart ≤ p.buf.length
  path_eq : p.extendedPath = ⟨base.length, text.length⟩

theorem PathText.append (h : PathText base text p) {q : UrlParser} {bytes : List UInt8}
    (hbuf : q.buf = p.buf ++ bytes) (hslice : q.sliceStart = p.sliceStart)
    (hpath : q.result.path = p.result.path) : PathText base (text ++ bytes) q := by
  have hle := h.sliceStart_le
  have hpatheq := h.path_eq
  refine ⟨by rw [hbuf, h.buf_eq, List.append_assoc], ?_, ?_⟩
  · rw [hbuf, hslice, List.length_append]
    omega
  · simp only [UrlParser.extendedPath, UrlParser.bufLen, hbuf, hslice, hpath,
      List.length_append] at hpatheq ⊢
    split at hpatheq
    · rename_i hlen
      rw [if_pos hlen]
      simp only [Region.mk.injEq] at hpatheq ⊢
      omega
    · rename_i hlen
      rw [if_neg hlen]
      simp only [Region.mk.injEq] at hpatheq ⊢
      omega

theorem PathText.close (h : PathText base text p) : PathText base text p.closePath := by
  refine ⟨h.buf_eq, le_rfl, ?_⟩
  have hbuf : p.buf.length = base.length + text.length := by rw [h.buf_eq, List.length_append]
  have hpath : p.closePath.result.path = ⟨base.length, text.length⟩ := h.path_eq
  have hlen : p.closePath.bufLen = 0 := Nat.sub_self _
  have hslice : p.closePath.sliceStart = base.length + text.length := hbuf
  unfold UrlParser.extendedPath
  rw [hlen, hslice]
  by_cases hempty : text.length = 0
  · rw [if_pos (by rw [hpath]; exact hempty), hempty]
    rfl
  · rw [if_neg (by rw [hpath]; exact hempty), hpath]
    rfl

theorem urlParserPath_slash (hhttp : IsHttp p) (hc : p.c = some '/'.toUInt8) :
    urlParserPath alloc p =
      appendOrFail alloc p ['/'.toUInt8] none (urlParserPathNext none) := by
  have hdelim : isDelimiter p.special p.c = true := by
    rw [hc]
    simp [isDelimiter]
  have hback : some '/'.toUInt8 ≠ some '\\'.toUInt8 := by decide
  rw [urlParserPath, if_pos hdelim]
  simp only [urlParserPathEnd, fixDriveLetter_of_isHttp hhttp, Option.bind_eq_bind,
    Option.bind_some, hc, hback, and_false, if_false, true_or, if_true]

theorem urlParserPathNext_slash (hbuffered : Buffered p) (hc : p.c = some '/'.toUInt8) :
    urlParserPathNext none p = some (none, p.closePath) := by
  have hc' : p.closePath.c = some '/'.toUInt8 := hc
  have hquery : some '/'.toUInt8 ≠ some '?'.toUInt8 := by decide
  have hfragment : some '/'.toUInt8 ≠ some '#'.toUInt8 := by decide
  have hextend : extendPath p = some p.closePath := hbuffered.extendPath_eq
  simp only [urlParserPathNext, hextend, Option.bind_eq_bind, Option.bind_some, hc', hquery,
    hfragment, if_false]

/-- The parser somewhere in its path: the path region and the buffer are its own. -/
def UrlParser.inPath (p : UrlParser) (buf : List UInt8) (sliceStart : ℕ) (path : Region)
    (pos : UInt64) (allocs : ℕ) : UrlParser :=
  { p with
    buf := buf
    sliceStart := sliceStart
    result := { p.result with path := path }
    pos := pos
    allocs := allocs }

/-- One turn of the path state, at a slash or at another byte of the path. -/
theorem goes_path_turn (quiet : Prop) {c : UInt8} (hat : At p pre (c :: rest))
    (hstate : p.state = .path) (hhttp : IsHttp p) (hpath : PathText base text p)
    (hchar : c ≠ '?'.toUInt8 ∧ c ≠ '#'.toUInt8 ∧ c ≠ '\\'.toUInt8)
    (hquiet : quiet → isUrlAscii c = true)
    (hroom : Room alloc lossy (p.buf.length + (percentEncode .path c).length)) :
    ∃ sliceStart region,
      Runs alloc lossy quiet p (p.inPath (p.buf ++ percentEncode .path c) sliceStart region
        p.advance.pos (p.allocs + 1)) ∧
      At (p.inPath (p.buf ++ percentEncode .path c) sliceStart region p.advance.pos
        (p.allocs + 1)) (pre ++ [c]) rest ∧
      PathText base (text ++ percentEncode .path c) (p.inPath (p.buf ++ percentEncode .path c)
        sliceStart region p.advance.pos (p.allocs + 1)) := by
  have hc : p.advance.c = some c := hat.c_eq
  have hfail : p.state ≠ .fail := by simp [hstate]
  have hturn : urlParserStep alloc p.advance = urlParserPath alloc p.advance := by
    have : p.advance.state = .path := hstate
    simp only [urlParserStep, this]
  by_cases hslash : c = '/'.toUInt8
  · have henc : percentEncode .path '/'.toUInt8 = ['/'.toUInt8] := by decide
    subst hslash
    rw [henc] at hroom ⊢
    have hadvance : IsHttp p.advance := ⟨hhttp.scheme, hhttp.text, hhttp.special⟩
    have happended : PathText base (text ++ ['/'.toUInt8]) { p.advance with
        buf := p.buf ++ ['/'.toUInt8], allocs := p.allocs + 1 } :=
      hpath.append rfl rfl rfl
    obtain ⟨hnext, heof⟩ := hat.next (q := UrlParser.closePath { p.advance with
      buf := p.buf ++ ['/'.toUInt8], allocs := p.allocs + 1 }) rfl rfl
    have hstep : urlParserStep alloc p.advance =
        appendOrFail alloc p.advance ['/'.toUInt8] none (urlParserPathNext none) := by
      rw [hturn, urlParserPath_slash hadvance hc]
    have hclosed : p.buf.length + ['/'.toUInt8].length < ptrdiffMax →
        urlParserPathNext none { p.advance with
          buf := p.buf ++ ['/'.toUInt8], allocs := p.allocs + 1 } =
        some (none, UrlParser.closePath { p.advance with
          buf := p.buf ++ ['/'.toUInt8], allocs := p.allocs + 1 }) := by
      intro hlt
      exact urlParserPathNext_slash
        ⟨happended.sliceStart_le, by simpa [UrlParser.advance] using hlt⟩ hc
    exact ⟨_, _, .push hfail hc hroom hstep (fun _ => hclosed) (fun _ => rfl) heof, hnext,
      happended.close⟩
  · obtain ⟨hquery, hfragment, hback⟩ := hchar
    have hdelim : isDelimiter p.advance.special (some c) = false := by
      simp [isDelimiter, hslash, hquery, hfragment, hback]
    obtain ⟨hnext, heof⟩ := hat.next (q := p.inPath (p.buf ++ percentEncode .path c)
      p.sliceStart p.result.path p.advance.pos (p.allocs + 1)) rfl rfl
    refine ⟨p.sliceStart, p.result.path, ?_, hnext, hpath.append rfl rfl rfl⟩
    have hstep : urlParserStep alloc p.advance =
        appendOrFail alloc p.advance (percentEncode .path c)
          (charErr (!isUrlAscii c && c < 0x80)
            "An illegal character was detected in the path" p.advance c)
          fun q => some (charErr (!isUrlAscii c && c < 0x80)
            "An illegal character was detected in the path" p.advance c, q) := by
      rw [hturn]
      simp only [urlParserPath, hc, hdelim, Bool.false_eq_true, if_false]
    exact .push hfail hc hroom hstep (fun _ _ => rfl)
      (fun h => charErr_of_isUrlAscii (hquiet h)) heof

theorem goes_path (quiet : Prop) (path : List UInt8) (hat : At p pre (path ++ rest))
    (hstate : p.state = .path) (hhttp : IsHttp p) (hpath : PathText base text p)
    (hchars : ∀ c ∈ path, c ≠ '?'.toUInt8 ∧ c ≠ '#'.toUInt8 ∧ c ≠ '\\'.toUInt8)
    (hquiet : quiet → ∀ c ∈ path, isUrlAscii c = true)
    (hroom : Room alloc lossy (p.buf ++ percentEncodeAll .path path).length) :
    ∃ sliceStart region pos allocs,
      Runs alloc lossy quiet p
        (p.inPath (p.buf ++ percentEncodeAll .path path) sliceStart region pos allocs) ∧
      At (p.inPath (p.buf ++ percentEncodeAll .path path) sliceStart region pos allocs)
        (pre ++ path) rest ∧
      PathText base (text ++ percentEncodeAll .path path)
        (p.inPath (p.buf ++ percentEncodeAll .path path) sliceStart region pos allocs) := by
  induction path generalizing p pre text with
  | nil =>
      refine ⟨p.sliceStart, p.result.path, p.pos, p.allocs, ?_⟩
      have hp : p.inPath (p.buf ++ percentEncodeAll .path []) p.sliceStart p.result.path p.pos
          p.allocs = p := by
        simp [UrlParser.inPath]
      rw [hp]
      exact ⟨.refl p, by simpa using hat, by simpa using hpath⟩
  | cons c path ih =>
      have hroom' : Room alloc lossy (p.buf.length + (percentEncode .path c).length) :=
        hroom.mono (by simp only [percentEncodeAll_cons, List.length_append]; omega)
      obtain ⟨sliceStart, region, hgoes, hnext, hpath'⟩ :=
        goes_path_turn quiet hat hstate hhttp hpath (hchars c (by simp))
          (fun h => hquiet h c (by simp)) hroom'
      generalize hq : p.inPath (p.buf ++ percentEncode .path c) sliceStart region p.advance.pos
        (p.allocs + 1) = q at hgoes hnext hpath'
      have hbuf : q.buf = p.buf ++ percentEncode .path c := by rw [← hq]; rfl
      obtain ⟨sliceStart', region', pos', allocs', hgoes', hat', hpath''⟩ := ih hnext
        (by rw [← hq]; exact hstate)
        (by rw [← hq]; exact ⟨hhttp.scheme, hhttp.append _, hhttp.special⟩) hpath'
        (fun d hd => hchars d (by simp [hd])) (fun h d hd => hquiet h d (by simp [hd]))
        (by rw [hbuf]; simpa using hroom)
      refine ⟨sliceStart', region', pos', allocs', ?_⟩
      have hp : q.inPath (q.buf ++ percentEncodeAll .path path) sliceStart' region' pos' allocs' =
          p.inPath (p.buf ++ percentEncodeAll .path (c :: path)) sliceStart' region' pos'
            allocs' := by
        simp [← hq, UrlParser.inPath]
      rw [hp] at hgoes' hat' hpath''
      exact ⟨hgoes.trans hgoes', by simpa using hat', by simpa using hpath''⟩

theorem urlParserPath_end (hhttp : IsHttp p) (hbuffered : Buffered p)
    (hc : p.c = none ∨ p.c = some '?'.toUInt8 ∨ p.c = some '#'.toUInt8) :
    urlParserPath alloc p = some (none,
      if p.c = some '?'.toUInt8 then startQuery p.closePath
      else if p.c = some '#'.toUInt8 then startFragment p.closePath
      else p.closePath) := by
  have hdelim : isDelimiter p.special p.c = true := by
    rcases hc with hc | hc | hc <;> simp [hc, isDelimiter]
  have hextend : extendPath p = some p.closePath := hbuffered.extendPath_eq
  have hc' : p.closePath.c = p.c := rfl
  have hnext : urlParserPathNext none p = some (none,
      if p.c = some '?'.toUInt8 then startQuery p.closePath
      else if p.c = some '#'.toUInt8 then startFragment p.closePath
      else p.closePath) := by
    simp only [urlParserPathNext, hextend, Option.bind_eq_bind, Option.bind_some, hc']
    split
    · rfl
    · split <;> rfl
  have hback : p.c ≠ some '\\'.toUInt8 := by
    rcases hc with hc | hc | hc <;> rw [hc] <;> decide
  rw [urlParserPath, if_pos hdelim]
  simp only [urlParserPathEnd, fixDriveLetter_of_isHttp hhttp, Option.bind_eq_bind,
    Option.bind_some, hback, and_false, if_false]
  rcases hc with hc | hc | hc
  · rw [hnext]
    simp [hc]
  · rw [hnext]
    simp +decide [hc]
  · rw [hnext]
    simp +decide [hc]

end Path

/-! ## The query and the fragment -/

section Query

variable {alloc : Alloc} {lossy : Prop} {p : UrlParser} {pre rest : List UInt8}

theorem goes_query_text (quiet : Prop) (text : List UInt8) (hat : At p pre (text ++ rest))
    (hstate : p.state = .query) (hspecial : p.special = true)
    (htext : ∀ c ∈ text, c ≠ '#'.toUInt8) (hquiet : quiet → EscapedText text)
    (hroom : Room alloc lossy (p.buf ++ percentEncodeAll .specQuery text).length) :
    Runs alloc lossy quiet p (p.pushed (percentEncode .specQuery) text) ∧
      At (p.pushed (percentEncode .specQuery) text) (pre ++ text) rest := by
  refine goes_pushed_ahead quiet text hat (by simp [hstate]) ?_ hroom
  intro t c t' hsplit q buf pos allocs hq hqc hrem
  have hturn : urlParserStep alloc q = urlParserQuery alloc q := by
    subst hq
    simp only [urlParserStep, hstate]
  have hspecial' : q.special = true := by rw [hq]; exact hspecial
  have hc : c ≠ '#'.toUInt8 := htext c (by simp [hsplit])
  refine ⟨charErr (!isUrlAscii c && c ≠ '%'.toUInt8)
    "An illegal character was detected in the query" q c, charErr (!isUrlAscii c && c ≠ '%'.toUInt8)
    "An illegal character was detected in the query" q c, ?_,
    fun h => charErr_of_escapedText (hquiet h) hsplit hrem⟩
  rw [hturn]
  simp only [urlParserQuery, hqc, hc, if_false, hspecial', if_true]

theorem goes_fragment_text (quiet : Prop) (text : List UInt8) (hat : At p pre (text ++ rest))
    (hstate : p.state = .fragment) (hquiet : quiet → EscapedText text)
    (hroom : Room alloc lossy (p.buf ++ percentEncodeAll .fragment text).length) :
    Runs alloc lossy quiet p (p.pushed (percentEncode .fragment) text) ∧
      At (p.pushed (percentEncode .fragment) text) (pre ++ text) rest := by
  refine goes_pushed_ahead quiet text hat (by simp [hstate]) ?_ hroom
  intro t c t' hsplit q buf pos allocs hq hqc hrem
  have hturn : urlParserStep alloc q = urlParserFragment alloc q := by
    subst hq
    simp only [urlParserStep, hstate]
  refine ⟨charErr (!isUrlAscii c && c ≠ '%'.toUInt8)
    "An illegal character was detected in the fragment" q c,
    charErr (!isUrlAscii c && c ≠ '%'.toUInt8)
    "An illegal character was detected in the fragment" q c, ?_,
    fun h => charErr_of_escapedText (hquiet h) hsplit hrem⟩
  rw [hturn]
  simp only [urlParserFragment, hqc]

/-- The loop ends and leaves this URL behind, or fails if `lossy`. -/
def Ends (alloc : Alloc) (lossy : Prop) (p : UrlParser) (url : Url) : Prop :=
  ∀ err, Layout p →
    (∃ q err₁ err₂ p', Iterate.Reaches (urlLoopBody alloc) (p, err) (q, err₁) ∧ q.state ≠ .fail ∧
      urlParserStep alloc q.advance = some (err₂, p') ∧ p'.isEof = true ∧
      url = ⟨p'.result, p'.buf⟩) ∨
    (lossy ∧ ComesToFail alloc (p, err))

/-- The loop ends like this, and finds no error if `quiet`. -/
def EndsWith (alloc : Alloc) (lossy quiet : Prop) (p : UrlParser) (url : Url) : Prop :=
  ∀ err, Layout p →
    (∃ q err₁ err₂ p', Iterate.Reaches (urlLoopBody alloc) (p, err) (q, err₁) ∧ q.state ≠ .fail ∧
      urlParserStep alloc q.advance = some (err₂, p') ∧ p'.isEof = true ∧
      url = ⟨p'.result, p'.buf⟩ ∧ (quiet → err₁ = err ∧ err₂ = none)) ∨
    (lossy ∧ ComesToFail alloc (p, err))

theorem EndsWith.ends {quiet : Prop} {url : Url} (h : EndsWith alloc lossy quiet p url) :
    Ends alloc lossy p url := by
  intro err hlayout
  rcases h err hlayout with ⟨q, err₁, err₂, p', hreach, hstate, hstep, heof, hurl, _⟩ | hfail
  · exact .inl ⟨q, err₁, err₂, p', hreach, hstate, hstep, heof, hurl⟩
  · exact .inr hfail

theorem Runs.endsWith {quiet : Prop} {q : UrlParser} {url : Url}
    (hgoes : Runs alloc lossy quiet p q) (h : EndsWith alloc lossy quiet q url) :
    EndsWith alloc lossy quiet p url := by
  intro err hlayout
  rcases hgoes err hlayout with ⟨hlayout₁, err₁, h₁, hquiet₁⟩ | hfail
  · rcases h err₁ hlayout₁ with
      ⟨r, err₂, err₃, p', h₂, hstate, hstep, heof, hurl, hquiet₂⟩ | ⟨hlossy, r, err₂, h₂, hr⟩
    · exact .inl ⟨r, err₂, err₃, p', h₁.trans h₂, hstate, hstep, heof, hurl, fun h =>
        ⟨(hquiet₂ h).1.trans (hquiet₁ h), (hquiet₂ h).2⟩⟩
    · exact .inr ⟨hlossy, r, err₂, h₁.trans h₂, hr⟩
  · exact .inr hfail

theorem EndsWith.turn {quiet : Prop} {p' : UrlParser} (hstate : p.state ≠ .fail)
    (hstep : Layout p → urlParserStep alloc p.advance = some (none, p'))
    (heof : p'.isEof = true) : EndsWith alloc lossy quiet p ⟨p'.result, p'.buf⟩ :=
  fun err₀ hlayout =>
    .inl ⟨p, err₀, none, p', .refl, hstate, hstep hlayout, heof, rfl, fun _ => ⟨rfl, rfl⟩⟩

/-- A query or a fragment in the input, behind its sign. -/
def optionalPart (sign : Char) : Option (List UInt8) → List UInt8
  | none => []
  | some text => sign.toUInt8 :: text

/-- A query or a fragment in the buffer. -/
def encodedPart (set : PercencSet) : Option (List UInt8) → List UInt8
  | none => []
  | some text => percentEncodeAll set text

/-- The regions with a query that begins at `start`, if there is one. -/
def UrlRegion.addQuery (r : UrlRegion) (start : ℕ) : Option (List UInt8) → UrlRegion
  | none => r
  | some text => { r with
      query := ⟨start, (percentEncodeAll .specQuery text).length⟩, queryNull := false }

/-- The regions with a fragment that begins at `start`, if there is one. -/
def UrlRegion.addFragment (r : UrlRegion) (start : ℕ) : Option (List UInt8) → UrlRegion
  | none => r
  | some text => { r with
      fragment := ⟨start, (percentEncodeAll .fragment text).length⟩, fragmentNull := false }

theorem ends_fragment (quiet : Prop) (text : List UInt8) (hat : At p pre text)
    (hstate : p.state = .fragment) (hslice : p.sliceStart = p.buf.length)
    (hquiet : quiet → EscapedText text)
    (hroom : Room alloc lossy (p.buf ++ percentEncodeAll .fragment text).length) :
    EndsWith alloc lossy quiet p ⟨p.result.addFragment p.buf.length (some text),
      p.buf ++ percentEncodeAll .fragment text⟩ := by
  obtain ⟨hgoes, hat'⟩ := goes_fragment_text quiet text
    (by simpa using hat : At p pre (text ++ [])) hstate hquiet hroom
  obtain ⟨hbuf, hsliceq, hlen⟩ := UrlParser.pushed_advance
    (rfl : text.flatMap (percentEncode .fragment) = percentEncodeAll .fragment text) hslice
  generalize hq : p.pushed (percentEncode .fragment) text = q at hgoes hat' hbuf hsliceq hlen
  have hstateq : q.advance.state = .fragment := by rw [← hq]; exact hstate
  have hresult : q.advance.result = p.result := by rw [← hq]; rfl
  have hstep : Layout q → urlParserStep alloc q.advance = some (none, { q.advance with
      sliceStart := q.advance.buf.length
      result := p.result.addFragment p.buf.length (some text) }) := by
    intro hlayout
    simp only [urlParserStep, hstateq, urlParserFragment, hat'.c_eq, List.head?_nil,
      hlayout.advance.takeFragment_eq, Option.bind_eq_bind, Option.bind_some]
    rw [hsliceq, hlen, hresult]
    rfl
  have hfail : q.state ≠ .fail := by
    have : q.state = .fragment := hstateq
    simp [this]
  have hends : EndsWith alloc lossy quiet _ _ := EndsWith.turn hfail hstep (hat'.isEof rfl rfl)
  rw [hbuf] at hends
  exact hgoes.endsWith hends

theorem ends_query (quiet : Prop) (text : List UInt8) (fragment : Option (List UInt8))
    (hat : At p pre (text ++ optionalPart '#' fragment)) (hstate : p.state = .query)
    (hspecial : p.special = true) (hslice : p.sliceStart = p.buf.length)
    (htext : ∀ c ∈ text, c ≠ '#'.toUInt8) (hquiet : quiet → EscapedText text)
    (hquiet' : quiet → ∀ text, fragment = some text → EscapedText text)
    (hroom : Room alloc lossy (p.buf ++ percentEncodeAll .specQuery text ++
      encodedPart .fragment fragment).length) :
    EndsWith alloc lossy quiet p ⟨(p.result.addQuery p.buf.length (some text)).addFragment
      (p.buf ++ percentEncodeAll .specQuery text).length fragment,
      p.buf ++ percentEncodeAll .specQuery text ++ encodedPart .fragment fragment⟩ := by
  have hroom' : Room alloc lossy (p.buf ++ percentEncodeAll .specQuery text).length :=
    hroom.mono (by simp only [List.length_append]; omega)
  obtain ⟨hgoes, hat'⟩ := goes_query_text quiet text hat hstate hspecial htext hquiet hroom'
  obtain ⟨hbuf, hsliceq, hlen⟩ := UrlParser.pushed_advance
    (rfl : text.flatMap (percentEncode .specQuery) = percentEncodeAll .specQuery text) hslice
  generalize hq : p.pushed (percentEncode .specQuery) text = q at hgoes hat' hbuf hsliceq hlen
  have hstateq : q.advance.state = .query := by rw [← hq]; exact hstate
  have hfail : q.state ≠ .fail := by
    have : q.state = .query := hstateq
    simp [this]
  have hresult : q.advance.result = p.result := by rw [← hq]; rfl
  have hclosed : Layout q → takeQuery q.advance = some { q.advance with
      sliceStart := q.advance.buf.length
      result := p.result.addQuery p.buf.length (some text) } := by
    intro hlayout
    rw [hlayout.advance.takeQuery_eq, hsliceq, hlen, hresult]
    rfl
  cases fragment with
  | none =>
      have hstep : Layout q → urlParserStep alloc q.advance = some (none, { q.advance with
          sliceStart := q.advance.buf.length
          result := p.result.addQuery p.buf.length (some text) }) := by
        intro hlayout
        simp only [urlParserStep, hstateq, urlParserQuery, hat'.c_eq, optionalPart,
          List.head?_nil, hclosed hlayout, Option.bind_eq_bind, Option.bind_some]
      have hends : EndsWith alloc lossy quiet _ _ := EndsWith.turn hfail hstep (hat'.isEof rfl rfl)
      rw [hbuf] at hends
      simp only [encodedPart, List.append_nil]
      exact hgoes.endsWith hends
  | some fragment =>
      have hc : q.advance.c = some '#'.toUInt8 := hat'.c_eq
      have hstep : Layout q →
          urlParserStep alloc q.advance = some (none, startFragment { q.advance with
            sliceStart := q.advance.buf.length
            result := p.result.addQuery p.buf.length (some text) }) := by
        intro hlayout
        simp only [urlParserStep, hstateq, urlParserQuery, hc, if_true, hclosed hlayout,
          Option.bind_eq_bind, Option.bind_some]
      obtain ⟨hnext, heof⟩ := hat'.next (q := startFragment { q.advance with
          sliceStart := q.advance.buf.length
          result := p.result.addQuery p.buf.length (some text) }) rfl rfl
      have hbuf' : (startFragment { q.advance with
          sliceStart := q.advance.buf.length
          result := p.result.addQuery p.buf.length (some text) }).buf =
          p.buf ++ percentEncodeAll .specQuery text := hbuf
      have hends := ends_fragment quiet fragment hnext rfl rfl
        (fun h => hquiet' h fragment rfl) (by rw [hbuf']; exact hroom)
      rw [hbuf'] at hends
      exact (hgoes.trans (.turn hfail (fun h => ⟨none, hstep h, fun _ => rfl⟩) heof)).endsWith hends

end Query

/-! ## The whole URL -/

def plainUrl (scheme host path : List UInt8) (query fragment : Option (List UInt8)) :
    List UInt8 :=
  scheme ++ cstr "://" ++
    (host ++ (path ++ (optionalPart '?' query ++ optionalPart '#' fragment)))

section Plain

variable {alloc : Alloc} {lossy : Prop} {p : UrlParser} {pre : List UInt8}

/-- The end of the path leads to the query, to the fragment, or to the end of the URL. -/
theorem ends_pathEnd (quiet : Prop) (query fragment : Option (List UInt8))
    (hat : At p pre (optionalPart '?' query ++ optionalPart '#' fragment))
    (hstate : p.state = .path) (hhttp : IsHttp p)
    (hquery : ∀ text, query = some text → ∀ c ∈ text, c ≠ '#'.toUInt8)
    (hquiet : quiet → ∀ text, query = some text → EscapedText text)
    (hquiet' : quiet → ∀ text, fragment = some text → EscapedText text)
    (hroom : Room alloc lossy (p.buf ++ encodedPart .specQuery query ++
      encodedPart .fragment fragment).length) :
    EndsWith alloc lossy quiet p ⟨(p.closePath.result.addQuery p.buf.length query).addFragment
      (p.buf ++ encodedPart .specQuery query).length fragment,
      p.buf ++ encodedPart .specQuery query ++ encodedPart .fragment fragment⟩ := by
  have hadvance : IsHttp p.advance := ⟨hhttp.scheme, hhttp.text, hhttp.special⟩
  have hfail : p.state ≠ .fail := by simp [hstate]
  have hturn : urlParserStep alloc p.advance = urlParserPath alloc p.advance := by
    have : p.advance.state = .path := hstate
    simp only [urlParserStep, this]
  cases query with
  | some query =>
      have hc : p.advance.c = some '?'.toUInt8 := hat.c_eq
      have hstep : Layout p → urlParserStep alloc p.advance =
          some (none, startQuery p.advance.closePath) := by
        intro hlayout
        rw [hturn, urlParserPath_end hadvance hlayout.advance.toBuffered (.inr (.inl hc)),
          if_pos hc]
      obtain ⟨hnext, heof⟩ := hat.next (q := startQuery p.advance.closePath) rfl rfl
      have hends := ends_query quiet query fragment hnext rfl hhttp.special rfl
        (hquery query rfl) (fun h => hquiet h query rfl) hquiet' hroom
      exact (Runs.turn hfail (fun h => ⟨none, hstep h, fun _ => rfl⟩) heof).endsWith hends
  | none =>
      cases fragment with
      | some fragment =>
          have hc : p.advance.c = some '#'.toUInt8 := hat.c_eq
          have hstep : Layout p → urlParserStep alloc p.advance =
              some (none, startFragment p.advance.closePath) := by
            intro hlayout
            rw [hturn, urlParserPath_end hadvance hlayout.advance.toBuffered (.inr (.inr hc)),
              if_neg (by rw [hc]; decide), if_pos hc]
          obtain ⟨hnext, heof⟩ := hat.next (q := startFragment p.advance.closePath) rfl rfl
          simp only [encodedPart, List.append_nil, UrlRegion.addQuery] at hroom ⊢
          have hends := ends_fragment quiet fragment hnext rfl rfl
            (fun h => hquiet' h fragment rfl) hroom
          exact (Runs.turn hfail (fun h => ⟨none, hstep h, fun _ => rfl⟩) heof).endsWith hends
      | none =>
          have hc : p.advance.c = none := hat.c_eq
          have hstep : Layout p → urlParserStep alloc p.advance =
              some (none, p.advance.closePath) := by
            intro hlayout
            rw [hturn, urlParserPath_end hadvance hlayout.advance.toBuffered (.inl hc),
              if_neg (by rw [hc]; decide), if_neg (by rw [hc]; decide)]
          have hends : EndsWith alloc lossy quiet _ _ :=
            EndsWith.turn hfail hstep (hat.isEof rfl rfl)
          simp only [encodedPart, List.append_nil, UrlRegion.addQuery, UrlRegion.addFragment]
          exact hends

theorem ends_path (quiet : Prop) (path : List UInt8) (query fragment : Option (List UInt8))
    (hat : At p pre (path ++ (optionalPart '?' query ++ optionalPart '#' fragment)))
    (hstate : p.state = .path) (hhttp : IsHttp p) (hslice : p.sliceStart = p.buf.length)
    (hempty : p.result.path = .empty)
    (hpath : ∀ c ∈ path, c ≠ '?'.toUInt8 ∧ c ≠ '#'.toUInt8 ∧ c ≠ '\\'.toUInt8)
    (hquietPath : quiet → ∀ c ∈ path, isUrlAscii c = true)
    (hquery : ∀ text, query = some text → ∀ c ∈ text, c ≠ '#'.toUInt8)
    (hquiet : quiet → ∀ text, query = some text → EscapedText text)
    (hquiet' : quiet → ∀ text, fragment = some text → EscapedText text)
    (hroom : Room alloc lossy (p.buf ++ percentEncodeAll .path path ++
      encodedPart .specQuery query ++ encodedPart .fragment fragment).length) :
    EndsWith alloc lossy quiet p ⟨({ p.result with
        path := ⟨p.buf.length, (percentEncodeAll .path path).length⟩ }.addQuery
          (p.buf ++ percentEncodeAll .path path).length query).addFragment
        (p.buf ++ percentEncodeAll .path path ++ encodedPart .specQuery query).length fragment,
      p.buf ++ percentEncodeAll .path path ++ encodedPart .specQuery query ++
        encodedPart .fragment fragment⟩ := by
  have htext : PathText p.buf [] p := by
    refine ⟨by simp, hslice.le, ?_⟩
    simp [UrlParser.extendedPath, UrlParser.bufLen, hempty, hslice, Region.empty]
  obtain ⟨slice, region, pos, allocs, hgoes, hat', htext'⟩ := goes_path quiet path hat hstate hhttp
    htext hpath hquietPath (hroom.mono (by simp only [List.length_append]; omega))
  generalize hq : p.inPath _ slice region pos allocs = q at hgoes hat' htext'
  have hbuf : q.buf = p.buf ++ percentEncodeAll .path path := by
    rw [← hq]
    rfl
  have hends := ends_pathEnd quiet query fragment hat' (by rw [← hq]; exact hstate)
    (by rw [← hq]; exact ⟨hhttp.scheme, hhttp.append _, hhttp.special⟩) hquery hquiet hquiet'
    (by rw [hbuf]; exact hroom)
  have hresult : q.closePath.result = { p.result with
      path := ⟨p.buf.length, (percentEncodeAll .path path).length⟩ } := by
    have hclose : q.closePath.result = { p.result with path := q.extendedPath } := by
      rw [← hq]
      rfl
    rw [hclose, htext'.path_eq, List.nil_append]
  rw [hresult, hbuf] at hends
  exact hgoes.endsWith hends

end Plain

/-- If the loop ends with a URL, `url_parse` returns it, unless it fails for want of
memory. -/
theorem urlParse_of_ends {alloc : Alloc} {lossy : Prop} {slice : List UInt8} {url : Url}
    (hroom : Room alloc lossy slice.length)
    (h : Ends alloc lossy (.initial (urlNormalize slice).2) url) :
    ∃ err, urlParse alloc slice = some ⟨err, false, some url⟩ ∨
      (lossy ∧ urlParse alloc slice = some ⟨err, true, none⟩) := by
  by_cases hcopied : (alloc 0 && slice.length + 1 ≤ ptrdiffMax) = true ∧ alloc 1 = true
  · rcases h (urlNormalize slice).1 (layout_initial _) with
      ⟨q, err₁, err₂, p', hreach, hstate, hstep, heof, rfl⟩ | ⟨hlossy, q, err, hreach, hstate⟩
    · have hs : UrlReaches alloc slice (q, err₁) := ⟨hcopied.1, hcopied.2, hreach⟩
      exact ⟨_, .inl (hs.urlParse_of_eof hstate hstep heof)⟩
    · have hs : UrlReaches alloc slice (q, err) := ⟨hcopied.1, hcopied.2, hreach⟩
      exact ⟨_, .inr ⟨hlossy, hs.urlParse_of_fail hstate⟩⟩
  · rcases hroom with hlossy | ⟨halloc, hlt⟩
    · rcases urlParse_cases alloc slice with ⟨_, hmemory⟩ | ⟨s, hs, _⟩
      · exact ⟨_, .inr ⟨hlossy, hmemory⟩⟩
      · exact absurd ⟨hs.copied, hs.buffered⟩ hcopied
    · exact absurd ⟨by simpa [halloc] using Nat.succ_le_of_lt hlt, halloc 1⟩ hcopied

theorem urlParse_of_ends_of_forall {slice : List UInt8} {url : Url} (hge : ∀ c ∈ slice, 0x21 ≤ c)
    (hlen : slice.length + 1 ≤ ptrdiffMax) (h : Ends allocAll False (.initial slice) url) :
    ∃ err, urlParse allocAll slice = some ⟨err, false, some url⟩ := by
  rw [← show (urlNormalize slice).2 = slice by rw [urlNormalize_of_forall hge]] at h
  obtain ⟨err, hparse | ⟨hfalse, _⟩⟩ := urlParse_of_ends (.inr ⟨fun _ => rfl, hlen⟩) h
  · exact ⟨err, hparse⟩
  · exact hfalse.elim

/-- The parts of a plain `http` URL: a host without delimiters, a path that is empty or
begins with a slash, and maybe a query and a fragment, all without white space. -/
structure PlainParts (scheme host path : List UInt8) (query fragment : Option (List UInt8)) :
    Prop where
  scheme_eq : scheme.map toLower = cstr "http"
  host_ne : host ≠ []
  host_chars : ∀ c ∈ host, 0x21 ≤ c ∧ c ∉ cstr "/?#@:[]\\"
  path_start : path = [] ∨ path.head? = some '/'.toUInt8
  path_chars : ∀ c ∈ path, 0x21 ≤ c ∧ c ∉ cstr "?#\\"
  query_chars : ∀ text, query = some text → ∀ c ∈ text, 0x21 ≤ c ∧ c ≠ '#'.toUInt8
  fragment_chars : ∀ text, fragment = some text → ∀ c ∈ text, 0x21 ≤ c

def plainBuf (host path : List UInt8) (query fragment : Option (List UInt8)) : List UInt8 :=
  cstr "http" ++ host ++ percentEncodeAll .path path ++ encodedPart .specQuery query ++
    encodedPart .fragment fragment

section Whole

variable {alloc : Alloc} {lossy : Prop} {scheme host path : List UInt8}
  {query fragment : Option (List UInt8)}

namespace PlainParts

theorem host_char (h : PlainParts scheme host path query fragment) {c : UInt8} (hc : c ∈ host) :
    c ≠ '@'.toUInt8 ∧ c ≠ ':'.toUInt8 ∧ c ≠ '['.toUInt8 ∧ c ≠ ']'.toUInt8 ∧
      isDelimiter true (some c) = false := by
  have hnot := (h.host_chars c hc).2
  refine ⟨?_, ?_, ?_, ?_, ?_⟩
  · rintro rfl
    exact hnot (by decide)
  · rintro rfl
    exact hnot (by decide)
  · rintro rfl
    exact hnot (by decide)
  · rintro rfl
    exact hnot (by decide)
  · simp only [cstr, List.mem_map, not_exists, not_and] at hnot
    simp only [isDelimiter, Bool.true_and, Bool.or_eq_false_iff, decide_eq_false_iff_not]
    exact ⟨⟨⟨fun h => hnot '/' (by decide) h.symm, fun h => hnot '?' (by decide) h.symm⟩,
      fun h => hnot '#' (by decide) h.symm⟩, fun h => hnot '\\' (by decide) h.symm⟩

theorem path_char (h : PlainParts scheme host path query fragment) {c : UInt8} (hc : c ∈ path) :
    c ≠ '?'.toUInt8 ∧ c ≠ '#'.toUInt8 ∧ c ≠ '\\'.toUInt8 := by
  have hnot := (h.path_chars c hc).2
  refine ⟨?_, ?_, ?_⟩
  · rintro rfl
    exact hnot (by decide)
  · rintro rfl
    exact hnot (by decide)
  · rintro rfl
    exact hnot (by decide)

/-- There are only two slashes in front of the host. -/
theorem host_head (h : PlainParts scheme host path query fragment) (rest : List UInt8) :
    (host ++ rest).head? ≠ some '/'.toUInt8 ∧ (host ++ rest).head? ≠ some '\\'.toUInt8 := by
  obtain ⟨c, tail, rfl⟩ := List.exists_cons_of_ne_nil h.host_ne
  have hc := (h.host_chars c (by simp)).2
  constructor <;>
  · simp only [List.cons_append, List.head?_cons, ne_eq, Option.some.injEq]
    rintro rfl
    exact hc (by decide)

theorem isDelimiter_rest (h : PlainParts scheme host path query fragment) :
    isDelimiter true
      (path ++ (optionalPart '?' query ++ optionalPart '#' fragment)).head? = true := by
  rcases h.path_start with rfl | hslash
  · cases query with
    | some query => simp [optionalPart, isDelimiter]
    | none => cases fragment <;> simp [optionalPart, isDelimiter]
  · simp [List.head?_append, hslash, isDelimiter]

theorem optionalPart_ge (sign : Char) {part : Option (List UInt8)} (hsign : 0x21 ≤ sign.toUInt8)
    (h : ∀ text, part = some text → ∀ c ∈ text, 0x21 ≤ c) :
    ∀ c ∈ optionalPart sign part, 0x21 ≤ c := by
  cases part with
  | none => simp [optionalPart]
  | some text => simpa [optionalPart] using ⟨hsign, h text rfl⟩

theorem ge (h : PlainParts scheme host path query fragment) :
    ∀ c ∈ plainUrl scheme host path query fragment, 0x21 ≤ c := by
  have hscheme : ∀ c ∈ scheme, 0x21 ≤ c := by
    intro c hc
    obtain ⟨_, _, _, _, _, halpha⟩ := eq_of_map_toLower h.scheme_eq
    have hletter := halpha c hc
    simp only [isAsciiAlpha, Bool.or_eq_true, isAsciiLowerAlpha_iff,
      isAsciiUpperAlpha_iff] at hletter
    rw [UInt8.le_iff_toNat_le]
    have : (0x21 : UInt8).toNat = 33 := rfl
    omega
  have hslashes : ∀ c ∈ cstr "://", 0x21 ≤ c := by decide +kernel
  have hquery := optionalPart_ge '?' (by decide)
    fun text ht c hc => (h.query_chars text ht c hc).1
  have hfragment := optionalPart_ge '#' (by decide) h.fragment_chars
  simp only [plainUrl, List.mem_append]
  rintro c ((hc | hc) | hc | hc | hc | hc)
  · exact hscheme c hc
  · exact hslashes c hc
  · exact (h.host_chars c hc).1
  · exact (h.path_chars c hc).1
  · exact hquery c hc
  · exact hfragment c hc

end PlainParts

def plainRegion (host path : List UInt8) (query fragment : Option (List UInt8)) : UrlRegion :=
  let buf := cstr "http" ++ host ++ percentEncodeAll .path path
  ({ UrlRegion.initial with
      scheme := ⟨0, 4⟩
      host := ⟨4, host.length⟩
      hostNull := false
      path := ⟨4 + host.length, (percentEncodeAll .path path).length⟩ }.addQuery
    buf.length query).addFragment (buf ++ encodedPart .specQuery query).length fragment

/-- The parts in which the parser finds no error. The path may not have escapes. -/
structure QuietParts (path : List UInt8) (query fragment : Option (List UInt8)) : Prop where
  path : ∀ c ∈ path, isUrlAscii c = true
  query : ∀ text, query = some text → EscapedText text
  fragment : ∀ text, fragment = some text → EscapedText text

/-- The loop reads a plain URL component by component. -/
theorem endsWith_plain (quiet : Prop) (h : PlainParts scheme host path query fragment)
    (hquiet : quiet → QuietParts path query fragment)
    (hin : (plainUrl scheme host path query fragment).length < ptrdiffMax)
    (hout : Room alloc lossy (plainBuf host path query fragment).length) :
    EndsWith alloc lossy quiet (.initial (plainUrl scheme host path query fragment))
      ⟨plainRegion host path query fragment, plainBuf host path query fragment⟩ := by
  have hlen : (cstr "http").length = 4 := rfl
  have hhttp : Room alloc lossy 4 :=
    hout.mono (by simp only [plainBuf, List.length_append, hlen]; omega)
  have hhost : Room alloc lossy (cstr "http" ++ host).length :=
    hout.mono (by simp only [plainBuf, List.length_append]; omega)
  have hpre : scheme ++ cstr "://" ≠ [] := by simp [cstr]
  -- the scheme
  obtain ⟨hgoes₁, hat₁⟩ := goes_http alloc lossy quiet h.scheme_eq (h.host_head _) hin hhttp
  -- the host, twice, and the rest
  obtain ⟨pos₂, allocs₂, hgoes₂, hat₂⟩ := goes_auth quiet host hat₁ hpre rfl rfl rfl
    (fun c hc => ⟨(h.host_char hc).1, (h.host_char hc).2.2.2.2⟩) h.isDelimiter_rest hhost
  obtain ⟨pos₃, allocs₃, hgoes₃, hat₃⟩ := goes_host quiet host hat₂ hpre rfl rfl h.host_ne
    (fun c hc => (h.host_char hc).2) h.isDelimiter_rest hhost
  generalize hp₃ : UrlParser.withHost _ host pos₃ allocs₃ = p₃ at hgoes₃ hat₃
  have hbuf₃ : p₃.buf = cstr "http" ++ host := by rw [← hp₃]; rfl
  have hhttp₃ : IsHttp p₃ := by
    rw [← hp₃]
    exact ⟨rfl, List.take_left' rfl, rfl⟩
  have hresult₃ : p₃.result = { UrlRegion.initial with
      scheme := ⟨0, 4⟩
      host := ⟨4, host.length⟩
      hostNull := false } := by
    rw [← hp₃]
    rfl
  have hends := ends_path quiet path query fragment hat₃ (by rw [← hp₃]; rfl) hhttp₃
    (by rw [hbuf₃, ← hp₃]; simp [UrlParser.withHost, httpParser]) (by rw [hresult₃]; rfl)
    (fun c hc => h.path_char hc) (fun h => (hquiet h).path)
    (fun text ht c hc => (h.query_chars text ht c hc).2)
    (fun h => (hquiet h).query) (fun h => (hquiet h).fragment) (by rw [hbuf₃]; exact hout)
  rw [hresult₃, hbuf₃] at hends
  have hlength : (cstr "http" ++ host).length = 4 + host.length := by rw [List.length_append, hlen]
  rw [hlength] at hends
  exact ((hgoes₁.trans hgoes₂).trans hgoes₃).endsWith hends

theorem ends_plain (h : PlainParts scheme host path query fragment)
    (hin : (plainUrl scheme host path query fragment).length < ptrdiffMax)
    (hout : Room alloc lossy (plainBuf host path query fragment).length) :
    Ends alloc lossy (.initial (plainUrl scheme host path query fragment))
      ⟨plainRegion host path query fragment, plainBuf host path query fragment⟩ :=
  (endsWith_plain False h False.elim hin hout).ends

theorem text_middle (pre post : List UInt8) {text buf : List UInt8} {n len : ℕ}
    (hbuf : buf = pre ++ text ++ post) (hn : n = pre.length) (hlen : len = text.length) :
    (Region.mk n len).text buf = text := by
  subst hbuf hn hlen
  simp [Region.text]

theorem plainRegion_host_text :
    (plainRegion host path query fragment).host.text (plainBuf host path query fragment) =
      host := by
  have hhost : (plainRegion host path query fragment).host = ⟨4, host.length⟩ := by
    cases query <;> cases fragment <;> rfl
  rw [hhost]
  exact text_middle (cstr "http") _ (by simp only [plainBuf, List.append_assoc]; rfl) rfl rfl

theorem plainRegion_path_text :
    (plainRegion host path query fragment).path.text (plainBuf host path query fragment) =
      percentEncodeAll .path path := by
  have hpath : (plainRegion host path query fragment).path =
      ⟨4 + host.length, (percentEncodeAll .path path).length⟩ := by
    cases query <;> cases fragment <;> rfl
  rw [hpath]
  refine text_middle (cstr "http" ++ host) _
    (by simp only [plainBuf, List.append_assoc]; rfl) ?_ rfl
  rw [List.length_append]
  rfl

theorem plainRegion_query_text (text : List UInt8) :
    (plainRegion host path (some text) fragment).query.text
      (plainBuf host path (some text) fragment) = percentEncodeAll .specQuery text := by
  have hquery : (plainRegion host path (some text) fragment).query =
      ⟨(cstr "http" ++ host ++ percentEncodeAll .path path).length,
        (percentEncodeAll .specQuery text).length⟩ := by
    cases fragment <;> rfl
  rw [hquery]
  exact text_middle _ _ rfl rfl rfl

theorem plainRegion_fragment_text (text : List UInt8) :
    (plainRegion host path query (some text)).fragment.text
      (plainBuf host path query (some text)) = percentEncodeAll .fragment text := by
  have hfragment : (plainRegion host path query (some text)).fragment =
      ⟨(cstr "http" ++ host ++ percentEncodeAll .path path ++
        encodedPart .specQuery query).length, (percentEncodeAll .fragment text).length⟩ := rfl
  rw [hfragment]
  exact text_middle _ [] (by simp only [plainBuf, encodedPart, List.append_nil]) rfl rfl

theorem urlParse_plainUrl (h : PlainParts scheme host path query fragment)
    (hin : (plainUrl scheme host path query fragment).length + 1 ≤ ptrdiffMax)
    (hout : (plainBuf host path query fragment).length + 1 ≤ ptrdiffMax) :
    ∃ err, urlParse allocAll (plainUrl scheme host path query fragment) = some ⟨err, false,
      some ⟨plainRegion host path query fragment, plainBuf host path query fragment⟩⟩ := by
  have hends := ends_plain h hin (.inr ⟨fun _ => rfl, hout⟩ : Room allocAll False _)
  exact urlParse_of_ends_of_forall h.ge hin hends

/-- Parsing a plain `http` URL yields its components, encoded byte by byte. -/
theorem urlParse_plain (h : PlainParts scheme host path query fragment)
    (hin : (plainUrl scheme host path query fragment).length + 1 ≤ ptrdiffMax)
    (hout : (plainBuf host path query fragment).length + 1 ≤ ptrdiffMax) :
    ∃ err url, urlParse allocAll (plainUrl scheme host path query fragment) =
        some ⟨err, false, some url⟩ ∧
      url.scheme.text url.buf = cstr "http" ∧
      url.username.text url.buf = [] ∧ url.password.text url.buf = [] ∧
      url.hostNull = false ∧ url.host.text url.buf = host ∧ url.portNull = true ∧
      url.path.text url.buf = percentEncodeAll .path path ∧
      (url.queryNull = true ↔ query = none) ∧
      (∀ text, query = some text →
        url.query.text url.buf = percentEncodeAll .specQuery text) ∧
      (url.fragmentNull = true ↔ fragment = none) ∧
      (∀ text, fragment = some text →
        url.fragment.text url.buf = percentEncodeAll .fragment text) := by
  obtain ⟨err, hparse⟩ := urlParse_plainUrl h hin hout
  have hscheme : (plainRegion host path query fragment).scheme = ⟨0, 4⟩ := by
    cases query <;> cases fragment <;> rfl
  refine ⟨err, _, hparse, ?_, ?_, ?_, ?_, plainRegion_host_text, ?_, plainRegion_path_text, ?_, ?_,
    ?_, ?_⟩
  · rw [hscheme]
    exact text_middle [] _ (by simp only [plainBuf, List.append_assoc]; rfl) rfl rfl
  · cases query <;> cases fragment <;> rfl
  · cases query <;> cases fragment <;> rfl
  · cases query <;> cases fragment <;> rfl
  · cases query <;> cases fragment <;> rfl
  · cases query <;> cases fragment <;> simp [plainRegion, UrlRegion.addQuery,
      UrlRegion.addFragment, UrlRegion.initial]
  · rintro text rfl
    exact plainRegion_query_text text
  · cases query <;> cases fragment <;> simp [plainRegion, UrlRegion.addQuery,
      UrlRegion.addFragment, UrlRegion.initial]
  · rintro text rfl
    exact plainRegion_fragment_text text

end Whole

theorem urlParse_plain_mixed_case :
    ∃ err url, urlParse allocAll (cstr "hTTp://h/<?q#f") = some ⟨err, false, some url⟩ ∧
      url.host.text url.buf = cstr "h" ∧ url.path.text url.buf = cstr "/%3c" := by
  have hparts : PlainParts (cstr "hTTp") (cstr "h") (cstr "/<") (some (cstr "q"))
      (some (cstr "f")) :=
    ⟨by decide, by decide +kernel, by decide +kernel, by decide +kernel, by decide +kernel,
      fun text ht => by cases ht; decide +kernel, fun text ht => by cases ht; decide +kernel⟩
  obtain ⟨err, url, hparse, _, _, _, _, hhost, _, hpath, _⟩ :=
    urlParse_plain hparts (by decide) (by decide)
  exact ⟨err, url, hparse, hhost, by rw [hpath]; decide⟩

end PosixThreads
