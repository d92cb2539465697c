import PosixThreads.Waxy.Url.Plain

/-!
# An explicit port

At a colon the host state hands over to the port state and not to the path state, and the port
state leaves for `STATE_PATH_START`. That state skips the slash in front of the path of a
special URL, which the path state takes as a part of the path when it comes directly from the
host. So with an explicit port the path is recorded without its first slash.
-/

namespace PosixThreads

section Port

variable {alloc : Alloc} {lossy : Prop} {p : UrlParser} {pre rest : List UInt8}

theorem goes_host_colon (quiet : Prop) (host : List UInt8)
    (hat : At p pre (host ++ ':'.toUInt8 :: rest)) (hstate : p.state = .host)
    (hslice : p.sliceStart = p.buf.length) (hne : host ≠ [])
    (hbrackets : p.insideBrackets = false)
    (htext : ∀ c ∈ host, c ≠ ':'.toUInt8 ∧ c ≠ '['.toUInt8 ∧ c ≠ ']'.toUInt8 ∧
      isDelimiter p.special (some c) = false)
    (hroom : Room alloc lossy (p.buf ++ host).length) :
    ∃ pos allocs, Runs alloc lossy quiet p { p.withHost host pos allocs with state := .port } ∧
      At { p.withHost host pos allocs with state := .port } (pre ++ host ++ [':'.toUInt8])
        rest := by
  obtain ⟨hgoes, hat'⟩ := goes_host_text quiet host hat hstate htext hroom
  obtain ⟨hbuf, hsliceq, hlen⟩ := UrlParser.pushed_advance (List.flatMap_singleton' host) hslice
  generalize hq : p.pushed (fun c => [c]) host = q at hgoes hat' hbuf hsliceq hlen
  have hstateq : q.advance.state = .host := by rw [← hq]; exact hstate
  have hfail : q.state ≠ .fail := by
    have : q.state = .host := hstateq
    simp [this]
  have hbracketsq : q.advance.insideBrackets = false := by rw [← hq]; exact hbrackets
  have hc : q.advance.c = some ':'.toUInt8 := hat'.c_eq
  have hstep : Layout q → urlParserStep alloc q.advance =
      some (none, { p.withHost host q.advance.pos q.allocs with state := .port }) := by
    intro hlayout
    simp only [urlParserStep, hstateq, urlParserHost, hc, decide_true, hbracketsq, Bool.not_false,
      Bool.and_true, if_true, hlayout.advance.takeHost_eq, Option.bind_eq_bind,
      Option.bind_some, hlen, hbuf, hsliceq]
    simp [← hq, UrlParser.pushed, UrlParser.advance, UrlParser.withHost, hne, hbrackets]
  obtain ⟨hnext, heof⟩ := hat'.next
    (q := { p.withHost host q.advance.pos q.allocs with state := .port }) (by rw [← hq]; rfl) rfl
  exact ⟨_, _, hgoes.trans (.turn hfail (fun h => ⟨none, hstep h, fun _ => rfl⟩) heof), hnext⟩

/-- The parser after a port that begins at the end of the buffer. -/
def UrlParser.withPort (p : UrlParser) (digits : List UInt8) (pos : UInt64) (allocs : ℕ) :
    UrlParser :=
  { p with
    buf := p.buf ++ digits
    sliceStart := p.buf.length + digits.length
    result := { p.result with port := UInt16.ofInt (digitsValue digits 0), portNull := false }
    pos := pos
    state := .pathStart
    allocs := allocs }

theorem isAsciiDigit_of_isDelimiter {special : Bool} {c : UInt8}
    (h : isDelimiter special (some c) = true) : isAsciiDigit c = false := by
  simp only [isDelimiter, Bool.or_eq_true, Bool.and_eq_true, decide_eq_true_eq] at h
  rcases h with ((rfl | rfl) | rfl) | ⟨_, rfl⟩ <;> decide

theorem portNumber_digits {digits : List UInt8} (hne : digits ≠ [])
    (hdigits : ∀ c ∈ digits, isAsciiDigit c = true) (hvalue : digitsValue digits 0 ≤ 65535) :
    portNumber digits = (none, (digitsValue digits 0 : ℤ)) := by
  have hmin : min (digitsValue digits 0 : ℤ) llongMax = digitsValue digits 0 := by
    rw [min_eq_left]
    simp only [llongMax]
    omega
  rw [portNumber, parseInteger_digits hne hdigits, hmin]

/-- The parser at the delimiter behind the digits of a port. -/
structure AtPortEnd (p q : UrlParser) (digits : List UInt8) (allocs : ℕ) : Prop where
  eq : q = { p with buf := p.buf ++ digits, pos := q.pos, allocs := allocs }
  state_eq : q.state = .port
  end_eq : ∀ alloc, urlParserStep alloc q.advance = urlParserPortEnd q.advance
  slice_eq : q.sliceStart = p.buf.length

theorem goes_port_digits (quiet : Prop) (digits : List UInt8) (hat : At p pre (digits ++ rest))
    (hstate : p.state = .port) (hslice : p.sliceStart = p.buf.length)
    (hdigits : ∀ c ∈ digits, isAsciiDigit c = true)
    (hrest : isDelimiter p.special rest.head? = true)
    (hroom : Room alloc lossy (p.buf ++ digits).length) :
    ∃ q allocs, Runs alloc lossy quiet p q ∧ At q (pre ++ digits) rest ∧
      AtPortEnd p q digits allocs := by
  have hpush : ∀ c ∈ digits, ∀ (q : UrlParser) (buf : List UInt8) (pos : UInt64) (allocs : ℕ),
      q = { p with buf := buf, pos := pos, allocs := allocs } → q.c = some c →
      ∃ err, urlParserStep alloc q =
        appendOrFail alloc q [c] err fun p => some (none, p) := by
    intro c hc q buf pos allocs hq hqc
    have hturn : urlParserStep alloc q = urlParserPort alloc q := by
      subst hq
      simp only [urlParserStep, hstate]
    refine ⟨none, ?_⟩
    rw [hturn]
    simp only [urlParserPort, hqc, hdigits c hc, if_true]
  obtain ⟨hgoes, hat'⟩ :=
    goes_pushed quiet digits hat (by simp [hstate]) hpush (by simpa using hroom)
  generalize hq : p.pushed (fun c => [c]) digits = q at hgoes hat'
  have hstateq : q.advance.state = .port := by rw [← hq]; exact hstate
  have hspecial : q.advance.special = p.special := by rw [← hq]; rfl
  refine ⟨q, q.allocs, hgoes, hat', ?_, hstateq, fun alloc => ?_, by rw [← hq]; exact hslice⟩
  · rw [← hq]
    simp [UrlParser.pushed]
  · simp only [urlParserStep, hstateq, urlParserPort, hat'.c_eq]
    cases hhead : rest.head? with
    | none => rfl
    | some c =>
        rw [hhead] at hrest
        have hdigit : isAsciiDigit c = false := isAsciiDigit_of_isDelimiter hrest
        simp only [hdigit, Bool.false_eq_true, if_false, hspecial, hrest, if_true]

/-- The turn at the delimiter converts the digits. -/
theorem AtPortEnd.step_eq {q : UrlParser} {digits : List UInt8} {allocs : ℕ}
    (h : AtPortEnd p q digits allocs) (hlayout : Layout q) (hne : digits ≠ []) (alloc : Alloc) :
    urlParserStep alloc q.advance =
      if (portNumber digits).2 > 65535 then
        some (some (.fromCstr "The port nubmer is too high"),
          { q.advance with sliceStart := q.buf.length, state := .fail })
      else
        some ((portNumber digits).1, { q.advance with
          sliceStart := q.buf.length
          result := { q.result with
            port := UInt16.ofInt (portNumber digits).2, portNull := false }
          pos := q.advance.pos - 1
          state := .pathStart }) := by
  have hbuf : q.advance.buf = p.buf ++ digits := congrArg UrlParser.buf h.eq
  have hsliceq : q.advance.sliceStart = p.buf.length := h.slice_eq
  have hlen : q.advance.bufLen = digits.length := by
    simp [UrlParser.bufLen, hbuf, hsliceq]
  have hlen' : q.advance.bufLen ≠ 0 := by
    rw [hlen]
    exact (List.length_pos_iff.mpr hne).ne'
  have htext : (Region.mk p.buf.length digits.length).text (p.buf ++ digits) = digits :=
    text_middle p.buf [] (by simp) rfl rfl
  rw [h.end_eq, urlParserPortEnd, if_pos hlen']
  simp only [urlParserPortValue, hlayout.advance.slice_eq, Option.bind_eq_bind,
    Option.bind_some, hsliceq, hlen, hbuf, htext]
  split_ifs <;> rw [← hbuf] <;> rfl

theorem goes_port (quiet : Prop) (digits : List UInt8) (hat : At p pre (digits ++ rest))
    (hpre : pre ≠ []) (hstate : p.state = .port) (hslice : p.sliceStart = p.buf.length)
    (hne : digits ≠ [])
    (hdigits : ∀ c ∈ digits, isAsciiDigit c = true) (hvalue : digitsValue digits 0 ≤ 65535)
    (hrest : isDelimiter p.special rest.head? = true)
    (hroom : Room alloc lossy (p.buf ++ digits).length) :
    ∃ pos allocs, Runs alloc lossy quiet p (p.withPort digits pos allocs) ∧
      At (p.withPort digits pos allocs) (pre ++ digits) rest := by
  obtain ⟨q, allocs, hgoes, hat', hend⟩ :=
    goes_port_digits quiet digits hat hstate hslice hdigits hrest hroom
  have hfail : q.state ≠ .fail := by simp [hend.state_eq]
  have hsmall : ¬ (digitsValue digits 0 : ℤ) > 65535 := by omega
  have hstep : Layout q → urlParserStep alloc q.advance =
      some (none, p.withPort digits (q.advance.pos - 1) allocs) := by
    intro hlayout
    rw [hend.step_eq hlayout hne, portNumber_digits hne hdigits hvalue, if_neg hsmall, hend.eq]
    simp [UrlParser.advance, UrlParser.withPort]
  have hinput : (p.withPort digits (q.advance.pos - 1) allocs).input = q.input := by
    rw [hend.eq]
    rfl
  obtain ⟨hat₂, heof⟩ := hat'.back (q := p.withPort digits (q.advance.pos - 1) allocs)
    (by simp [hpre]) hinput rfl
  exact ⟨_, _, hgoes.trans (.turn hfail (fun h => ⟨none, hstep h, fun _ => rfl⟩) heof), hat₂⟩

/-- The slash that begins a path is skipped. -/
theorem goes_pathStart (quiet : Prop) (path : List UInt8) (hat : At p pre (path ++ rest))
    (hpre : pre ≠ []) (hstate : p.state = .pathStart) (hspecial : p.special = true)
    (hpath : path = [] ∧ rest.head? ≠ some '/'.toUInt8 ∧ rest.head? ≠ some '\\'.toUInt8 ∨
      path.head? = some '/'.toUInt8) :
    ∃ pos pre', Runs alloc lossy quiet p { p with pos := pos, state := .path } ∧
      At { p with pos := pos, state := .path } pre' (path.tail ++ rest) := by
  have hstate' : p.advance.state = .pathStart := hstate
  have hspecial' : p.advance.special = true := hspecial
  have hfail : p.state ≠ .fail := by simp [hstate]
  have hturn : urlParserStep alloc p.advance = urlParserPathStart p.advance := by
    simp only [urlParserStep, hstate']
  rcases hpath with ⟨rfl, hslash, hback⟩ | hslash
  · have hc : p.advance.c = rest.head? := hat.c_eq
    rw [← hc] at hslash hback
    have hstep : urlParserStep alloc p.advance =
        some (none, { p with pos := p.advance.pos - 1, state := .path }) := by
      rw [hturn, urlParserPathStart, if_pos hspecial', if_neg hback, if_pos ⟨hslash, hback⟩]
      rfl
    obtain ⟨hat', heof⟩ := hat.back
      (q := { p with pos := p.advance.pos - 1, state := .path }) hpre rfl rfl
    exact ⟨_, _, .turn hfail (fun _ => ⟨none, hstep, fun _ => rfl⟩) heof, hat'⟩
  · obtain ⟨path, rfl⟩ : ∃ tail, path = '/'.toUInt8 :: tail := by
      cases path with
      | nil => simp at hslash
      | cons c tail => exact ⟨tail, by simpa using hslash⟩
    have hc : p.advance.c = some '/'.toUInt8 := hat.c_eq
    have hstep : urlParserStep alloc p.advance =
        some (none, { p with pos := p.advance.pos, state := .path }) := by
      have hback : some '/'.toUInt8 ≠ some '\\'.toUInt8 := by decide
      rw [hturn, urlParserPathStart, if_pos hspecial', hc, if_neg hback,
        if_neg fun hand => hand.1 rfl]
      rfl
    obtain ⟨hnext, heof⟩ := hat.next
      (q := { p with pos := p.advance.pos, state := .path }) rfl rfl
    exact ⟨_, _, .turn hfail (fun _ => ⟨none, hstep, fun _ => rfl⟩) heof, hnext⟩

end Port

/-! ## The whole URL -/

def portUrl (scheme host digits path : List UInt8) (query fragment : Option (List UInt8)) :
    List UInt8 :=
  scheme ++ cstr "://" ++ (host ++ ':'.toUInt8 :: digits ++
    (path ++ (optionalPart '?' query ++ optionalPart '#' fragment)))

/-- The buffer of such a URL after it has been parsed. The first byte of the path is missing. -/
def portBuf (host digits path : List UInt8) (query fragment : Option (List UInt8)) : List UInt8 :=
  cstr "http" ++ host ++ digits ++ percentEncodeAll .path path.tail ++
    encodedPart .specQuery query ++ encodedPart .fragment fragment

/-- The regions of such a URL after it has been parsed. -/
def portRegion (host digits path : List UInt8) (query fragment : Option (List UInt8)) :
    UrlRegion :=
  let buf := cstr "http" ++ host ++ digits ++ percentEncodeAll .path path.tail
  ({ UrlRegion.initial with
      scheme := ⟨0, 4⟩
      host := ⟨4, host.length⟩
      hostNull := false
      port := UInt16.ofInt (digitsValue digits 0)
      portNull := false
      path := ⟨(cstr "http" ++ host ++ digits).length,
        (percentEncodeAll .path path.tail).length⟩ }.addQuery
    buf.length query).addFragment (buf ++ encodedPart .specQuery query).length fragment

structure PortDigits (digits : List UInt8) : Prop where
  ne : digits ≠ []
  digit : ∀ c ∈ digits, isAsciiDigit c = true
  value_le : digitsValue digits 0 ≤ 65535

section Whole

variable {alloc : Alloc} {lossy : Prop} {scheme host digits path : List UInt8}
  {query fragment : Option (List UInt8)}

theorem isAsciiDigit_char {c : UInt8} (hdigit : isAsciiDigit c = true) :
    0x21 ≤ c ∧ c ≠ '@'.toUInt8 ∧ isDelimiter true (some c) = false := by
  refine ⟨?_, ?_, ?_⟩
  · have h0 : '0'.toUInt8.toNat = 48 := by decide
    simp only [isAsciiDigit, Bool.and_eq_true, decide_eq_true_eq, UInt8.le_iff_toNat_le] at hdigit ⊢
    have h33 : (0x21 : UInt8).toNat = 33 := rfl
    omega
  · rintro rfl
    exact absurd hdigit (by decide)
  · by_contra hdelim
    rw [isAsciiDigit_of_isDelimiter (by simpa using hdelim)] at hdigit
    simp at hdigit

/-- The path is empty, and no slash follows, or it begins with a slash. -/
theorem PlainParts.path_cases (h : PlainParts scheme host path query fragment) :
    path = [] ∧ (optionalPart '?' query ++ optionalPart '#' fragment).head? ≠ some '/'.toUInt8 ∧
      (optionalPart '?' query ++ optionalPart '#' fragment).head? ≠ some '\\'.toUInt8 ∨
    path.head? = some '/'.toUInt8 := by
  refine h.path_start.imp_left fun hpath => ⟨hpath, ?_⟩
  cases query with
  | some query => simp +decide [optionalPart]
  | none => cases fragment <;> simp +decide [optionalPart]

def portParser (input host : List UInt8) (pos : UInt64) (allocs : ℕ) : UrlParser :=
  { (httpParser input).withHost host pos allocs with state := .port }

/-- The loop reads the scheme and the host, the latter twice, and comes to the port. -/
theorem goes_to_port (h : PlainParts scheme host path query fragment)
    (hdigits : ∀ c ∈ digits, isAsciiDigit c = true) {rest : List UInt8}
    (hrest : isDelimiter true rest.head? = true)
    (hin : (scheme ++ cstr "://" ++ (host ++ ':'.toUInt8 :: digits ++ rest)).length < ptrdiffMax)
    (hroom : Room alloc lossy (cstr "http" ++ (host ++ ':'.toUInt8 :: digits)).length) :
    ∃ pos allocs, Runs alloc lossy False
        (.initial (scheme ++ cstr "://" ++ (host ++ ':'.toUInt8 :: digits ++ rest)))
        (portParser (scheme ++ cstr "://" ++ (host ++ ':'.toUInt8 :: digits ++ rest)) host pos
          allocs) ∧
      At (portParser (scheme ++ cstr "://" ++ (host ++ ':'.toUInt8 :: digits ++ rest)) host pos
        allocs) (scheme ++ cstr "://" ++ host ++ [':'.toUInt8]) (digits ++ rest) := by
  have hlen : (cstr "http").length = 4 := rfl
  have hpre : scheme ++ cstr "://" ≠ [] := by simp [cstr]
  -- the scheme
  obtain ⟨hgoes₁, hat₁⟩ := goes_http alloc lossy False h.scheme_eq
    (by rw [List.append_assoc]; exact h.host_head _) hin
    (hroom.mono (by simp only [List.length_append, hlen]; omega))
  -- the host with the port, and the host again
  have hauthText : ∀ c ∈ host ++ ':'.toUInt8 :: digits,
      c ≠ '@'.toUInt8 ∧ isDelimiter true (some c) = false := by
    intro c hc
    rcases List.mem_append.mp hc with hc | hc
    · exact ⟨(h.host_char hc).1, (h.host_char hc).2.2.2.2⟩
    · rcases List.mem_cons.mp hc with rfl | hc
      · exact ⟨by decide, not_isDelimiter_colon true⟩
      · exact (isAsciiDigit_char (hdigits c hc)).2
  obtain ⟨pos₂, allocs₂, hgoes₂, hat₂⟩ :=
    goes_auth False (host ++ ':'.toUInt8 :: digits) hat₁ hpre rfl rfl rfl hauthText hrest hroom
  generalize hinput : scheme ++ cstr "://" ++ (host ++ ':'.toUInt8 :: digits ++ rest) = input at *
  have hat₂' : At { httpParser input with pos := pos₂, state := .host, allocs := allocs₂ }
      (scheme ++ cstr "://") (host ++ ':'.toUInt8 :: (digits ++ rest)) := by
    rw [← List.cons_append, ← List.append_assoc host]
    exact hat₂
  obtain ⟨pos₃, allocs₃, hgoes₃, hat₃⟩ := goes_host_colon False host hat₂' rfl rfl h.host_ne rfl
    (fun c hc => (h.host_char hc).2)
    (hroom.mono (by simp only [httpParser, List.length_append]; omega))
  exact ⟨pos₃, allocs₃, (hgoes₁.trans hgoes₂).trans hgoes₃, hat₃⟩

theorem ends_port (h : PlainParts scheme host path query fragment) (hdigits : PortDigits digits)
    (hin : (portUrl scheme host digits path query fragment).length < ptrdiffMax)
    (hout : Room alloc lossy (portBuf host digits path query fragment).length) :
    Ends alloc lossy (.initial (portUrl scheme host digits path query fragment))
      ⟨portRegion host digits path query fragment, portBuf host digits path query fragment⟩ := by
  have hlen : (cstr "http").length = 4 := rfl
  have hauth : Room alloc lossy (cstr "http" ++ (host ++ ':'.toUInt8 :: digits)).length := by
    refine hout.imp_right fun hroom => ⟨hroom.1, lt_of_le_of_lt ?_ hin⟩
    obtain ⟨a, b, c, d, rfl, _⟩ := eq_of_map_toLower h.scheme_eq
    simp [portUrl, hlen]
    omega
  -- the scheme and the host
  obtain ⟨pos₃, allocs₃, hgoes₃, hat₃⟩ :=
    goes_to_port h hdigits.digit h.isDelimiter_rest hin hauth
  generalize hp₃ : portParser _ host pos₃ allocs₃ = p₃ at hgoes₃ hat₃
  have hbuf₃ : p₃.buf = cstr "http" ++ host := by rw [← hp₃]; rfl
  -- the port
  obtain ⟨pos₄, allocs₄, hgoes₄, hat₄⟩ := goes_port False digits hat₃ (by simp)
    (by rw [← hp₃]; rfl) (by rw [hbuf₃, ← hp₃]; simp [portParser, UrlParser.withHost, httpParser])
    hdigits.ne hdigits.digit hdigits.value_le (by rw [← hp₃]; exact h.isDelimiter_rest)
    (hout.mono (by rw [hbuf₃]; simp only [portBuf, List.length_append]; omega))
  have hbuf₄ : (p₃.withPort digits pos₄ allocs₄).buf = cstr "http" ++ host ++ digits := by
    rw [← hbuf₃]
    rfl
  -- the path, without its first slash
  obtain ⟨pos₅, pre₅, hgoes₅, hat₅⟩ := goes_pathStart False path hat₄ (by simp) rfl
    (by rw [← hp₃]; rfl) h.path_cases
  generalize hp₅ : ({ p₃.withPort digits pos₄ allocs₄ with pos := pos₅, state := .path } :
    UrlParser) = p₅ at hgoes₅ hat₅
  have hbuf₅ : p₅.buf = cstr "http" ++ host ++ digits := by
    rw [← hp₅]
    exact hbuf₄
  have hhttp₅ : IsHttp p₅ := by
    refine ⟨by rw [← hp₅, ← hp₃]; rfl, ?_, by rw [← hp₅, ← hp₃]; rfl⟩
    rw [hbuf₅, List.append_assoc]
    exact List.take_left' rfl
  have hresult₅ : p₅.result = { UrlRegion.initial with
      scheme := ⟨0, 4⟩
      host := ⟨4, host.length⟩
      hostNull := false
      port := UInt16.ofInt (digitsValue digits 0)
      portNull := false } := by
    rw [← hp₅, ← hp₃]
    rfl
  have hends := ends_path False path.tail query fragment hat₅ (by rw [← hp₅]) hhttp₅
    (by rw [hbuf₅, ← hp₅, List.length_append, ← hbuf₃]; rfl)
    (by rw [hresult₅]; rfl) (fun c hc => h.path_char (List.mem_of_mem_tail hc))
    False.elim (fun text ht c hc => (h.query_chars text ht c hc).2) False.elim False.elim
    (by rw [hbuf₅]; exact hout)
  rw [hresult₅, hbuf₅] at hends
  exact (((hgoes₃.trans hgoes₄).trans hgoes₅).endsWith hends).ends

theorem PlainParts.port_ge (h : PlainParts scheme host path query fragment)
    (hdigits : PortDigits digits) :
    ∀ c ∈ portUrl scheme host digits path query fragment, 0x21 ≤ c := by
  intro c hc
  have hmem : c ∈ plainUrl scheme host path query fragment ∨ c = ':'.toUInt8 ∨ c ∈ digits := by
    simp only [portUrl, plainUrl, List.mem_append, List.mem_cons] at hc ⊢
    tauto
  rcases hmem with hmem | rfl | hmem
  · exact h.ge c hmem
  · decide
  · exact (isAsciiDigit_char (hdigits.digit c hmem)).1

theorem urlParse_portUrl (h : PlainParts scheme host path query fragment)
    (hdigits : PortDigits digits)
    (hin : (portUrl scheme host digits path query fragment).length + 1 ≤ ptrdiffMax)
    (hout : (portBuf host digits path query fragment).length + 1 ≤ ptrdiffMax) :
    ∃ err, urlParse allocAll (portUrl scheme host digits path query fragment) = some ⟨err, false,
      some ⟨portRegion host digits path query fragment,
        portBuf host digits path query fragment⟩⟩ := by
  have hends := ends_port h hdigits hin (.inr ⟨fun _ => rfl, hout⟩ : Room allocAll False _)
  exact urlParse_of_ends_of_forall (h.port_ge hdigits) hin hends

/-- Two URLs have the same components and the same null flags, the port apart. -/
structure SameButPort (url url' : Url) : Prop where
  scheme : url.scheme.text url.buf = url'.scheme.text url'.buf
  host : url.host.text url.buf = url'.host.text url'.buf
  path : url.path.text url.buf = url'.path.text url'.buf
  query : url.query.text url.buf = url'.query.text url'.buf
  fragment : url.fragment.text url.buf = url'.fragment.text url'.buf
  hostNull : url.hostNull = url'.hostNull
  queryNull : url.queryNull = url'.queryNull
  fragmentNull : url.fragmentNull = url'.fragmentNull

/-- With the port the URL is parsed to the same components, and to the value of the digits. -/
def PortOnly (scheme host digits path : List UInt8) (query fragment : Option (List UInt8)) : Prop :=
  ∃ err url err' url',
    urlParse allocAll (portUrl scheme host digits path query fragment) =
      some ⟨err, false, some url⟩ ∧
    urlParse allocAll (plainUrl scheme host path query fragment) = some ⟨err', false, some url'⟩ ∧
    url.portNull = false ∧ url.port.toNat = digitsValue digits 0 ∧ SameButPort url url'

/-- The components that have been recorded, as texts. -/
structure UrlTexts (url : Url) (host path : List UInt8) (query fragment : Option (List UInt8)) :
    Prop where
  hostNull : url.hostNull = false
  queryNull : url.queryNull = query.isNone
  fragmentNull : url.fragmentNull = fragment.isNone
  scheme : url.scheme.text url.buf = cstr "http"
  host : url.host.text url.buf = host
  path : url.path.text url.buf = percentEncodeAll .path path
  query : url.query.text url.buf = encodedPart .specQuery query
  fragment : url.fragment.text url.buf = encodedPart .fragment fragment

theorem UrlTexts.same {url url' : Url} (h : UrlTexts url host path query fragment)
    (h' : UrlTexts url' host path query fragment) : SameButPort url url' :=
  ⟨h.scheme.trans h'.scheme.symm, h.host.trans h'.host.symm, h.path.trans h'.path.symm,
    h.query.trans h'.query.symm, h.fragment.trans h'.fragment.symm,
    h.hostNull.trans h'.hostNull.symm, h.queryNull.trans h'.queryNull.symm,
    h.fragmentNull.trans h'.fragmentNull.symm⟩

theorem Region.text_empty (buf : List UInt8) : Region.empty.text buf = [] := by
  simp [Region.text, Region.empty]

theorem plainRegion_texts : UrlTexts
    ⟨plainRegion host path query fragment, plainBuf host path query fragment⟩ host path query
    fragment := by
  have hscheme : (plainRegion host path query fragment).scheme = ⟨0, 4⟩ := by
    cases query <;> cases fragment <;> rfl
  refine ⟨?_, ?_, ?_, ?_, plainRegion_host_text, plainRegion_path_text, ?_, ?_⟩
  · cases query <;> cases fragment <;> rfl
  · cases query <;> cases fragment <;> rfl
  · cases query <;> cases fragment <;> rfl
  · rw [hscheme]
    exact text_middle [] _ (by simp only [plainBuf, List.append_assoc]; rfl) rfl rfl
  · cases query with
    | none => cases fragment <;> exact Region.text_empty _
    | some text => exact plainRegion_query_text text
  · cases fragment with
    | none => cases query <;> exact Region.text_empty _
    | some text => exact plainRegion_fragment_text text

theorem portRegion_texts : UrlTexts
    ⟨portRegion host digits path query fragment, portBuf host digits path query fragment⟩ host
    path.tail query fragment := by
  have hregions : (portRegion host digits path query fragment).scheme = ⟨0, 4⟩ ∧
      (portRegion host digits path query fragment).host = ⟨4, host.length⟩ ∧
      (portRegion host digits path query fragment).path =
        ⟨(cstr "http" ++ host ++ digits).length, (percentEncodeAll .path path.tail).length⟩ := by
    cases query <;> cases fragment <;> exact ⟨rfl, rfl, rfl⟩
  refine ⟨?_, ?_, ?_, ?_, ?_, ?_, ?_, ?_⟩
  · cases query <;> cases fragment <;> rfl
  · cases query <;> cases fragment <;> rfl
  · cases query <;> cases fragment <;> rfl
  · rw [hregions.1]
    exact text_middle [] _ (by simp only [portBuf, List.append_assoc]; rfl) rfl rfl
  · rw [hregions.2.1]
    exact text_middle (cstr "http") _ (by simp only [portBuf, List.append_assoc]; rfl) rfl rfl
  · rw [hregions.2.2]
    exact text_middle (cstr "http" ++ host ++ digits) _
      (by simp only [portBuf, List.append_assoc]; rfl) rfl rfl
  · cases query with
    | none => cases fragment <;> exact Region.text_empty _
    | some text =>
        have hquery : (portRegion host digits path (some text) fragment).query =
            ⟨(cstr "http" ++ host ++ digits ++ percentEncodeAll .path path.tail).length,
              (percentEncodeAll .specQuery text).length⟩ := by
          cases fragment <;> rfl
        rw [hquery]
        exact text_middle _ _ rfl rfl rfl
  · cases fragment with
    | none => cases query <;> exact Region.text_empty _
    | some text =>
        have hfragment : (portRegion host digits path query (some text)).fragment =
            ⟨(cstr "http" ++ host ++ digits ++ percentEncodeAll .path path.tail ++
              encodedPart .specQuery query).length, (percentEncodeAll .fragment text).length⟩ := rfl
        rw [hfragment]
        exact text_middle _ [] (by simp only [portBuf, encodedPart, List.append_nil]) rfl rfl

theorem toNat_ofInt_port (hvalue : digitsValue digits 0 ≤ 65535) :
    (UInt16.ofInt (digitsValue digits 0)).toNat = digitsValue digits 0 := by
  have hmod : (digitsValue digits 0 : ℤ) % 2 ^ 16 = digitsValue digits 0 := by omega
  rw [UInt16.ofInt, hmod, Int.toNat_natCast]
  exact UInt16.toNat_ofNat_of_lt' (by simp [UInt16.size]; omega)

theorem portRegion_port (hdigits : PortDigits digits) :
    (portRegion host digits path query fragment).portNull = false ∧
      (portRegion host digits path query fragment).port.toNat = digitsValue digits 0 := by
  have hport : (portRegion host digits path query fragment).portNull = false ∧
      (portRegion host digits path query fragment).port =
        UInt16.ofInt (digitsValue digits 0) := by
    cases query <;> cases fragment <;> exact ⟨rfl, rfl⟩
  rw [hport.2]
  exact ⟨hport.1, toNat_ofInt_port hdigits.value_le⟩

theorem percentEncodeAll_tail_ne (hpath : path.head? = some '/'.toUInt8) :
    percentEncodeAll .path path.tail ≠ percentEncodeAll .path path := by
  cases path with
  | nil => simp at hpath
  | cons c tail =>
      intro heq
      have hlen := congrArg List.length heq
      have hpos := length_percentEncode_pos .path c
      rw [List.tail_cons, percentEncodeAll_cons, List.length_append] at hlen
      omega

/-- An explicit port changes nothing but the port if and only if the path is empty. -/
theorem portOnly_iff (h : PlainParts scheme host path query fragment)
    (hdigits : PortDigits digits)
    (hin : (portUrl scheme host digits path query fragment).length + 1 ≤ ptrdiffMax)
    (hout : (plainBuf host path query fragment).length + digits.length + 1 ≤ ptrdiffMax) :
    PortOnly scheme host digits path query fragment ↔ path = [] := by
  have hinPlain : (plainUrl scheme host path query fragment).length + 1 ≤ ptrdiffMax := by
    refine le_trans ?_ hin
    simp only [plainUrl, portUrl, List.length_append, List.length_cons]
    omega
  have houtPort : (portBuf host digits path query fragment).length + 1 ≤ ptrdiffMax := by
    have htail : (percentEncodeAll .path path.tail).length ≤
        (percentEncodeAll .path path).length := by
      cases path with
      | nil => exact le_rfl
      | cons c tail => simp
    refine le_trans ?_ hout
    simp only [plainBuf, portBuf, List.length_append]
    omega
  obtain ⟨err, hport⟩ := urlParse_portUrl h hdigits hin houtPort
  obtain ⟨err', hplain⟩ := urlParse_plainUrl h hinPlain (by omega)
  have htexts := @portRegion_texts host digits path query fragment
  have htexts' := @plainRegion_texts host path query fragment
  constructor
  · rintro ⟨_, url, _, url', hparse, hparse', _, _, hsame⟩
    rw [hport] at hparse
    rw [hplain] at hparse'
    cases hparse
    cases hparse'
    refine h.path_start.resolve_right fun hslash => ?_
    exact percentEncodeAll_tail_ne hslash (htexts.path.symm.trans (hsame.path.trans htexts'.path))
  · rintro rfl
    exact ⟨err, _, err', _, hport, hplain, (portRegion_port hdigits).1, (portRegion_port hdigits).2,
      htexts.same htexts'⟩

end Whole

theorem portOnly_query :
    PortOnly (cstr "http") (cstr "h") (cstr "0080") [] (some (cstr "q")) none := by
  have hparts : PlainParts (cstr "http") (cstr "h") [] (some (cstr "q")) none :=
    ⟨by decide, by decide +kernel, by decide +kernel, by decide +kernel, by decide +kernel,
      fun text ht => by cases ht; decide +kernel, fun text ht => by cases ht⟩
  have hdigits : PortDigits (cstr "0080") :=
    ⟨by decide +kernel, by decide +kernel, by decide⟩
  exact (portOnly_iff hparts hdigits (by decide) (by decide)).mpr rfl

/-- The path of the first URL is `x`, and the one of the second URL is `/x`. -/
theorem not_portOnly_path :
    ¬ PortOnly (cstr "http") (cstr "h") (cstr "80") (cstr "/x") none none := by
  rintro ⟨err, url, err', url', hparse, hparse', _, _, hsame⟩
  have hport : (urlParse allocAll (portUrl (cstr "http") (cstr "h") (cstr "80") (cstr "/x") none
      none)).bind (fun r => r.url.map fun url => url.path.text url.buf) = some (cstr "x") := by
    decide +kernel
  have hplain : (urlParse allocAll (plainUrl (cstr "http") (cstr "h") (cstr "/x") none
      none)).bind (fun r => r.url.map fun url => url.path.text url.buf) = some (cstr "/x") := by
    decide +kernel
  rw [hparse] at hport
  rw [hparse'] at hplain
  have hpath : url.path.text url.buf = cstr "x" := by simpa using hport
  have hpath' : url'.path.text url'.buf = cstr "/x" := by simpa using hplain
  rw [hsame.path, hpath'] at hpath
  exact absurd hpath (by decide)

end PosixThreads
