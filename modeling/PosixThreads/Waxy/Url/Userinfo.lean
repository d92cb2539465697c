import PosixThreads.Waxy.Url.Plain

/-!
# URLs with user info

At an at sign the authority state encodes the text in front of it a second time, into
the buffer behind it, and goes on to read the host. The end of the authority then
drops both texts and moves back by their common length, as if only the host had
been read. The host state therefore begins inside the user info: one or two bytes
behind its start when nothing had to be escaped, and elsewhere when something had.
In the first case the host it finds contains the at sign, or a colon makes it fail;
in the second the lengths of the username and the password, which are counted per
byte of the source, are too small for their encoded texts. Hence no URL with user
info is decomposed correctly, which is `not_userinfoParsed`.
-/

namespace PosixThreads

/-! ## The second encoding -/

section Encode

variable {alloc : Alloc}

theorem encodeUserinfo_append (s t : List UInt8) (p : UrlParser) :
    encodeUserinfo alloc (s ++ t) p =
      match encodeUserinfo alloc s p with
      | (some err, q) => (some err, q)
      | (none, q) => encodeUserinfo alloc t q := by
  induction s generalizing p with
  | nil => rfl
  | cons c s ih =>
      rw [List.cons_append, encodeUserinfo, encodeUserinfo]
      split
      · exact ih _
      · rcases UrlParser.append_cases alloc p (percentEncode .userinfo c) with
          ⟨_, happend⟩ | happend
        · simp only [happend]
          exact ih _
        · simp only [happend]

/-- Text without a colon counts for the username, as does text behind the colon for
the password. -/
theorem encodeUserinfo_text (text : List UInt8) {p q : UrlParser}
    (hcolon : p.passwordTokenSeen = true ∨ ':'.toUInt8 ∉ text)
    (h : encodeUserinfo alloc text p = (none, q)) :
    q.buf = p.buf ++ percentEncodeAll .userinfo text ∧
      q.passwordTokenSeen = p.passwordTokenSeen ∧
      (p.passwordTokenSeen = true → q.result.username.len = p.result.username.len ∧
        q.result.password.len = p.result.password.len + text.length) ∧
      (p.passwordTokenSeen = false →
        q.result.username.len = p.result.username.len + text.length ∧
        q.result.password.len = p.result.password.len) := by
  induction text generalizing p with
  | nil =>
      simp only [encodeUserinfo, Prod.mk.injEq, true_and] at h
      subst h
      simp
  | cons c text ih =>
      have hfirst : ¬(c = ':'.toUInt8 && !p.passwordTokenSeen) = true := by
        rcases hcolon with h | h
        · simp [h]
        · simp only [List.mem_cons, not_or] at h
          simp [Ne.symm h.1]
      rw [encodeUserinfo, if_neg hfirst] at h
      rcases UrlParser.append_cases alloc p (percentEncode .userinfo c) with
        ⟨_, happend⟩ | happend
      · simp only [happend] at h
        have hcolon' : p.passwordTokenSeen = true ∨ ':'.toUInt8 ∉ text :=
          hcolon.imp_right fun h' hmem => h' (by simp [hmem])
        by_cases hseen : p.passwordTokenSeen = true
        · simp only [UrlParser.countUserinfo, hseen, if_true] at h
          obtain ⟨hbuf, hseen', hpassword, _⟩ := ih (by exact .inl rfl) h
          obtain ⟨huser, hlen⟩ := hpassword rfl
          refine ⟨by simpa using hbuf, by rw [hseen', hseen], fun _ => ⟨huser, ?_⟩, by simp [hseen]⟩
          simp only [List.length_cons] at hlen ⊢
          omega
        · simp only [Bool.not_eq_true] at hseen
          simp only [UrlParser.countUserinfo, hseen, Bool.false_eq_true, if_false] at h
          obtain ⟨hbuf, hseen', _, huser⟩ := ih (by simpa [hseen] using hcolon') h
          obtain ⟨hlen, hpassword⟩ := huser rfl
          refine ⟨by simpa using hbuf, by rw [hseen', hseen], by simp [hseen],
            fun _ => ⟨?_, hpassword⟩⟩
          simp only [List.length_cons] at hlen ⊢
          omega
      · simp [happend] at h

def userinfoText (user : List UInt8) (password : Option (List UInt8)) : List UInt8 :=
  user ++ optionalPart ':' password

/-- The username and the password are counted by the bytes of the source, but pushed
as they are encoded. The colon between them is not pushed. -/
theorem encodeUserinfo_userinfoText {user : List UInt8} {password : Option (List UInt8)}
    {p q : UrlParser} (hseen : p.passwordTokenSeen = false) (huser : ':'.toUInt8 ∉ user)
    (h : encodeUserinfo alloc (userinfoText user password) p = (none, q)) :
    q.buf = p.buf ++ (percentEncodeAll .userinfo user ++ encodedPart .userinfo password) ∧
      q.result.username.len = p.result.username.len + user.length ∧
      q.result.password.len = p.result.password.len + (password.getD []).length := by
  cases password with
  | none =>
      simp only [userinfoText, optionalPart, List.append_nil] at h
      obtain ⟨hbuf, _, _, hlens⟩ := encodeUserinfo_text user (.inr huser) h
      obtain ⟨huserlen, hpasswordlen⟩ := hlens hseen
      exact ⟨by simpa [encodedPart] using hbuf, huserlen, by simpa using hpasswordlen⟩
  | some password =>
      rw [userinfoText, encodeUserinfo_append] at h
      rcases hfirst : encodeUserinfo alloc user p with ⟨_ | err, q₁⟩
      · obtain ⟨hbuf₁, hseen₁, _, hlens₁⟩ := encodeUserinfo_text user (.inr huser) hfirst
        obtain ⟨huserlen₁, hpasswordlen₁⟩ := hlens₁ hseen
        rw [hseen] at hseen₁
        simp only [hfirst, optionalPart] at h
        rw [encodeUserinfo, if_pos (by simp [hseen₁])] at h
        obtain ⟨hbuf₂, _, hlens₂, _⟩ := encodeUserinfo_text password (.inl rfl) h
        obtain ⟨huserlen₂, hpasswordlen₂⟩ := hlens₂ rfl
        refine ⟨?_, ?_, ?_⟩
        · rw [hbuf₂, hbuf₁, List.append_assoc]
          rfl
        · rw [huserlen₂, huserlen₁]
        · rw [hpasswordlen₂, hpasswordlen₁]
          rfl
      · simp [hfirst] at h

end Encode

/-! ## The run -/

def NotFatal (alloc : Alloc) (slice : List UInt8) : Prop :=
  ∀ err, urlParse alloc slice ≠ some ⟨err, true, none⟩

section Run

variable {alloc : Alloc} {slice : List UInt8} {p : UrlParser} {err : Option Error}
  {pre rest : List UInt8}

theorem UrlReaches.not_fail (hs : UrlReaches alloc slice (p, err)) (hok : NotFatal alloc slice) :
    p.state ≠ .fail :=
  fun hstate => hok _ (hs.urlParse_of_fail hstate)

theorem UrlReaches.goes {lossy : Prop} {q : UrlParser} (hs : UrlReaches alloc slice (p, err))
    (hok : NotFatal alloc slice) (h : Goes alloc lossy p q) :
    ∃ err', UrlReaches alloc slice (q, err') := by
  rcases h err hs.inv.layout with ⟨_, err', hreach⟩ | ⟨_, q', err', hreach, hstate⟩
  · exact ⟨err', hs.copied, hs.buffered, hs.reaches.trans hreach⟩
  · have hs' : UrlReaches alloc slice (q', err') :=
      ⟨hs.copied, hs.buffered, hs.reaches.trans hreach⟩
    exact absurd hstate (hs'.not_fail hok)

theorem UrlReaches.step {q : UrlParser} {err' : Option Error}
    (hs : UrlReaches alloc slice (p, err)) (hok : NotFatal alloc slice)
    (hstep : urlParserStep alloc p.advance = some (err', q)) (heof : q.isEof = false) :
    UrlReaches alloc slice (q, errorCombine err err') :=
  hs.turn (urlLoopBody_of_step (hs.not_fail hok) hstep heof)

theorem UrlReaches.push {q : UrlParser} {c : UInt8} {bytes : List UInt8}
    {err₁ err₂ : Option Error} (hs : UrlReaches alloc slice (p, err))
    (hok : NotFatal alloc slice) (hat : At p pre (c :: rest)) (hinput : q.input = p.input)
    (hpos : q.pos = p.advance.pos)
    (hstep : urlParserStep alloc p.advance =
      appendOrFail alloc q bytes err₁ fun q => some (err₂, q)) :
    ∃ err', UrlReaches alloc slice
        ({ q with buf := q.buf ++ bytes, allocs := q.allocs + 1 }, err') ∧
      At { q with buf := q.buf ++ bytes, allocs := q.allocs + 1 } (pre ++ [c]) rest := by
  rcases UrlParser.append_cases alloc q bytes with ⟨_, happend⟩ | happend
  · obtain ⟨hnext, heof⟩ := hat.next
      (q := { q with buf := q.buf ++ bytes, allocs := q.allocs + 1 }) hinput hpos
    simp only [appendOrFail, happend] at hstep
    exact ⟨_, hs.step hok hstep heof, hnext⟩
  · exfalso
    obtain ⟨_, heof⟩ := hat.next
      (q := { q with allocs := q.allocs + 1, state := .fail }) hinput hpos
    simp only [appendOrFail, happend, failWith] at hstep
    exact (hs.step hok hstep heof).not_fail hok rfl

/-- The parser behind the at sign. The encoded text is buffered since `slice_start`. -/
structure BehindAt (p q : UrlParser) (encoded user password : ℕ) : Prop where
  state : q.state = .auth
  special : q.special = p.special
  brackets : q.insideBrackets = p.insideBrackets
  seen : q.atSignSeen = true
  sliceStart : q.sliceStart = p.buf.length
  buf_length : q.buf.length = p.buf.length + encoded
  username : q.result.username.len = p.result.username.len + user
  password : q.result.password.len = p.result.password.len + password

theorem UrlReaches.at_sign {user : List UInt8} {password : Option (List UInt8)}
    (hs : UrlReaches alloc slice (p, err)) (hok : NotFatal alloc slice)
    (hat : At p pre ('@'.toUInt8 :: rest)) (hstate : p.state = .auth)
    (hseen : p.atSignSeen = false) (htoken : p.passwordTokenSeen = false)
    (huser : ':'.toUInt8 ∉ user)
    (htext : (Region.mk p.sliceStart p.bufLen).text p.buf = userinfoText user password) :
    ∃ q err', UrlReaches alloc slice (q, err') ∧ At q (pre ++ ['@'.toUInt8]) rest ∧
      BehindAt p q ((percentEncodeAll .userinfo user).length +
        (encodedPart .userinfo password).length) user.length (password.getD []).length := by
  have hlayout : Layout p.advance := hs.inv.layout.advance
  have hc : p.advance.c = some '@'.toUInt8 := hat.c_eq
  have hstate' : p.advance.state = .auth := hstate
  have hseen' : p.advance.atSignSeen = false := hseen
  have htext' : (Region.mk p.advance.sliceStart p.advance.bufLen).text p.advance.buf =
      userinfoText user password := htext
  generalize hp₀ : p.advance.closeUserinfo = p₀
  obtain ⟨encodeErr, bytes, seen, username, pass, allocs, heq, _⟩ :=
    encodeUserinfo_spec alloc (userinfoText user password) p₀
      (by rw [← hp₀]; exact hlayout.buf_lt)
  have hstep := hlayout.urlParserAuthAt_eq alloc (some (.fromCstr
    "encountered an illegal `@` (a valid URL cannot contain a username)"))
  rw [htext', hp₀, heq] at hstep
  have hturn : urlParserStep alloc p.advance = urlParserAuthAt alloc (some (.fromCstr
      "encountered an illegal `@` (a valid URL cannot contain a username)")) p.advance := by
    simp only [urlParserStep, hstate', urlParserAuth, hc, if_true, hseen', Bool.false_eq_true,
      if_false]
  rw [← hturn] at hstep
  generalize hq : ({ p₀ with
    buf := p₀.buf ++ bytes
    passwordTokenSeen := seen
    allocs := allocs
    result := { p₀.result with username := username, password := pass } } : UrlParser) = q
    at hstep heq
  have hinput : q.input = p.input := by rw [← hq, ← hp₀]; rfl
  have hpos : q.pos = p.advance.pos := by rw [← hq, ← hp₀]; rfl
  cases encodeErr with
  | some e =>
      -- the encoding fails for want of memory, and so does the parse
      exfalso
      obtain ⟨_, heof⟩ := hat.next (q := { q with state := .fail }) hinput hpos
      exact (hs.step hok hstep heof).not_fail hok rfl
  | none =>
      obtain ⟨hnext, heof⟩ := hat.next (q := q) hinput hpos
      obtain ⟨hbuf, hname, hpass⟩ := encodeUserinfo_userinfoText
        (by rw [← hp₀]; exact htoken) huser heq
      refine ⟨q, _, hs.step hok hstep heof, hnext, ?_⟩
      have hbuf₀ : p₀.buf = p.buf := by rw [← hp₀]; rfl
      refine ⟨?_, ?_, ?_, ?_, ?_, ?_, ?_, ?_⟩
      · rw [← hq, ← hp₀]
        exact hstate
      · rw [← hq, ← hp₀]
        rfl
      · rw [← hq, ← hp₀]
        rfl
      · rw [← hq, ← hp₀]
        rfl
      · rw [← hq, ← hp₀]
        rfl
      · rw [hbuf, hbuf₀, List.length_append, List.length_append]
      · rw [hname, ← hp₀]
        rfl
      · rw [hpass, ← hp₀]
        rfl

theorem UrlReaches.port_digit {c : UInt8} (hs : UrlReaches alloc slice (p, err))
    (hok : NotFatal alloc slice) (hat : At p pre (c :: rest)) (hstate : p.state = .port)
    (hdelim : isDelimiter p.special (some c) = false) : isAsciiDigit c = true := by
  by_contra hdigit
  simp only [Bool.not_eq_true] at hdigit
  have hstate' : p.advance.state = .port := hstate
  have hc : p.advance.c = some c := hat.c_eq
  have hdelim' : isDelimiter p.advance.special (some c) = false := hdelim
  obtain ⟨_, heof⟩ := hat.next (q := { p.advance with state := .fail }) rfl rfl
  have hstep : urlParserStep alloc p.advance = some (some (.fromCstr
      "The port contains illegal characters"), { p.advance with state := .fail }) := by
    simp only [urlParserStep, hstate', urlParserPort, hc, hdigit, hdelim', Bool.false_eq_true,
      if_false]
  exact (hs.step hok hstep heof).not_fail hok rfl

/-- A port cannot stand in front of an at sign. -/
theorem UrlReaches.port_absurd {text : List UInt8} (hs : UrlReaches alloc slice (p, err))
    (hok : NotFatal alloc slice) (hat : At p pre (text ++ '@'.toUInt8 :: rest))
    (hstate : p.state = .port)
    (htext : ∀ c ∈ text, isDelimiter p.special (some c) = false) : False := by
  induction text generalizing p pre err with
  | nil => exact absurd (hs.port_digit hok hat hstate (not_isDelimiter_at _)) (by decide)
  | cons c text ih =>
      have hdigit := hs.port_digit hok hat hstate (htext c (by simp))
      have hstate' : p.advance.state = .port := hstate
      have hc : p.advance.c = some c := hat.c_eq
      have hstep : urlParserStep alloc p.advance =
          appendOrFail alloc p.advance [c] none fun p => some (none, p) := by
        simp only [urlParserStep, hstate', urlParserPort, hc, hdigit, if_true]
      obtain ⟨err', hs', hnext⟩ := hs.push (q := p.advance) hok hat rfl rfl hstep
      exact ih hs' hnext hstate fun d hd => htext d (by simp [hd])

/-- One byte of a host that stands in front of an at sign. A colon outside brackets
would begin a port. -/
theorem UrlReaches.host_turn {c : UInt8} {text : List UInt8}
    (hs : UrlReaches alloc slice (p, err)) (hok : NotFatal alloc slice)
    (hat : At p pre (c :: (text ++ '@'.toUInt8 :: rest))) (hstate : p.state = .host)
    (htext : ∀ d ∈ c :: text, isDelimiter p.special (some d) = false) :
    ∃ brackets err', UrlReaches alloc slice ({ p.advance with
        buf := p.buf ++ [c], allocs := p.allocs + 1, insideBrackets := brackets }, err') ∧
      At { p.advance with
        buf := p.buf ++ [c], allocs := p.allocs + 1, insideBrackets := brackets }
        (pre ++ [c]) (text ++ '@'.toUInt8 :: rest) := by
  have hstate' : p.advance.state = .host := hstate
  have hc : p.advance.c = some c := hat.c_eq
  have hdelim : isDelimiter p.advance.special (some c) = false := htext c (by simp)
  by_cases hcolon : c = ':'.toUInt8 ∧ p.advance.insideBrackets = false
  · exfalso
    obtain ⟨rfl, hbrackets⟩ := hcolon
    have hlayout : Layout p.advance := hs.inv.layout.advance
    by_cases hlen : p.advance.bufLen = 0
    · obtain ⟨_, heof⟩ := hat.next (q := { p.advance with state := .fail }) rfl rfl
      have hstep : urlParserStep alloc p.advance = some (some (.fromCstr
          "The hostname is empty"), { p.advance with state := .fail }) := by
        simp [urlParserStep, hstate', urlParserHost, hc, hbrackets, hlen]
      exact (hs.step hok hstep heof).not_fail hok rfl
    · generalize hq : ({ p.advance with
        sliceStart := p.advance.buf.length
        result := { p.advance.result with
          host := ⟨p.advance.sliceStart, p.advance.bufLen⟩, hostNull := false }
        state := .port } : UrlParser) = q
      have hstep : urlParserStep alloc p.advance = some (none, q) := by
        simp [urlParserStep, hstate', urlParserHost, hc, hbrackets, hlen, hlayout.takeHost_eq,
          ← hq]
      obtain ⟨hnext, heof⟩ := hat.next (q := q) (by rw [← hq]; rfl) (by rw [← hq])
      exact (hs.step hok hstep heof).port_absurd hok hnext (by rw [← hq])
        (fun d hd => by rw [← hq]; exact htext d (by simp [hd]))
  · have hcolon' : ¬(decide (p.advance.c = some ':'.toUInt8) && !p.advance.insideBrackets) =
        true := by
      rw [hc]
      simpa using hcolon
    have hstep : urlParserStep alloc p.advance =
        appendOrFail alloc { p.advance with insideBrackets :=
          if c = '['.toUInt8 then true else if c = ']'.toUInt8 then false
          else p.advance.insideBrackets } [c] none fun p => some (none, p) := by
      simp only [urlParserStep, hstate']
      rw [urlParserHost, if_neg hcolon']
      simp only [hc, hdelim, Bool.false_eq_true, if_false, hstate']
    obtain ⟨err', hs', hnext⟩ := hs.push (q := { p.advance with insideBrackets :=
      if c = '['.toUInt8 then true else if c = ']'.toUInt8 then false
      else p.advance.insideBrackets }) hok hat rfl rfl hstep
    exact ⟨_, err', hs', hnext⟩

/-- The host state reads everything up to the delimiter behind an at sign. -/
theorem UrlReaches.host_run {text host : List UInt8} (hs : UrlReaches alloc slice (p, err))
    (hok : NotFatal alloc slice) (hpre : pre ≠ [])
    (hat : At p pre (text ++ '@'.toUInt8 :: (host ++ rest))) (hstate : p.state = .host)
    (htext : ∀ c ∈ text, isDelimiter p.special (some c) = false)
    (hhost : ∀ c ∈ host, c ≠ ':'.toUInt8 ∧ c ≠ '['.toUInt8 ∧ c ≠ ']'.toUInt8 ∧
      isDelimiter p.special (some c) = false)
    (hrest : isDelimiter p.special rest.head? = true) :
    ∃ q err', UrlReaches alloc slice (q, err') ∧ q.state = .path ∧
      q.result.host.len = p.bufLen + text.length + 1 + host.length := by
  induction text generalizing p pre err with
  | cons c text ih =>
      obtain ⟨brackets, err', hs', hat'⟩ := hs.host_turn hok hat hstate htext
      obtain ⟨q, err'', hq, hqstate, hqlen⟩ := ih hs' (by simp) hat' hstate
        (fun d hd => htext d (by simp [hd])) hhost hrest
      refine ⟨q, err'', hq, hqstate, ?_⟩
      rw [hqlen]
      have hle : p.sliceStart ≤ p.buf.length := hs.inv.layout.sliceStart_le
      simp only [UrlParser.bufLen, UrlParser.advance, List.length_append, List.length_cons,
        List.length_nil]
      omega
  | nil =>
      have hstate' : p.advance.state = .host := hstate
      have hc : p.advance.c = some '@'.toUInt8 := hat.c_eq
      have hdelim := not_isDelimiter_at p.advance.special
      have hcolon : some '@'.toUInt8 ≠ some ':'.toUInt8 := by decide
      have hopen : '@'.toUInt8 ≠ '['.toUInt8 := by decide
      have hclose : '@'.toUInt8 ≠ ']'.toUInt8 := by decide
      have hstep : urlParserStep alloc p.advance =
          appendOrFail alloc p.advance ['@'.toUInt8] none fun p => some (none, p) := by
        simp only [urlParserStep, hstate', urlParserHost, hc, hcolon, decide_false,
          Bool.false_and, Bool.false_eq_true, if_false, hdelim, hopen, hclose]
        rw [← hstate']
      obtain ⟨err₁, hs₁, hat₁⟩ := hs.push (q := p.advance) hok hat rfl rfl hstep
      generalize hp₁ : ({ p.advance with
        buf := p.advance.buf ++ ['@'.toUInt8], allocs := p.advance.allocs + 1 } : UrlParser) = p₁
        at hs₁ hat₁
      have hspecial : p₁.special = p.special := by rw [← hp₁]; rfl
      obtain ⟨hgoes, hat₂⟩ := goes_host_text False host hat₁ (by rw [← hp₁]; exact hstate)
        (by rw [hspecial]; exact hhost) (.inl trivial : Room alloc True _)
      obtain ⟨err₂, hs₂⟩ := hs₁.goes hok hgoes.goes
      generalize hp₂ : p₁.pushed (fun c => [c]) host = p₂ at hs₂ hat₂
      have hlen : p₂.advance.bufLen = p.bufLen + 0 + 1 + host.length := by
        have hle : p.sliceStart ≤ p.buf.length := hs.inv.layout.sliceStart_le
        have hbuf : p₂.advance.buf = p.buf ++ ['@'.toUInt8] ++ host := by
          simp [← hp₂, ← hp₁, UrlParser.pushed, UrlParser.advance]
        have hslice : p₂.advance.sliceStart = p.sliceStart := by rw [← hp₂, ← hp₁]; rfl
        simp only [UrlParser.bufLen, hbuf, hslice, List.length_append, List.length_singleton]
        omega
      have hstate₂ : p₂.advance.state = .host := by rw [← hp₂, ← hp₁]; exact hstate
      have hend := urlParserHost_of_isDelimiter alloc hs₂.inv.layout.advance.toBuffered
        (by rw [hat₂.c_eq, ← hp₂]; rw [← hspecial] at hrest; exact hrest) (by rw [hlen]; omega)
      have hturn : urlParserStep alloc p₂.advance = urlParserHost alloc p₂.advance := by
        simp only [urlParserStep, hstate₂]
      rw [← hturn] at hend
      obtain ⟨_, heof⟩ := hat₂.back (q := { p₂.advance with
        sliceStart := p₂.advance.buf.length
        result := { p₂.advance.result with
          host := ⟨p₂.advance.sliceStart, p₂.advance.bufLen⟩, hostNull := false }
        pos := p₂.advance.pos - 1
        state := .path }) (by simp) rfl rfl
      exact ⟨_, _, hs₂.step hok hend heof, rfl, hlen⟩

end Run

/-! ## The whole URL -/

/-- The parts in front of the at sign. -/
structure UserinfoParts (user : List UInt8) (password : Option (List UInt8)) : Prop where
  user_ne : user ≠ []
  user_chars : ∀ c ∈ user, 0x21 ≤ c ∧ c ≤ 0x7e ∧ c ∉ cstr "/?#\\@:"
  password_chars : ∀ text, password = some text →
    ∀ c ∈ text, 0x21 ≤ c ∧ c ≤ 0x7e ∧ c ∉ cstr "/?#\\@"

def userinfoUrl (user : List UInt8) (password : Option (List UInt8)) (host path : List UInt8) :
    List UInt8 :=
  cstr "http" ++ cstr "://" ++ (userinfoText user password ++ '@'.toUInt8 :: (host ++ path))

/-- The URL with user info is decomposed into its username and its password, both
encoded, and the host and the path of the same URL without user info. -/
def UserinfoParsed (alloc : Alloc) (user : List UInt8) (password : Option (List UInt8))
    (host path : List UInt8) : Prop :=
  ∃ err url err' url',
    urlParse alloc (userinfoUrl user password host path) = some ⟨err, false, some url⟩ ∧
    urlParse alloc (plainUrl (cstr "http") host path none none) =
      some ⟨err', false, some url'⟩ ∧
    url.username.text url.buf = percentEncodeAll .userinfo user ∧
    url.password.text url.buf = encodedPart .userinfo password ∧
    url.host.text url.buf = url'.host.text url'.buf ∧
    url.path.text url.buf = url'.path.text url'.buf

namespace UserinfoParts

variable {user host path : List UInt8} {password : Option (List UInt8)}

theorem colon_not_mem (h : UserinfoParts user password) : ':'.toUInt8 ∉ user := fun hmem =>
  (h.user_chars _ hmem).2.2 (by decide)

theorem text_char (h : UserinfoParts user password) {c : UInt8}
    (hc : c ∈ userinfoText user password) :
    0x21 ≤ c ∧ c ≠ '@'.toUInt8 ∧ isDelimiter true (some c) = false := by
  have hchar : 0x21 ≤ c ∧ c ∉ cstr "/?#\\@" := by
    rcases List.mem_append.mp hc with hc | hc
    · obtain ⟨hle, _, hnot⟩ := h.user_chars c hc
      refine ⟨hle, fun hmem => hnot ?_⟩
      have hsub : cstr "/?#\\@" ⊆ cstr "/?#\\@:" := by decide
      exact hsub hmem
    · cases password with
      | none => simp [optionalPart] at hc
      | some password =>
          rcases List.mem_cons.mp hc with rfl | hc
          · exact ⟨by decide, by decide⟩
          · obtain ⟨hle, _, hnot⟩ := h.password_chars _ rfl c hc
            exact ⟨hle, hnot⟩
  obtain ⟨hle, hnot⟩ := hchar
  simp only [cstr, List.mem_map, not_exists, not_and] at hnot
  refine ⟨hle, fun h => hnot '@' (by decide) h.symm, ?_⟩
  simp only [isDelimiter, Bool.true_and, Bool.or_eq_false_iff, decide_eq_false_iff_not]
  exact ⟨⟨⟨fun h => hnot '/' (by decide) h.symm, fun h => hnot '?' (by decide) h.symm⟩,
    fun h => hnot '#' (by decide) h.symm⟩, fun h => hnot '\\' (by decide) h.symm⟩

theorem ge_url (h : UserinfoParts user password)
    (hplain : PlainParts (cstr "http") host path none none) :
    ∀ c ∈ userinfoUrl user password host path, 0x21 ≤ c := by
  have hhttp : ∀ c ∈ cstr "http" ++ cstr "://", 0x21 ≤ c := by decide +kernel
  simp only [userinfoUrl, List.mem_append, List.mem_cons]
  rintro c (hc | hc | rfl | hc | hc)
  · exact hhttp c (List.mem_append.mpr hc)
  · exact (h.text_char hc).1
  · decide
  · exact (hplain.host_chars c hc).1
  · exact (hplain.path_chars c hc).1

theorem head_ne (h : UserinfoParts user password) (rest : List UInt8) :
    (userinfoText user password ++ rest).head? ≠ some '/'.toUInt8 ∧
      (userinfoText user password ++ rest).head? ≠ some '\\'.toUInt8 := by
  obtain ⟨c, text, rfl⟩ := List.exists_cons_of_ne_nil h.user_ne
  have hnot := (h.user_chars c (by simp)).2.2
  constructor <;>
  · simp only [userinfoText, List.cons_append, List.head?_cons, ne_eq, Option.some.injEq]
    rintro rfl
    exact hnot (by decide)

end UserinfoParts

section Whole

variable {alloc : Alloc} {user host path : List UInt8} {password : Option (List UInt8)}

/-- The parser at the end of an authority with user info. Both the encoded user info
and the host have been buffered since `slice_start`. -/
structure AtAuthEnd (p : UrlParser) (user : List UInt8) (password : Option (List UInt8))
    (host path : List UInt8) : Prop where
  at_rest : At p (cstr "http" ++ cstr "://" ++ (userinfoText user password ++
    '@'.toUInt8 :: host)) path
  state : p.state = .auth
  special : p.special = true
  len : p.bufLen = (percentEncodeAll .userinfo user).length +
    (encodedPart .userinfo password).length + host.length
  username : p.result.username.len = user.length
  password : p.result.password.len = (password.getD []).length

/-- A parse that is not fatal comes to the end of the authority. -/
theorem reaches_authEnd (hparts : UserinfoParts user password)
    (hplain : PlainParts (cstr "http") host path none none)
    (hok : NotFatal alloc (userinfoUrl user password host path)) :
    ∃ p err, UrlReaches alloc (userinfoUrl user password host path) (p, err) ∧
      AtAuthEnd p user password host path := by
  have hnormal := urlNormalize_of_forall (hparts.ge_url hplain)
  have hs₀ : UrlReaches alloc (userinfoUrl user password host path)
      (.initial (userinfoUrl user password host path), none) := by
    rcases urlParse_cases alloc (userinfoUrl user password host path) with
      ⟨_, hmemory⟩ | ⟨s, hs, _⟩
    · exact absurd hmemory (hok _)
    · have hstart : urlLoopStart (userinfoUrl user password host path) =
          (.initial (userinfoUrl user password host path), none) := by
        rw [urlLoopStart, hnormal]
      exact ⟨hs.copied, hs.buffered, hstart ▸ .refl⟩
  -- the scheme
  obtain ⟨hgoes₁, hat₁⟩ := goes_http alloc True False
    (by decide : (cstr "http").map toLower = cstr "http")
    (hparts.head_ne ('@'.toUInt8 :: (host ++ path))) hs₀.fits (.inl trivial)
  obtain ⟨err₁, hs₁⟩ := hs₀.goes hok hgoes₁.goes
  -- the user info
  obtain ⟨hgoes₂, hat₂⟩ := goes_auth_text False _ hat₁ rfl (fun c hc => (hparts.text_char hc).2)
    (.inl trivial : Room alloc True _)
  obtain ⟨err₂, hs₂⟩ := hs₁.goes hok hgoes₂.goes
  generalize hp₂ : UrlParser.pushed _ (fun c => [c]) (userinfoText user password) = p₂ at hs₂ hat₂
  have hbuf₂ : p₂.buf = cstr "http" ++ userinfoText user password := by
    simp [← hp₂, UrlParser.pushed, httpParser]
  have hslice₂ : p₂.sliceStart = 4 := by rw [← hp₂]; rfl
  have htext₂ : (Region.mk p₂.sliceStart p₂.bufLen).text p₂.buf = userinfoText user password := by
    refine text_middle (cstr "http") [] (by rw [hbuf₂, List.append_nil]) hslice₂ ?_
    simp [UrlParser.bufLen, hbuf₂, hslice₂, cstr]
  -- the at sign
  obtain ⟨p₃, err₃, hs₃, hat₃, hbehind⟩ := hs₂.at_sign hok hat₂ (by rw [← hp₂]; rfl)
    (by rw [← hp₂]; rfl) (by rw [← hp₂]; rfl) hparts.colon_not_mem htext₂
  have hspecial₃ : p₃.special = true := by rw [hbehind.special, ← hp₂]; rfl
  -- the host
  obtain ⟨hgoes₄, hat₄⟩ := goes_auth_text False host hat₃ hbehind.state (fun c hc => by
    rw [hspecial₃]
    exact ⟨(hplain.host_char hc).1, (hplain.host_char hc).2.2.2.2⟩)
    (.inl trivial : Room alloc True _)
  obtain ⟨err₄, hs₄⟩ := hs₃.goes hok hgoes₄.goes
  refine ⟨_, err₄, hs₄, by simpa using hat₄, hbehind.state, hspecial₃, ?_, ?_, ?_⟩
  · have hlen := hbehind.buf_length
    have hbuf : (p₃.pushed (fun c => [c]) host).buf = p₃.buf ++ host := by
      simp [UrlParser.pushed]
    have hslice : (p₃.pushed (fun c => [c]) host).sliceStart = p₂.buf.length := hbehind.sliceStart
    rw [UrlParser.bufLen, hbuf, hslice, List.length_append, hlen]
    omega
  · have hname := hbehind.username
    rw [← hp₂] at hname
    simpa [UrlParser.pushed, httpParser, UrlRegion.initial, Region.empty] using hname
  · have hpass := hbehind.password
    rw [← hp₂] at hpass
    simpa [UrlParser.pushed, httpParser, UrlRegion.initial, Region.empty] using hpass

/-- The end of the authority: everything since `slice_start` is dropped, and the parser
moves back by its length. -/
def UrlParser.afterAuth (p : UrlParser) : UrlParser :=
  { p with
    buf := p.buf.take p.sliceStart
    pos := p.pos - UInt64.ofNat (p.bufLen + 1)
    state := .host }

theorem AtAuthEnd.step {p : UrlParser} (h : AtAuthEnd p user password host path)
    (hplain : PlainParts (cstr "http") host path none none) (hlayout : Layout p) :
    urlParserStep alloc p.advance = some (none, p.advance.afterAuth) := by
  have hstate : p.advance.state = .auth := h.state
  have hspecial : p.advance.special = true := h.special
  have hturn : urlParserStep alloc p.advance = urlParserAuth alloc p.advance := by
    simp only [urlParserStep, hstate]
  have hdelim : isDelimiter p.advance.special p.advance.c = true := by
    have hrest := hplain.isDelimiter_rest
    simp only [optionalPart, List.append_nil] at hrest
    rw [h.at_rest.c_eq, hspecial]
    exact hrest
  have hlen : p.advance.bufLen ≠ 0 := by
    have hlen' : p.advance.bufLen = _ := h.len
    have hhost := List.length_pos_iff.mpr hplain.host_ne
    omega
  rw [hturn, urlParserAuth_of_isDelimiter alloc hlayout.advance.toBuffered hdelim (.inr hlen)]
  rfl

theorem AtAuthEnd.lens {p : UrlParser} {err err' : Option Error} {url : Url}
    (h : AtAuthEnd p user password host path)
    (hplain : PlainParts (cstr "http") host path none none)
    (hs : UrlReaches alloc (userinfoUrl user password host path) (p, err))
    (hparse : urlParse alloc (userinfoUrl user password host path) =
      some ⟨err', false, some url⟩) :
    url.username.len = user.length ∧ url.password.len = (password.getD []).length := by
  let Recorded : UrlParser → Prop := fun q => UrlParserState.auth.rank < q.state.rank ∧
    q.result.username.len = user.length ∧ q.result.password.len = (password.getD []).length
  have hkeep : ∀ q err r, Layout q → (q = p ∨ Recorded q) →
      urlParserStep alloc q.advance = some (err, r) → TurnSpec q.advance r →
      (r = p ∨ Recorded r) := by
    intro q _ r hlayout hq hstep hspec
    rcases hq with rfl | ⟨hrank, huser, hpassword⟩
    · rw [h.step hplain hlayout, Option.some.injEq, Prod.mk.injEq] at hstep
      rw [← hstep.2]
      exact .inr ⟨(by decide : UrlParserState.auth.rank < UrlParserState.host.rank), h.username,
        h.password⟩
    · refine .inr ⟨?_, ?_⟩
      · rcases hspec.moves with ⟨hstate, _⟩ | hlt
        · rw [hstate]
          exact hrank
        · exact hrank.trans hlt
      · rcases hspec.userinfo with ⟨huser', hpassword'⟩ | hat
        · rw [huser', hpassword']
          exact ⟨huser, hpassword⟩
        · have hstate : q.state = .auth := hat.1
          rw [hstate] at hrank
          exact absurd hrank (lt_irrefl _)
  obtain ⟨_, hfatal | ⟨q, hq, _, hdone⟩⟩ :=
    hs.urlParse_keep (I := fun q => q = p ∨ Recorded q) (.inl rfl) hkeep
  · simp [hfatal] at hparse
  · simp only [hdone, Option.some.injEq, UrlParseResult.mk.injEq, true_and] at hparse
    rw [← hparse.2]
    rcases hq with rfl | hq
    · exact ⟨h.username, h.password⟩
    · exact hq.2

theorem UrlReaches.host_len {slice : List UInt8} {p : UrlParser} {err err' : Option Error}
    {url : Url} (hs : UrlReaches alloc slice (p, err)) (hstate : p.state = .path)
    (hparse : urlParse alloc slice = some ⟨err', false, some url⟩) :
    (url.host.text url.buf).length = p.result.host.len := by
  have hkeep : ∀ q err r, Layout q → (12 ≤ q.state.rank ∧ q.result.host = p.result.host) →
      urlParserStep alloc q.advance = some (err, r) → TurnSpec q.advance r →
      12 ≤ r.state.rank ∧ r.result.host = p.result.host := by
    intro q _ r _ ⟨hrank, hhost⟩ _ hspec
    have hrank' : 12 ≤ q.advance.state.rank := hrank
    refine ⟨?_, ?_⟩
    · rcases hspec.moves with ⟨hstate, _⟩ | hlt
      · rw [hstate]
        exact hrank'
      · omega
    · rcases hspec.host_eq with heq | hlt
      · rw [heq]
        exact hhost
      · omega
  obtain ⟨_, hfatal | ⟨q, hq, hlayout, hdone⟩⟩ := hs.urlParse_keep
    (I := fun q => 12 ≤ q.state.rank ∧ q.result.host = p.result.host)
    ⟨by rw [hstate]; decide, rfl⟩ hkeep
  · simp [hfatal] at hparse
  · simp only [hdone, Option.some.injEq, UrlParseResult.mk.injEq, true_and] at hparse
    have hstop : q.result.host.stop ≤ q.buf.length := hlayout.host_le'
    rw [← hparse.2, ← hq.2]
    simp only [Region.text, Region.stop, List.length_take, List.length_drop] at hstop ⊢
    omega

theorem plain_host_text {err : Option Error} {url : Url}
    (hplain : PlainParts (cstr "http") host path none none)
    (hparse : urlParse alloc (plainUrl (cstr "http") host path none none) =
      some ⟨err, false, some url⟩) : url.host.text url.buf = host := by
  have hin : (plainUrl (cstr "http") host path none none).length < ptrdiffMax := by
    rcases urlParse_cases alloc (plainUrl (cstr "http") host path none none) with
      ⟨_, hmemory⟩ | ⟨s, hs, _⟩
    · simp [hmemory] at hparse
    · exact hs.fits
  have hends : Ends alloc True _ _ := ends_plain hplain hin (.inl trivial)
  rw [← show (urlNormalize (plainUrl (cstr "http") host path none none)).2 =
    plainUrl (cstr "http") host path none none by rw [urlNormalize_of_forall hplain.ge]] at hends
  obtain ⟨_, hdone | ⟨_, hfatal⟩⟩ := urlParse_of_ends (.inl trivial) hends
  · simp only [hdone, Option.some.injEq, UrlParseResult.mk.injEq, true_and] at hparse
    rw [← hparse.2]
    exact plainRegion_host_text
  · simp [hfatal] at hparse

/-- If nothing had to be escaped, the host state begins one byte behind the start of
the user info, or two if there is a colon, and takes the at sign for a part of the
host. -/
theorem AtAuthEnd.reaches_path {p : UrlParser} {err : Option Error}
    (h : AtAuthEnd p user password host path) (hparts : UserinfoParts user password)
    (hplain : PlainParts (cstr "http") host path none none)
    (hok : NotFatal alloc (userinfoUrl user password host path))
    (hs : UrlReaches alloc (userinfoUrl user password host path) (p, err))
    (hlen : p.bufLen = user.length + (password.getD []).length + host.length) :
    ∃ q err', UrlReaches alloc (userinfoUrl user password host path) (q, err') ∧
      q.state = .path ∧ host.length < q.result.host.len := by
  obtain ⟨k, hk, hdrop⟩ : ∃ k, k ≤ (userinfoText user password).length ∧
      p.bufLen = ((userinfoText user password).drop k ++ '@'.toUInt8 :: host).length := by
    have huser := List.length_pos_iff.mpr hparts.user_ne
    cases password with
    | none =>
        refine ⟨1, ?_, ?_⟩ <;>
          simp only [userinfoText, optionalPart, List.append_nil, List.length_append,
            List.length_drop, List.length_cons, hlen, Option.getD_none, List.length_nil] <;>
          omega
    | some password =>
        refine ⟨2, ?_, ?_⟩ <;>
          simp only [userinfoText, optionalPart, List.length_append, List.length_drop,
            List.length_cons, hlen, Option.getD_some] <;>
          omega
  have hat : At p (cstr "http" ++ cstr "://" ++ (userinfoText user password).take k ++
      ((userinfoText user password).drop k ++ '@'.toUInt8 :: host)) path := by
    rw [List.append_assoc, ← List.append_assoc (List.take k _), List.take_append_drop]
    exact h.at_rest
  obtain ⟨hrewound, heof⟩ := hat.rewind (q := p.advance.afterAuth) (by simp [cstr]) rfl
    (by rw [← hdrop]; rfl)
  have hs' := hs.step hok (h.step hplain hs.inv.layout) heof
  have hspecial : p.advance.afterAuth.special = true := h.special
  rw [List.append_assoc (List.drop k _), List.cons_append] at hrewound
  obtain ⟨q, err', hq, hstate, hqlen⟩ := hs'.host_run hok (by simp [cstr]) hrewound rfl
    (fun c hc => by rw [hspecial]; exact (hparts.text_char (List.mem_of_mem_drop hc)).2.2)
    (fun c hc => by rw [hspecial]; exact (hplain.host_char hc).2)
    (by rw [hspecial]; simpa [optionalPart] using hplain.isDelimiter_rest)
  exact ⟨q, err', hq, hstate, by rw [hqlen]; omega⟩

/-- No `http` URL with user info is decomposed into its parts. -/
theorem not_userinfoParsed (hparts : UserinfoParts user password)
    (hplain : PlainParts (cstr "http") host path none none) :
    ¬UserinfoParsed alloc user password host path := by
  rintro ⟨err, url, err', url', hparse, hparse', huser, hpassword, hhost, _⟩
  have hok : NotFatal alloc (userinfoUrl user password host path) := by
    intro err hfatal
    simp [hfatal] at hparse
  obtain ⟨p, err₁, hs, hend⟩ := reaches_authEnd hparts hplain hok
  obtain ⟨husername, hpasslen⟩ := hend.lens hplain hs hparse
  have htext : ∀ (r : Region) (buf : List UInt8), (r.text buf).length ≤ r.len := by
    intro r buf
    simp only [Region.text, List.length_take]
    omega
  -- the recorded lengths leave no room for an escape
  have huserlen : (percentEncodeAll .userinfo user).length = user.length := by
    have hle := htext url.username url.buf
    rw [huser, husername] at hle
    exact le_antisymm hle (length_le_length_percentEncodeAll _ _)
  have hpasswordlen : (encodedPart .userinfo password).length = (password.getD []).length := by
    have hle := htext url.password url.buf
    rw [hpassword, hpasslen] at hle
    refine le_antisymm hle ?_
    cases password with
    | none => simp
    | some password => exact length_le_length_percentEncodeAll _ _
  obtain ⟨q, err₂, hq, hstate, hlt⟩ := hend.reaches_path hparts hplain hok hs
    (by rw [hend.len, huserlen, hpasswordlen])
  have hhostlen := hq.host_len hstate hparse
  rw [hhost, plain_host_text hplain hparse'] at hhostlen
  omega

end Whole

theorem not_userinfoParsed_plain_user :
    UserinfoParts (cstr "u") none ∧ PlainParts (cstr "http") (cstr "h") (cstr "/") none none ∧
      ¬UserinfoParsed allocAll (cstr "u") none (cstr "h") (cstr "/") := by
  have hparts : UserinfoParts (cstr "u") none := ⟨by decide, by decide +kernel, by simp⟩
  have hplain : PlainParts (cstr "http") (cstr "h") (cstr "/") none none :=
    ⟨by decide, by decide +kernel, by decide +kernel, by decide +kernel, by decide +kernel,
      by simp, by simp⟩
  exact ⟨hparts, hplain, not_userinfoParsed hparts hplain⟩

/-- The host of this URL becomes `@h`. -/
theorem userinfoParsed_fails_on_plain_user :
    ¬UserinfoParsed allocAll (cstr "u") none (cstr "h") (cstr "/") := by
  rintro ⟨err, url, err', url', hparse, hparse', _, _, hhost, _⟩
  have hvalue : (urlParse allocAll (cstr "http://u@h/")).map (fun r => r.url.map fun url =>
      url.host.text url.buf) = some (some (cstr "@h")) := by
    decide +kernel
  have hvalue' : (urlParse allocAll (cstr "http://h/")).map (fun r => r.url.map fun url =>
      url.host.text url.buf) = some (some (cstr "h")) := by
    decide +kernel
  have hurl : userinfoUrl (cstr "u") none (cstr "h") (cstr "/") = cstr "http://u@h/" := by decide
  have hurl' : plainUrl (cstr "http") (cstr "h") (cstr "/") none none = cstr "http://h/" := by
    decide
  rw [← hurl, hparse, Option.map_some, Option.map_some, Option.some.injEq,
    Option.some.injEq] at hvalue
  rw [← hurl', hparse', Option.map_some, Option.map_some, Option.some.injEq,
    Option.some.injEq] at hvalue'
  rw [hhost, hvalue'] at hvalue
  exact absurd hvalue (by decide)

end PosixThreads
