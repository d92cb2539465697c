import PosixThreads.Waxy.Url.Bounds

/-!
# The bytes of a URL

The input is cleaned of line breaks and tabs before it is parsed, so none of them comes into
the buffer. The path, the query and the fragment are percent-encoded byte by byte with sets
that have all controls, the space and all bytes that are not ASCII, so what is recorded of them
is printable. `TextInv` says this for every state of the loop, together with the text that has
been read but not recorded.
-/

namespace PosixThreads

/-- The bytes that `url_remove_tab_nl` removes. -/
def isBreak (c : UInt8) : Bool := c = '\r'.toUInt8 || c = '\n'.toUInt8 || c = '\t'.toUInt8

def isPrintable (c : UInt8) : Bool := 0x21 ≤ c && c ≤ 0x7e

theorem isBreak_of_isPrintable {c : UInt8} (h : isPrintable c = true) : isBreak c = false := by
  by_contra hbreak
  simp only [isBreak, Bool.or_eq_true, decide_eq_true_eq, Bool.not_eq_false] at hbreak
  rcases hbreak with (rfl | rfl) | rfl <;> exact absurd h (by decide)

/-! ## Normalisation -/

theorem not_isBreak_removeTabNl (i : ℕ) (input : List UInt8) (seen : Bool)
    (h : ∀ c ∈ input.drop i, isBreak c = false) :
    ∀ c ∈ (removeTabNl i input seen).1, isBreak c = false := by
  induction i generalizing input seen with
  | zero => exact h
  | succ i ih =>
      unfold removeTabNl
      split
      · rename_i c hc
        obtain ⟨hlt, hget⟩ := List.getElem?_eq_some_iff.mp hc
        split
        · refine ih _ _ ?_
          rw [List.eraseIdx_eq_take_drop_succ, List.drop_left' (by simp; omega)]
          exact h
        · rename_i hbreak
          refine ih _ _ fun d hd => ?_
          rw [List.drop_eq_getElem_cons hlt, hget] at hd
          rcases List.mem_cons.mp hd with rfl | hd
          · simpa [isBreak] using hbreak
          · exact h d hd
      · rename_i hc
        refine ih _ _ fun d hd => ?_
        rw [List.drop_of_length_le (List.getElem?_eq_none_iff.mp hc)] at hd
        simp at hd

theorem not_isBreak_urlNormalize (slice : List UInt8) :
    ∀ c ∈ (urlNormalize slice).2, isBreak c = false := by
  simp only [urlNormalize, urlRemoveTabNl]
  exact not_isBreak_removeTabNl _ _ _ (by simp)

/-! ## Percent encoding -/

theorem isPrintable_hexDigit : ∀ n < 16, isPrintable (hexDigit n) = true := by decide

theorem eq_space_or_isPrintable {c : UInt8} (h : percencC0 c = false) :
    c = ' '.toUInt8 ∨ isPrintable c = true := by
  have hall : ∀ n < 256, percencC0 (UInt8.ofNat n) = false →
      UInt8.ofNat n = ' '.toUInt8 ∨ isPrintable (UInt8.ofNat n) = true := by
    decide +kernel
  have hc := hall c.toNat c.toNat_lt
  rw [UInt8.ofNat_toNat] at hc
  exact hc h

theorem percencContains_of_percencC0 {set : PercencSet} {c : UInt8} (h : percencC0 c = true) :
    percencContains c set = true := by
  cases set <;> simp [percencContains, percencFragment, percencQuery, percencSpecQuery,
    percencPath, percencUserinfo, percencComponent, h]

theorem mem_percentEncode {set : PercencSet} {c b : UInt8} (hb : b ∈ percentEncode set c) :
    (b = ' '.toUInt8 ∧ percencContains ' '.toUInt8 set = false) ∨ isPrintable b = true := by
  unfold percentEncode at hb
  split at hb
  · refine Or.inr ?_
    have hlt := c.toNat_lt
    simp only [List.mem_cons, List.not_mem_nil, or_false] at hb
    rcases hb with rfl | rfl | rfl
    · decide
    · exact isPrintable_hexDigit _ (by omega)
    · exact isPrintable_hexDigit _ (by omega)
  · rename_i hset
    rw [List.mem_singleton.mp hb]
    have hc0 : percencC0 c = false := by
      by_contra hc0
      exact hset (percencContains_of_percencC0 (by simpa using hc0))
    rcases eq_space_or_isPrintable hc0 with hc | hc
    · exact Or.inl ⟨hc, by simpa [hc] using hset⟩
    · exact Or.inr hc

theorem not_isBreak_percentEncode {set : PercencSet} {c b : UInt8}
    (hb : b ∈ percentEncode set c) : isBreak b = false := by
  rcases mem_percentEncode hb with ⟨rfl, _⟩ | hprint
  · decide
  · exact isBreak_of_isPrintable hprint

theorem isPrintable_percentEncode {set : PercencSet} {c b : UInt8}
    (hset : percencContains ' '.toUInt8 set = true) (hb : b ∈ percentEncode set c) :
    isPrintable b = true := by
  rcases mem_percentEncode hb with ⟨_, hspace⟩ | hprint
  · rw [hset] at hspace
    simp at hspace
  · exact hprint

/-! ## The invariant -/

/-- The states that push nothing or encode what they push: those after the authority, and the
first ones of a `file:` URL. -/
def UrlParserState.encodes : UrlParserState → Bool
  | .file => true
  | .fileSlash => true
  | .pathStart => true
  | .path => true
  | .query => true
  | .fragment => true
  | _ => false

/-- Between two turns nothing in the buffer is a break, and the path, the query and the fragment
are printable, the part that has not been recorded included. All schemes are treated as special
ones, so that there is no opaque path. -/
structure TextInv (p : UrlParser) : Prop where
  input : ∀ c ∈ p.input, isBreak c = false
  buf : ∀ c ∈ p.buf, isBreak c = false
  path : ∀ c ∈ p.result.path.text p.buf, isPrintable c = true
  query : ∀ c ∈ p.result.query.text p.buf, isPrintable c = true
  fragment : ∀ c ∈ p.result.fragment.text p.buf, isPrintable c = true
  tail : p.state.encodes = true → ∀ c ∈ p.buf.drop p.sliceStart, isPrintable c = true
  special : p.state ≠ .opaquePath ∧ p.state ≠ .pathOrAuth

section Invariant

variable {alloc : Alloc} {p q : UrlParser} {c : UInt8}

theorem mem_input_of_c (hc : p.c = some c) : c ∈ p.input := by
  unfold UrlParser.c at hc
  split at hc
  · simp at hc
  · exact List.mem_of_getElem? hc

theorem Region.text_congr_of_eq {r r' : Region} {buf buf' : List UInt8} {n : ℕ}
    (htext : buf'.take n = buf.take n) (hn : r.stop ≤ n)
    (hr : r' = r ∨ ∀ b ∈ r'.text buf', isPrintable b = true)
    (h : ∀ b ∈ r.text buf, isPrintable b = true) : ∀ b ∈ r'.text buf', isPrintable b = true := by
  rcases hr with rfl | hr
  · rw [Region.text_congr htext hn]
    exact h
  · exact hr

/-- A turn that leaves the recorded text alone. A component is kept, or it is printable. -/
theorem TextInv.move (h : TextInv p) (hlayout : Layout p) (hinput : q.input = p.input)
    (hbuf : ∀ b ∈ q.buf, isBreak b = false)
    (htext : q.buf.take p.sliceStart = p.buf.take p.sliceStart)
    (hpath : q.result.path = p.result.path ∨
      ∀ b ∈ q.result.path.text q.buf, isPrintable b = true)
    (hquery : q.result.query = p.result.query ∨
      ∀ b ∈ q.result.query.text q.buf, isPrintable b = true)
    (hfragment : q.result.fragment = p.result.fragment ∨
      ∀ b ∈ q.result.fragment.text q.buf, isPrintable b = true)
    (htail : q.state.encodes = true → ∀ b ∈ q.buf.drop q.sliceStart, isPrintable b = true)
    (hspecial : q.state ≠ .opaquePath ∧ q.state ≠ .pathOrAuth) : TextInv q where
  input := by rw [hinput]; exact h.input
  buf := hbuf
  path := Region.text_congr_of_eq htext hlayout.path_le hpath h.path
  query := Region.text_congr_of_eq htext hlayout.query_le hquery h.query
  fragment := Region.text_congr_of_eq htext hlayout.fragment_le hfragment h.fragment
  tail := htail
  special := hspecial

theorem TextInv.goto (h : TextInv p) (hlayout : Layout p) (hinput : q.input = p.input)
    (hbuf : q.buf = p.buf) (hslice : q.sliceStart = p.sliceStart)
    (hpath : q.result.path = p.result.path) (hquery : q.result.query = p.result.query)
    (hfragment : q.result.fragment = p.result.fragment)
    (htail : q.state.encodes = true →
      p.state.encodes = true ∨ ∀ b ∈ p.buf.drop p.sliceStart, isPrintable b = true)
    (hspecial : q.state ≠ .opaquePath ∧ q.state ≠ .pathOrAuth) : TextInv q := by
  refine h.move hlayout hinput (hbuf ▸ h.buf) (by rw [hbuf]) (Or.inl hpath) (Or.inl hquery)
    (Or.inl hfragment) (fun hq => ?_) hspecial
  rw [hbuf, hslice]
  exact (htail hq).elim (fun hp => h.tail hp) id

theorem TextInv.fail (h : TextInv p) (hlayout : Layout p) : TextInv { p with state := .fail } :=
  h.goto hlayout rfl rfl rfl rfl rfl rfl (by simp [UrlParserState.encodes]) (by simp)

theorem TextInv.close (h : TextInv p) (hlayout : Layout p) (hinput : q.input = p.input)
    (hbuf : q.buf = p.buf) (hslice : q.sliceStart = p.buf.length)
    (hpath : q.result.path = p.result.path ∨
      ∀ b ∈ q.result.path.text p.buf, isPrintable b = true)
    (hquery : q.result.query = p.result.query ∨
      ∀ b ∈ q.result.query.text p.buf, isPrintable b = true)
    (hfragment : q.result.fragment = p.result.fragment ∨
      ∀ b ∈ q.result.fragment.text p.buf, isPrintable b = true)
    (hspecial : q.state ≠ .opaquePath ∧ q.state ≠ .pathOrAuth) : TextInv q := by
  refine h.move hlayout hinput (hbuf ▸ h.buf) (by rw [hbuf]) (by rw [hbuf]; exact hpath)
    (by rw [hbuf]; exact hquery) (by rw [hbuf]; exact hfragment) (fun _ => ?_) hspecial
  rw [hbuf, hslice, List.drop_length]
  simp

theorem TextInv.append (h : TextInv p) (hlayout : Layout p) {bytes : List UInt8}
    (hinput : q.input = p.input) (hbuf : q.buf = p.buf ++ bytes)
    (hslice : q.sliceStart = p.sliceStart) (hresult : q.result = p.result)
    (hbreak : ∀ b ∈ bytes, isBreak b = false)
    (hstate : q.state.encodes = true →
      p.state.encodes = true ∧ ∀ b ∈ bytes, isPrintable b = true)
    (hspecial : q.state ≠ .opaquePath ∧ q.state ≠ .pathOrAuth) : TextInv q := by
  refine h.move hlayout hinput ?_ (by rw [hbuf]; exact hlayout.take_append)
    (Or.inl (by rw [hresult])) (Or.inl (by rw [hresult])) (Or.inl (by rw [hresult]))
    (fun hq => ?_) hspecial
  · rw [hbuf]
    exact List.forall_mem_append.mpr ⟨h.buf, hbreak⟩
  · rw [hbuf, hslice, List.drop_append_of_le_length hlayout.sliceStart_le]
    exact List.forall_mem_append.mpr ⟨h.tail (hstate hq).1, (hstate hq).2⟩

theorem TextInv.holds_append (h : TextInv p) (hlayout : Layout p) {bytes : List UInt8}
    (hbreak : ∀ b ∈ bytes, isBreak b = false)
    (hprint : p.state.encodes = true → ∀ b ∈ bytes, isPrintable b = true)
    (err err' : Option Error) :
    UrlTurn.Holds (appendOrFail alloc p bytes err fun p => some (err', p)) fun _ => TextInv :=
  holds_appendOrFail
    (fun _ => UrlTurn.holds_some (h.append hlayout rfl rfl rfl rfl hbreak
      (fun hp => ⟨hp, hprint hp⟩) h.special))
    (fun _ => h.goto hlayout rfl rfl rfl rfl rfl rfl (by simp [UrlParserState.encodes]) (by simp))

end Invariant

/-! ## The states -/

section States

variable {alloc : Alloc} {p : UrlParser}

theorem not_isBreak_toLower {c : UInt8} (h : isBreak c = false) : isBreak (toLower c) = false := by
  have hall : ∀ n < 256, isBreak (UInt8.ofNat n) = false →
      isBreak (toLower (UInt8.ofNat n)) = false := by
    decide +kernel
  have hc := hall c.toNat c.toNat_lt
  rw [UInt8.ofNat_toNat] at hc
  exact hc h

theorem textInv_schemeStart (h : TextInv p) (hlayout : Layout p) :
    UrlTurn.Holds (urlParserSchemeStart alloc p) fun _ => TextInv := by
  unfold urlParserSchemeStart
  split
  · rename_i c hc
    split
    · refine holds_appendOrFail (fun _ => UrlTurn.holds_some ?_) fun _ => ?_
      · refine h.append hlayout rfl rfl rfl rfl ?_ (by simp [UrlParserState.encodes]) (by simp)
        simpa using not_isBreak_toLower (h.input c (mem_input_of_c hc))
      · exact h.goto hlayout rfl rfl rfl rfl rfl rfl (by simp [UrlParserState.encodes]) (by simp)
    · exact UrlTurn.holds_some
        (h.goto hlayout rfl rfl rfl rfl rfl rfl (by simp [UrlParserState.encodes]) (by simp))
  · exact UrlTurn.holds_some
      (h.goto hlayout rfl rfl rfl rfl rfl rfl (by simp [UrlParserState.encodes]) (by simp))

/-- No scheme has the number 0, so `special` is always set. -/
theorem urlParserIsSpecial_ne_zero (scheme : List UInt8) : urlParserIsSpecial scheme ≠ 0 := by
  unfold urlParserIsSpecial
  split_ifs <;> decide

theorem textInv_schemeEnd (h : TextInv p) (hlayout : Layout p) :
    UrlTurn.Holds (urlParserSchemeEnd p) fun _ => TextInv := by
  have hregion : regionToSlice p.buf ⟨p.sliceStart, p.bufLen⟩ =
      some ((Region.mk p.sliceStart p.bufLen).text p.buf) := by
    simp [regionToSlice, hlayout.bufLen_le]
  simp only [urlParserSchemeEnd, hlayout.slice_eq, hlayout.sliceToRegion_eq, hregion,
    Option.bind_eq_bind, Option.bind_some, urlParserIsSpecial_ne_zero, ne_eq, not_false_eq_true,
    decide_true, if_true]
  split
  · exact UrlTurn.holds_some
      (h.close hlayout rfl rfl rfl (Or.inl rfl) (Or.inl rfl) (Or.inl rfl) (by simp))
  · exact UrlTurn.holds_some
      (h.close hlayout rfl rfl rfl (Or.inl rfl) (Or.inl rfl) (Or.inl rfl) (by simp))

theorem textInv_scheme (h : TextInv p) (hlayout : Layout p) (hstate : p.state = .scheme) :
    UrlTurn.Holds (urlParserScheme alloc p) fun _ => TextInv := by
  obtain ⟨hslice, hresult⟩ := hlayout.early (by simp [hstate, UrlParserState.rank])
  have hclear : TextInv { p with buf := [], state := .noScheme, pos := 0 } := by
    refine h.move hlayout rfl (by simp) (by simp [hslice]) (Or.inl rfl) (Or.inl rfl) (Or.inl rfl)
      (by simp [UrlParserState.encodes]) (by simp)
  unfold urlParserScheme
  split
  · rename_i c hc
    split
    · refine h.holds_append hlayout ?_ (by simp [hstate, UrlParserState.encodes]) _ _
      simpa using not_isBreak_toLower (h.input c (mem_input_of_c hc))
    · split
      · exact textInv_schemeEnd h hlayout
      · exact UrlTurn.holds_some hclear
  · exact UrlTurn.holds_some hclear

theorem textInv_specAuthSlash (h : TextInv p) (hlayout : Layout p) :
    UrlTurn.Holds (urlParserSpecAuthSlash p) fun _ => TextInv := by
  unfold urlParserSpecAuthSlash
  split <;> exact UrlTurn.holds_some
    (h.goto hlayout rfl rfl rfl rfl rfl rfl (by simp [UrlParserState.encodes]) (by simp))

theorem textInv_specAuthIgnoreSlash (h : TextInv p) (hlayout : Layout p) :
    UrlTurn.Holds (urlParserSpecAuthIgnoreSlash p) fun _ => TextInv := by
  unfold urlParserSpecAuthIgnoreSlash
  split
  · exact UrlTurn.holds_some
      (h.goto hlayout rfl rfl rfl rfl rfl rfl (by simp [UrlParserState.encodes]) (by simp))
  · exact UrlTurn.holds_some h

theorem not_isBreak_encodeUserinfo (alloc : Alloc) (rest : List UInt8) (p : UrlParser) :
    ∃ bytes, (encodeUserinfo alloc rest p).2.buf = p.buf ++ bytes ∧
      ∀ b ∈ bytes, isBreak b = false := by
  induction rest generalizing p with
  | nil => exact ⟨[], by simp [encodeUserinfo], by simp⟩
  | cons c rest ih =>
      rw [encodeUserinfo]
      split
      · exact ih _
      · rcases UrlParser.append_cases alloc p (percentEncode .userinfo c) with
          ⟨_, happend⟩ | happend
        · simp only [happend]
          obtain ⟨user, password, hcount, _⟩ := countUserinfo_eq { p with
            buf := p.buf ++ percentEncode .userinfo c, allocs := p.allocs + 1 }
          rw [hcount]
          obtain ⟨bytes, hbuf, hbytes⟩ := ih { p with
            buf := p.buf ++ percentEncode .userinfo c
            allocs := p.allocs + 1
            result := { p.result with username := user, password := password } }
          refine ⟨percentEncode .userinfo c ++ bytes, by rw [hbuf, List.append_assoc], ?_⟩
          exact List.forall_mem_append.mpr ⟨fun b => not_isBreak_percentEncode, hbytes⟩
        · simp only [happend]
          exact ⟨[], by simp, by simp⟩

theorem textInv_authAt (h : TextInv p) (hlayout : Layout p) (hstate : p.state = .auth)
    (err : Option Error) : UrlTurn.Holds (urlParserAuthAt alloc err p) fun _ => TextInv := by
  rw [hlayout.urlParserAuthAt_eq]
  obtain ⟨encodeErr, bytes, seen, user, password, allocs, heq, _, _, _⟩ :=
    encodeUserinfo_spec alloc ((Region.mk p.sliceStart p.bufLen).text p.buf)
      p.closeUserinfo hlayout.buf_lt
  have hbytes : ∀ b ∈ bytes, isBreak b = false := by
    obtain ⟨bytes', hbuf, hbytes⟩ := not_isBreak_encodeUserinfo alloc
      ((Region.mk p.sliceStart p.bufLen).text p.buf) p.closeUserinfo
    rw [heq] at hbuf
    rw [List.append_cancel_left hbuf]
    exact hbytes
  have hinv : ∀ s : UrlParserState, s = .auth ∨ s = .fail → TextInv { p with
      atSignSeen := true
      sliceStart := p.buf.length
      buf := p.buf ++ bytes
      passwordTokenSeen := seen
      allocs := allocs
      state := s
      result := { p.result with username := user, password := password } } := by
    intro s hs
    refine h.move hlayout rfl (List.forall_mem_append.mpr ⟨h.buf, hbytes⟩) hlayout.take_append
      (Or.inl rfl) (Or.inl rfl) (Or.inl rfl) ?_ ?_
    · rcases hs with rfl | rfl <;> simp [UrlParserState.encodes]
    · rcases hs with rfl | rfl <;> simp
  rw [heq]
  cases encodeErr with
  | none => exact UrlTurn.holds_some (hinv p.state (Or.inl hstate))
  | some e =>
      simp only [failWith]
      cases err <;> exact UrlTurn.holds_some (hinv .fail (Or.inr rfl))

theorem textInv_authEnd (h : TextInv p) (hlayout : Layout p) :
    UrlTurn.Holds (urlParserAuthEnd p) fun _ => TextInv := by
  unfold urlParserAuthEnd
  split
  · exact UrlTurn.holds_some (h.fail hlayout)
  · simp only [hlayout.slice_eq, Option.bind_eq_bind, Option.bind_some]
    refine UrlTurn.holds_some (h.move hlayout rfl ?_ ?_ (Or.inl rfl) (Or.inl rfl) (Or.inl rfl)
      (by simp [UrlParserState.encodes]) (by simp))
    · exact fun b hb => h.buf b (List.mem_of_mem_take hb)
    · have hle := hlayout.sliceStart_le
      rw [List.take_take]
      congr 1
      simp only [UrlParser.bufLen]
      omega

theorem textInv_auth (h : TextInv p) (hlayout : Layout p) (hstate : p.state = .auth) :
    UrlTurn.Holds (urlParserAuth alloc p) fun _ => TextInv := by
  unfold urlParserAuth
  split
  · dsimp only
    split
    · refine holds_appendOrFail (fun hfit => ?_) fun _ => ?_
      · have hmove : Layout { p with buf := p.buf ++ cstr "%40", allocs := p.allocs + 1 } :=
          hlayout.move hlayout.sliceStart_le_append (by simpa using hfit) rfl rfl rfl
            hlayout.take_append id le_rfl
        have happend : TextInv { p with buf := p.buf ++ cstr "%40", allocs := p.allocs + 1 } :=
          h.append hlayout rfl rfl rfl rfl (by decide +kernel)
            (by simp [hstate, UrlParserState.encodes]) h.special
        exact textInv_authAt happend hmove hstate _
      · exact h.goto hlayout rfl rfl rfl rfl rfl rfl (by simp [UrlParserState.encodes]) (by simp)
    · exact textInv_authAt h hlayout hstate _
  · split
    · exact textInv_authEnd h hlayout
    · split
      · rename_i c hc
        refine h.holds_append hlayout ?_ (by simp [hstate, UrlParserState.encodes]) _ _
        simpa using h.input c (mem_input_of_c hc)
      · rename_i hdelim _ hc
        simp [hc, isDelimiter] at hdelim

theorem textInv_host (h : TextInv p) (hlayout : Layout p) (hstate : p.state = .host) :
    UrlTurn.Holds (urlParserHost alloc p) fun _ => TextInv := by
  have hpos : Layout { p with pos := p.pos - 1 } :=
    hlayout.move hlayout.sliceStart_le hlayout.buf_lt rfl rfl rfl rfl id le_rfl
  unfold urlParserHost
  split
  · split
    · exact UrlTurn.holds_some (h.fail hlayout)
    · simp only [hlayout.takeHost_eq, Option.bind_eq_bind, Option.bind_some]
      exact UrlTurn.holds_some
        (h.close hlayout rfl rfl rfl (Or.inl rfl) (Or.inl rfl) (Or.inl rfl) (by simp))
  · split
    · dsimp only
      split
      · exact UrlTurn.holds_some
          (h.goto hlayout rfl rfl rfl rfl rfl rfl (by simp [UrlParserState.encodes]) (by simp))
      · simp only [hpos.takeHost_eq, Option.bind_eq_bind, Option.bind_some]
        exact UrlTurn.holds_some
          (h.close hlayout rfl rfl rfl (Or.inl rfl) (Or.inl rfl) (Or.inl rfl) (by simp))
    · split
      · rename_i c hc
        dsimp only
        refine holds_appendOrFail (fun _ => UrlTurn.holds_some ?_) fun _ => ?_
        · refine h.append hlayout rfl rfl rfl rfl ?_ (by simp [hstate, UrlParserState.encodes])
            h.special
          simpa using h.input c (mem_input_of_c hc)
        · exact h.goto hlayout rfl rfl rfl rfl rfl rfl (by simp [UrlParserState.encodes])
            (by simp)
      · rename_i hdelim _ hc
        simp [hc, isDelimiter] at hdelim

theorem textInv_portEnd (h : TextInv p) (hlayout : Layout p) :
    UrlTurn.Holds (urlParserPortEnd p) fun _ => TextInv := by
  unfold urlParserPortEnd
  split
  · simp only [urlParserPortValue, hlayout.slice_eq, Option.bind_eq_bind, Option.bind_some]
    split <;> exact UrlTurn.holds_some
      (h.close hlayout rfl rfl rfl (Or.inl rfl) (Or.inl rfl) (Or.inl rfl) (by simp))
  · rename_i hlen
    have hclosed : p.sliceStart = p.buf.length := by
      have hle := hlayout.sliceStart_le
      simp only [UrlParser.bufLen] at hlen
      omega
    exact UrlTurn.holds_some
      (h.close hlayout rfl rfl hclosed (Or.inl rfl) (Or.inl rfl) (Or.inl rfl) (by simp))

theorem textInv_port (h : TextInv p) (hlayout : Layout p) (hstate : p.state = .port) :
    UrlTurn.Holds (urlParserPort alloc p) fun _ => TextInv := by
  unfold urlParserPort
  split
  · rename_i c hc
    split
    · refine h.holds_append hlayout ?_ (by simp [hstate, UrlParserState.encodes]) _ _
      simpa using h.input c (mem_input_of_c hc)
    · split
      · exact textInv_portEnd h hlayout
      · exact UrlTurn.holds_some (h.fail hlayout)
  · exact textInv_portEnd h hlayout

theorem textInv_file (h : TextInv p) (hlayout : Layout p) (hstate : p.state = .file) :
    UrlTurn.Holds (urlParserFile alloc p) fun _ => TextInv := by
  have hencodes : p.state.encodes = true := by rw [hstate]; rfl
  simp only [urlParserFile, hlayout.scheme_slice_eq, hlayout.file_scheme hstate,
    Option.bind_eq_bind, Option.bind_some, ne_eq, not_true_eq_false, if_false]
  unfold urlParserFileNext failBackslash
  dsimp only
  split
  · exact UrlTurn.holds_some
      (h.goto hlayout rfl rfl rfl rfl rfl rfl (fun _ => Or.inl hencodes) (by simp))
  · split <;> exact UrlTurn.holds_some
      (h.goto hlayout rfl rfl rfl rfl rfl rfl (fun _ => Or.inl hencodes) (by simp))

theorem textInv_fileSlash (h : TextInv p) (hlayout : Layout p) (hstate : p.state = .fileSlash) :
    UrlTurn.Holds (urlParserFileSlash p) fun _ => TextInv := by
  have hencodes : p.state.encodes = true := by rw [hstate]; rfl
  unfold urlParserFileSlash failBackslash
  split
  · exact UrlTurn.holds_some (h.fail hlayout)
  · split <;> exact UrlTurn.holds_some
      (h.goto hlayout rfl rfl rfl rfl rfl rfl (fun _ => Or.inl hencodes) (by simp))

/-- A drive letter is printable, so the path may begin with the text of the host. -/
theorem isPrintable_of_isWindowsDriveLetter {text : List UInt8}
    (h : isWindowsDriveLetter text = true) : ∀ b ∈ text, isPrintable b = true := by
  unfold isWindowsDriveLetter at h
  split at h
  · rename_i c d
    simp only [Bool.and_eq_true, Bool.or_eq_true, beq_iff_eq, isAsciiAlpha, isAsciiLowerAlpha_iff,
      isAsciiUpperAlpha_iff] at h
    obtain ⟨hc, hd⟩ := h
    have hprint : isPrintable c = true := by
      simp only [isPrintable, Bool.and_eq_true, decide_eq_true_eq, UInt8.le_iff_toNat_le]
      have h1 : (0x21 : UInt8).toNat = 33 := rfl
      have h2 : (0x7e : UInt8).toNat = 126 := rfl
      omega
    have hprint' : isPrintable d = true := by
      rcases hd with rfl | rfl <;> decide
    simp [hprint, hprint']
  · simp at h

theorem text_slice (p : UrlParser) :
    (Region.mk p.sliceStart p.bufLen).text p.buf = p.buf.drop p.sliceStart := by
  simp [Region.text, UrlParser.bufLen, List.take_of_length_le]

theorem textInv_fileHost (h : TextInv p) (hlayout : Layout p) (hstate : p.state = .fileHost) :
    UrlTurn.Holds (urlParserFileHost alloc p) fun _ => TextInv := by
  have hpos : Layout { p with pos := p.pos - 1 } :=
    hlayout.move hlayout.sliceStart_le hlayout.buf_lt rfl rfl rfl rfl id le_rfl
  unfold urlParserFileHost
  split
  · simp only [hpos.bufRegion_eq, Option.bind_eq_bind, Option.bind_some]
    split
    · rename_i hletter
      have htail := isPrintable_of_isWindowsDriveLetter hletter
      rw [text_slice { p with pos := p.pos - 1 }] at htail
      exact UrlTurn.holds_some
        (h.goto hlayout rfl rfl rfl rfl rfl rfl (fun _ => Or.inr htail) (by simp))
    · split
      · rename_i hlen
        have hclosed : p.sliceStart = p.buf.length := by
          have hle := hlayout.sliceStart_le
          simp only [UrlParser.bufLen] at hlen
          omega
        exact UrlTurn.holds_some
          (h.close hlayout rfl rfl hclosed (Or.inl rfl) (Or.inl rfl) (Or.inl rfl) (by simp))
      · simp only [hpos.takeHost_eq, Option.bind_some]
        exact UrlTurn.holds_some
          (h.close hlayout rfl rfl rfl (Or.inl rfl) (Or.inl rfl) (Or.inl rfl) (by simp))
  · split
    · rename_i c hc
      refine h.holds_append hlayout ?_ (by simp [hstate, UrlParserState.encodes]) _ _
      simpa using h.input c (mem_input_of_c hc)
    · rename_i hdelim _ hc
      simp [hc, isDelimiter] at hdelim

theorem textInv_startQuery (h : TextInv p) (hlayout : Layout p)
    (hencodes : p.state.encodes = true) : TextInv (startQuery p) := by
  refine h.move hlayout rfl h.buf rfl (Or.inl rfl) (Or.inr ?_) (Or.inl rfl)
    (fun _ => h.tail hencodes) (by simp [startQuery])
  simp [startQuery, Region.text, Region.empty]

theorem textInv_startFragment (h : TextInv p) (hlayout : Layout p)
    (hencodes : p.state.encodes = true) : TextInv (startFragment p) := by
  refine h.move hlayout rfl h.buf rfl (Or.inl rfl) (Or.inl rfl) (Or.inr ?_)
    (fun _ => h.tail hencodes) (by simp [startFragment])
  simp [startFragment, Region.text, Region.empty]

theorem textInv_pathStart (h : TextInv p) (hlayout : Layout p) (hstate : p.state = .pathStart) :
    UrlTurn.Holds (urlParserPathStart p) fun _ => TextInv := by
  have hencodes : p.state.encodes = true := by rw [hstate]; rfl
  have hgoto : ∀ pos : UInt64, TextInv { p with state := .path, pos := pos } :=
    fun pos => h.goto hlayout rfl rfl rfl rfl rfl rfl (fun _ => Or.inl hencodes) (by simp)
  unfold urlParserPathStart
  dsimp only
  split
  · split
    · exact UrlTurn.holds_some (hgoto _)
    · exact UrlTurn.holds_some (hgoto _)
  · split
    · exact UrlTurn.holds_some (textInv_startQuery h hlayout hencodes)
    · split
      · exact UrlTurn.holds_some (textInv_startFragment h hlayout hencodes)
      · split
        · split
          · exact UrlTurn.holds_some (hgoto _)
          · exact UrlTurn.holds_some (hgoto _)
        · exact UrlTurn.holds_some h

theorem isPrintable_extendedPath (h : TextInv p) (hlayout : Layout p) (hstate : p.state = .path) :
    ∀ b ∈ p.extendedPath.text p.buf, isPrintable b = true := by
  have htail := h.tail (by rw [hstate]; rfl)
  unfold UrlParser.extendedPath
  split
  · rw [text_slice]
    exact htail
  · rename_i hlen
    have hadjacent := hlayout.path_adjacent hstate hlen
    have hsplit : (Region.mk p.result.path.start (p.result.path.len + p.bufLen)).text p.buf =
        p.result.path.text p.buf ++ p.buf.drop p.sliceStart := by
      have hstart : p.result.path.start + p.result.path.len = p.sliceStart := hadjacent
      simp only [Region.text]
      rw [List.take_add, List.drop_drop, hstart]
      exact congrArg _ (List.take_of_length_le (by simp [UrlParser.bufLen]))
    rw [hsplit]
    exact List.forall_mem_append.mpr ⟨h.path, htail⟩

theorem textInv_pathNext (h : TextInv p) (hlayout : Layout p) (hstate : p.state = .path)
    (err : Option Error) : UrlTurn.Holds (urlParserPathNext err p) fun _ => TextInv := by
  have hclosed : TextInv { p with
      sliceStart := p.buf.length, result := { p.result with path := p.extendedPath } } :=
    h.close hlayout rfl rfl rfl (Or.inr (isPrintable_extendedPath h hlayout hstate)) (Or.inl rfl)
      (Or.inl rfl) h.special
  have hlayout' := layout_extendedPath hlayout hstate
  have hencodes : p.state.encodes = true := by rw [hstate]; rfl
  simp only [urlParserPathNext, hlayout.extendPath_eq, Option.bind_eq_bind, Option.bind_some]
  split
  · exact UrlTurn.holds_some (textInv_startQuery hclosed hlayout' hencodes)
  · split
    · exact UrlTurn.holds_some (textInv_startFragment hclosed hlayout' hencodes)
    · exact UrlTurn.holds_some hclosed

theorem textInv_fixDriveLetter (h : TextInv p) (hlayout : Layout p) (hstate : p.state = .path)
    {q : UrlParser} (hfix : fixDriveLetter p = some q) : TextInv q := by
  have htail := h.tail (by rw [hstate]; rfl)
  simp only [fixDriveLetter, hlayout.scheme_slice_eq, hlayout.bufRegion_eq, Option.bind_eq_bind,
    Option.bind_some] at hfix
  split at hfix
  · split at hfix
    · rename_i hletter
      have hlen := sliceStart_le_of_isWindowsDriveLetter hletter
      rw [← Option.some.inj hfix]
      refine h.move hlayout rfl (fun b hb => ?_) (List.take_set_of_le hlen) (Or.inl rfl)
        (Or.inl rfl) (Or.inl rfl) (fun _ b hb => ?_) h.special
      · rcases List.mem_or_eq_of_mem_set hb with hb | rfl
        · exact h.buf b hb
        · decide
      · rw [List.drop_set, if_neg (Nat.not_lt.mpr hlen)] at hb
        rcases List.mem_or_eq_of_mem_set hb with hb | rfl
        · exact htail b hb
        · decide
    · exact Option.some.inj hfix ▸ h
  · exact Option.some.inj hfix ▸ h

theorem textInv_pathEnd (h : TextInv p) (hlayout : Layout p) (hstate : p.state = .path) :
    UrlTurn.Holds (urlParserPathEnd alloc p) fun _ => TextInv := by
  obtain ⟨buf, hlen, htext, hfix⟩ := fixDriveLetter_spec hlayout
  have hfixed : Layout { p with buf := buf } :=
    hlayout.move (hlen ▸ hlayout.sliceStart_le) (hlen ▸ hlayout.buf_lt) rfl rfl rfl htext id le_rfl
  have hinv := textInv_fixDriveLetter h hlayout hstate hfix
  simp only [urlParserPathEnd, hfix, Option.bind_eq_bind, Option.bind_some]
  split
  · rename_i c hc
    split
    · rename_i hslash
      have hprint : isPrintable c = true := by
        rcases hslash with rfl | ⟨_, rfl⟩ <;> decide
      refine holds_appendOrFail (fun hfit => ?_) fun _ => ?_
      · have happended : Layout { p with buf := buf ++ [c], allocs := p.allocs + 1 } :=
          hfixed.move hfixed.sliceStart_le_append (by simpa using hfit) rfl rfl rfl
            hfixed.take_append id le_rfl
        have hinv' : TextInv { p with buf := buf ++ [c], allocs := p.allocs + 1 } :=
          hinv.append hfixed rfl rfl rfl rfl (by simpa using isBreak_of_isPrintable hprint)
            (fun hp => ⟨hp, by simpa using hprint⟩) h.special
        exact textInv_pathNext hinv' happended hstate _
      · exact hinv.goto hfixed rfl rfl rfl rfl rfl rfl (by simp [UrlParserState.encodes])
          (by simp)
    · exact textInv_pathNext hinv hfixed hstate _
  · exact textInv_pathNext hinv hfixed hstate _

theorem textInv_path (h : TextInv p) (hlayout : Layout p) (hstate : p.state = .path) :
    UrlTurn.Holds (urlParserPath alloc p) fun _ => TextInv := by
  unfold urlParserPath
  split
  · exact textInv_pathEnd h hlayout hstate
  · split
    · exact h.holds_append hlayout (fun b => not_isBreak_percentEncode)
        (fun _ b => isPrintable_percentEncode (by decide)) _ _
    · rename_i hdelim _ hc
      simp [hc, isDelimiter] at hdelim

theorem textInv_query (h : TextInv p) (hlayout : Layout p) (hstate : p.state = .query) :
    UrlTurn.Holds (urlParserQuery alloc p) fun _ => TextInv := by
  have hencodes : p.state.encodes = true := by rw [hstate]; rfl
  have htail := h.tail hencodes
  rw [← text_slice] at htail
  have hclosed : TextInv { p with
      sliceStart := p.buf.length
      result := { p.result with query := ⟨p.sliceStart, p.bufLen⟩, queryNull := false } } :=
    h.close hlayout rfl rfl rfl (Or.inl rfl) (Or.inr htail) (Or.inl rfl) h.special
  have hlayout' : Layout { p with
      sliceStart := p.buf.length
      result := { p.result with query := ⟨p.sliceStart, p.bufLen⟩, queryNull := false } } :=
    hlayout.close rfl rfl hlayout.scheme_le' hlayout.host_le' hlayout.path_le' hlayout.stop_buf.le
      hlayout.fragment_le' rfl rfl rfl (by simp [hstate, UrlParserState.rank])
      (by simp [hstate, UrlParserState.rank]) (by simp [hstate]) (by simp [hstate])
  unfold urlParserQuery
  split
  · simp only [hlayout.takeQuery_eq, Option.bind_eq_bind, Option.bind_some]
    exact UrlTurn.holds_some hclosed
  · simp only [hlayout.takeQuery_eq, Option.bind_eq_bind, Option.bind_some]
    split
    · exact UrlTurn.holds_some (textInv_startFragment hclosed hlayout' hencodes)
    · refine h.holds_append hlayout (fun b => not_isBreak_percentEncode) (fun _ b => ?_) _ _
      split
      · exact isPrintable_percentEncode (by decide)
      · exact isPrintable_percentEncode (by decide)

theorem textInv_fragment (h : TextInv p) (hlayout : Layout p) (hstate : p.state = .fragment) :
    UrlTurn.Holds (urlParserFragment alloc p) fun _ => TextInv := by
  have htail := h.tail (by rw [hstate]; rfl)
  rw [← text_slice] at htail
  unfold urlParserFragment
  split
  · simp only [hlayout.takeFragment_eq, Option.bind_eq_bind, Option.bind_some]
    exact UrlTurn.holds_some
      (h.close hlayout rfl rfl rfl (Or.inl rfl) (Or.inl rfl) (Or.inr htail) h.special)
  · exact h.holds_append hlayout (fun b => not_isBreak_percentEncode)
      (fun _ b => isPrintable_percentEncode (by decide)) _ _

/-- Every turn keeps the invariant. -/
theorem textInv_step (h : TextInv p) (hlayout : Layout p) (hfail : p.state ≠ .fail) :
    UrlTurn.Holds (urlParserStep alloc p) fun _ => TextInv := by
  unfold urlParserStep
  cases hs : p.state with
  | schemeStart => exact textInv_schemeStart h hlayout
  | scheme => exact textInv_scheme h hlayout hs
  | noScheme => exact UrlTurn.holds_some (h.fail hlayout)
  | pathOrAuth => exact absurd hs h.special.2
  | specAuthSlash => exact textInv_specAuthSlash h hlayout
  | specAuthIgnoreSlash => exact textInv_specAuthIgnoreSlash h hlayout
  | auth => exact textInv_auth h hlayout hs
  | host => exact textInv_host h hlayout hs
  | port => exact textInv_port h hlayout hs
  | file => exact textInv_file h hlayout hs
  | fileSlash => exact textInv_fileSlash h hlayout hs
  | fileHost => exact textInv_fileHost h hlayout hs
  | pathStart => exact textInv_pathStart h hlayout hs
  | path => exact textInv_path h hlayout hs
  | opaquePath => exact absurd hs h.special.1
  | query => exact textInv_query h hlayout hs
  | fragment => exact textInv_fragment h hlayout hs
  | fail => exact absurd hs hfail

end States

/-! ## The result -/

/-- What the text of a parsed URL may contain. -/
structure CleanText (url : Url) : Prop where
  buf : ∀ c ∈ url.buf, isBreak c = false
  path : ∀ c ∈ url.path.text url.buf, isPrintable c = true
  query : ∀ c ∈ url.query.text url.buf, isPrintable c = true
  fragment : ∀ c ∈ url.fragment.text url.buf, isPrintable c = true

theorem textInv_initial (slice : List UInt8) : TextInv (.initial (urlNormalize slice).2) where
  input := not_isBreak_urlNormalize slice
  buf := by simp [UrlParser.initial]
  path := by simp [UrlParser.initial, Region.text]
  query := by simp [UrlParser.initial, Region.text]
  fragment := by simp [UrlParser.initial, Region.text]
  tail := by simp [UrlParser.initial]
  special := by simp [UrlParser.initial]

theorem TextInv.advance {p : UrlParser} (h : TextInv p) : TextInv p.advance :=
  ⟨h.input, h.buf, h.path, h.query, h.fragment, h.tail, h.special⟩

theorem cleanText_of_urlParse {alloc : Alloc} {slice : List UInt8} {err : Option Error}
    {url : Url} (h : urlParse alloc slice = some ⟨err, false, some url⟩) : CleanText url := by
  have hkeep : ∀ q err p, Layout q → TextInv q → urlParserStep alloc q.advance = some (err, p) →
      TurnSpec q.advance p → TextInv p := by
    intro q err p hlayout hq hstep _
    have hfail : q.advance.state ≠ .fail := fun hfail => by simp [urlParserStep, hfail] at hstep
    obtain ⟨_, _, hstep', hp⟩ := textInv_step hq.advance hlayout.advance hfail
    rw [hstep, Option.some.injEq, Prod.mk.injEq] at hstep'
    rw [hstep'.2]
    exact hp
  rcases urlParse_cases alloc slice with ⟨_, hnone⟩ | ⟨s, hs, _⟩
  · simp [hnone] at h
  · have hstart : UrlReaches alloc slice (urlLoopStart slice) := ⟨hs.copied, hs.buffered, .refl⟩
    obtain ⟨_, hfatal | ⟨p, hp, _, hdone⟩⟩ :=
      hstart.urlParse_keep (textInv_initial slice) hkeep
    · simp [hfatal] at h
    · rw [hdone, Option.some.injEq, UrlParseResult.mk.injEq] at h
      rw [← Option.some.inj h.2.2]
      exact ⟨hp.buf, hp.path, hp.query, hp.fragment⟩

end PosixThreads
