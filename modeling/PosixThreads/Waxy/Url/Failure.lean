import PosixThreads.Waxy.Url.Bounds

/-!
# How a failed parse is reported

A state reports a failure by setting `STATE_FAIL`, or `STATE_NO_SCHEME` which leads
there, and the loop acts on it in its next turn. There is no next turn when `pos`
is behind the input, or has been moved in front of it and wrapped around. These
are the four cases of `FailureMissed`. In every other case the failure is reported
as fatal and with an error, and a URL that is returned has a scheme.
-/

namespace PosixThreads

/-- The failure found in this turn is not seen by the loop: the input does not begin
with a letter; it has ended when a missing scheme is reported; or it ends right
after the at sign of the user info, or with a port that is too high. -/
def FailureMissed (p : UrlParser) : Prop :=
  match p.state with
  | .schemeStart => p.c.any isAsciiAlpha = false
  | .noScheme => p.isEof = true
  | .auth => p.c = none ∧ p.atSignSeen = true ∧ p.bufLen = 0
  | .port => p.c = none ∧ p.bufLen ≠ 0 ∧
      65535 < (portNumber ((Region.mk p.sliceStart p.bufLen).text p.buf)).2
  | _ => False

/-- A turn that sets `STATE_FAIL` returns an error, and is followed by another turn
unless the failure is missed. -/
def FailSpec (p : UrlParser) (err : Option Error) (p' : UrlParser) : Prop :=
  p'.state = .fail → err.isSome = true ∧ (p'.isEof = true → FailureMissed p)

section States

variable {alloc : Alloc} {p : UrlParser}

theorem failSpec_of_state {err : Option Error} {p' : UrlParser} (h : p'.state ≠ .fail) :
    FailSpec p err p' :=
  fun hstate => absurd hstate h

theorem failSpec_of_frame {c : UInt8} (hc : p.c = some c) {err : Option Error} {p' : UrlParser}
    (hinput : p'.input = p.input) (hpos : p'.pos = p.pos)
    (herr : p'.state = .fail → err.isSome = true) : FailSpec p err p' := by
  intro hfail
  have heof : p'.isEof = p.isEof := by
    unfold UrlParser.isEof
    rw [hinput, hpos]
  refine ⟨herr hfail, fun h => ?_⟩
  rw [heof, UrlParser.isEof_of_c hc] at h
  simp at h

theorem failSpec_of_c {c : UInt8} (hc : p.c = some c) {e : Error} {p' : UrlParser}
    (hinput : p'.input = p.input) (hpos : p'.pos = p.pos) : FailSpec p (some e) p' :=
  failSpec_of_frame hc hinput hpos fun _ => rfl

theorem failSpec_append {c : UInt8} (hc : p.c = some c) (hstate : p.state ≠ .fail)
    (bytes : List UInt8) (err err' : Option Error) :
    UrlTurn.Holds (appendOrFail alloc p bytes err fun p => some (err', p)) (FailSpec p) :=
  holds_appendOrFail (fun _ => UrlTurn.holds_some (failSpec_of_state hstate))
    (fun _ => failSpec_of_c hc rfl rfl)

theorem failSpec_schemeStart :
    UrlTurn.Holds (urlParserSchemeStart alloc p) (FailSpec p) := by
  unfold urlParserSchemeStart
  split
  · rename_i c hc
    split
    · exact holds_appendOrFail (fun _ => UrlTurn.holds_some (failSpec_of_state (by simp)))
        (fun _ => failSpec_of_c hc rfl rfl)
    · exact UrlTurn.holds_some (failSpec_of_state (by simp))
  · exact UrlTurn.holds_some (failSpec_of_state (by simp))

theorem failSpec_schemeEnd (h : Layout p) :
    UrlTurn.Holds (urlParserSchemeEnd p) (FailSpec p) := by
  have hregion : regionToSlice p.buf ⟨p.sliceStart, p.bufLen⟩ =
      some ((Region.mk p.sliceStart p.bufLen).text p.buf) := by
    simp [regionToSlice, h.bufLen_le]
  simp only [urlParserSchemeEnd, h.slice_eq, h.sliceToRegion_eq, hregion, Option.bind_eq_bind,
    Option.bind_some]
  split
  · exact UrlTurn.holds_some (failSpec_of_state (by simp))
  · split
    · exact UrlTurn.holds_some (failSpec_of_state (by simp))
    · split
      · exact UrlTurn.holds_some (failSpec_of_state (by simp))
      · exact UrlTurn.holds_some (failSpec_of_state (by simp))

theorem failSpec_scheme (h : Layout p) (hstate : p.state = .scheme) :
    UrlTurn.Holds (urlParserScheme alloc p) (FailSpec p) := by
  unfold urlParserScheme
  split
  · rename_i c hc
    split
    · exact failSpec_append hc (by simp [hstate]) _ _ _
    · split
      · exact failSpec_schemeEnd h
      · exact UrlTurn.holds_some (failSpec_of_state (by simp))
  · exact UrlTurn.holds_some (failSpec_of_state (by simp))

theorem failSpec_noScheme (hstate : p.state = .noScheme) :
    UrlTurn.Holds (urlParserNoScheme p) (FailSpec p) :=
  UrlTurn.holds_some fun _ => ⟨rfl, fun heof => by
    simpa [FailureMissed, hstate, UrlParser.isEof] using heof⟩

theorem failSpec_pathOrAuth : UrlTurn.Holds (urlParserPathOrAuth p) (FailSpec p) := by
  unfold urlParserPathOrAuth
  split <;> exact UrlTurn.holds_some (failSpec_of_state (by simp))

theorem failSpec_specAuthSlash : UrlTurn.Holds (urlParserSpecAuthSlash p) (FailSpec p) := by
  unfold urlParserSpecAuthSlash
  split <;> exact UrlTurn.holds_some (failSpec_of_state (by simp))

theorem failSpec_specAuthIgnoreSlash (hstate : p.state = .specAuthIgnoreSlash) :
    UrlTurn.Holds (urlParserSpecAuthIgnoreSlash p) (FailSpec p) := by
  unfold urlParserSpecAuthIgnoreSlash
  split <;> exact UrlTurn.holds_some (failSpec_of_state (by simp [hstate]))

theorem urlParserAuthAt_frame (h : Layout p) (hstate : p.state = .auth) (err : Option Error) :
    UrlTurn.Holds (urlParserAuthAt alloc err p) (fun err' p' => p'.input = p.input ∧
      p'.pos = p.pos ∧ (p'.state = .fail → err'.isSome = true)) := by
  rw [h.urlParserAuthAt_eq]
  obtain ⟨encodeErr, bytes, seen, user, password, allocs, heq, _⟩ :=
    encodeUserinfo_spec alloc ((Region.mk p.sliceStart p.bufLen).text p.buf)
      p.closeUserinfo h.buf_lt
  rw [heq]
  cases encodeErr with
  | none => exact UrlTurn.holds_some ⟨rfl, rfl, by simp [UrlParser.closeUserinfo, hstate]⟩
  | some e => cases err <;> exact UrlTurn.holds_some ⟨rfl, rfl, fun _ => rfl⟩

theorem failSpec_authEnd (h : Layout p) (hstate : p.state = .auth) :
    UrlTurn.Holds (urlParserAuthEnd p) (FailSpec p) := by
  unfold urlParserAuthEnd
  split
  · rename_i hempty
    simp only [Bool.and_eq_true, decide_eq_true_eq] at hempty
    cases hc : p.c with
    | some c => exact UrlTurn.holds_some (failSpec_of_c hc rfl rfl)
    | none =>
        exact UrlTurn.holds_some fun _ => ⟨rfl, fun _ => by
          simpa [FailureMissed, hstate, hc] using hempty⟩
  · simp only [h.slice_eq, Option.bind_eq_bind, Option.bind_some]
    exact UrlTurn.holds_some (failSpec_of_state (by simp))

theorem failSpec_auth (h : Layout p) (hstate : p.state = .auth) :
    UrlTurn.Holds (urlParserAuth alloc p) (FailSpec p) := by
  unfold urlParserAuth
  split
  · rename_i hc
    dsimp only
    split
    · refine holds_appendOrFail (fun hfit => ?_) (fun _ => failSpec_of_c hc rfl rfl)
      have hmove : Layout { p with buf := p.buf ++ cstr "%40", allocs := p.allocs + 1 } :=
        h.move h.sliceStart_le_append (by simpa using hfit) rfl rfl rfl h.take_append id le_rfl
      exact (urlParserAuthAt_frame hmove hstate _).imp
        fun _ _ hframe => failSpec_of_frame hc hframe.1 hframe.2.1 hframe.2.2
    · exact (urlParserAuthAt_frame h hstate _).imp
        fun _ _ hframe => failSpec_of_frame hc hframe.1 hframe.2.1 hframe.2.2
  · split
    · exact failSpec_authEnd h hstate
    · split
      · rename_i c hc
        exact failSpec_append hc (by simp [hstate]) _ _ _
      · rename_i hdelim _ hc
        simp [hc, isDelimiter] at hdelim

/-- The host moves back by a byte before it fails, which does not leave the input. -/
theorem failSpec_host (h : Layout p) (hstate : p.state = .host) (hpos : 0 < p.pos.toNat)
    (hle : p.pos.toNat ≤ p.input.length) :
    UrlTurn.Holds (urlParserHost alloc p) (FailSpec p) := by
  have hback : Layout { p with pos := p.pos - 1 } :=
    h.move h.sliceStart_le h.buf_lt rfl rfl rfl rfl id le_rfl
  have heof : UrlParser.isEof { p with pos := p.pos - 1, state := .fail } = false := by
    have hsub : (p.pos - 1).toNat = p.pos.toNat - 1 := by
      apply UInt64.toNat_sub_of_le
      rw [UInt64.le_iff_toNat_le, UInt64.toNat_one]
      exact hpos
    simp only [UrlParser.isEof, hsub, decide_eq_false_iff_not]
    omega
  unfold urlParserHost
  split
  · rename_i hcolon
    simp only [Bool.and_eq_true, decide_eq_true_eq] at hcolon
    split
    · exact UrlTurn.holds_some (failSpec_of_c hcolon.1 rfl rfl)
    · simp only [h.takeHost_eq, Option.bind_eq_bind, Option.bind_some]
      exact UrlTurn.holds_some (failSpec_of_state (by simp))
  · split
    · dsimp only
      split
      · exact UrlTurn.holds_some fun _ => ⟨rfl, fun h' => by
          rw [heof] at h'
          simp at h'⟩
      · simp only [hback.takeHost_eq, Option.bind_eq_bind, Option.bind_some]
        exact UrlTurn.holds_some (failSpec_of_state (by simp))
    · split
      · rename_i c hc
        exact holds_appendOrFail
          (fun _ => UrlTurn.holds_some (failSpec_of_state (by simp [hstate])))
          (fun _ => failSpec_of_c hc rfl rfl)
      · rename_i hdelim _ hc
        simp [hc, isDelimiter] at hdelim

theorem failSpec_portEnd (h : Layout p) (hstate : p.state = .port) :
    UrlTurn.Holds (urlParserPortEnd p) (FailSpec p) := by
  unfold urlParserPortEnd
  split
  · rename_i hlen
    simp only [urlParserPortValue, h.slice_eq, Option.bind_eq_bind, Option.bind_some]
    split
    · rename_i hport
      cases hc : p.c with
      | some c => exact UrlTurn.holds_some (failSpec_of_c hc rfl rfl)
      | none =>
          exact UrlTurn.holds_some fun _ => ⟨rfl, fun _ => by
            simpa [FailureMissed, hstate, hc] using ⟨hlen, hport⟩⟩
    · exact UrlTurn.holds_some (failSpec_of_state (by simp))
  · exact UrlTurn.holds_some (failSpec_of_state (by simp))

theorem failSpec_port (h : Layout p) (hstate : p.state = .port) :
    UrlTurn.Holds (urlParserPort alloc p) (FailSpec p) := by
  unfold urlParserPort
  split
  · rename_i c hc
    split
    · exact failSpec_append hc (by simp [hstate]) _ _ _
    · split
      · exact failSpec_portEnd h hstate
      · exact UrlTurn.holds_some (failSpec_of_c hc rfl rfl)
  · exact failSpec_portEnd h hstate

theorem failSpec_fileNext : UrlTurn.Holds (urlParserFileNext p) (FailSpec p) := by
  unfold urlParserFileNext failBackslash
  dsimp only
  split
  · rename_i hc
    exact UrlTurn.holds_some (failSpec_of_c (c := '\\'.toUInt8) hc rfl rfl)
  · split <;> exact UrlTurn.holds_some (failSpec_of_state (by simp))

theorem failSpec_file (h : Layout p) (hstate : p.state = .file) :
    UrlTurn.Holds (urlParserFile alloc p) (FailSpec p) := by
  simp only [urlParserFile, h.scheme_slice_eq, h.file_scheme hstate, Option.bind_eq_bind,
    Option.bind_some, ne_eq, not_true_eq_false, if_false]
  exact failSpec_fileNext

theorem failSpec_fileSlash : UrlTurn.Holds (urlParserFileSlash p) (FailSpec p) := by
  unfold urlParserFileSlash failBackslash
  split
  · rename_i hc
    exact UrlTurn.holds_some (failSpec_of_c hc rfl rfl)
  · split <;> exact UrlTurn.holds_some (failSpec_of_state (by simp))

theorem failSpec_fileHost (h : Layout p) (hstate : p.state = .fileHost) :
    UrlTurn.Holds (urlParserFileHost alloc p) (FailSpec p) := by
  have hback : Layout { p with pos := p.pos - 1 } :=
    h.move h.sliceStart_le h.buf_lt rfl rfl rfl rfl id le_rfl
  unfold urlParserFileHost
  split
  · simp only [hback.bufRegion_eq, hback.takeHost_eq, Option.bind_eq_bind, Option.bind_some]
    split
    · exact UrlTurn.holds_some (failSpec_of_state (by simp))
    · split <;> exact UrlTurn.holds_some (failSpec_of_state (by simp))
  · split
    · rename_i c hc
      exact failSpec_append hc (by simp [hstate]) _ _ _
    · rename_i hdelim _ hc
      simp [hc, isDelimiter] at hdelim

theorem failSpec_pathStart (hstate : p.state = .pathStart) :
    UrlTurn.Holds (urlParserPathStart p) (FailSpec p) := by
  unfold urlParserPathStart startQuery startFragment
  dsimp only
  split
  · split <;> exact UrlTurn.holds_some (failSpec_of_state (by simp))
  · split
    · exact UrlTurn.holds_some (failSpec_of_state (by simp))
    · split
      · exact UrlTurn.holds_some (failSpec_of_state (by simp))
      · split
        · split <;> exact UrlTurn.holds_some (failSpec_of_state (by simp))
        · exact UrlTurn.holds_some (failSpec_of_state (by simp [hstate]))

theorem urlParserPathNext_state (h : Layout p) (hstate : p.state = .path) (err : Option Error) :
    UrlTurn.Holds (urlParserPathNext err p) (fun _ p' => p'.state ≠ .fail) := by
  simp only [urlParserPathNext, h.extendPath_eq, Option.bind_eq_bind, Option.bind_some,
    startQuery, startFragment]
  split
  · exact UrlTurn.holds_some (by simp)
  · split
    · exact UrlTurn.holds_some (by simp)
    · exact UrlTurn.holds_some (by simp [hstate])

theorem failSpec_pathEnd (h : Layout p) (hstate : p.state = .path) :
    UrlTurn.Holds (urlParserPathEnd alloc p) (FailSpec p) := by
  obtain ⟨buf, hlen, htext, hfix⟩ := fixDriveLetter_spec h
  have hfixed : Layout { p with buf := buf } :=
    h.move (hlen ▸ h.sliceStart_le) (hlen ▸ h.buf_lt) rfl rfl rfl htext id le_rfl
  have hnext : ∀ err, UrlTurn.Holds (urlParserPathNext err { p with buf := buf }) (FailSpec p) :=
    fun err => (urlParserPathNext_state hfixed hstate err).imp fun _ _ => failSpec_of_state
  simp only [urlParserPathEnd, hfix, Option.bind_eq_bind, Option.bind_some]
  split
  · rename_i c hc
    split
    · refine holds_appendOrFail (fun hfit => ?_) (fun _ => failSpec_of_c (p := p) hc rfl rfl)
      have happended : Layout { p with buf := buf ++ [c], allocs := p.allocs + 1 } :=
        hfixed.move hfixed.sliceStart_le_append (by simpa using hfit) rfl rfl rfl
          hfixed.take_append id le_rfl
      exact (urlParserPathNext_state happended hstate _).imp fun _ _ => failSpec_of_state
    · exact hnext _
  · exact hnext _

theorem failSpec_path (h : Layout p) (hstate : p.state = .path) :
    UrlTurn.Holds (urlParserPath alloc p) (FailSpec p) := by
  unfold urlParserPath
  split
  · exact failSpec_pathEnd h hstate
  · split
    · rename_i c hc
      exact failSpec_append hc (by simp [hstate]) _ _ _
    · rename_i hdelim _ hc
      simp [hc, isDelimiter] at hdelim

theorem failSpec_opaquePath (h : Layout p) (hstate : p.state = .opaquePath) :
    UrlTurn.Holds (urlParserOpaquePath alloc p) (FailSpec p) := by
  unfold urlParserOpaquePath
  simp only [h.takePath_eq, Option.bind_eq_bind, Option.bind_some, startQuery, startFragment]
  split
  · exact UrlTurn.holds_some (failSpec_of_state (by simp [hstate]))
  · rename_i c hc
    split
    · exact UrlTurn.holds_some (failSpec_of_state (by simp))
    · split
      · exact UrlTurn.holds_some (failSpec_of_state (by simp))
      · exact failSpec_append hc (by simp [hstate]) _ _ _

theorem failSpec_query (h : Layout p) (hstate : p.state = .query) :
    UrlTurn.Holds (urlParserQuery alloc p) (FailSpec p) := by
  unfold urlParserQuery
  simp only [h.takeQuery_eq, Option.bind_eq_bind, Option.bind_some, startFragment]
  split
  · exact UrlTurn.holds_some (failSpec_of_state (by simp [hstate]))
  · rename_i c hc
    split
    · exact UrlTurn.holds_some (failSpec_of_state (by simp))
    · exact failSpec_append hc (by simp [hstate]) _ _ _

theorem failSpec_fragment (h : Layout p) (hstate : p.state = .fragment) :
    UrlTurn.Holds (urlParserFragment alloc p) (FailSpec p) := by
  unfold urlParserFragment
  simp only [h.takeFragment_eq, Option.bind_eq_bind, Option.bind_some]
  split
  · exact UrlTurn.holds_some (failSpec_of_state (by simp [hstate]))
  · rename_i c hc
    exact failSpec_append hc (by simp [hstate]) _ _ _

/-- A failure of any state but those of `FailureMissed` is seen by the loop. Behind the
first state `pos` is not at the start of the input. -/
theorem failSpec_step (alloc : Alloc) (h : Layout p) (hfail : p.state ≠ .fail)
    (hpos : p.state ≠ .schemeStart → 0 < p.pos.toNat) (hle : p.pos.toNat ≤ p.input.length) :
    UrlTurn.Holds (urlParserStep alloc p) (FailSpec p) := by
  unfold urlParserStep
  cases hs : p.state with
  | schemeStart => exact failSpec_schemeStart
  | scheme => exact failSpec_scheme h hs
  | noScheme => exact failSpec_noScheme hs
  | pathOrAuth => exact failSpec_pathOrAuth
  | specAuthSlash => exact failSpec_specAuthSlash
  | specAuthIgnoreSlash => exact failSpec_specAuthIgnoreSlash hs
  | auth => exact failSpec_auth h hs
  | host => exact failSpec_host h hs (hpos (by simp [hs])) hle
  | port => exact failSpec_port h hs
  | file => exact failSpec_file h hs
  | fileSlash => exact failSpec_fileSlash
  | fileHost => exact failSpec_fileHost h hs
  | pathStart => exact failSpec_pathStart hs
  | path => exact failSpec_path h hs
  | opaquePath => exact failSpec_opaquePath h hs
  | query => exact failSpec_query h hs
  | fragment => exact failSpec_fragment h hs
  | fail => exact absurd hs hfail

/-! ## The scheme -/

/-- The first turn reads a letter, fails for want of memory, or finds that there is no
scheme and moves in front of the input. -/
theorem urlParserSchemeStart_cases {err : Option Error} {p' : UrlParser}
    (h : urlParserSchemeStart alloc p = some (err, p')) :
    (p.c.any isAsciiAlpha = false ∧ p' = { p with state := .noScheme, pos := p.pos - 1 }) ∨
    (∃ c, p.c = some c ∧ isAsciiAlpha c = true ∧ (p'.state = .fail ∨
      p' = { p with buf := p.buf ++ [toLower c], allocs := p.allocs + 1, state := .scheme })) := by
  unfold urlParserSchemeStart at h
  split at h
  · rename_i c hc
    split at h
    · rename_i halpha
      refine .inr ⟨c, hc, halpha, ?_⟩
      rcases UrlParser.append_cases alloc p [toLower c] with ⟨_, happend⟩ | happend
      · simp only [appendOrFail, happend, Option.some.injEq, Prod.mk.injEq] at h
        exact .inr h.2.symm
      · simp only [appendOrFail, happend, failWith, Option.some.injEq, Prod.mk.injEq] at h
        exact .inl (by rw [← h.2])
    · rename_i halpha
      simp only [Option.some.injEq, Prod.mk.injEq] at h
      exact .inl ⟨by simpa [hc] using halpha, h.2.symm⟩
  · rename_i hc
    simp only [Option.some.injEq, Prod.mk.injEq] at h
    exact .inl ⟨by simp [hc], h.2.symm⟩

/-- A turn in the scheme reads a byte of it, fails for want of memory, ends the scheme
at the colon, or goes back to the start of the input to report that there is none. -/
theorem urlParserScheme_cases (hlayout : Layout p) {err : Option Error} {p' : UrlParser}
    (h : urlParserScheme alloc p = some (err, p')) :
    (∃ c, p.c = some c ∧ (p'.state = .fail ∨
      p' = { p with buf := p.buf ++ [toLower c], allocs := p.allocs + 1 })) ∨
    (p.c = some ':'.toUInt8 ∧ 2 < p'.state.rank ∧ p'.buf = p.buf ∧
      p'.result.scheme = ⟨p.sliceStart, p.bufLen⟩) ∨
    p' = { p with buf := [], state := .noScheme, pos := 0 } := by
  have hregion : regionToSlice p.buf ⟨p.sliceStart, p.bufLen⟩ =
      some ((Region.mk p.sliceStart p.bufLen).text p.buf) := by
    simp [regionToSlice, hlayout.bufLen_le]
  unfold urlParserScheme at h
  split at h
  · rename_i c hc
    split at h
    · refine .inl ⟨c, hc, ?_⟩
      rcases UrlParser.append_cases alloc p [toLower c] with ⟨_, happend⟩ | happend
      · simp only [appendOrFail, happend, Option.some.injEq, Prod.mk.injEq] at h
        exact .inr h.2.symm
      · simp only [appendOrFail, happend, failWith, Option.some.injEq, Prod.mk.injEq] at h
        exact .inl (by rw [← h.2])
    · split at h
      · rename_i hcolon
        refine .inr (.inl ⟨by rw [hc, hcolon], ?_⟩)
        simp only [urlParserSchemeEnd, hlayout.slice_eq, hlayout.sliceToRegion_eq, hregion,
          Option.bind_eq_bind, Option.bind_some] at h
        split at h
        · simp only [Option.some.injEq, Prod.mk.injEq] at h
          simp [← h.2, UrlParserState.rank]
        · split at h
          · simp only [Option.some.injEq, Prod.mk.injEq] at h
            simp [← h.2, UrlParserState.rank]
          · split at h
            · simp only [Option.some.injEq, Prod.mk.injEq] at h
              simp [← h.2, UrlParserState.rank]
            · simp only [Option.some.injEq, Prod.mk.injEq] at h
              simp [← h.2, UrlParserState.rank]
      · simp only [Option.some.injEq, Prod.mk.injEq] at h
        exact .inr (.inr h.2.symm)
  · simp only [Option.some.injEq, Prod.mk.injEq] at h
    exact .inr (.inr h.2.symm)

end States

def LetterFirst (text : List UInt8) : Prop := ∃ c, text.head? = some c ∧ isAsciiAlpha c = true

theorem LetterFirst.append {text : List UInt8} (h : LetterFirst text) (bytes : List UInt8) :
    LetterFirst (text ++ bytes) := by
  obtain ⟨c, hc, halpha⟩ := h
  exact ⟨c, by simp [List.head?_append, hc], halpha⟩

theorem LetterFirst.of_take {text : List UInt8} {n : ℕ} (h : LetterFirst (text.take n)) :
    LetterFirst text := by
  obtain ⟨c, hc, halpha⟩ := h
  rw [List.head?_take] at hc
  split at hc
  · simp at hc
  · exact ⟨c, hc, halpha⟩

theorem LetterFirst.take {text : List UInt8} (h : LetterFirst text) {n : ℕ} (hn : 0 < n) :
    LetterFirst (text.take n) := by
  obtain ⟨c, hc, halpha⟩ := h
  exact ⟨c, by rw [List.head?_take, if_neg (by omega), hc], halpha⟩

/-- The scheme that has been recorded stands at the start of the buffer, and begins
with a letter. -/
structure HasScheme (p : UrlParser) : Prop where
  start : p.result.scheme.start = 0
  len_pos : 0 < p.result.scheme.len
  letter : LetterFirst p.buf

theorem HasScheme.turn {q p : UrlParser} (h : HasScheme q) (hlayout : Layout q)
    (hspec : TurnSpec q p) (hstate : q.state ≠ .scheme) : HasScheme p := by
  have hscheme : p.result.scheme = q.result.scheme := hspec.scheme_eq.resolve_right hstate
  have hslice : 0 < q.sliceStart := by
    have h1 := hlayout.scheme_le
    have h2 := h.len_pos
    simp only [Region.stop] at h1
    omega
  refine ⟨by rw [hscheme]; exact h.start, by rw [hscheme]; exact h.len_pos, ?_⟩
  have htake : LetterFirst (p.buf.take q.sliceStart) := by
    rw [hspec.text_eq]
    exact h.letter.take hslice
  exact htake.of_take

/-! ## The loop -/

def AtColon (p : UrlParser) : Prop := p.state = .scheme ∧ p.c = some ':'.toUInt8

/-- Some turn of `url_parse` meets the colon that ends the scheme. -/
def FindsColon (alloc : Alloc) (slice : List UInt8) : Prop :=
  ∃ s, UrlReaches alloc slice s ∧ AtColon s.1.advance

/-- Some turn of `url_parse` leaves the parser in the state `st`. -/
def Enters (alloc : Alloc) (slice : List UInt8) (st : UrlParserState) : Prop :=
  ∃ s err p, UrlReaches alloc slice s ∧ urlParserStep alloc s.1.advance = some (err, p) ∧
    p.state = st

structure SchemeInv (alloc : Alloc) (slice : List UInt8) (s : UrlParser × Option Error) :
    Prop where
  start : s.1.state = .schemeStart → s.1.buf = [] ∧ s.1.pos = -1
  inside : s.1.state ≠ .schemeStart → s.1.isEof = false
  fail : s.1.state = .fail → s.2.isSome = true
  letter : s.1.state = .scheme → LetterFirst s.1.buf
  scheme : 2 < s.1.state.rank → s.1.state ≠ .fail → FindsColon alloc slice ∧ HasScheme s.1

/-- What a turn that starts from such a state leaves behind, whether or not it is the
last one. -/
structure SchemeTurn (alloc : Alloc) (slice : List UInt8) (q : UrlParser) (err : Option Error)
    (p : UrlParser) : Prop where
  not_start : p.state ≠ .schemeStart
  fail : FailSpec q err p
  letter : p.state = .scheme → LetterFirst p.buf
  scheme : 2 < p.state.rank → p.state ≠ .fail → FindsColon alloc slice ∧ HasScheme p
  early : p.state.rank ≤ 2 → p.isEof = true → FailureMissed q

section Loop

variable {alloc : Alloc} {slice : List UInt8} {s : UrlParser × Option Error}

theorem schemeInv_start : SchemeInv alloc slice (urlLoopStart slice) := by
  constructor <;> simp [urlLoopStart, UrlParser.initial, UrlParserState.rank]

/-- The position of a turn: at the start of the input in the first state, behind it in
the others. -/
theorem SchemeInv.advance_pos (h : SchemeInv alloc slice s) (hs : UrlReaches alloc slice s) :
    s.1.state ≠ .schemeStart → 0 < s.1.advance.pos.toNat := by
  intro hstate
  have hinside := h.inside hstate
  have hfit := (length_urlNormalize_le slice).trans_lt hs.fits
  rw [← hs.inv.input_eq] at hfit
  have hlt : s.1.pos.toNat < s.1.input.length := by simpa [UrlParser.isEof] using hinside
  have hnext : s.1.advance.pos.toNat = s.1.pos.toNat + 1 := toNat_add_one_of_lt hfit hlt
  omega

theorem schemeTurn_schemeStart (h : SchemeInv alloc slice s) (hstate : s.1.state = .schemeStart)
    {err : Option Error} {p : UrlParser} (hfail : FailSpec s.1.advance err p)
    (hstep : urlParserSchemeStart alloc s.1.advance = some (err, p)) :
    SchemeTurn alloc slice s.1.advance err p := by
  rcases urlParserSchemeStart_cases hstep with ⟨hletter, rfl⟩ | ⟨c, hc, halpha, hp | rfl⟩
  · refine ⟨by simp, hfail, by simp, by simp [UrlParserState.rank], fun _ _ => ?_⟩
    simpa [FailureMissed, UrlParser.advance, hstate] using hletter
  · exact ⟨by simp [hp], hfail, by simp [hp], fun _ hne => absurd hp hne,
      by simp [hp, UrlParserState.rank]⟩
  · refine ⟨by simp, hfail, fun _ => ?_, by simp [UrlParserState.rank], fun _ heof => ?_⟩
    · exact ⟨toLower c, by simp [UrlParser.advance, (h.start hstate).1],
        isAsciiAlpha_toLower halpha⟩
    · have hinside : s.1.advance.isEof = true := heof
      simp [UrlParser.isEof_of_c hc] at hinside

theorem schemeTurn_scheme (h : SchemeInv alloc slice s) (hs : UrlReaches alloc slice s)
    (hstate : s.1.state = .scheme) {err : Option Error} {p : UrlParser}
    (hfail : FailSpec s.1.advance err p)
    (hstep : urlParserScheme alloc s.1.advance = some (err, p)) :
    SchemeTurn alloc slice s.1.advance err p := by
  have hletter := h.letter hstate
  have hstate' : s.1.advance.state = .scheme := hstate
  have hslice : s.1.advance.sliceStart = 0 :=
    (hs.inv.layout.early (by simp [hstate, UrlParserState.rank])).1
  rcases urlParserScheme_cases hs.inv.layout.advance hstep with
    ⟨c, hc, hp | rfl⟩ | ⟨hc, hrank, hbuf, hscheme⟩ | rfl
  · exact ⟨by simp [hp], hfail, by simp [hp], fun _ hne => absurd hp hne,
      by simp [hp, UrlParserState.rank]⟩
  · refine ⟨by simp [hstate'], hfail, fun _ => hletter.append _,
      by simp [hstate', UrlParserState.rank], fun _ heof => ?_⟩
    have hinside : s.1.advance.isEof = true := heof
    simp [UrlParser.isEof_of_c hc] at hinside
  · refine ⟨?_, hfail, ?_, fun _ _ => ⟨⟨s, hs, hstate', hc⟩, ?_, ?_, ?_⟩, fun hle => ?_⟩
    · intro hp
      simp [hp, UrlParserState.rank] at hrank
    · intro hp
      simp [hp, UrlParserState.rank] at hrank
    · rw [hscheme]
      exact hslice
    · obtain ⟨c, hc, _⟩ := hletter
      have hne : s.1.advance.buf ≠ [] := by
        intro hnil
        have hnil' : s.1.buf = [] := hnil
        simp [hnil'] at hc
      simpa [hscheme, UrlParser.bufLen, hslice] using List.length_pos_iff.mpr hne
    · rw [hbuf]
      exact hletter
    · omega
  · refine ⟨by simp, hfail, by simp, by simp [UrlParserState.rank], fun _ heof => ?_⟩
    have hinside := h.inside (by simp [hstate])
    simp [UrlParser.isEof, UrlParser.advance] at heof hinside
    simp [heof] at hinside

theorem schemeTurn_step (h : SchemeInv alloc slice s) (hs : UrlReaches alloc slice s)
    (hstate : s.1.state ≠ .fail) {err : Option Error} {p : UrlParser}
    (hstep : urlParserStep alloc s.1.advance = some (err, p))
    (hspec : TurnSpec s.1.advance p) : SchemeTurn alloc slice s.1.advance err p := by
  have hle : s.1.advance.pos.toNat ≤ s.1.advance.input.length := by
    have hinput : s.1.advance.input = (urlNormalize slice).2 := hs.inv.input_eq
    rw [hinput]
    exact hs.inv.pos_le
  obtain ⟨err', p', hstep', hfail⟩ := failSpec_step alloc hs.inv.layout.advance hstate
    (h.advance_pos hs) hle
  rw [hstep, Option.some.injEq, Prod.mk.injEq] at hstep'
  obtain ⟨rfl, rfl⟩ := hstep'
  by_cases hlate : 2 < s.1.state.rank
  · obtain ⟨hcolon, hscheme⟩ := h.scheme hlate hstate
    have hrank : 2 < p.state.rank := by
      rcases hspec.moves with ⟨heq, _⟩ | hlt
      · rw [heq]
        exact hlate
      · exact hlate.trans hlt
    have hscheme' : s.1.advance.state ≠ .scheme := by
      intro hs'
      have hs'' : s.1.state = .scheme := hs'
      simp [hs'', UrlParserState.rank] at hlate
    refine ⟨?_, hfail, ?_, fun _ _ => ⟨hcolon, ?_⟩, fun hle => by omega⟩
    · intro hp
      simp [hp, UrlParserState.rank] at hrank
    · intro hp
      simp [hp, UrlParserState.rank] at hrank
    · have hadvance : HasScheme s.1.advance :=
        ⟨hscheme.start, hscheme.len_pos, hscheme.letter⟩
      exact hadvance.turn hs.inv.layout.advance hspec hscheme'
  · have hearly : s.1.state = .schemeStart ∨ s.1.state = .scheme ∨ s.1.state = .noScheme := by
      cases hs' : s.1.state <;> simp [hs', UrlParserState.rank] at hlate ⊢
    rcases hearly with hs' | hs' | hs'
    · have hs'' : s.1.advance.state = .schemeStart := hs'
      simp only [urlParserStep, hs''] at hstep
      exact schemeTurn_schemeStart h hs' hfail hstep
    · have hs'' : s.1.advance.state = .scheme := hs'
      simp only [urlParserStep, hs''] at hstep
      exact schemeTurn_scheme h hs hs' hfail hstep
    · have hs'' : s.1.advance.state = .noScheme := hs'
      simp only [urlParserStep, hs'', urlParserNoScheme, Option.some.injEq, Prod.mk.injEq] at hstep
      have hp : p.state = .fail := by rw [← hstep.2]
      exact ⟨by simp [hp], hfail, by simp [hp], fun _ hne => absurd hp hne,
        by simp [hp, UrlParserState.rank]⟩

theorem schemeInv_reaches (hs : UrlReaches alloc slice s) : SchemeInv alloc slice s := by
  refine hs.induction schemeInv_start ?_
  intro s err p hs ih hstate hstep hspec heof
  have hturn := schemeTurn_step ih hs hstate hstep hspec
  refine ⟨fun hp => absurd hp hturn.not_start, fun _ => heof, fun hp => ?_, hturn.letter,
    hturn.scheme⟩
  obtain ⟨herr, _⟩ := hturn.fail hp
  cases err with
  | none => simp at herr
  | some e => cases s.2 <;> simp [errorCombine]

/-- A failure that is missed ends the loop in the state that should have reported it. -/
theorem failureMissed_turn (hs : UrlReaches alloc slice s)
    (hmissed : FailureMissed s.1.advance) :
    s.1.state ≠ .fail ∧ ∃ err p, urlParserStep alloc s.1.advance = some (err, p) ∧
      p.isEof = true ∧ (p.state = .noScheme ∨ p.state = .fail) := by
  have hinv := schemeInv_reaches hs
  unfold FailureMissed at hmissed
  split at hmissed
  · rename_i hstate
    have hstate' : s.1.state = .schemeStart := hstate
    refine ⟨by simp [hstate'], none,
      { s.1.advance with state := .noScheme, pos := s.1.advance.pos - 1 }, ?_, ?_, .inl rfl⟩
    · simp only [urlParserStep, hstate, urlParserSchemeStart]
      cases hc : s.1.advance.c with
      | none => simp
      | some c =>
          have halpha : isAsciiAlpha c = false := by simpa [hc] using hmissed
          simp [halpha]
    · have hfit := (length_urlNormalize_le slice).trans_lt hs.fits
      rw [← hs.inv.input_eq] at hfit
      have hpos : s.1.advance.pos - 1 = -1 := by
        simp [UrlParser.advance, (hinv.start hstate').2]
      have hmax : (-1 : UInt64).toNat = 2 ^ 64 - 1 := rfl
      simp only [UrlParser.isEof, hpos, hmax, decide_eq_true_eq]
      simp only [ptrdiffMax] at hfit
      have hlen : s.1.advance.input.length = s.1.input.length := rfl
      omega
  · rename_i hstate
    have hstate' : s.1.state = .noScheme := hstate
    refine ⟨by simp [hstate'], some (.fromCstr "No scheme was provided"),
      { s.1.advance with state := .fail }, ?_, hmissed, .inr rfl⟩
    simp only [urlParserStep, hstate, urlParserNoScheme]
  · rename_i hstate
    have hstate' : s.1.state = .auth := hstate
    obtain ⟨hc, hseen, hlen⟩ := hmissed
    have heof := UrlParser.isEof_of_c_none hc
    refine ⟨by simp [hstate'], some (.fromCstr "Expected a hostname after the user info"),
      { s.1.advance with state := .fail }, ?_, heof, .inr rfl⟩
    simp [urlParserStep, hstate, urlParserAuth, hc, isDelimiter, urlParserAuthEnd, hseen, hlen]
  · rename_i hstate
    have hstate' : s.1.state = .port := hstate
    obtain ⟨hc, hlen, hport⟩ := hmissed
    have heof := UrlParser.isEof_of_c_none hc
    refine ⟨by simp [hstate'], some (.fromCstr "The port nubmer is too high"),
      { s.1.advance with sliceStart := s.1.advance.buf.length, state := .fail }, ?_, heof,
      .inr rfl⟩
    simp only [urlParserStep, hstate, urlParserPort, hc, urlParserPortEnd, if_pos hlen,
      urlParserPortValue, hs.inv.layout.advance.slice_eq, Option.bind_eq_bind, Option.bind_some,
      gt_iff_lt, if_pos hport]
  · exact hmissed.elim

end Loop

/-! ## The report -/

/-- A parse that finds no scheme, fails in one of its states, or never meets the colon
of the scheme is fatal and has an error, and any other one yields a scheme that
begins with a letter. -/
def FailureReported (alloc : Alloc) (slice : List UInt8) : Prop :=
  ∃ r, urlParse alloc slice = some r ∧
    (Enters alloc slice .noScheme ∨ Enters alloc slice .fail ∨ ¬FindsColon alloc slice →
      r.err.isSome = true ∧ r.fatal = true) ∧
    (r.fatal = false → ∃ url, r.url = some url ∧ LetterFirst (url.scheme.text url.buf))

section Report

variable {alloc : Alloc} {slice : List UInt8}

/-- If no failure is missed, a turn that fails is reported. -/
theorem reported_of_enters_fail
    (h : ∀ s, UrlReaches alloc slice s → ¬FailureMissed s.1.advance)
    (henters : Enters alloc slice .fail) :
    ∃ err, err.isSome = true ∧ urlParse alloc slice = some ⟨err, true, none⟩ := by
  obtain ⟨s, err, p, hs, hstep, hp⟩ := henters
  rcases urlLoopBody_cases alloc hs.inv with
    ⟨hstate, _⟩ | ⟨hstate, err', p', hstep', hspec, hend⟩
  · have hstate' : s.1.advance.state = .fail := hstate
    simp [urlParserStep, hstate'] at hstep
  · rw [hstep, Option.some.injEq, Prod.mk.injEq] at hstep'
    obtain ⟨rfl, rfl⟩ := hstep'
    have hturn := schemeTurn_step (schemeInv_reaches hs) hs hstate hstep hspec
    rcases hend with ⟨heof, _⟩ | ⟨_, hbody⟩
    · exact absurd ((hturn.fail hp).2 heof) (h s hs)
    · have hnext := hs.turn hbody
      exact ⟨_, (schemeInv_reaches hnext).fail hp, hnext.urlParse_of_fail hp⟩

/-- If no failure is missed, a turn that finds no scheme is followed by one that fails. -/
theorem enters_fail_of_enters_noScheme
    (h : ∀ s, UrlReaches alloc slice s → ¬FailureMissed s.1.advance)
    (henters : Enters alloc slice .noScheme) : Enters alloc slice .fail := by
  obtain ⟨s, err, p, hs, hstep, hp⟩ := henters
  rcases urlLoopBody_cases alloc hs.inv with
    ⟨hstate, _⟩ | ⟨hstate, err', p', hstep', hspec, hend⟩
  · have hstate' : s.1.advance.state = .fail := hstate
    simp [urlParserStep, hstate'] at hstep
  · rw [hstep, Option.some.injEq, Prod.mk.injEq] at hstep'
    obtain ⟨rfl, rfl⟩ := hstep'
    have hturn := schemeTurn_step (schemeInv_reaches hs) hs hstate hstep hspec
    rcases hend with ⟨heof, _⟩ | ⟨_, hbody⟩
    · exact absurd (hturn.early (by simp [hp, UrlParserState.rank]) heof) (h s hs)
    · have hp' : p.advance.state = .noScheme := hp
      refine ⟨_, some (.fromCstr "No scheme was provided"), { p.advance with state := .fail },
        hs.turn hbody, ?_, rfl⟩
      simp only [urlParserStep, hp', urlParserNoScheme]

/-- Failures are reported exactly when none is missed. -/
theorem failureReported_iff (alloc : Alloc) (slice : List UInt8) :
    FailureReported alloc slice ↔
      ∀ s, UrlReaches alloc slice s → ¬FailureMissed s.1.advance := by
  constructor
  · rintro ⟨r, hr, hreport, _⟩ s hs hmissed
    obtain ⟨hstate, err, p, hstep, heof, hp⟩ := failureMissed_turn hs hmissed
    have hparse := hs.urlParse_of_eof hstate hstep heof
    rw [hr, Option.some.injEq] at hparse
    have henters : Enters alloc slice .noScheme ∨ Enters alloc slice .fail ∨
        ¬FindsColon alloc slice := by
      rcases hp with hp | hp
      · exact .inl ⟨s, err, p, hs, hstep, hp⟩
      · exact .inr (.inl ⟨s, err, p, hs, hstep, hp⟩)
    have hfatal := (hreport henters).2
    simp [hparse] at hfatal
  · intro h
    rcases urlParse_cases alloc slice with
      ⟨_, hmemory⟩ | ⟨s, hs, ⟨hstate, hfail⟩ | ⟨hstate, err, p, hstep, hspec, heof, hdone⟩⟩
    · exact ⟨_, hmemory, fun _ => ⟨rfl, rfl⟩, by simp⟩
    · exact ⟨_, hfail, fun _ => ⟨(schemeInv_reaches hs).fail hstate, rfl⟩, by simp⟩
    · have hturn := schemeTurn_step (schemeInv_reaches hs) hs hstate hstep hspec
      have hlate : 2 < p.state.rank := by
        by_contra hle
        exact h s hs (hturn.early (by omega) heof)
      have hpfail : p.state ≠ .fail := fun hp => h s hs ((hturn.fail hp).2 heof)
      obtain ⟨hcolon, hscheme⟩ := hturn.scheme hlate hpfail
      refine ⟨_, hdone, fun henters => ?_, fun _ => ⟨_, rfl, ?_⟩⟩
      · -- a reported failure contradicts the result, which is not fatal
        exfalso
        have hfail : Enters alloc slice .fail := by
          rcases henters with henters | henters | henters
          · exact enters_fail_of_enters_noScheme h henters
          · exact henters
          · exact absurd hcolon henters
        obtain ⟨err', _, hparse⟩ := reported_of_enters_fail h hfail
        simp [hdone] at hparse
      · simp only [Region.text, hscheme.start, List.drop_zero]
        exact hscheme.letter.take hscheme.len_pos

/-- A path alone is accepted, as a URL without a scheme and without an error. -/
theorem failureReported_fails_on_path : ¬FailureReported allocAll (cstr "/x") := by
  rintro ⟨r, hr, _, hscheme⟩
  have hvalue : urlParse allocAll (cstr "/x") =
      some ⟨none, false, some { UrlRegion.initial with buf := [] }⟩ := by
    decide +kernel
  rw [hr, Option.some.injEq] at hvalue
  subst hvalue
  obtain ⟨url, hurl, c, hc, _⟩ := hscheme rfl
  rw [Option.some.injEq] at hurl
  subst hurl
  simp [Region.text] at hc

end Report

end PosixThreads
