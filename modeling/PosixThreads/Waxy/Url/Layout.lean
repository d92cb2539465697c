import Mathlib.Tactic.Linarith
import PosixThreads.Waxy.Url.Parser

/-!
# The layout of the parser's buffer

The regions of the finished components end before `slice_start`, and the text of
the component being read is the rest of the buffer. `Layout` is this invariant,
with what the path and the first states need in addition, and `layout_step`
shows that every state keeps it, that no assertion fails and that a turn either
stays in its state and moves on, or goes to a later state. The loop therefore
ends, and `url_parse` always returns.

The username and the password are not covered. Their starts are taken from
lengths that have nothing to do with where their text stands, and the text is
dropped from the buffer afterwards, so `Layout` only bounds their lengths.
-/

namespace PosixThreads

def UrlParserState.rank : UrlParserState → ℕ
  | .schemeStart => 0
  | .scheme => 1
  | .noScheme => 2
  | .pathOrAuth => 3
  | .specAuthSlash => 4
  | .specAuthIgnoreSlash => 5
  | .auth => 6
  | .host => 7
  | .port => 8
  | .file => 9
  | .fileSlash => 10
  | .fileHost => 11
  | .pathStart => 12
  | .path => 13
  | .opaquePath => 14
  | .query => 15
  | .fragment => 16
  | .fail => 17

theorem UrlParserState.eq_path_of_rank {s : UrlParserState} (h : s.rank = 13) : s = .path := by
  cases s <;> simp [rank] at h ⊢

/-- The text read since `slice_start` is the end of a buffer that fits in memory. -/
structure Buffered (p : UrlParser) : Prop where
  sliceStart_le : p.sliceStart ≤ p.buf.length
  buf_lt : p.buf.length < ptrdiffMax

structure Layout (p : UrlParser) : Prop extends Buffered p where
  scheme_le : p.result.scheme.stop ≤ p.sliceStart
  host_le : p.result.host.stop ≤ p.sliceStart
  path_le : p.result.path.stop ≤ p.sliceStart
  query_le : p.result.query.stop ≤ p.sliceStart
  fragment_le : p.result.fragment.stop ≤ p.sliceStart
  userinfo_le : p.result.username.len + p.result.password.len ≤ p.sliceStart
  -- nothing is recorded before the scheme has been read
  early : p.state.rank ≤ 1 → p.sliceStart = 0 ∧ p.result = .initial
  -- the path begins in its own state, and there its segments stand side by side
  path_empty : p.state.rank < 13 → p.result.path.len = 0
  path_adjacent : p.state = .path → p.result.path.len ≠ 0 →
    p.result.path.stop = p.sliceStart
  userinfo_empty : p.atSignSeen = false →
    p.result.username = .empty ∧ p.result.password = .empty
  file_scheme : p.state = .file → p.result.scheme.text p.buf = cstr "file"

/-- The authority meets an at sign behind some text: this is where the username and
the password are recorded. -/
def AtUserinfo (p : UrlParser) : Prop :=
  p.state = .auth ∧ p.c = some '@'.toUInt8 ∧ (p.atSignSeen = true ∨ p.bufLen ≠ 0)

/-- What a turn leaves behind: the layout, the input, a state that is the same at the
next byte or a later one, and the finished components with their text. -/
structure TurnSpec (p p' : UrlParser) : Prop where
  layout : Layout p'
  input_eq : p'.input = p.input
  moves : (p'.state = p.state ∧ p'.pos = p.pos) ∨ p.state.rank < p'.state.rank
  userinfo : (p'.result.username = p.result.username ∧
    p'.result.password = p.result.password) ∨ AtUserinfo p
  scheme_eq : p'.result.scheme = p.result.scheme ∨ p.state = .scheme
  host_eq : p'.result.host = p.result.host ∨ p.state.rank < 12
  text_eq : p'.buf.take p.sliceStart = p.buf.take p.sliceStart

theorem TurnSpec.of_frame {p q p' : UrlParser} (h : TurnSpec q p') (hinput : q.input = p.input)
    (hpos : q.pos = p.pos) (hstate : q.state = p.state)
    (huser : q.result.username = p.result.username)
    (hpassword : q.result.password = p.result.password)
    (hscheme : q.result.scheme = p.result.scheme) (hhost : q.result.host = p.result.host)
    (hslice : p.sliceStart ≤ q.sliceStart)
    (htext : q.buf.take p.sliceStart = p.buf.take p.sliceStart)
    (hat : AtUserinfo q → AtUserinfo p) : TurnSpec p p' where
  layout := h.layout
  input_eq := h.input_eq.trans hinput
  moves := by rw [← hstate, ← hpos]; exact h.moves
  userinfo := by rw [← huser, ← hpassword]; exact h.userinfo.imp_right hat
  scheme_eq := by rw [← hscheme, ← hstate]; exact h.scheme_eq
  host_eq := by rw [← hhost, ← hstate]; exact h.host_eq
  text_eq := by
    have htake : ∀ l : List UInt8, l.take p.sliceStart = (l.take q.sliceStart).take p.sliceStart :=
      fun l => by rw [List.take_take, Nat.min_eq_left hslice]
    rw [htake p'.buf, h.text_eq, ← htake, htext]

/-- A turn returns, and its outcome satisfies `Q`. -/
def UrlTurn.Holds (t : UrlTurn) (Q : Option Error → UrlParser → Prop) : Prop :=
  ∃ err p, t = some (err, p) ∧ Q err p

theorem UrlTurn.Holds.imp {t : UrlTurn} {Q Q' : Option Error → UrlParser → Prop}
    (h : t.Holds Q) (himp : ∀ err p, Q err p → Q' err p) : t.Holds Q' := by
  obtain ⟨err, p, ht, hQ⟩ := h
  exact ⟨err, p, ht, himp err p hQ⟩

theorem UrlTurn.holds_some {Q : Option Error → UrlParser → Prop} {err : Option Error}
    {p : UrlParser} (h : Q err p) : UrlTurn.Holds (some (err, p)) Q :=
  ⟨err, p, rfl, h⟩

/-- An append either adds its bytes, which then fit, or only uses up an answer of
the allocator. -/
theorem UrlParser.append_cases (alloc : Alloc) (p : UrlParser) (bytes : List UInt8) :
    (p.buf.length + bytes.length < ptrdiffMax ∧
      p.append alloc bytes =
        (none, { p with buf := p.buf ++ bytes, allocs := p.allocs + 1 })) ∨
    p.append alloc bytes =
      (some (.fromCommon .memoryAllocationFailure), { p with allocs := p.allocs + 1 }) := by
  unfold UrlParser.append
  split
  · rename_i hok
    simp only [Bool.and_eq_true, decide_eq_true_eq] at hok
    exact .inl ⟨by omega, rfl⟩
  · exact .inr rfl

/-- To append and go on, `next` has to be right after the append, and a failed
append has to be right with the state set to `STATE_FAIL`. -/
theorem holds_appendOrFail {alloc : Alloc} {p : UrlParser} {bytes : List UInt8}
    {err : Option Error} {next : UrlParser → UrlTurn} {Q : Option Error → UrlParser → Prop}
    (hnext : p.buf.length + bytes.length < ptrdiffMax →
      UrlTurn.Holds (next { p with buf := p.buf ++ bytes, allocs := p.allocs + 1 }) Q)
    (hfail : ∀ e, Q (some e) { p with allocs := p.allocs + 1, state := .fail }) :
    UrlTurn.Holds (appendOrFail alloc p bytes err next) Q := by
  rcases UrlParser.append_cases alloc p bytes with ⟨hfit, happend⟩ | happend
  · simp only [appendOrFail, happend]
    exact hnext hfit
  · simp only [appendOrFail, happend, failWith]
    cases err <;> exact UrlTurn.holds_some (hfail _)

/-- The parser that encodes the user info again, into the buffer behind it. -/
def UrlParser.closeUserinfo (p : UrlParser) : UrlParser :=
  { p with
    atSignSeen := true
    sliceStart := p.buf.length
    result := { p.result with username := { p.result.username with start := p.bufLen } } }

/-- The path region after the text read so far has been added to it. -/
def UrlParser.extendedPath (p : UrlParser) : Region :=
  if p.result.path.len = 0 then ⟨p.sliceStart, p.bufLen⟩
  else ⟨p.result.path.start, p.result.path.len + p.bufLen⟩

namespace Buffered

variable {p : UrlParser}

theorem sliceStart_le_append {bytes : List UInt8} (h : Buffered p) :
    p.sliceStart ≤ (p.buf ++ bytes).length := by
  have := h.sliceStart_le
  simp only [List.length_append]
  omega

theorem take_append {bytes : List UInt8} (h : Buffered p) :
    (p.buf ++ bytes).take p.sliceStart = p.buf.take p.sliceStart :=
  List.take_append_of_le_length h.sliceStart_le

theorem slice_eq (h : Buffered p) : p.slice =
    some (⟨p.sliceStart, p.bufLen⟩, { p with sliceStart := p.buf.length }) := by
  simp [UrlParser.slice, UrlParser.bufRegion, UrlParser.bufLen, h.sliceStart_le]

theorem bufRegion_eq (h : Buffered p) : p.bufRegion = some ⟨p.sliceStart, p.bufLen⟩ := by
  simp [UrlParser.bufRegion, UrlParser.bufLen, h.sliceStart_le]

theorem bufLen_le (h : Buffered p) : p.bufLen ≤ ptrdiffMax :=
  (Nat.sub_le _ _).trans h.buf_lt.le

theorem stop_buf (h : Buffered p) : (Region.mk p.sliceStart p.bufLen).stop = p.buf.length := by
  have := h.sliceStart_le
  simp only [Region.stop, UrlParser.bufLen]
  omega

theorem sliceToRegion_eq (h : Buffered p) :
    sliceToRegion ⟨p.sliceStart, p.bufLen⟩ = some ⟨p.sliceStart, p.bufLen⟩ := by
  simp [sliceToRegion, h.bufLen_le]

theorem takeHost_eq (h : Buffered p) : takeHost p =
    some { p with
      sliceStart := p.buf.length
      result := { p.result with host := ⟨p.sliceStart, p.bufLen⟩, hostNull := false } } := by
  simp [takeHost, h.slice_eq, h.sliceToRegion_eq]

theorem takePath_eq (h : Buffered p) : takePath p =
    some { p with
      sliceStart := p.buf.length
      result := { p.result with path := ⟨p.sliceStart, p.bufLen⟩ } } := by
  simp [takePath, h.slice_eq, h.sliceToRegion_eq]

theorem takeQuery_eq (h : Buffered p) : takeQuery p =
    some { p with
      sliceStart := p.buf.length
      result := { p.result with query := ⟨p.sliceStart, p.bufLen⟩, queryNull := false } } := by
  simp [takeQuery, h.slice_eq, h.sliceToRegion_eq]

theorem takeFragment_eq (h : Buffered p) : takeFragment p =
    some { p with
      sliceStart := p.buf.length
      result := { p.result with
        fragment := ⟨p.sliceStart, p.bufLen⟩, fragmentNull := false } } := by
  simp [takeFragment, h.slice_eq, h.sliceToRegion_eq]

theorem extendPath_eq (h : Buffered p) : extendPath p =
    some { p with
      sliceStart := p.buf.length
      result := { p.result with path := p.extendedPath } } := by
  by_cases hlen : p.result.path.len = 0
  · simp [extendPath, h.slice_eq, h.sliceToRegion_eq, UrlParser.extendedPath, hlen]
  · simp [extendPath, h.slice_eq, UrlParser.extendedPath, hlen]

/-- The at sign closes the text in front of it and encodes it again. -/
theorem urlParserAuthAt_eq (h : Buffered p) (alloc : Alloc) (err : Option Error) :
    urlParserAuthAt alloc err p =
      match encodeUserinfo alloc ((Region.mk p.sliceStart p.bufLen).text p.buf) p.closeUserinfo with
      | (some encodeErr, q) => failWith encodeErr err q
      | (none, q) => some (err, q) := by
  have hslice : UrlParser.slice { p with atSignSeen := true } =
      some (⟨p.sliceStart, p.bufLen⟩,
        { p with atSignSeen := true, sliceStart := p.buf.length }) := by
    simp [UrlParser.slice, UrlParser.bufRegion, UrlParser.bufLen, h.sliceStart_le]
  simp only [urlParserAuthAt, hslice, h.sliceToRegion_eq, Option.bind_eq_bind, Option.bind_some]
  rfl

end Buffered

namespace Layout

variable {p q : UrlParser}

/-- A turn that records nothing: the buffer may change behind `slice_start`, and the
state is the same or a later one. -/
theorem move (h : Layout p) (hbuf : p.sliceStart ≤ q.buf.length)
    (hfit : q.buf.length < ptrdiffMax) (hslice : q.sliceStart = p.sliceStart)
    (hresult : q.result = p.result) (hat : q.atSignSeen = p.atSignSeen)
    (htext : q.buf.take p.sliceStart = p.buf.take p.sliceStart)
    (hfile : q.state = .file → p.state = .file)
    (hrank : p.state.rank ≤ q.state.rank) : Layout q where
  sliceStart_le := by rw [hslice]; exact hbuf
  buf_lt := hfit
  scheme_le := by rw [hslice, hresult]; exact h.scheme_le
  host_le := by rw [hslice, hresult]; exact h.host_le
  path_le := by rw [hslice, hresult]; exact h.path_le
  query_le := by rw [hslice, hresult]; exact h.query_le
  fragment_le := by rw [hslice, hresult]; exact h.fragment_le
  userinfo_le := by rw [hslice, hresult]; exact h.userinfo_le
  early := fun hq => by rw [hslice, hresult]; exact h.early (hrank.trans hq)
  path_empty := fun hq => by rw [hresult]; exact h.path_empty (lt_of_le_of_lt hrank hq)
  path_adjacent := by
    intro hq hne
    rw [hresult] at hne
    rw [hslice, hresult]
    rcases lt_or_eq_of_le (show p.state.rank ≤ 13 by simpa [hq, UrlParserState.rank] using hrank)
      with hlt | heq
    · exact absurd (h.path_empty hlt) hne
    · exact h.path_adjacent (UrlParserState.eq_path_of_rank heq) hne
  userinfo_empty := by rw [hat, hresult]; exact h.userinfo_empty
  file_scheme := by
    intro hq
    rw [hresult, ← h.file_scheme (hfile hq)]
    exact Region.text_congr htext h.scheme_le

/-- A turn that closes the text read so far: every region that is not the path may
be anything up to the end of the buffer. -/
theorem close (h : Layout p) (hbuf : q.buf = p.buf) (hslice : q.sliceStart = p.buf.length)
    (hscheme : q.result.scheme.stop ≤ p.buf.length) (hhost : q.result.host.stop ≤ p.buf.length)
    (hpath : q.result.path.stop ≤ p.buf.length) (hquery : q.result.query.stop ≤ p.buf.length)
    (hfragment : q.result.fragment.stop ≤ p.buf.length)
    (huser : q.result.username = p.result.username)
    (hpassword : q.result.password = p.result.password) (hat : q.atSignSeen = p.atSignSeen)
    (hrank : 1 < q.state.rank)
    (hempty : q.state.rank < 13 → q.result.path.len = 0)
    (hadjacent : q.state = .path → q.result.path.len ≠ 0 →
      q.result.path.stop = p.buf.length)
    (hfile : q.state = .file → q.result.scheme.text q.buf = cstr "file") : Layout q where
  sliceStart_le := by rw [hslice, hbuf]
  buf_lt := by rw [hbuf]; exact h.buf_lt
  scheme_le := by rw [hslice]; exact hscheme
  host_le := by rw [hslice]; exact hhost
  path_le := by rw [hslice]; exact hpath
  query_le := by rw [hslice]; exact hquery
  fragment_le := by rw [hslice]; exact hfragment
  userinfo_le := by rw [hslice, huser, hpassword]; exact h.userinfo_le.trans h.sliceStart_le
  early := fun hq => absurd hrank (Nat.not_lt.mpr hq)
  path_empty := hempty
  path_adjacent := fun hq hne => by rw [hslice]; exact hadjacent hq hne
  userinfo_empty := by rw [hat, huser, hpassword]; exact h.userinfo_empty
  file_scheme := hfile

theorem scheme_le' (h : Layout p) : p.result.scheme.stop ≤ p.buf.length :=
  h.scheme_le.trans h.sliceStart_le

theorem host_le' (h : Layout p) : p.result.host.stop ≤ p.buf.length :=
  h.host_le.trans h.sliceStart_le

theorem path_le' (h : Layout p) : p.result.path.stop ≤ p.buf.length :=
  h.path_le.trans h.sliceStart_le

theorem query_le' (h : Layout p) : p.result.query.stop ≤ p.buf.length :=
  h.query_le.trans h.sliceStart_le

theorem fragment_le' (h : Layout p) : p.result.fragment.stop ≤ p.buf.length :=
  h.fragment_le.trans h.sliceStart_le

theorem scheme_slice_eq (h : Layout p) :
    regionToSlice p.buf p.result.scheme = some (p.result.scheme.text p.buf) := by
  have hlen : p.result.scheme.len ≤ ptrdiffMax := by
    have h1 := h.scheme_le'
    have h2 := h.buf_lt
    simp only [Region.stop] at h1
    omega
  simp [regionToSlice, hlen]

/-- In the path state the extended path ends where the buffer ends. -/
theorem stop_extendedPath (h : Layout p) (hstate : p.state = .path) :
    p.extendedPath.stop = p.buf.length := by
  unfold UrlParser.extendedPath
  split
  · exact h.stop_buf
  · rename_i hne
    have hadj := h.path_adjacent hstate hne
    have hle := h.sliceStart_le
    simp only [Region.stop, UrlParser.bufLen] at hadj ⊢
    omega

theorem turn_move (h : Layout p) (hbuf : p.sliceStart ≤ q.buf.length)
    (hfit : q.buf.length < ptrdiffMax) (hslice : q.sliceStart = p.sliceStart)
    (hresult : q.result = p.result) (hat : q.atSignSeen = p.atSignSeen)
    (hinput : q.input = p.input) (htext : q.buf.take p.sliceStart = p.buf.take p.sliceStart)
    (hmoves : (q.state = p.state ∧ q.pos = p.pos) ∨
      (p.state.rank < q.state.rank ∧ q.state ≠ .file)) :
    TurnSpec p q where
  layout := by
    rcases hmoves with ⟨hstate, _⟩ | ⟨hlt, hfile⟩
    · exact h.move hbuf hfit hslice hresult hat htext (fun hq => hstate ▸ hq) (by rw [hstate])
    · exact h.move hbuf hfit hslice hresult hat htext (fun hq => absurd hq hfile) hlt.le
  input_eq := hinput
  moves := hmoves.imp_right And.left
  userinfo := .inl ⟨by rw [hresult], by rw [hresult]⟩
  scheme_eq := .inl (by rw [hresult])
  host_eq := .inl (by rw [hresult])
  text_eq := htext

theorem turn_goto (h : Layout p) (s : UrlParserState) (pos : UInt64)
    (hrank : p.state.rank < s.rank ∧ s ≠ .file) : TurnSpec p { p with state := s, pos := pos } :=
  h.turn_move h.sliceStart_le h.buf_lt rfl rfl rfl rfl rfl (.inr hrank)

theorem turn_fail (h : Layout p) (hstate : p.state ≠ .fail) :
    TurnSpec p { p with state := .fail } := by
  refine h.turn_move h.sliceStart_le h.buf_lt rfl rfl rfl rfl rfl (.inr ⟨?_, by simp⟩)
  cases hs : p.state <;> simp [UrlParserState.rank, hs] at hstate ⊢

theorem turn_append_fail (h : Layout p) (hstate : p.state ≠ .fail) :
    TurnSpec p { p with allocs := p.allocs + 1, state := .fail } := by
  refine h.turn_move h.sliceStart_le h.buf_lt rfl rfl rfl rfl rfl (.inr ⟨?_, by simp⟩)
  cases hs : p.state <;> simp [UrlParserState.rank, hs] at hstate ⊢

theorem holds_append (h : Layout p) (hstate : p.state ≠ .fail) (alloc : Alloc)
    (bytes : List UInt8) (err err' : Option Error) :
    UrlTurn.Holds (appendOrFail alloc p bytes err fun p => some (err', p))
      (fun _ => TurnSpec p) :=
  holds_appendOrFail
    (fun hfit => UrlTurn.holds_some (h.turn_move h.sliceStart_le_append (by simpa using hfit)
      rfl rfl rfl rfl h.take_append (.inl ⟨rfl, rfl⟩)))
    (fun _ => h.turn_append_fail hstate)

end Layout

/-! ## The states keep the layout -/

section States

variable {alloc : Alloc} {p : UrlParser}

theorem turnSpec_schemeStart (h : Layout p) (hstate : p.state = .schemeStart) :
    UrlTurn.Holds (urlParserSchemeStart alloc p) (fun _ => TurnSpec p) := by
  have hfail : p.state ≠ .fail := by simp [hstate]
  unfold urlParserSchemeStart
  split
  · split
    · exact holds_appendOrFail
        (fun hfit => UrlTurn.holds_some (h.turn_move h.sliceStart_le_append
          (by simpa using hfit) rfl rfl rfl rfl h.take_append
          (.inr (by simp [hstate, UrlParserState.rank]))))
        (fun _ => h.turn_append_fail hfail)
    · exact UrlTurn.holds_some (h.turn_goto _ _ (by simp [hstate, UrlParserState.rank]))
  · exact UrlTurn.holds_some (h.turn_goto _ _ (by simp [hstate, UrlParserState.rank]))

theorem turnSpec_schemeEnd (h : Layout p) (hstate : p.state = .scheme) :
    UrlTurn.Holds (urlParserSchemeEnd p) (fun _ => TurnSpec p) := by
  obtain ⟨hslice, hresult⟩ := h.early (by simp [hstate, UrlParserState.rank])
  have hregion : regionToSlice p.buf ⟨p.sliceStart, p.bufLen⟩ =
      some ((Region.mk p.sliceStart p.bufLen).text p.buf) := by
    simp [regionToSlice, h.bufLen_le]
  have hspec : ∀ (s : UrlParserState) (pos : UInt64) (special : Bool), 1 < s.rank →
      (s = .file → (Region.mk p.sliceStart p.bufLen).text p.buf = cstr "file") →
      TurnSpec p { p with
        sliceStart := p.buf.length
        result := { p.result with scheme := ⟨p.sliceStart, p.bufLen⟩ }
        special := special
        state := s
        pos := pos } := by
    intro s pos special hs hfile
    refine ⟨h.close rfl rfl h.stop_buf.le h.host_le' h.path_le' h.query_le' h.fragment_le' rfl
      rfl rfl hs ?_ ?_ hfile, rfl, .inr (by simpa [hstate, UrlParserState.rank] using hs),
      .inl ⟨rfl, rfl⟩, .inr hstate, .inl rfl, rfl⟩
    · intro _
      simp [hresult, UrlRegion.initial, Region.empty]
    · intro _ hne
      simp [hresult, UrlRegion.initial, Region.empty] at hne
  simp only [urlParserSchemeEnd, h.slice_eq, h.sliceToRegion_eq, hregion, Option.bind_eq_bind,
    Option.bind_some]
  split
  · rename_i hfile
    exact UrlTurn.holds_some (hspec _ _ _ (by simp [UrlParserState.rank]) fun _ => hfile)
  · split
    · exact UrlTurn.holds_some (hspec _ _ _ (by simp [UrlParserState.rank]) (by simp))
    · split
      · exact UrlTurn.holds_some (hspec _ _ _ (by simp [UrlParserState.rank]) (by simp))
      · exact UrlTurn.holds_some (hspec _ _ _ (by simp [UrlParserState.rank]) (by simp))

theorem turnSpec_scheme (h : Layout p) (hstate : p.state = .scheme) :
    UrlTurn.Holds (urlParserScheme alloc p) (fun _ => TurnSpec p) := by
  have hfail : p.state ≠ .fail := by simp [hstate]
  obtain ⟨hslice, hresult⟩ := h.early (by simp [hstate, UrlParserState.rank])
  -- clearing the buffer is harmless because nothing has been recorded yet
  have hclear : TurnSpec p { p with buf := [], state := .noScheme, pos := 0 } := by
    refine ⟨⟨⟨?_, ?_⟩, ?_, ?_, ?_, ?_, ?_, ?_, ?_, ?_, ?_, ?_, by simp⟩, rfl, .inr ?_,
      .inl ⟨rfl, rfl⟩, .inl rfl, .inl rfl, by simp [hslice]⟩
    · simp [hslice]
    · simp [ptrdiffMax]
    · exact h.scheme_le
    · exact h.host_le
    · exact h.path_le
    · exact h.query_le
    · exact h.fragment_le
    · exact h.userinfo_le
    · intro hrank
      simp [UrlParserState.rank] at hrank
    · intro _
      simp [hresult, UrlRegion.initial, Region.empty]
    · intro hpath
      simp at hpath
    · exact h.userinfo_empty
    · simp [hstate, UrlParserState.rank]
  unfold urlParserScheme
  split
  · split
    · exact h.holds_append hfail _ _ _ _
    · split
      · exact turnSpec_schemeEnd h hstate
      · exact UrlTurn.holds_some hclear
  · exact UrlTurn.holds_some hclear

theorem turnSpec_noScheme (h : Layout p) (hstate : p.state = .noScheme) :
    UrlTurn.Holds (urlParserNoScheme p) (fun _ => TurnSpec p) :=
  UrlTurn.holds_some (h.turn_fail (by simp [hstate]))

theorem turnSpec_pathOrAuth (h : Layout p) (hstate : p.state = .pathOrAuth) :
    UrlTurn.Holds (urlParserPathOrAuth p) (fun _ => TurnSpec p) := by
  unfold urlParserPathOrAuth
  split
  · exact UrlTurn.holds_some (h.turn_goto _ _ (by simp [hstate, UrlParserState.rank]))
  · exact UrlTurn.holds_some (h.turn_goto _ _ (by simp [hstate, UrlParserState.rank]))

theorem turnSpec_specAuthSlash (h : Layout p) (hstate : p.state = .specAuthSlash) :
    UrlTurn.Holds (urlParserSpecAuthSlash p) (fun _ => TurnSpec p) := by
  unfold urlParserSpecAuthSlash
  split
  · exact UrlTurn.holds_some (h.turn_goto _ _ (by simp [hstate, UrlParserState.rank]))
  · exact UrlTurn.holds_some (h.turn_goto _ _ (by simp [hstate, UrlParserState.rank]))

theorem turnSpec_specAuthIgnoreSlash (h : Layout p) (hstate : p.state = .specAuthIgnoreSlash) :
    UrlTurn.Holds (urlParserSpecAuthIgnoreSlash p) (fun _ => TurnSpec p) := by
  unfold urlParserSpecAuthIgnoreSlash
  split
  · exact UrlTurn.holds_some (h.turn_goto _ _ (by simp [hstate, UrlParserState.rank]))
  · exact UrlTurn.holds_some (h.turn_move h.sliceStart_le h.buf_lt rfl rfl rfl rfl rfl
      (.inl ⟨rfl, rfl⟩))

theorem countUserinfo_eq (p : UrlParser) : ∃ user password,
    p.countUserinfo =
      { p with result := { p.result with username := user, password := password } } ∧
    user.len + password.len = p.result.username.len + p.result.password.len + 1 := by
  unfold UrlParser.countUserinfo
  split
  · exact ⟨_, _, rfl, by simp only; omega⟩
  · exact ⟨_, _, rfl, by simp only; omega⟩

/-- Re-encoding the user info appends to the buffer and counts at most one byte of
the username or the password for each byte it reads. -/
theorem encodeUserinfo_spec (alloc : Alloc) (rest : List UInt8) (p : UrlParser)
    (hfit : p.buf.length < ptrdiffMax) :
    ∃ err bytes seen user password allocs,
      encodeUserinfo alloc rest p = (err, { p with
        buf := p.buf ++ bytes
        passwordTokenSeen := seen
        allocs := allocs
        result := { p.result with username := user, password := password } }) ∧
      (p.buf ++ bytes).length < ptrdiffMax ∧
      user.len + password.len ≤
        p.result.username.len + p.result.password.len + rest.length ∧
      (rest = [] → user = p.result.username ∧ password = p.result.password) := by
  induction rest generalizing p with
  | nil =>
      exact ⟨none, [], p.passwordTokenSeen, p.result.username, p.result.password, p.allocs,
        by simp [encodeUserinfo], by simpa using hfit, by simp, fun _ => ⟨rfl, rfl⟩⟩
  | cons c rest ih =>
      by_cases hcolon : (c = ':'.toUInt8 && !p.passwordTokenSeen) = true
      · obtain ⟨err, bytes, seen, user, password, allocs, heq, hlt, hlen, _⟩ := ih { p with
          passwordTokenSeen := true
          result := { p.result with
            password := { p.result.password with start := p.buf.length } } } hfit
        refine ⟨err, bytes, seen, user, password, allocs, ?_, hlt, ?_, by simp⟩
        · rw [encodeUserinfo, if_pos hcolon, heq]
        · simp only [List.length_cons] at hlen ⊢
          omega
      · rw [encodeUserinfo, if_neg hcolon]
        rcases UrlParser.append_cases alloc p (percentEncode .userinfo c) with
          ⟨hbytes, happend⟩ | happend
        · simp only [happend]
          obtain ⟨user, password, hcount, hcountLen⟩ := countUserinfo_eq { p with
            buf := p.buf ++ percentEncode .userinfo c, allocs := p.allocs + 1 }
          rw [hcount]
          obtain ⟨err, bytes, seen, user', password', allocs, heq, hlt, hlen, _⟩ := ih { p with
            buf := p.buf ++ percentEncode .userinfo c
            allocs := p.allocs + 1
            result := { p.result with username := user, password := password } }
            (by simpa using hbytes)
          refine ⟨err, percentEncode .userinfo c ++ bytes, seen, user', password', allocs, ?_, ?_,
            ?_, by simp⟩
          · rw [heq, List.append_assoc]
          · simpa using hlt
          · simp only [List.length_cons] at hcountLen hlen ⊢
            omega
        · simp only [happend]
          exact ⟨some (.fromCommon .memoryAllocationFailure), [], p.passwordTokenSeen,
            p.result.username, p.result.password, p.allocs + 1, by simp, by simpa using hfit,
            by simp, by simp⟩

/-- After an at sign the username and the password are bounded by the text in front
of it, which is closed. -/
theorem turnSpec_authAt (h : Layout p) (hstate : p.state = .auth)
    (hc : p.c = some '@'.toUInt8) (err : Option Error) :
    UrlTurn.Holds (urlParserAuthAt alloc err p) (fun _ => TurnSpec p) := by
  rw [h.urlParserAuthAt_eq]
  obtain ⟨encodeErr, bytes, seen, user, password, allocs, heq, hlt, hlen, hnil⟩ :=
    encodeUserinfo_spec alloc ((Region.mk p.sliceStart p.bufLen).text p.buf)
      p.closeUserinfo h.buf_lt
  have htext : ((Region.mk p.sliceStart p.bufLen).text p.buf).length ≤ p.bufLen := by
    simp [Region.text, UrlParser.bufLen]
  have hle : user.len + password.len ≤ p.buf.length := by
    have h1 := h.userinfo_le
    have h2 := h.stop_buf
    simp only [Region.stop] at h2
    simp only [UrlParser.closeUserinfo] at hlen
    omega
  have huser : (user = p.result.username ∧ password = p.result.password) ∨ AtUserinfo p := by
    by_cases hat : p.atSignSeen = true ∨ p.bufLen ≠ 0
    · exact .inr ⟨hstate, hc, hat⟩
    · simp only [not_or, Bool.not_eq_true, not_not] at hat
      obtain ⟨husername, hpassword⟩ := h.userinfo_empty hat.1
      obtain ⟨rfl, rfl⟩ := hnil (by simp [Region.text, hat.2])
      exact .inl ⟨by simp [UrlParser.closeUserinfo, husername, hat.2, Region.empty], rfl⟩
  have hspec : ∀ s : UrlParserState, s = .auth ∨ s = .fail → TurnSpec p { p with
      atSignSeen := true
      sliceStart := p.buf.length
      buf := p.buf ++ bytes
      passwordTokenSeen := seen
      allocs := allocs
      state := s
      result := { p.result with username := user, password := password } } := by
    intro s hs
    have hempty := h.path_empty (by simp [hstate, UrlParserState.rank])
    refine ⟨⟨⟨?_, hlt⟩, h.scheme_le', h.host_le', h.path_le', h.query_le', h.fragment_le', hle, ?_,
      fun _ => hempty, fun _ hne => absurd hempty hne, by simp, ?_⟩, rfl, ?_,
      huser, .inl rfl, .inl rfl, h.take_append⟩
    · simp
    · rcases hs with rfl | rfl <;> simp [UrlParserState.rank]
    · rcases hs with rfl | rfl <;> simp
    · rcases hs with rfl | rfl <;> simp [UrlParserState.rank, hstate]
  rw [heq]
  cases encodeErr with
  | none =>
      have h1 := hspec p.state (.inl hstate)
      exact UrlTurn.holds_some h1
  | some e =>
      simp only [failWith]
      cases err <;> exact UrlTurn.holds_some (hspec .fail (.inr rfl))

theorem turnSpec_authEnd (h : Layout p) (hstate : p.state = .auth) :
    UrlTurn.Holds (urlParserAuthEnd p) (fun _ => TurnSpec p) := by
  unfold urlParserAuthEnd
  split
  · exact UrlTurn.holds_some (h.turn_fail (by simp [hstate]))
  · simp only [h.slice_eq, Option.bind_eq_bind, Option.bind_some]
    have hlen : (p.buf.take (p.buf.length - p.bufLen)).length = p.sliceStart := by
      have := h.sliceStart_le
      simp only [UrlParser.bufLen, List.length_take]
      omega
    have hlt : p.sliceStart < ptrdiffMax := lt_of_le_of_lt h.sliceStart_le h.buf_lt
    have htext : (p.buf.take (p.buf.length - p.bufLen)).take p.sliceStart =
        p.buf.take p.sliceStart := by
      rw [List.take_take, List.length_take] at *
      congr 1
      omega
    exact UrlTurn.holds_some (h.turn_move (by rw [hlen]) (by rw [hlen]; exact hlt) hlen rfl rfl
      rfl htext (.inr (by simp [hstate, UrlParserState.rank])))

theorem turnSpec_auth (h : Layout p) (hstate : p.state = .auth) :
    UrlTurn.Holds (urlParserAuth alloc p) (fun _ => TurnSpec p) := by
  have hfail : p.state ≠ .fail := by simp [hstate]
  unfold urlParserAuth
  split
  · rename_i hc
    dsimp only
    split
    · rename_i hseen
      refine holds_appendOrFail (fun hfit => ?_) (fun _ => h.turn_append_fail hfail)
      have hmove : Layout { p with buf := p.buf ++ cstr "%40", allocs := p.allocs + 1 } :=
        h.move h.sliceStart_le_append (by simpa using hfit) rfl rfl rfl h.take_append id le_rfl
      exact (turnSpec_authAt hmove hstate hc _).imp fun _ _ hspec =>
        hspec.of_frame rfl rfl rfl rfl rfl rfl rfl le_rfl h.take_append
          fun _ => ⟨hstate, hc, .inl hseen⟩
    · exact turnSpec_authAt h hstate hc _
  · split
    · exact turnSpec_authEnd h hstate
    · split
      · exact h.holds_append hfail _ _ _ _
      · rename_i hdelim _ hc
        simp [hc, isDelimiter] at hdelim

theorem turnSpec_takeHost (h : Layout p) (hrank : p.state.rank < 12) (s : UrlParserState)
    (pos : UInt64) (hs : p.state.rank < s.rank) (hs1 : 1 < s.rank) (hfile : s ≠ .file) :
    TurnSpec p { p with
      sliceStart := p.buf.length
      result := { p.result with host := ⟨p.sliceStart, p.bufLen⟩, hostNull := false }
      state := s
      pos := pos } := by
  have hempty := h.path_empty (by omega)
  exact ⟨h.close rfl rfl h.scheme_le' h.stop_buf.le h.path_le' h.query_le' h.fragment_le' rfl rfl
    rfl hs1 (fun _ => hempty) (fun _ hne => absurd hempty hne) (fun hq => absurd hq hfile), rfl,
    .inr hs, .inl ⟨rfl, rfl⟩, .inl rfl, .inr hrank, rfl⟩

theorem turnSpec_host (h : Layout p) (hstate : p.state = .host) :
    UrlTurn.Holds (urlParserHost alloc p) (fun _ => TurnSpec p) := by
  have hfail : p.state ≠ .fail := by simp [hstate]
  have hpos : Layout { p with pos := p.pos - 1 } :=
    h.move h.sliceStart_le h.buf_lt rfl rfl rfl rfl id le_rfl
  unfold urlParserHost
  split
  · split
    · exact UrlTurn.holds_some (h.turn_fail hfail)
    · simp only [h.takeHost_eq, Option.bind_eq_bind, Option.bind_some]
      exact UrlTurn.holds_some (turnSpec_takeHost h (by simp [hstate, UrlParserState.rank]) _ _
        (by simp [hstate, UrlParserState.rank]) (by simp [UrlParserState.rank]) (by simp))
  · split
    · dsimp only
      split
      · exact UrlTurn.holds_some (h.turn_goto _ _ (by simp [hstate, UrlParserState.rank]))
      · simp only [hpos.takeHost_eq, Option.bind_eq_bind, Option.bind_some]
        exact UrlTurn.holds_some (turnSpec_takeHost h (by simp [hstate, UrlParserState.rank]) _ _
          (by simp [hstate, UrlParserState.rank]) (by simp [UrlParserState.rank]) (by simp))
    · split
      · dsimp only
        exact holds_appendOrFail
          (fun hfit => UrlTurn.holds_some (h.turn_move h.sliceStart_le_append
            (by simpa using hfit) rfl rfl rfl rfl h.take_append (.inl ⟨rfl, rfl⟩)))
          (fun _ => h.turn_move h.sliceStart_le h.buf_lt rfl rfl rfl rfl rfl
            (.inr (by simp [hstate, UrlParserState.rank])))
      · rename_i hdelim _ hc
        simp [hc, isDelimiter] at hdelim

theorem turnSpec_portEnd (h : Layout p) (hstate : p.state = .port) :
    UrlTurn.Holds (urlParserPortEnd p) (fun _ => TurnSpec p) := by
  have hempty := h.path_empty (by simp [hstate, UrlParserState.rank])
  have hspec : ∀ (s : UrlParserState) (pos : UInt64) (port : UInt16) (portNull : Bool),
      9 < s.rank → TurnSpec p { p with
        sliceStart := p.buf.length
        result := { p.result with port := port, portNull := portNull }
        state := s
        pos := pos } := by
    intro s pos port portNull hs
    refine ⟨h.close rfl rfl h.scheme_le' h.host_le' h.path_le' h.query_le' h.fragment_le' rfl rfl
      rfl (lt_trans (by decide) hs) (fun _ => hempty) (fun _ hne => absurd hempty hne) ?_, rfl,
      .inr ?_, .inl ⟨rfl, rfl⟩, .inl rfl, .inl rfl, rfl⟩
    · rintro rfl
      simp [UrlParserState.rank] at hs
    · have hport : p.state.rank = 8 := by simp [hstate, UrlParserState.rank]
      simp only [hport]
      omega
  unfold urlParserPortEnd
  split
  · simp only [urlParserPortValue, h.slice_eq, Option.bind_eq_bind, Option.bind_some]
    split
    · exact UrlTurn.holds_some (hspec .fail p.pos p.result.port p.result.portNull
        (by simp [UrlParserState.rank]))
    · exact UrlTurn.holds_some (hspec .pathStart (p.pos - 1) _ false
        (by simp [UrlParserState.rank]))
  · exact UrlTurn.holds_some (h.turn_goto _ _ (by simp [hstate, UrlParserState.rank]))

theorem turnSpec_port (h : Layout p) (hstate : p.state = .port) :
    UrlTurn.Holds (urlParserPort alloc p) (fun _ => TurnSpec p) := by
  have hfail : p.state ≠ .fail := by simp [hstate]
  unfold urlParserPort
  split
  · split
    · exact h.holds_append hfail _ _ _ _
    · split
      · exact turnSpec_portEnd h hstate
      · exact UrlTurn.holds_some (h.turn_fail hfail)
  · exact turnSpec_portEnd h hstate

theorem turnSpec_emptyHost (h : Layout p) (hstart : 0 < p.state.rank) (hrank : p.state.rank < 12)
    (s : UrlParserState) (pos : UInt64) (hs : p.state.rank < s.rank ∧ s ≠ .file) :
    TurnSpec p { p with
      result := { p.result with host := .empty, hostNull := false }
      state := s
      pos := pos } := by
  have hempty := h.path_empty (by omega)
  refine ⟨⟨⟨h.sliceStart_le, h.buf_lt⟩, h.scheme_le, by simp, h.path_le, h.query_le,
    h.fragment_le, h.userinfo_le, fun hearly => ?_, fun _ => hempty,
    fun _ hne => absurd hempty hne, h.userinfo_empty, fun hq => absurd hq hs.2⟩, rfl, .inr hs.1,
    .inl ⟨rfl, rfl⟩, .inl rfl, .inr hrank, rfl⟩
  have hlt := hs.1
  simp only at hearly
  omega

theorem turnSpec_fileNext (h : Layout p) (hstate : p.state = .file) :
    UrlTurn.Holds (urlParserFileNext p) (fun _ => TurnSpec p) := by
  unfold urlParserFileNext failBackslash
  dsimp only
  split
  · exact UrlTurn.holds_some (turnSpec_emptyHost h (by simp [hstate, UrlParserState.rank])
      (by simp [hstate, UrlParserState.rank]) _ _ (by simp [hstate, UrlParserState.rank]))
  · split
    · exact UrlTurn.holds_some (turnSpec_emptyHost h (by simp [hstate, UrlParserState.rank])
        (by simp [hstate, UrlParserState.rank]) _ _ (by simp [hstate, UrlParserState.rank]))
    · exact UrlTurn.holds_some (turnSpec_emptyHost h (by simp [hstate, UrlParserState.rank])
        (by simp [hstate, UrlParserState.rank]) _ _ (by simp [hstate, UrlParserState.rank]))

theorem turnSpec_file (h : Layout p) (hstate : p.state = .file) :
    UrlTurn.Holds (urlParserFile alloc p) (fun _ => TurnSpec p) := by
  simp only [urlParserFile, h.scheme_slice_eq, h.file_scheme hstate, Option.bind_eq_bind,
    Option.bind_some, ne_eq, not_true_eq_false, if_false]
  exact turnSpec_fileNext h hstate

theorem turnSpec_fileSlash (h : Layout p) (hstate : p.state = .fileSlash) :
    UrlTurn.Holds (urlParserFileSlash p) (fun _ => TurnSpec p) := by
  unfold urlParserFileSlash failBackslash
  split
  · exact UrlTurn.holds_some (h.turn_fail (by simp [hstate]))
  · split
    · exact UrlTurn.holds_some (h.turn_goto _ _ (by simp [hstate, UrlParserState.rank]))
    · exact UrlTurn.holds_some (h.turn_goto _ _ (by simp [hstate, UrlParserState.rank]))

theorem turnSpec_fileHost (h : Layout p) (hstate : p.state = .fileHost) :
    UrlTurn.Holds (urlParserFileHost alloc p) (fun _ => TurnSpec p) := by
  have hpos : Layout { p with pos := p.pos - 1 } :=
    h.move h.sliceStart_le h.buf_lt rfl rfl rfl rfl id le_rfl
  unfold urlParserFileHost
  split
  · simp only [hpos.bufRegion_eq, Option.bind_eq_bind, Option.bind_some]
    split
    · exact UrlTurn.holds_some (h.turn_goto _ _ (by simp [hstate, UrlParserState.rank]))
    · split
      · exact UrlTurn.holds_some (turnSpec_emptyHost h (by simp [hstate, UrlParserState.rank])
          (by simp [hstate, UrlParserState.rank]) _ _ (by simp [hstate, UrlParserState.rank]))
      · simp only [hpos.takeHost_eq, Option.bind_some]
        exact UrlTurn.holds_some (turnSpec_takeHost h (by simp [hstate, UrlParserState.rank]) _ _
          (by simp [hstate, UrlParserState.rank]) (by simp [UrlParserState.rank]) (by simp))
  · split
    · exact h.holds_append (by simp [hstate]) _ _ _ _
    · rename_i hdelim _ hc
      simp [hc, isDelimiter] at hdelim

theorem turnSpec_startQuery (h : Layout p) (hrank : p.state.rank < 15) :
    TurnSpec p (startQuery p) :=
  ⟨⟨⟨h.sliceStart_le, h.buf_lt⟩, h.scheme_le, h.host_le, h.path_le, by simp [startQuery],
    h.fragment_le, h.userinfo_le, by simp [startQuery, UrlParserState.rank],
    by simp [startQuery, UrlParserState.rank], by simp [startQuery], h.userinfo_empty,
    by simp [startQuery]⟩, rfl, .inr hrank, .inl ⟨rfl, rfl⟩, .inl rfl, .inl rfl, rfl⟩

theorem turnSpec_startFragment (h : Layout p) (hrank : p.state.rank < 16) :
    TurnSpec p (startFragment p) :=
  ⟨⟨⟨h.sliceStart_le, h.buf_lt⟩, h.scheme_le, h.host_le, h.path_le, h.query_le,
    by simp [startFragment], h.userinfo_le, by simp [startFragment, UrlParserState.rank],
    by simp [startFragment, UrlParserState.rank], by simp [startFragment], h.userinfo_empty,
    by simp [startFragment]⟩, rfl, .inr hrank, .inl ⟨rfl, rfl⟩, .inl rfl, .inl rfl, rfl⟩

theorem turnSpec_pathStart (h : Layout p) (hstate : p.state = .pathStart) :
    UrlTurn.Holds (urlParserPathStart p) (fun _ => TurnSpec p) := by
  have hrank : p.state.rank = 12 := by simp [hstate, UrlParserState.rank]
  have hgoto : ∀ pos : UInt64, TurnSpec p { p with state := .path, pos := pos } :=
    fun pos => h.turn_goto _ _ (by simp [hstate, UrlParserState.rank])
  unfold urlParserPathStart
  dsimp only
  split
  · split
    · exact UrlTurn.holds_some (hgoto _)
    · exact UrlTurn.holds_some (hgoto _)
  · split
    · exact UrlTurn.holds_some (turnSpec_startQuery h (by omega))
    · split
      · exact UrlTurn.holds_some (turnSpec_startFragment h (by omega))
      · split
        · split
          · exact UrlTurn.holds_some (hgoto _)
          · exact UrlTurn.holds_some (hgoto _)
        · exact UrlTurn.holds_some (h.turn_move h.sliceStart_le h.buf_lt rfl rfl rfl rfl rfl
            (.inl ⟨rfl, rfl⟩))

/-- The last byte of a drive letter has not been recorded. -/
theorem sliceStart_le_of_isWindowsDriveLetter
    (hletter : isWindowsDriveLetter ((Region.mk p.sliceStart p.bufLen).text p.buf) = true) :
    p.sliceStart ≤ p.buf.length - 1 := by
  have := length_of_isWindowsDriveLetter hletter
  simp only [Region.text, UrlParser.bufLen, List.length_take, List.length_drop] at this
  omega

theorem fixDriveLetter_spec (h : Layout p) : ∃ buf, buf.length = p.buf.length ∧
    buf.take p.sliceStart = p.buf.take p.sliceStart ∧
    fixDriveLetter p = some { p with buf := buf } := by
  simp only [fixDriveLetter, h.scheme_slice_eq, h.bufRegion_eq, Option.bind_eq_bind,
    Option.bind_some]
  split
  · split
    · rename_i hletter
      have hlen := sliceStart_le_of_isWindowsDriveLetter hletter
      exact ⟨p.buf.set (p.buf.length - 1) ':'.toUInt8, by simp, List.take_set_of_le hlen, rfl⟩
    · exact ⟨p.buf, rfl, rfl, rfl⟩
  · exact ⟨p.buf, rfl, rfl, rfl⟩

theorem layout_extendedPath (h : Layout p) (hstate : p.state = .path) : Layout { p with
    sliceStart := p.buf.length, result := { p.result with path := p.extendedPath } } :=
  h.close rfl rfl h.scheme_le' h.host_le' (h.stop_extendedPath hstate).le h.query_le'
    h.fragment_le' rfl rfl rfl (by simp [hstate, UrlParserState.rank])
    (by simp [hstate, UrlParserState.rank]) (fun _ _ => h.stop_extendedPath hstate)
    (by simp [hstate])

theorem turnSpec_pathNext (h : Layout p) (hstate : p.state = .path) (err : Option Error) :
    UrlTurn.Holds (urlParserPathNext err p) (fun _ => TurnSpec p) := by
  have hclosed := layout_extendedPath h hstate
  have hrank : p.state.rank = 13 := by simp [hstate, UrlParserState.rank]
  simp only [urlParserPathNext, h.extendPath_eq, Option.bind_eq_bind, Option.bind_some]
  split
  · exact UrlTurn.holds_some ((turnSpec_startQuery hclosed (by simp [hrank])).of_frame
      rfl rfl rfl rfl rfl rfl rfl h.sliceStart_le rfl (by simp [AtUserinfo, hstate]))
  · split
    · exact UrlTurn.holds_some ((turnSpec_startFragment hclosed (by simp [hrank])).of_frame
        rfl rfl rfl rfl rfl rfl rfl h.sliceStart_le rfl (by simp [AtUserinfo, hstate]))
    · exact UrlTurn.holds_some
        ⟨hclosed, rfl, .inl ⟨rfl, rfl⟩, .inl ⟨rfl, rfl⟩, .inl rfl, .inl rfl, rfl⟩

theorem turnSpec_pathEnd (h : Layout p) (hstate : p.state = .path) :
    UrlTurn.Holds (urlParserPathEnd alloc p) (fun _ => TurnSpec p) := by
  obtain ⟨buf, hlen, htext, hfix⟩ := fixDriveLetter_spec h
  have hfixed : Layout { p with buf := buf } :=
    h.move (hlen ▸ h.sliceStart_le) (hlen ▸ h.buf_lt) rfl rfl rfl htext id le_rfl
  simp only [urlParserPathEnd, hfix, Option.bind_eq_bind, Option.bind_some]
  split
  · split
    · refine holds_appendOrFail (fun hfit => ?_) (fun _ => ?_)
      · rename_i c _ _
        have happended : Layout { p with buf := buf ++ [c], allocs := p.allocs + 1 } :=
          hfixed.move hfixed.sliceStart_le_append (by simpa using hfit) rfl rfl rfl
            hfixed.take_append id le_rfl
        exact (turnSpec_pathNext happended hstate _).imp fun _ _ hspec =>
          hspec.of_frame rfl rfl rfl rfl rfl rfl rfl le_rfl (hfixed.take_append.trans htext)
            (by simp [AtUserinfo, hstate])
      · exact (hfixed.turn_append_fail (by simp [hstate])).of_frame rfl rfl rfl rfl rfl rfl rfl
          le_rfl htext (by simp [AtUserinfo, hstate])
    · exact (turnSpec_pathNext hfixed hstate _).imp fun _ _ hspec =>
        hspec.of_frame rfl rfl rfl rfl rfl rfl rfl le_rfl htext (by simp [AtUserinfo, hstate])
  · exact (turnSpec_pathNext hfixed hstate _).imp fun _ _ hspec =>
      hspec.of_frame rfl rfl rfl rfl rfl rfl rfl le_rfl htext (by simp [AtUserinfo, hstate])

theorem turnSpec_path (h : Layout p) (hstate : p.state = .path) :
    UrlTurn.Holds (urlParserPath alloc p) (fun _ => TurnSpec p) := by
  unfold urlParserPath
  split
  · exact turnSpec_pathEnd h hstate
  · split
    · exact h.holds_append (by simp [hstate]) _ _ _ _
    · rename_i hdelim _ hc
      simp [hc, isDelimiter] at hdelim

theorem turnSpec_opaquePath (h : Layout p) (hstate : p.state = .opaquePath) :
    UrlTurn.Holds (urlParserOpaquePath alloc p) (fun _ => TurnSpec p) := by
  have hrank : p.state.rank = 14 := by simp [hstate, UrlParserState.rank]
  have hclosed : Layout { p with
      sliceStart := p.buf.length
      result := { p.result with path := ⟨p.sliceStart, p.bufLen⟩ } } :=
    h.close rfl rfl h.scheme_le' h.host_le' h.stop_buf.le h.query_le' h.fragment_le' rfl rfl rfl
      (by simp [hrank]) (by simp [hrank]) (by simp [hstate]) (by simp [hstate])
  unfold urlParserOpaquePath
  split
  · exact UrlTurn.holds_some ⟨h, rfl, .inl ⟨rfl, rfl⟩, .inl ⟨rfl, rfl⟩, .inl rfl, .inl rfl, rfl⟩
  · simp only [h.takePath_eq, Option.bind_eq_bind, Option.bind_some]
    split
    · exact UrlTurn.holds_some ((turnSpec_startQuery hclosed (by simp [hrank])).of_frame
        rfl rfl rfl rfl rfl rfl rfl h.sliceStart_le rfl (by simp [AtUserinfo, hstate]))
    · split
      · exact UrlTurn.holds_some ((turnSpec_startFragment hclosed (by simp [hrank])).of_frame
          rfl rfl rfl rfl rfl rfl rfl h.sliceStart_le rfl (by simp [AtUserinfo, hstate]))
      · exact h.holds_append (by simp [hstate]) _ _ _ _

theorem turnSpec_query (h : Layout p) (hstate : p.state = .query) :
    UrlTurn.Holds (urlParserQuery alloc p) (fun _ => TurnSpec p) := by
  have hrank : p.state.rank = 15 := by simp [hstate, UrlParserState.rank]
  have hclosed : Layout { p with
      sliceStart := p.buf.length
      result := { p.result with query := ⟨p.sliceStart, p.bufLen⟩, queryNull := false } } :=
    h.close rfl rfl h.scheme_le' h.host_le' h.path_le' h.stop_buf.le h.fragment_le' rfl rfl rfl
      (by simp [hrank]) (by simp [hrank]) (by simp [hstate]) (by simp [hstate])
  unfold urlParserQuery
  split
  · simp only [h.takeQuery_eq, Option.bind_eq_bind, Option.bind_some]
    exact UrlTurn.holds_some
      ⟨hclosed, rfl, .inl ⟨rfl, rfl⟩, .inl ⟨rfl, rfl⟩, .inl rfl, .inl rfl, rfl⟩
  · simp only [h.takeQuery_eq, Option.bind_eq_bind, Option.bind_some]
    split
    · exact UrlTurn.holds_some ((turnSpec_startFragment hclosed (by simp [hrank])).of_frame
        rfl rfl rfl rfl rfl rfl rfl h.sliceStart_le rfl (by simp [AtUserinfo, hstate]))
    · exact h.holds_append (by simp [hstate]) _ _ _ _

theorem turnSpec_fragment (h : Layout p) (hstate : p.state = .fragment) :
    UrlTurn.Holds (urlParserFragment alloc p) (fun _ => TurnSpec p) := by
  have hrank : p.state.rank = 16 := by simp [hstate, UrlParserState.rank]
  have hclosed : Layout { p with
      sliceStart := p.buf.length
      result := { p.result with
        fragment := ⟨p.sliceStart, p.bufLen⟩, fragmentNull := false } } :=
    h.close rfl rfl h.scheme_le' h.host_le' h.path_le' h.query_le' h.stop_buf.le rfl rfl rfl
      (by simp [hrank]) (by simp [hrank]) (by simp [hstate]) (by simp [hstate])
  unfold urlParserFragment
  split
  · simp only [h.takeFragment_eq, Option.bind_eq_bind, Option.bind_some]
    exact UrlTurn.holds_some
      ⟨hclosed, rfl, .inl ⟨rfl, rfl⟩, .inl ⟨rfl, rfl⟩, .inl rfl, .inl rfl, rfl⟩
  · exact h.holds_append (by simp [hstate]) _ _ _ _

/-- A turn never fails an assertion, keeps the layout, and stays in its state at the
next byte or goes to a later state. -/
theorem turnSpec_step (alloc : Alloc) (h : Layout p) (hstate : p.state ≠ .fail) :
    UrlTurn.Holds (urlParserStep alloc p) (fun _ => TurnSpec p) := by
  unfold urlParserStep
  cases hs : p.state with
  | schemeStart => exact turnSpec_schemeStart h hs
  | scheme => exact turnSpec_scheme h hs
  | noScheme => exact turnSpec_noScheme h hs
  | pathOrAuth => exact turnSpec_pathOrAuth h hs
  | specAuthSlash => exact turnSpec_specAuthSlash h hs
  | specAuthIgnoreSlash => exact turnSpec_specAuthIgnoreSlash h hs
  | auth => exact turnSpec_auth h hs
  | host => exact turnSpec_host h hs
  | port => exact turnSpec_port h hs
  | file => exact turnSpec_file h hs
  | fileSlash => exact turnSpec_fileSlash h hs
  | fileHost => exact turnSpec_fileHost h hs
  | pathStart => exact turnSpec_pathStart h hs
  | path => exact turnSpec_path h hs
  | opaquePath => exact turnSpec_opaquePath h hs
  | query => exact turnSpec_query h hs
  | fragment => exact turnSpec_fragment h hs
  | fail => exact absurd hs hstate

end States

end PosixThreads
