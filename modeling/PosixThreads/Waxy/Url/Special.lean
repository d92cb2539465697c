import PosixThreads.Waxy.Url.Failure
import PosixThreads.Waxy.Url.Plain
import PosixThreads.Waxy.Url.Text

/-!
# Special schemes

`special` is set at the colon that ends the scheme, from a number that is nonzero for every
scheme, and no later state changes it. So it is right for a special scheme, and for no other one:
the states for an opaque path and for a path without a host are never entered.
-/

namespace PosixThreads

def specialSchemes : List (List UInt8) :=
  [cstr "ftp", cstr "file", cstr "http", cstr "https", cstr "ws", cstr "wss"]

/-- The input has this scheme in front of a colon and `rest`, and the parser comes to the colon. -/
structure Recognised (alloc : Alloc) (slice scheme rest : List UInt8) : Prop where
  input_eq : (urlNormalize slice).2 = scheme ++ ':'.toUInt8 :: rest
  letter : LetterFirst scheme
  chars : ∀ c ∈ scheme, isSchemeChar c = true
  colon : FindsColon alloc slice

/-- What the flag is to say, and what follows for a scheme that is not special. -/
structure SpecialSound (alloc : Alloc) (slice scheme rest : List UInt8) : Prop where
  flag : ∀ s err p, UrlReaches alloc slice s → urlParserStep alloc s.1.advance = some (err, p) →
    2 < p.state.rank → p.state ≠ .fail →
    (p.special = true ↔ scheme.map toLower ∈ specialSchemes)
  opaque_path : scheme.map toLower ∉ specialSchemes → rest.head? ≠ some '/'.toUInt8 →
    ∀ err url, urlParse alloc slice = some ⟨err, false, some url⟩ →
      url.path.text url.buf =
        percentEncodeAll .c0 (rest.takeWhile fun c => c ≠ '?'.toUInt8 ∧ c ≠ '#'.toUInt8)
  host_null : scheme.map toLower ∉ specialSchemes → rest.head? = some '/'.toUInt8 →
    rest.tail.head? ≠ some '/'.toUInt8 →
    ∀ err url, urlParse alloc slice = some ⟨err, false, some url⟩ →
      url.hostNull = true ∧ url.path.len ≠ 0

/-- With enough memory every scheme in front of a colon is recognised. -/
theorem recognised_of_memory {alloc : Alloc} {slice scheme rest : List UInt8}
    (hinput : (urlNormalize slice).2 = scheme ++ ':'.toUInt8 :: rest) (hletter : LetterFirst scheme)
    (hchars : ∀ c ∈ scheme, isSchemeChar c = true) (halloc : ∀ k, alloc k = true)
    (hfit : slice.length < ptrdiffMax) : Recognised alloc slice scheme rest := by
  refine ⟨hinput, hletter, hchars, ?_⟩
  obtain ⟨a, ha, halpha⟩ := hletter
  obtain ⟨tail, rfl⟩ : ∃ tail, scheme = a :: tail := by
    cases scheme with
    | nil => simp at ha
    | cons b tail => exact ⟨tail, by simpa using ha⟩
  have hfit' := (length_urlNormalize_le slice).trans_lt hfit
  rw [hinput] at hfit'
  have h0 : At (.initial (urlNormalize slice).2) [] (a :: (tail ++ ':'.toUInt8 :: rest)) := by
    refine ⟨?_, ?_, ?_⟩
    · simpa [UrlParser.initial] using hinput
    · simp [UrlParser.initial, UrlParser.advance]
    · simpa using hfit'
  have hroom : Room alloc False (1 + tail.length) :=
    .inr ⟨halloc, lt_of_le_of_lt (by simp; omega) hfit'⟩
  obtain ⟨hgoes₁, h₁⟩ := goes_schemeStart alloc False False halpha h0 (hroom.mono (by omega))
  have hpush : ∀ x ∈ tail, ∀ (q : UrlParser) (buf : List UInt8) (pos : UInt64) (allocs : ℕ),
      q = { schemeParser (urlNormalize slice).2 a with buf := buf, pos := pos, allocs := allocs } →
      q.c = some x → ∃ err, urlParserStep alloc q =
        appendOrFail alloc q [toLower x] err fun p => some (none, p) := by
    intro x hx q buf pos allocs hq hc
    have hturn : urlParserStep alloc q = urlParserScheme alloc q := by
      subst hq
      rfl
    refine ⟨none, ?_⟩
    rw [hturn]
    simp only [urlParserScheme, hc, hchars x (by simp [hx]), if_true]
  obtain ⟨hgoes₂, h₂⟩ := @goes_pushed alloc False False (fun c => [toLower c]) tail _ _ _ h₁
    (by simp [schemeParser]) hpush (hroom.mono (by
      rw [← List.map_eq_flatMap]
      simp [schemeParser, Nat.add_comm]))
  rcases (hgoes₁.trans hgoes₂) (urlNormalize slice).1 (layout_initial _) with
    ⟨_, err, hreaches, _⟩ | ⟨hfalse, _⟩
  · have hcopied : (alloc 0 && slice.length + 1 ≤ ptrdiffMax) = true := by
      simp only [halloc, Bool.true_and, decide_eq_true_eq]
      omega
    exact ⟨_, ⟨hcopied, halloc 1, hreaches⟩, rfl, h₂.c_eq⟩
  · exact hfalse.elim

/-! ## The flag is kept -/

/-- The flag behind a turn is the one of `p`. -/
def KeepsFlag (p : UrlParser) (t : UrlTurn) : Prop :=
  ∀ err p', t = some (err, p') → p'.special = p.special

section Flag

variable {alloc : Alloc} {p q q' : UrlParser} {err : Option Error}

theorem keepsFlag_some (h : q.special = p.special) : KeepsFlag p (some (err, q)) := by
  rintro _ _ ⟨⟩
  exact h

theorem keepsFlag_bind {α : Type} {x : Option α} {f : α → UrlTurn}
    (h : ∀ a, x = some a → KeepsFlag p (f a)) : KeepsFlag p (x >>= f) := by
  intro err p' hstep
  rw [Option.bind_eq_bind, Option.bind_eq_some_iff] at hstep
  obtain ⟨a, ha, hstep⟩ := hstep
  exact h a ha err p' hstep

theorem keepsFlag_append {bytes : List UInt8} {next : UrlParser → UrlTurn}
    (hq : q.special = p.special) (h : ∀ q, q.special = p.special → KeepsFlag p (next q)) :
    KeepsFlag p (appendOrFail alloc q bytes err next) := by
  unfold appendOrFail
  rcases UrlParser.append_cases alloc q bytes with ⟨_, happend⟩ | happend
  · rw [happend]
    exact h _ hq
  · rw [happend]
    exact keepsFlag_some hq

theorem special_slice {r : Region} (h : p.slice = some (r, q)) : q.special = p.special := by
  simp only [UrlParser.slice, Option.map_eq_some_iff, Prod.mk.injEq] at h
  obtain ⟨_, _, _, rfl⟩ := h
  rfl

theorem special_take (f : UrlParser → Region → UrlParser)
    (hf : ∀ q r, (f q r).special = q.special)
    (h : (do
      let (slice, p) ← p.slice
      let region ← sliceToRegion slice
      some (f p region)) = some q) : q.special = p.special := by
  simp only [Option.bind_eq_bind, Option.bind_eq_some_iff, Option.some.injEq] at h
  obtain ⟨⟨slice, p₁⟩, hslice, region, _, rfl⟩ := h
  exact (hf p₁ region).trans (special_slice hslice)

theorem special_takeHost (h : takeHost p = some q) : q.special = p.special :=
  special_take (fun q r => { q with result := { q.result with host := r, hostNull := false } })
    (fun _ _ => rfl) h

theorem special_takePath (h : takePath p = some q) : q.special = p.special :=
  special_take (fun q r => { q with result := { q.result with path := r } })
    (fun _ _ => rfl) h

theorem special_takeQuery (h : takeQuery p = some q) : q.special = p.special :=
  special_take (fun q r => { q with result := { q.result with query := r, queryNull := false } })
    (fun _ _ => rfl) h

theorem special_takeFragment (h : takeFragment p = some q) : q.special = p.special :=
  special_take
    (fun q r => { q with result := { q.result with fragment := r, fragmentNull := false } })
    (fun _ _ => rfl) h

theorem special_encodeUserinfo (alloc : Alloc) (text : List UInt8) (p : UrlParser) :
    (encodeUserinfo alloc text p).2.special = p.special := by
  induction text generalizing p with
  | nil => rfl
  | cons c text ih =>
      unfold encodeUserinfo
      split
      · rw [ih]
      · rcases UrlParser.append_cases alloc p (percentEncode .userinfo c) with
          ⟨_, happend⟩ | happend
        · rw [happend]
          simp only [ih, UrlParser.countUserinfo]
          split <;> rfl
        · rw [happend]

theorem keepsFlag_authAt (hq : q.special = p.special) :
    KeepsFlag p (urlParserAuthAt alloc err q) := by
  refine keepsFlag_bind fun ⟨slice, q₁⟩ hslice => keepsFlag_bind fun buf _ => ?_
  have hq₁ : q₁.special = p.special := (special_slice hslice).trans hq
  have hencode := special_encodeUserinfo alloc (buf.text q₁.buf) { q₁ with
    result := { q₁.result with username := { q₁.result.username with start := buf.len } } }
  dsimp only
  split
  · rename_i heq
    rw [heq] at hencode
    exact keepsFlag_some (hencode.trans hq₁)
  · rename_i heq
    rw [heq] at hencode
    exact keepsFlag_some (hencode.trans hq₁)

theorem keepsFlag_auth : KeepsFlag p (urlParserAuth alloc p) := by
  unfold urlParserAuth
  split
  · dsimp only
    split
    · exact keepsFlag_append rfl fun q hq => keepsFlag_authAt hq
    · exact keepsFlag_authAt rfl
  · split
    · unfold urlParserAuthEnd
      split
      · exact keepsFlag_some rfl
      · refine keepsFlag_bind fun ⟨_, _⟩ hslice => ?_
        have hq := special_slice hslice
        exact keepsFlag_some hq
    · split
      · exact keepsFlag_append rfl fun q hq => keepsFlag_some hq
      · rintro _ _ ⟨⟩

theorem keepsFlag_host : KeepsFlag p (urlParserHost alloc p) := by
  unfold urlParserHost
  split
  · split
    · exact keepsFlag_some rfl
    · refine keepsFlag_bind fun _ htake => ?_
      have hq := special_takeHost htake
      exact keepsFlag_some hq
  · split
    · dsimp only
      split
      · exact keepsFlag_some rfl
      · refine keepsFlag_bind fun _ htake => ?_
        have hq := special_takeHost htake
        exact keepsFlag_some hq
    · split
      · exact keepsFlag_append rfl fun q hq => keepsFlag_some hq
      · rintro _ _ ⟨⟩

theorem keepsFlag_portEnd : KeepsFlag p (urlParserPortEnd p) := by
  unfold urlParserPortEnd
  split
  · refine keepsFlag_bind fun ⟨_, _⟩ hslice => ?_
    have hq := special_slice hslice
    dsimp only
    split
    · exact keepsFlag_some hq
    · exact keepsFlag_some hq
  · exact keepsFlag_some rfl

theorem keepsFlag_port : KeepsFlag p (urlParserPort alloc p) := by
  unfold urlParserPort
  split
  · split
    · exact keepsFlag_append rfl fun q hq => keepsFlag_some hq
    · split
      · exact keepsFlag_portEnd
      · exact keepsFlag_some rfl
  · exact keepsFlag_portEnd

theorem keepsFlag_fileNext (hq : q.special = p.special) : KeepsFlag p (urlParserFileNext q) := by
  unfold urlParserFileNext failBackslash
  dsimp only
  split_ifs <;> exact keepsFlag_some hq

theorem keepsFlag_file : KeepsFlag p (urlParserFile alloc p) := by
  refine keepsFlag_bind fun scheme _ => ?_
  split
  · refine keepsFlag_append rfl fun q hq => ?_
    refine keepsFlag_bind fun ⟨_, _⟩ hslice => keepsFlag_bind fun _ _ => ?_
    exact keepsFlag_fileNext ((special_slice hslice).trans hq)
  · exact keepsFlag_fileNext rfl

theorem keepsFlag_fileHost : KeepsFlag p (urlParserFileHost alloc p) := by
  unfold urlParserFileHost
  split
  · dsimp only
    refine keepsFlag_bind fun _ _ => ?_
    split_ifs
    · exact keepsFlag_some rfl
    · exact keepsFlag_some rfl
    · refine keepsFlag_bind fun _ htake => ?_
      have hq := special_takeHost htake
      exact keepsFlag_some hq
  · split
    · exact keepsFlag_append rfl fun q hq => keepsFlag_some hq
    · rintro _ _ ⟨⟩

theorem special_extendPath (h : extendPath p = some q) : q.special = p.special := by
  simp only [extendPath, Option.bind_eq_bind, Option.bind_eq_some_iff] at h
  obtain ⟨⟨_, _⟩, hslice, h⟩ := h
  have hq := special_slice hslice
  split at h
  · simp only [Option.bind_eq_some_iff, Option.some.injEq] at h
    obtain ⟨_, _, rfl⟩ := h
    exact hq
  · rw [Option.some.injEq] at h
    rw [← h]
    exact hq

theorem special_fixDriveLetter (h : fixDriveLetter p = some q) : q.special = p.special := by
  simp only [fixDriveLetter, Option.bind_eq_bind, Option.bind_eq_some_iff] at h
  obtain ⟨_, _, h⟩ := h
  split at h
  · simp only [Option.bind_eq_some_iff] at h
    obtain ⟨_, _, h⟩ := h
    split at h <;> (rw [Option.some.injEq] at h; rw [← h])
  · rw [Option.some.injEq] at h
    rw [← h]

theorem keepsFlag_pathNext (hq : q.special = p.special) :
    KeepsFlag p (urlParserPathNext err q) := by
  refine keepsFlag_bind fun q₁ hextend => ?_
  have hq₁ : q₁.special = p.special := (special_extendPath hextend).trans hq
  split_ifs
  · exact keepsFlag_some hq₁
  · exact keepsFlag_some hq₁
  · exact keepsFlag_some hq₁

theorem keepsFlag_path : KeepsFlag p (urlParserPath alloc p) := by
  unfold urlParserPath
  split
  · refine keepsFlag_bind fun q hfix => ?_
    have hq := special_fixDriveLetter hfix
    split
    · split
      · exact keepsFlag_append hq fun q hq => keepsFlag_pathNext hq
      · exact keepsFlag_pathNext hq
    · exact keepsFlag_pathNext hq
  · split
    · exact keepsFlag_append rfl fun q hq => keepsFlag_some hq
    · rintro _ _ ⟨⟩

theorem keepsFlag_opaquePath : KeepsFlag p (urlParserOpaquePath alloc p) := by
  unfold urlParserOpaquePath
  split
  · exact keepsFlag_some rfl
  · split
    · refine keepsFlag_bind fun _ htake => ?_
      have hq := special_takePath htake
      exact keepsFlag_some hq
    · split
      · refine keepsFlag_bind fun _ htake => ?_
        have hq := special_takePath htake
        exact keepsFlag_some hq
      · exact keepsFlag_append rfl fun q hq => keepsFlag_some hq

theorem keepsFlag_query : KeepsFlag p (urlParserQuery alloc p) := by
  unfold urlParserQuery
  split
  · refine keepsFlag_bind fun _ htake => ?_
    have hq := special_takeQuery htake
    exact keepsFlag_some hq
  · split
    · refine keepsFlag_bind fun _ htake => ?_
      have hq := special_takeQuery htake
      exact keepsFlag_some hq
    · exact keepsFlag_append rfl fun q hq => keepsFlag_some hq

theorem keepsFlag_fragment : KeepsFlag p (urlParserFragment alloc p) := by
  unfold urlParserFragment
  split
  · refine keepsFlag_bind fun _ htake => ?_
    have hq := special_takeFragment htake
    exact keepsFlag_some hq
  · exact keepsFlag_append rfl fun q hq => keepsFlag_some hq

/-- Behind the scheme no state changes the flag. -/
theorem keepsFlag_step (hlate : 2 < p.state.rank) : KeepsFlag p (urlParserStep alloc p) := by
  unfold urlParserStep
  cases hstate : p.state with
  | schemeStart | scheme | noScheme => simp [hstate, UrlParserState.rank] at hlate
  | pathOrAuth =>
      simp only [urlParserPathOrAuth]
      split_ifs <;> exact keepsFlag_some rfl
  | specAuthSlash =>
      simp only [urlParserSpecAuthSlash]
      split_ifs <;> exact keepsFlag_some rfl
  | specAuthIgnoreSlash =>
      simp only [urlParserSpecAuthIgnoreSlash]
      split_ifs <;> exact keepsFlag_some rfl
  | auth => exact keepsFlag_auth
  | host => exact keepsFlag_host
  | port => exact keepsFlag_port
  | file => exact keepsFlag_file
  | fileSlash =>
      simp only [urlParserFileSlash, failBackslash]
      split_ifs <;> exact keepsFlag_some rfl
  | fileHost => exact keepsFlag_fileHost
  | pathStart =>
      simp only [urlParserPathStart]
      split_ifs <;> exact keepsFlag_some rfl
  | path => exact keepsFlag_path
  | opaquePath => exact keepsFlag_opaquePath
  | query => exact keepsFlag_query
  | fragment => exact keepsFlag_fragment
  | fail => rintro _ _ ⟨⟩

end Flag

/-! ## The flag is set -/

section Set

variable {alloc : Alloc} {slice scheme rest : List UInt8} {s : UrlParser × Option Error}

/-- The colon leaves the flag set, whatever the scheme is. -/
theorem urlParserSchemeEnd_special {p : UrlParser} (h : Layout p) :
    UrlTurn.Holds (urlParserSchemeEnd p) fun _ p' =>
      p'.special = true ∧ 2 < p'.state.rank ∧ p'.state ≠ .fail := by
  have hregion : regionToSlice p.buf ⟨p.sliceStart, p.bufLen⟩ =
      some ((Region.mk p.sliceStart p.bufLen).text p.buf) := by
    simp [regionToSlice, h.bufLen_le]
  simp only [urlParserSchemeEnd, h.slice_eq, h.sliceToRegion_eq, hregion, Option.bind_eq_bind,
    Option.bind_some, urlParserIsSpecial_ne_zero, ne_eq, not_false_eq_true, decide_true, if_true]
  split
  · exact UrlTurn.holds_some ⟨rfl, by simp [UrlParserState.rank], by simp⟩
  · exact UrlTurn.holds_some ⟨rfl, by simp [UrlParserState.rank], by simp⟩

theorem urlParserScheme_colon {p : UrlParser} (hc : p.c = some ':'.toUInt8) :
    urlParserScheme alloc p = urlParserSchemeEnd p := by
  have hcolon : isSchemeChar ':'.toUInt8 = false := by decide
  unfold urlParserScheme
  rw [hc]
  dsimp only
  rw [hcolon, if_neg Bool.false_ne_true, if_pos rfl]

theorem special_turn (hs : UrlReaches alloc slice s)
    (hset : 2 < s.1.state.rank → s.1.state ≠ .fail → s.1.special = true)
    (hstate : s.1.state ≠ .fail)
    {err : Option Error} {p : UrlParser} (hstep : urlParserStep alloc s.1.advance = some (err, p))
    (hlate : 2 < p.state.rank) (hfail : p.state ≠ .fail) : p.special = true := by
  by_cases hrank : 2 < s.1.state.rank
  · have hkeep : KeepsFlag s.1.advance (urlParserStep alloc s.1.advance) := keepsFlag_step hrank
    exact (hkeep err p hstep).trans (hset hrank hstate)
  · have hearly : s.1.state = .schemeStart ∨ s.1.state = .scheme ∨ s.1.state = .noScheme := by
      cases hs' : s.1.state <;> simp [hs', UrlParserState.rank] at hrank ⊢
    rcases hearly with hs' | hs' | hs'
    · have hs'' : s.1.advance.state = .schemeStart := hs'
      simp only [urlParserStep, hs''] at hstep
      rcases urlParserSchemeStart_cases hstep with ⟨_, rfl⟩ | ⟨_, _, _, hp | rfl⟩
      · simp [UrlParserState.rank] at hlate
      · exact absurd hp hfail
      · simp [UrlParserState.rank] at hlate
    · have hs'' : s.1.advance.state = .scheme := hs'
      simp only [urlParserStep, hs''] at hstep
      rcases urlParserScheme_cases hs.inv.layout.advance hstep with
        ⟨_, _, hp | rfl⟩ | ⟨hc, _⟩ | rfl
      · exact absurd hp hfail
      · simp [hs'', UrlParserState.rank] at hlate
      · rw [urlParserScheme_colon hc] at hstep
        obtain ⟨err₁, p₁, hturn, hset₁, _⟩ := urlParserSchemeEnd_special hs.inv.layout.advance
        rw [hstep, Option.some.injEq, Prod.mk.injEq] at hturn
        rw [hturn.2]
        exact hset₁
      · simp [UrlParserState.rank] at hlate
    · have hs'' : s.1.advance.state = .noScheme := hs'
      simp only [urlParserStep, hs'', urlParserNoScheme, Option.some.injEq, Prod.mk.injEq] at hstep
      exact absurd (by rw [← hstep.2]) hfail

theorem special_reaches (hs : UrlReaches alloc slice s) :
    2 < s.1.state.rank → s.1.state ≠ .fail → s.1.special = true := by
  refine hs.induction (motive := fun s => 2 < s.1.state.rank → s.1.state ≠ .fail →
    s.1.special = true) ?_ ?_
  · simp [urlLoopStart, UrlParser.initial, UrlParserState.rank]
  · intro s err p hs ih hstate hstep _ _
    exact special_turn hs ih hstate hstep

/-- The flag is right if and only if the scheme is special. -/
theorem specialSound_iff (h : Recognised alloc slice scheme rest) :
    SpecialSound alloc slice scheme rest ↔ scheme.map toLower ∈ specialSchemes := by
  constructor
  · intro hsound
    obtain ⟨s, hs, hstate, hc⟩ := h.colon
    have hstep : urlParserStep alloc s.1.advance = urlParserSchemeEnd s.1.advance := by
      simp only [urlParserStep, hstate]
      exact urlParserScheme_colon hc
    obtain ⟨err, p, hturn, hset, hlate, hfail⟩ := urlParserSchemeEnd_special hs.inv.layout.advance
    exact (hsound.flag s err p hs (hstep.trans hturn) hlate hfail).mp hset
  · intro hspecial
    refine ⟨fun s err p hs hstep hlate hfail => ?_, fun hnot => absurd hspecial hnot,
      fun hnot => absurd hspecial hnot⟩
    have hstate : s.1.state ≠ .fail := by
      intro hs'
      have hs'' : s.1.advance.state = .fail := hs'
      simp [urlParserStep, hs''] at hstep
    have hset := special_turn hs (special_reaches hs) hstate hstep hlate hfail
    exact iff_of_true hset hspecial

end Set

/-- A scheme in capitals. -/
theorem specialSound_capitals :
    SpecialSound allocAll (cstr "HTTP://h/") (cstr "HTTP") (cstr "//h/") :=
  (specialSound_iff (recognised_of_memory (by decide +kernel) ⟨72, by decide⟩ (by decide +kernel)
    (fun _ => rfl) (by decide))).mpr (by decide +kernel)

/-- The text behind the colon of another scheme becomes a host. -/
theorem not_specialSound_opaque :
    Recognised allocAll (cstr "foo:bar") (cstr "foo") (cstr "bar") ∧
    ¬ SpecialSound allocAll (cstr "foo:bar") (cstr "foo") (cstr "bar") := by
  refine ⟨recognised_of_memory (by decide +kernel) ⟨102, by decide⟩ (by decide +kernel)
    (fun _ => rfl) (by decide), fun hsound => ?_⟩
  have hparse : urlParse allocAll (cstr "foo:bar") =
      some ⟨some (.fromCstr "`//` is required for a special scheme"), false,
        some { UrlRegion.initial with
          scheme := ⟨0, 3⟩, host := ⟨3, 3⟩, hostNull := false, path := ⟨6, 0⟩,
          buf := cstr "foobar" }⟩ := by
    decide +kernel
  have hpath := hsound.opaque_path (by decide +kernel) (by decide) _ _ hparse
  have htext : percentEncodeAll .c0
      ((cstr "bar").takeWhile fun c => c ≠ '?'.toUInt8 ∧ c ≠ '#'.toUInt8) = cstr "bar" := by
    decide +kernel
  rw [htext] at hpath
  simp [cstr, Region.text] at hpath

end PosixThreads
