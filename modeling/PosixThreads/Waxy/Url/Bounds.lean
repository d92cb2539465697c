import PosixThreads.Waxy.Url.Layout

/-!
# The end of the loop and the bounds of the components

`urlLoopBody_cases` says what one turn of the loop of `url_parse` can do, and
`urlParse_cases` what the whole function can do: it always returns, either for
want of memory or from a state that the loop reaches. The bounds of the
components follow from the layout in that state, as long as the authority has no
user info.
-/

namespace PosixThreads

/-! ## Normalisation does not lengthen the input -/

theorem length_removeTabNl_le (i : ℕ) (input : List UInt8) (seen : Bool) :
    (removeTabNl i input seen).1.length ≤ input.length := by
  induction i generalizing input seen with
  | zero => simp [removeTabNl]
  | succ i ih =>
      unfold removeTabNl
      split
      · split
        · exact (ih _ _).trans (List.length_eraseIdx_le _ _)
        · exact ih _ _
      · exact ih _ _

theorem length_urlNormalize_le (slice : List UInt8) :
    (urlNormalize slice).2.length ≤ slice.length := by
  have htrailing : (urlRemoveTrailing slice).2.length ≤ slice.length := by
    simp only [urlRemoveTrailing, List.length_take, List.length_append]
    omega
  exact (length_removeTabNl_le _ _ _).trans htrailing

/-! ## The loop -/

theorem UrlParser.isEof_of_c {p : UrlParser} {c : UInt8} (h : p.c = some c) :
    p.isEof = false := by
  unfold UrlParser.c at h
  split at h
  · simp at h
  · simp_all

theorem UrlParser.isEof_of_c_none {p : UrlParser} (h : p.c = none) : p.isEof = true := by
  unfold UrlParser.c at h
  split at h
  · assumption
  · rename_i heof
    simp only [UrlParser.isEof, decide_eq_true_eq, not_le] at heof
    simp only [List.getElem?_eq_none_iff] at h
    omega

theorem Layout.regions_fit {p : UrlParser} (h : Layout p) :
    ∀ r ∈ p.result.regions, r.len ≤ ptrdiffMax := by
  have hbuf := h.buf_lt
  have hslice := h.sliceStart_le
  have hscheme := h.scheme_le
  have hhost := h.host_le
  have hpath := h.path_le
  have hquery := h.query_le
  have hfragment := h.fragment_le
  have huserinfo := h.userinfo_le
  simp only [Region.stop] at hscheme hhost hpath hquery hfragment
  simp only [UrlRegion.regions, List.forall_mem_cons, List.not_mem_nil, false_imp_iff,
    implies_true, and_true]
  refine ⟨?_, ?_, ?_, ?_, ?_, ?_, ?_⟩ <;> omega

structure UrlLoopInv (input : List UInt8) (s : UrlParser × Option Error) : Prop where
  layout : Layout s.1
  input_eq : s.1.input = input
  pos_le : s.1.advance.pos.toNat ≤ input.length

theorem Layout.advance {p : UrlParser} (h : Layout p) : Layout p.advance :=
  h.move h.sliceStart_le h.buf_lt rfl rfl rfl rfl id le_rfl

theorem layout_initial (input : List UInt8) : Layout (.initial input) := by
  refine ⟨⟨le_rfl, ?_⟩, ?_, ?_, ?_, ?_, ?_, ?_, ?_, ?_, ?_, ?_, ?_⟩ <;>
    simp [UrlParser.initial, UrlRegion.initial, Region.empty, Region.stop, ptrdiffMax]

theorem urlLoopInv_start (slice : List UInt8) :
    UrlLoopInv (urlNormalize slice).2 (urlLoopStart slice) :=
  ⟨layout_initial _, rfl, by simp [urlLoopStart, UrlParser.initial, UrlParser.advance]⟩

/-- One turn of the loop: it is left because of `STATE_FAIL`, or the function of the
state returns and the loop ends or goes on with its outcome. -/
theorem urlLoopBody_cases (alloc : Alloc) {input : List UInt8} {s : UrlParser × Option Error}
    (h : UrlLoopInv input s) :
    (s.1.state = .fail ∧ urlLoopBody alloc s = .inr (.parserFail s.2)) ∨
    (s.1.state ≠ .fail ∧ ∃ err p, urlParserStep alloc s.1.advance = some (err, p) ∧
      TurnSpec s.1.advance p ∧
      ((p.isEof = true ∧ urlLoopBody alloc s = .inr (.finished p (errorCombine s.2 err))) ∨
        (p.isEof = false ∧ urlLoopBody alloc s = .inl (p, errorCombine s.2 err)))) := by
  by_cases hstate : s.1.state = .fail
  · exact .inl ⟨hstate, by simp [urlLoopBody, UrlParser.advance, hstate]⟩
  · obtain ⟨err, p, hstep, hspec⟩ := turnSpec_step alloc h.layout.advance hstate
    refine .inr ⟨hstate, err, p, hstep, hspec, ?_⟩
    have hstate' : s.1.advance.state ≠ .fail := hstate
    by_cases heof : p.isEof = true
    · exact .inl ⟨heof, by simp [urlLoopBody, hstate', hstep, heof]⟩
    · simp only [Bool.not_eq_true] at heof
      exact .inr ⟨heof, by simp [urlLoopBody, hstate', hstep, heof]⟩

/-- The measure of the loop: the states still to come, and the bytes ahead. -/
def urlLoopMeasure (input : List UInt8) (s : UrlParser × Option Error) : ℕ :=
  (17 - s.1.state.rank) * (input.length + 2) + (input.length + 1 - s.1.advance.pos.toNat)

theorem UrlParserState.rank_le (s : UrlParserState) : s.rank ≤ 17 := by
  cases s <;> simp [rank]

theorem toNat_add_one_of_lt {n : ℕ} {pos : UInt64} (hn : n < ptrdiffMax) (h : pos.toNat < n) :
    (pos + 1).toNat = pos.toNat + 1 := by
  simp only [UInt64.toNat_add, UInt64.toNat_one, ptrdiffMax] at hn ⊢
  omega

/-- A turn that goes on keeps the invariant and decreases the measure. -/
theorem urlLoopInv_turn {alloc : Alloc} {input : List UInt8} (hfit : input.length < ptrdiffMax)
    {s s' : UrlParser × Option Error} (h : UrlLoopInv input s)
    (hturn : urlLoopBody alloc s = .inl s') :
    UrlLoopInv input s' ∧ urlLoopMeasure input s' < urlLoopMeasure input s := by
  rcases urlLoopBody_cases alloc h with
    ⟨_, hbody⟩ | ⟨_, err, p, _, hspec, ⟨_, hbody⟩ | ⟨heof, hbody⟩⟩
  · simp [hbody] at hturn
  · simp [hbody] at hturn
  · rw [hbody, Sum.inl.injEq] at hturn
    subst hturn
    have hinput : p.input = input := hspec.input_eq.trans h.input_eq
    have hpos : p.pos.toNat < input.length := by simpa [UrlParser.isEof, hinput] using heof
    have hnext : p.advance.pos.toNat = p.pos.toNat + 1 := toNat_add_one_of_lt hfit hpos
    refine ⟨⟨hspec.layout, hinput, by simp only; omega⟩, ?_⟩
    have hadvance := h.pos_le
    have hrank := p.state.rank_le
    unfold urlLoopMeasure
    rcases hspec.moves with ⟨hstate, heq⟩ | hlt
    · have hstate' : p.state = s.1.state := hstate
      rw [heq] at hpos hnext
      simp only [hstate', hnext]
      omega
    · have hlt' : s.1.state.rank < p.state.rank := hlt
      have hmul : (17 - p.state.rank) * (input.length + 2) + (input.length + 2) ≤
          (17 - s.1.state.rank) * (input.length + 2) := by
        rw [← Nat.succ_mul]
        exact Nat.mul_le_mul_right _ (by omega)
      simp only
      omega

theorem urlLoop_isSome (alloc : Alloc) {slice : List UInt8} (hfit : slice.length < ptrdiffMax) :
    (Iterate.iterate (urlLoopBody alloc) (urlLoopFuel (urlNormalize slice).2)
      (urlLoopStart slice)).isSome := by
  refine Iterate.iterate_isSome (I := UrlLoopInv (urlNormalize slice).2)
    (urlLoopMeasure (urlNormalize slice).2)
    (fun _ _ => urlLoopInv_turn ((length_urlNormalize_le slice).trans_lt hfit)) _ _
    (urlLoopInv_start slice) ?_
  simp only [urlLoopMeasure, urlLoopFuel]
  have hrank : (17 - (urlLoopStart slice).1.state.rank) * ((urlNormalize slice).2.length + 2) ≤
      17 * ((urlNormalize slice).2.length + 2) := Nat.mul_le_mul_right _ (by omega)
  omega

/-! ## What `url_parse` can do -/

/-- There is memory for the copy of the input and for the buffer, and the loop then
comes to the state `s` before one of its turns. -/
structure UrlReaches (alloc : Alloc) (slice : List UInt8) (s : UrlParser × Option Error) :
    Prop where
  copied : (alloc 0 && slice.length + 1 ≤ ptrdiffMax) = true
  buffered : alloc 1 = true
  reaches : Iterate.Reaches (urlLoopBody alloc) (urlLoopStart slice) s

namespace UrlReaches

variable {alloc : Alloc} {slice : List UInt8} {s s' : UrlParser × Option Error}

theorem fits (h : UrlReaches alloc slice s) : slice.length < ptrdiffMax := by
  have := h.copied
  simp only [Bool.and_eq_true, decide_eq_true_eq] at this
  omega

theorem inv (h : UrlReaches alloc slice s) : UrlLoopInv (urlNormalize slice).2 s :=
  Iterate.reaches_invariant (I := UrlLoopInv (urlNormalize slice).2)
    (fun _ _ hinv hturn =>
      (urlLoopInv_turn ((length_urlNormalize_le slice).trans_lt h.fits) hinv hturn).1)
    h.reaches (urlLoopInv_start slice)

theorem turn (h : UrlReaches alloc slice s) (hturn : urlLoopBody alloc s = .inl s') :
    UrlReaches alloc slice s' :=
  ⟨h.copied, h.buffered, h.reaches.tail hturn⟩

theorem induction {motive : UrlParser × Option Error → Prop} (h : UrlReaches alloc slice s)
    (start : motive (urlLoopStart slice))
    (turn : ∀ s err p, UrlReaches alloc slice s → motive s → s.1.state ≠ .fail →
      urlParserStep alloc s.1.advance = some (err, p) → TurnSpec s.1.advance p →
      p.isEof = false → motive (p, errorCombine s.2 err)) : motive s := by
  obtain ⟨hcopied, hbuffered, hreaches⟩ := h
  induction hreaches with
  | refl => exact start
  | @tail s s' hreaches hturn ih =>
      have hs : UrlReaches alloc slice s := ⟨hcopied, hbuffered, hreaches⟩
      have hturn' : urlLoopBody alloc s = .inl s' := hturn
      rcases urlLoopBody_cases alloc hs.inv with
        ⟨_, hbody⟩ | ⟨hstate, err, p, hstep, hspec, ⟨_, hbody⟩ | ⟨heof, hbody⟩⟩
      · simp [hbody] at hturn'
      · simp [hbody] at hturn'
      · rw [hbody, Sum.inl.injEq] at hturn'
        subst hturn'
        exact turn s err p hs ih hstate hstep hspec heof

theorem loop_eq (h : UrlReaches alloc slice s) {r : UrlLoopEnd}
    (hdone : urlLoopBody alloc s = .inr r) :
    Iterate.iterate (urlLoopBody alloc) (urlLoopFuel (urlNormalize slice).2)
      (urlLoopStart slice) = some r :=
  Iterate.iterate_of_reaches h.reaches hdone _ (urlLoop_isSome alloc h.fits)

theorem urlParse_of_fail (h : UrlReaches alloc slice s) (hstate : s.1.state = .fail) :
    urlParse alloc slice = some ⟨s.2, true, none⟩ := by
  have hdone : urlLoopBody alloc s = .inr (.parserFail s.2) := by
    simp [urlLoopBody, UrlParser.advance, hstate]
  simp only [urlParse, h.copied, h.buffered, h.loop_eq hdone, Bool.not_true, Bool.false_eq_true,
    if_false]

theorem urlParse_of_eof (h : UrlReaches alloc slice s) (hstate : s.1.state ≠ .fail)
    {err : Option Error} {p : UrlParser}
    (hstep : urlParserStep alloc s.1.advance = some (err, p)) (heof : p.isEof = true) :
    urlParse alloc slice = some ⟨errorCombine s.2 err, false, some ⟨p.result, p.buf⟩⟩ := by
  have hstate' : s.1.advance.state ≠ .fail := hstate
  have hdone : urlLoopBody alloc s = .inr (.finished p (errorCombine s.2 err)) := by
    simp [urlLoopBody, hstate', hstep, heof]
  obtain ⟨err', p', hstep', hspec⟩ := turnSpec_step alloc h.inv.layout.advance hstate
  rw [hstep, Option.some.injEq, Prod.mk.injEq] at hstep'
  obtain ⟨rfl, rfl⟩ := hstep'
  have hregions : p.result.regions.all (fun r => r.len ≤ ptrdiffMax) = true := by
    simpa using hspec.layout.regions_fit
  simp only [urlParse, h.copied, h.buffered, h.loop_eq hdone, hregions, Bool.not_true,
    Bool.false_eq_true, if_false, if_true]

end UrlReaches

/-- The function always returns: there is no memory for the copy of the input or for
the buffer, or the loop comes to a last state and decides. -/
theorem urlParse_cases (alloc : Alloc) (slice : List UInt8) :
    ((∀ s, ¬UrlReaches alloc slice s) ∧
      urlParse alloc slice = some ⟨some (.fromCommon .memoryAllocationFailure), true, none⟩) ∨
    (∃ s, UrlReaches alloc slice s ∧
      ((s.1.state = .fail ∧ urlParse alloc slice = some ⟨s.2, true, none⟩) ∨
        (s.1.state ≠ .fail ∧ ∃ err p, urlParserStep alloc s.1.advance = some (err, p) ∧
          TurnSpec s.1.advance p ∧ p.isEof = true ∧
          urlParse alloc slice =
            some ⟨errorCombine s.2 err, false, some ⟨p.result, p.buf⟩⟩))) := by
  by_cases hcopy : (alloc 0 && slice.length + 1 ≤ ptrdiffMax) = true
  · by_cases hbuf : alloc 1 = true
    · have hstart : UrlReaches alloc slice (urlLoopStart slice) := ⟨hcopy, hbuf, .refl⟩
      obtain ⟨r, hr⟩ := Option.isSome_iff_exists.mp (urlLoop_isSome alloc hstart.fits)
      obtain ⟨s, hreaches, hdone⟩ := Iterate.exists_reaches_of_iterate_eq_some hr
      have hs : UrlReaches alloc slice s := ⟨hcopy, hbuf, hreaches⟩
      refine .inr ⟨s, hs, ?_⟩
      rcases urlLoopBody_cases alloc hs.inv with
        ⟨hstate, _⟩ | ⟨hstate, err, p, hstep, hspec, ⟨heof, _⟩ | ⟨_, hbody⟩⟩
      · exact .inl ⟨hstate, hs.urlParse_of_fail hstate⟩
      · exact .inr ⟨hstate, err, p, hstep, hspec, heof, hs.urlParse_of_eof hstate hstep heof⟩
      · simp [hbody] at hdone
    · exact .inl ⟨fun s hs => hbuf hs.buffered, by simp [urlParse, hbuf]⟩
  · refine .inl ⟨fun s hs => hcopy hs.copied, ?_⟩
    rw [Bool.not_eq_true] at hcopy
    simp only [urlParse, hcopy, Bool.not_false, if_true]

/-- What holds in a state the loop comes to, and is kept by every turn, holds when the loop is
left. -/
theorem UrlReaches.urlParse_keep_reached {alloc : Alloc} {slice : List UInt8}
    {s : UrlParser × Option Error} (hs : UrlReaches alloc slice s) {I : UrlParser → Prop}
    (hI : I s.1)
    (hkeep : ∀ q e err p, UrlReaches alloc slice (q, e) → q.state ≠ .fail → I q →
      urlParserStep alloc q.advance = some (err, p) → TurnSpec q.advance p → I p) :
    (∃ t, UrlReaches alloc slice t ∧ I t.1 ∧ t.1.state = .fail ∧
      urlParse alloc slice = some ⟨t.2, true, none⟩) ∨
    ∃ err p, I p ∧ Layout p ∧
      urlParse alloc slice = some ⟨err, false, some ⟨p.result, p.buf⟩⟩ := by
  have hkept : ∀ t, Iterate.Reaches (urlLoopBody alloc) s t → I t.1 := by
    intro t ht
    induction ht with
    | refl => exact hI
    | @tail t t' ht hturn ih =>
        have htr : UrlReaches alloc slice t := ⟨hs.copied, hs.buffered, hs.reaches.trans ht⟩
        have hturn' : urlLoopBody alloc t = .inl t' := hturn
        rcases urlLoopBody_cases alloc htr.inv with
          ⟨_, hbody⟩ | ⟨hstate, err, p, hstep, hspec, ⟨_, hbody⟩ | ⟨_, hbody⟩⟩
        · simp [hbody] at hturn'
        · simp [hbody] at hturn'
        · rw [hbody, Sum.inl.injEq] at hturn'
          subst hturn'
          exact hkeep t.1 t.2 err p htr hstate ih hstep hspec
  rcases urlParse_cases alloc slice with
    ⟨hnone, _⟩ | ⟨t, ht, ⟨hstate, hfail⟩ | ⟨hstate, err, p, hstep, hspec, heof, hdone⟩⟩
  · exact absurd hs (hnone s)
  · have hbody : urlLoopBody alloc t = .inr (.parserFail t.2) := by
      simp [urlLoopBody, UrlParser.advance, hstate]
    have hIt := hkept t (Iterate.reaches_of_done hs.reaches ht.reaches hbody)
    exact .inl ⟨t, ht, hIt, hstate, hfail⟩
  · have hstate' : t.1.advance.state ≠ .fail := hstate
    have hbody : urlLoopBody alloc t = .inr (.finished p (errorCombine t.2 err)) := by
      simp [urlLoopBody, hstate', hstep, heof]
    have hIt := hkept t (Iterate.reaches_of_done hs.reaches ht.reaches hbody)
    exact .inr ⟨_, p, hkeep t.1 t.2 err p ht hstate hIt hstep hspec, hspec.layout, hdone⟩

theorem UrlReaches.urlParse_keep {alloc : Alloc} {slice : List UInt8}
    {s : UrlParser × Option Error} (hs : UrlReaches alloc slice s) {I : UrlParser → Prop}
    (hI : I s.1)
    (hkeep : ∀ q err p, Layout q → I q → urlParserStep alloc q.advance = some (err, p) →
      TurnSpec q.advance p → I p) :
    ∃ err, urlParse alloc slice = some ⟨err, true, none⟩ ∨
      ∃ p, I p ∧ Layout p ∧
        urlParse alloc slice = some ⟨err, false, some ⟨p.result, p.buf⟩⟩ := by
  rcases hs.urlParse_keep_reached hI fun q e err p hq _ => hkeep q err p hq.inv.layout with
    ⟨t, _, _, _, hfail⟩ | ⟨err, p, hp, hlayout, hdone⟩
  · exact ⟨_, .inl hfail⟩
  · exact ⟨err, .inr ⟨p, hp, hlayout, hdone⟩⟩

/-- The loop is left, by `goto parser_fail` or at the end of the input, and the components then
pass the assertions of `region_to_slice`. -/
theorem urlLoop_ends (alloc : Alloc) {slice : List UInt8} (hfit : slice.length < ptrdiffMax) :
    ∃ result, Iterate.iterate (urlLoopBody alloc) (urlLoopFuel (urlNormalize slice).2)
        (urlLoopStart slice) = some result ∧
      ((∃ err, result = .parserFail err) ∨ ∃ p err, result = .finished p err ∧
        ∀ r ∈ p.result.regions, (regionToSlice p.buf r).isSome = true) := by
  obtain ⟨result, hresult⟩ := Option.isSome_iff_exists.mp (urlLoop_isSome alloc hfit)
  obtain ⟨s, hreaches, hdone⟩ := Iterate.exists_reaches_of_iterate_eq_some hresult
  have hinv : UrlLoopInv (urlNormalize slice).2 s :=
    Iterate.reaches_invariant (I := UrlLoopInv (urlNormalize slice).2)
      (fun _ _ hinv hturn =>
        (urlLoopInv_turn ((length_urlNormalize_le slice).trans_lt hfit) hinv hturn).1)
      hreaches (urlLoopInv_start slice)
  refine ⟨result, hresult, ?_⟩
  rcases urlLoopBody_cases alloc hinv with
    ⟨_, hbody⟩ | ⟨_, err, p, _, hspec, ⟨_, hbody⟩ | ⟨_, hbody⟩⟩
  · rw [hbody, Sum.inr.injEq] at hdone
    exact .inl ⟨_, hdone.symm⟩
  · rw [hbody, Sum.inr.injEq] at hdone
    refine .inr ⟨p, _, hdone.symm, fun r hr => ?_⟩
    simp [regionToSlice, hspec.layout.regions_fit r hr]
  · simp [hbody] at hdone

/-- `url_parse` returns on every input. As long as the input fits in memory its loop ends after a
bounded number of turns, and no assertion fails on the way or behind it. -/
theorem urlParse_returns (alloc : Alloc) (slice : List UInt8) :
    (∃ r, urlParse alloc slice = some r) ∧
    (slice.length < ptrdiffMax → ∃ n result, n ≤ 18 * (slice.length + 2) ∧
      Iterate.iterate (urlLoopBody alloc) n (urlLoopStart slice) = some result ∧
      result ≠ .aborted ∧ ∀ p err, result = .finished p err →
        ∀ r ∈ p.result.regions, (regionToSlice p.buf r).isSome = true) := by
  constructor
  · rcases urlParse_cases alloc slice with
      ⟨_, hmemory⟩ | ⟨s, _, ⟨_, hfail⟩ | ⟨_, err, p, _, _, _, hdone⟩⟩
    · exact ⟨_, hmemory⟩
    · exact ⟨_, hfail⟩
    · exact ⟨_, hdone⟩
  · intro hfit
    obtain ⟨result, hresult, hend⟩ := urlLoop_ends alloc hfit
    have hlen := length_urlNormalize_le slice
    refine ⟨_, result, ?_, hresult, ?_, ?_⟩
    · simp only [urlLoopFuel]
      omega
    · rcases hend with ⟨err, rfl⟩ | ⟨p, err, rfl, _⟩ <;> simp
    · rintro p err rfl
      rcases hend with ⟨err', hfail⟩ | ⟨p', err', heq, hregions⟩
      · simp at hfail
      · rw [UrlLoopEnd.finished.injEq] at heq
        rw [heq.1]
        exact hregions

/-- The authority of this URL is read, and the parser goes back by its length. -/
theorem urlParse_returns_authority :
    (∃ r, urlParse allocAll (cstr "http://u:p@h/") = some r) ∧
    ∃ n result, n ≤ 18 * ((cstr "http://u:p@h/").length + 2) ∧
      Iterate.iterate (urlLoopBody allocAll) n (urlLoopStart (cstr "http://u:p@h/")) =
        some result ∧ result ≠ .aborted :=
  have hreturns := urlParse_returns allocAll (cstr "http://u:p@h/")
  have ⟨n, result, hn, hresult, hne, _⟩ := hreturns.2 (by decide)
  ⟨hreturns.1, n, result, hn, hresult, hne⟩

/-! ## The bounds of the components -/

def Url.InBounds (url : Url) : Prop := ∀ r ∈ url.regions, r.stop ≤ url.buf.length

/-- A parse that is not fatal yields a URL whose components lie inside its buffer. -/
def ComponentBounds (alloc : Alloc) (slice : List UInt8) : Prop :=
  ∃ r, urlParse alloc slice = some r ∧
    (r.fatal = false → ∃ url, r.url = some url ∧ url.InBounds)

/-- The authority meets no at sign behind some text, in any turn. -/
def NoUserinfo (alloc : Alloc) (slice : List UInt8) : Prop :=
  ∀ s, UrlReaches alloc slice s → ¬AtUserinfo s.1.advance

theorem noUserinfo_of_not_mem {alloc : Alloc} {slice : List UInt8}
    (h : '@'.toUInt8 ∉ (urlNormalize slice).2) : NoUserinfo alloc slice := by
  intro s hs hat
  have hinput : s.1.advance.input = (urlNormalize slice).2 := hs.inv.input_eq
  have hc := hat.2.1
  unfold UrlParser.c at hc
  split at hc
  · simp at hc
  · rw [hinput] at hc
    exact h (List.mem_of_getElem? hc)

/-- Without an at sign the user info stays empty in every state of the loop. -/
theorem userinfo_empty_of_noUserinfo {alloc : Alloc} {slice : List UInt8}
    (h : NoUserinfo alloc slice) {s : UrlParser × Option Error} (hs : UrlReaches alloc slice s) :
    s.1.result.username = .empty ∧ s.1.result.password = .empty := by
  refine hs.induction (motive := fun s => s.1.result.username = .empty ∧
    s.1.result.password = .empty) ⟨rfl, rfl⟩ ?_
  intro s err p hs ih _ _ hspec _
  rcases hspec.userinfo with ⟨huser, hpassword⟩ | hat
  · exact ⟨huser.trans ih.1, hpassword.trans ih.2⟩
  · exact absurd hat (h s hs)

theorem Layout.inBounds {p : UrlParser} (h : Layout p) (huser : p.result.username = .empty)
    (hpassword : p.result.password = .empty) : Url.InBounds ⟨p.result, p.buf⟩ := by
  simp only [Url.InBounds, UrlRegion.regions, List.forall_mem_cons, List.not_mem_nil,
    false_imp_iff, implies_true, and_true, huser, hpassword, Region.stop_empty]
  exact ⟨h.scheme_le', Nat.zero_le _, Nat.zero_le _, h.host_le', h.path_le', h.query_le',
    h.fragment_le'⟩

/-- As long as the authority records no user info, every component of a URL lies
inside its buffer. -/
theorem componentBounds_of_noUserinfo {alloc : Alloc} {slice : List UInt8}
    (h : NoUserinfo alloc slice) : ComponentBounds alloc slice := by
  rcases urlParse_cases alloc slice with
    ⟨_, hmemory⟩ | ⟨s, hs, ⟨_, hfail⟩ | ⟨_, err, p, _, hspec, _, hdone⟩⟩
  · exact ⟨_, hmemory, by simp⟩
  · exact ⟨_, hfail, by simp⟩
  · obtain ⟨huser, hpassword⟩ := userinfo_empty_of_noUserinfo h hs
    refine ⟨_, hdone, fun _ => ⟨_, rfl, ?_⟩⟩
    rcases hspec.userinfo with ⟨huser', hpassword'⟩ | hat
    · exact hspec.layout.inBounds (huser'.trans huser) (hpassword'.trans hpassword)
    · exact absurd hat (h s hs)

theorem componentBounds_plain_host :
    NoUserinfo allocAll (cstr "http://h/") ∧ ComponentBounds allocAll (cstr "http://h/") := by
  have h : NoUserinfo allocAll (cstr "http://h/") :=
    noUserinfo_of_not_mem (by decide)
  exact ⟨h, componentBounds_of_noUserinfo h⟩

/-- The password of this URL is recorded behind the end of the buffer: its text was
encoded there, and then dropped with the rest of the authority. -/
theorem componentBounds_fails_with_password :
    ¬ComponentBounds allocAll (cstr "http://u:;;;;;@h") := by
  rintro ⟨r, hr, hbounds⟩
  have hvalue : (urlParse allocAll (cstr "http://u:;;;;;@h")).map (fun r => (r.fatal, r.url)) =
      some (false, some { UrlRegion.initial with
        scheme := ⟨0, 4⟩, username := ⟨7, 1⟩, password := ⟨12, 5⟩
        buf := cstr "httpu:;;;;;" }) := by
    decide +kernel
  rw [hr, Option.map_some, Option.some.injEq, Prod.mk.injEq] at hvalue
  obtain ⟨url, hurl, hin⟩ := hbounds hvalue.1
  rw [hvalue.2, Option.some.injEq] at hurl
  subst hurl
  exact absurd (hin ⟨12, 5⟩ (by decide)) (by decide)

end PosixThreads
