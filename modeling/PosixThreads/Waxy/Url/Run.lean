import PosixThreads.Waxy.Url.Bounds

/-!
# Running the parser over a piece of the input

`At p pre rest` says that the next turn reads the first byte of `rest`, behind `pre`,
and `Runs alloc lossy quiet p p'` that the loop comes from `p` to `p'`, and finds no
error on the way if `quiet`. The lemmas of this file move these two along: by one byte,
over a piece of text that a state only copies to the buffer (`goes_pushed`), and back to
the start of a component.

A push may fail for want of memory, and the loop then comes to `STATE_FAIL` instead.
This is allowed for if `lossy` is true. If it is false every push has to succeed,
which is what `Room` says about the allocator and the length of the buffer.
-/

namespace PosixThreads

/-- The next turn of the loop reads the first byte of `rest`, or `EOF`. -/
structure At (p : UrlParser) (pre rest : List UInt8) : Prop where
  input_eq : p.input = pre ++ rest
  pos_eq : p.advance.pos.toNat = pre.length
  fits : (pre ++ rest).length < ptrdiffMax

/-- There is memory for a buffer of length `n`, unless a failure is allowed for. -/
def Room (alloc : Alloc) (lossy : Prop) (n : ℕ) : Prop :=
  lossy ∨ ((∀ k, alloc k = true) ∧ n < ptrdiffMax)

theorem Room.mono {alloc : Alloc} {lossy : Prop} {m n : ℕ} (h : Room alloc lossy n)
    (hmn : m ≤ n) : Room alloc lossy m :=
  h.imp_right fun ⟨halloc, hn⟩ => ⟨halloc, hmn.trans_lt hn⟩

def ComesToFail (alloc : Alloc) (s : UrlParser × Option Error) : Prop :=
  ∃ q err, Iterate.Reaches (urlLoopBody alloc) s (q, err) ∧ q.state = .fail

/-- The loop comes from `p` to `p'`, whatever the errors are, or fails if `lossy`. -/
def Goes (alloc : Alloc) (lossy : Prop) (p p' : UrlParser) : Prop :=
  ∀ err, Layout p →
    (Layout p' ∧ ∃ err', Iterate.Reaches (urlLoopBody alloc) (p, err) (p', err')) ∨
    (lossy ∧ ComesToFail alloc (p, err))

/-- The loop comes from `p` to `p'`, or fails if `lossy`. It finds no error if `quiet`. -/
def Runs (alloc : Alloc) (lossy quiet : Prop) (p p' : UrlParser) : Prop :=
  ∀ err, Layout p →
    (Layout p' ∧ ∃ err', Iterate.Reaches (urlLoopBody alloc) (p, err) (p', err') ∧
      (quiet → err' = err)) ∨
    (lossy ∧ ComesToFail alloc (p, err))

theorem urlLoopBody_of_step {alloc : Alloc} {p q : UrlParser} {err err' : Option Error}
    (hstate : p.state ≠ .fail) (hstep : urlParserStep alloc p.advance = some (err, q))
    (heof : q.isEof = false) :
    Iterate.Turn (urlLoopBody alloc) (p, err') (q, errorCombine err' err) := by
  have hstate' : p.advance.state ≠ .fail := hstate
  simp [Iterate.Turn, urlLoopBody, hstate', hstep, heof]

namespace Runs

variable {alloc : Alloc} {lossy quiet : Prop} {p q r : UrlParser}

theorem goes (h : Runs alloc lossy quiet p q) : Goes alloc lossy p q := by
  intro err hlayout
  rcases h err hlayout with ⟨hlayout', err', hreach, _⟩ | hfail
  · exact .inl ⟨hlayout', err', hreach⟩
  · exact .inr hfail

theorem refl (p : UrlParser) : Runs alloc lossy quiet p p :=
  fun err hlayout => .inl ⟨hlayout, err, .refl, fun _ => rfl⟩

theorem trans (hpq : Runs alloc lossy quiet p q) (hqr : Runs alloc lossy quiet q r) :
    Runs alloc lossy quiet p r := by
  intro err hlayout
  rcases hpq err hlayout with ⟨hlayout₁, err₁, h₁, hquiet₁⟩ | hfail
  · rcases hqr err₁ hlayout₁ with ⟨hlayout₂, err₂, h₂, hquiet₂⟩ | ⟨hlossy, s, err₂, h₂, hs⟩
    · exact .inl ⟨hlayout₂, err₂, h₁.trans h₂, fun h => (hquiet₂ h).trans (hquiet₁ h)⟩
    · exact .inr ⟨hlossy, s, err₂, h₁.trans h₂, hs⟩
  · exact .inr hfail

theorem turn (hstate : p.state ≠ .fail)
    (hstep : Layout p → ∃ err, urlParserStep alloc p.advance = some (err, q) ∧
      (quiet → err = none))
    (heof : q.isEof = false) : Runs alloc lossy quiet p q := by
  intro err' hlayout
  obtain ⟨err, hstep', hquiet⟩ := hstep hlayout
  obtain ⟨_, _, hstep'', hspec⟩ := turnSpec_step alloc hlayout.advance hstate
  rw [hstep', Option.some.injEq, Prod.mk.injEq] at hstep''
  refine .inl ⟨hstep''.2 ▸ hspec.layout, _, .single (urlLoopBody_of_step hstate hstep' heof),
    fun h => ?_⟩
  rw [hquiet h, errorCombine_none_right]

theorem push {c : UInt8} {bytes : List UInt8} {err err' : Option Error}
    {next : UrlParser → UrlTurn} (hstate : p.state ≠ .fail) (hc : p.advance.c = some c)
    (hroom : Room alloc lossy (p.buf.length + bytes.length))
    (hstep : urlParserStep alloc p.advance = appendOrFail alloc p.advance bytes err next)
    (hnext : Layout p → p.buf.length + bytes.length < ptrdiffMax →
      next { p.advance with buf := p.buf ++ bytes, allocs := p.allocs + 1 } = some (err', q))
    (hquiet : quiet → err' = none) (heof : q.isEof = false) : Runs alloc lossy quiet p q := by
  intro err₀ hlayout
  rcases hfits : p.advance.append alloc bytes with ⟨_ | pushErr, p'⟩
  · have hok : p.buf.length + bytes.length < ptrdiffMax ∧
        p' = { p.advance with buf := p.buf ++ bytes, allocs := p.allocs + 1 } := by
      rcases UrlParser.append_cases alloc p.advance bytes with ⟨hlt, happend⟩ | happend
      · rw [hfits, Prod.mk.injEq] at happend
        exact ⟨hlt, happend.2⟩
      · simp [hfits] at happend
    refine turn hstate (fun _ => ⟨err', ?_, hquiet⟩) heof err₀ hlayout
    simp only [hstep, appendOrFail, hfits, hok.2, hnext hlayout hok.1]
  · have hfailed : pushErr = .fromCommon .memoryAllocationFailure ∧
        p' = { p.advance with allocs := p.advance.allocs + 1 } := by
      rcases UrlParser.append_cases alloc p.advance bytes with ⟨_, happend⟩ | happend
      · simp [hfits] at happend
      · rw [hfits, Prod.mk.injEq, Option.some.injEq] at happend
        exact happend
    rcases hroom with hlossy | ⟨halloc, hlt⟩
    · have hfail : urlParserStep alloc p.advance =
          some (errorCombine (some pushErr) err, { p' with state := .fail }) := by
        simp only [hstep, appendOrFail, hfits, failWith]
      have heof' : UrlParser.isEof { p' with state := .fail } = false := by
        rw [hfailed.2]
        exact UrlParser.isEof_of_c hc
      exact .inr ⟨hlossy, { p' with state := .fail }, _,
        .single (urlLoopBody_of_step hstate hfail heof'), rfl⟩
    · exfalso
      have happend : p.advance.append alloc bytes =
          (none, { p.advance with buf := p.buf ++ bytes, allocs := p.allocs + 1 }) := by
        have hbuf : p.advance.buf = p.buf := rfl
        unfold UrlParser.append
        rw [if_pos]
        · rfl
        · simp only [halloc, hbuf, Bool.true_and, decide_eq_true_eq]
          omega
      simp [hfits] at happend

end Runs

namespace At

variable {p q : UrlParser} {pre rest : List UInt8}

theorem of_pos (hinput : p.input = pre ++ rest) (hpos : p.pos.toNat + 1 = pre.length)
    (hfit : (pre ++ rest).length < ptrdiffMax) : At p pre rest ∧ p.isEof = false := by
  have hlt : p.pos.toNat < (pre ++ rest).length := by
    simp only [List.length_append]
    omega
  refine ⟨⟨hinput, ?_, hfit⟩, ?_⟩
  · rw [← hpos]
    exact toNat_add_one_of_lt hfit hlt
  · simp only [UrlParser.isEof, hinput, decide_eq_false_iff_not]
    omega

theorem c_eq (h : At p pre rest) : p.advance.c = rest.head? := by
  have hinput : p.advance.input = pre ++ rest := h.input_eq
  unfold UrlParser.c UrlParser.isEof
  rw [hinput, h.pos_eq]
  cases rest with
  | nil => simp
  | cons c rest => simp

theorem remaining_eq {c : UInt8} (h : At p pre (c :: rest)) :
    p.advance.remaining = rest ++ [0] := by
  have hc : p.advance.c = some c := h.c_eq
  have hinput : p.advance.input = (pre ++ [c]) ++ rest := by
    rw [List.append_assoc]
    exact h.input_eq
  unfold UrlParser.remaining
  rw [UrlParser.isEof_of_c hc, if_neg Bool.false_ne_true, hinput, h.pos_eq,
    List.drop_left' (by simp)]

theorem next {c : UInt8} (h : At p pre (c :: rest)) (hinput : q.input = p.input)
    (hpos : q.pos = p.advance.pos) : At q (pre ++ [c]) rest ∧ q.isEof = false := by
  refine of_pos ?_ ?_ ?_
  · rw [hinput, h.input_eq]
    simp
  · rw [hpos, h.pos_eq]
    simp
  · have := h.fits
    simpa using this

theorem skip {c d : UInt8} (h : At p pre (c :: d :: rest)) (hinput : q.input = p.input)
    (hpos : q.pos = p.advance.pos + 1) : At q (pre ++ [c, d]) rest ∧ q.isEof = false := by
  refine of_pos ?_ ?_ ?_
  · rw [hinput, h.input_eq]
    simp
  · have hlt : p.advance.pos.toNat < (pre ++ c :: d :: rest).length := by
      rw [h.pos_eq]
      simp
    rw [hpos, toNat_add_one_of_lt h.fits hlt, h.pos_eq]
    simp
  · have := h.fits
    simpa using this

theorem rewind {t : List UInt8} (h : At p (pre ++ t) rest) (hpre : pre ≠ [])
    (hinput : q.input = p.input)
    (hpos : q.pos = p.advance.pos - UInt64.ofNat (t.length + 1)) :
    At q pre (t ++ rest) ∧ q.isEof = false := by
  have hlen : 0 < pre.length := List.length_pos_iff.mpr hpre
  have hfit : (pre ++ (t ++ rest)).length < ptrdiffMax := by
    rw [← List.append_assoc]
    exact h.fits
  have hof : (UInt64.ofNat (t.length + 1)).toNat = t.length + 1 := by
    apply UInt64.toNat_ofNat_of_lt'
    simp only [List.length_append, ptrdiffMax, UInt64.size] at hfit ⊢
    omega
  refine of_pos ?_ ?_ hfit
  · rw [hinput, h.input_eq, List.append_assoc]
  · rw [hpos, UInt64.toNat_sub_of_le, h.pos_eq, hof]
    · simp only [List.length_append]
      omega
    · rw [UInt64.le_iff_toNat_le, h.pos_eq, hof]
      simp only [List.length_append]
      omega

theorem back (h : At p pre rest) (hpre : pre ≠ []) (hinput : q.input = p.input)
    (hpos : q.pos = p.advance.pos - 1) : At q pre rest ∧ q.isEof = false := by
  have h' : At p (pre ++ []) rest := by simpa using h
  simpa using h'.rewind hpre hinput (by simpa using hpos)

theorem isEof (h : At p pre []) (hinput : q.input = p.input)
    (hpos : q.pos = p.advance.pos) : q.isEof = true := by
  simp only [UrlParser.isEof, hinput, hpos, h.pos_eq, h.input_eq]
  simp

end At

/-- The parser after a piece of text has been encoded byte by byte to the buffer. -/
def UrlParser.pushed (p : UrlParser) (enc : UInt8 → List UInt8) (text : List UInt8) :
    UrlParser :=
  { p with
    buf := p.buf ++ text.flatMap enc
    pos := p.pos + UInt64.ofNat text.length
    allocs := p.allocs + text.length }

/-- A piece of text that has been pushed behind the last slice is the next one. -/
theorem UrlParser.pushed_advance {p : UrlParser} {enc : UInt8 → List UInt8}
    {text out : List UInt8} (hout : text.flatMap enc = out) (hslice : p.sliceStart = p.buf.length) :
    (p.pushed enc text).advance.buf = p.buf ++ out ∧
      (p.pushed enc text).advance.sliceStart = p.buf.length ∧
      (p.pushed enc text).advance.bufLen = out.length := by
  have hbuf : (p.pushed enc text).advance.buf = p.buf ++ out := by rw [← hout]; rfl
  have hsliceq : (p.pushed enc text).advance.sliceStart = p.buf.length := hslice
  refine ⟨hbuf, hsliceq, ?_⟩
  simp [UrlParser.bufLen, hbuf, hsliceq]

/-- A state that pushes every byte of a piece of text, and stays, reads that piece. At each byte
the rest of the piece is known. -/
theorem goes_pushed_ahead {alloc : Alloc} {lossy : Prop} (quiet : Prop)
    {enc : UInt8 → List UInt8} (text : List UInt8) {p : UrlParser} {pre rest : List UInt8}
    (hat : At p pre (text ++ rest)) (hstate : p.state ≠ .fail)
    (hturn : ∀ t c t', text = t ++ c :: t' →
      ∀ (q : UrlParser) (buf : List UInt8) (pos : UInt64) (allocs : ℕ),
      q = { p with buf := buf, pos := pos, allocs := allocs } → q.c = some c →
      q.remaining = t' ++ rest ++ [0] →
      ∃ err err', urlParserStep alloc q =
        appendOrFail alloc q (enc c) err (fun p => some (err', p)) ∧ (quiet → err' = none))
    (hroom : Room alloc lossy (p.buf ++ text.flatMap enc).length) :
    Runs alloc lossy quiet p (p.pushed enc text) ∧ At (p.pushed enc text) (pre ++ text) rest := by
  induction text generalizing p pre with
  | nil =>
      have hp : p.pushed enc [] = p := by simp [UrlParser.pushed]
      rw [hp]
      exact ⟨.refl p, by simpa using hat⟩
  | cons c text ih =>
      have hc : p.advance.c = some c := by
        rw [hat.c_eq]
        simp
      have hroom' : Room alloc lossy (p.buf.length + (enc c).length) :=
        hroom.mono (by simp only [List.flatMap_cons, List.length_append]; omega)
      obtain ⟨err, err', hstep, hquiet⟩ := hturn [] c text rfl p.advance p.buf p.advance.pos
        p.allocs rfl hc hat.remaining_eq
      obtain ⟨hnext, heof⟩ := hat.next
        (q := { p.advance with buf := p.advance.buf ++ enc c, allocs := p.advance.allocs + 1 })
        rfl rfl
      obtain ⟨hgoes, hat'⟩ := ih hnext hstate
        (fun t d t' htext q buf pos allocs hq => hturn (c :: t) d t' (by rw [htext]; rfl) q buf
          pos allocs hq)
        (by simpa [UrlParser.advance] using hroom)
      have hpushed : UrlParser.pushed { p.advance with
          buf := p.advance.buf ++ enc c
          allocs := p.advance.allocs + 1 } enc text = p.pushed enc (c :: text) := by
        simp only [UrlParser.pushed, UrlParser.advance, List.flatMap_cons, List.append_assoc,
          List.length_cons]
        congr 1
        · rw [UInt64.ofNat_add, UInt64.add_assoc, UInt64.add_comm 1]
          rfl
        · omega
      rw [hpushed] at hgoes hat'
      exact ⟨(Runs.push hstate hc hroom' hstep (fun _ _ => rfl) hquiet heof).trans hgoes,
        by simpa using hat'⟩

/-- The same where the state treats all bytes of the piece alike. -/
theorem goes_pushed {alloc : Alloc} {lossy : Prop} (quiet : Prop)
    {enc : UInt8 → List UInt8} (text : List UInt8) {p : UrlParser} {pre rest : List UInt8}
    (hat : At p pre (text ++ rest)) (hstate : p.state ≠ .fail)
    (hturn : ∀ c ∈ text, ∀ (q : UrlParser) (buf : List UInt8) (pos : UInt64) (allocs : ℕ),
      q = { p with buf := buf, pos := pos, allocs := allocs } → q.c = some c →
      ∃ err, urlParserStep alloc q = appendOrFail alloc q (enc c) err fun p => some (none, p))
    (hroom : Room alloc lossy (p.buf ++ text.flatMap enc).length) :
    Runs alloc lossy quiet p (p.pushed enc text) ∧ At (p.pushed enc text) (pre ++ text) rest := by
  refine goes_pushed_ahead quiet text hat hstate
    (fun t c t' htext q buf pos allocs hq hc _ => ?_) hroom
  obtain ⟨err, hstep⟩ := hturn c (by simp [htext]) q buf pos allocs hq hc
  exact ⟨err, none, hstep, fun _ => rfl⟩

end PosixThreads
