import PosixThreads.Waxy.Url.Failure
import PosixThreads.Waxy.Url.Normalize
import PosixThreads.Waxy.Url.Port

/-!
# The value of a port

What follows the port may be any text that begins with a delimiter. The states that read it record
no port and come to `STATE_FAIL` for want of memory only. So a port in the range is still there at
the end, and one that is too high is an error, whatever is found behind it.
-/

namespace PosixThreads

/-! ## Behind the port -/

/-- A turn of the states behind the port. It moves back without pushing anything, or it pushes at
most three bytes for a byte of the input. It fails if there is no memory for them. -/
structure LateTurn (alloc : Alloc) (p p' : UrlParser) : Prop where
  port_eq : p'.result.port = p.result.port
  portNull_eq : p'.result.portNull = p.result.portNull
  grows : p'.buf.length = p.buf.length ∧ (p'.pos = p.pos ∨ p'.pos = p.pos - 1) ∨
    p.c ≠ none ∧ p'.pos = p.pos ∧ p'.buf.length ≤ p.buf.length + 3
  fails : p'.state = .fail → alloc p.allocs = false ∨ ptrdiffMax ≤ p.buf.length + 3

structure LateFrame (p p' : UrlParser) : Prop where
  length_eq : p'.buf.length = p.buf.length
  pos_eq : p'.pos = p.pos
  state_ne : p'.state ≠ .fail
  port_eq : p'.result.port = p.result.port
  portNull_eq : p'.result.portNull = p.result.portNull

section Late

variable {alloc : Alloc} {p q : UrlParser}

theorem LateFrame.turn (h : LateFrame p q) : LateTurn alloc p q :=
  ⟨h.port_eq, h.portNull_eq, .inl ⟨h.length_eq, .inl h.pos_eq⟩, fun hq => absurd hq h.state_ne⟩

/-- What is pushed is at most three bytes, and what follows pushes nothing. -/
theorem lateTurn_append {c : UInt8} (hc : p.c = some c) (bytes : List UInt8)
    (hbytes : bytes.length ≤ 3) (err : Option Error) {next : UrlParser → UrlTurn}
    (hnext : p.buf.length + bytes.length < ptrdiffMax →
      UrlTurn.Holds (next { p with buf := p.buf ++ bytes, allocs := p.allocs + 1 })
        fun _ => LateFrame { p with buf := p.buf ++ bytes, allocs := p.allocs + 1 }) :
    UrlTurn.Holds (appendOrFail alloc p bytes err next) fun _ => LateTurn alloc p := by
  have hsome : p.c ≠ none := by simp [hc]
  by_cases hok : (alloc p.allocs && p.buf.length + bytes.length + 1 ≤ ptrdiffMax) = true
  · have happend : p.append alloc bytes =
        (none, { p with buf := p.buf ++ bytes, allocs := p.allocs + 1 }) := by
      rw [UrlParser.append, if_pos hok]
    simp only [Bool.and_eq_true, decide_eq_true_eq] at hok
    simp only [appendOrFail, happend]
    refine (hnext (by omega)).imp fun _ q hq => ?_
    have hlen := hq.length_eq
    simp only [List.length_append] at hlen
    exact ⟨hq.port_eq, hq.portNull_eq, .inr ⟨hsome, hq.pos_eq, by omega⟩,
      fun h => absurd h hq.state_ne⟩
  · have happend : p.append alloc bytes =
        (some (.fromCommon .memoryAllocationFailure), { p with allocs := p.allocs + 1 }) := by
      rw [UrlParser.append, if_neg hok]
    have hwant : alloc p.allocs = false ∨ ptrdiffMax ≤ p.buf.length + 3 := by
      rw [Bool.and_eq_true, decide_eq_true_eq, not_and] at hok
      cases hmem : alloc p.allocs with
      | false => exact .inl rfl
      | true =>
          have := hok hmem
          exact .inr (by omega)
    simp only [appendOrFail, happend, failWith]
    exact UrlTurn.holds_some ⟨rfl, rfl, .inl ⟨rfl, .inl rfl⟩, fun _ => hwant⟩

theorem lateTurn_encode {c : UInt8} (hc : p.c = some c) (hstate : p.state ≠ .fail)
    (set : PercencSet) (err err' : Option Error) :
    UrlTurn.Holds (appendOrFail alloc p (percentEncode set c) err fun p => some (err', p))
      fun _ => LateTurn alloc p := by
  refine lateTurn_append hc _ ?_ err fun _ => UrlTurn.holds_some ⟨rfl, rfl, hstate, rfl, rfl⟩
  rw [length_percentEncode]
  split <;> omega

theorem lateTurn_pathStart (hstate : p.state = .pathStart) :
    UrlTurn.Holds (urlParserPathStart p) fun _ => LateTurn alloc p := by
  have hback : LateTurn alloc p { p with state := .path, pos := p.pos - 1 } :=
    ⟨rfl, rfl, .inl ⟨rfl, .inr rfl⟩, by simp⟩
  have hforth : LateTurn alloc p { p with state := .path } :=
    LateFrame.turn ⟨rfl, rfl, by simp, rfl, rfl⟩
  unfold urlParserPathStart
  dsimp only
  split
  · split
    · exact UrlTurn.holds_some hback
    · exact UrlTurn.holds_some hforth
  · split
    · exact UrlTurn.holds_some (LateFrame.turn ⟨rfl, rfl, by simp [startQuery], rfl, rfl⟩)
    · split
      · exact UrlTurn.holds_some (LateFrame.turn ⟨rfl, rfl, by simp [startFragment], rfl, rfl⟩)
      · split
        · split
          · exact UrlTurn.holds_some hback
          · exact UrlTurn.holds_some hforth
        · exact UrlTurn.holds_some (LateFrame.turn ⟨rfl, rfl, by simp [hstate], rfl, rfl⟩)

theorem lateFrame_pathNext (h : Buffered p) (hstate : p.state = .path) (err : Option Error) :
    UrlTurn.Holds (urlParserPathNext err p) fun _ => LateFrame p := by
  simp only [urlParserPathNext, h.extendPath_eq, Option.bind_eq_bind, Option.bind_some]
  split
  · exact UrlTurn.holds_some ⟨rfl, rfl, by simp [startQuery], rfl, rfl⟩
  · split
    · exact UrlTurn.holds_some ⟨rfl, rfl, by simp [startFragment], rfl, rfl⟩
    · exact UrlTurn.holds_some ⟨rfl, rfl, by simp [hstate], rfl, rfl⟩

theorem lateTurn_pathEnd (h : Layout p) (hstate : p.state = .path) :
    UrlTurn.Holds (urlParserPathEnd alloc p) fun _ => LateTurn alloc p := by
  obtain ⟨buf, hlen, _, hfix⟩ := fixDriveLetter_spec h
  have hbuffered : Buffered { p with buf := buf } :=
    ⟨hlen ▸ h.sliceStart_le, hlen ▸ h.buf_lt⟩
  -- a turn of the parser with the corrected drive letter is one of `p`
  have hfixed : ∀ q, LateTurn alloc { p with buf := buf } q → LateTurn alloc p q := by
    intro q hq
    obtain ⟨hport, hportNull, hgrows, hfails⟩ := hq
    simp only [hlen] at hgrows hfails
    exact ⟨hport, hportNull, hgrows, hfails⟩
  simp only [urlParserPathEnd, hfix, Option.bind_eq_bind, Option.bind_some]
  split
  · rename_i c hc
    split
    · refine (lateTurn_append (p := { p with buf := buf }) hc [c] (by simp) _ fun hfit => ?_).imp
        fun _ q hq => hfixed q hq
      have happended : Buffered { p with buf := buf ++ [c], allocs := p.allocs + 1 } :=
        ⟨hbuffered.sliceStart_le.trans (by simp), by simpa using hfit⟩
      exact lateFrame_pathNext happended hstate _
    · exact (lateFrame_pathNext hbuffered hstate _).imp fun _ q hq => hfixed q hq.turn
  · exact (lateFrame_pathNext hbuffered hstate _).imp fun _ q hq => hfixed q hq.turn

theorem lateTurn_path (h : Layout p) (hstate : p.state = .path) :
    UrlTurn.Holds (urlParserPath alloc p) fun _ => LateTurn alloc p := by
  unfold urlParserPath
  split
  · exact lateTurn_pathEnd h hstate
  · split
    · rename_i c hc
      exact lateTurn_encode hc (by simp [hstate]) _ _ _
    · rename_i hdelim _ hc
      simp [hc, isDelimiter] at hdelim

theorem lateTurn_opaquePath (h : Buffered p) (hstate : p.state = .opaquePath) :
    UrlTurn.Holds (urlParserOpaquePath alloc p) fun _ => LateTurn alloc p := by
  unfold urlParserOpaquePath
  split
  · exact UrlTurn.holds_some (LateFrame.turn ⟨rfl, rfl, by simp [hstate], rfl, rfl⟩)
  · rename_i c hc
    simp only [h.takePath_eq, Option.bind_eq_bind, Option.bind_some]
    split
    · exact UrlTurn.holds_some (LateFrame.turn ⟨rfl, rfl, by simp [startQuery], rfl, rfl⟩)
    · split
      · exact UrlTurn.holds_some (LateFrame.turn ⟨rfl, rfl, by simp [startFragment], rfl, rfl⟩)
      · exact lateTurn_encode hc (by simp [hstate]) _ _ _

theorem lateTurn_query (h : Buffered p) (hstate : p.state = .query) :
    UrlTurn.Holds (urlParserQuery alloc p) fun _ => LateTurn alloc p := by
  unfold urlParserQuery
  split
  · simp only [h.takeQuery_eq, Option.bind_eq_bind, Option.bind_some]
    exact UrlTurn.holds_some (LateFrame.turn ⟨rfl, rfl, by simp [hstate], rfl, rfl⟩)
  · rename_i c hc
    simp only [h.takeQuery_eq, Option.bind_eq_bind, Option.bind_some]
    split
    · exact UrlTurn.holds_some (LateFrame.turn ⟨rfl, rfl, by simp [startFragment], rfl, rfl⟩)
    · exact lateTurn_encode hc (by simp [hstate]) _ _ _

theorem lateTurn_fragment (h : Buffered p) (hstate : p.state = .fragment) :
    UrlTurn.Holds (urlParserFragment alloc p) fun _ => LateTurn alloc p := by
  unfold urlParserFragment
  split
  · simp only [h.takeFragment_eq, Option.bind_eq_bind, Option.bind_some]
    exact UrlTurn.holds_some (LateFrame.turn ⟨rfl, rfl, by simp [hstate], rfl, rfl⟩)
  · rename_i c hc
    exact lateTurn_encode hc (by simp [hstate]) _ _ _

theorem lateTurn_step (h : Layout p) (hlate : 12 ≤ p.state.rank) (hfail : p.state ≠ .fail) :
    UrlTurn.Holds (urlParserStep alloc p) fun _ => LateTurn alloc p := by
  unfold urlParserStep
  cases hstate : p.state with
  | pathStart => exact lateTurn_pathStart hstate
  | path => exact lateTurn_path h hstate
  | opaquePath => exact lateTurn_opaquePath h.toBuffered hstate
  | query => exact lateTurn_query h.toBuffered hstate
  | fragment => exact lateTurn_fragment h.toBuffered hstate
  | fail => exact absurd hstate hfail
  | _ => simp [hstate, UrlParserState.rank] at hlate

end Late

/-! ## The rest of the parse -/

/-- There is memory for all that is pushed for an input of length `n`. -/
def EnoughMemory (alloc : Alloc) (n : ℕ) : Prop :=
  (∀ k, alloc k = true) ∧ 3 * n + 4 ≤ ptrdiffMax

/-- What holds behind the port `port`. With enough memory there is no failure, and the bytes that
have been pushed and those that may still be are at most `n`. -/
structure BehindPort (alloc : Alloc) (n : ℕ) (port : UInt16) (p : UrlParser) : Prop where
  late : 12 ≤ p.state.rank
  port_eq : p.result.port = port
  portNull_eq : p.result.portNull = false
  fails : p.state = .fail → ¬EnoughMemory alloc n
  bound : EnoughMemory alloc n →
    p.buf.length + 3 * (p.input.length - p.advance.pos.toNat) ≤ 3 * n

theorem BehindPort.turn {alloc : Alloc} {n : ℕ} {port : UInt16} {q p : UrlParser}
    {err err' : Option Error} {slice : List UInt8} (h : BehindPort alloc n port q)
    (hs : UrlReaches alloc slice (q, err)) (hfail : q.state ≠ .fail)
    (hstep : urlParserStep alloc q.advance = some (err', p)) (hspec : TurnSpec q.advance p) :
    BehindPort alloc n port p := by
  have hlate : UrlTurn.Holds (urlParserStep alloc q.advance) fun _ => LateTurn alloc q.advance :=
    lateTurn_step hs.inv.layout.advance h.late hfail
  obtain ⟨_, _, hstep', hturn⟩ := hlate
  rw [hstep, Option.some.injEq, Prod.mk.injEq] at hstep'
  obtain ⟨rfl, rfl⟩ := hstep'
  have hpos : q.advance.pos.toNat ≤ (urlNormalize slice).2.length := hs.inv.pos_le
  have hinput : p.input = q.input := hspec.input_eq
  have hfit := (length_urlNormalize_le slice).trans_lt hs.fits
  have hin : q.input = (urlNormalize slice).2 := hs.inv.input_eq
  rw [← hin] at hfit hpos
  have hbuf : q.advance.buf = q.buf := rfl
  refine ⟨?_, hturn.port_eq.trans h.port_eq, hturn.portNull_eq.trans h.portNull_eq, ?_, ?_⟩
  · have hlate := h.late
    rcases hspec.moves with ⟨hstate, _⟩ | hrank
    · rw [hstate]
      exact hlate
    · exact hlate.trans hrank.le
  · rintro hp ⟨halloc, hn⟩
    have hbound := h.bound ⟨halloc, hn⟩
    rcases hturn.fails hp with hnone | hlong
    · rw [halloc] at hnone
      simp at hnone
    · rw [hbuf] at hlong
      omega
  · intro hmemory
    have hbound := h.bound hmemory
    have hnext : (q.advance.pos + 1).toNat = q.advance.pos.toNat + 1 := by
      simp only [UInt64.toNat_add, UInt64.toNat_one, ptrdiffMax] at hfit ⊢
      omega
    rw [hinput]
    have hgrows := hturn.grows
    rw [hbuf] at hgrows
    rcases hgrows with ⟨hlen, hpos' | hpos'⟩ | ⟨hc, hpos', hlen⟩
    · have hadvance : p.advance.pos = q.advance.pos + 1 := by rw [← hpos']; rfl
      rw [hadvance, hnext]
      omega
    · have hadvance : p.advance.pos = q.advance.pos := by
        rw [UrlParser.advance, hpos', UInt64.sub_add_cancel]
      rw [hadvance]
      omega
    · have hadvance : p.advance.pos = q.advance.pos + 1 := by rw [← hpos']; rfl
      have hlt : q.advance.pos.toNat < q.input.length := by
        obtain ⟨c, hc⟩ := Option.ne_none_iff_exists'.mp hc
        have heof := UrlParser.isEof_of_c hc
        simp only [UrlParser.isEof, decide_eq_false_iff_not, not_le] at heof
        exact heof
      rw [hadvance, hnext]
      omega

/-- The port behind which the parser is, is the one that is returned, unless memory is wanting. -/
theorem UrlReaches.urlParse_behindPort {alloc : Alloc} {n : ℕ} {port : UInt16} {p : UrlParser}
    {err : Option Error} {slice : List UInt8} (hs : UrlReaches alloc slice (p, err))
    (h : BehindPort alloc n port p) :
    (¬EnoughMemory alloc n ∧ ∃ e, urlParse alloc slice = some ⟨some e, true, none⟩) ∨
      ∃ err url, urlParse alloc slice = some ⟨err, false, some url⟩ ∧ url.portNull = false ∧
        url.port = port := by
  rcases hs.urlParse_keep_reached h fun q e err p hq hfail hI hstep hspec =>
      hI.turn hq hfail hstep hspec with
    ⟨t, ht, hI, hstate, hfail⟩ | ⟨err, p, hI, _, hdone⟩
  · obtain ⟨e, he⟩ := Option.isSome_iff_exists.mp ((schemeInv_reaches ht).fail hstate)
    rw [he] at hfail
    exact .inl ⟨hI.fails hstate, e, hfail⟩
  · exact .inr ⟨err, _, hdone, hI.portNull_eq, hI.port_eq⟩

/-! ## The text in front of the continuation -/

theorem rdropWhile_append_cons {f : UInt8 → Bool} {c : UInt8} (hc : f c = false)
    (xs ys : List UInt8) : (xs ++ c :: ys).rdropWhile f = xs ++ c :: ys.rdropWhile f := by
  have hstop : (c :: xs.reverse).dropWhile f = c :: xs.reverse := by
    rw [List.dropWhile_cons, if_neg (by simp [hc])]
  have hdrop : (ys.reverse ++ c :: xs.reverse).dropWhile f =
      ys.reverse.dropWhile f ++ c :: xs.reverse := by
    rw [List.dropWhile_append]
    split
    · rename_i hempty
      rw [List.isEmpty_iff.mp hempty, hstop, List.nil_append]
    · rfl
  simp only [List.rdropWhile, List.reverse_append, List.reverse_cons, List.append_assoc,
    List.singleton_append, hdrop, List.reverse_reverse]

theorem isBreak_of_ge {c : UInt8} (h : 0x21 ≤ c) : isBreak c = false := by
  cases hbreak : isBreak c with
  | false => rfl
  | true =>
      have hspace := isC0Space_of_isBreak hbreak
      rw [isC0Space_of_ge h] at hspace
      simp at hspace

theorem stripped_append {text rest : List UInt8} (hne : text ≠ []) (htext : ∀ c ∈ text, 0x21 ≤ c)
    (hrest : ∀ c ∈ rest.head?, 0x21 ≤ c) :
    leading (text ++ rest) = [] ∧ ∃ rest', stripped (text ++ rest) = text ++ rest' ∧
      rest'.head? = rest.head? ∧ rest'.length ≤ rest.length := by
  obtain ⟨a, tail, rfl⟩ := List.exists_cons_of_ne_nil hne
  have ha : isC0Space a = false := isC0Space_of_ge (htext a List.mem_cons_self)
  have hfirst : ((a :: tail) ++ rest).dropWhile isC0Space = (a :: tail) ++ rest := by
    rw [List.cons_append, List.dropWhile_cons, if_neg (by simp [ha])]
  refine ⟨by simp [leading, ha], ?_⟩
  rw [stripped, hfirst]
  cases rest with
  | nil =>
      obtain ⟨init, z, hz⟩ := List.eq_nil_or_concat (a :: tail) |>.resolve_left (by simp)
      rw [List.concat_eq_append] at hz
      have hlast : isC0Space z = false := isC0Space_of_ge (htext z (by simp [hz]))
      refine ⟨[], ?_, rfl, le_rfl⟩
      rw [hz, List.append_nil, rdropWhile_append_cons hlast]
      rfl
  | cons d rest =>
      have hd : isC0Space d = false := isC0Space_of_ge (hrest d rfl)
      refine ⟨d :: rest.rdropWhile isC0Space, rdropWhile_append_cons hd _ _, rfl, ?_⟩
      exact Nat.succ_le_succ (List.rdropWhile_prefix isC0Space rest).length_le

theorem urlNormalize_append {text rest : List UInt8} (hne : text ≠ [])
    (htext : ∀ c ∈ text, 0x21 ≤ c) (hrest : ∀ c ∈ rest.head?, 0x21 ≤ c) :
    ∃ rest', (urlNormalize (text ++ rest)).2 = text ++ rest' ∧ rest'.head? = rest.head? ∧
      rest'.length ≤ rest.length := by
  obtain ⟨hleading, rest₁, hstripped, hhead, hlen⟩ := stripped_append hne htext hrest
  have hkept : text.filter (fun c => !isBreak c) = text :=
    List.filter_eq_self.mpr fun c hc => by simp [isBreak_of_ge (htext c hc)]
  have hnormalize : (urlNormalize (text ++ rest)).2 =
      text ++ rest₁.filter fun c => !isBreak c := by
    have htrailing := urlRemoveTrailing_of_leading hleading
    simp only [urlNormalize]
    rw [urlRemoveTabNl_text, htrailing, hstripped, List.filter_append, hkept]
  refine ⟨_, hnormalize, ?_, (List.length_filter_le _ _).trans hlen⟩
  rw [← hhead]
  cases rest₁ with
  | nil => rfl
  | cons d rest₁ =>
      have hd : isBreak d = false := isBreak_of_ge (hrest d (by rw [← hhead]; rfl))
      simp [hd]

/-! ## The parse of a URL with a port -/

/-- A host without white space, delimiters, an at sign, a colon and brackets. -/
structure PlainHost (host : List UInt8) : Prop where
  ne : host ≠ []
  chars : ∀ c ∈ host, 0x21 ≤ c ∧ c ∉ cstr "/?#@:[]\\"

theorem PlainHost.parts {host : List UInt8} (h : PlainHost host) :
    PlainParts (cstr "http") host [] none none :=
  ⟨by decide, h.ne, h.chars, .inl rfl, by simp, by simp, by simp⟩

/-- A URL with a port, and any text behind it. -/
def hostPortUrl (host digits rest : List UInt8) : List UInt8 :=
  cstr "http" ++ cstr "://" ++ (host ++ ':'.toUInt8 :: digits) ++ rest

/-- What may follow a port: nothing, or a text that begins with a delimiter. -/
def Continues (rest : List UInt8) : Prop :=
  rest = [] ∨ ∃ c ∈ cstr "/?#", rest.head? = some c

/-- The URL that is returned has the port `n`. -/
def HasPort (r : UrlParseResult) (n : ℕ) : Prop :=
  ∃ url, r.url = some url ∧ url.portNull = false ∧ url.port.toNat = n

section Value

variable {host digits rest : List UInt8}

theorem Continues.delimiter (h : Continues rest) :
    isDelimiter true rest.head? = true ∧ ∀ c ∈ rest.head?, 0x21 ≤ c := by
  rcases h with rfl | ⟨c, hc, hhead⟩
  · exact ⟨rfl, by simp⟩
  · rw [hhead]
    have hall : ∀ c ∈ cstr "/?#", isDelimiter true (some c) = true ∧ 0x21 ≤ c := by decide +kernel
    exact ⟨(hall c hc).1, fun d hd => by rw [← Option.mem_some.mp hd]; exact (hall c hc).2⟩

theorem ge_hostPort (hhost : PlainHost host) (hdigits : ∀ c ∈ digits, isAsciiDigit c = true) :
    ∀ c ∈ cstr "http" ++ cstr "://" ++ (host ++ ':'.toUInt8 :: digits), 0x21 ≤ c := by
  intro c hc
  rcases List.mem_append.mp hc with hc | hc
  · have hall : ∀ c ∈ cstr "http" ++ cstr "://", 0x21 ≤ c := by decide +kernel
    exact hall c hc
  · rcases List.mem_append.mp hc with hc | hc
    · exact (hhost.chars c hc).1
    · rcases List.mem_cons.mp hc with rfl | hc
      · decide
      · exact (isAsciiDigit_char (hdigits c hc)).1

/-- The number that is tested is the value of the digits, or the largest one. -/
theorem portNumber_of_digits (hne : digits ≠ [])
    (hdigits : ∀ c ∈ digits, isAsciiDigit c = true) :
    portNumber digits = (none, min (digitsValue digits 0 : ℤ) llongMax) := by
  rw [portNumber, parseInteger_digits hne hdigits]

/-- A port that is too high is an error, at the end of the input or in front of more. -/
theorem UrlReaches.urlParse_port_high {alloc : Alloc} {slice : List UInt8} {p q : UrlParser}
    {err : Option Error} {allocs : ℕ} (hs : UrlReaches alloc slice (q, err))
    (hend : AtPortEnd p q digits allocs) (hne : digits ≠ [])
    (hdigits : ∀ c ∈ digits, isAsciiDigit c = true) (hvalue : 65535 < digitsValue digits 0) :
    ∃ r, urlParse alloc slice = some r ∧ r.err ≠ none := by
  have hfail : q.state ≠ .fail := by simp [hend.state_eq]
  have hhigh : (portNumber digits).2 > 65535 := by
    rw [portNumber_of_digits hne hdigits]
    simp only [llongMax]
    omega
  have hstep := hend.step_eq hs.inv.layout hne alloc
  rw [if_pos hhigh] at hstep
  have herr : ∀ e : Error, errorCombine err (some e) ≠ none := by
    intro e hnone
    exact absurd ((errorCombine_eq_none_iff _ _ _).mp hnone).2 (by simp)
  by_cases heof : UrlParser.isEof
      { q.advance with sliceStart := q.buf.length, state := .fail } = true
  · exact ⟨_, hs.urlParse_of_eof hfail hstep heof, herr _⟩
  · rw [Bool.not_eq_true] at heof
    have hnext := hs.turn (urlLoopBody_of_step hfail hstep heof)
    exact ⟨_, hnext.urlParse_of_fail rfl, herr _⟩

theorem behindPort_of_at {alloc : Alloc} {p : UrlParser} {pre : List UInt8} {n allocs : ℕ}
    {pos : UInt64} (hat : At (p.withPort digits pos allocs) pre rest)
    (hlen : (p.buf ++ digits).length + 3 * rest.length ≤ 3 * n) :
    BehindPort alloc n (UInt16.ofInt (digitsValue digits 0)) (p.withPort digits pos allocs) := by
  refine ⟨le_rfl, rfl, rfl, by simp [UrlParser.withPort], fun _ => ?_⟩
  have hrest : (p.withPort digits pos allocs).input.length -
      (p.withPort digits pos allocs).advance.pos.toNat = rest.length := by
    rw [hat.input_eq, hat.pos_eq, List.length_append, Nat.add_sub_cancel_left]
  rw [hrest]
  exact hlen

theorem reaches_portEnd {alloc : Alloc} (hhost : PlainHost host)
    (hdigits : ∀ c ∈ digits, isAsciiDigit c = true) (hrest : Continues rest)
    (hstart : ∃ s, UrlReaches alloc (hostPortUrl host digits rest) s) :
    ∃ p rest' pos allocs err,
      UrlReaches alloc (hostPortUrl host digits rest) (p, err) ∧
      (p.state = .fail ∧ ¬EnoughMemory alloc (hostPortUrl host digits rest).length ∨
        p = portParser (cstr "http" ++ cstr "://" ++ (host ++ ':'.toUInt8 :: digits ++ rest')) host
          pos allocs ∧
        At p (cstr "http" ++ cstr "://" ++ host ++ [':'.toUInt8]) (digits ++ rest') ∧
        rest'.head? = rest.head? ∧ rest'.length ≤ rest.length) := by
  obtain ⟨s, hs⟩ := hstart
  have hlen : (hostPortUrl host digits rest).length =
      7 + host.length + 1 + digits.length + rest.length := by
    simp [hostPortUrl, cstr]
    omega
  obtain ⟨rest', hnormalize, hhead, hle⟩ :=
    urlNormalize_append (by simp [cstr]) (ge_hostPort hhost hdigits) hrest.delimiter.2
  have hin : (cstr "http" ++ cstr "://" ++ (host ++ ':'.toUInt8 :: digits ++ rest')).length <
      ptrdiffMax := by
    have hfits := hs.fits
    rw [hlen] at hfits
    simp [cstr]
    omega
  have hroom : Room alloc (¬EnoughMemory alloc (hostPortUrl host digits rest).length)
      (cstr "http" ++ (host ++ ':'.toUInt8 :: digits)).length := by
    by_cases hmemory : EnoughMemory alloc (hostPortUrl host digits rest).length
    · refine .inr ⟨hmemory.1, ?_⟩
      have hbound := hmemory.2
      rw [hlen] at hbound
      simp [cstr]
      omega
    · exact .inl hmemory
  obtain ⟨pos, allocs, hgoes, hat⟩ :=
    goes_to_port hhost.parts hdigits (hhead ▸ hrest.delimiter.1) hin hroom
  have hinput : (urlNormalize (hostPortUrl host digits rest)).2 =
      cstr "http" ++ cstr "://" ++ (host ++ ':'.toUInt8 :: digits ++ rest') := by
    rw [hostPortUrl, hnormalize, List.append_assoc _ _ rest']
  rcases hgoes (urlNormalize (hostPortUrl host digits rest)).1 (layout_initial _) with
    ⟨_, err, hreach, _⟩ | ⟨hwant, q, err, hreach, hfail⟩
  · refine ⟨_, rest', pos, allocs, err, ⟨hs.copied, hs.buffered, ?_⟩,
      .inr ⟨rfl, hat, hhead, hle⟩⟩
    rw [urlLoopStart, hinput]
    exact hreach
  · refine ⟨q, rest', pos, allocs, err, ⟨hs.copied, hs.buffered, ?_⟩, .inl ⟨hfail, hwant⟩⟩
    rw [urlLoopStart, hinput]
    exact hreach

theorem UrlReaches.runs {alloc : Alloc} {slice : List UInt8} {lossy quiet : Prop}
    {p q : UrlParser} {err : Option Error} (hs : UrlReaches alloc slice (p, err))
    (h : Runs alloc lossy quiet p q) :
    (∃ err', UrlReaches alloc slice (q, err')) ∨
      lossy ∧ ∃ q' err', UrlReaches alloc slice (q', err') ∧ q'.state = .fail := by
  rcases h err hs.inv.layout with ⟨_, err', hreach, _⟩ | ⟨hlossy, q', err', hreach, hfail⟩
  · exact .inl ⟨err', hs.copied, hs.buffered, hs.reaches.trans hreach⟩
  · exact .inr ⟨hlossy, q', err', ⟨hs.copied, hs.buffered, hs.reaches.trans hreach⟩, hfail⟩

theorem UrlReaches.urlParse_err {alloc : Alloc} {slice : List UInt8} {p : UrlParser}
    {err : Option Error} (hs : UrlReaches alloc slice (p, err)) (hfail : p.state = .fail) :
    ∃ r, urlParse alloc slice = some r ∧ r.err ≠ none := by
  obtain ⟨e, he⟩ := Option.isSome_iff_exists.mp ((schemeInv_reaches hs).fail hfail)
  have he' : err = some e := he
  exact ⟨_, hs.urlParse_of_fail hfail, by simp [he']⟩

theorem urlParse_port_cases (alloc : Alloc) (hhost : PlainHost host) (hne : digits ≠ [])
    (hdigits : ∀ c ∈ digits, isAsciiDigit c = true) (hrest : Continues rest) :
    ∃ r, urlParse alloc (hostPortUrl host digits rest) = some r ∧
      (digitsValue digits 0 ≤ 65535 ∧ HasPort r (digitsValue digits 0) ∨
        r.err ≠ none ∧ (65535 < digitsValue digits 0 ∨
          ¬EnoughMemory alloc (hostPortUrl host digits rest).length)) := by
  have hlen : (hostPortUrl host digits rest).length =
      7 + host.length + 1 + digits.length + rest.length := by
    simp [hostPortUrl, cstr]
    omega
  have hwants : ∀ {q : UrlParser} {err : Option Error},
      UrlReaches alloc (hostPortUrl host digits rest) (q, err) → q.state = .fail →
      ¬EnoughMemory alloc (hostPortUrl host digits rest).length →
      ∃ r, urlParse alloc (hostPortUrl host digits rest) = some r ∧
        (digitsValue digits 0 ≤ 65535 ∧ HasPort r (digitsValue digits 0) ∨
          r.err ≠ none ∧ (65535 < digitsValue digits 0 ∨
            ¬EnoughMemory alloc (hostPortUrl host digits rest).length)) := by
    intro q err hs hfail hwant
    obtain ⟨r, hr, herr⟩ := hs.urlParse_err hfail
    exact ⟨r, hr, .inr ⟨herr, .inr hwant⟩⟩
  rcases urlParse_cases alloc (hostPortUrl host digits rest) with ⟨hnone, hmemory⟩ | ⟨s, hs, _⟩
  · refine ⟨_, hmemory, .inr ⟨by simp, .inr fun hmem => ?_⟩⟩
    refine hnone (urlLoopStart _) ⟨?_, hmem.1 1, .refl⟩
    have hbound := hmem.2
    rw [hmem.1 0, Bool.true_and, decide_eq_true_eq]
    omega
  obtain ⟨p, rest', pos, allocs, err, hs, hfail | ⟨hp, hat, hhead, hle⟩⟩ :=
    reaches_portEnd hhost hdigits hrest ⟨s, hs⟩
  · exact hwants hs hfail.1 hfail.2
  have hbuf : p.buf = cstr "http" ++ host := by rw [hp]; rfl
  have hstate : p.state = .port := by rw [hp]; rfl
  have hslice : p.sliceStart = p.buf.length := by
    rw [hbuf, hp]
    simp [portParser, UrlParser.withHost, httpParser]
  have hdelim : isDelimiter p.special rest'.head? = true := by
    rw [hhead, hp]
    exact hrest.delimiter.1
  have hroom : Room alloc (¬EnoughMemory alloc (hostPortUrl host digits rest).length)
      (p.buf ++ digits).length := by
    by_cases hmemory : EnoughMemory alloc (hostPortUrl host digits rest).length
    · refine .inr ⟨hmemory.1, ?_⟩
      have hbound := hmemory.2
      rw [hlen] at hbound
      rw [hbuf]
      simp [cstr]
      omega
    · exact .inl hmemory
  by_cases hvalue : digitsValue digits 0 ≤ 65535
  · obtain ⟨pos₄, allocs₄, hgoes, hat₄⟩ := goes_port False digits hat (by simp) hstate hslice hne
      hdigits hvalue hdelim hroom
    rcases hs.runs hgoes with ⟨err', hs₄⟩ | ⟨hwant, q, err', hq, hfail⟩
    · have hbehind : BehindPort alloc (hostPortUrl host digits rest).length _ _ :=
        behindPort_of_at hat₄ (by
          rw [hbuf, hlen]
          simp [cstr]
          omega)
      rcases hs₄.urlParse_behindPort hbehind with
        ⟨hwant, e, hparse⟩ | ⟨err'', url, hparse, hnull, hport⟩
      · exact ⟨_, hparse, .inr ⟨by simp, .inr hwant⟩⟩
      · refine ⟨_, hparse, .inl ⟨hvalue, url, rfl, hnull, ?_⟩⟩
        rw [hport]
        exact toNat_ofInt_port hvalue
    · exact hwants hq hfail hwant
  · obtain ⟨q, allocs₄, hgoes, _, hend⟩ := goes_port_digits False digits hat hstate hslice
      hdigits hdelim hroom
    rcases hs.runs hgoes with ⟨err', hs₄⟩ | ⟨hwant, q, err', hq, hfail⟩
    · obtain ⟨r, hr, herr⟩ := hs₄.urlParse_port_high hend hne hdigits (by omega)
      exact ⟨r, hr, .inr ⟨herr, .inl (by omega)⟩⟩
    · exact hwants hq hfail hwant

/-- The port that `url_parse` returns is the value of the digits, if this is at most 65535 and there
is memory. Otherwise there is an error. The digits may be any number, and what follows them any text
that begins with a delimiter. -/
theorem urlParse_hostPortUrl (alloc : Alloc) (hhost : PlainHost host) (hne : digits ≠ [])
    (hdigits : ∀ c ∈ digits, isAsciiDigit c = true) (hrest : Continues rest) :
    ∃ r, urlParse alloc (hostPortUrl host digits rest) = some r ∧
      (65535 < digitsValue digits 0 → r.err ≠ none) ∧
      (digitsValue digits 0 ≤ 65535 → HasPort r (digitsValue digits 0) ∨
        r.err ≠ none ∧ ¬EnoughMemory alloc (hostPortUrl host digits rest).length) ∧
      (r.err = none → HasPort r (digitsValue digits 0)) := by
  obtain ⟨r, hparse, ⟨hvalue, hport⟩ | ⟨herr, hcause⟩⟩ :=
    urlParse_port_cases alloc hhost hne hdigits hrest
  · exact ⟨r, hparse, fun hhigh => absurd hhigh (by omega), fun _ => .inl hport, fun _ => hport⟩
  · refine ⟨r, hparse, fun _ => herr, fun hvalue => ?_, fun hnone => absurd hnone herr⟩
    exact .inr ⟨herr, hcause.resolve_left (by omega)⟩

end Value

/-- Zeros in front of a port and text behind it do not matter, and a port behind the range of 64
bits is an error. -/
theorem urlParse_port_leading_zeros :
    (∃ r, urlParse allocAll (hostPortUrl (cstr "h") (cstr "00065535") (cstr "/a b%?#")) = some r ∧
      HasPort r 65535) ∧
    ∃ r, urlParse allocAll (hostPortUrl (cstr "h") (cstr "18446744073709551696") []) = some r ∧
      r.err ≠ none := by
  have hhost : PlainHost (cstr "h") := ⟨by decide, by decide +kernel⟩
  constructor
  · have hdigits : ∀ c ∈ cstr "00065535", isAsciiDigit c = true := by decide +kernel
    have hvalue : digitsValue (cstr "00065535") 0 = 65535 := by decide +kernel
    have hrest : Continues (cstr "/a b%?#") := .inr ⟨'/'.toUInt8, by decide, by decide⟩
    obtain ⟨r, hr, _, hlow, _⟩ :=
      urlParse_hostPortUrl allocAll hhost (by simp [cstr]) hdigits hrest
    rw [hvalue] at hlow
    exact ⟨r, hr, (hlow le_rfl).resolve_right fun hwant => hwant.2 ⟨fun _ => rfl, by decide⟩⟩
  · have hdigits : ∀ c ∈ cstr "18446744073709551696", isAsciiDigit c = true := by decide +kernel
    have hvalue : digitsValue (cstr "18446744073709551696") 0 = 18446744073709551696 := by
      decide +kernel
    obtain ⟨r, hr, hhigh, _⟩ :=
      urlParse_hostPortUrl allocAll hhost (by simp [cstr]) hdigits (.inl rfl : Continues [])
    exact ⟨r, hr, hhigh (by rw [hvalue]; decide)⟩

end PosixThreads
