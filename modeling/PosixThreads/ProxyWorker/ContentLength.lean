import PosixThreads.ProxyWorker.Response

/-!
# The declared length

The worker proxy parses what it has received of a response until it sees a `Content-Length`. From
then on it only counts. How many bytes it expects is worked out once, from what the parser shows of
the header at that moment, and so it depends on where the response is cut into parts. A part that
goes beyond the expected end fails an assertion.

Of the parser it is assumed that an incomplete parse gives the headers it has seen and the part of
the body it has consumed.
-/

namespace PosixThreads

def stream (parts : List Part) : List UInt8 := parts.flatMap fun part => part.data

@[simp] theorem stream_nil : stream [] = [] := rfl

@[simp] theorem stream_cons (part : Part) (parts : List Part) :
    stream (part :: parts) = part.data ++ stream parts := rfl

@[simp] theorem stream_append (parts parts' : List Part) :
    stream (parts ++ parts') = stream parts ++ stream parts' := List.flatMap_append

/-- The parser on a response with a header of `headerLength` bytes that declares `length` bytes of
content. What it shows of a header that is not complete is left open. -/
structure Sized (parse : ResponseParser) (data : List UInt8) (headerLength length : ℕ) : Prop where
  header_pos : 0 < headerLength
  incompleted : ∀ seen, seen <+: data → seen.length < headerLength + length →
    (parse seen).1 = .incompleted ∧ (parse seen).2.contentSize = seen.length - headerLength
  header : ∀ seen, seen <+: data → headerLength ≤ seen.length →
    seen.length < headerLength + length →
    ∃ value, (parse seen).2.contentLength? = some value ∧ stoul value = some length
  completed : ∀ seen, seen <+: data → headerLength + length ≤ seen.length →
    (parse seen).1 = .completed

/-- The parser on a response that has no `Content-Length`. -/
def Unsized (parse : ResponseParser) (data : List UInt8) : Prop :=
  ∀ seen, seen <+: data → (parse seen).2.contentLength? = none

namespace WorkerResource

def feed (parse : ResponseParser) (memory : ℕ → Bool) :
    WorkerResource → List Part → Option WorkerResource
  | res, [] => some res
  | res, part :: parts => do
      let received ← res.receive parse memory part
      feed parse memory received.resource parts

def Overruns (res : WorkerResource) (part : Part) : Prop :=
  res.completed = false ∧ res.hasContentLength = true ∧
    res.contentLength < res.curLength + part.data.length

/-- The accounting for a resource of which `n` bytes have been received already, and whose end, if
it declares one, is behind its first `finish` bytes: no part fails the assertion, and the resource
is complete after a part if and only if this part has reached the end. -/
def SoundFrom (parse : ResponseParser) (memory : ℕ → Bool) (finish? : Option ℕ)
    (res : WorkerResource) (n : ℕ) (cut : List Part) : Prop :=
  (∀ parts part res', parts ++ [part] <+: cut → feed parse memory res parts = some res' →
    ¬res'.Overruns part) ∧
  ∀ finish, finish? = some finish → ∀ parts, parts <+: cut →
    ((∃ res', feed parse memory res parts = some res' ∧ res'.completed = true) ↔
      finish ≤ n + (stream parts).length)

/-- From `n` bytes on, the expected length is reached, and it is reached by the part that reaches
the end. -/
def StaysWithin (finish expected : ℕ) : ℕ → List Part → Prop
  | _, [] => True
  | n, part :: parts =>
      let n := n + part.data.length
      (n < expected ∧ n < finish ∧ StaysWithin finish expected n parts) ∨
        (n = expected ∧ finish ≤ n)

/-- A cut with which the accounting works. A part reaches the end before the parser has shown a
`Content-Length`, or else what it shows first is a number and makes the cut fit the length that it
makes the proxy expect. -/
def Framed (parse : ResponseParser) (headerLength finish : ℕ) : List UInt8 → List Part → Prop
  | _, [] => True
  | seen, part :: parts =>
      let seen := seen ++ part.data
      finish ≤ seen.length ∨
        match (parse seen).2.contentLength? with
        | none => Framed parse headerLength finish seen parts
        | some value =>
            match stoul value with
            | none => seen.length + (stream parts).length < finish
            | some length =>
                StaysWithin finish ((length + min seen.length headerLength) % 2 ^ 64)
                  seen.length parts

section Accounting

variable {parse : ResponseParser} {memory : ℕ → Bool} {finish? : Option ℕ}
  {finish expected n headerLength length : ℕ} {res : WorkerResource}
  {received : Received WorkerResource} {seen data : List UInt8} {part : Part} {cut : List Part}

/-! ## One part after the other -/

theorem Overruns.receive (h : res.Overruns part) : res.receive parse memory part = none := by
  obtain ⟨hcompleted, hhas, hover⟩ := h
  simp [WorkerResource.receive, account, hcompleted, hhas, hover]

theorem soundFrom_nil : SoundFrom parse memory finish? res n [] ↔
    ∀ finish, finish? = some finish → (res.completed = true ↔ finish ≤ n) := by
  simp [SoundFrom, feed]

theorem soundFrom_cons_some (hreceive : res.receive parse memory part = some received) :
    SoundFrom parse memory finish? res n (part :: cut) ↔
      (∀ finish, finish? = some finish → (res.completed = true ↔ finish ≤ n)) ∧
        SoundFrom parse memory finish? received.resource (n + part.data.length) cut := by
  have hfeed : ∀ parts, feed parse memory res (part :: parts) =
      feed parse memory received.resource parts := by
    intro parts
    simp [feed, hreceive]
  have hlength : ∀ parts, n + (stream (part :: parts)).length =
      n + part.data.length + (stream parts).length := by
    intro parts
    simp [Nat.add_assoc]
  constructor
  · rintro ⟨hover, hcompleted⟩
    refine ⟨fun finish hfinish => ?_, fun parts part' res' hpre hres' => ?_,
      fun finish hfinish parts hpre => ?_⟩
    · simpa [feed] using hcompleted finish hfinish [] List.nil_prefix
    · refine hover (part :: parts) part' res' ?_ (by rw [hfeed, hres'])
      simpa using hpre
    · rw [← hfeed, ← hlength]
      exact hcompleted finish hfinish (part :: parts) (by simpa using hpre)
  · rintro ⟨hnow, hover, hcompleted⟩
    refine ⟨fun parts part' res' hpre hres' => ?_, fun finish hfinish parts hpre => ?_⟩
    · cases parts with
      | nil =>
          obtain ⟨rfl, -⟩ := List.cons_prefix_cons.mp hpre
          simp only [feed, Option.some.injEq] at hres'
          subst hres'
          intro hov
          rw [hov.receive] at hreceive
          simp at hreceive
      | cons part₁ parts =>
          obtain ⟨rfl, hrest⟩ := List.cons_prefix_cons.mp hpre
          exact hover parts part' res' hrest (hfeed parts ▸ hres')
    · cases parts with
      | nil => simpa [feed] using hnow finish hfinish
      | cons part₁ parts =>
          obtain ⟨rfl, hrest⟩ := List.cons_prefix_cons.mp hpre
          rw [hfeed, hlength]
          exact hcompleted finish hfinish parts hrest

theorem soundFrom_cons_none (hreceive : res.receive parse memory part = none) :
    SoundFrom parse memory (some finish) res n (part :: cut) ↔
      ¬res.Overruns part ∧ (res.completed = true ↔ finish ≤ n) ∧
        n + (stream (part :: cut)).length < finish := by
  have hfeed : ∀ parts, feed parse memory res (part :: parts) = none := by
    intro parts
    simp [feed, hreceive]
  constructor
  · rintro ⟨hover, hcompleted⟩
    refine ⟨hover [] part res (by simp) rfl, ?_, ?_⟩
    · simpa [feed] using hcompleted finish rfl [] List.nil_prefix
    · have := hcompleted finish rfl (part :: cut) (List.prefix_refl _)
      simpa [hfeed] using this
  · rintro ⟨hover, hnow, hend⟩
    refine ⟨fun parts part' res' hpre hres' => ?_, fun finish' hfinish parts hpre => ?_⟩
    · cases parts with
      | nil =>
          obtain ⟨rfl, -⟩ := List.cons_prefix_cons.mp hpre
          simp only [feed, Option.some.injEq] at hres'
          exact hres' ▸ hover
      | cons part₁ parts =>
          obtain ⟨rfl, -⟩ := List.cons_prefix_cons.mp hpre
          rw [hfeed] at hres'
          simp at hres'
    · obtain rfl := Option.some.inj hfinish
      cases parts with
      | nil => simpa [feed] using hnow
      | cons part₁ parts =>
          obtain ⟨rfl, more, rfl⟩ := List.cons_prefix_cons.mp hpre
          simp only [hfeed, false_and, exists_false, false_iff, reduceCtorEq]
          simp only [stream_cons, stream_append, List.length_append] at hend ⊢
          omega

theorem SoundFrom.of_completed (hcompleted : res.completed = true)
    (hend : ∀ finish, finish? = some finish → finish ≤ n) (cut : List Part) :
    SoundFrom parse memory finish? res n cut := by
  induction cut generalizing n with
  | nil => exact soundFrom_nil.mpr fun finish hfinish => by simp [hcompleted, hend finish hfinish]
  | cons part cut ih =>
      have hreceive : res.receive parse memory part =
          some ⟨StatusCode.success, false, true, true, res⟩ := by
        simp [receive, hcompleted]
      refine (soundFrom_cons_some hreceive).mpr ⟨fun finish hfinish => ?_, ih fun finish hfinish =>
        Nat.le_trans (hend finish hfinish) (Nat.le_add_right _ _)⟩
      simp [hcompleted, hend finish hfinish]

/-- What `SoundFrom` says of the resource itself. -/
theorem SoundFrom.completed_iff (h : SoundFrom parse memory (some finish) res n cut) :
    res.completed = true ↔ finish ≤ n := by
  simpa [feed] using h.2 finish rfl [] List.nil_prefix

/-! ## Counting -/

/-- A resource of which `n` bytes have been received and `expected` bytes are expected. -/
structure Counting (expected n : ℕ) (res : WorkerResource) : Prop where
  completed : res.completed = false
  has : res.hasContentLength = true
  contentLength : res.contentLength = expected
  curLength : res.curLength = n

theorem Counting.receive_lt (h : Counting expected n res) (hlt : n + part.data.length < expected) :
    ∃ received, res.receive parse memory part = some received ∧
      Counting expected (n + part.data.length) received.resource := by
  obtain ⟨hcompleted, hhas, rfl, rfl⟩ := h
  refine ⟨⟨StatusCode.success, true, false, true, { res with
    parts := res.parts ++ [part]
    curLength := res.curLength + part.data.length }⟩, ?_, ⟨hcompleted, hhas, rfl, rfl⟩⟩
  simp [receive, account, hcompleted, hhas, hlt, Nat.not_lt.mpr (Nat.le_of_lt hlt)]

theorem Counting.receive_eq (h : Counting expected n res) (heq : n + part.data.length = expected) :
    ∃ received, res.receive parse memory part = some received ∧
      received.resource.completed = true := by
  obtain ⟨hcompleted, hhas, rfl, rfl⟩ := h
  simp [receive, account, hcompleted, hhas, heq]

/-- While the end has not been reached, the accounting works if and only if the cut stays within
the expected length. -/
theorem Counting.soundFrom_iff (h : Counting expected n res) (hn : n < finish) :
    SoundFrom parse memory (some finish) res n cut ↔ StaysWithin finish expected n cut := by
  have hnow : res.completed = true ↔ finish ≤ n := by
    simp [h.completed, hn]
  induction cut generalizing n res with
  | nil => simp [soundFrom_nil, StaysWithin, hnow]
  | cons part cut ih =>
      simp only [StaysWithin]
      rcases Nat.lt_trichotomy (n + part.data.length) expected with hlt | heq | hgt
      · obtain ⟨received, hreceive, hcounting⟩ := h.receive_lt hlt
        rw [soundFrom_cons_some hreceive]
        by_cases hend : n + part.data.length < finish
        · have hnow' : received.resource.completed = true ↔
              finish ≤ n + part.data.length := by
            simp [hcounting.completed, hend]
          simp [hnow, ih hcounting hend hnow', hlt, hend, Nat.ne_of_lt hlt]
        · -- The end has been reached, but more is expected.
          have hunsound : ¬SoundFrom parse memory (some finish) received.resource
              (n + part.data.length) cut := fun hsound => by
            have := hsound.completed_iff.mpr (Nat.le_of_not_lt hend)
            rw [hcounting.completed] at this
            simp at this
          simp [hunsound, hend, Nat.ne_of_lt hlt]
      · obtain ⟨received, hreceive, hcompleted⟩ := h.receive_eq heq
        rw [soundFrom_cons_some hreceive]
        have hiff : SoundFrom parse memory (some finish) received.resource
            (n + part.data.length) cut ↔ finish ≤ n + part.data.length :=
          ⟨fun hsound => hsound.completed_iff.mp hcompleted, fun hle =>
            .of_completed hcompleted (fun _ hfinish => Option.some.inj hfinish ▸ hle) cut⟩
        subst heq
        simp [hnow, hiff]
      · have hover : res.Overruns part :=
          ⟨h.completed, h.has, by rw [h.contentLength, h.curLength]; exact hgt⟩
        rw [soundFrom_cons_none hover.receive]
        simp only [hover, not_true_eq_false, false_and, false_iff]
        omega

/-! ## Looking for the header -/

structure Searching (seen : List UInt8) (res : WorkerResource) : Prop where
  completed : res.completed = false
  has : res.hasContentLength = false
  curLength : res.curLength = seen.length
  data : res.fullData.elim [] Message.data = seen

theorem searching_new : Searching [] .new := ⟨rfl, rfl, rfl, rfl⟩

theorem Searching.receive {result : ParseResult} (h : Searching seen res)
    (hmemory : ∀ n, memory n = true) (hparse : (parse (seen ++ part.data)).1 = result) :
    ∃ (res' : WorkerResource) (full : Message), res.receive parse memory part =
        res'.afterParse full (result, (parse (seen ++ part.data)).2) ∧
        full.data = seen ++ part.data ∧ res'.fullData.isSome = true ∧
        Searching (seen ++ part.data) res' := by
  obtain ⟨hcompleted, hhas, hlength, hdata⟩ := h
  subst hparse
  cases hfull : res.fullData with
  | none =>
      simp only [hfull, Option.elim_none] at hdata
      subst hdata
      refine ⟨{ res with
        parts := res.parts ++ [part]
        fullData := some part.toMessage
        curLength := res.curLength + part.data.length }, part.toMessage, ?_, rfl, rfl,
        ⟨hcompleted, hhas, by simp [hlength], rfl⟩⟩
      simp [WorkerResource.receive, account, addToFullData, Message.copy, hcompleted, hhas, hfull,
        hmemory]
  | some fullData =>
      simp only [hfull, Option.elim_some] at hdata
      obtain ⟨hroom, hadded⟩ := fullData.appendMsg_spec memory part.toMessage
      have hyes : (fullData.appendMsg memory part.toMessage).1 = true :=
        hroom.mpr fun _ _ => hmemory _
      rw [hyes, if_pos rfl, hdata] at hadded
      refine ⟨{ res with
        parts := res.parts ++ [part]
        fullData := some (fullData.appendMsg memory part.toMessage).2
        curLength := res.curLength + part.data.length },
        (fullData.appendMsg memory part.toMessage).2, ?_, hadded, rfl,
        ⟨hcompleted, hhas, by simp [hlength], hadded⟩⟩
      simp [WorkerResource.receive, account, addToFullData, hcompleted, hhas, hfull, hyes, hadded]

theorem Searching.receive_completed (h : Searching seen res) (hmemory : ∀ n, memory n = true)
    (hparse : (parse (seen ++ part.data)).1 = .completed) :
    ∃ received, res.receive parse memory part = some received ∧
      received.resource.completed = true := by
  obtain ⟨res', full, hreceive, -, hsome, -⟩ := h.receive hmemory hparse
  obtain ⟨fullData, hfullData⟩ := Option.isSome_iff_exists.mp hsome
  rw [hreceive]
  simp [afterParse, hfullData]

/-- The parser has not shown a length yet. -/
theorem Searching.receive_hidden (h : Searching seen res) (hmemory : ∀ n, memory n = true)
    (hparse : (parse (seen ++ part.data)).1 = .incompleted)
    (hhidden : (parse (seen ++ part.data)).2.contentLength? = none) :
    ∃ received, res.receive parse memory part = some received ∧
      Searching (seen ++ part.data) received.resource := by
  obtain ⟨res', full, hreceive, -, -, hsearching⟩ := h.receive hmemory hparse
  rw [hreceive]
  simp only [afterParse, Response.expectedLength, hhidden, hsearching.completed]
  exact ⟨_, rfl, hsearching⟩

/-- The parser shows something that is not a number. -/
theorem Searching.receive_malformed {value : String} (h : Searching seen res)
    (hmemory : ∀ n, memory n = true)
    (hparse : (parse (seen ++ part.data)).1 = .incompleted)
    (hshown : (parse (seen ++ part.data)).2.contentLength? = some value)
    (hvalue : stoul value = none) : res.receive parse memory part = none := by
  obtain ⟨res', full, hreceive, -, -, -⟩ := h.receive hmemory hparse
  rw [hreceive]
  simp [afterParse, Response.expectedLength, hshown, hvalue]

/-- The parser shows a number, to which what has been received in front of the body is added. -/
theorem Searching.receive_shown {value : String} (h : Searching seen res)
    (hmemory : ∀ n, memory n = true)
    (hparse : (parse (seen ++ part.data)).1 = .incompleted)
    (hshown : (parse (seen ++ part.data)).2.contentLength? = some value)
    (hvalue : stoul value = some length)
    (hsize : (parse (seen ++ part.data)).2.contentSize < (seen ++ part.data).length) :
    ∃ received, res.receive parse memory part = some received ∧
      Counting ((length + ((seen ++ part.data).length -
        (parse (seen ++ part.data)).2.contentSize)) % 2 ^ 64)
        (seen ++ part.data).length received.resource := by
  obtain ⟨res', full, hreceive, hfull, -, hsearching⟩ := h.receive hmemory hparse
  rw [hreceive]
  simp only [afterParse, Response.expectedLength, hshown, hvalue, hfull, hsize,
    hsearching.completed, decide_true, Bool.not_false, assertThat_true, Option.bind_eq_bind,
    Option.bind_some]
  exact ⟨_, rfl, ⟨hsearching.completed, rfl, rfl, hsearching.curLength⟩⟩

/-- While the end has not been reached, the accounting works if and only if the cut is framed. -/
theorem Searching.soundFrom_iff (h : Searching seen res) (hmemory : ∀ n, memory n = true)
    (hsized : Sized parse data headerLength length) (hdata : seen ++ stream cut <+: data)
    (hne : ∀ part ∈ cut, part.data ≠ []) (hn : seen.length < headerLength + length) :
    SoundFrom parse memory (some (headerLength + length)) res seen.length cut ↔
      Framed parse headerLength (headerLength + length) seen cut := by
  induction cut generalizing seen res with
  | nil =>
      simp only [soundFrom_nil, Option.some.injEq, forall_eq', h.completed, Bool.false_eq_true,
        false_iff, Framed, iff_true]
      omega
  | cons part cut ih =>
      have hnow : ∀ finish, some (headerLength + length) = some finish →
          (res.completed = true ↔ finish ≤ seen.length) := by
        rintro _ ⟨⟩
        simp [h.completed, hn]
      rw [stream_cons, ← List.append_assoc] at hdata
      have hseen : seen ++ part.data <+: data := (List.prefix_append _ _).trans hdata
      have hlength : seen.length + part.data.length = (seen ++ part.data).length := by simp
      have hpos : 0 < (seen ++ part.data).length := by
        have := List.length_pos_of_ne_nil (hne part (by simp))
        simp only [List.length_append]
        omega
      simp only [Framed]
      by_cases hend : headerLength + length ≤ (seen ++ part.data).length
      · obtain ⟨received, hreceive, hcompleted⟩ :=
          h.receive_completed hmemory (hsized.completed _ hseen hend)
        rw [soundFrom_cons_some hreceive, hlength]
        have hsound : SoundFrom parse memory (some (headerLength + length)) received.resource
            (seen ++ part.data).length cut :=
          .of_completed hcompleted (fun _ hfinish => Option.some.inj hfinish ▸ hend) cut
        exact iff_of_true ⟨hnow, hsound⟩ (.inl hend)
      · have hlt : (seen ++ part.data).length < headerLength + length := Nat.lt_of_not_le hend
        obtain ⟨hparse, hsize⟩ := hsized.incompleted _ hseen hlt
        simp only [hend, false_or]
        cases hshown : (parse (seen ++ part.data)).2.contentLength? with
        | none =>
            obtain ⟨received, hreceive, hsearching⟩ := h.receive_hidden hmemory hparse hshown
            rw [soundFrom_cons_some hreceive, and_iff_right hnow, hlength]
            exact ih hsearching hdata (fun part' hmem => hne part' (by simp [hmem])) hlt
        | some value =>
            cases hvalue : stoul value with
            | none =>
                rw [soundFrom_cons_none (h.receive_malformed hmemory hparse hshown hvalue)]
                have hover : ¬res.Overruns part := by simp [Overruns, h.has]
                simp only [hvalue]
                rw [and_iff_right hover, and_iff_right (hnow _ rfl), stream_cons,
                  List.length_append, ← Nat.add_assoc, hlength]
            | some shown =>
                have hpos' := hsized.header_pos
                obtain ⟨received, hreceive, hcounting⟩ :=
                  h.receive_shown hmemory hparse hshown hvalue (by omega)
                have hheader : (seen ++ part.data).length -
                    (parse (seen ++ part.data)).2.contentSize =
                      min (seen ++ part.data).length headerLength := by
                  omega
                rw [hheader] at hcounting
                simp only [hvalue]
                rw [soundFrom_cons_some hreceive, and_iff_right hnow, hlength]
                exact hcounting.soundFrom_iff hlt

theorem Searching.soundFrom_unsized (h : Searching seen res) (hmemory : ∀ n, memory n = true)
    (hunsized : Unsized parse data) (hdata : seen ++ stream cut <+: data) :
    SoundFrom parse memory none res seen.length cut := by
  induction cut generalizing seen res with
  | nil => exact soundFrom_nil.mpr nofun
  | cons part cut ih =>
      rw [stream_cons, ← List.append_assoc] at hdata
      have hhidden := hunsized _ ((List.prefix_append _ _).trans hdata)
      have hlength : seen.length + part.data.length = (seen ++ part.data).length := by simp
      cases hparse : (parse (seen ++ part.data)).1 with
      | completed =>
          obtain ⟨received, hreceive, hcompleted⟩ := h.receive_completed hmemory hparse
          exact (soundFrom_cons_some hreceive).mpr ⟨nofun, .of_completed hcompleted (by simp) cut⟩
      | incompleted =>
          obtain ⟨received, hreceive, hsearching⟩ := h.receive_hidden hmemory hparse hhidden
          exact (soundFrom_cons_some hreceive).mpr ⟨nofun, hlength ▸ ih hsearching hdata⟩
      | error =>
          obtain ⟨res', full, hreceive, -, -, hsearching⟩ := h.receive hmemory hparse
          exact (soundFrom_cons_some hreceive).mpr ⟨nofun, hlength ▸ ih hsearching hdata⟩

end Accounting

end WorkerResource

/-- However a response without a `Content-Length` is cut into parts, no part of it fails the
assertion. The accounting of a response with one works if and only if the cut is framed. -/
theorem contentLengthSound_iff (parse : ResponseParser) (memory : ℕ → Bool) (cut : List Part)
    (hmemory : ∀ n, memory n = true) (hne : ∀ part ∈ cut, part.data ≠ []) :
    (∀ headerLength length, Sized parse (stream cut) headerLength length →
      (WorkerResource.SoundFrom parse memory (some (headerLength + length)) .new 0 cut ↔
        WorkerResource.Framed parse headerLength (headerLength + length) [] cut)) ∧
    (Unsized parse (stream cut) → WorkerResource.SoundFrom parse memory none .new 0 cut) := by
  constructor
  · intro headerLength length hsized
    exact WorkerResource.searching_new.soundFrom_iff hmemory hsized (List.prefix_refl _) hne
      (Nat.add_pos_left hsized.header_pos _)
  · intro hunsized
    exact WorkerResource.searching_new.soundFrom_unsized hmemory hunsized (List.prefix_refl _)

/-- What the parser says of the first bytes of `responseExample`. -/
def parserExample : ResponseParser := fun data =>
  let headers :=
    if data.length < 31 then []
    else [("Content-Length", if data.length < 34 then "" else "2")]
  (if data.length < 40 then .incompleted else .completed, ⟨headers, min (data.length - 38) 2, 200⟩)

/-- A response with two bytes of content, and with whatever comes behind it. -/
def responseExample (rest : String) : List UInt8 :=
  ("HTTP/1.1 200 OK\r\nContent-Length: 2\r\n\r\nok" ++ rest).toList.map Char.toUInt8

def partExample (data : List UInt8) (addr : ℕ) : Part := ⟨⟨data, 128, by decide⟩, addr⟩

theorem sized_parserExample (data : List UInt8) : Sized parserExample data 38 2 where
  header_pos := by decide
  incompleted := by
    intro seen _ hlt
    simp only [parserExample, hlt, if_true, true_and]
    omega
  header := by
    intro seen _ hle _
    have hname : ¬seen.length < 31 := by omega
    have hvalue : ¬seen.length < 34 := by omega
    exact ⟨"2", by simp [parserExample, Response.contentLength?, hname, hvalue], by decide +kernel⟩
  completed := by
    intro seen _ hle
    simp [parserExample, Nat.not_lt.mpr hle]

/-- The last byte of the content comes alone. -/
theorem contentLengthSound_last_byte :
    WorkerResource.SoundFrom parserExample (fun _ => true) (some 40) .new 0
      [partExample ((responseExample "").take 39) 1,
        partExample ((responseExample "").drop 39) 2] := by
  refine ((contentLengthSound_iff parserExample (fun _ => true)
    [partExample ((responseExample "").take 39) 1, partExample ((responseExample "").drop 39) 2]
    (fun _ => rfl) ?_).1 38 2 (sized_parserExample _)).mpr ?_
  · simp only [List.mem_cons, List.not_mem_nil, or_false, forall_eq_or_imp, forall_eq]
    exact ⟨by decide +kernel, by decide +kernel⟩
  · have hshown : (parserExample ([] ++ (responseExample "").take 39)).2.contentLength? =
        some "2" := by decide +kernel
    have hvalue : stoul "2" = some 2 := by decide +kernel
    simp only [WorkerResource.Framed, partExample, hshown, hvalue, WorkerResource.StaysWithin]
    decide +kernel

/-- The last byte of the content comes with a byte that is not announced. -/
theorem not_contentLengthSound_extra_byte :
    Sized parserExample (responseExample "!") 38 2 ∧
    ¬WorkerResource.SoundFrom parserExample (fun _ => true) (some 40) .new 0
      [partExample ((responseExample "!").take 39) 1,
        partExample ((responseExample "!").drop 39) 2] := by
  refine ⟨sized_parserExample _, fun hsound => ?_⟩
  have hfeed : ((WorkerResource.feed parserExample (fun _ => true) .new
      [partExample ((responseExample "!").take 39) 1]).any fun res =>
        !res.completed && res.hasContentLength && decide (res.contentLength <
          res.curLength + (partExample ((responseExample "!").drop 39) 2).data.length)) = true := by
    decide +kernel
  obtain ⟨res, hres, hover⟩ := (Option.any_eq_true _ _).mp hfeed
  refine hsound.1 _ _ res (List.prefix_refl _) hres ?_
  simpa [WorkerResource.Overruns, and_assoc] using hover

end PosixThreads
