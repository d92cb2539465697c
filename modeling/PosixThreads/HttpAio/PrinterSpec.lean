import PosixThreads.HttpAio.BufferQueue
import PosixThreads.HttpAio.PrinterLines

/-!
# What a turn of the printer does

`Ready` holds all through a turn, `AtHead` where the loop begins anew. A posted read of the socket
is to the free room of the buffer: the buffer is moved or resized only when no read is posted, and
reading does not put the positions back as the buffer does not compact itself. So the bytes that a
read stores never hit the unread ones, and they are where the next `buf_write` takes them over.

Each function of a turn has a lemma, and `turn_spec` puts them together.
-/

namespace PosixThreads

namespace HttpAio

namespace Buf

variable {b b' : Buf} {front cells back : List Cell}

/-! ## A buffer that does not compact itself -/

theorem autoCompact_of_compact (h : b.compact = some b') : b'.autoCompact = b.autoCompact := by
  rw [compact] at h
  split at h
  · cases h
    rfl
  · simp only [Option.bind_eq_bind, Option.bind_eq_some_iff, Option.pure_def,
      Option.some.injEq] at h
    obtain ⟨_, _, rfl⟩ := h
    rfl

theorem autoCompact_of_resize {ok : Bool} {n : ℕ} {error : Option Err}
    (h : b.resize ok n = some (error, b')) : b'.autoCompact = b.autoCompact := by
  rw [resize] at h
  split at h
  · cases h
    rfl
  · simp only at h
    split at h
    · cases h
      rfl
    · split at h
      · cases h
        rfl
      · split at h
        all_goals
          simp only [Option.bind_eq_bind, Option.bind_eq_some_iff, Option.pure_def,
            Option.some.injEq, Prod.mk.injEq] at h
        · obtain ⟨_, _, _, _, _, rfl⟩ := h
          rfl
        · obtain ⟨_, _, _, rfl⟩ := h
          rfl

theorem autoCompact_of_ensure {ok : Bool} {count : ℕ} {error : Option Err}
    (h : b.ensureEnoughWriteSpace ok count = some (error, b')) :
    b'.autoCompact = b.autoCompact := by
  rw [ensureEnoughWriteSpace, Option.bind_eq_bind, Option.bind_eq_some_iff] at h
  obtain ⟨b₁, hcompact, h⟩ := h
  have h₁ : b₁.autoCompact = b.autoCompact := by
    rw [compactFor] at hcompact
    split at hcompact
    · exact autoCompact_of_compact hcompact
    · cases hcompact
      rfl
  split at h
  · simp only [Option.bind_eq_bind, Option.bind_eq_some_iff, Option.pure_def, Option.some.injEq,
      Prod.mk.injEq] at h
    obtain ⟨⟨_, b₂⟩, hresize, _, rfl⟩ := h
    exact (autoCompact_of_resize hresize).trans h₁
  · cases h
    exact h₁

namespace Layout

theorem read_fixed (h : Layout b front cells back) (hfixed : b.autoCompact = false) {count : ℕ}
    (hle : count ≤ cells.length) :
    ∃ b', b.read false count = some (none, [], b') ∧
      Layout b' (front ++ cells.take count) (cells.drop count) back ∧ b'.autoCompact = false ∧
      b'.writePos = b.writePos := by
  have hbound := h.length_le
  have hmax : ptrdiffMax = 0x7fffffffffffffff := rfl
  have hlen : (cells.take count).length = count := by rw [List.length_take, min_eq_left hle]
  have hpos : sizeT (b.readPos + count) = front.length + count := by
    rw [h.readPos_eq, sizeT_of_lt (by omega)]
  have hroom : count ≤ b.availableReadSize := h.availableReadSize_eq ▸ hle
  have hend := h.readEnd_eq
  have hwrite := h.writePos_eq
  have hcap := h.capacity_eq
  refine ⟨{ b with readPos := front.length + count }, ?_, ⟨?_, ?_, ?_, ?_, ?_, h.capacity_le⟩,
    hfixed, rfl⟩
  · simp [read, hroom, hpos, hfixed]
  · rw [List.append_assoc, ← List.append_assoc (cells.take count), List.take_append_drop, h.buf_eq]
  · rw [List.length_append, hlen]
  all_goals
    simp only [List.length_append, hlen, List.length_drop]
    omega

theorem commit (h : Layout b front cells back) {count : ℕ} (hle : count ≤ back.length) :
    ∃ b', b.write (.null count) = some (none, b') ∧
      Layout b' front (cells ++ back.take count) (back.drop count) ∧
      b'.autoCompact = b.autoCompact := by
  have hlen : (back.take count).length = count := by rw [List.length_take, min_eq_left hle]
  have hroom : (WriteData.null count).count ≤ back.length + front.length :=
    hle.trans (Nat.le_add_right _ _)
  obtain ⟨b', hb', hlayout⟩ :=
    h.write_of_copyIn hroom rfl ((List.take_append_drop count back).symm ▸ h) hlen
  refine ⟨b', hb', hlayout, ?_⟩
  have hroom' : (WriteData.null count).count ≤ b.availableWriteSize := h.available_eq ▸ hroom
  simp only [write, hroom', decide_true, errFromBool_true, copyIn, Option.bind_eq_bind,
    Option.bind_some, Option.pure_def, Option.some.injEq, Prod.mk.injEq, true_and] at hb'
  rw [← hb']

theorem readable_eq (h : Layout b front cells back) : b.readable = some cells := by
  rw [readable, h.availableReadSize_eq, h.read_eq]

end Layout

end Buf

namespace Printer

variable {sizes : PrinterSizes} {a : Answers} {p p' : Printer} {front cells back : List Cell}

/-- The buffer of a printer, with a posted read to its free room. -/
structure Buffered (sizes : PrinterSizes) (p : Printer) (front cells back : List Cell) :
    Prop where
  layout : Buf.Layout p.response front cells back
  fixed : p.response.autoCompact = false
  request : ∀ request, p.sockAwait = some request →
    request = ⟨p.response.writePos, back.length⟩ ∧
      min sizes.minReadSize sizes.initialBufSize ≤ back.length

/-- What holds all through a turn; the unread bytes are `cells`. -/
structure Ready (sizes : PrinterSizes) (p : Printer) (cells : List Cell) : Prop where
  buffered : ∃ front back, Buffered sizes p front cells back
  size_le : sizes.initialBufSize ≤ ptrdiffMax
  result_eq : p.result = none
  signalAwait_eq : p.signalAwait = true
  stdinAwait_eq : p.stdinAwait = p.shouldPaginate
  sockAwait_eq : p.sockAwait.isSome = !p.eof
  waits : p.waitingForUser = true → p.shouldPaginate = true ∧ p.lineCount = 0
  lineCount_le : p.lineCount ≤ sizes.lineLimit

structure AtHead (sizes : PrinterSizes) (p : Printer) (cells : List Cell) : Prop
    extends Ready sizes p cells where
  running_eq : p.running = true
  lineCount_lt : p.lineCount < sizes.lineLimit
  asks : p.eof = true → p.waitingForUser = true ∧ cells ≠ []

/-! ## The reads -/

theorem wrapErr_ok {α : Type*} {context : Option String} {result : Except PrinterErr α} {x : α} :
    wrapErr context result = .ok x ↔ result = .ok x := by
  cases result <;> simp [wrapErr, Except.mapError]

theorem signalDataRequest_ok {answer : Option ℕ} (h : p.signalDataRequest answer = .ok p') :
    p' = { p with signalAwait := true } := by
  cases answer with
  | some errno => cases h
  | none =>
      cases h
      rfl

theorem stdinDataRequest_ok {answer : Option ℕ} (h : p.stdinDataRequest answer = .ok p') :
    p' = { p with stdinAwait := true } := by
  cases answer with
  | some errno => cases h
  | none =>
      cases h
      rfl

theorem store_of_none (hnone : p.sockAwait = none) : p.store a = some p := by
  rw [Printer.store, hnone]

theorem Buffered.store (h : Buffered sizes p front cells back) (hlegal : a.Legal p) :
    ∃ buf back', p.store a = some { p with response := { p.response with buf := buf } } ∧
      Buffered sizes { p with response := { p.response with buf := buf } } front cells back' ∧
      (p.sockAwait.isSome = true → a.stored.length ≤ back'.length ∧
        back'.take a.stored.length = a.stored.map some) := by
  by_cases hnone : p.sockAwait = none
  · exact ⟨p.response.buf, back, store_of_none hnone, h, by simp [hnone]⟩
  · obtain ⟨request, hsock⟩ := Option.ne_none_iff_exists'.mp hnone
    rw [Answers.Legal, hsock] at hlegal
    obtain ⟨hrequest, hmin⟩ := h.request request hsock
    have hlen : (a.stored.map some).length = a.stored.length := List.length_map _
    have hfits : (a.stored.map some).length ≤ back.length := by
      have := hlegal.1
      rw [hrequest] at this
      rw [hlen]
      exact this
    obtain ⟨buf, hwrite, hlayout⟩ := h.layout.put hfits
    have hback : (a.stored.map some ++ back.drop (a.stored.map some).length).length =
        back.length := by
      rw [List.length_append, List.length_drop]
      omega
    refine ⟨buf, _, ?_, ⟨hlayout, h.fixed, fun request' hrequest' => ?_⟩, fun _ => ⟨?_, ?_⟩⟩
    · simp [Printer.store, hsock, hrequest, hwrite]
    · rw [hback]
      exact h.request request' hrequest'
    · rw [hback, ← hlen]
      exact hfits
    · rw [← hlen, List.take_left]

theorem Ready.signalDataProcess (h : Ready sizes p cells)
    (hok : p.signalDataProcess a = .ok p') :
    ∃ running, p' = { p with running := running } := by
  rw [Printer.signalDataProcess, if_pos h.signalAwait_eq] at hok
  split at hok
  · cases hok
  · cases hok
    exact ⟨p.running, rfl⟩
  · cases hok
  · obtain rfl := signalDataRequest_ok (wrapErr_ok.mp hok)
    exact ⟨p.running && !a.sigint, by rw [← h.signalAwait_eq]⟩

theorem makeRoom_spec {b : Buf} (h : Buf.Layout b front cells back) (hfixed : b.autoCompact = false)
    (hsize : sizes.initialBufSize ≤ ptrdiffMax) (room : Bool) :
    ∃ error b', makeRoom sizes room b = some (error, b') ∧
      (error = none → ∃ front' back', Buf.Layout b' front' cells back' ∧ b'.autoCompact = false ∧
        min sizes.minReadSize sizes.initialBufSize ≤ back'.length) := by
  have hmax : ptrdiffMax = 0x7fffffffffffffff := rfl
  rw [makeRoom, h.immediately_eq]
  split
  · by_cases hroom : sizes.initialBufSize ≤ back.length + front.length ∨
      (room && cells.length + sizes.initialBufSize ≤ ptrdiffMax) = true
    · obtain ⟨b', front', back', hensure, hlayout, hle⟩ := h.ensure_room hroom
      refine ⟨none, b', by rw [hensure]; rfl, fun _ => ⟨front', back', hlayout, ?_, ?_⟩⟩
      · exact (Buf.autoCompact_of_ensure hensure).trans hfixed
      · exact (min_le_right _ _).trans hle
    · rw [not_or] at hroom
      have hbound := h.length_le
      obtain ⟨error, b', hensure, _⟩ := h.ensure_refused (by omega) (by omega) hroom.2 (by omega)
      exact ⟨some (.err none error), b', by rw [hensure]; rfl, by simp⟩
  · rename_i hle
    exact ⟨none, b, rfl, fun _ => ⟨front, back, h, hfixed,
      (min_le_left _ _).trans (Nat.le_of_not_lt hle)⟩⟩

theorem sockDataRequest_spec (h : Buf.Layout p.response front cells back)
    (hfixed : p.response.autoCompact = false) (hsize : sizes.initialBufSize ≤ ptrdiffMax)
    (room : Bool) (answer : Option ℕ) :
    ∃ result, p.sockDataRequest sizes room answer = some result ∧
      ∀ p', result = .ok p' → ∃ response request front' back',
        p' = { p with response := response, sockAwait := some request } ∧
          Buffered sizes p' front' cells back' := by
  obtain ⟨error, b', hroom, hspec⟩ := makeRoom_spec h hfixed hsize room
  rw [sockDataRequest, hroom, Option.bind_eq_bind, Option.bind_some]
  cases error with
  | some error => exact ⟨_, rfl, by simp⟩
  | none =>
      obtain ⟨front', back', hlayout, hfixed', hmin⟩ := hspec rfl
      refine ⟨_, rfl, fun p' hp' => ?_⟩
      cases answer with
      | some errno => simp [aioRead, Except.map] at hp'
      | none =>
          simp only [aioRead, Except.map, Except.ok.injEq] at hp'
          refine ⟨b', _, front', back', hp'.symm, ?_⟩
          rw [← hp']
          refine ⟨hlayout, hfixed', fun request hrequest => ⟨?_, hmin⟩⟩
          rw [← hlayout.immediately_eq]
          exact (Option.some.inj hrequest).symm

/-- A state in which other fields have changed in such a way that `Ready` goes on. -/
theorem Ready.of_buffered (h : Ready sizes p cells) {cells' : List Cell}
    (hbuffered : Buffered sizes p' front cells' back) (hresult : p'.result = p.result)
    (hsignal : p'.signalAwait = p.signalAwait) (hstdin : p'.stdinAwait = p'.shouldPaginate)
    (hsock : p'.sockAwait.isSome = !p'.eof)
    (hwaits : p'.waitingForUser = true → p'.shouldPaginate = true ∧ p'.lineCount = 0)
    (hlines : p'.lineCount ≤ sizes.lineLimit) : Ready sizes p' cells' :=
  ⟨⟨front, back, hbuffered⟩, h.size_le, hresult.trans h.result_eq,
    hsignal.trans h.signalAwait_eq, hstdin, hsock, hwaits, hlines⟩

theorem Ready.sockDataProcess (h : Ready sizes p cells)
    (hbuffered : Buffered sizes p front cells back) (hlegal : a.Legal p)
    (hsuspend : a.suspend = none)
    (hstored : p.sockAwait.isSome = true → a.stored.length ≤ back.length ∧
      back.take a.stored.length = a.stored.map some) :
    ∃ result, p.sockDataProcess sizes a = some result ∧
      ∀ p', result = .ok p' → ∃ response eof await,
        p' = { p with response := response, eof := eof, sockAwait := await } ∧
          Ready sizes p' (cells ++ a.received.map some) := by
  rw [Printer.sockDataProcess]
  by_cases hnone : p.sockAwait = none
  · have hempty : a.received = [] := by
      rw [Answers.Legal, hnone] at hlegal
      rw [Answers.received, hsuspend]
      split
      · exact hlegal
      · rfl
    refine ⟨.ok p, by simp [hnone], fun p' hp' => ⟨p.response, p.eof, p.sockAwait, ?_, ?_⟩⟩
    · cases hp'
      rfl
    · cases hp'
      simpa [hempty] using h
  · obtain ⟨request, hsock⟩ := Option.ne_none_iff_exists'.mp hnone
    rw [Answers.Legal, hsock] at hlegal
    have hawait : p.sockAwait.isSome = true := by rw [hsock]; rfl
    obtain ⟨hle, htake⟩ := hstored hawait
    rw [if_pos hawait]
    cases hdone : a.sock with
    | unknown errno => exact ⟨_, rfl, by simp⟩
    | failed errno => exact ⟨_, rfl, by simp⟩
    | notReturned errno => exact ⟨_, rfl, by simp⟩
    | inProgress =>
        have hempty : a.received = [] := by rw [Answers.received, hsuspend, hdone]
        refine ⟨.ok p, rfl, fun p' hp' => ⟨p.response, p.eof, p.sockAwait, ?_, ?_⟩⟩
        · cases hp'
          rfl
        · cases hp'
          simpa [hempty] using h
    | done count =>
        have hcount := hlegal.2 count hdone
        have hreceived : a.received = a.stored := by rw [Answers.received, hsuspend, hdone]
        rw [hcount] at hle htake
        obtain ⟨b', hwrite, hlayout, hauto⟩ := hbuffered.layout.commit hle
        rw [htake] at hlayout
        have hfixed : b'.autoCompact = false := hauto.trans hbuffered.fixed
        simp only [finalizeAsyncRead, hwrite, Option.bind_eq_bind, Option.bind_some,
          sockDataCommitted]
        rw [hreceived]
        split
        · refine ⟨_, rfl, fun p' hp' => ⟨b', true, none, ?_, ?_⟩⟩
          · cases hp'
            rfl
          · cases hp'
            refine h.of_buffered ⟨hlayout, hfixed, by simp⟩ rfl rfl h.stdinAwait_eq rfl h.waits
              h.lineCount_le
        · obtain ⟨result, hrequest, hspec⟩ := sockDataRequest_spec (p := { p with response := b' })
            hlayout hfixed h.size_le a.room a.sockPost
          refine ⟨_, by rw [hrequest]; rfl, fun p' hp' => ?_⟩
          cases result with
          | error error => cases hp'
          | ok _ =>
              cases hp'
              obtain ⟨response, request', front', back', rfl, hbuffered'⟩ := hspec _ rfl
              have heof : p.eof = false := by
                have := h.sockAwait_eq
                rw [hawait] at this
                simpa using this.symm
              exact ⟨response, p.eof, some request', rfl, h.of_buffered hbuffered' rfl rfl
                h.stdinAwait_eq (by simp [heof]) h.waits h.lineCount_le⟩

/-! ## The printing -/

/-- Only the flag for the server changes; it is off if there is a full page. -/
theorem Ready.waitForServer (h : Ready sizes p cells) :
    ∃ waiting, p.waitForServer sizes = some { p with waitingForServer := waiting } ∧
      (waiting = true → p.eof = false) ∧
      (waiting = false → p.waitingForUser = true ∨ p.shouldPaginate = false ∨ p.eof = true ∨
        fullPage sizes.lineLimit cells = true) := by
  obtain ⟨front, back, hbuffered⟩ := h.buffered
  rw [Printer.waitForServer]
  split
  · rename_i hyes
    refine ⟨!fullPage sizes.lineLimit cells, ?_, fun _ => ?_, fun hfull => ?_⟩
    · rw [hasFullPage, hbuffered.layout.readable_eq]
      rfl
    · simpa using (Bool.and_eq_true_iff.mp hyes).2
    · exact .inr (.inr (.inr (by simpa using hfull)))
  · rename_i hnot
    refine ⟨false, rfl, by simp, fun _ => ?_⟩
    revert hnot
    cases p.waitingForUser <;> cases p.shouldPaginate <;> cases p.eof <;> simp

theorem Ready.withServer (h : Ready sizes p cells) (waiting : Bool) :
    Ready sizes { p with waitingForServer := waiting } cells := by
  obtain ⟨front, back, hbuffered⟩ := h.buffered
  exact h.of_buffered ⟨hbuffered.layout, hbuffered.fixed, hbuffered.request⟩ rfl rfl
    h.stdinAwait_eq h.sockAwait_eq h.waits h.lineCount_le

/-- What the user is asked is erased, or nothing is. -/
theorem erased_stdinDataProcess (a : Answers) (p : Printer) :
    (p.stdinDataProcess a).1 = [] ∨ (p.stdinDataProcess a).1 = [.erased] := by
  rw [Printer.stdinDataProcess]
  split
  · split
    · exact .inl rfl
    · exact .inl rfl
    · exact .inr rfl
    · simp only
      split
      · exact .inr rfl
      · exact .inl rfl
  · exact .inl rfl

theorem Ready.stdinDataProcess (h : Ready sizes p cells)
    (hok : (p.stdinDataProcess a).2 = .ok p') :
    ∃ paginate waiting, p' = { p with
        shouldPaginate := paginate, waitingForUser := waiting, stdinAwait := paginate } ∧
      (paginate = true → p.shouldPaginate = true) ∧
      (waiting = true → p.waitingForUser = true ∧ paginate = true) := by
  have hsame : p = { p with stdinAwait := p.shouldPaginate } := by
    cases p
    cases h.stdinAwait_eq
    rfl
  have hwaits : p.waitingForUser = true → p.shouldPaginate = true := fun hw => (h.waits hw).1
  rw [Printer.stdinDataProcess] at hok
  split at hok
  · rename_i hawait
    have hpaginate : p.shouldPaginate = true := h.stdinAwait_eq ▸ hawait
    split at hok
    · cases hok
    · cases hok
      exact ⟨_, _, hsame, id, fun hw => ⟨hw, hwaits hw⟩⟩
    · cases hok
      exact ⟨false, false, rfl, by simp, by simp⟩
    · obtain rfl := stdinDataRequest_ok (wrapErr_ok.mp hok)
      refine ⟨true, _, by rw [← hpaginate], fun _ => hpaginate, fun hw => ⟨?_, rfl⟩⟩
      simpa using (Bool.and_eq_true_iff.mp hw).1
  · cases hok
    exact ⟨_, _, hsame, id, fun hw => ⟨hw, hwaits hw⟩⟩

inductive Ends (sizes : PrinterSizes) (p : Printer) (cells : List Cell) :
    List Shown → Printer → Prop
  | all (heof : p.eof = true) (hcells : cells = []) : Ends sizes p cells [] (p.returned none)
  | stopped (hrunning : p.running = false) {prompt : List Shown} {p' : Printer}
      (hrunning' : p'.running = false) (hresult : p'.result = some none)
      (hsame : p'.shouldPaginate = p.shouldPaginate)
      (hprompt : prompt = [] ∨ prompt = [.prompt] ∧ p.shouldPaginate = true ∧
        p.lineCount = sizes.lineLimit) :
      Ends sizes p cells prompt p'
  | prompt (hpaginate : p.shouldPaginate = true) (hfull : p.lineCount = sizes.lineLimit)
      {p' : Printer} (hhead : AtHead sizes p' cells) (hpaginate' : p'.shouldPaginate = true)
      (hcount : p'.lineCount = 0) : Ends sizes p cells [.prompt] p'
  | next (hhead : AtHead sizes p cells) : Ends sizes p cells [] p

/-- `endTurn`, if everything has been printed or there is a reason why not. -/
theorem Ready.endTurn (h : Ready sizes p cells) (hlimit : 0 < sizes.lineLimit)
    (hall : p.shouldPaginate = false → cells = [] ∧ p.lineCount < sizes.lineLimit)
    (hwhy : p.eof = true → cells ≠ [] →
      p.waitingForUser = true ∨ p.lineCount = sizes.lineLimit) :
    Ends sizes p cells (p.endTurn sizes).1 (p.endTurn sizes).2 := by
  obtain ⟨front, back, hbuffered⟩ := h.buffered
  rw [Printer.endTurn, hbuffered.layout.availableReadSize_eq]
  split
  · rename_i hend
    simp only [Bool.and_eq_true, beq_iff_eq, List.length_eq_zero_iff] at hend
    exact .all hend.1 hend.2
  · rename_i hnot
    have hne : p.eof = true → cells ≠ [] := by
      intro heof hcells
      simp [heof, hcells] at hnot
    by_cases hfull : p.shouldPaginate = true ∧ p.lineCount = sizes.lineLimit
    · have hyes : (p.shouldPaginate && p.lineCount == sizes.lineLimit) = true := by simp [hfull]
      simp only [hyes, if_true]
      by_cases hrunning : p.running = true
      · rw [if_pos hrunning]
        refine .prompt hfull.1 hfull.2 ⟨?_, hrunning, hlimit, fun heof => ⟨rfl, hne heof⟩⟩
          hfull.1 rfl
        exact h.of_buffered ⟨hbuffered.layout, hbuffered.fixed, hbuffered.request⟩ rfl rfl
          h.stdinAwait_eq h.sockAwait_eq (fun _ => ⟨hfull.1, rfl⟩) (Nat.zero_le _)
      · rw [if_neg hrunning]
        have hstopped : p.running = false := by simpa using hrunning
        exact .stopped hstopped hstopped rfl rfl (.inr ⟨rfl, hfull⟩)
    · have hno : (p.shouldPaginate && p.lineCount == sizes.lineLimit) = false := by
        simpa using hfull
      simp only [hno, Bool.false_eq_true, if_false]
      by_cases hrunning : p.running = true
      · rw [if_pos hrunning]
        have hlt : p.lineCount < sizes.lineLimit := by
          cases hpaginate : p.shouldPaginate with
          | false => exact (hall hpaginate).2
          | true => exact lt_of_le_of_ne h.lineCount_le fun heq => hfull ⟨hpaginate, heq⟩
        exact .next ⟨h, hrunning, hlt, fun heof =>
          ⟨(hwhy heof (hne heof)).resolve_right (by omega), hne heof⟩⟩
      · rw [if_neg hrunning]
        have hstopped : p.running = false := by simpa using hrunning
        exact .stopped hstopped hstopped rfl rfl (.inl rfl)

end Printer

def cellsOf (shown : List Shown) : List Cell :=
  shown.flatMap fun
    | .cells cells => cells
    | _ => []

@[simp] theorem cellsOf_nil : cellsOf [] = [] := rfl

@[simp] theorem cellsOf_append (xs ys : List Shown) :
    cellsOf (xs ++ ys) = cellsOf xs ++ cellsOf ys := List.flatMap_append

@[simp] theorem cellsOf_cons_cells (cells : List Cell) (shown : List Shown) :
    cellsOf (.cells cells :: shown) = cells ++ cellsOf shown := rfl

@[simp] theorem cellsOf_cons_prompt (shown : List Shown) :
    cellsOf (.prompt :: shown) = cellsOf shown := rfl

@[simp] theorem cellsOf_cons_erased (shown : List Shown) :
    cellsOf (.erased :: shown) = cellsOf shown := rfl

def Answers.NoWriteFails (a : Answers) : Prop := ∀ errno, .error errno ∉ a.writes

namespace Printer

variable {sizes : PrinterSizes} {a : Answers} {p p' : Printer} {cells : List Cell}
  {fresh : Prop} {shown : List Shown}

/-- What has been printed of a page, and whether it has become full. A page is broken off only if
the user has just asked for it, or at the end. -/
inductive Paging (sizes : PrinterSizes) (fresh : Prop) (p : Printer) (out : List Cell) :
    List Shown → Printer → Prop
  | quiet (hout : out = []) {p' : Printer}
      (hsame : p'.result = none → p'.lineCount = p.lineCount ∧
        (p'.waitingForUser = true → p.waitingForUser = true)) :
      Paging sizes fresh p out [] p'
  | part (hfresh : fresh) {p' : Printer} (hresult : p'.result = none)
      (hle : p'.lineCount ≤ p.lineCount + lineFeeds out)
      (hge : p.lineCount + lineFeeds out ≤ p'.lineCount + 1) (hwaits : p'.waitingForUser = false) :
      Paging sizes fresh p out [.cells out] p'
  | page (hpaginate : p.shouldPaginate = true)
      (hfeeds : p.lineCount + lineFeeds out = sizes.lineLimit) {p' : Printer}
      (hcount : p'.result = none → p'.lineCount = 0) :
      Paging sizes fresh p out [.cells out, .prompt] p'
  | last (hle : p.lineCount + lineFeeds out ≤ sizes.lineLimit) {p' : Printer}
      (hresult : p'.result ≠ none) : Paging sizes fresh p out [.cells out] p'
  | everything {p' : Printer} (hall : p'.shouldPaginate = false) :
      Paging sizes fresh p out [.cells out] p'

/-- What a turn prints: `out` of the unread bytes, and `rest` is left. -/
structure Prints (sizes : PrinterSizes) (a : Answers) (fresh : Prop) (p : Printer)
    (out rest : List Cell) (shown : List Shown) (p' : Printer) : Prop where
  cells_prefix : cellsOf shown <+: out
  cells_eq : a.NoWriteFails → cellsOf shown = out
  next : p'.result = none → AtHead sizes p' rest
  finished : p'.result = some none → p'.running = true → p'.eof = true ∧ rest = []
  paging : a.NoWriteFails → Paging sizes fresh p out shown p'
  paginates : p'.shouldPaginate = true → p.shouldPaginate = true

theorem Ends.shouldPaginate_eq (h : Ends sizes p cells shown p') :
    p'.shouldPaginate = p.shouldPaginate := by
  cases h with
  | all heof hcells => rfl
  | stopped hrunning hrunning' hresult hsame hprompt => exact hsame
  | prompt hpaginate hfull hhead hpaginate' hcount => rw [hpaginate, hpaginate']
  | next hhead => rfl

theorem Ends.quiet (h : Ends sizes p cells shown p') (hcount : p.lineCount < sizes.lineLimit) :
    Prints sizes a fresh p [] cells shown p' := by
  have hsame := h.shouldPaginate_eq
  cases h with
  | all heof hcells =>
      exact ⟨by simp, fun _ => rfl, by simp [returned], fun _ _ => ⟨heof, hcells⟩,
        fun _ => .quiet rfl (by simp [returned]), fun hpag => hsame ▸ hpag⟩
  | stopped hrunning hrunning' hresult _ hprompt =>
      obtain rfl := hprompt.resolve_right fun h => hcount.ne h.2.2
      exact ⟨by simp, fun _ => rfl, by simp [hresult], by simp [hrunning'],
        fun _ => .quiet rfl (by simp [hresult]), fun hpag => hsame ▸ hpag⟩
  | prompt hpaginate hfull => exact absurd hfull hcount.ne
  | next hhead =>
      exact ⟨by simp, fun _ => rfl, fun _ => hhead, by simp [hhead.result_eq],
        fun _ => .quiet rfl fun _ => ⟨rfl, id⟩, id⟩

/-- The end of a turn that has printed `out`, which `p₁` has left. -/
theorem Ends.printed {p₁ : Printer} {out rest : List Cell} {prompt : List Shown}
    (h : Ends sizes p₁ rest prompt p') (hpag : p₁.shouldPaginate = p.shouldPaginate)
    (hpage : p₁.lineCount = sizes.lineLimit → p.lineCount + lineFeeds out = sizes.lineLimit)
    (hlast : p₁.lineCount < sizes.lineLimit → p.lineCount + lineFeeds out ≤ sizes.lineLimit)
    (hpart : AtHead sizes p₁ rest → fresh ∧ p₁.lineCount ≤ p.lineCount + lineFeeds out ∧
      p.lineCount + lineFeeds out ≤ p₁.lineCount + 1 ∧ p₁.waitingForUser = false)
    (hle : p₁.lineCount ≤ sizes.lineLimit) :
    Prints sizes a fresh p out rest (.cells (writeAll a.writes out).1 :: prompt) p' := by
  have hprefix := writeAll_prefix a.writes out
  have hall : a.NoWriteFails → (writeAll a.writes out).1 = out := fun hwrites => by
    rw [writeAll_eq hwrites]
  have hlimit : p.lineCount + lineFeeds out ≤ sizes.lineLimit := by
    rcases hle.eq_or_lt with heq | hlt
    · exact (hpage heq).le
    · exact hlast hlt
  have hsame : p'.shouldPaginate = true → p.shouldPaginate = true := fun hp =>
    hpag.symm.trans (h.shouldPaginate_eq.symm.trans hp)
  cases h with
  | all heof hcells =>
      refine ⟨by simpa using hprefix, fun hw => by simpa using hall hw, by simp [returned],
        fun _ _ => ⟨heof, hcells⟩, fun hw => ?_, hsame⟩
      rw [hall hw]
      exact .last hlimit (by simp [returned])
  | stopped hrunning hrunning' hresult _ hprompt =>
      have hcells : cellsOf prompt = [] := by rcases hprompt with rfl | ⟨rfl, _⟩ <;> rfl
      refine ⟨by simpa [hcells] using hprefix, fun hw => by simpa [hcells] using hall hw,
        by simp [hresult], by simp [hrunning'], fun hw => ?_, hsame⟩
      rw [hall hw]
      rcases hprompt with rfl | ⟨rfl, hyes, hfull⟩
      · exact .last hlimit (by simp [hresult])
      · exact .page (hpag.symm.trans hyes) (hpage hfull) (by simp [hresult])
  | prompt hpaginate hfull hhead hpaginate' hcount =>
      refine ⟨by simpa using hprefix, fun hw => by simpa using hall hw, fun _ => hhead,
        by simp [hhead.result_eq], fun hw => ?_, hsame⟩
      rw [hall hw]
      exact .page (hpag.symm.trans hpaginate) (hpage hfull) fun _ => hcount
  | next hhead =>
      refine ⟨by simpa using hprefix, fun hw => by simpa using hall hw, fun _ => hhead,
        by simp [hhead.result_eq], fun hw => ?_, hsame⟩
      rw [hall hw]
      obtain ⟨hfresh, hge, hle, hwaits⟩ := hpart hhead
      exact .part hfresh hhead.result_eq hge hle hwaits

theorem Ready.printLines (h : Ready sizes p cells) (huser : p.waitingForUser = false)
    {count left : ℕ} (htakes : takeLines (sizes.lineLimit - p.lineCount) cells = (count, left)) :
    ∃ p₁ : Printer, p.printLines sizes a =
        some ([.cells (writeAll a.writes (cells.take count)).1], p₁) ∧
      Ready sizes p₁ (cells.drop count) ∧
      p₁ = { p with response := p₁.response, lineCount := sizes.lineLimit - left } := by
  obtain ⟨front, back, hbuffered⟩ := h.buffered
  have hspec := takeLines_spec (sizes.lineLimit - p.lineCount) cells
  rw [htakes] at hspec
  obtain ⟨b', hread, hlayout, hfixed, hpos⟩ :=
    hbuffered.layout.read_fixed hbuffered.fixed hspec.count_le
  refine ⟨{ p with response := b', lineCount := sizes.lineLimit - left }, ?_, ?_, rfl⟩
  · rw [Printer.printLines, hbuffered.layout.readable_eq]
    simp only [Option.bind_eq_bind, Option.bind_some, htakes, hread]
    rfl
  · refine h.of_buffered ⟨hlayout, hfixed, fun request hrequest => ?_⟩ rfl rfl
      h.stdinAwait_eq h.sockAwait_eq (fun hw => ?_) (Nat.sub_le _ _)
    · have hrequest' := hbuffered.request request hrequest
      rwa [← hpos] at hrequest'
    · simp [huser] at hw

/-- A page is printed up to its last line, or everything is and the page is not full. -/
theorem Ready.printPage_lines (h : Ready sizes p cells) (hcount : p.lineCount < sizes.lineLimit)
    (hpaginate : p.shouldPaginate = true) (huser : p.waitingForUser = false)
    (hserver : p.waitingForServer = false)
    (hreason : fresh ∨ p.eof = true ∨ fullPage sizes.lineLimit cells = true) :
    ∃ out rest shown p', p.printPage sizes a = some (shown, p') ∧ cells = out ++ rest ∧
      Prints sizes a fresh p out rest shown p' := by
  obtain ⟨count, left, htakes⟩ : ∃ count left,
      takeLines (sizes.lineLimit - p.lineCount) cells = (count, left) := ⟨_, _, rfl⟩
  obtain ⟨p₁, hlines, hready, hp₁⟩ := h.printLines (a := a) huser htakes
  have hspec := takeLines_spec (sizes.lineLimit - p.lineCount) cells
  rw [htakes] at hspec
  have hleft := hspec.left_le
  have hcount₁ : p₁.lineCount = sizes.lineLimit - left := by rw [hp₁]
  have hpaginate₁ : p₁.shouldPaginate = p.shouldPaginate := by rw [hp₁]
  have heof₁ : p₁.eof = p.eof := by rw [hp₁]
  have huser₁ : p₁.waitingForUser = false := by rw [hp₁]; exact huser
  have hdrop : left ≠ 0 → cells.drop count = [] := fun hne =>
    List.drop_eq_nil_of_le (hspec.ends hne).ge
  have hfeeds : left ≠ 0 →
      p.lineCount + lineFeeds (cells.take count) ≤ sizes.lineLimit - left + 1 ∧
        sizes.lineLimit - left ≤ p.lineCount + lineFeeds (cells.take count) ∧
        p.lineCount + lineFeeds (cells.take count) ≤ sizes.lineLimit := fun hne => by
    have hsome := hspec.some_lines hne
    rw [List.take_of_length_le (hspec.ends hne).ge]
    omega
  have hends := hready.endTurn (Nat.zero_lt_of_lt hcount) (by simp [hpaginate₁, hpaginate])
    fun _ hne => .inr (by
      have hzero : left = 0 := not_ne_iff.mp fun hne' => hne (hdrop hne')
      rw [hcount₁, hzero, Nat.sub_zero])
  refine ⟨cells.take count, cells.drop count, _, _, ?_, (List.take_append_drop _ _).symm,
    hends.printed hpaginate₁ (fun hfull => ?_) (fun hlt => ?_) (fun hhead => ?_)
      (hcount₁ ▸ Nat.sub_le _ _)⟩
  · simp only [Printer.printPage, huser, hserver, Bool.not_false, Bool.and_self, if_true, hlines,
      Option.bind_eq_bind, Option.bind_some]
    rfl
  · have hzero : left = 0 := by omega
    rw [hspec.page hzero]
    omega
  · exact (hfeeds (by omega)).2.2
  · have hne : left ≠ 0 := by
      have hlt := hhead.lineCount_lt
      omega
    rw [hcount₁]
    refine ⟨?_, (hfeeds hne).2.1, (hfeeds hne).1, huser₁⟩
    -- the page is not full, so it has been asked for
    rcases hreason with hfresh | heof | hfull
    · exact hfresh
    · exact absurd (hdrop hne) (hhead.asks (heof₁.trans heof)).2
    · have hzero := takeLines_eq_zero (Nat.sub_le _ p.lineCount) ((fullPage_iff _ _).mp hfull)
      rw [htakes] at hzero
      exact absurd hzero hne

theorem Ready.printPage_waits (h : Ready sizes p cells) (hcount : p.lineCount < sizes.lineLimit)
    (hpaginate : p.shouldPaginate = true) (hserver : p.waitingForServer = true → p.eof = false)
    (hwaits : p.waitingForUser = true ∨ p.waitingForServer = true) :
    ∃ shown p', p.printPage sizes a = some (shown, p') ∧
      Prints sizes a fresh p [] cells shown p' := by
  have hends := h.endTurn (Nat.zero_lt_of_lt hcount) (by simp [hpaginate]) fun heof _ =>
    .inl (hwaits.resolve_right fun hyes => by simp [hserver hyes] at heof)
  have hskip : (!p.waitingForUser && !p.waitingForServer) = false := by
    rcases hwaits with huser | hserver <;> simp [*]
  refine ⟨_, _, ?_, hends.quiet hcount⟩
  simp only [Printer.printPage, hskip, Option.bind_eq_bind, Option.bind_some, Bool.false_eq_true,
    if_false, List.nil_append]
  rfl

theorem Ready.printPage (h : Ready sizes p cells) (hcount : p.lineCount < sizes.lineLimit)
    (hpaginate : p.shouldPaginate = true) (hserver : p.waitingForServer = true → p.eof = false)
    (hreason : p.waitingForUser = false → p.waitingForServer = false →
      fresh ∨ p.eof = true ∨ fullPage sizes.lineLimit cells = true) :
    ∃ out rest shown p', p.printPage sizes a = some (shown, p') ∧ cells = out ++ rest ∧
      Prints sizes a fresh p out rest shown p' := by
  by_cases hwaits : p.waitingForUser = true ∨ p.waitingForServer = true
  · obtain ⟨shown, p', hpage, hquiet⟩ := h.printPage_waits hcount hpaginate hserver hwaits
    exact ⟨[], cells, shown, p', hpage, rfl, hquiet⟩
  · simp only [not_or, Bool.not_eq_true] at hwaits
    exact h.printPage_lines hcount hpaginate hwaits.1 hwaits.2 (hreason hwaits.1 hwaits.2)

theorem Ready.printAll (h : Ready sizes p cells) (hcount : p.lineCount < sizes.lineLimit)
    (hpaginate : p.shouldPaginate = false) :
    ∃ shown p', p.printAll sizes a = some (shown, p') ∧
      Prints sizes a fresh p cells [] shown p' := by
  obtain ⟨front, back, hbuffered⟩ := h.buffered
  have hprefix := writeAll_prefix a.writes cells
  rw [Printer.printAll, hbuffered.layout.readable_eq]
  cases herror : (writeAll a.writes cells).2 with
  | some error =>
      have hfails : ¬a.NoWriteFails := fun hwrites => by simp [writeAll_eq hwrites] at herror
      refine ⟨[.cells (writeAll a.writes cells).1], _, by
        simp only [Option.bind_eq_bind, Option.bind_some, herror, printedAll]
        rfl, ?_⟩
      exact ⟨by simpa using hprefix, fun hw => absurd hw hfails, by simp [returned],
        by simp [returned], fun hw => absurd hw hfails, id⟩
  | none =>
      have hall : a.NoWriteFails → (writeAll a.writes cells).1 = cells := fun hwrites => by
        rw [writeAll_eq hwrites]
      obtain ⟨b', hread, hlayout, hfixed, hpos⟩ :=
        hbuffered.layout.read_fixed hbuffered.fixed le_rfl
      rw [List.drop_length] at hlayout
      have hready : Ready sizes { p with response := b' } [] := by
        refine h.of_buffered ⟨hlayout, hfixed, fun request hrequest => ?_⟩ rfl rfl
          h.stdinAwait_eq h.sockAwait_eq h.waits h.lineCount_le
        rw [show Buf.writePos _ = p.response.writePos from hpos]
        exact hbuffered.request request hrequest
      have hends := hready.endTurn (Nat.zero_lt_of_lt hcount) (fun _ => ⟨rfl, hcount⟩)
        fun _ hne => absurd rfl hne
      refine ⟨_, _, by
        simp only [Option.bind_eq_bind, Option.bind_some, herror, printedAll, hread]
        rfl, ?_⟩
      generalize (Printer.endTurn sizes { p with response := b' }).1 = prompt at hends
      generalize (Printer.endTurn sizes { p with response := b' }).2 = p₂ at hends
      have hquiet : Prints sizes a fresh { p with response := b' } [] [] prompt p₂ :=
        hends.quiet hcount
      have hprompt : prompt = [] ∧ p₂.shouldPaginate = false := by
        cases hends with
        | all heof hcells => exact ⟨rfl, hpaginate⟩
        | stopped hrunning hrunning' hresult hsame hprompt =>
            exact ⟨hprompt.resolve_right fun h => hcount.ne h.2.2, hsame.trans hpaginate⟩
        | prompt hyes hfull => exact absurd hfull hcount.ne
        | next hhead => exact ⟨rfl, hpaginate⟩
      obtain ⟨rfl, hpaginate'⟩ := hprompt
      refine ⟨by simpa using hprefix, fun hw => by simpa using hall hw, hquiet.next,
        hquiet.finished, fun hw => ?_, hquiet.paginates⟩
      rw [hall hw]
      exact .everything hpaginate'

theorem prints_error (error : PrinterErr) {p₁ : Printer}
    (hpaginate : p₁.shouldPaginate = true → p.shouldPaginate = true) :
    Prints sizes a fresh p [] cells [] (p₁.returned (some error)) :=
  ⟨by simp, fun _ => rfl, by simp [returned], by simp [returned],
    fun _ => .quiet rfl (by simp [returned]), hpaginate⟩

/-- The printing goes by the number of lines, and by whether the user waits. -/
theorem Prints.of_same {p₁ : Printer} {out rest : List Cell}
    (h : Prints sizes a fresh p₁ out rest shown p') (hcount : p₁.lineCount = p.lineCount)
    (hwaits : p₁.waitingForUser = true → p.waitingForUser = true)
    (hpaginate : p₁.shouldPaginate = true → p.shouldPaginate = true) :
    Prints sizes a fresh p out rest shown p' := by
  refine ⟨h.cells_prefix, h.cells_eq, h.next, h.finished, fun hw => ?_,
    fun hpag => hpaginate (h.paginates hpag)⟩
  cases h.paging hw with
  | quiet hout hsame =>
      exact .quiet hout fun hresult =>
        ⟨(hsame hresult).1.trans hcount, fun hwait => hwaits ((hsame hresult).2 hwait)⟩
  | part hfresh hresult hle hge hwaits' =>
      exact .part hfresh hresult (hcount ▸ hle) (hcount ▸ hge) hwaits'
  | page hpag hfeeds hcount' => exact .page (hpaginate hpag) (hcount ▸ hfeeds) hcount'
  | last hle hresult => exact .last (hcount ▸ hle) hresult
  | everything hall => exact .everything hall

/-- The part of a turn behind `sock_data_process`. The user has asked for a page if he does not
wait any more. -/
theorem Ready.display (h : Ready sizes p cells) (hcount : p.lineCount < sizes.lineLimit) :
    ∃ out rest erased shown p', p.display sizes a = some (erased ++ shown, p') ∧
      (erased = [] ∨ erased = [.erased]) ∧ cells = out ++ rest ∧
      Prints sizes a (p.waitingForUser = true) p out rest shown p' := by
  obtain ⟨waiting, hwait, heof, hreason⟩ := h.waitForServer
  have hserver := h.withServer waiting
  rw [Printer.display, hwait, Option.bind_eq_bind, Option.bind_some]
  have herased := erased_stdinDataProcess a { p with waitingForServer := waiting }
  generalize hstdin : Printer.stdinDataProcess a { p with waitingForServer := waiting } = stdin
    at herased
  obtain ⟨erased, result⟩ := stdin
  cases result with
  | error error =>
      refine ⟨[], cells, erased, [], Printer.returned { p with waitingForServer := waiting }
        (some (.err none error)), ?_, herased, rfl, prints_error _ id⟩
      rw [List.append_nil]
      rfl
  | ok p₂ =>
      obtain ⟨paginate, waits, rfl, hpaginate, hwaits⟩ :=
        hserver.stdinDataProcess (congrArg Prod.snd hstdin)
      obtain ⟨front, back, hbuffered⟩ := h.buffered
      have hready : Ready sizes { p with
          waitingForServer := waiting, shouldPaginate := paginate, waitingForUser := waits,
          stdinAwait := paginate } cells :=
        h.of_buffered ⟨hbuffered.layout, hbuffered.fixed, hbuffered.request⟩ rfl rfl rfl
          h.sockAwait_eq (fun hw => ⟨(hwaits hw).2, (h.waits (hwaits hw).1).2⟩) h.lineCount_le
      cases paginate with
      | true =>
          have hreason' : waits = false → waiting = false →
              p.waitingForUser = true ∨ p.eof = true ∨ fullPage sizes.lineLimit cells = true := by
            intro _ hno
            rcases hreason hno with huser | hall | hrest
            · exact .inl huser
            · exact absurd (hpaginate rfl) (by simp [hall])
            · exact .inr hrest
          obtain ⟨out, rest, shown, p', hprint, hsplit, hprints⟩ :=
            hready.printPage (a := a) hcount rfl heof hreason'
          refine ⟨out, rest, erased, shown, p', ?_, herased, hsplit,
            hprints.of_same rfl (fun hw => (hwaits hw).1) hpaginate⟩
          simp only [Printer.print, if_true, hprint, Option.bind_eq_bind, Option.bind_some]
          rfl
      | false =>
          obtain ⟨shown, p', hprint, hprints⟩ := hready.printAll (a := a) hcount rfl
          refine ⟨cells, [], erased, shown, p', ?_, herased, (List.append_nil _).symm,
            hprints.of_same rfl (fun hw => (hwaits hw).1) hpaginate⟩
          simp only [Printer.print, Bool.false_eq_true, if_false, hprint, Option.bind_eq_bind,
            Option.bind_some]
          rfl

theorem Ready.receive {front back : List Cell} (h : Ready sizes p cells)
    (hbuffered : Buffered sizes p front cells back) (hlegal : a.Legal p)
    (hsuspend : a.suspend = none)
    (hstored : p.sockAwait.isSome = true → a.stored.length ≤ back.length ∧
      back.take a.stored.length = a.stored.map some)
    (hcount : p.lineCount < sizes.lineLimit) :
    ∃ out rest erased shown p', p.receive sizes a = some (erased ++ shown, p') ∧
      (erased = [] ∨ erased = [.erased]) ∧ cells ++ a.received.map some = out ++ rest ∧
      Prints sizes a (p.waitingForUser = true) p out rest shown p' := by
  obtain ⟨result, hsock, hspec⟩ := h.sockDataProcess hbuffered hlegal hsuspend hstored
  rw [Printer.receive, hsock, Option.bind_eq_bind, Option.bind_some]
  cases result with
  | error error => exact ⟨[], _, [], [], _, rfl, .inl rfl, rfl, prints_error _ id⟩
  | ok p₁ =>
      obtain ⟨response, eof, await, rfl, hready⟩ := hspec p₁ rfl
      obtain ⟨out, rest, erased, shown, p', hdisplay, herased, hsplit, hprints⟩ :=
        hready.display (a := a) hcount
      exact ⟨out, rest, erased, shown, p', hdisplay, herased, hsplit, hprints.of_same rfl id id⟩

/-- A turn prints a part of the bytes that are unread or arrive. -/
theorem AtHead.turn (h : AtHead sizes p cells) (hlegal : a.Legal p) :
    ∃ out rest erased shown p', p.turn sizes a = some (erased ++ shown, p') ∧
      (erased = [] ∨ erased = [.erased]) ∧ cells ++ a.received.map some = out ++ rest ∧
      Prints sizes a (p.waitingForUser = true) p out rest shown p' := by
  obtain ⟨front, back, hbuffered⟩ := h.buffered
  obtain ⟨buf, back', hstore, hbuffered', hstored⟩ := hbuffered.store hlegal
  have hready : Ready sizes { p with response := { p.response with buf := buf } } cells :=
    h.of_buffered hbuffered' rfl rfl h.stdinAwait_eq h.sockAwait_eq h.waits h.lineCount_le
  rw [Printer.turn, hstore, Option.bind_eq_bind, Option.bind_some]
  cases hsuspend : a.suspend with
  | some errno => exact ⟨[], _, [], [], _, rfl, .inl rfl, rfl, prints_error _ id⟩
  | none =>
      cases hsignal :
          Printer.signalDataProcess a { p with response := { p.response with buf := buf } } with
      | error error => exact ⟨[], _, [], [], _, rfl, .inl rfl, rfl, prints_error _ id⟩
      | ok p₁ =>
          obtain ⟨running, rfl⟩ := hready.signalDataProcess hsignal
          have hbuffered₁ : Buffered sizes { p with
              running := running, response := { p.response with buf := buf } } front cells back' :=
            ⟨hbuffered'.layout, hbuffered'.fixed, hbuffered'.request⟩
          have hready₁ := hready.of_buffered hbuffered₁ rfl rfl h.stdinAwait_eq h.sockAwait_eq
            h.waits h.lineCount_le
          obtain ⟨out, rest, erased, shown, p', hreceive, herased, hsplit, hprints⟩ :=
            hready₁.receive hbuffered₁ hlegal hsuspend hstored h.lineCount_lt
          exact ⟨out, rest, erased, shown, p', hreceive, herased, hsplit, hprints.of_same rfl id id⟩

end Printer

end HttpAio

end PosixThreads
