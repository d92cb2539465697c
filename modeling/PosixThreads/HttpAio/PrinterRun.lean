import PosixThreads.HttpAio.PrinterSpec
import Mathlib.Data.List.Induction

/-!
# Runs of the printer

In every run, what has been printed and what is unread is what has been received, in order. If
`run_printer` returns `OK` without having been stopped, everything has been printed. The prompts
cut the output into pages. A page has as many lines as it should, or one more: a line feed that is
the last byte there is when the user asks for a page is printed but not counted.
-/

namespace PosixThreads

namespace HttpAio

open Printer

variable {sizes : PrinterSizes} {a : Answers} {p p' : Printer} {cells : List Cell}
  {shown : List Shown} {hist : List (Answers × List Shown)} {shouldPaginate : Bool}

def shownIn (hist : List (Answers × List Shown)) : List Shown := hist.flatMap Prod.snd

def printedIn (hist : List (Answers × List Shown)) : List Cell := cellsOf (shownIn hist)

def receivedIn (hist : List (Answers × List Shown)) : List Cell :=
  hist.flatMap fun label => label.1.received.map some

def NoWriteFailsIn (hist : List (Answers × List Shown)) : Prop :=
  ∀ label ∈ hist, label.1.NoWriteFails

@[simp] theorem shownIn_snoc : shownIn (hist ++ [(a, shown)]) = shownIn hist ++ shown := by
  simp [shownIn]

@[simp] theorem printedIn_snoc :
    printedIn (hist ++ [(a, shown)]) = printedIn hist ++ cellsOf shown := by
  simp [printedIn]

@[simp] theorem receivedIn_snoc :
    receivedIn (hist ++ [(a, shown)]) = receivedIn hist ++ a.received.map some := by
  simp [receivedIn]

theorem noWriteFailsIn_snoc :
    NoWriteFailsIn (hist ++ [(a, shown)]) ↔ NoWriteFailsIn hist ∧ a.NoWriteFails := by
  simp only [NoWriteFailsIn, List.mem_append, List.mem_singleton, or_imp, forall_and, forall_eq]

/-! ## The beginning -/

theorem new_layout {room : Bool} {capacity : ℕ} {autoCompact : Bool} {b : Buf}
    (h : Buf.new room capacity autoCompact = .ok b) :
    Buf.Layout b [] [] (List.replicate capacity none) ∧ b.autoCompact = autoCompact ∧
      capacity ≤ ptrdiffMax := by
  rw [Buf.new, realloc] at h
  by_cases hok : (room && decide (capacity ≤ ptrdiffMax)) = true
  · have hmax : capacity ≤ ptrdiffMax := by simpa using (Bool.and_eq_true_iff.mp hok).2
    rw [if_pos hok] at h
    simp only [Except.ok.injEq] at h
    rw [← h]
    exact ⟨⟨by simp [Block.resize], rfl, rfl, rfl, by simp, hmax⟩, rfl, hmax⟩
  · rw [if_neg hok] at h
    cases h

theorem PrinterInit.atHead (hlimit : 0 < sizes.lineLimit)
    (h : PrinterInit sizes shouldPaginate p) :
    AtHead sizes p [] ∧ p.shouldPaginate = shouldPaginate ∧ p.lineCount = 0 ∧
      p.waitingForUser = false := by
  obtain ⟨a, hstart⟩ := h
  rw [start] at hstart
  cases hnew : Buf.new a.room sizes.initialBufSize false with
  | error error =>
      rw [hnew] at hstart
      simp at hstart
  | ok b =>
      obtain ⟨hlayout, hfixed, hmax⟩ := new_layout hnew
      rw [hnew] at hstart
      simp only [firstRequests] at hstart
      split at hstart
      · cases hstart
      · rename_i p₁ hsignal
        obtain rfl := signalDataRequest_ok (wrapErr_ok.mp hsignal)
        split at hstart
        · cases hstart
        · rename_i p₂ hstdin
          let q : Printer := ⟨0, false, false, true, false, shouldPaginate, b, true, none,
            shouldPaginate, none⟩
          have hp₂ : p₂ = q := by
            cases shouldPaginate with
            | false => exact (Except.ok.inj (wrapErr_ok.mp hstdin)).symm
            | true => exact stdinDataRequest_ok (wrapErr_ok.mp hstdin)
          subst hp₂
          obtain ⟨result, hsock, hspec⟩ := sockDataRequest_spec (p := q) hlayout hfixed hmax a.room
            a.sockPost
          rw [hsock, Option.map_some, Option.some.injEq] at hstart
          obtain ⟨response, request, front, back, rfl, hbuffered⟩ := hspec p (wrapErr_ok.mp hstart)
          exact ⟨⟨⟨⟨front, back, hbuffered⟩, hmax, rfl, rfl, rfl, rfl, by simp, Nat.zero_le _⟩, rfl,
            hlimit, by simp⟩, rfl, rfl, rfl⟩

/-! ## Delivery -/

theorem Printer.AtHead.step (h : AtHead sizes p cells) (hstep : PrinterStep sizes p (a, shown) p') :
    ∃ out rest erased shown', shown = erased ++ shown' ∧ (erased = [] ∨ erased = [.erased]) ∧
      cells ++ a.received.map some = out ++ rest ∧
      Prints sizes a (p.waitingForUser = true) p out rest shown' p' := by
  obtain ⟨_, hlegal, hturn⟩ := hstep
  obtain ⟨out, rest, erased, shown', p₁, hturn', herased, hsplit, hprints⟩ := h.turn hlegal
  rw [hturn', Option.some.injEq, Prod.mk.injEq] at hturn
  obtain ⟨rfl, rfl⟩ := hturn
  exact ⟨out, rest, erased, shown', rfl, herased, hsplit, hprints⟩

theorem cellsOf_erased {erased : List Shown} (h : erased = [] ∨ erased = [.erased]) :
    cellsOf erased = [] := by
  rcases h with rfl | rfl <;> rfl

/-- `taken` has been read from the buffer, and a part of it has been printed. -/
structure Delivered (sizes : PrinterSizes) (hist : List (Answers × List Shown)) (p : Printer)
    (taken cells : List Cell) : Prop where
  received_eq : receivedIn hist = taken ++ cells
  sublist : (printedIn hist).Sublist taken
  printed_eq : NoWriteFailsIn hist → printedIn hist = taken
  next : p.result = none → AtHead sizes p cells
  finished : p.result = some none → p.running = true → p.eof = true ∧ cells = []

theorem Delivered.step {taken : List Cell} (h : Delivered sizes hist p taken cells)
    (hstep : PrinterStep sizes p (a, shown) p') :
    ∃ taken' cells', Delivered sizes (hist ++ [(a, shown)]) p' taken' cells' := by
  obtain ⟨out, rest, erased, shown', rfl, herased, hsplit, hprints⟩ :=
    (h.next hstep.1).step hstep
  have hcells : cellsOf (erased ++ shown') = cellsOf shown' := by
    rw [cellsOf_append, cellsOf_erased herased, List.nil_append]
  refine ⟨taken ++ out, rest, ?_, ?_, fun hw => ?_, hprints.next, hprints.finished⟩
  · rw [receivedIn_snoc, h.received_eq, List.append_assoc, hsplit, List.append_assoc]
  · rw [printedIn_snoc, hcells]
    exact h.sublist.append hprints.cells_prefix.sublist
  · obtain ⟨hwrites, hwrite⟩ := noWriteFailsIn_snoc.mp hw
    rw [printedIn_snoc, hcells, h.printed_eq hwrites, hprints.cells_eq hwrite]

theorem exists_delivered (hlimit : 0 < sizes.lineLimit)
    (hrun : PrinterRun sizes shouldPaginate hist p) :
    ∃ taken cells, Delivered sizes hist p taken cells := by
  refine hrun.invariant (I := fun hist p => ∃ taken cells, Delivered sizes hist p taken cells)
    (fun p hinit => ?_) fun hist p label p' h hstep => ?_
  · have hhead := (hinit.atHead hlimit).1
    exact ⟨[], [], rfl, .slnil, fun _ => rfl, fun _ => hhead, by simp [hhead.result_eq]⟩
  · obtain ⟨taken, cells, h⟩ := h
    exact h.step hstep

/-! A run with pages of one line: two lines arrive, and when the connection has been closed the
user asks for the second one. -/

def pressedAnswers : Answers :=
  ⟨none, .inProgress, false, none, .done 0, [], true, none, .done 1, [0x20], none, [.ok 0]⟩

def linesAnswers : Answers :=
  { pressedAnswers with sock := .done 3, stored := [0x61, 0x0a, 0x62], stdin := .inProgress }

def beganPrinter : Printer :=
  ⟨0, false, false, true, false, true, ⟨List.replicate 8 none, 8, 0, 0, 0, false⟩, true,
    some ⟨0, 8⟩, true, none⟩

def askingPrinter : Printer :=
  { beganPrinter with
    waitingForUser := true
    response := ⟨[some 0x61, some 0x0a, some 0x62] ++ List.replicate 5 none, 8, 3, 3, 2, false⟩
    sockAwait := some ⟨3, 5⟩ }

def donePrinter : Printer :=
  { beganPrinter with
    eof := true
    response := ⟨[], 0, 0, 0, 0, false⟩
    sockAwait := none
    result := some none }

def linesTurn : Answers × List Shown := (linesAnswers, [.cells [some 0x61, some 0x0a], .prompt])

def pressedTurn : Answers × List Shown := (pressedAnswers, [.erased, .cells [some 0x62]])

theorem init_beganPrinter : PrinterInit ⟨8, 2, 1⟩ true beganPrinter :=
  ⟨linesAnswers, by decide +kernel⟩

theorem run_linesTurn : PrinterRun ⟨8, 2, 1⟩ true [linesTurn] askingPrinter := by
  refine Lts.Run.snoc (.start init_beganPrinter) ⟨rfl, ?_, by decide +kernel⟩
  simp [Answers.Legal, Answers.Fits, beganPrinter, linesTurn, linesAnswers]

theorem run_pressedTurn : PrinterRun ⟨8, 2, 1⟩ true [linesTurn, pressedTurn] donePrinter := by
  refine Lts.Run.snoc run_linesTurn ⟨rfl, ?_, by decide +kernel⟩
  simp [Answers.Legal, Answers.Fits, beganPrinter, askingPrinter, pressedTurn, pressedAnswers]

theorem noWriteFailsIn_pressedTurn : NoWriteFailsIn [linesTurn, pressedTurn] := by
  simp [NoWriteFailsIn, Answers.NoWriteFails, linesTurn, pressedTurn, linesAnswers, pressedAnswers]

/-- In every run nothing is printed that has not been received, in the order in which it has been
received. If no write fails, nothing is left out: what is not printed is unread, and there is
nothing left when the function returns without an error and without having been stopped. -/
theorem PrinterRun.delivers (hlimit : 0 < sizes.lineLimit)
    (hrun : PrinterRun sizes shouldPaginate hist p) :
    (printedIn hist).Sublist (receivedIn hist) ∧
      (NoWriteFailsIn hist → printedIn hist <+: receivedIn hist ∧
        (p.result = none → printedIn hist ++ p.response.unread = receivedIn hist) ∧
        (p.result = some none → p.running = true →
          p.eof = true ∧ printedIn hist = receivedIn hist)) := by
  obtain ⟨taken, cells, h⟩ := exists_delivered hlimit hrun
  rw [h.received_eq]
  refine ⟨h.sublist.trans (List.sublist_append_left _ _), fun hw => ?_⟩
  rw [h.printed_eq hw]
  refine ⟨List.prefix_append _ _, fun hresult => ?_, fun hresult hrunning => ?_⟩
  · obtain ⟨front, back, hbuffered⟩ := (h.next hresult).buffered
    rw [hbuffered.layout.unread_eq]
  · obtain ⟨heof, rfl⟩ := h.finished hresult hrunning
    exact ⟨heof, (List.append_nil _).symm⟩

theorem PrinterRun.delivers_pressedTurn :
    donePrinter.eof = true ∧
      printedIn [linesTurn, pressedTurn] = receivedIn [linesTurn, pressedTurn] :=
  ((PrinterRun.delivers (by decide) run_pressedTurn).2 noWriteFailsIn_pressedTurn).2.2 rfl rfl

/-- Where the loop begins anew, there is something that it waits for: as long as the server has not
closed the connection, a read of at least `MIN_READ_SIZE` bytes is posted, to room behind the
unread bytes; after that there is something unread, and the user is asked, whose input is read. No
answer of the system leads outside of the buffer. -/
theorem PrinterRun.goes_on (hlimit : 0 < sizes.lineLimit)
    (hsizes : sizes.minReadSize ≤ sizes.initialBufSize)
    (hrun : PrinterRun sizes shouldPaginate hist p) (hresult : p.result = none) :
    p.signalAwait = true ∧
      (p.eof = false → ∃ request, p.sockAwait = some request ∧
        sizes.minReadSize ≤ request.aioNbytes ∧ p.response.readEnd ≤ request.aioBuf ∧
        request.aioBuf + request.aioNbytes = p.response.buf.length) ∧
      (p.eof = true → p.waitingForUser = true ∧ p.stdinAwait = true ∧ p.response.unread ≠ []) ∧
      ∀ a, a.Legal p → ∃ shown p', PrinterStep sizes p (a, shown) p' := by
  obtain ⟨taken, cells, h⟩ := exists_delivered hlimit hrun
  have hhead := h.next hresult
  obtain ⟨front, back, hbuffered⟩ := hhead.buffered
  have hlayout := hbuffered.layout
  refine ⟨hhead.signalAwait_eq, fun heof => ?_, fun heof => ?_, fun a hlegal => ?_⟩
  · have hsome : p.sockAwait.isSome = true := by rw [hhead.sockAwait_eq, heof]; rfl
    obtain ⟨request, hrequest⟩ := Option.isSome_iff_exists.mp hsome
    obtain ⟨rfl, hmin⟩ := hbuffered.request request hrequest
    rw [min_eq_left hsizes] at hmin
    refine ⟨_, hrequest, hmin, ?_, ?_⟩
    · rw [hlayout.readEnd_eq, hlayout.writePos_eq]
    · rw [hlayout.writePos_eq, hlayout.buf_eq, List.length_append, List.length_append,
        Nat.add_assoc]
  · obtain ⟨hwaits, hne⟩ := hhead.asks heof
    rw [hlayout.unread_eq, hhead.stdinAwait_eq]
    exact ⟨hwaits, (hhead.waits hwaits).1, hne⟩
  · obtain ⟨out, rest, erased, shown, p', hturn, _⟩ := hhead.turn hlegal
    exact ⟨_, p', hresult, hlegal, hturn⟩

theorem PrinterRun.goes_on_linesTurn :
    ∃ request, askingPrinter.sockAwait = some request ∧ 2 ≤ request.aioNbytes ∧
      askingPrinter.response.readEnd ≤ request.aioBuf ∧
      request.aioBuf + request.aioNbytes = askingPrinter.response.buf.length :=
  (PrinterRun.goes_on (by decide) (by decide) run_linesTurn rfl).2.1 rfl

/-! ## Pages -/

/-- The pages in front of the prompts, and the one that has been begun. -/
structure Pages where
  full : List (List Cell)
  begun : List Cell

def Pages.add (pages : Pages) : Shown → Pages
  | .cells cells => { pages with begun := pages.begun ++ cells }
  | .prompt => ⟨pages.full ++ [pages.begun], []⟩
  | .erased => pages

def pagesOf (shown : List Shown) : Pages := shown.foldl Pages.add ⟨[], []⟩

@[simp] theorem pagesOf_append (xs ys : List Shown) :
    pagesOf (xs ++ ys) = ys.foldl Pages.add (pagesOf xs) := List.foldl_append

theorem flatten_pagesOf (shown : List Shown) :
    (pagesOf shown).full.flatten ++ (pagesOf shown).begun = cellsOf shown := by
  induction shown using List.reverseRecOn with
  | nil => rfl
  | append_singleton shown last ih =>
      rw [pagesOf_append, cellsOf_append, ← ih]
      cases last <;> simp [Pages.add, cellsOf]

def PageFits (sizes : PrinterSizes) (page : List Cell) : Prop :=
  sizes.lineLimit ≤ lineFeeds page ∧ lineFeeds page ≤ sizes.lineLimit + 1

/-- What holds of the pages: one line of the begun one may not be counted. -/
structure Paged (sizes : PrinterSizes) (p : Printer) (pages : Pages) : Prop where
  fits : ∀ page ∈ pages.full, PageFits sizes page
  counted : p.result = none → p.shouldPaginate = true →
    p.lineCount ≤ lineFeeds pages.begun ∧ lineFeeds pages.begun ≤ p.lineCount + 1 ∧
      (p.waitingForUser = true → lineFeeds pages.begun = 0)
  begun_le : p.result ≠ none → p.shouldPaginate = true →
    lineFeeds pages.begun ≤ sizes.lineLimit + 1

theorem Paged.step {pages : Pages} (h : Paged sizes p pages) (hhead : AtHead sizes p cells)
    (hpaginate : p'.shouldPaginate = true → p.shouldPaginate = true) {out : List Cell}
    (hpaging : Paging sizes (p.waitingForUser = true) p out shown p') :
    Paged sizes p' (shown.foldl Pages.add pages) := by
  have hcounted := h.counted hhead.result_eq
  cases hpaging with
  | quiet hout hsame =>
      refine ⟨h.fits, fun hresult hpag => ?_, fun _ hpag => ?_⟩
      · obtain ⟨hge, hle, hwaits⟩ := hcounted (hpaginate hpag)
        obtain ⟨hcount, hwaits'⟩ := hsame hresult
        exact ⟨hcount ▸ hge, hcount ▸ hle, fun hw => hwaits (hwaits' hw)⟩
      · exact (hcounted (hpaginate hpag)).2.1.trans (Nat.succ_le_succ hhead.lineCount_lt.le)
  | part hfresh hresult hle hge hno =>
      refine ⟨h.fits, fun _ hpag => ?_, fun hne => absurd hresult hne⟩
      -- nothing has been printed since the prompt
      have hbegun := (hcounted (hpaginate hpag)).2.2 hfresh
      have hzero := (hhead.waits hfresh).2
      simp only [List.foldl_cons, List.foldl_nil, Pages.add, lineFeeds_append, hno]
      exact ⟨by omega, by omega, by simp⟩
  | page hpag hfeeds hcount =>
      obtain ⟨hge, hle, _⟩ := hcounted hpag
      refine ⟨fun page hpage => ?_, fun hresult _ => ?_, fun _ _ => Nat.zero_le _⟩
      · simp only [List.foldl_cons, List.foldl_nil, Pages.add, List.mem_append,
          List.mem_singleton] at hpage
        rcases hpage with hpage | rfl
        · exact h.fits page hpage
        · rw [PageFits, lineFeeds_append]
          exact ⟨by omega, by omega⟩
      · rw [hcount hresult]
        exact ⟨le_rfl, Nat.zero_le _, fun _ => rfl⟩
  | last hle hresult =>
      refine ⟨h.fits, fun hnone => absurd hnone hresult, fun _ hpag => ?_⟩
      have := (hcounted (hpaginate hpag)).2.1
      simp only [List.foldl_cons, List.foldl_nil, Pages.add, lineFeeds_append]
      omega
  | everything hall =>
      exact ⟨h.fits, fun _ hpag => by simp [hall] at hpag, fun _ hpag => by simp [hall] at hpag⟩

theorem exists_paged (hlimit : 0 < sizes.lineLimit)
    (hrun : PrinterRun sizes shouldPaginate hist p) (hwrites : NoWriteFailsIn hist) :
    (p.result = none → ∃ cells, AtHead sizes p cells) ∧ Paged sizes p (pagesOf (shownIn hist)) := by
  revert hwrites
  refine hrun.invariant (I := fun hist p => NoWriteFailsIn hist →
      (p.result = none → ∃ cells, AtHead sizes p cells) ∧
        Paged sizes p (pagesOf (shownIn hist))) (fun p hinit _ => ?_) fun hist p label p' h hstep hw
    => ?_
  · obtain ⟨hhead, _, hcount, hno⟩ := hinit.atHead hlimit
    exact ⟨fun _ => ⟨_, hhead⟩, by simp [shownIn, pagesOf], fun _ _ =>
      ⟨hcount.le, Nat.zero_le _, fun _ => rfl⟩, fun _ _ => Nat.zero_le _⟩
  · obtain ⟨hw, hwrite⟩ := noWriteFailsIn_snoc.mp hw
    obtain ⟨hhead, hpaged⟩ := h hw
    obtain ⟨cells, hhead⟩ := hhead hstep.1
    obtain ⟨out, rest, erased, shown', hshown, herased, _, hprints⟩ := hhead.step hstep
    refine ⟨fun hresult => ⟨rest, hprints.next hresult⟩, ?_⟩
    have hadd : shownIn (hist ++ [label]) = (shownIn hist ++ erased) ++ shown' := by
      rw [List.append_assoc, ← hshown]
      exact shownIn_snoc
    have hskip : pagesOf (shownIn hist ++ erased) = pagesOf (shownIn hist) := by
      rcases herased with rfl | rfl <;> simp [Pages.add]
    rw [hadd, pagesOf_append, hskip]
    exact hpaged.step hhead hprints.paginates (hprints.paging hwrite)

/-- Every page in front of a prompt has `LINE_LIMIT` lines or one more, and as long as the output
is paginated no more than that is shown behind the last prompt. -/
theorem PrinterRun.pages (hlimit : 0 < sizes.lineLimit)
    (hrun : PrinterRun sizes shouldPaginate hist p) (hwrites : NoWriteFailsIn hist) :
    (∀ page ∈ (pagesOf (shownIn hist)).full, PageFits sizes page) ∧
      (p.shouldPaginate = true →
        lineFeeds (pagesOf (shownIn hist)).begun ≤ sizes.lineLimit + 1) := by
  obtain ⟨hhead, hpaged⟩ := exists_paged hlimit hrun hwrites
  refine ⟨hpaged.fits, fun hpag => ?_⟩
  by_cases hresult : p.result = none
  · obtain ⟨cells, hhead⟩ := hhead hresult
    have := (hpaged.counted hresult hpag).2.1
    have := hhead.lineCount_lt
    omega
  · exact hpaged.begun_le hresult hpag

theorem PrinterRun.pages_pressedTurn :
    (∀ page ∈ (pagesOf (shownIn [linesTurn, pressedTurn])).full, PageFits ⟨8, 2, 1⟩ page) ∧
      (donePrinter.shouldPaginate = true →
        lineFeeds (pagesOf (shownIn [linesTurn, pressedTurn])).begun ≤ 2) :=
  PrinterRun.pages (by decide) run_pressedTurn noWriteFailsIn_pressedTurn

end HttpAio

end PosixThreads
