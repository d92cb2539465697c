import PosixThreads.SyncBubble.Program

/-!
# What is printed

The list is what its log says: a line is put behind the others, and sorting puts the lines in order.
The log has the lines of the input in it, as far as they have been read, with a listing for each
line that is empty.
-/

namespace PosixThreads

namespace SyncBubble

open Dlist (Represents Seg firstOr)

/-- The lines in the list, by what has been done with it. -/
def contents (log : List SbEvent) : List (List UInt8) :=
  log.foldl (fun lines event => match event with
    | .line bytes => lines ++ [bytes]
    | .listing _ => lines
    | .sorted => lines.mergeSort (· ≤ ·)) []

def typed (log : List SbEvent) : List (List UInt8) :=
  log.filterMap fun
    | .line bytes => some bytes
    | .listing _ => some []
    | .sorted => none

section Log

variable (log : List SbEvent)

@[simp] theorem contents_line (bytes : List UInt8) :
    contents (log ++ [.line bytes]) = contents log ++ [bytes] := by
  simp [contents]

@[simp] theorem contents_listing (lines : List (List UInt8)) :
    contents (log ++ [.listing lines]) = contents log := by
  simp [contents]

@[simp] theorem contents_sorted :
    contents (log ++ [.sorted]) = (contents log).mergeSort (· ≤ ·) := by
  simp [contents]

@[simp] theorem typed_line (bytes : List UInt8) :
    typed (log ++ [.line bytes]) = typed log ++ [bytes] := by
  simp [typed]

@[simp] theorem typed_listing (lines : List (List UInt8)) :
    typed (log ++ [.listing lines]) = typed log ++ [[]] := by
  simp [typed]

@[simp] theorem typed_sorted : typed (log ++ [.sorted]) = typed log := by simp [typed]

theorem mergeSort_eq {lines lines' : List (List UInt8)} (hperm : lines'.Perm lines)
    (hsorted : lines'.Pairwise (· ≤ ·)) : lines.mergeSort (· ≤ ·) = lines' := by
  have htrans : ∀ a b c : List UInt8, decide (a ≤ b) = true → decide (b ≤ c) = true →
      decide (a ≤ c) = true := by
    intro a b c hab hbc
    exact decide_eq_true (List.le_trans (of_decide_eq_true hab) (of_decide_eq_true hbc))
  have htotal : ∀ a b : List UInt8, (decide (a ≤ b) || decide (b ≤ a)) = true := by
    intro a b
    simpa using List.le_total a b
  have hmerge : (lines.mergeSort (· ≤ ·)).Pairwise (· ≤ ·) :=
    (List.pairwise_mergeSort htrans htotal lines).imp of_decide_eq_true
  exact List.Perm.eq_of_pairwise (fun a b _ _ => List.le_antisymm) hmerge hsorted
    ((List.mergeSort_perm lines _).trans hperm.symm)

end Log

/-! ## What a step does with the list -/

section Steps

variable {s : SbState} {xs : List (ℕ × StringT)}

theorem printFrom_eq {h : Heap (DlistNode StringT)} {prev : Option ℕ} (hseg : Seg h prev xs none)
    {fuel : ℕ} (hfuel : xs.length ≤ fuel) :
    printFrom h fuel (firstOr xs none) = some (xs.map fun x => x.2.bytes) := by
  induction xs generalizing prev fuel with
  | nil => cases fuel <;> rfl
  | cons x xs ih =>
      obtain ⟨hget, hseg⟩ := hseg
      obtain ⟨fuel, rfl⟩ := Nat.exists_eq_add_one.mpr (Nat.zero_lt_of_lt hfuel)
      have hnext := ih hseg (Nat.le_of_succ_le_succ hfuel)
      simp [printFrom, Dlist.get, Dlist.nextMut, hget, hnext]

theorem printList_eq (hrepr : Represents s.heap s.list xs) :
    printList s.heap s.list = some (xs.map fun x => x.2.bytes) := by
  rw [printList, hrepr.head_eq]
  exact printFrom_eq hrepr.seg hrepr.len_eq.ge

/-- What `process_line` does with a line, while the nodes of the list are `xs`. -/
inductive Processes (s : SbState) (xs : List (ℕ × StringT)) (line : StringT) :
    SbState → SbPlace → Prop
  | listing (hempty : line.bytes = []) :
      Processes s xs line
        { s with log := s.log ++ [.listing (xs.map fun x => x.2.bytes)] } (.unlocking false)
  | line {heap : Heap (DlistNode StringT)} {list : Dlist} {node : ℕ}
      (hrepr : Represents heap list (xs ++ [(node, line)])) :
      Processes s xs line
        { s with heap := heap, list := list, log := s.log ++ [.line line.bytes] } (.unlocking false)
  | fails : Processes s xs line s (.unlocking true)

theorem processLine_spec (hrepr : Represents s.heap s.list xs) {line : StringT}
    (hholds : line.Holds line.bytes) (ok : Bool) :
    ∃ s' p, s.processLine line ok = some (s', p) ∧ Processes s xs line s' p := by
  by_cases hlen : line.len = 0
  · have hempty : line.bytes = [] := List.length_eq_zero_iff.mp (hholds.len ▸ hlen)
    refine ⟨_, _, ?_, .listing hempty⟩
    rw [SbState.processLine, if_pos hlen, printList_eq hrepr]
    rfl
  · rcases hrepr.append_spec ok line with ⟨-, happend⟩ | ⟨-, heap, list, happend, hrepr', -⟩
    · exact ⟨_, _, by rw [SbState.processLine, if_neg hlen, happend]; rfl, .fails⟩
    · exact ⟨_, _, by rw [SbState.processLine, if_neg hlen, happend]; rfl, .line hrepr'⟩

theorem sortStep_spec (hrepr : Represents s.heap s.list xs)
    (hholds : ∀ x ∈ xs, x.2.Holds x.2.bytes) :
    ∃ heap list ys, s.sortStep = some
        ({ s with heap := heap, list := list, log := s.log ++ [.sorted] }, .childTesting) ∧
      Represents heap list ys ∧ ys.Perm xs ∧ ((∀ x ∈ xs, x.2.Plain) → ys.Pairwise InBytes) := by
  obtain ⟨heap, list, ys, hruns, hrepr', hperm, hsorted⟩ := bubbleSort_spec hrepr hholds
  refine ⟨heap, list, ys, ?_, hrepr', hperm, hsorted⟩
  rw [SbState.sortStep, hruns _ (Nat.lt_succ_self _), Option.map_some]

inductive Reads (s : SbState) : SbState → SbPlace → Prop
  | line {line : StringT} {rest : List UInt8} (hholds : line.Holds line.bytes)
      (hlines : fileLines s.file.input = line.bytes :: fileLines rest) :
      Reads s { s with file := { s.file with input := rest } } (.locking line)
  | ended (hinput : s.file.input = []) :
      Reads s { s with interrupted := true, eof := true } .testing
  | fails (file : File) : Reads s { s with file := file } .finishing

theorem readStep_spec (s : SbState) (allocs : Alloc) (ok : Bool) :
    ∃ s' p, s.readStep allocs ok = some (s', p) ∧ Reads s s' p := by
  rcases StringT.new_spec ok with ⟨hnew, _⟩ | ⟨line, hnew, hholds⟩
  · exact ⟨_, _, by rw [SbState.readStep, hnew], .fails s.file⟩
  · obtain ⟨code, line', file, hread, hreads⟩ := readLine_spec allocs s.file hholds
    cases hreads with
    | line hholds hlines =>
        refine ⟨_, _, by simp only [SbState.readStep, hnew, hread]; rfl, .line ?_ ?_⟩
        · rwa [hholds.bytes_eq]
        · rwa [hholds.bytes_eq]
    | ended hinput =>
        exact ⟨_, _, by simp only [SbState.readStep, hnew, hread]; rfl, .ended hinput⟩
    | fails hcode =>
        exact ⟨_, _, by simp only [SbState.readStep, hnew, hread, Option.map_some], .fails file⟩

end Steps

/-! ## Every run -/

def SbPlace.Of : SbThread → SbPlace → Prop
  | .main, .childLocking | .main, .childTesting | .main, .childWaiting | .main, .childSorting
  | .main, .childUnlocking => False
  | .main, _ => True
  | .child, .childLocking | .child, .childTesting | .child, .childWaiting | .child, .childSorting
  | .child, .childUnlocking | .child, .exited => True
  | .child, _ => False

def Remains (s : SbState) (rest : List (List UInt8)) : SbPlace → Prop
  | .testing => s.interrupted = false → rest = fileLines s.file.input
  | .reading | .unlocking false => rest = fileLines s.file.input
  | .locking line | .holding line =>
      line.Holds line.bytes ∧ rest = line.bytes :: fileLines s.file.input
  | _ => True

/-- What holds of the list, of which `xs` are the nodes. The log says what is in it if the lines of
the input can be sorted. -/
structure SbListed (input : List UInt8) (s : SbState) (xs : List (ℕ × StringT)) : Prop where
  represents : Represents s.heap s.list xs
  holds : ∀ x ∈ xs, x.2.Holds x.2.bytes
  mem : ∀ x ∈ xs, x.2.bytes ∈ fileLines input
  lines : 0 ∉ input → xs.map (fun x => x.2.bytes) = contents s.log
  listings : 0 ∉ input →
    ∀ pre lines post, s.log = pre ++ .listing lines :: post → lines = contents pre

/-- What holds of the lines that have been read, and of those that are still to come. -/
structure SbTyped (input : List UInt8) (s : SbState) (p : SbPlace) (rest : List (List UInt8)) :
    Prop where
  lines : fileLines input = typed s.log ++ rest
  remains : Remains s rest p
  ended : s.eof = true → rest = []

structure SbInv (input : List UInt8) (s : SbConfig) : Prop where
  places : ∀ t, (s.pc t).Of t
  listed : ∃ xs, SbListed input s.shared xs
  typed : ∃ rest, SbTyped input s.shared (s.pc .main) rest

section Inv

variable {input : List UInt8} {s s' : SbState} {p p' : SbPlace} {xs : List (ℕ × StringT)}
  {rest : List (List UInt8)} {allocs : Alloc} {ok timedOut : Bool}

theorem listings_concat {log : List SbEvent} {event : SbEvent}
    (h : ∀ pre lines post, log = pre ++ .listing lines :: post → lines = contents pre)
    (hevent : ∀ lines, event = .listing lines → lines = contents log)
    (pre : List SbEvent) (lines : List (List UInt8)) (post : List SbEvent)
    (heq : log ++ [event] = pre ++ .listing lines :: post) : lines = contents pre := by
  rcases List.eq_nil_or_concat post with rfl | ⟨post, last, rfl⟩
  · obtain ⟨hpre, hlast⟩ := List.append_inj' heq rfl
    exact hpre ▸ hevent lines (List.cons.inj hlast).1
  · rw [List.concat_eq_append, ← List.cons_append, ← List.append_assoc] at heq
    exact h pre lines post (List.append_inj' heq rfl).1

namespace SbListed

theorem plain (h : SbListed input s xs) (hnull : 0 ∉ input) : ∀ x ∈ xs, x.2.Plain :=
  fun x hx => ⟨h.holds x hx, fun hzero => hnull (mem_of_mem_fileLines (h.mem x hx) hzero)⟩

theorem processes (h : SbListed input s xs) {line : StringT} (hline : line.Holds line.bytes)
    (hmem : line.bytes ∈ fileLines input) (hprocess : Processes s xs line s' p') :
    ∃ ys, SbListed input s' ys := by
  cases hprocess with
  | listing =>
      refine ⟨xs, h.represents, h.holds, h.mem,
        fun hnull => by rw [contents_listing, h.lines hnull], fun hnull => ?_⟩
      refine listings_concat (h.listings hnull) fun lines heq => ?_
      rw [← SbEvent.listing.inj heq, h.lines hnull]
  | line hrepr =>
      refine ⟨_, hrepr, List.forall_mem_append.mpr ⟨h.holds, List.forall_mem_singleton.mpr hline⟩,
        List.forall_mem_append.mpr ⟨h.mem, List.forall_mem_singleton.mpr hmem⟩,
        fun hnull => by simp [h.lines hnull], fun hnull => ?_⟩
      exact listings_concat (h.listings hnull) fun lines heq => by cases heq
  | fails => exact ⟨xs, h⟩

theorem sorts (h : SbListed input s xs) (hsort : s.sortStep = some (s', p')) :
    (∃ ys, SbListed input s' ys) ∧ p' = .childTesting ∧
      s' = { s with heap := s'.heap, list := s'.list, log := s.log ++ [.sorted] } := by
  obtain ⟨heap, list, ys, hsort', hrepr, hperm, hsorted⟩ := sortStep_spec h.represents h.holds
  obtain ⟨rfl, rfl⟩ := Prod.mk.inj (Option.some.inj (hsort'.symm.trans hsort))
  refine ⟨⟨ys, hrepr, fun y hy => h.holds y (hperm.mem_iff.mp hy),
    fun y hy => h.mem y (hperm.mem_iff.mp hy), fun hnull => ?_, fun hnull => ?_⟩, rfl, rfl⟩
  · have hlines := hperm.map fun x => x.2.bytes
    rw [h.lines hnull] at hlines
    rw [contents_sorted, mergeSort_eq hlines (List.pairwise_map.mpr (hsorted (h.plain hnull)))]
  · exact listings_concat (h.listings hnull) fun lines heq => by cases heq

end SbListed

theorem Remains.keep (h : Remains s rest p) (hfile : s'.file = s.file)
    (hinterrupted : s'.interrupted = false → s.interrupted = false) : Remains s' rest p := by
  cases p with
  | testing =>
      intro hs'
      rw [hfile]
      exact h (hinterrupted hs')
  | unlocking failed =>
      cases failed with
      | true => trivial
      | false =>
          simp only [Remains, hfile]
          exact h
  | reading | locking | holding =>
      simp only [Remains, hfile]
      exact h
  | _ => trivial

namespace SbTyped

theorem mem (h : SbTyped input s p rest) {line : StringT}
    (hremains : line.Holds line.bytes ∧ rest = line.bytes :: fileLines s.file.input) :
    line.bytes ∈ fileLines input := by
  rw [h.lines, hremains.2]
  simp

theorem reads (h : SbTyped input s .reading rest) (hreads : Reads s s' p') :
    SbTyped input s' p' rest := by
  have hrest : rest = fileLines s.file.input := h.remains
  cases hreads with
  | line hholds hlines => exact ⟨h.lines, ⟨hholds, hrest.trans hlines⟩, h.ended⟩
  | ended hinput =>
      refine ⟨h.lines, fun hinterrupted => ?_, fun _ => by rw [hrest, hinput]; rfl⟩
      exact absurd hinterrupted (by simp)
  | fails => exact ⟨h.lines, trivial, h.ended⟩

theorem processes {line : StringT} (h : SbTyped input s (.holding line) rest)
    (hprocess : Processes s xs line s' p') : ∃ rest', SbTyped input s' p' rest' := by
  obtain ⟨-, hrest⟩ := h.remains
  have hended : s.eof = true → False := fun heof => by
    rw [h.ended heof] at hrest
    cases hrest
  cases hprocess with
  | listing hempty =>
      refine ⟨fileLines s.file.input, ?_, rfl, fun heof => (hended heof).elim⟩
      rw [h.lines, hrest, hempty, typed_listing, List.append_assoc, List.singleton_append]
  | line =>
      refine ⟨fileLines s.file.input, ?_, rfl, fun heof => (hended heof).elim⟩
      rw [h.lines, hrest, typed_line, List.append_assoc, List.singleton_append]
  | fails => exact ⟨rest, h.lines, trivial, h.ended⟩

end SbTyped

theorem sbGo_main (hp : p.Of .main) (hlisted : SbListed input s xs)
    (htyped : SbTyped input s p rest) (h : sbGo .main s allocs ok timedOut p = some (s', p')) :
    p'.Of .main ∧ (∃ ys, SbListed input s' ys) ∧ ∃ rest', SbTyped input s' p' rest' := by
  have hsame : ∀ {mtx interrupted}, ∃ ys, SbListed input { s with
      mtx := mtx
      interrupted := interrupted } ys :=
    ⟨xs, hlisted.represents, hlisted.holds, hlisted.mem, hlisted.lines, hlisted.listings⟩
  cases p with
  | testing =>
      cases h
      cases hinterrupted : s.interrupted with
      | true => exact ⟨trivial, ⟨xs, hlisted⟩, rest, htyped.lines, trivial, htyped.ended⟩
      | false =>
          exact ⟨trivial, ⟨xs, hlisted⟩, rest, htyped.lines, htyped.remains hinterrupted,
            htyped.ended⟩
  | reading =>
      obtain ⟨s₁, p₁, hread, hreads⟩ := readStep_spec s allocs ok
      obtain ⟨rfl, rfl⟩ := Prod.mk.inj (Option.some.inj (hread.symm.trans h))
      refine ⟨?_, ?_, rest, htyped.reads hreads⟩
      · cases hreads <;> trivial
      · cases hreads <;>
          exact ⟨xs, hlisted.represents, hlisted.holds, hlisted.mem, hlisted.lines,
            hlisted.listings⟩
  | locking line =>
      obtain ⟨s₁, hlock, heq⟩ := Option.map_eq_some_iff.mp h
      obtain ⟨hfree, rfl⟩ := lock_eq_some.mp hlock
      cases heq
      exact ⟨trivial, hsame, rest, htyped.lines, htyped.remains, htyped.ended⟩
  | holding line =>
      obtain ⟨s₁, p₁, hprocess, hprocesses⟩ :=
        processLine_spec hlisted.represents htyped.remains.1 ok
      obtain ⟨rfl, rfl⟩ := Prod.mk.inj (Option.some.inj (hprocess.symm.trans h))
      refine ⟨?_, hlisted.processes htyped.remains.1 (htyped.mem htyped.remains) hprocesses,
        htyped.processes hprocesses⟩
      cases hprocesses <;> trivial
  | unlocking failed =>
      cases h
      cases failed with
      | true => exact ⟨trivial, hsame, rest, htyped.lines, trivial, htyped.ended⟩
      | false => exact ⟨trivial, hsame, rest, htyped.lines, fun _ => htyped.remains, htyped.ended⟩
  | finishing =>
      cases h
      exact ⟨trivial, hsame, rest, htyped.lines, trivial, htyped.ended⟩
  | signalling =>
      cases h
      exact ⟨trivial, hsame, rest, htyped.lines, trivial, htyped.ended⟩
  | joining =>
      rw [sbGo] at h
      split at h
      · cases h
        exact ⟨trivial, hsame, rest, htyped.lines, trivial, htyped.ended⟩
      · cases h
  | childLocking | childTesting | childWaiting | childSorting | childUnlocking => exact hp.elim
  | exited => cases h

/-- A step of the child, which neither reads nor puts lines into the list. -/
theorem sbGo_child (hp : p.Of .child) (hlisted : SbListed input s xs)
    (h : sbGo .child s allocs ok timedOut p = some (s', p')) :
    p'.Of .child ∧ (∃ ys, SbListed input s' ys) ∧ typed s'.log = typed s.log ∧ s'.file = s.file ∧
      s'.interrupted = s.interrupted ∧ s'.eof = s.eof := by
  have hsame : ∀ {mtx joinable}, ∃ ys, SbListed input { s with
      mtx := mtx
      joinable := joinable } ys :=
    ⟨xs, hlisted.represents, hlisted.holds, hlisted.mem, hlisted.lines, hlisted.listings⟩
  cases p with
  | childLocking =>
      obtain ⟨s₁, hlock, heq⟩ := Option.map_eq_some_iff.mp h
      obtain ⟨hfree, rfl⟩ := lock_eq_some.mp hlock
      cases heq
      exact ⟨trivial, hsame, rfl, rfl, rfl, rfl⟩
  | childTesting =>
      rw [sbGo] at h
      split at h
      · cases h
        exact ⟨trivial, hsame, rfl, rfl, rfl, rfl⟩
      · cases h
        exact ⟨trivial, hsame, rfl, rfl, rfl, rfl⟩
  | childWaiting =>
      obtain ⟨s₁, hlock, heq⟩ := Option.map_eq_some_iff.mp h
      obtain ⟨hfree, rfl⟩ := lock_eq_some.mp hlock
      cases heq
      cases timedOut <;> exact ⟨trivial, hsame, rfl, rfl, rfl, rfl⟩
  | childSorting =>
      obtain ⟨hys, rfl, heq⟩ := hlisted.sorts h
      rw [heq] at hys ⊢
      exact ⟨trivial, hys, typed_sorted _, rfl, rfl, rfl⟩
  | childUnlocking =>
      cases h
      exact ⟨trivial, hsame, rfl, rfl, rfl, rfl⟩
  | testing | reading | locking | holding | unlocking | finishing | signalling | joining =>
      exact hp.elim
  | exited => cases h

theorem handleSigint_keeps {interrupts : Option ℕ} (hp : p.Of .main)
    (hlisted : SbListed input s xs) (htyped : SbTyped input s p rest)
    (h : handleSigint s interrupts p = some (s', p')) :
    p'.Of .main ∧ SbListed input s' xs ∧ SbTyped input s' p' rest := by
  cases interrupts with
  | none =>
      rw [handleSigint] at h
      split at h
      · cases h
      · cases h
        exact ⟨hp,
          ⟨hlisted.represents, hlisted.holds, hlisted.mem, hlisted.lines, hlisted.listings⟩,
          htyped.lines, htyped.remains.keep rfl fun hs => absurd hs (by simp), htyped.ended⟩
  | some count =>
      cases p with
      | reading =>
          rw [handleSigint] at h
          split at h
          · cases h
            exact ⟨trivial,
              ⟨hlisted.represents, hlisted.holds, hlisted.mem, hlisted.lines, hlisted.listings⟩,
              htyped.lines, fun hinterrupted => absurd hinterrupted (by simp), htyped.ended⟩
          · cases h
      | _ => cases h

end Inv

section Run

variable {input : List UInt8} {hist : List (SbThread × SbLabel)} {s : SbConfig}

theorem SbInv.start (h : SbStart input s) : SbInv input s := by
  obtain ⟨heap, failing, hshared, hpc⟩ := h
  refine ⟨fun t => ?_, ⟨[], ?_⟩, ⟨fileLines input, ?_⟩⟩
  · rw [hpc]
    cases t <;> trivial
  · rw [hshared]
    exact ⟨⟨trivial, rfl, rfl, rfl, .nil⟩, by simp, by simp, fun _ => rfl, by simp⟩
  · rw [hshared, hpc]
    exact ⟨rfl, fun _ => rfl, by simp⟩

theorem SbInv.step {label : SbThread × SbLabel} {s' : SbConfig} (h : SbInv input s)
    (hstep : Threads.move sbStep s label = some s') : SbInv input s' := by
  obtain ⟨sh, p, hmove, rfl⟩ := Threads.move_eq_some.mp hstep
  obtain ⟨t, label⟩ := label
  obtain ⟨xs, hlisted⟩ := h.listed
  obtain ⟨rest, htyped⟩ := h.typed
  have hplaces : p.Of t → ∀ u, (Function.update s.pc t p u).Of u := by
    intro hp u
    by_cases hu : u = t
    · rwa [hu, Function.update_self]
    · rw [Function.update_of_ne hu]
      exact h.places u
  cases t with
  | main =>
      cases label with
      | go =>
          obtain ⟨hp, hys, hrest⟩ := sbGo_main (h.places .main) hlisted htyped hmove
          refine ⟨hplaces hp, hys, ?_⟩
          simp only [Function.update_self]
          exact hrest
      | sigint =>
          obtain ⟨hp, hys, hrest⟩ := handleSigint_keeps (h.places .main) hlisted htyped hmove
          refine ⟨hplaces hp, ⟨xs, hys⟩, rest, ?_⟩
          simp only [Function.update_self]
          exact hrest
  | child =>
      cases label with
      | go =>
          obtain ⟨hp, hys, htexts, hfile, hinterrupted, heof⟩ :=
            sbGo_child (h.places .child) hlisted hmove
          have hmain : Function.update s.pc .child p .main = s.pc .main :=
            Function.update_of_ne (by decide) _ _
          refine ⟨hplaces hp, hys, rest, ?_⟩
          simp only [hmain]
          exact ⟨by rw [htexts, htyped.lines], htyped.remains.keep hfile (hinterrupted ▸ id),
            heof ▸ htyped.ended⟩
      | sigint => cases hmove

theorem sbInv_of_run (hrun : SbRun input hist s) : SbInv input s :=
  hrun.invariant (I := fun _ s => SbInv input s) (fun _ => .start)
    fun _ _ _ _ h hstep => h.step hstep

/-- Where no byte of the input is null, the list has the nodes that its log says, and so has every
listing that has been printed. The lines that have been typed, with a listing for each empty one,
are the first lines of the input, and all of them if the input has ended. -/
theorem sbRun_lists (hnull : 0 ∉ input) (hrun : SbRun input hist s) :
    (∃ xs, Represents s.shared.heap s.shared.list xs ∧
      xs.map (fun x => x.2.bytes) = contents s.shared.log) ∧
    (∀ pre lines post, s.shared.log = pre ++ .listing lines :: post → lines = contents pre) ∧
    typed s.shared.log <+: fileLines input ∧
    (s.shared.eof = true → typed s.shared.log = fileLines input) := by
  have hinv := sbInv_of_run hrun
  obtain ⟨xs, hlisted⟩ := hinv.listed
  obtain ⟨rest, htyped⟩ := hinv.typed
  refine ⟨⟨xs, hlisted.represents, hlisted.lines hnull⟩, hlisted.listings hnull,
    ⟨rest, htyped.lines.symm⟩, fun heof => ?_⟩
  rw [htyped.lines, htyped.ended heof, List.append_nil]

theorem sbStart_empty (input : List UInt8) : SbStart input
    ⟨⟨⟨[]⟩, .new, ⟨input, false⟩, none, false, false, false, []⟩,
      fun | .main => .testing | .child => .childLocking⟩ :=
  ⟨⟨[]⟩, false, rfl, rfl⟩

/-- The lines `b` and `a` are put in, the child sorts them, and an empty line prints them. -/
def twoLines : List (SbThread × SbLabel) :=
  let go (t : SbThread) (steps : ℕ) :=
    List.replicate steps (t, SbLabel.go (fun _ => true) true true)
  go .child 2 ++ go .main 10 ++ go .child 3 ++ go .main 7

theorem sbRun_lists_twoLines : ∃ s, SbRun [98, 10, 97, 10, 10] twoLines s ∧
    s.shared.log = [.line [98], .line [97], .sorted, .listing [[97], [98]]] ∧
    (∃ xs, Represents s.shared.heap s.shared.list xs ∧
      xs.map (fun x => x.2.bytes) = contents s.shared.log) ∧
    (∀ pre lines post, s.shared.log = pre ++ .listing lines :: post → lines = contents pre) ∧
    typed s.shared.log <+: fileLines [98, 10, 97, 10, 10] ∧
    (s.shared.eof = true → typed s.shared.log = fileLines [98, 10, 97, 10, 10]) := by
  obtain ⟨s, hrun, hlog⟩ := Lts.exists_run (Threads.move sbStep) twoLines
    (fun s => s.shared.log = [.line [98], .line [97], .sorted, .listing [[97], [98]]])
    (sbStart_empty [98, 10, 97, 10, 10]) (by decide +kernel)
  exact ⟨s, hrun, hlog, sbRun_lists (by decide) hrun⟩

end Run

end SyncBubble

end PosixThreads
