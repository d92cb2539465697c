import PosixThreads.Library.Locks
import PosixThreads.SyncBubble.Listings

/-!
# How the program ends

The main thread makes a bounded number of steps for each line of the input, and the child a few
more ones once the program has been interrupted. Not both of them are blocked before the end.
-/

namespace PosixThreads

namespace SyncBubble

def SbPlace.Holds : SbPlace → Prop
  | .holding _ | .unlocking _ | .childTesting | .childSorting | .childUnlocking => True
  | _ => False

def mainLeft (s : SbState) : SbPlace → ℕ
  | .testing => if s.interrupted then 4 else 5 * (fileLines s.file.input).length + 6
  | .reading => 5 * (fileLines s.file.input).length + 5
  | .locking _ => 5 * (fileLines s.file.input).length + 9
  | .holding _ => 5 * (fileLines s.file.input).length + 8
  | .unlocking _ => 5 * (fileLines s.file.input).length + 7
  | .finishing => 3
  | .signalling => 2
  | .joining => 1
  | _ => 0

/-- The steps that the child still makes at most when the program has been interrupted. -/
def childLeft : SbPlace → ℕ
  | .childWaiting => 4
  | .childLocking | .childSorting => 3
  | .childTesting => 2
  | .childUnlocking => 1
  | _ => 0

def LockStep (t : SbThread) (s s' : SbState) (p p' : SbPlace) : Prop :=
  s'.mtx = s.mtx ∧ (p'.Holds ↔ p.Holds) ∨ (s.mtx = none ∧ s'.mtx = some t ∧ p'.Holds) ∨
    p.Holds ∧ s'.mtx = none ∧ ¬p'.Holds

section Steps

variable {input : List UInt8} {s s' : SbState} {p p' : SbPlace} {xs : List (ℕ × StringT)}
  {rest : List (List UInt8)} {allocs : Alloc} {ok timedOut : Bool}

/-- What a step of the main thread does with the mutex, and that it brings its end nearer. -/
theorem sbGo_main_left (hp : p.Of .main) (hlisted : SbListed input s xs)
    (htyped : SbTyped input s p rest) (h : sbGo .main s allocs ok timedOut p = some (s', p')) :
    LockStep .main s s' p p' ∧ mainLeft s' p' < mainLeft s p ∧ s'.joinable = s.joinable ∧
      (s.interrupted = true → s'.interrupted = true) := by
  cases p with
  | testing =>
      cases h
      refine ⟨.inl ⟨rfl, ?_⟩, ?_, rfl, id⟩
      · split <;> simp [SbPlace.Holds]
      · cases hinterrupted : s.interrupted <;> simp [mainLeft, hinterrupted]
  | reading =>
      obtain ⟨s₁, p₁, hread, hreads⟩ := readStep_spec s allocs ok
      obtain ⟨rfl, rfl⟩ := Prod.mk.inj (Option.some.inj (hread.symm.trans h))
      cases hreads with
      | line hholds hlines =>
          refine ⟨.inl ⟨rfl, Iff.rfl⟩, ?_, rfl, id⟩
          simp only [mainLeft, hlines, List.length_cons]
          omega
      | ended hinput =>
          refine ⟨.inl ⟨rfl, Iff.rfl⟩, ?_, rfl, fun _ => rfl⟩
          simp [mainLeft, hinput]
      | fails =>
          refine ⟨.inl ⟨rfl, Iff.rfl⟩, ?_, rfl, id⟩
          simp only [mainLeft]
          omega
  | locking line =>
      obtain ⟨s₁, hlock, heq⟩ := Option.map_eq_some_iff.mp h
      obtain ⟨hfree, rfl⟩ := lock_eq_some.mp hlock
      cases heq
      exact ⟨.inr (.inl ⟨hfree, rfl, trivial⟩), Nat.lt_succ_self _, rfl, id⟩
  | holding line =>
      obtain ⟨s₁, p₁, hprocess, hprocesses⟩ :=
        processLine_spec hlisted.represents htyped.remains.1 ok
      obtain ⟨rfl, rfl⟩ := Prod.mk.inj (Option.some.inj (hprocess.symm.trans h))
      cases hprocesses with
      | listing | line | fails => exact ⟨.inl ⟨rfl, Iff.rfl⟩, Nat.lt_succ_self _, rfl, id⟩
  | unlocking failed =>
      cases h
      refine ⟨.inr (.inr ⟨trivial, rfl, ?_⟩), ?_, rfl, id⟩
      · cases failed <;> exact id
      · cases failed
        · simp only [mainLeft, Bool.false_eq_true, if_false]
          split <;> omega
        · simp only [mainLeft, if_true]
          omega
  | finishing =>
      cases h
      exact ⟨.inl ⟨rfl, Iff.rfl⟩, Nat.lt_succ_self _, rfl, fun _ => rfl⟩
  | signalling =>
      cases h
      exact ⟨.inl ⟨rfl, Iff.rfl⟩, Nat.lt_succ_self _, rfl, id⟩
  | joining =>
      rw [sbGo] at h
      split at h
      · cases h
        exact ⟨.inl ⟨rfl, Iff.rfl⟩, Nat.lt_succ_self _, rfl, id⟩
      · cases h
  | childLocking | childTesting | childWaiting | childSorting | childUnlocking => exact hp.elim
  | exited => cases h

theorem sbGo_child_left (hp : p.Of .child) (hlisted : SbListed input s xs)
    (h : sbGo .child s allocs ok timedOut p = some (s', p')) :
    LockStep .child s s' p p' ∧ (s.interrupted = true → childLeft p' < childLeft p) ∧
      ((s.joinable = true ↔ p = .exited) → (s'.joinable = true ↔ p' = .exited)) := by
  cases p with
  | childLocking =>
      obtain ⟨s₁, hlock, heq⟩ := Option.map_eq_some_iff.mp h
      obtain ⟨hfree, rfl⟩ := lock_eq_some.mp hlock
      cases heq
      exact ⟨.inr (.inl ⟨hfree, rfl, trivial⟩), fun _ => Nat.lt_succ_self _, by simp⟩
  | childTesting =>
      rw [sbGo] at h
      split at h
      · cases h
        exact ⟨.inl ⟨rfl, Iff.rfl⟩, fun _ => Nat.lt_succ_self _, by simp⟩
      · rename_i hinterrupted
        cases h
        exact ⟨.inr (.inr ⟨trivial, rfl, id⟩), fun hs => absurd hs hinterrupted, by simp⟩
  | childWaiting =>
      obtain ⟨s₁, hlock, heq⟩ := Option.map_eq_some_iff.mp h
      obtain ⟨hfree, rfl⟩ := lock_eq_some.mp hlock
      cases heq
      cases timedOut <;>
        exact ⟨.inr (.inl ⟨hfree, rfl, trivial⟩), fun _ => by simp [childLeft], by simp⟩
  | childSorting =>
      obtain ⟨-, rfl, heq⟩ := hlisted.sorts h
      rw [heq]
      exact ⟨.inl ⟨rfl, Iff.rfl⟩, fun _ => Nat.lt_succ_self _, by simp⟩
  | childUnlocking =>
      cases h
      exact ⟨.inr (.inr ⟨trivial, rfl, id⟩), fun _ => Nat.lt_succ_self _, by simp⟩
  | testing | reading | locking | holding | unlocking | finishing | signalling | joining =>
      exact hp.elim
  | exited => cases h

theorem mainLeft_congr (hfile : s'.file = s.file) (hinterrupted : s'.interrupted = s.interrupted)
    (p : SbPlace) : mainLeft s' p = mainLeft s p := by
  cases p <;> simp only [mainLeft, hfile, hinterrupted]

theorem handleSigint_left {interrupts : Option ℕ}
    (h : handleSigint s interrupts p = some (s', p')) :
    LockStep .main s s' p p' ∧ mainLeft s' p' ≤ mainLeft s p ∧ s'.joinable = s.joinable ∧
      s'.interrupted = true := by
  cases interrupts with
  | none =>
      rw [handleSigint] at h
      split at h
      · cases h
      · cases h
        refine ⟨.inl ⟨rfl, Iff.rfl⟩, ?_, rfl, rfl⟩
        cases p with
        | testing =>
            simp only [mainLeft, if_true]
            split <;> omega
        | _ => exact Nat.le_refl _
  | some count =>
      cases p with
      | reading =>
          rw [handleSigint] at h
          split at h
          · cases h
            refine ⟨.inl ⟨rfl, Iff.rfl⟩, ?_, rfl, rfl⟩
            simp only [mainLeft, if_true]
            omega
          · cases h
      | _ => cases h

/-- A thread is blocked by the mutex, or the main thread by the child, and else it can go on. -/
theorem sbGo_isSome {t : SbThread} (hp : p.Of t) (hlisted : SbListed input s xs)
    (hholds : ∀ line, p = .holding line → line.Holds line.bytes) (hmtx : s.mtx = none ∨ p.Holds)
    (hjoin : p = .joining → s.joinable = true) (hne : p ≠ .exited) (allocs : Alloc)
    (ok timedOut : Bool) : ∃ r, sbGo t s allocs ok timedOut p = some r := by
  have hlock : ¬p.Holds → s.lock t = some { s with mtx := some t } := fun hnot =>
    lock_eq_some.mpr ⟨hmtx.resolve_right hnot, rfl⟩
  cases p with
  | reading =>
      obtain ⟨s', p', hread, -⟩ := readStep_spec s allocs ok
      exact ⟨_, hread⟩
  | locking | childLocking | childWaiting => exact ⟨_, by rw [sbGo, hlock id]; rfl⟩
  | holding line =>
      obtain ⟨s', p', hprocess, -⟩ := processLine_spec hlisted.represents (hholds line rfl) ok
      exact ⟨_, hprocess⟩
  | joining => exact ⟨_, if_pos (hjoin rfl)⟩
  | childTesting =>
      rw [sbGo]
      split <;> exact ⟨_, rfl⟩
  | childSorting =>
      obtain ⟨heap, list, ys, hsort, -⟩ := sortStep_spec hlisted.represents hlisted.holds
      exact ⟨_, hsort⟩
  | testing | unlocking | finishing | signalling | childUnlocking => exact ⟨_, rfl⟩
  | exited => exact absurd rfl hne

end Steps

/-- What holds of the mutex, and of the end of the child. -/
structure SbLocked (s : SbConfig) : Prop where
  mutex : ∀ t, s.shared.mtx = some t ↔ (s.pc t).Holds
  joinable : s.shared.joinable = true ↔ s.pc .child = .exited

def SbLabel.goes : SbLabel → Bool
  | .go _ _ _ => true
  | .sigint _ => false

/-- The steps of the main thread, without those of the handler of SIGINT. -/
def mainSteps (hist : List (SbThread × SbLabel)) : ℕ :=
  hist.countP fun label => label.1 = .main && label.2.goes

def childSteps (hist : List (SbThread × SbLabel)) : ℕ := hist.countP fun label => label.1 = .child

section Run

variable {input : List UInt8} {hist : List (SbThread × SbLabel)} {s s' : SbConfig}
  {label : SbThread × SbLabel}

theorem SbLocked.start (h : SbStart input s) : SbLocked s := by
  obtain ⟨heap, failing, hshared, hpc⟩ := h
  refine ⟨fun t => ?_, by simp [hshared, hpc]⟩
  rw [hshared, hpc]
  cases t <;> simp [SbPlace.Holds]

structure SbAdvances (s : SbConfig) (label : SbThread × SbLabel) (s' : SbConfig) : Prop where
  locked : SbLocked s'
  main : mainSteps [label] + mainLeft s'.shared (s'.pc .main) ≤ mainLeft s.shared (s.pc .main)
  interrupted : s.shared.interrupted = true → s'.shared.interrupted = true
  child : s.shared.interrupted = true →
    childSteps [label] + childLeft (s'.pc .child) ≤ childLeft (s.pc .child)

theorem SbInv.advances (h : SbInv input s) (hlocked : SbLocked s)
    (hstep : Threads.move sbStep s label = some s') : SbAdvances s label s' := by
  obtain ⟨sh, p, hmove, rfl⟩ := Threads.move_eq_some.mp hstep
  obtain ⟨xs, hlisted⟩ := h.listed
  obtain ⟨rest, htyped⟩ := h.typed
  have hmutex : LockStep label.1 s.shared sh (s.pc label.1) p →
      ∀ u, sh.mtx = some u ↔ (Function.update s.pc label.1 p u).Holds := by
    intro hlock u
    have hupdate := Threads.update_comp (fun _ => SbPlace.Holds) s.pc label.1 p
    have := Locks.mutex_update hlocked.mutex hlock u
    rwa [← hupdate] at this
  obtain ⟨t, label⟩ := label
  cases t with
  | main =>
      have hchild : Function.update s.pc .main p .child = s.pc .child :=
        Function.update_of_ne (by decide) _ _
      cases label with
      | go =>
          obtain ⟨hlock, hleft, hjoinable, hinterrupted⟩ :=
            sbGo_main_left (h.places .main) hlisted htyped hmove
          refine ⟨⟨hmutex hlock, ?_⟩, ?_, hinterrupted, fun _ => ?_⟩
          · simp only [hchild, hjoinable, hlocked.joinable]
          · simp only [Function.update_self]
            exact (Nat.one_add _).trans_le hleft
          · simp [childSteps]
      | sigint =>
          obtain ⟨hlock, hleft, hjoinable, hinterrupted⟩ := handleSigint_left hmove
          refine ⟨⟨hmutex hlock, ?_⟩, ?_, fun _ => hinterrupted, fun _ => ?_⟩
          · simp only [hchild, hjoinable, hlocked.joinable]
          · simpa [mainSteps, SbLabel.goes] using hleft
          · simp [childSteps]
  | child =>
      have hmain : Function.update s.pc .child p .main = s.pc .main :=
        Function.update_of_ne (by decide) _ _
      cases label with
      | go =>
          obtain ⟨-, -, -, hfile, hinterrupted, -⟩ := sbGo_child (h.places .child) hlisted hmove
          obtain ⟨hlock, hleft, hjoinable⟩ := sbGo_child_left (h.places .child) hlisted hmove
          refine ⟨⟨hmutex hlock, ?_⟩, ?_, fun hs => hinterrupted.trans hs, fun hs => ?_⟩
          · simpa only [Function.update_self] using hjoinable hlocked.joinable
          · simp only [hmain, mainLeft_congr hfile hinterrupted]
            simp [mainSteps]
          · simp only [Function.update_self]
            exact (Nat.one_add _).trans_le (hleft hs)
      | sigint => cases hmove

theorem sbRun_keeps (hrun : SbRun input hist s) : SbLocked s ∧
    mainSteps hist + mainLeft s.shared (s.pc .main) ≤ 5 * (fileLines input).length + 6 := by
  have hkeeps : SbInv input s ∧ SbLocked s ∧
      mainSteps hist + mainLeft s.shared (s.pc .main) ≤ 5 * (fileLines input).length + 6 := by
    refine hrun.invariant (I := fun hist s => SbInv input s ∧ SbLocked s ∧
        mainSteps hist + mainLeft s.shared (s.pc .main) ≤ 5 * (fileLines input).length + 6)
      (fun s hs => ⟨.start hs, .start hs, ?_⟩) fun hist s label s' h hstep => ?_
    · obtain ⟨heap, failing, hshared, hpc⟩ := hs
      simp [hshared, hpc, mainLeft, mainSteps]
    · obtain ⟨hinv, hlocked, hleft⟩ := h
      have hadvances := hinv.advances hlocked hstep
      have hmain := hadvances.main
      refine ⟨hinv.step hstep, hadvances.locked, ?_⟩
      simp only [mainSteps, List.countP_append] at hleft hmain ⊢
      omega
  exact hkeeps.2

/-- Once the program has been interrupted, the child is bounded. -/
theorem childSteps_le (hrun : SbRun input hist s)
    (hinterrupted : s.shared.interrupted = true) {labels : List (SbThread × SbLabel)}
    (hexec : Lts.execAll (Threads.move sbStep) s labels = some s') :
    childSteps labels + childLeft (s'.pc .child) ≤ childLeft (s.pc .child) := by
  induction labels generalizing hist s with
  | nil =>
      simp only [Lts.execAll, List.foldlM_nil, Option.pure_def, Option.some.injEq] at hexec
      simp [childSteps, hexec]
  | cons label labels ih =>
      simp only [Lts.execAll, List.foldlM_cons, Option.bind_eq_bind,
        Option.bind_eq_some_iff] at hexec
      obtain ⟨s₁, hstep, hexec⟩ := hexec
      have hadvances := (sbInv_of_run hrun).advances (sbRun_keeps hrun).1 hstep
      have hrest := ih (hrun.snoc hstep) (hadvances.interrupted hinterrupted) hexec
      have hchild := hadvances.child hinterrupted
      rw [← List.singleton_append]
      simp only [childSteps, List.countP_append] at hrest hchild ⊢
      omega

theorem exists_goes (hrun : SbRun input hist s) :
    (∀ t, s.pc t = .exited) ∨ ∃ t, ∀ allocs ok timedOut, ∃ s',
      Threads.move sbStep s (t, .go allocs ok timedOut) = some s' := by
  have hinv := sbInv_of_run hrun
  obtain ⟨hlocked, -⟩ := sbRun_keeps hrun
  obtain ⟨xs, hlisted⟩ := hinv.listed
  obtain ⟨rest, htyped⟩ := hinv.typed
  have hgoes : ∀ t, s.pc t ≠ .exited → (s.shared.mtx = none ∨ (s.pc t).Holds) →
      (s.pc t = .joining → s.shared.joinable = true) → ∀ allocs ok timedOut, ∃ s',
        Threads.move sbStep s (t, .go allocs ok timedOut) = some s' := by
    intro t hne hmtx hjoin allocs ok timedOut
    have hholds : ∀ line, s.pc t = .holding line → line.Holds line.bytes := by
      intro line hline
      cases t with
      | main =>
          have hremains := htyped.remains
          rw [hline] at hremains
          exact hremains.1
      | child =>
          have hplace := hinv.places .child
          rw [hline] at hplace
          exact hplace.elim
    obtain ⟨⟨sh, p⟩, hgo⟩ :=
      sbGo_isSome (hinv.places t) hlisted hholds hmtx hjoin hne allocs ok timedOut
    exact ⟨_, Threads.move_eq_some.mpr ⟨sh, p, hgo, rfl⟩⟩
  cases hmtx : s.shared.mtx with
  | some t =>
      -- whoever has the mutex goes on
      have hholds := (hlocked.mutex t).mp hmtx
      refine .inr ⟨t, hgoes t ?_ (.inr hholds) ?_⟩
      · intro hexited
        rw [hexited] at hholds
        exact hholds
      · intro hjoining
        rw [hjoining] at hholds
        exact hholds.elim
  | none =>
      by_cases hchild : s.pc .child = .exited
      · by_cases hmain : s.pc .main = .exited
        · exact .inl fun t => by cases t <;> assumption
        · exact .inr ⟨.main, hgoes .main hmain (.inl hmtx) fun _ => hlocked.joinable.mpr hchild⟩
      · refine .inr ⟨.child, hgoes .child hchild (.inl hmtx) fun hjoining => ?_⟩
        have hplace := hinv.places .child
        rw [hjoining] at hplace
        exact hplace.elim

/-- The main thread makes a bounded number of steps for each line, whatever the child does, and the
child makes at most four steps once the program has been interrupted. Until both have ended one of
them can go on, whatever the allocator answers. -/
theorem sbRun_ends (hrun : SbRun input hist s) :
    mainSteps hist ≤ 5 * (fileLines input).length + 6 ∧
      (s.shared.interrupted = true → ∀ labels s',
        Lts.execAll (Threads.move sbStep) s labels = some s' → childSteps labels ≤ 4) ∧
      ((∀ t, s.pc t = .exited) ∨ ∃ t, ∀ allocs ok timedOut, ∃ s',
        Threads.move sbStep s (t, .go allocs ok timedOut) = some s') := by
  refine ⟨?_, fun hinterrupted labels s' hexec => ?_, exists_goes hrun⟩
  · have := (sbRun_keeps hrun).2
    omega
  · have hsteps := childSteps_le hrun hinterrupted hexec
    have hleft : childLeft (s.pc .child) ≤ 4 := by
      cases s.pc .child <;> simp [childLeft]
    omega

/-- SIGINT interrupts the reading of a line, and both threads end. -/
def interruptedLine : List (SbThread × SbLabel) :=
  let go (t : SbThread) (steps : ℕ) :=
    List.replicate steps (t, SbLabel.go (fun _ => true) true false)
  go .child 2 ++ go .main 1 ++ (.main, .sigint (some 1)) :: go .main 3 ++ go .child 3 ++ go .main 1

theorem sbRun_ends_interruptedLine : ∃ s, SbRun [98, 98, 10] interruptedLine s ∧
    (∀ t, s.pc t = .exited) ∧
    mainSteps interruptedLine ≤ 5 * (fileLines [98, 98, 10]).length + 6 ∧
      (s.shared.interrupted = true → ∀ labels s',
        Lts.execAll (Threads.move sbStep) s labels = some s' → childSteps labels ≤ 4) ∧
      ((∀ t, s.pc t = .exited) ∨ ∃ t, ∀ allocs ok timedOut, ∃ s',
        Threads.move sbStep s (t, .go allocs ok timedOut) = some s') := by
  obtain ⟨s, hrun, hmain, hchild⟩ := Lts.exists_run (Threads.move sbStep) interruptedLine
    (fun s => s.pc .main = .exited ∧ s.pc .child = .exited) (sbStart_empty [98, 98, 10])
    (by decide +kernel)
  exact ⟨s, hrun, fun t => by cases t <;> assumption, sbRun_ends hrun⟩

end Run

end SyncBubble

end PosixThreads
