import PosixThreads.Semaphactory.Stock

/-!
# The shutdown

As long as the program has not been interrupted, the threads never block each other. Afterwards
every thread makes a few more steps. If not all of them end, one waits for a part whose producer
has ended, or for a place in a queue that nobody empties any more.
-/

namespace PosixThreads

namespace Semaphactory

/-- The steps that a thread still makes at most when the program has been interrupted. -/
def FactoryPlace.left : FactoryPlace → ℕ
  | .waiting | .testing => 1
  | .posting _ => 2
  | .producing _ => 3
  | .freeing part =>
      match part with
      | .a => 6
      | .b => 4
      | .c => 4
      | .d => 2
  | .retrieving part =>
      match part with
      | .a => 7
      | .b => 5
      | .c => 5
      | .d => 3
  | .finished => 0

def FactoryThread.most : FactoryThread → ℕ
  | .main => 1
  | .a | .b | .c => 3
  | .d => 7
  | .widget => 5

/-- Someone waits at the queue of a part, and the other thread of the part has ended. -/
def Abandoned (s : FactoryConfig) (part : Part) : Prop :=
  s.pc part.maker = .finished ∧ s.pc part.user = .retrieving part ∧ s.shared.output part = 0 ∨
    s.pc part.user = .finished ∧ s.pc part.maker = .producing part ∧
      s.shared.availableSpace part = 0

section Step

variable {t : FactoryThread} {s s' : Factory} {p p' : FactoryPlace}

theorem factoryStep_eq_none (h : factoryStep t s p () = none) :
    p = .finished ∨ (∃ part, p = .producing part ∧ s.availableSpace part = 0) ∨
      ∃ part, p = .retrieving part ∧ s.output part = 0 := by
  cases p with
  | producing part =>
      exact .inr (.inl ⟨part, rfl, Semaphores.wait_eq_none.mp (Option.map_eq_none_iff.mp h)⟩)
  | retrieving part =>
      exact .inr (.inr ⟨part, rfl, Semaphores.wait_eq_none.mp (Option.map_eq_none_iff.mp h)⟩)
  | finished => exact .inl rfl
  | waiting | testing | posting | freeing => cases h

theorem factoryStep_interrupted (h : factoryStep t s p () = some (s', p')) :
    (s.interrupted = true → s'.interrupted = true) ∧
      (p' = .finished → s'.interrupted = true) := by
  cases p with
  | waiting =>
      cases h
      exact ⟨fun _ => rfl, fun _ => rfl⟩
  | testing =>
      cases h
      refine ⟨id, fun hfinished => ?_⟩
      split at hfinished
      · assumption
      · cases t <;> cases hfinished
  | producing part | retrieving part =>
      obtain ⟨sem, -, heq⟩ := Option.map_eq_some_iff.mp h
      cases heq
      exact ⟨id, fun hfinished => by cases hfinished⟩
  | posting part =>
      cases h
      exact ⟨id, fun hfinished => by cases hfinished⟩
  | freeing part =>
      cases h
      refine ⟨id, fun hfinished => ?_⟩
      cases part <;> cases hfinished
  | finished => cases h

theorem factoryStep_left (h : factoryStep t s p () = some (s', p'))
    (hinterrupted : s.interrupted = true) : p'.left < p.left := by
  cases p with
  | waiting =>
      cases h
      exact Nat.one_pos
  | testing =>
      cases h
      rw [hinterrupted]
      exact Nat.one_pos
  | producing part | retrieving part =>
      obtain ⟨sem, -, heq⟩ := Option.map_eq_some_iff.mp h
      cases heq
      cases part <;> simp [FactoryPlace.left]
  | posting part =>
      cases h
      simp [FactoryPlace.left]
  | freeing part =>
      cases h
      cases part <;> simp [FactoryPlace.left, Part.afterRetrieving]
  | finished => cases h

end Step

section Run

variable {hist : List (FactoryThread × Unit)} {s s' : FactoryConfig}

theorem interrupted_of_finished (hrun : FactoryRun hist s) {t : FactoryThread}
    (ht : s.pc t = .finished) : s.shared.interrupted = true := by
  refine hrun.invariant (I := fun _ s => ∀ t, s.pc t = .finished → s.shared.interrupted = true)
    (fun s hinit t ht => ?_) (fun _ s label s' h hstep t ht => ?_) t ht
  · rw [hinit.2] at ht
    cases t <;> cases ht
  · obtain ⟨sh, p, hmove, rfl⟩ := Threads.move_eq_some.mp hstep
    obtain ⟨hkeeps, hfinishes⟩ := factoryStep_interrupted hmove
    by_cases htl : t = label.1
    · simp only [htl, Function.update_self] at ht
      exact hfinishes ht
    · simp only [Function.update_of_ne htl] at ht
      exact hkeeps (h t ht)

/-- The threads that are blocked are in front of an empty queue or of a full one, and there is
nobody between two semaphores. -/
theorem blocked_cases (hrun : FactoryRun hist s)
    (hblocked : ∀ t, t ≠ .main → factoryStep t s.shared (s.pc t) () = none) :
    (∀ part, s.shared.output part + s.shared.availableSpace part = queueSize) ∧
      ∀ t, t ≠ .main → s.pc t = .finished ∨
        (∃ part, t = part.maker ∧ s.pc t = .producing part ∧ s.shared.availableSpace part = 0) ∨
        ∃ part, t = part.user ∧ s.pc t = .retrieving part ∧ s.shared.output part = 0 := by
  have hplace := of_of_run hrun
  have hcases : ∀ t, t ≠ .main → s.pc t = .finished ∨
      (∃ part, t = part.maker ∧ s.pc t = .producing part ∧ s.shared.availableSpace part = 0) ∨
        ∃ part, t = part.user ∧ s.pc t = .retrieving part ∧ s.shared.output part = 0 := by
    intro t ht
    have hof := hplace t
    rcases factoryStep_eq_none (hblocked t ht) with hp | ⟨part, hp, hempty⟩ | ⟨part, hp, hempty⟩
    · exact .inl hp
    · rw [hp] at hof
      exact .inr (.inl ⟨part, hof, hp, hempty⟩)
    · rw [hp] at hof
      exact .inr (.inr ⟨part, hof, hp, hempty⟩)
  refine ⟨fun part => ?_, hcases⟩
  have hslots := (stock_of_run hrun).slots part
  have hnone : ∑ t, (s.pc t).slot part = 0 := Finset.sum_eq_zero fun t _ => by
    by_cases ht : t = .main
    · have hof := hplace .main
      rw [ht]
      cases hp : s.pc .main with
      | posting q =>
          rw [hp] at hof
          exact absurd hof.symm (maker_ne_main q)
      | freeing q =>
          rw [hp] at hof
          exact absurd hof.symm (user_ne_main q)
      | _ => rfl
    · rcases hcases t ht with hp | ⟨q, -, hp, -⟩ | ⟨q, -, hp, -⟩ <;> rw [hp] <;> rfl
  omega

/-- The threads of `run_generic_producer` wait only for a place in their own queue. -/
theorem maker_cases (hrun : FactoryRun hist s)
    (hblocked : ∀ t, t ≠ .main → factoryStep t s.shared (s.pc t) () = none) {part : Part}
    (hpart : part ≠ .d) : s.pc part.maker = .finished ∨
      s.pc part.maker = .producing part ∧ s.shared.availableSpace part = 0 := by
  obtain ⟨-, hcases⟩ := blocked_cases hrun hblocked
  rcases hcases part.maker (maker_ne_main part) with h | ⟨q, hq, h⟩ | ⟨q, hq, h⟩
  · exact .inl h
  · cases part <;> cases q <;> first | exact .inr h | cases hq
  · cases part <;> cases q <;> first | exact absurd rfl hpart | cases hq

/-- Nobody waits for a thread that waits at the same queue. -/
theorem abandoned_of_retrieving {part : Part}
    (hqueue : s.shared.output part + s.shared.availableSpace part = queueSize)
    (hmaker : s.pc part.maker = .finished ∨
      s.pc part.maker = .producing part ∧ s.shared.availableSpace part = 0)
    (huser : s.pc part.user = .retrieving part ∧ s.shared.output part = 0) : Abandoned s part := by
  rcases hmaker with hfinished | ⟨-, hfull⟩
  · exact .inl ⟨hfinished, huser⟩
  · rw [huser.2, hfull] at hqueue
    exact absurd hqueue (by decide)

/-- Who waits for whom goes along the queues, which are a tree. -/
theorem finished_or_abandoned (hrun : FactoryRun hist s)
    (hblocked : ∀ t, t ≠ .main → factoryStep t s.shared (s.pc t) () = none) :
    (∀ t, t ≠ .main → s.pc t = .finished) ∨ ∃ part, Abandoned s part := by
  obtain ⟨hqueue, hcases⟩ := blocked_cases hrun hblocked
  have ha := maker_cases hrun hblocked (show Part.a ≠ .d by decide)
  have hb := maker_cases hrun hblocked (show Part.b ≠ .d by decide)
  have hc := maker_cases hrun hblocked (show Part.c ≠ .d by decide)
  -- a blocked thread `d` waits for space, or else one of the first two queues is abandoned
  have hd : (s.pc .d = .finished ∨ s.pc .d = .producing .d ∧ s.shared.availableSpace .d = 0) ∨
      ∃ part, Abandoned s part := by
    rcases hcases .d (by decide) with h | ⟨part, hpart, h⟩ | ⟨part, hpart, h⟩
    · exact .inl (.inl h)
    · cases part <;> first | exact .inl (.inr h) | cases hpart
    · cases part
      case a => exact .inr ⟨.a, abandoned_of_retrieving (hqueue .a) ha h⟩
      case b => exact .inr ⟨.b, abandoned_of_retrieving (hqueue .b) hb h⟩
      all_goals cases hpart
  rcases hd with hd | habandoned
  · rcases hcases .widget (by decide) with hwidget | ⟨part, hpart, h⟩ | ⟨part, hpart, h⟩
    · rcases hc with hc | hc
      · rcases hd with hd | hd
        · rcases ha with ha | ha
          · rcases hb with hb | hb
            · refine .inl fun t ht => ?_
              cases t
              case main => exact absurd rfl ht
              all_goals assumption
            · exact .inr ⟨.b, .inr ⟨hd, hb⟩⟩
          · exact .inr ⟨.a, .inr ⟨hd, ha⟩⟩
        · exact .inr ⟨.d, .inr ⟨hwidget, hd⟩⟩
      · exact .inr ⟨.c, .inr ⟨hwidget, hc⟩⟩
    · cases part <;> cases hpart
    · cases part
      case c => exact .inr ⟨.c, abandoned_of_retrieving (hqueue .c) hc h⟩
      case d => exact .inr ⟨.d, abandoned_of_retrieving (hqueue .d) hd h⟩
      all_goals cases hpart
  · exact .inr habandoned

abbrev FactoryGoesOn (s : FactoryConfig) : List (FactoryThread × Unit) → FactoryConfig → Prop :=
  Threads.Run (fun s₀ => s₀ = s) factoryStep

theorem left_le {t : FactoryThread} {p : FactoryPlace} (hp : p.Of t) : p.left ≤ t.most := by
  cases p with
  | producing q | posting q =>
      obtain rfl : t = q.maker := hp
      cases q <;> simp [FactoryPlace.left, Part.maker, FactoryThread.most]
  | retrieving q | freeing q =>
      obtain rfl : t = q.user := hp
      cases q <;> simp [FactoryPlace.left, Part.user, FactoryThread.most]
  | waiting | testing | finished => cases t <;> simp [FactoryPlace.left, FactoryThread.most]

theorem length_le_of_interrupted (hrun : FactoryRun hist s)
    (hinterrupted : s.shared.interrupted = true) {hist' : List (FactoryThread × Unit)}
    (hgoes : FactoryGoesOn s hist' s') : hist'.length ≤ 22 := by
  have hkeeps : ∀ hist' s', FactoryGoesOn s hist' s' → s'.shared.interrupted = true := by
    intro hist' s' hgoes
    refine hgoes.invariant (I := fun _ s' => s'.shared.interrupted = true)
      (fun s₀ hs₀ => hs₀ ▸ hinterrupted) fun _ s label s' h hstep => ?_
    obtain ⟨sh, p, hmove, rfl⟩ := Threads.move_eq_some.mp hstep
    exact (factoryStep_interrupted hmove).1 h
  have hbound := Threads.Run.length_add_measure_le (I := fun s => s.shared.interrupted = true)
    (N := 22) (fun _ => 0) (fun _ p => p.left) (fun s₀ hs₀ => ?_)
    (fun s t _ sh p h hmove => ?_) hkeeps hgoes
  · omega
  · subst hs₀
    have hsum := Finset.sum_le_sum fun t (_ : t ∈ Finset.univ) => left_le (of_of_run hrun t)
    rw [Nat.zero_add]
    exact hsum.trans (by decide)
  · simpa using factoryStep_left hmove h

/-- The threads do not block each other before the program has been interrupted. Then there are only
a few more steps, and if not all threads end, a queue has been abandoned. -/
theorem factory_shutdown (hrun : FactoryRun hist s) :
    ((∀ t, t ≠ .main → factoryStep t s.shared (s.pc t) () = none) →
      s.shared.interrupted = true ∧
        ((∀ t, t ≠ .main → s.pc t = .finished) ∨ ∃ part, Abandoned s part)) ∧
      (s.shared.interrupted = true → ∀ hist' s', FactoryGoesOn s hist' s' →
        hist'.length ≤ 22) := by
  refine ⟨fun hblocked => ?_, fun hinterrupted _ _ => length_le_of_interrupted hrun hinterrupted⟩
  have hends := finished_or_abandoned hrun hblocked
  refine ⟨?_, hends⟩
  rcases hends with hfinished | ⟨part, ⟨hfinished, -⟩ | ⟨hfinished, -⟩⟩
  · exact interrupted_of_finished hrun (hfinished .a (by decide))
  · exact interrupted_of_finished hrun hfinished
  · exact interrupted_of_finished hrun hfinished

/-- The thread that makes modules has begun to wait for A when the other ones end. -/
def waitForA : List (FactoryThread × Unit) :=
  [.d, .main, .a, .b, .c, .widget].map fun t => (t, ())

theorem factory_shutdown_waitForA : ∃ s, FactoryRun waitForA s ∧
    (∀ t, t ≠ .main → factoryStep t s.shared (s.pc t) () = none) ∧ s.pc .d = .retrieving .a ∧
    ((∀ t, t ≠ .main → factoryStep t s.shared (s.pc t) () = none) →
      s.shared.interrupted = true ∧
        ((∀ t, t ≠ .main → s.pc t = .finished) ∨ ∃ part, Abandoned s part)) ∧
      (s.shared.interrupted = true → ∀ hist' s', FactoryGoesOn s hist' s' →
        hist'.length ≤ 22) := by
  obtain ⟨s, hrun, hblocked, hd⟩ := Lts.exists_run (Threads.move factoryStep) waitForA
    (fun s => (∀ t, t ≠ .main → (factoryStep t s.shared (s.pc t) ()).isNone) ∧
      s.pc .d = .retrieving .a) factoryInit_start (by decide +kernel)
  have hnone : ∀ t, t ≠ .main → factoryStep t s.shared (s.pc t) () = none := fun t ht =>
    Option.isNone_iff_eq_none.mp (hblocked t ht)
  exact ⟨s, hrun, hnone, hd, factory_shutdown hrun⟩

end Run

end Semaphactory

end PosixThreads
