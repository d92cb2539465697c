import PosixThreads.Library.Semaphores
import PosixThreads.Library.Threads

/-!
# Threads that take turns

Each of the threads of `print_loop` waits at its own semaphore, prints a line and posts the
semaphore of the next thread. At the beginning the first semaphore has been posted. The numbers of
threads and of lines are parameters.
-/

namespace PosixThreads

namespace Intersem

variable {n : ℕ}

/-- What the threads share, and the lines that have been printed, with the ids of their threads. -/
structure InterShared (n : ℕ) where
  sems : Fin n → ℕ
  log : List (ℕ × ℕ)

inductive InterPlace
  | waiting (i : ℕ)
  | printing (i : ℕ)
  | posting (i : ℕ)
  | finished
  deriving DecidableEq, Repr

def otherId (id : Fin n) : Fin n := ⟨(id + 1) % n, Nat.mod_lt _ id.pos⟩

def printStep (lines : ℕ) (id : Fin n) (s : InterShared n) : InterPlace → Unit →
    Option (InterShared n × InterPlace)
  | .waiting i, _ =>
      if i < lines then
        (Semaphores.wait s.sems id).map fun sems => ({ s with sems := sems }, .printing i)
      else some (s, .finished)
  | .printing i, _ => some ({ s with log := s.log ++ [(id.val, i)] }, .posting i)
  | .posting i, _ =>
      some ({ s with sems := Semaphores.post s.sems (otherId id) }, .waiting (i + 1))
  | .finished, _ => none

abbrev InterConfig (n : ℕ) := Threads.Config (Fin n) (InterShared n) InterPlace

def InterInit (n : ℕ) (s : InterConfig n) : Prop :=
  s.shared = ⟨fun id => if id.val = 0 then 1 else 0, []⟩ ∧ s.pc = fun _ => .waiting 0

abbrev InterRun (n lines : ℕ) : List (Fin n × Unit) → InterConfig n → Prop :=
  Threads.Run (InterInit n) (printStep lines)

/-- The first `k` lines of threads that take turns. -/
def inTurns (n k : ℕ) : List (ℕ × ℕ) := (List.range k).map fun j => (j % n, j / n)

def turns (n k id : ℕ) : ℕ := k / n + if id < k % n then 1 else 0

section Turns

theorem inTurns_succ (n k : ℕ) : inTurns n (k + 1) = inTurns n k ++ [(k % n, k / n)] := by
  rw [inTurns, List.range_succ, List.map_append]
  rfl

/-- The next turn is that of the next thread, or of the first one. -/
theorem succ_div_mod (hn : 0 < n) (k : ℕ) :
    (k % n + 1 = n ∧ (k + 1) / n = k / n + 1 ∧ (k + 1) % n = 0) ∨
      (k % n + 1 < n ∧ (k + 1) / n = k / n ∧ (k + 1) % n = k % n + 1) := by
  have hlt := Nat.mod_lt k hn
  have hk := Nat.mod_add_div k n
  rcases Nat.lt_or_eq_of_le (Nat.succ_le_of_lt hlt) with hnext | hlast
  · refine .inr ⟨hnext, ?_⟩
    exact (Nat.div_mod_unique hn).mpr ⟨by omega, hnext⟩
  · refine .inl ⟨hlast, ?_⟩
    refine (Nat.div_mod_unique hn).mpr ⟨?_, hn⟩
    rw [Nat.mul_succ]
    omega

theorem turns_succ (hn : 0 < n) (k : ℕ) {id : ℕ} (hid : id < n) :
    turns n (k + 1) id = turns n k id + if id = k % n then 1 else 0 := by
  unfold turns
  rcases succ_div_mod hn k with ⟨hlast, hdiv, hmod⟩ | ⟨hnext, hdiv, hmod⟩
  · rw [hdiv, hmod]
    split <;> split <;> split <;> omega
  · rw [hdiv, hmod]
    split <;> split <;> split <;> omega

theorem turns_mod (n k : ℕ) : turns n k (k % n) = k / n := by simp [turns]

theorem turns_le {k lines : ℕ} (hk : k ≤ n * lines) (id : ℕ) : turns n k id ≤ lines := by
  have hle : k / n ≤ lines := Nat.div_le_of_le_mul hk
  unfold turns
  split
  · rename_i hid
    have hk' := Nat.mod_add_div k n
    have hne : k / n ≠ lines := by
      rintro rfl
      omega
    omega
  · exact hle

theorem div_lt_lines {k lines : ℕ} (hk : k < n * lines) : k / n < lines :=
  Nat.div_lt_of_lt_mul hk

end Turns

/-! ## Whose turn it is -/

/-- The next thread can take its turn, or it prints, or it has printed. -/
inductive InterStage
  | free
  | printing
  | posting
  deriving DecidableEq, Repr

structure InTurn (lines : ℕ) (s : InterConfig n) (k : ℕ) (stage : InterStage) : Prop where
  le : k ≤ n * lines
  lt : stage ≠ .free → k < n * lines
  sems : ∀ id : Fin n, s.shared.sems id = if stage = .free ∧ id.val = k % n then 1 else 0
  log : s.shared.log = inTurns n (if stage = .posting then k + 1 else k)
  printing : stage = .printing → ∀ id : Fin n, id.val = k % n → s.pc id = .printing (k / n)
  posting : stage = .posting → ∀ id : Fin n, id.val = k % n → s.pc id = .posting (k / n)
  others : ∀ id : Fin n, stage = .free ∨ id.val ≠ k % n →
    s.pc id = .waiting (turns n k id) ∨ s.pc id = .finished ∧ turns n k id = lines

section Step

variable {lines k : ℕ} {s s' : InterConfig n} {stage : InterStage} {id : Fin n} {i : ℕ}

theorem InTurn.start (h : InterInit n s) : InTurn lines s 0 .free where
  le := Nat.zero_le _
  lt := fun hne => absurd rfl hne
  sems := by simp [h.1]
  log := by simp [h.1, inTurns]
  printing := by simp
  posting := by simp
  others := fun id _ => .inl (by simp [h.2, turns])

/-- A thread that is not in front of its semaphore has its turn, unless it has finished. -/
theorem InTurn.at_place (h : InTurn lines s k stage) (id : Fin n) :
    ((stage = .free ∨ id.val ≠ k % n) ∧
      (s.pc id = .waiting (turns n k id) ∨ s.pc id = .finished ∧ turns n k id = lines)) ∨
    (stage = .printing ∧ id.val = k % n ∧ s.pc id = .printing (k / n)) ∨
    stage = .posting ∧ id.val = k % n ∧ s.pc id = .posting (k / n) := by
  by_cases hturn : stage = .free ∨ id.val ≠ k % n
  · exact .inl ⟨hturn, h.others id hturn⟩
  · obtain ⟨hstage, hid⟩ := not_or.mp hturn
    have hid := not_not.mp hid
    cases stage with
    | free => exact absurd rfl hstage
    | printing => exact .inr (.inl ⟨rfl, hid, h.printing rfl id hid⟩)
    | posting => exact .inr (.inr ⟨rfl, hid, h.posting rfl id hid⟩)

theorem InTurn.at_waiting (h : InTurn lines s k stage) (hp : s.pc id = .waiting i) :
    (stage = .free ∨ id.val ≠ k % n) ∧ i = turns n k id := by
  rcases h.at_place id with ⟨hturn, hp' | ⟨hp', -⟩⟩ | ⟨-, -, hp'⟩ | ⟨-, -, hp'⟩ <;>
    rw [hp] at hp' <;> cases hp'
  exact ⟨hturn, rfl⟩

theorem InTurn.at_printing (h : InTurn lines s k stage) (hp : s.pc id = .printing i) :
    stage = .printing ∧ id.val = k % n ∧ i = k / n := by
  rcases h.at_place id with ⟨-, hp' | ⟨hp', -⟩⟩ | ⟨hstage, hid, hp'⟩ | ⟨-, -, hp'⟩ <;>
    rw [hp] at hp' <;> cases hp'
  exact ⟨hstage, hid, rfl⟩

theorem InTurn.at_posting (h : InTurn lines s k stage) (hp : s.pc id = .posting i) :
    stage = .posting ∧ id.val = k % n ∧ i = k / n := by
  rcases h.at_place id with ⟨-, hp' | ⟨hp', -⟩⟩ | ⟨-, -, hp'⟩ | ⟨hstage, hid, hp'⟩ <;>
    rw [hp] at hp' <;> cases hp'
  exact ⟨hstage, hid, rfl⟩

theorem InTurn.take (h : InTurn lines s k stage) (hp : s.pc id = .waiting i) (hi : i < lines)
    {sems : Fin n → ℕ} (hwait : Semaphores.wait s.shared.sems id = some sems) :
    InTurn lines ⟨{ s.shared with sems := sems }, Function.update s.pc id (.printing i)⟩ k
      .printing := by
  obtain ⟨-, rfl⟩ := h.at_waiting hp
  have hsem : stage = .free ∧ id.val = k % n := by
    have hpos := (Semaphores.wait_eq_some.mp hwait).1
    rw [h.sems] at hpos
    by_contra hnot
    rw [if_neg hnot] at hpos
    exact absurd hpos (Nat.lt_irrefl 0)
  obtain ⟨rfl, hid⟩ := hsem
  rw [hid, turns_mod] at hi ⊢
  have hlt : k < n * lines := by
    rw [Nat.mul_comm]
    exact (Nat.div_lt_iff_lt_mul id.pos).mp hi
  refine ⟨h.le, fun _ => hlt, fun u => ?_, h.log, fun _ u hu => ?_, by simp, fun u hu => ?_⟩
  · have hu := Semaphores.wait_apply hwait u
    rw [h.sems] at hu
    by_cases huid : id = u
    · subst huid
      simp only [hid, true_and, if_true] at hu
      simp only [reduceCtorEq, false_and, if_false]
      omega
    · have hne : u.val ≠ k % n := fun heq => huid (Fin.ext (hid.trans heq.symm))
      simp only [huid, hne, and_false, if_false] at hu
      simp only [reduceCtorEq, false_and, if_false]
      omega
  · rw [Fin.ext (hu.trans hid.symm)]
    exact Function.update_self _ _ _
  · have hne : u ≠ id := fun heq => hu.resolve_left (by decide) (heq ▸ hid)
    simp only [Function.update_of_ne hne]
    exact h.others u (.inl rfl)

theorem InTurn.finish (h : InTurn lines s k stage) (hp : s.pc id = .waiting i) (hi : ¬i < lines) :
    InTurn lines ⟨s.shared, Function.update s.pc id .finished⟩ k stage := by
  obtain ⟨hturn, rfl⟩ := h.at_waiting hp
  have hlines : turns n k id = lines :=
    Nat.le_antisymm (turns_le h.le id) (Nat.le_of_not_lt hi)
  have hkeep : ∀ q u, s.pc u = q → q ≠ .waiting (turns n k id) →
      Function.update s.pc id .finished u = q := by
    intro q u hq hne
    have hu : u ≠ id := fun heq => hne (hq.symm.trans (heq ▸ hp))
    rw [Function.update_of_ne hu, hq]
  refine ⟨h.le, h.lt, h.sems, h.log, fun hstage u hu => ?_, fun hstage u hu => ?_, fun u hu => ?_⟩
  · exact hkeep _ u (h.printing hstage u hu) (by simp)
  · exact hkeep _ u (h.posting hstage u hu) (by simp)
  · by_cases huid : u = id
    · subst huid
      exact .inr ⟨Function.update_self _ _ _, hlines⟩
    · simp only [Function.update_of_ne huid]
      exact h.others u hu

theorem InTurn.print (h : InTurn lines s k stage) (hp : s.pc id = .printing i) :
    InTurn lines ⟨{ s.shared with log := s.shared.log ++ [(id.val, i)] },
      Function.update s.pc id (.posting i)⟩ k .posting := by
  obtain ⟨rfl, hid, rfl⟩ := h.at_printing hp
  refine ⟨h.le, fun _ => h.lt (by decide), fun u => ?_, ?_, by simp, fun _ u hu => ?_,
    fun u hu => ?_⟩
  · rw [h.sems u]
    simp
  · simp only [h.log, if_true, reduceCtorEq, if_false, inTurns_succ, hid]
  · rw [Fin.ext (hu.trans hid.symm)]
    exact Function.update_self _ _ _
  · have hne : u ≠ id := fun heq => hu.resolve_left (by decide) (heq ▸ hid)
    simp only [Function.update_of_ne hne]
    exact h.others u (.inr (hu.resolve_left (by decide)))

theorem InTurn.give (h : InTurn lines s k stage) (hp : s.pc id = .posting i) :
    InTurn lines ⟨{ s.shared with sems := Semaphores.post s.shared.sems (otherId id) },
      Function.update s.pc id (.waiting (i + 1))⟩ (k + 1) .free := by
  obtain ⟨rfl, hid, rfl⟩ := h.at_posting hp
  have hlt := h.lt (by decide)
  have hother : (otherId id).val = (k + 1) % n :=
    (congrArg (fun i => (i + 1) % n) hid).trans (Nat.mod_add_mod k n 1)
  refine ⟨hlt, fun hne => absurd rfl hne, fun u => ?_, by simpa using h.log, by simp, by simp,
    fun u _ => ?_⟩
  · simp only [Semaphores.post_apply, h.sems u, ← hother]
    simp [Fin.ext_iff, eq_comm]
  · rw [turns_succ id.pos k u.isLt]
    by_cases hu : u = id
    · subst hu
      refine .inl ?_
      rw [if_pos hid, hid, turns_mod]
      exact Function.update_self _ _ _
    · have hne : u.val ≠ k % n := fun heq => hu (Fin.ext (heq.trans hid.symm))
      rw [if_neg hne]
      simp only [Function.update_of_ne hu]
      exact h.others u (.inr hne)

theorem InTurn.step (h : InTurn lines s k stage)
    (hstep : Threads.move (printStep lines) s (id, ()) = some s') :
    ∃ k' stage', InTurn lines s' k' stage' := by
  obtain ⟨sh, p, hmove, rfl⟩ := Threads.move_eq_some.mp hstep
  cases hp : s.pc id with
  | waiting i =>
      simp only [hp, printStep] at hmove
      split at hmove
      · rename_i hi
        obtain ⟨sems, hwait, heq⟩ := Option.map_eq_some_iff.mp hmove
        cases heq
        exact ⟨k, .printing, h.take hp hi hwait⟩
      · rename_i hi
        cases hmove
        exact ⟨k, stage, h.finish hp hi⟩
  | printing i =>
      simp only [hp, printStep] at hmove
      cases hmove
      exact ⟨k, .posting, h.print hp⟩
  | posting i =>
      simp only [hp, printStep] at hmove
      cases hmove
      exact ⟨k + 1, .free, h.give hp⟩
  | finished =>
      simp only [hp, printStep] at hmove
      cases hmove

end Step

/-! ## Every run -/

section Run

variable {lines : ℕ} {hist : List (Fin n × Unit)} {s : InterConfig n}

theorem inTurn_of_run (hrun : InterRun n lines hist s) : ∃ k stage, InTurn lines s k stage := by
  refine hrun.invariant (I := fun _ s => ∃ k stage, InTurn lines s k stage)
    (fun s hinit => ⟨0, .free, .start hinit⟩) fun _ s label s' h hstep => ?_
  obtain ⟨k, stage, h⟩ := h
  exact h.step hstep

def InterPlace.left (lines : ℕ) : InterPlace → ℕ
  | .waiting i => 3 * (lines - i) + 1
  | .printing i => 3 * (lines - i)
  | .posting i => 3 * (lines - i) - 1
  | .finished => 0

theorem InTurn.left_lt {k : ℕ} {stage : InterStage} {id : Fin n} (h : InTurn lines s k stage)
    {sh : InterShared n} {p : InterPlace}
    (hmove : printStep lines id s.shared (s.pc id) () = some (sh, p)) :
    p.left lines < (s.pc id).left lines := by
  have hlines : stage ≠ .free → k / n < lines := fun hne => div_lt_lines (h.lt hne)
  cases hp : s.pc id with
  | waiting i =>
      simp only [hp, printStep] at hmove
      split at hmove
      · obtain ⟨sems, -, heq⟩ := Option.map_eq_some_iff.mp hmove
        cases heq
        exact Nat.lt_succ_self _
      · cases hmove
        exact Nat.succ_pos _
  | printing i =>
      obtain ⟨rfl, -, rfl⟩ := h.at_printing hp
      have hlt := hlines (by decide)
      simp only [hp, printStep] at hmove
      cases hmove
      simp only [InterPlace.left]
      omega
  | posting i =>
      obtain ⟨rfl, -, rfl⟩ := h.at_posting hp
      have hlt := hlines (by decide)
      simp only [hp, printStep] at hmove
      cases hmove
      simp only [InterPlace.left]
      omega
  | finished =>
      simp only [hp, printStep] at hmove
      cases hmove

theorem length_le_of_run (hrun : InterRun n lines hist s) : hist.length ≤ n * (3 * lines + 1) := by
  have hbound := Threads.Run.length_add_measure_le (I := fun s => ∃ k stage, InTurn lines s k stage)
    (N := n * (3 * lines + 1)) (fun _ => 0) (fun _ p => p.left lines) (fun s hinit => ?_)
    (fun s id _ sh p h hmove => ?_) (fun _ _ => inTurn_of_run) hrun
  · omega
  · simp [hinit.2, InterPlace.left]
  · obtain ⟨k, stage, h⟩ := h
    simpa using h.left_lt hmove

theorem turns_all (hn : 0 < n) (lines id : ℕ) : turns n (n * lines) id = lines := by
  rw [turns, Nat.mul_div_cancel_left lines hn, Nat.mul_mod_right, if_neg (Nat.not_lt_zero id)]
  rfl

/-- The thread whose turn it is can go on, or, after the last turn, everyone can. -/
theorem InTurn.progress {k : ℕ} {stage : InterStage} (hn : 0 < n) (h : InTurn lines s k stage) :
    (∀ id, s.pc id = .finished) ∨ ∃ label s', Threads.move (printStep lines) s label = some s' := by
  by_contra hnot
  obtain ⟨hends, hstuck⟩ := not_or.mp hnot
  have hblocked : ∀ id, printStep lines id s.shared (s.pc id) () = none :=
    fun id => Threads.eq_none_of_blocked hstuck id ()
  obtain ⟨id, hid⟩ : ∃ id : Fin n, id.val = k % n := ⟨⟨k % n, Nat.mod_lt k hn⟩, rfl⟩
  have hturn := hblocked id
  cases stage with
  | printing =>
      rw [h.printing rfl id hid] at hturn
      cases hturn
  | posting =>
      rw [h.posting rfl id hid] at hturn
      cases hturn
  | free =>
      rcases Nat.lt_or_eq_of_le h.le with hlt | rfl
      · have hlines : k / n < lines := div_lt_lines hlt
        have hturns : turns n k id = k / n := by rw [hid, turns_mod]
        rcases h.others id (.inl rfl) with hwaiting | ⟨-, hall⟩
        · have hsem : s.shared.sems id = 1 := by rw [h.sems, if_pos ⟨rfl, hid⟩]
          rw [hwaiting, hturns, printStep, if_pos hlines, Option.map_eq_none_iff,
            Semaphores.wait_eq_none, hsem] at hturn
          exact absurd hturn (by decide)
        · exact hlines.ne (hturns.symm.trans hall)
      · refine hends fun u => ?_
        rcases h.others u (.inl rfl) with hwaiting | ⟨hfinished, -⟩
        · have hu := hblocked u
          rw [hwaiting, turns_all hn, printStep, if_neg (Nat.lt_irrefl lines)] at hu
          cases hu
        · exact hfinished

/-- The threads print in turns in every run. Runs are bounded, and every run can be brought to its
end, where all lines have been printed and only the first semaphore has been posted. -/
theorem intersem_inTurns (hn : 0 < n) (hrun : InterRun n lines hist s) :
    (∃ k ≤ n * lines, s.shared.log = inTurns n k) ∧ hist.length ≤ n * (3 * lines + 1) ∧
      (∃ rest s', InterRun n lines (hist ++ rest) s' ∧ ∀ id, s'.pc id = .finished) ∧
      ((∀ id, s.pc id = .finished) → s.shared.log = inTurns n (n * lines) ∧
        ∀ id, s.shared.sems id = if id.val = 0 then 1 else 0) := by
  obtain ⟨k, stage, h⟩ := inTurn_of_run hrun
  refine ⟨⟨_, ?_, h.log⟩, length_le_of_run hrun,
    Lts.Run.complete length_le_of_run (fun hrun => ?_) hrun, fun hends => ?_⟩
  · split
    · exact h.lt (by simp_all)
    · exact h.le
  · obtain ⟨k, stage, h⟩ := inTurn_of_run hrun
    exact h.progress hn
  · obtain ⟨id, hid⟩ : ∃ id : Fin n, id.val = k % n := ⟨⟨k % n, Nat.mod_lt k hn⟩, rfl⟩
    cases stage with
    | printing =>
        have hp := h.printing rfl id hid
        rw [hends id] at hp
        cases hp
    | posting =>
        have hp := h.posting rfl id hid
        rw [hends id] at hp
        cases hp
    | free =>
        have hk : k = n * lines := by
          refine Nat.le_antisymm h.le ?_
          rcases h.others id (.inl rfl) with hp | ⟨-, hturns⟩
          · rw [hends id] at hp
            cases hp
          · rw [hid, turns_mod] at hturns
            rw [← hturns]
            exact Nat.mul_div_le k n
        subst hk
        refine ⟨h.log, fun u => ?_⟩
        rw [h.sems u, Nat.mul_mod_right]
        simp

/-- Two threads with two lines each, which have printed their first ones. -/
def firstTurns : List (Fin 2 × Unit) :=
  List.replicate 3 (⟨0, Nat.zero_lt_two⟩, ()) ++ List.replicate 2 (⟨1, Nat.one_lt_two⟩, ())

theorem intersem_inTurns_firstTurns : ∃ s : InterConfig 2, InterRun 2 2 firstTurns s ∧
    s.shared.log = [(0, 0), (1, 0)] ∧
    (∃ k ≤ 2 * 2, s.shared.log = inTurns 2 k) ∧ firstTurns.length ≤ 2 * (3 * 2 + 1) ∧
      (∃ rest s', InterRun 2 2 (firstTurns ++ rest) s' ∧ ∀ id, s'.pc id = .finished) ∧
      ((∀ id, s.pc id = .finished) → s.shared.log = inTurns 2 (2 * 2) ∧
        ∀ id, s.shared.sems id = if id.val = 0 then 1 else 0) := by
  have hinit : InterInit 2 ⟨⟨fun id => if id.val = 0 then 1 else 0, []⟩, fun _ => .waiting 0⟩ :=
    ⟨rfl, rfl⟩
  obtain ⟨s, hrun, hlog⟩ := Lts.exists_run (Threads.move (printStep 2)) firstTurns
    (fun s => s.shared.log = [(0, 0), (1, 0)]) hinit (by decide)
  exact ⟨s, hrun, hlog, intersem_inTurns (by decide) hrun⟩

end Run

end Intersem

end PosixThreads
