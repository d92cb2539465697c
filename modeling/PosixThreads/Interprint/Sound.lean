import PosixThreads.Interprint.Basic

/-!
# The lines are printed in turn

A turn of a thread is one passage through its loop. In its turn `k`, the thread `id` holds the
mutex `k + 2 * id` and locks the next one, modulo three, and `i` is `(2 * k + id) / 3` at the
beginning. Where a thread is in its turn determines the mutexes that it holds. This makes the
turns of the two threads alternate, from the start until both are done.
-/

namespace PosixThreads

/-! ## One thread -/

def PrintWorker.At (n id k : ℕ) (w : PrintWorker) : Prop :=
  w.mtxId = (k + 2 * id) % 3 ∧ 2 * k + id < 3 * n + 2 ∧
    match w.pc with
    | .lockSecond => id = 0 ∧ k = 0 ∧ w.initialized = false ∧ w.i = 0
    | .lockFirst | .arrive | .barrier => k = 0 ∧ w.i = 0 ∧ (w.initialized = false ↔ id = 0)
    | .loop => w.i = (2 * k + id) / 3 ∧ (w.initialized = false → id = 0 ∧ k = 0)
    | .lock | .body => w.i = (2 * k + id) / 3 ∧ w.i < n ∧ w.initialized = true
    | .unlock => w.i = (2 * (k + 1) + id) / 3 ∧ (2 * k + id) / 3 < n ∧ w.initialized = true
    | .last | .done => w.i = (2 * k + id) / 3 ∧ n ≤ w.i ∧
        (w.initialized = false → id = 0 ∧ k = 0)

def PrintWorker.Holds (w : PrintWorker) (x : ℕ) : Prop :=
  match w.pc with
  | .lockSecond => False
  | .lockFirst => w.initialized = false ∧ x = 1
  | .arrive | .barrier | .loop | .last => x = w.mtxId ∨ w.initialized = false ∧ x = 1
  | .lock => x = w.mtxId
  | .body | .unlock => x = w.mtxId ∨ x = nextMtxId w.mtxId
  | .done => w.initialized = false ∧ x = 1

def PrintWorker.Wants (w : PrintWorker) (x : ℕ) : Prop :=
  match w.pc with
  | .lockSecond => x = 1
  | .lockFirst => x = w.mtxId
  | .lock => x = nextMtxId w.mtxId
  | _ => False

def PrintWorker.turn (w : PrintWorker) (k : ℕ) : ℕ := if w.pc = .unlock then k + 1 else k

def PrintPc.arrivals : PrintPc → ℕ
  | .lockSecond | .lockFirst | .arrive => 0
  | _ => 1

def PrintPc.started : PrintPc → Bool
  | .lockSecond | .lockFirst | .arrive | .barrier => false
  | _ => true

def PrintPc.inTurn : PrintPc → Bool
  | .body | .unlock => true
  | _ => false

/-- The first lines, each with the thread that has to print it. -/
def alternateLines (count : ℕ) : List (ℕ × ℕ) := (List.range count).map fun i => (i % 2, i)

theorem alternateLines_succ (count : ℕ) :
    alternateLines (count + 1) = alternateLines count ++ [(count % 2, count)] := by
  simp [alternateLines, List.range_succ]

inductive PrintMove (n : ℕ) (t : PrintThread) (w : PrintWorker) (m : PrintShared) :
    PrintWorker → PrintShared → Prop
  | lockSecond (hpc : w.pc = .lockSecond) (hfree : m.mtxes 1 = none) :
      PrintMove n t w m { w with pc := .lockFirst }
        { m with mtxes := Function.update m.mtxes 1 (some t) }
  | lockFirst (hpc : w.pc = .lockFirst) (hfree : m.mtxes w.mtxId = none) :
      PrintMove n t w m { w with pc := .arrive }
        { m with mtxes := Function.update m.mtxes w.mtxId (some t) }
  | arrive (hpc : w.pc = .arrive) :
      PrintMove n t w m { w with pc := .barrier } { m with arrived := m.arrived + 1 }
  | barrier (hpc : w.pc = .barrier) (htwo : m.arrived = 2) :
      PrintMove n t w m { w with pc := .loop } m
  | again (hpc : w.pc = .loop) (hlt : w.i < n) (hinit : w.initialized = true) :
      PrintMove n t w m { w with pc := .lock } m
  | first (hpc : w.pc = .loop) (hlt : w.i < n) (hinit : w.initialized = false) :
      PrintMove n t w m { w with
        pc := .body
        initialized := true } m
  | leave (hpc : w.pc = .loop) (hge : n ≤ w.i) : PrintMove n t w m { w with pc := .last } m
  | lock (hpc : w.pc = .lock) (hfree : m.mtxes (nextMtxId w.mtxId) = none) :
      PrintMove n t w m { w with pc := .body }
        { m with mtxes := Function.update m.mtxes (nextMtxId w.mtxId) (some t) }
  | print (hpc : w.pc = .body) (hnext : nextMtxId w.mtxId = 1) :
      PrintMove n t w m { w with pc := .unlock } { m with lines := m.lines ++ [(t.id, w.i)] }
  | count (hpc : w.pc = .body) (hnext : nextMtxId w.mtxId ≠ 1) :
      PrintMove n t w m { w with
        pc := .unlock
        i := w.i + 1 } m
  | unlock (hpc : w.pc = .unlock) (hheld : m.mtxes w.mtxId = some t) :
      PrintMove n t w m { w with
        pc := .loop
        mtxId := nextMtxId w.mtxId }
        { m with mtxes := Function.update m.mtxes w.mtxId none }
  | last (hpc : w.pc = .last) (hheld : m.mtxes w.mtxId = some t) :
      PrintMove n t w m { w with pc := .done }
        { m with mtxes := Function.update m.mtxes w.mtxId none }

def PrintWorker.position (w : PrintWorker) (k : ℕ) : ℕ :=
  match w.pc with
  | .lockSecond => 0
  | .lockFirst => 1
  | .arrive => 2
  | .barrier => 3
  | .loop => 4 * k + 4
  | .lock | .last => 4 * k + 5
  | .body | .done => 4 * k + 6
  | .unlock => 4 * k + 7

section Worker

variable {n k : ℕ} {t : PrintThread} {w w' : PrintWorker} {m m' : PrintShared} {x : ℕ}

theorem PrintThread.id_le (t : PrintThread) : t.id ≤ 1 := by
  cases t <;> simp [PrintThread.id]

theorem PrintShared.lock_moved {v : PrintWorker} (h : m.lock t x v = .moved w' m') :
    m.mtxes x = none ∧ v = w' ∧ { m with mtxes := Function.update m.mtxes x (some t) } = m' := by
  rw [PrintShared.lock] at h
  split at h
  · split at h
    · simp only [PrintOutcome.moved.injEq] at h
      exact ⟨‹_›, h⟩
    · split at h <;> simp at h
  · simp at h

theorem PrintShared.unlock_moved {v : PrintWorker} (h : m.unlock t x v = .moved w' m') :
    m.mtxes x = some t ∧ v = w' ∧ { m with mtxes := Function.update m.mtxes x none } = m' := by
  rw [PrintShared.unlock] at h
  split at h
  · rename_i hx
    simp only [PrintOutcome.moved.injEq] at h
    exact ⟨hx.2, h⟩
  · simp at h

theorem printLoop_moved (h : printLoop n t w m = .moved w' m') : PrintMove n t w m w' m' := by
  rw [printLoop] at h
  split at h
  · obtain ⟨hfree, rfl, rfl⟩ := PrintShared.lock_moved h
    exact .lockSecond ‹_› hfree
  · obtain ⟨hfree, rfl, rfl⟩ := PrintShared.lock_moved h
    exact .lockFirst ‹_› hfree
  · simp only [PrintOutcome.moved.injEq] at h
    obtain ⟨rfl, rfl⟩ := h
    exact .arrive ‹_›
  · split at h
    · simp only [PrintOutcome.moved.injEq] at h
      obtain ⟨rfl, rfl⟩ := h
      exact .barrier ‹_› ‹_›
    · simp at h
  · split at h
    · split at h
      · simp only [PrintOutcome.moved.injEq] at h
        obtain ⟨rfl, rfl⟩ := h
        exact .again ‹_› ‹_› ‹_›
      · rename_i hinit
        simp only [PrintOutcome.moved.injEq] at h
        obtain ⟨rfl, rfl⟩ := h
        exact .first ‹_› ‹_› (by simpa using hinit)
    · rename_i hge
      simp only [PrintOutcome.moved.injEq] at h
      obtain ⟨rfl, rfl⟩ := h
      exact .leave ‹_› (Nat.le_of_not_lt hge)
  · obtain ⟨hfree, rfl, rfl⟩ := PrintShared.lock_moved h
    exact .lock ‹_› hfree
  · split at h <;> simp only [PrintOutcome.moved.injEq] at h <;> obtain ⟨rfl, rfl⟩ := h
    · exact .print ‹_› ‹_›
    · exact .count ‹_› ‹_›
  · obtain ⟨hheld, rfl, rfl⟩ := PrintShared.unlock_moved h
    exact .unlock ‹_› hheld
  · obtain ⟨hheld, rfl, rfl⟩ := PrintShared.unlock_moved h
    exact .last ‹_› hheld
  · simp at h

theorem PrintWorker.At.step (hat : w.At n t.id k) (h : PrintMove n t w m w' m') :
    w'.At n t.id (w.turn k) := by
  obtain ⟨hmtx, hbound, hvars⟩ := hat
  have hid := t.id_le
  cases h with
  | lockSecond hpc _ =>
      simp only [hpc] at hvars
      simp only [PrintWorker.turn, hpc, reduceCtorEq, if_false]
      exact ⟨hmtx, hbound, hvars.2.1, hvars.2.2.2, by simp [hvars]⟩
  | lockFirst hpc _ =>
      simp only [hpc] at hvars
      simp only [PrintWorker.turn, hpc, reduceCtorEq, if_false]
      exact ⟨hmtx, hbound, hvars⟩
  | arrive hpc =>
      simp only [hpc] at hvars
      simp only [PrintWorker.turn, hpc, reduceCtorEq, if_false]
      exact ⟨hmtx, hbound, hvars⟩
  | barrier hpc _ =>
      simp only [hpc] at hvars
      simp only [PrintWorker.turn, hpc, reduceCtorEq, if_false]
      exact ⟨hmtx, hbound, by simp only; omega, fun hinit => ⟨hvars.2.2.mp hinit, hvars.1⟩⟩
  | again hpc hlt hinit =>
      simp only [hpc] at hvars
      simp only [PrintWorker.turn, hpc, reduceCtorEq, if_false]
      exact ⟨hmtx, hbound, hvars.1, hlt, hinit⟩
  | first hpc hlt hinit =>
      simp only [hpc] at hvars
      simp only [PrintWorker.turn, hpc, reduceCtorEq, if_false]
      exact ⟨hmtx, hbound, hvars.1, hlt, rfl⟩
  | leave hpc hge =>
      simp only [hpc] at hvars
      simp only [PrintWorker.turn, hpc, reduceCtorEq, if_false]
      exact ⟨hmtx, hbound, hvars.1, hge, hvars.2⟩
  | lock hpc _ =>
      simp only [hpc] at hvars
      simp only [PrintWorker.turn, hpc, reduceCtorEq, if_false]
      exact ⟨hmtx, hbound, hvars⟩
  | print hpc hnext =>
      simp only [hpc] at hvars
      simp only [PrintWorker.turn, hpc, reduceCtorEq, if_false]
      rw [nextMtxId] at hnext
      exact ⟨hmtx, hbound, by simp only; omega, by omega, hvars.2.2⟩
  | count hpc hnext =>
      simp only [hpc] at hvars
      simp only [PrintWorker.turn, hpc, reduceCtorEq, if_false]
      rw [nextMtxId] at hnext
      exact ⟨hmtx, hbound, by simp only; omega, by omega, hvars.2.2⟩
  | unlock hpc _ =>
      simp only [hpc] at hvars
      simp only [PrintWorker.turn, hpc, if_true]
      refine ⟨?_, by omega, hvars.1, by simp [hvars.2.2]⟩
      simp only [nextMtxId]
      omega
  | last hpc _ =>
      simp only [hpc] at hvars
      simp only [PrintWorker.turn, hpc, reduceCtorEq, if_false]
      exact ⟨hmtx, hbound, hvars⟩

def PrintShared.HeldBy (m : PrintShared) (t : PrintThread) (w : PrintWorker) : Prop :=
  ∀ x, m.mtxes x = some t ↔ w.Holds x

def PrintShared.Frame (m m' : PrintShared) (t : PrintThread) : Prop :=
  ∀ u, u ≠ t → ∀ x, m'.mtxes x = some u ↔ m.mtxes x = some u

/-- The holder of one mutex changes, which no other thread holds before or behind it. -/
theorem PrintShared.HeldBy.update (hheld : m.HeldBy t w) {holder : Option PrintThread}
    (hx : ∀ u, u ≠ t → m.mtxes x ≠ some u) (hholder : ∀ u, u ≠ t → holder ≠ some u)
    (hnew : ∀ y, w'.Holds y ↔ if y = x then holder = some t else w.Holds y) :
    PrintShared.HeldBy { m with mtxes := Function.update m.mtxes x holder } t w' ∧
      m.Frame { m with mtxes := Function.update m.mtxes x holder } t := by
  refine ⟨fun y => ?_, fun u hu y => ?_⟩
  · rw [hnew y]
    by_cases hy : y = x
    · simp [hy]
    · simp [hy, hheld y]
  · by_cases hy : y = x
    · simp [hy, hx u hu, hholder u hu]
    · simp [hy]

theorem PrintShared.HeldBy.lock (hheld : m.HeldBy t w) (hfree : m.mtxes x = none)
    (hnew : ∀ y, w'.Holds y ↔ w.Holds y ∨ y = x) :
    PrintShared.HeldBy { m with mtxes := Function.update m.mtxes x (some t) } t w' ∧
      m.Frame { m with mtxes := Function.update m.mtxes x (some t) } t := by
  refine hheld.update (by simp [hfree]) (fun u hu => by simpa using Ne.symm hu) fun y => ?_
  rw [hnew y]
  by_cases hy : y = x <;> simp [hy]

theorem PrintShared.HeldBy.unlock (hheld : m.HeldBy t w) (hx : m.mtxes x = some t)
    (hnew : ∀ y, w'.Holds y ↔ w.Holds y ∧ y ≠ x) :
    PrintShared.HeldBy { m with mtxes := Function.update m.mtxes x none } t w' ∧
      m.Frame { m with mtxes := Function.update m.mtxes x none } t := by
  refine hheld.update (fun u hu => by simpa [hx] using Ne.symm hu) (by simp) fun y => ?_
  rw [hnew y]
  by_cases hy : y = x <;> simp [hy]

theorem PrintShared.HeldBy.same (hheld : m.HeldBy t w) (hm : m'.mtxes = m.mtxes)
    (hnew : ∀ y, w'.Holds y ↔ w.Holds y) : m'.HeldBy t w' ∧ m.Frame m' t :=
  ⟨fun y => by rw [hm, hnew y, hheld y], fun u _ y => by rw [hm]⟩

theorem PrintWorker.At.holds (hat : w.At n t.id k) (hheld : m.HeldBy t w)
    (h : PrintMove n t w m w' m') : m'.HeldBy t w' ∧ m.Frame m' t := by
  obtain ⟨hmtx, _, hvars⟩ := hat
  cases h with
  | lockSecond hpc hfree =>
      simp only [hpc] at hvars
      exact hheld.lock hfree fun y => by simp [PrintWorker.Holds, hpc, hvars]
  | lockFirst hpc hfree =>
      exact hheld.lock hfree fun y => by simp [PrintWorker.Holds, hpc, or_comm]
  | arrive hpc => exact hheld.same rfl fun y => by simp [PrintWorker.Holds, hpc]
  | barrier hpc _ => exact hheld.same rfl fun y => by simp [PrintWorker.Holds, hpc]
  | again hpc _ hinit => exact hheld.same rfl fun y => by simp [PrintWorker.Holds, hpc, hinit]
  | first hpc _ hinit =>
      -- the thread `0` at the start, which holds `mtxes[1]` already
      simp only [hpc] at hvars
      obtain ⟨hid, hk⟩ := hvars.2 hinit
      have hzero : w.mtxId = 0 := by simp [hmtx, hid, hk]
      exact hheld.same rfl fun y => by simp [PrintWorker.Holds, hpc, hinit, hzero, nextMtxId]
  | leave hpc _ => exact hheld.same rfl fun y => by simp [PrintWorker.Holds, hpc]
  | lock hpc hfree => exact hheld.lock hfree fun y => by simp [PrintWorker.Holds, hpc]
  | print hpc _ => exact hheld.same rfl fun y => by simp [PrintWorker.Holds, hpc]
  | count hpc _ => exact hheld.same rfl fun y => by simp [PrintWorker.Holds, hpc]
  | unlock hpc hx =>
      simp only [hpc] at hvars
      refine hheld.unlock hx fun y => ?_
      simp only [PrintWorker.Holds, hpc, hvars.2.2, nextMtxId, Bool.true_eq_false, false_and,
        or_false]
      omega
  | last hpc hx =>
      simp only [hpc] at hvars
      refine hheld.unlock hx fun y => ?_
      simp only [PrintWorker.Holds, hpc]
      cases hinit : w.initialized with
      | true => simp
      | false =>
          obtain ⟨hid, hk⟩ := hvars.2.2 hinit
          have hzero : w.mtxId = 0 := by simp [hmtx, hid, hk]
          simp only [hzero, true_and]
          omega

theorem PrintWorker.At.not_holds {id : ℕ} (hat : w.At n id k) (hid : id ≤ 1) (hwants : w.Wants x) :
    x < 3 ∧ ¬w.Holds x := by
  obtain ⟨hmtx, _, hvars⟩ := hat
  have hlt : w.mtxId < 3 := by omega
  cases hpc : w.pc <;> simp only [PrintWorker.Wants, hpc] at hwants <;>
    simp only [hpc] at hvars <;> subst hwants <;>
    simp only [PrintWorker.Holds, hpc, nextMtxId, not_false_eq_true, and_true]
  case lockSecond => simp
  case lockFirst =>
    refine ⟨hlt, ?_⟩
    rintro ⟨hinit, hone⟩
    have hzero := hvars.2.2.mp hinit
    omega
  case lock => omega

theorem PrintShared.lock_free (hlt : x < 3) (hfree : m.mtxes x = none) (v : PrintWorker) :
    m.lock t x v = .moved v { m with mtxes := Function.update m.mtxes x (some t) } := by
  simp [PrintShared.lock, hlt, hfree]

theorem PrintShared.HeldBy.unlock_eq (hheld : m.HeldBy t w) (hlt : x < 3) (hholds : w.Holds x)
    (v : PrintWorker) : m.unlock t x v =
      .moved v { m with mtxes := Function.update m.mtxes x none } := by
  rw [PrintShared.unlock, if_pos ⟨hlt, (hheld x).mpr hholds⟩]

theorem PrintShared.HeldBy.lock_ne_failed (hheld : m.HeldBy t w) (hlt : x < 3)
    (hnot : ¬w.Holds x) (v : PrintWorker) : m.lock t x v ≠ .failed := by
  rw [← hheld x] at hnot
  rw [PrintShared.lock, if_pos hlt]
  split
  · simp
  · rename_i holder hholder
    have hne : holder ≠ t := fun heq => hnot (heq ▸ hholder)
    simp [hne]

theorem PrintWorker.At.not_failed (hat : w.At n t.id k) (hheld : m.HeldBy t w) :
    printLoop n t w m ≠ .failed := by
  have hlt : w.mtxId < 3 := by
    have hmtx := hat.1
    omega
  have hlock : ∀ x v, w.Wants x → m.lock t x v ≠ .failed := by
    intro x v hwants
    obtain ⟨hx, hnot⟩ := hat.not_holds t.id_le hwants
    exact hheld.lock_ne_failed hx hnot v
  cases hpc : w.pc <;> simp only [printLoop, hpc]
  case lockSecond => exact hlock _ _ (by simp [PrintWorker.Wants, hpc])
  case lockFirst => exact hlock _ _ (by simp [PrintWorker.Wants, hpc])
  case arrive => simp
  case barrier => split <;> simp
  case loop => split <;> (try split) <;> simp
  case lock => exact hlock _ _ (by simp [PrintWorker.Wants, hpc])
  case body => split <;> simp
  case unlock => simp [hheld.unlock_eq hlt (by simp [PrintWorker.Holds, hpc])]
  case last => simp [hheld.unlock_eq hlt (by simp [PrintWorker.Holds, hpc])]
  case done => simp

theorem PrintWorker.At.moves (hat : w.At n t.id k) (hheld : m.HeldBy t w) (hdone : w.pc ≠ .done)
    (hbarrier : w.pc = .barrier → m.arrived = 2) (hfree : ∀ x, w.Wants x → m.mtxes x = none) :
    ∃ w' m', printLoop n t w m = .moved w' m' := by
  have hlt : w.mtxId < 3 := by
    have hmtx := hat.1
    omega
  have hlock : ∀ x v, w.Wants x → ∃ w' m', m.lock t x v = .moved w' m' := fun x v hwants =>
    ⟨_, _, PrintShared.lock_free (hat.not_holds t.id_le hwants).1 (hfree x hwants) v⟩
  cases hpc : w.pc <;> simp only [printLoop, hpc]
  case lockSecond => exact hlock _ _ (by simp [PrintWorker.Wants, hpc])
  case lockFirst => exact hlock _ _ (by simp [PrintWorker.Wants, hpc])
  case arrive => exact ⟨_, _, rfl⟩
  case barrier => exact ⟨_, _, if_pos (hbarrier hpc)⟩
  case loop => split <;> (try split) <;> exact ⟨_, _, rfl⟩
  case lock => exact hlock _ _ (by simp [PrintWorker.Wants, hpc])
  case body => split <;> exact ⟨_, _, rfl⟩
  case unlock => exact ⟨_, _, hheld.unlock_eq hlt (by simp [PrintWorker.Holds, hpc]) _⟩
  case last => exact ⟨_, _, hheld.unlock_eq hlt (by simp [PrintWorker.Holds, hpc]) _⟩
  case done => exact absurd hpc hdone

/-- A thread that has come to the barrier holds its mutex, unless it is done. -/
theorem PrintWorker.holds_mtxId (harrived : w.pc.arrivals = 1) (hdone : w.pc ≠ .done) :
    w.Holds w.mtxId := by
  rcases w with ⟨pc, mtxId, i, initialized⟩
  cases pc <;> simp_all [PrintPc.arrivals, PrintWorker.Holds]

/-- A thread comes to the barrier, and goes on when the other one has come, too. -/
theorem PrintMove.arrived (h : PrintMove n t w m w' m') :
    m'.arrived + w.pc.arrivals = m.arrived + w'.pc.arrivals ∧
      w.pc.arrivals ≤ w'.pc.arrivals ∧
      (w'.pc.started = true → w.pc.started = true ∨ m.arrived = 2) := by
  cases h with
  | barrier hpc htwo => simp [PrintPc.arrivals, hpc, htwo]
  | lockSecond hpc | lockFirst hpc | arrive hpc | again hpc | first hpc | leave hpc | lock hpc
  | print hpc | count hpc | unlock hpc | last hpc =>
      simp [PrintPc.arrivals, PrintPc.started, hpc]

theorem PrintMove.inTurn (h : PrintMove n t w m w' m') (hin : w'.pc.inTurn = true) :
    w.pc = .body ∨ w.pc = .lock ∧ m.mtxes (nextMtxId w.mtxId) = none ∨
      w.pc = .loop ∧ w.initialized = false := by
  cases h with
  | first hpc _ hinit => exact Or.inr (Or.inr ⟨hpc, hinit⟩)
  | lock hpc hfree => exact Or.inr (Or.inl ⟨hpc, hfree⟩)
  | print hpc | count hpc => exact Or.inl hpc
  | lockSecond | lockFirst | arrive | barrier | again | leave | unlock | last =>
      simp [PrintPc.inTurn] at hin

theorem PrintMove.lines (h : PrintMove n t w m w' m') (k : ℕ) :
    m'.lines = (if w.pc = .body ∧ nextMtxId w.mtxId = 1 then m.lines ++ [(t.id, w.i)]
      else m.lines) ∧
      w'.turn (w.turn k) = if w.pc = .body then k + 1 else w.turn k := by
  cases h with
  | print hpc hnext | count hpc hnext => simp [PrintWorker.turn, hpc, hnext]
  | lockSecond hpc | lockFirst hpc | arrive hpc | barrier hpc | again hpc | first hpc | leave hpc
  | lock hpc | unlock hpc | last hpc =>
      simp [PrintWorker.turn, hpc]

/-- The lines go on as they have to, where `c` gives the number of lines before a turn. -/
theorem PrintMove.alternates (h : PrintMove n t w m w' m') {c : ℕ → ℕ}
    (hlines : m.lines = alternateLines (c (w.turn k)))
    (hprint : w.pc = .body → nextMtxId w.mtxId = 1 →
      c k = w.i ∧ c (k + 1) = w.i + 1 ∧ w.i % 2 = t.id)
    (hcount : w.pc = .body → nextMtxId w.mtxId ≠ 1 → c (k + 1) = c k) :
    m'.lines = alternateLines (c (w'.turn (w.turn k))) := by
  obtain ⟨hlines', hturn⟩ := h.lines k
  rw [hlines', hturn, hlines]
  by_cases hbody : w.pc = .body
  · have hsame : w.turn k = k := by simp [PrintWorker.turn, hbody]
    by_cases hnext : nextMtxId w.mtxId = 1
    · obtain ⟨hbefore, hafter, hid⟩ := hprint hbody hnext
      simp [hbody, hnext, hsame, hbefore, hafter, alternateLines_succ, hid]
    · simp [hbody, hnext, hsame, hcount hbody hnext]
  · simp [hbody]

theorem PrintMove.position (h : PrintMove n t w m w' m') (k : ℕ) :
    w.position k < w'.position (w.turn k) := by
  cases h with
  | lockSecond hpc | lockFirst hpc | arrive hpc | barrier hpc | again hpc | first hpc | leave hpc
  | lock hpc | print hpc | count hpc | last hpc =>
      simp [PrintWorker.position, PrintWorker.turn, hpc]
  | unlock hpc =>
      simp only [PrintWorker.position, PrintWorker.turn, hpc, if_true]
      omega

theorem PrintWorker.position_le (w : PrintWorker) (k : ℕ) : w.position k ≤ 4 * k + 7 := by
  unfold PrintWorker.position
  split <;> omega

end Worker

/-! ## Both threads -/

/-- What is true of the two threads, in their turns `k` and `l`. A thread that holds two mutexes is
the one whose turn it is. -/
structure PrintInv (n : ℕ) (s : Interprint) (k l : ℕ) : Prop where
  zero : s.zero.At n 0 k
  one : s.one.At n 1 l
  heldZero : s.shared.HeldBy .zero s.zero
  heldOne : s.shared.HeldBy .one s.one
  turns : l ≤ k ∧ k ≤ l + 1
  inZero : s.zero.pc.inTurn = true → k = l
  inOne : s.one.pc.inTurn = true → k = l + 1
  arrived : s.shared.arrived = s.zero.pc.arrivals + s.one.pc.arrivals
  started : s.zero.pc.started = true ∨ s.one.pc.started = true → s.shared.arrived = 2
  lines : s.shared.lines = alternateLines ((s.zero.turn k + 2) / 3 + (s.one.turn l + 1) / 3)

section Threads

variable {n k l : ℕ} {s s' : Interprint} {t : PrintThread} {w : PrintWorker} {m m' : PrintShared}
  {hist : List PrintThread}

theorem PrintPc.arrivals_le (pc : PrintPc) : pc.arrivals ≤ 1 := by
  cases pc <;> simp [PrintPc.arrivals]

theorem PrintWorker.turn_eq (hpc : w.pc ≠ .unlock) : w.turn k = k := if_neg hpc

theorem PrintInv.arrivals (hinv : PrintInv n s k l)
    (hstarted : s.zero.pc.started = true ∨ s.one.pc.started = true) :
    s.zero.pc.arrivals = 1 ∧ s.one.pc.arrivals = 1 := by
  have htwo := hinv.started hstarted
  rw [hinv.arrived] at htwo
  have hzero := s.zero.pc.arrivals_le
  have hone := s.one.pc.arrivals_le
  omega

/-- Nobody unlocks a mutex in the turn of the other one. -/
theorem PrintInv.turn_zero_eq (hinv : PrintInv n s k l) (hkl : k = l + 1) : s.zero.turn k = k := by
  refine PrintWorker.turn_eq fun hpc => ?_
  have heq := hinv.inZero (by simp [hpc, PrintPc.inTurn])
  omega

theorem PrintInv.turn_one_eq (hinv : PrintInv n s k l) (hkl : k = l) : s.one.turn l = l := by
  refine PrintWorker.turn_eq fun hpc => ?_
  have heq := hinv.inOne (by simp [hpc, PrintPc.inTurn])
  omega

theorem PrintWorker.At.not_free {id id' : ℕ} {u : PrintWorker} {t' : PrintThread}
    (hat : w.At n id k) (hat' : u.At n id' l) (hheld : m.HeldBy t' u)
    (harrived : u.pc.arrivals = 1) (hpc : w.pc = .lock) (hx : nextMtxId w.mtxId = u.mtxId)
    (hle : 2 * l + id' ≤ 2 * k + id) : m.mtxes (nextMtxId w.mtxId) ≠ none := by
  obtain ⟨-, -, hvars⟩ := hat
  obtain ⟨-, -, hvars'⟩ := hat'
  simp only [hpc] at hvars
  intro hfree
  have hdone : u.pc = .done := by
    by_contra hdone
    have hholds := (hheld _).mpr (PrintWorker.holds_mtxId harrived hdone)
    rw [← hx, hfree] at hholds
    cases hholds
  simp only [hdone] at hvars'
  omega

theorem PrintInv.turn_zero (hinv : PrintInv n s k l) (hpc : s.zero.pc = .lock)
    (hfree : s.shared.mtxes (nextMtxId s.zero.mtxId) = none) : k = l := by
  have hturns := hinv.turns
  have hmtx := hinv.zero.1
  have hmtx' := hinv.one.1
  by_contra hne
  have harrived := (hinv.arrivals (Or.inl (by simp [hpc, PrintPc.started]))).2
  refine hinv.zero.not_free hinv.one hinv.heldOne harrived hpc ?_ (by omega) hfree
  rw [nextMtxId]
  omega

theorem PrintInv.turn_one (hinv : PrintInv n s k l) (hpc : s.one.pc = .lock)
    (hfree : s.shared.mtxes (nextMtxId s.one.mtxId) = none) : k = l + 1 := by
  have hturns := hinv.turns
  have hmtx := hinv.zero.1
  have hmtx' := hinv.one.1
  by_contra hne
  have harrived := (hinv.arrivals (Or.inr (by simp [hpc, PrintPc.started]))).1
  refine hinv.one.not_free hinv.zero hinv.heldZero harrived hpc ?_ (by omega) hfree
  rw [nextMtxId]
  omega

theorem PrintMove.started {u : PrintWorker} {a : ℕ} (h : PrintMove n t u m w m')
    (harrived : m.arrived = u.pc.arrivals + a) (hle : a ≤ 1)
    (htwo : u.pc.started = true → m.arrived = 2)
    (hstarted : w.pc.started = true ∨ m.arrived = 2) : m'.arrived = 2 := by
  obtain ⟨heq, hmono, hpast⟩ := h.arrived
  have hbefore := u.pc.arrivals_le
  have hafter := w.pc.arrivals_le
  have hm : m.arrived = 2 := by
    rcases hstarted with hw | hm
    · rcases hpast hw with hu | hm
      · exact htwo hu
      · exact hm
    · exact hm
  omega

theorem PrintInv.step_zero (hinv : PrintInv n s k l) (h : PrintMove n .zero s.zero s.shared w m) :
    PrintInv n ⟨w, s.one, m⟩ (s.zero.turn k) l := by
  obtain ⟨hheld, hframe⟩ := hinv.zero.holds hinv.heldZero h
  obtain ⟨hmtx, _, hvars⟩ := hinv.zero
  have hturns := hinv.turns
  have hunlock : s.zero.pc = .unlock → k = l :=
    fun hpc => hinv.inZero (by simp [hpc, PrintPc.inTurn])
  refine ⟨hinv.zero.step h, hinv.one, hheld, ?_, ?_, ?_, ?_, ?_, ?_, ?_⟩
  · exact fun x => (hframe .one (by simp) x).trans (hinv.heldOne x)
  · by_cases hpc : s.zero.pc = .unlock
    · have hkl := hunlock hpc
      simp only [PrintWorker.turn, hpc, if_true]
      omega
    · rw [PrintWorker.turn_eq hpc]
      exact hturns
  · intro hbody
    rcases h.inTurn hbody with hpc | ⟨hpc, hfree⟩ | ⟨hpc, hinit⟩
    · rw [PrintWorker.turn_eq (by simp [hpc])]
      exact hinv.inZero (by simp [hpc, PrintPc.inTurn])
    · rw [PrintWorker.turn_eq (by simp [hpc])]
      exact hinv.turn_zero hpc hfree
    · rw [PrintWorker.turn_eq (by simp [hpc])]
      simp only [hpc] at hvars
      have hzero := (hvars.2 hinit).2
      omega
  · intro hone
    have hkl := hinv.inOne hone
    rwa [hinv.turn_zero_eq hkl]
  · have harrived := h.arrived.1
    have hall := hinv.arrived
    simp only
    omega
  · rintro (hw | hone)
    · exact h.started hinv.arrived s.one.pc.arrivals_le (fun hz => hinv.started (Or.inl hz))
        (Or.inl hw)
    · exact h.started hinv.arrived s.one.pc.arrivals_le (fun hz => hinv.started (Or.inl hz))
        (Or.inr (hinv.started (Or.inr hone)))
  · refine h.alternates (c := fun k => (k + 2) / 3 + (s.one.turn l + 1) / 3) hinv.lines ?_ ?_
    · intro hbody hnext
      rw [nextMtxId] at hnext
      have hkl := hinv.inZero (by simp [hbody, PrintPc.inTurn])
      have hone : s.one.turn l = l := hinv.turn_one_eq hkl
      simp only [hbody] at hvars
      simp only [hone, PrintThread.id]
      omega
    · intro hbody hnext
      rw [nextMtxId] at hnext
      have hmod : k % 3 = 1 ∨ k % 3 = 2 := by omega
      rcases hmod with hmod | hmod <;> omega

theorem PrintInv.step_one (hinv : PrintInv n s k l) (h : PrintMove n .one s.one s.shared w m) :
    PrintInv n ⟨s.zero, w, m⟩ k (s.one.turn l) := by
  obtain ⟨hheld, hframe⟩ := hinv.one.holds hinv.heldOne h
  obtain ⟨hmtx, _, hvars⟩ := hinv.one
  have hturns := hinv.turns
  have hunlock : s.one.pc = .unlock → k = l + 1 :=
    fun hpc => hinv.inOne (by simp [hpc, PrintPc.inTurn])
  refine ⟨hinv.zero, hinv.one.step h, ?_, hheld, ?_, ?_, ?_, ?_, ?_, ?_⟩
  · exact fun x => (hframe .zero (by simp) x).trans (hinv.heldZero x)
  · by_cases hpc : s.one.pc = .unlock
    · have hkl := hunlock hpc
      simp only [PrintWorker.turn, hpc, if_true]
      omega
    · rw [PrintWorker.turn_eq hpc]
      exact hturns
  · intro hzero
    have hkl := hinv.inZero hzero
    rwa [hinv.turn_one_eq hkl]
  · intro hbody
    rcases h.inTurn hbody with hpc | ⟨hpc, hfree⟩ | ⟨hpc, hinit⟩
    · rw [PrintWorker.turn_eq (by simp [hpc])]
      exact hinv.inOne (by simp [hpc, PrintPc.inTurn])
    · rw [PrintWorker.turn_eq (by simp [hpc])]
      exact hinv.turn_one hpc hfree
    · simp only [hpc] at hvars
      exact absurd (hvars.2 hinit).1 (by simp)
  · have harrived := h.arrived.1
    have hall := hinv.arrived
    simp only
    omega
  · have hall : s.shared.arrived = s.one.pc.arrivals + s.zero.pc.arrivals :=
      hinv.arrived.trans (Nat.add_comm _ _)
    rintro (hzero | hw)
    · exact h.started hall s.zero.pc.arrivals_le (fun hone => hinv.started (Or.inr hone))
        (Or.inr (hinv.started (Or.inl hzero)))
    · exact h.started hall s.zero.pc.arrivals_le (fun hone => hinv.started (Or.inr hone))
        (Or.inl hw)
  · refine h.alternates (c := fun l => (s.zero.turn k + 2) / 3 + (l + 1) / 3) hinv.lines ?_ ?_
    · intro hbody hnext
      rw [nextMtxId] at hnext
      have hkl := hinv.inOne (by simp [hbody, PrintPc.inTurn])
      have hzero : s.zero.turn k = k := hinv.turn_zero_eq hkl
      simp only [hbody] at hvars
      simp only [hzero, PrintThread.id]
      omega
    · intro hbody hnext
      rw [nextMtxId] at hnext
      have hmod : l % 3 = 0 ∨ l % 3 = 2 := by omega
      rcases hmod with hmod | hmod <;> omega

theorem PrintInv.free {x : ℕ} (hinv : PrintInv n s k l) (hzero : ¬s.zero.Holds x)
    (hone : ¬s.one.Holds x) : s.shared.mtxes x = none := by
  cases hx : s.shared.mtxes x with
  | none => rfl
  | some holder =>
      cases holder with
      | zero => exact absurd ((hinv.heldZero x).mp hx) hzero
      | one => exact absurd ((hinv.heldOne x).mp hx) hone

/-- The thread `0` goes on if it does not want a mutex of the other one. -/
theorem PrintInv.zero_moves (hinv : PrintInv n s k l) (hdone : s.zero.pc ≠ .done)
    (hbarrier : s.zero.pc = .barrier → s.shared.arrived = 2)
    (hwants : ∀ x, s.zero.Wants x → ¬s.one.Holds x) :
    ∃ t w m, s.outcome n t = .moved w m :=
  ⟨.zero, PrintWorker.At.moves hinv.zero hinv.heldZero hdone hbarrier fun x hx =>
    hinv.free (hinv.zero.not_holds (by simp) hx).2 (hwants x hx)⟩

theorem PrintInv.one_moves (hinv : PrintInv n s k l) (hdone : s.one.pc ≠ .done)
    (hbarrier : s.one.pc = .barrier → s.shared.arrived = 2)
    (hwants : ∀ x, s.one.Wants x → ¬s.zero.Holds x) :
    ∃ t w m, s.outcome n t = .moved w m :=
  ⟨.one, PrintWorker.At.moves hinv.one hinv.heldOne hdone hbarrier fun x hx =>
    hinv.free (hwants x hx) (hinv.one.not_holds (by simp) hx).2⟩

theorem PrintInv.moves_before (hinv : PrintInv n s k l)
    (hbefore : s.zero.pc.started = false ∧ s.one.pc.started = false)
    (harrived : s.zero.pc.arrivals = 0 ∨ s.one.pc.arrivals = 0) :
    ∃ t w m, s.outcome n t = .moved w m := by
  obtain ⟨hmtx, _, hvars⟩ := hinv.zero
  obtain ⟨hmtx', _, hvars'⟩ := hinv.one
  by_cases hzero : s.zero.pc.arrivals = 0
  · refine hinv.zero_moves ?_ ?_ fun x hwants hholds => ?_
    · intro hpc
      simp [hpc, PrintPc.arrivals] at hzero
    · intro hpc
      simp [hpc, PrintPc.arrivals] at hzero
    · cases hpc : s.zero.pc <;> cases hpc' : s.one.pc <;>
        simp_all [PrintPc.started, PrintPc.arrivals, PrintWorker.Wants, PrintWorker.Holds]
  · refine hinv.one_moves ?_ ?_ fun x hwants hholds => ?_
    · intro hpc
      simp [hpc, PrintPc.started] at hbefore
    · intro hpc
      have hone := harrived.resolve_left hzero
      simp [hpc, PrintPc.arrivals] at hone
    · cases hpc : s.zero.pc <;> cases hpc' : s.one.pc <;>
        simp_all [PrintPc.started, PrintPc.arrivals, PrintWorker.Wants, PrintWorker.Holds]

/-- After the barrier, a thread that has to wait for the other one is not waited for. -/
theorem PrintInv.moves_after (hinv : PrintInv n s k l)
    (harrived : s.zero.pc.arrivals = 1 ∧ s.one.pc.arrivals = 1)
    (hdone : s.zero.pc ≠ .done ∨ s.one.pc ≠ .done) : ∃ t w m, s.outcome n t = .moved w m := by
  obtain ⟨hmtx, _, hvars⟩ := hinv.zero
  obtain ⟨hmtx', _, hvars'⟩ := hinv.one
  have hturns := hinv.turns
  have htwo : s.shared.arrived = 2 := by
    rw [hinv.arrived]
    omega
  have hlock : ∀ {w : PrintWorker} {x : ℕ}, w.pc.arrivals = 1 → w.Wants x →
      w.pc = .lock ∧ x = nextMtxId w.mtxId := by
    intro w x hw hwants
    cases hpc : w.pc <;> simp_all [PrintPc.arrivals, PrintWorker.Wants]
  by_cases hzero : s.zero.pc = .done
  · -- the thread `0` has kept a mutex only if there is nothing to print
    refine hinv.one_moves (hdone.resolve_left (not_not.mpr hzero)) (fun _ => htwo)
      fun x hwants hholds => ?_
    obtain ⟨hpc, _⟩ := hlock harrived.2 hwants
    simp only [PrintWorker.Holds, hzero] at hholds
    simp only [hzero] at hvars
    simp only [hpc] at hvars'
    have hk := (hvars.2.2 hholds.1).2
    omega
  by_cases hwants : ∀ x, s.zero.Wants x → ¬s.one.Holds x
  · exact hinv.zero_moves hzero (fun _ => htwo) hwants
  · simp only [not_forall, not_not] at hwants
    obtain ⟨x, hwants, hholds⟩ := hwants
    obtain ⟨hpc, rfl⟩ := hlock harrived.1 hwants
    refine hinv.one_moves ?_ (fun _ => htwo) fun y hwants' hholds' => ?_
    · intro hpc'
      simp only [PrintWorker.Holds, hpc'] at hholds
      simp only [hpc'] at hvars'
      exact absurd (hvars'.2.2 hholds.1).1 (by simp)
    · obtain ⟨hpc', rfl⟩ := hlock harrived.2 hwants'
      simp only [PrintWorker.Holds, hpc, hpc', nextMtxId] at hholds hholds'
      omega

/-- As long as a thread is not done, some thread can go on. -/
theorem PrintInv.moves (hinv : PrintInv n s k l) (hdone : s.zero.pc ≠ .done ∨ s.one.pc ≠ .done) :
    ∃ t w m, s.outcome n t = .moved w m := by
  by_cases harrived : s.zero.pc.arrivals = 1 ∧ s.one.pc.arrivals = 1
  · exact hinv.moves_after harrived hdone
  · have hzero := s.zero.pc.arrivals_le
    have hone := s.one.pc.arrivals_le
    refine hinv.moves_before ⟨?_, ?_⟩ (by omega)
    · rw [Bool.eq_false_iff]
      exact fun hstarted => harrived (hinv.arrivals (Or.inl hstarted))
    · rw [Bool.eq_false_iff]
      exact fun hstarted => harrived (hinv.arrivals (Or.inr hstarted))

theorem PrintInv.of_init (hinit : s.Init) : PrintInv n s 0 0 := by
  obtain rfl := hinit
  refine ⟨?_, ?_, ?_, ?_, ?_, ?_, ?_, ?_, ?_, ?_⟩
  all_goals simp [Interprint.new, PrintWorker.At, PrintShared.HeldBy, PrintWorker.Holds,
    PrintPc.inTurn, PrintPc.arrivals, PrintPc.started, PrintWorker.turn, alternateLines]

theorem PrintInv.step (hinv : PrintInv n s k l) (h : s.Step n t s') :
    ∃ k' l', PrintInv n s' k' l' ∧
      s.zero.position k + s.one.position l < s'.zero.position k' + s'.one.position l' := by
  simp only [Interprint.Step, Interprint.exec] at h
  split at h
  · rename_i w m hmoved
    rw [← Option.some.inj h]
    cases t with
    | zero =>
        have hmove := printLoop_moved hmoved
        exact ⟨_, l, hinv.step_zero hmove, Nat.add_lt_add_right (hmove.position k) _⟩
    | one =>
        have hmove := printLoop_moved hmoved
        exact ⟨k, _, hinv.step_one hmove, Nat.add_lt_add_left (hmove.position l) _⟩
  · simp at h

theorem PrintInv.of_run (hrun : Lts.Run Interprint.Init (Interprint.Step n) hist s) :
    ∃ k l, PrintInv n s k l ∧ hist.length ≤ s.zero.position k + s.one.position l := by
  refine Lts.Run.invariant
    (I := fun hist s => ∃ k l, PrintInv n s k l ∧
      hist.length ≤ s.zero.position k + s.one.position l) hrun ?_ ?_
  · exact fun s hinit => ⟨0, 0, .of_init hinit, Nat.zero_le _⟩
  · intro hist s t s' hinv hstep
    obtain ⟨k, l, hinv, hle⟩ := hinv
    obtain ⟨k', l', hinv', hlt⟩ := hinv.step hstep
    refine ⟨k', l', hinv', ?_⟩
    rw [List.length_append, List.length_singleton]
    omega

theorem PrintInv.count (hinv : PrintInv n s k l) :
    (s.zero.turn k + 2) / 3 + (s.one.turn l + 1) / 3 ≤ n ∧
      (s.zero.pc = .done → s.one.pc = .done →
        (s.zero.turn k + 2) / 3 + (s.one.turn l + 1) / 3 = n) := by
  obtain ⟨_, hbound, hvars⟩ := hinv.zero
  obtain ⟨_, hbound', hvars'⟩ := hinv.one
  have hzero : 2 * s.zero.turn k < 3 * n + 2 := by
    by_cases hpc : s.zero.pc = .unlock
    · simp only [hpc] at hvars
      simp only [PrintWorker.turn, hpc, if_true]
      omega
    · rwa [PrintWorker.turn_eq hpc]
  have hone : 2 * s.one.turn l + 1 < 3 * n + 2 := by
    by_cases hpc : s.one.pc = .unlock
    · simp only [hpc] at hvars'
      simp only [PrintWorker.turn, hpc, if_true]
      omega
    · rwa [PrintWorker.turn_eq hpc]
  have hparity : n % 2 = 0 ∨ n % 2 = 1 := by omega
  refine ⟨by rcases hparity with hparity | hparity <;> omega, fun hpc hpc' => ?_⟩
  simp only [hpc] at hvars
  simp only [hpc'] at hvars'
  rw [PrintWorker.turn_eq (by simp [hpc]), PrintWorker.turn_eq (by simp [hpc'])]
  rcases hparity with hparity | hparity
  · have hk : k = 3 * (n / 2) := by omega
    have hl : l = 3 * (n / 2) := by omega
    omega
  · have hk : k = 3 * (n / 2) + 2 := by omega
    have hl : l = 3 * (n / 2) + 1 := by omega
    omega

/-- What is promised of the two threads: they print the lines in turn, and all of them until they
are done; no lock or unlock fails; and while a thread is not done, one of them can go on. -/
structure PrintSound (n : ℕ) (s : Interprint) : Prop where
  lines : ∃ count ≤ n, s.shared.lines = alternateLines count
  complete : s.zero.pc = .done → s.one.pc = .done → s.shared.lines = alternateLines n
  succeeds : ∀ t, s.outcome n t ≠ .failed
  progress : s.zero.pc ≠ .done ∨ s.one.pc ≠ .done → ∃ t s', s.Step n t s'

/-- The lines are printed in turn in every run, and no run is longer than `12 * n + 18` steps. -/
theorem printSound_of_run (hrun : Lts.Run Interprint.Init (Interprint.Step n) hist s) :
    PrintSound n s ∧ hist.length ≤ 12 * n + 18 := by
  obtain ⟨k, l, hinv, hlength⟩ := PrintInv.of_run hrun
  obtain ⟨hcount, hcomplete⟩ := hinv.count
  refine ⟨⟨⟨_, hcount, hinv.lines⟩, fun hzero hone => ?_, fun t => ?_, fun hdone => ?_⟩, ?_⟩
  · rw [hinv.lines, hcomplete hzero hone]
  · cases t with
    | zero => exact PrintWorker.At.not_failed hinv.zero hinv.heldZero
    | one => exact PrintWorker.At.not_failed hinv.one hinv.heldOne
  · obtain ⟨t, w, m, hmoved⟩ := hinv.moves hdone
    exact ⟨t, s.put t w m, by simp [Interprint.Step, Interprint.exec, hmoved]⟩
  · have hzero := s.zero.position_le k
    have hone := s.one.position_le l
    have hbound := hinv.zero.2.1
    have hbound' := hinv.one.2.1
    omega

/-- Two lines, in a run in which the thread `0` goes on as long as it can. -/
theorem printSound_two_lines : ∃ s,
    Lts.Run Interprint.Init (Interprint.Step 2)
      ([(.zero, 3), (.one, 2), (.zero, 5), (.one, 5), (.zero, 4), (.one, 4), (.zero, 5),
        (.one, 6)].flatMap fun p : PrintThread × ℕ => .replicate p.2 p.1) s ∧
    s.zero.pc = .done ∧ s.one.pc = .done ∧ s.shared.lines = [(0, 0), (1, 1)] ∧
    PrintSound 2 s := by
  have hinit : Interprint.new.Init := rfl
  obtain ⟨s, hrun, hzero, hone, hlines⟩ := Lts.exists_run (Interprint.exec 2)
    ([(.zero, 3), (.one, 2), (.zero, 5), (.one, 5), (.zero, 4), (.one, 4), (.zero, 5),
      (.one, 6)].flatMap fun p : PrintThread × ℕ => .replicate p.2 p.1)
    (fun s => s.zero.pc = .done ∧ s.one.pc = .done ∧ s.shared.lines = [(0, 0), (1, 1)]) hinit
    (by decide +kernel)
  exact ⟨s, hrun, hzero, hone, hlines, (printSound_of_run hrun).1⟩

end Threads

end PosixThreads
