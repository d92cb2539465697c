import Mathlib.Algebra.Order.Ring.Int
import Mathlib.Algebra.Order.Ring.Nat
import PosixThreads.Common.Error
import PosixThreads.Library.Threads

/-!
# Shared ownership

An arc has an object and an atomic counter. Every thread may share, use and free the references
that it has, and hand them over to another thread. The steps of `free` are the decrement, the look
at what it has returned, the callback and the `free` of the arc itself, so that the threads can come
between them.

A call is `none` if it fails an assertion or uses what has been freed.
-/

namespace PosixThreads

/-- `ref_count`, whether the arc is still allocated, how often `ARC_FREE_CB` has been called for its
object, and the references that are handed over at the moment.

The counter is an `atomic_long`. It counts references, and whoever has one keeps a pointer of eight
bytes, so that there is no room for as many as would make it wrap around. -/
structure Arc where
  refCount : ℤ
  allocated : Bool
  freeCbs : ℕ
  passed : ℕ
  deriving DecidableEq, Repr

/-- Where a thread is in `free`: nowhere, or behind the decrement, or in front of one of the two
calls. -/
inductive ArcCall
  | idle
  | decremented (refCount : ℤ)
  | callback
  | deallocation
  deriving DecidableEq, Repr

structure ArcUser where
  refs : ℕ
  call : ArcCall
  deriving DecidableEq, Repr

inductive ArcOp
  | share
  | get
  | free
  | go
  | give
  | take
  deriving DecidableEq, Repr

namespace Arc

/-- A thread uses the references that it has, one call after the other. -/
def Allowed (s : Arc) (u : ArcUser) : ArcOp → Prop
  | .share | .get | .free | .give => u.call = .idle ∧ 0 < u.refs
  | .take => u.call = .idle ∧ 0 < s.passed
  | .go => u.call ≠ .idle

instance (s : Arc) (u : ArcUser) (op : ArcOp) : Decidable (s.Allowed u op) := by
  cases op <;> unfold Allowed <;> infer_instance

/-- `free` behind the decrement. -/
def finishFree (s : Arc) : ArcCall → Option (Arc × ArcCall)
  | .idle => none
  | .decremented refCount =>
      if refCount > 1 then some (s, .idle)
      else do
        assertThat (refCount = 1)
        return (s, .callback)
  | .callback => do
      assertThat (s.allocated && s.freeCbs = 0)
      return ({ s with freeCbs := s.freeCbs + 1 }, .deallocation)
  | .deallocation => do
      assertThat s.allocated
      return ({ s with allocated := false }, .idle)

/-- `share`, `get` and `free`, and handing over a reference. The object that `get` returns must not
have been freed. -/
def call (s : Arc) (u : ArcUser) : ArcOp → Option (Arc × ArcUser)
  | .share => do
      assertThat (s.allocated && s.refCount ≥ 1)
      return ({ s with refCount := s.refCount + 1 }, { u with refs := u.refs + 1 })
  | .get => do
      assertThat (s.allocated && s.refCount > 0 && s.freeCbs = 0)
      return (s, u)
  | .free => do
      assertThat s.allocated
      return ({ s with refCount := s.refCount - 1 }, ⟨u.refs - 1, .decremented s.refCount⟩)
  | .go => (s.finishFree u.call).map fun (s, call) => (s, { u with call := call })
  | .give => some ({ s with passed := s.passed + 1 }, { u with refs := u.refs - 1 })
  | .take => some ({ s with passed := s.passed - 1 }, { u with refs := u.refs + 1 })

end Arc

variable {T : Type}

def arcStep (_ : T) (s : Arc) (u : ArcUser) (op : ArcOp) : Option (Arc × ArcUser) :=
  if s.Allowed u op then s.call u op else none

abbrev ArcConfig (T : Type) := Threads.Config T Arc ArcUser

/-- `new` has returned to one of the threads. -/
def ArcInit (s : ArcConfig T) : Prop :=
  ∃ t, s.shared = ⟨1, true, 0, 0⟩ ∧ (s.pc t).refs = 1 ∧ (∀ u, u ≠ t → (s.pc u).refs = 0) ∧
    ∀ u, (s.pc u).call = .idle

abbrev ArcRun (T : Type) [DecidableEq T] : List (T × ArcOp) → ArcConfig T → Prop :=
  Threads.Run ArcInit arcStep

/-! ## What is conserved -/

def ArcCall.last : ArcCall → ℕ
  | .decremented refCount => if refCount = 1 then 1 else 0
  | .callback => 1
  | .deallocation => 1
  | .idle => 0

def ArcCall.calls : ArcCall → ℕ
  | .decremented refCount => if refCount = 1 then 1 else 0
  | .callback => 1
  | _ => 0

namespace Arc

def counted (s : Arc) : ℕ := if 0 < s.refCount then 1 else 0

def gone (s : Arc) : ℕ := if s.allocated then 0 else 1

end Arc

/-- The counter counts the references. There are some, or one thread has dropped the last one, or
the arc is gone; and there are some, or one thread is going to free the object, or it has been
freed. -/
structure ArcInv [Fintype T] (s : ArcConfig T) : Prop where
  refs : (s.shared.passed : ℤ) + ∑ t, ((s.pc t).refs : ℤ) = s.shared.refCount
  arc : s.shared.counted + s.shared.gone + ∑ t, (s.pc t).call.last = 1
  object : s.shared.counted + s.shared.freeCbs + ∑ t, (s.pc t).call.calls = 1
  decremented : ∀ t refCount, (s.pc t).call = .decremented refCount → 1 ≤ refCount

namespace ArcInv

variable [Fintype T] {s : ArcConfig T} {t : T}

theorem refs_le (h : ArcInv s) : ((s.pc t).refs : ℤ) ≤ s.shared.refCount := by
  have hle : ((s.pc t).refs : ℤ) ≤ ∑ u, ((s.pc u).refs : ℤ) :=
    Finset.single_le_sum (f := fun u => ((s.pc u).refs : ℤ)) (fun u _ => Int.natCast_nonneg _)
      (Finset.mem_univ t)
  have hrefs := h.refs
  omega

theorem of_counted (h : ArcInv s) (hpos : 0 < s.shared.refCount) :
    s.shared.allocated = true ∧ s.shared.freeCbs = 0 := by
  have harc := h.arc
  have hobject := h.object
  have hcounted : s.shared.counted = 1 := if_pos hpos
  refine ⟨?_, by omega⟩
  by_contra hallocated
  have hgone : s.shared.gone = 1 := if_neg hallocated
  omega

theorem of_last (h : ArcInv s) (hlast : (s.pc t).call.last = 1) : s.shared.allocated = true := by
  have hle := Threads.le_sum (fun _ u => ArcCall.last (ArcUser.call u)) s.pc t
  have harc := h.arc
  by_contra hallocated
  have hgone : s.shared.gone = 1 := if_neg hallocated
  omega

theorem of_calls (h : ArcInv s) (hcalls : (s.pc t).call.calls = 1) : s.shared.freeCbs = 0 := by
  have hle := Threads.le_sum (fun _ u => ArcCall.calls (ArcUser.call u)) s.pc t
  have hobject := h.object
  omega

/-- No assertion fails, and nothing is used that has been freed. -/
theorem call_isSome (h : ArcInv s) {op : ArcOp} (hallowed : s.shared.Allowed (s.pc t) op) :
    ∃ r, s.shared.call (s.pc t) op = some r := by
  have hpos : 0 < (s.pc t).refs → 0 < s.shared.refCount := by
    intro hrefs
    have := h.refs_le (t := t)
    omega
  cases op with
  | share =>
      have hcount := hpos hallowed.2
      obtain ⟨hallocated, -⟩ := h.of_counted hcount
      have hone : 1 ≤ s.shared.refCount := hcount
      exact ⟨_, by simp [Arc.call, hallocated, hone]; rfl⟩
  | get =>
      have hcount := hpos hallowed.2
      obtain ⟨hallocated, hfree⟩ := h.of_counted hcount
      exact ⟨_, by simp [Arc.call, hallocated, hcount, hfree]; rfl⟩
  | free =>
      obtain ⟨hallocated, -⟩ := h.of_counted (hpos hallowed.2)
      exact ⟨_, by simp [Arc.call, hallocated]; rfl⟩
  | give | take => exact ⟨_, rfl⟩
  | go =>
      have hfinish : ∃ r, s.shared.finishFree (s.pc t).call = some r := by
        cases hcall : (s.pc t).call with
        | idle => exact absurd hcall hallowed
        | decremented refCount =>
            have hone := h.decremented t refCount hcall
            by_cases hmore : refCount > 1
            · exact ⟨_, if_pos hmore⟩
            · have heq : refCount = 1 := by omega
              exact ⟨_, by simp [Arc.finishFree, heq]; rfl⟩
        | callback =>
            have hallocated := h.of_last (t := t) (by rw [hcall]; rfl)
            have hfree := h.of_calls (t := t) (by rw [hcall]; rfl)
            exact ⟨_, by simp [Arc.finishFree, hallocated, hfree]; rfl⟩
        | deallocation =>
            have hallocated := h.of_last (t := t) (by rw [hcall]; rfl)
            exact ⟨_, by simp [Arc.finishFree, hallocated]; rfl⟩
      obtain ⟨r, hr⟩ := hfinish
      exact ⟨_, by rw [Arc.call, hr]; rfl⟩

end ArcInv

structure ArcMoves (s : Arc) (u : ArcUser) (s' : Arc) (u' : ArcUser) : Prop where
  refs : (s'.passed : ℤ) + u'.refs + s.refCount = s.passed + u.refs + s'.refCount
  arc : s'.counted + s'.gone + u'.call.last + 1 = s.counted + s.gone + u.call.last + 1
  object : s'.counted + s'.freeCbs + u'.call.calls + 1 = s.counted + s.freeCbs + u.call.calls + 1
  decremented : ∀ refCount, u'.call = .decremented refCount → 1 ≤ refCount

section Call

variable {s s' : Arc} {u u' : ArcUser} {op : ArcOp}

theorem Arc.counted_eq_one (h : 0 < s.refCount) : s.counted = 1 := if_pos h

theorem Arc.counted_decrement (h : 0 < s.refCount) :
    Arc.counted { s with refCount := s.refCount - 1 } + (if s.refCount = 1 then 1 else 0) =
      s.counted := by
  simp only [Arc.counted, if_pos h]
  split <;> split <;> omega

theorem Arc.finishFree_moves {call : ArcCall} (h : s.finishFree u.call = some (s', call)) :
    ArcMoves s u s' { u with call := call } := by
  obtain ⟨refs, place⟩ := u
  cases place with
  | idle => cases h
  | decremented refCount =>
      simp only [Arc.finishFree] at h
      split at h
      · rename_i hmore
        cases h
        have hne : refCount ≠ 1 := by omega
        exact ⟨rfl, by simp [ArcCall.last, hne], by simp [ArcCall.calls, hne], by simp⟩
      · simp only [Option.bind_eq_bind, Option.bind_eq_some_iff, assertThat_eq_some_iff,
          decide_eq_true_eq, Option.pure_def, Option.some.injEq, Prod.mk.injEq] at h
        obtain ⟨-, heq, rfl, rfl⟩ := h
        exact ⟨rfl, by simp [ArcCall.last, heq], by simp [ArcCall.calls, heq], by simp⟩
  | callback =>
      simp only [Arc.finishFree, Option.bind_eq_bind, Option.bind_eq_some_iff,
        assertThat_eq_some_iff, Option.pure_def, Option.some.injEq, Prod.mk.injEq] at h
      obtain ⟨-, -, rfl, rfl⟩ := h
      exact ⟨rfl, rfl, by simp [ArcCall.calls, Arc.counted]; omega, by simp⟩
  | deallocation =>
      simp only [Arc.finishFree, Option.bind_eq_bind, Option.bind_eq_some_iff,
        assertThat_eq_some_iff, Option.pure_def, Option.some.injEq, Prod.mk.injEq] at h
      obtain ⟨-, hallocated, rfl, rfl⟩ := h
      exact ⟨rfl, by simp [ArcCall.last, Arc.counted, Arc.gone, hallocated], rfl, by simp⟩

theorem Arc.call_moves (h : s.call u op = some (s', u')) (hallowed : s.Allowed u op)
    (hrefs : (u.refs : ℤ) ≤ s.refCount) : ArcMoves s u s' u' := by
  obtain ⟨refs, place⟩ := u
  cases op with
  | share =>
      obtain ⟨rfl, hpos⟩ := hallowed
      simp only [Arc.call, Option.bind_eq_bind, Option.bind_eq_some_iff, Option.pure_def,
        Option.some.injEq, Prod.mk.injEq] at h
      obtain ⟨-, -, rfl, rfl⟩ := h
      have hcount : 0 < s.refCount := by simp only at hrefs hpos; omega
      have hcounted := Arc.counted_eq_one hcount
      have hcounted' : Arc.counted { s with refCount := s.refCount + 1 } = 1 :=
        Arc.counted_eq_one (by simp only; omega)
      refine ⟨?_, ?_, ?_, by simp⟩
      · push_cast
        omega
      · rw [hcounted, hcounted']
        rfl
      · rw [hcounted, hcounted']
  | get =>
      simp only [Arc.call, Option.bind_eq_bind, Option.bind_eq_some_iff, Option.pure_def,
        Option.some.injEq, Prod.mk.injEq] at h
      obtain ⟨-, -, rfl, rfl⟩ := h
      obtain ⟨rfl, -⟩ := hallowed
      exact ⟨rfl, rfl, rfl, by simp⟩
  | free =>
      obtain ⟨rfl, hpos⟩ := hallowed
      simp only [Arc.call, Option.bind_eq_bind, Option.bind_eq_some_iff, Option.pure_def,
        Option.some.injEq, Prod.mk.injEq] at h
      obtain ⟨-, -, rfl, rfl⟩ := h
      simp only at hrefs hpos
      have hcounted := Arc.counted_decrement (s := s) (by omega)
      have hgone : Arc.gone { s with refCount := s.refCount - 1 } = s.gone := rfl
      refine ⟨by simp only; omega, ?_, ?_, fun refCount hcall => ?_⟩
      · simp only [ArcCall.last, hgone]
        omega
      · simp only [ArcCall.calls]
        omega
      · cases hcall
        omega
  | give =>
      obtain ⟨rfl, hpos⟩ := hallowed
      cases h
      refine ⟨?_, rfl, rfl, by simp⟩
      simp only at hpos ⊢
      omega
  | take =>
      obtain ⟨rfl, hpos⟩ := hallowed
      cases h
      refine ⟨?_, rfl, rfl, by simp⟩
      simp only
      omega
  | go =>
      obtain ⟨⟨s₁, call⟩, hfinish, heq⟩ := Option.map_eq_some_iff.mp h
      cases heq
      exact Arc.finishFree_moves hfinish

end Call

/-! ## Every run -/

section Run

variable [DecidableEq T] [Fintype T] {hist : List (T × ArcOp)} {s : ArcConfig T}

omit [DecidableEq T] in
theorem ArcInv.start (h : ArcInit s) : ArcInv s := by
  obtain ⟨t, hshared, hrefs, hothers, hidle⟩ := h
  have hlast : ∀ u, (s.pc u).call.last = 0 := fun u => by rw [hidle u]; rfl
  have hcalls : ∀ u, (s.pc u).call.calls = 0 := fun u => by rw [hidle u]; rfl
  refine ⟨?_, by simp [hshared, hlast, Arc.counted, Arc.gone],
    by simp [hshared, hcalls, Arc.counted], fun u refCount hcall => ?_⟩
  · rw [Finset.sum_eq_single t (fun u _ hu => by rw [hothers u hu]; rfl) (by simp), hrefs, hshared]
    rfl
  · rw [hidle u] at hcall
    cases hcall

theorem ArcInv.step {label : T × ArcOp} {s' : ArcConfig T} (h : ArcInv s)
    (hstep : Threads.move arcStep s label = some s') : ArcInv s' := by
  obtain ⟨sh, u, hmove, rfl⟩ := Threads.move_eq_some.mp hstep
  rw [arcStep] at hmove
  split at hmove
  · rename_i hallowed
    have hmoves := Arc.call_moves hmove hallowed h.refs_le
    refine ⟨?_, ?_, ?_, fun t refCount hcall => ?_⟩
    · exact Threads.balance (fun _ u => ((ArcUser.refs u : ℕ) : ℤ)) s.pc label.1 u h.refs
        hmoves.refs
    · exact Threads.balance (fun _ u => ArcCall.last (ArcUser.call u)) s.pc label.1 u h.arc
        hmoves.arc
    · exact Threads.balance (fun _ u => ArcCall.calls (ArcUser.call u)) s.pc label.1 u h.object
        hmoves.object
    · by_cases ht : t = label.1
      · simp only [ht, Function.update_self] at hcall
        exact hmoves.decremented refCount hcall
      · simp only [Function.update_of_ne ht] at hcall
        exact h.decremented t refCount hcall
  · cases hmove

theorem arcInv_of_run (hrun : ArcRun T hist s) : ArcInv s :=
  hrun.invariant (I := fun _ s => ArcInv s) (fun _ => .start) fun _ _ _ _ h hstep => h.step hstep

/-- Whatever the threads do with their references, no assertion fails and nothing is used after it
has been freed. The counter is the number of references. As long as there are any the object lives,
it is freed at most once, and in the end object and arc have been freed. -/
theorem arcRun_sound (hrun : ArcRun T hist s) :
    (∀ t op, s.shared.Allowed (s.pc t) op → ∃ r, s.shared.call (s.pc t) op = some r) ∧
      (s.shared.passed : ℤ) + ∑ t, ((s.pc t).refs : ℤ) = s.shared.refCount ∧
      (0 < s.shared.refCount → s.shared.allocated = true ∧ s.shared.freeCbs = 0) ∧
      s.shared.freeCbs ≤ 1 ∧
      (s.shared.refCount = 0 → (∀ t, (s.pc t).call = .idle) →
        s.shared.allocated = false ∧ s.shared.freeCbs = 1) := by
  have h := arcInv_of_run hrun
  refine ⟨fun t op => h.call_isSome, h.refs, h.of_counted, ?_, fun hcount hidle => ?_⟩
  · have := h.object
    omega
  · have hlast : ∑ t, (s.pc t).call.last = 0 :=
      Finset.sum_eq_zero fun t _ => by rw [hidle t]; rfl
    have hcalls : ∑ t, (s.pc t).call.calls = 0 :=
      Finset.sum_eq_zero fun t _ => by rw [hidle t]; rfl
    have hcounted : s.shared.counted = 0 := if_neg (by omega)
    have harc := h.arc
    have hobject := h.object
    refine ⟨?_, by omega⟩
    by_contra hallocated
    have hgone : s.shared.gone = 0 := if_pos (by simpa using hallocated)
    omega

/-- A reference is handed over, and both threads free theirs at the same time. -/
def freeTogether : List (Fin 2 × ArcOp) :=
  [(0, .share), (0, .give), (1, .take), (1, .get), (0, .free), (1, .free), (0, .go), (1, .go),
    (1, .go), (1, .go)]

theorem arcRun_sound_freeTogether : ∃ s, ArcRun (Fin 2) freeTogether s ∧
    s.shared = ⟨0, false, 1, 0⟩ ∧
    (∀ t op, s.shared.Allowed (s.pc t) op → ∃ r, s.shared.call (s.pc t) op = some r) ∧
      (s.shared.passed : ℤ) + ∑ t, ((s.pc t).refs : ℤ) = s.shared.refCount ∧
      (0 < s.shared.refCount → s.shared.allocated = true ∧ s.shared.freeCbs = 0) ∧
      s.shared.freeCbs ≤ 1 ∧
      (s.shared.refCount = 0 → (∀ t, (s.pc t).call = .idle) →
        s.shared.allocated = false ∧ s.shared.freeCbs = 1) := by
  have hinit : ArcInit (T := Fin 2) ⟨⟨1, true, 0, 0⟩, fun t => ⟨if t = 0 then 1 else 0, .idle⟩⟩ :=
    ⟨0, rfl, rfl, by decide, fun _ => rfl⟩
  obtain ⟨s, hrun, hend⟩ := Lts.exists_run (Threads.move arcStep) freeTogether
    (fun s => s.shared = ⟨0, false, 1, 0⟩) hinit (by decide +kernel)
  exact ⟨s, hrun, hend, arcRun_sound hrun⟩

end Run

end PosixThreads
