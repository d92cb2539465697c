import Mathlib.Algebra.BigOperators.Group.Finset.Basic
import Mathlib.Algebra.Order.BigOperators.Group.Finset
import Mathlib.Data.Fintype.BigOperators
import PosixThreads.Library.Lts

/-!
# Threads

A system of threads has a state that they share, and each thread has a place of its own in the
program. A step is one of one thread: it reads and writes the shared state and its own place, or it
is blocked. Labels say which thread moves, and what else is left open.

What is counted over all threads changes by what it changes for the thread that moves
(`sum_update`, `balance`). If some measure goes down with every step, runs are bounded, and if
besides not everybody is blocked before the end, every run can be completed.
-/

namespace Threads

variable {T S P ℓ M : Type*}

structure Config (T S P : Type*) where
  shared : S
  pc : T → P

variable [DecidableEq T]

def move (f : T → S → P → ℓ → Option (S × P)) (s : Config T S P) (label : T × ℓ) :
    Option (Config T S P) :=
  (f label.1 s.shared (s.pc label.1) label.2).map fun r =>
    ⟨r.1, Function.update s.pc label.1 r.2⟩

theorem move_eq_some {f : T → S → P → ℓ → Option (S × P)} {s s' : Config T S P} {label : T × ℓ} :
    move f s label = some s' ↔ ∃ sh p, f label.1 s.shared (s.pc label.1) label.2 = some (sh, p) ∧
      s' = ⟨sh, Function.update s.pc label.1 p⟩ := by
  rw [move, Option.map_eq_some_iff]
  constructor
  · rintro ⟨r, hr, rfl⟩
    exact ⟨r.1, r.2, hr, rfl⟩
  · rintro ⟨sh, p, hf, rfl⟩
    exact ⟨(sh, p), hf, rfl⟩

/-- If no thread can move, each of them is blocked. -/
theorem eq_none_of_blocked {f : T → S → P → ℓ → Option (S × P)} {s : Config T S P}
    (h : ¬∃ label s', move f s label = some s') (t : T) (a : ℓ) :
    f t s.shared (s.pc t) a = none :=
  Option.eq_none_iff_forall_ne_some.mpr fun r hr =>
    h ⟨(t, a), _, move_eq_some.mpr ⟨r.1, r.2, hr, rfl⟩⟩

abbrev Run (init : Config T S P → Prop) (f : T → S → P → ℓ → Option (S × P)) :
    List (T × ℓ) → Config T S P → Prop :=
  Lts.Run init fun s label s' => move f s label = some s'

/-- A step changes a predicate of the places only at the thread that moves. -/
theorem update_comp {β : Type*} (g : T → P → β) (pc : T → P) (t : T) (p : P) :
    (fun u => g u (Function.update pc t p u)) =
      Function.update (fun u => g u (pc u)) t (g t p) := by
  funext u
  by_cases hu : u = t
  · rw [hu, Function.update_self, Function.update_self]
  · rw [Function.update_of_ne hu, Function.update_of_ne hu]

section Sums

variable [Fintype T]

/-- What is counted over all threads changes by what it changes for one of them. -/
theorem sum_update [AddCommMonoid M] (g : T → P → M) (pc : T → P) (t : T) (p : P) :
    ∑ u, g u (Function.update pc t p u) + g t (pc t) = ∑ u, g u (pc u) + g t p := by
  have hsum := Finset.add_sum_erase Finset.univ (fun u => g u (pc u)) (Finset.mem_univ t)
  rw [update_comp, Finset.sum_update_of_mem (Finset.mem_univ t), Finset.sdiff_singleton_eq_erase,
    ← hsum]
  ac_rfl

/-- The rule for what is conserved: if the thread that moves keeps a balance of what is shared and
of what it counts itself, the balance with what all threads count is kept. -/
theorem balance [AddCancelCommMonoid M] {a b a' b' : M} (g : T → P → M) (pc : T → P) (t : T)
    (p : P) (hsum : a + ∑ u, g u (pc u) = b) (hstep : a' + g t p + b = a + g t (pc t) + b') :
    a' + ∑ u, g u (Function.update pc t p u) = b' := by
  have hmove := sum_update g pc t p
  refine add_right_cancel (b := g t (pc t) + b) ?_
  calc a' + ∑ u, g u (Function.update pc t p u) + (g t (pc t) + b)
      = a' + (∑ u, g u (Function.update pc t p u) + g t (pc t)) + b := by ac_rfl
    _ = (a' + g t p + b) + ∑ u, g u (pc u) := by rw [hmove]; ac_rfl
    _ = (a + ∑ u, g u (pc u)) + g t (pc t) + b' := by rw [hstep]; ac_rfl
    _ = b' + (g t (pc t) + b) := by rw [hsum]; ac_rfl

omit [DecidableEq T] in
theorem le_sum (g : T → P → ℕ) (pc : T → P) (t : T) : g t (pc t) ≤ ∑ u, g u (pc u) :=
  Finset.single_le_sum (fun u _ => Nat.zero_le (g u (pc u))) (Finset.mem_univ t)

theorem add_le_sum (g : T → P → ℕ) (pc : T → P) {t u : T} (htu : t ≠ u) :
    g t (pc t) + g u (pc u) ≤ ∑ v, g v (pc v) := by
  have hpair := Finset.sum_le_sum_of_subset (f := fun v => g v (pc v))
    (Finset.subset_univ ({t, u} : Finset T))
  rwa [Finset.sum_pair htu] at hpair

variable {init : Config T S P → Prop} {f : T → S → P → ℓ → Option (S × P)}

/-- The rule for a measure: runs are bounded by it. The measure may rely on an invariant. -/
theorem Run.length_add_measure_le {I : Config T S P → Prop} {N : ℕ} (m : S → ℕ) (w : T → P → ℕ)
    (hinit : ∀ s, init s → m s.shared + ∑ t, w t (s.pc t) ≤ N)
    (hstep : ∀ s t a sh p, I s → f t s.shared (s.pc t) a = some (sh, p) →
      m sh + w t p < m s.shared + w t (s.pc t))
    {hist : List (T × ℓ)} {s : Config T S P} (hinv : ∀ hist s, Run init f hist s → I s)
    (hrun : Run init f hist s) : hist.length + (m s.shared + ∑ t, w t (s.pc t)) ≤ N := by
  induction hrun with
  | start hs => simpa using hinit _ hs
  | @snoc hist s s' label hrun hs ih =>
      obtain ⟨sh, p, hf, rfl⟩ := move_eq_some.mp hs
      have hlt := hstep s label.1 label.2 sh p (hinv _ _ hrun) hf
      have hsum := sum_update w s.pc label.1 p
      rw [List.length_append, List.length_singleton]
      simp only
      omega

end Sums

end Threads
