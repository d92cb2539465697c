import Mathlib.Data.Set.Basic
import Mathlib.Logic.Function.Basic
import Mathlib.Order.WellFounded

/-!
# Locks

Every lock has at most one owner. `Guarded` is for threads that give back the lock that they took
last: every thread has a stack of locks, and the owners and the stacks agree. `Owned` is the same
for sets of locks, which may be given back in any order. A thread that wants a lock waits for its
owner, and threads are in a deadlock if each of them waits for one of them. There is none if a
rank goes down from the one who waits to the one who is waited for.
-/

namespace Locks

variable {T L : Type*}

/-- The owners of the locks are the threads that have them on their stacks. -/
structure Guarded (owner : L → Option T) (stack : T → List L) : Prop where
  owned : ∀ l t, owner l = some t ↔ l ∈ stack t
  nodup : ∀ t, (stack t).Nodup

namespace Guarded

variable {owner : L → Option T} {stack : T → List L} {t u : T} {l : L}

theorem unique (h : Guarded owner stack) (ht : l ∈ stack t) (hu : l ∈ stack u) : t = u := by
  have hown := (h.owned l t).mpr ht
  rw [(h.owned l u).mpr hu] at hown
  exact (Option.some.inj hown).symm

theorem not_mem_of_free (h : Guarded owner stack) (hfree : owner l = none) : l ∉ stack t := by
  intro hl
  rw [(h.owned l t).mpr hl] at hfree
  simp at hfree

section Update

variable [DecidableEq T] [DecidableEq L]

theorem acquire (h : Guarded owner stack) (hfree : owner l = none) :
    Guarded (Function.update owner l (some t)) (Function.update stack t (l :: stack t)) where
  owned := by
    intro k u
    have hnot : ∀ u, l ∉ stack u := fun u => h.not_mem_of_free hfree
    by_cases hk : k = l
    · subst hk
      by_cases hu : u = t
      · simp [hu]
      · simp [Function.update_of_ne hu, hnot u, Ne.symm hu]
    · rw [Function.update_of_ne hk, h.owned]
      by_cases hu : u = t
      · simp [hu, hk]
      · rw [Function.update_of_ne hu]
  nodup := by
    intro u
    by_cases hu : u = t
    · rw [hu, Function.update_self]
      exact List.nodup_cons.mpr ⟨h.not_mem_of_free hfree, h.nodup t⟩
    · rw [Function.update_of_ne hu]
      exact h.nodup u

theorem release {rest : List L} (h : Guarded owner stack) (hstack : stack t = l :: rest) :
    Guarded (Function.update owner l none) (Function.update stack t rest) where
  owned := by
    intro k u
    have hmem : l ∈ stack t := by simp [hstack]
    have hnodup : l ∉ rest ∧ rest.Nodup := by
      have := h.nodup t
      rw [hstack] at this
      exact List.nodup_cons.mp this
    by_cases hk : k = l
    · subst hk
      by_cases hu : u = t
      · simp [hu, hnodup.1]
      · -- no other thread has the lock
        have hnot : k ∉ stack u := fun hk => hu (h.unique hk hmem)
        simp [Function.update_of_ne hu, hnot]
    · rw [Function.update_of_ne hk, h.owned]
      by_cases hu : u = t
      · simp [hu, hstack, hk]
      · rw [Function.update_of_ne hu]
  nodup := by
    intro u
    by_cases hu : u = t
    · have hnodup := h.nodup t
      rw [hstack] at hnodup
      rw [hu, Function.update_self]
      exact (List.nodup_cons.mp hnodup).2
    · rw [Function.update_of_ne hu]
      exact h.nodup u

end Update

end Guarded

/-- The owners of the locks are the threads that hold them, in any order. -/
def Owned (owner : L → Option T) (held : T → Set L) : Prop := ∀ l t, owner l = some t ↔ l ∈ held t

namespace Owned

variable {owner : L → Option T} {held : T → Set L} {t u : T} {l : L}

theorem unique (h : Owned owner held) (ht : l ∈ held t) (hu : l ∈ held u) : t = u := by
  have hown := (h l t).mpr ht
  rw [(h l u).mpr hu] at hown
  exact (Option.some.inj hown).symm

theorem not_mem_of_free (h : Owned owner held) (hfree : owner l = none) : l ∉ held t := by
  intro hl
  rw [(h l t).mpr hl] at hfree
  simp at hfree

variable [DecidableEq T] [DecidableEq L]

theorem acquire (h : Owned owner held) (hfree : owner l = none) {ls : Set L}
    (hls : ∀ k, k ∈ ls ↔ k = l ∨ k ∈ held t) :
    Owned (Function.update owner l (some t)) (Function.update held t ls) := by
  intro k u
  by_cases hk : k = l
  · subst hk
    by_cases hu : u = t
    · simp [hu, hls]
    · simp [Function.update_of_ne hu, h.not_mem_of_free hfree, Ne.symm hu]
  · rw [Function.update_of_ne hk, h]
    by_cases hu : u = t
    · simp [hu, hls, hk]
    · rw [Function.update_of_ne hu]

theorem release (h : Owned owner held) (hl : l ∈ held t) {ls : Set L}
    (hls : ∀ k, k ∈ ls ↔ k ∈ held t ∧ k ≠ l) :
    Owned (Function.update owner l none) (Function.update held t ls) := by
  intro k u
  by_cases hk : k = l
  · subst hk
    by_cases hu : u = t
    · simp [hu, hls]
    · -- no other thread holds the lock
      have hnot : k ∉ held u := fun hk => hu (h.unique hk hl)
      simp [Function.update_of_ne hu, hnot]
  · rw [Function.update_of_ne hk, h]
    by_cases hu : u = t
    · simp [hu, hls, hk]
    · rw [Function.update_of_ne hu]

omit [DecidableEq L] in
theorem keep (h : Owned owner held) {ls : Set L} (hls : ls = held t) :
    Owned owner (Function.update held t ls) := by
  rwa [hls, Function.update_eq_self]

end Owned

/-- The rule for a single lock: a thread leaves it as it is, takes it while it is free, or gives it
back. -/
theorem mutex_update [DecidableEq T] {owner owner' : Option T} {holds : T → Prop} {t : T}
    {held : Prop} (h : ∀ u, owner = some u ↔ holds u)
    (hstep : owner' = owner ∧ (held ↔ holds t) ∨ (owner = none ∧ owner' = some t ∧ held) ∨
      holds t ∧ owner' = none ∧ ¬held) (u : T) :
    owner' = some u ↔ Function.update holds t held u := by
  by_cases hu : u = t
  · subst hu
    rw [Function.update_self]
    rcases hstep with ⟨rfl, hheld⟩ | ⟨-, rfl, hheld⟩ | ⟨-, rfl, hheld⟩
    · rw [h, hheld]
    · simp [hheld]
    · simp [hheld]
  · rw [Function.update_of_ne hu]
    rcases hstep with ⟨rfl, -⟩ | ⟨hfree, rfl, -⟩ | ⟨hholds, rfl, -⟩
    · exact h u
    · simp [Ne.symm hu, ← h, hfree]
    · have howner := (h t).mpr hholds
      simp [← h, howner, Ne.symm hu]

/-- A thread that waits for a lock that it has itself is in a deadlock, too. -/
def Deadlock (holds waits : T → L → Prop) (threads : Set T) : Prop :=
  threads.Nonempty ∧ ∀ t ∈ threads, ∃ l, waits t l ∧ ∃ u ∈ threads, holds u l

theorem not_deadlock_of_rank {holds waits : T → L → Prop} (rank : T → ℕ)
    (h : ∀ t u l, waits t l → holds u l → rank u < rank t) (threads : Set T) :
    ¬Deadlock holds waits threads := by
  intro hdead
  obtain ⟨hne, hwait⟩ := hdead
  -- the thread of the lowest rank waits for one of a lower rank
  obtain ⟨t, ht, hmin⟩ := WellFounded.has_min (measure rank).wf threads hne
  obtain ⟨l, htl, u, hu, hul⟩ := hwait t ht
  exact hmin u hu (h t u l htl hul)

end Locks
