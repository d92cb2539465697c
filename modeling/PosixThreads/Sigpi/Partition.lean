import PosixThreads.Sigpi.Basic
import Mathlib.Data.List.Nodup
import Mathlib.Data.List.Perm.Basic
import Mathlib.Order.Monotone.Basic

/-!
# The terms are distributed and completed

The `k`-th index of a worker is `index workerCount workerIdx k`, as long as nothing overflows. Each
number is the index of one worker at one place, and the indices of a worker increase. What the
workers have computed when they stop, together with what is added for them, are therefore the
numbers below the furthest of them.
-/

namespace PosixThreads

namespace Sigpi

/-! ## The indices of a worker -/

def index (workerCount workerIdx k : ℕ) : ℕ :=
  termsPerUnit * (workerIdx + workerCount * (k / 4)) + k % 4

def iterationAt (workerCount workerIdx : ℕ) : ℕ → ℕ
  | 0 => initialIteration workerIdx
  | k + 1 => nextIteration (iterationAt workerCount workerIdx k) workerCount

def NextFits (workerCount iteration : ℕ) : Prop :=
  iteration + 1 + (if iteration % 4 = 3 then termsPerUnit * (workerCount - 1) else 0) <
    0x10000000000000000

section Indices

variable {W w w' k k' : ℕ}

theorem index_div (W w k : ℕ) : index W w k / 4 = w + W * (k / 4) := by
  unfold index termsPerUnit
  omega

theorem index_mod (W w k : ℕ) : index W w k % 4 = k % 4 := by
  unfold index termsPerUnit
  omega

theorem index_succ (hW : 1 ≤ W) (w k : ℕ) :
    index W w (k + 1) = index W w k + 1 + if k % 4 = 3 then termsPerUnit * (W - 1) else 0 := by
  unfold index termsPerUnit
  split
  · have hdiv : (k + 1) / 4 = k / 4 + 1 := by omega
    rw [hdiv, Nat.mul_succ]
    omega
  · have hdiv : (k + 1) / 4 = k / 4 := by omega
    rw [hdiv]
    omega

theorem index_strictMono (hW : 1 ≤ W) (w : ℕ) : StrictMono (index W w) := by
  refine strictMono_nat_of_lt_succ fun k => ?_
  rw [index_succ hW]
  omega

theorem le_index (hW : 1 ≤ W) (w k : ℕ) : k ≤ index W w k := by
  have := Nat.le_mul_of_pos_left (k / 4) hW
  unfold index termsPerUnit
  omega

theorem index_inj (hw : w < W) (hw' : w' < W) (h : index W w k = index W w' k') :
    w = w' ∧ k = k' := by
  have hdiv : w + W * (k / 4) = w' + W * (k' / 4) := by rw [← index_div, h, index_div]
  have hmod : k % 4 = k' % 4 := by rw [← index_mod W w, h, index_mod]
  have hworker : w = w' := by
    have := congrArg (· % W) hdiv
    simpa [Nat.mod_eq_of_lt hw, Nat.mod_eq_of_lt hw'] using this
  have hblock : k / 4 = k' / 4 := by
    have := congrArg (· / W) hdiv
    simpa [Nat.add_mul_div_left, Nat.zero_lt_of_lt hw, Nat.div_eq_of_lt hw,
      Nat.div_eq_of_lt hw'] using this
  exact ⟨hworker, by omega⟩

theorem exists_index_eq (hW : 1 ≤ W) (i : ℕ) : ∃ w < W, ∃ k, index W w k = i := by
  refine ⟨i / 4 % W, Nat.mod_lt _ hW, 4 * (i / 4 / W) + i % 4, ?_⟩
  have hdiv : (4 * (i / 4 / W) + i % 4) / 4 = i / 4 / W := by omega
  have hmod : (4 * (i / 4 / W) + i % 4) % 4 = i % 4 := by omega
  have hblock := Nat.mod_add_div (i / 4) W
  rw [index, termsPerUnit, hdiv, hmod, hblock]
  omega

theorem index_zero (hw : w * termsPerUnit < 0x10000000000000000) :
    initialIteration w = index W w 0 := by
  rw [initialIteration, sizeT_of_lt hw, index]
  simp [Nat.mul_comm]

theorem nextIteration_index (hW : 1 ≤ W) (hlt : W < 0x10000000000000000)
    (hfit : NextFits W (index W w k)) : nextIteration (index W w k) W = index W w (k + 1) := by
  rw [index_succ hW, ← index_mod W w k]
  unfold NextFits at hfit
  unfold nextIteration
  have hsub : sizeSub W 1 = W - 1 := sizeSub_of_le hlt hW
  simp only [hsub]
  split at hfit
  · rename_i hlast
    rw [if_pos hlast, if_pos hlast, sizeT_of_lt (n := termsPerUnit * (W - 1)) (by omega),
      sizeT_of_lt hfit]
  · rename_i hnot
    rw [if_neg hnot, if_neg hnot, sizeT_of_lt hfit]

/-- The iterations are the indices up to the first one that does not fit. -/
theorem iterationAt_eq (hW : 1 ≤ W) (hlt : W < 0x10000000000000000)
    (hw : w * termsPerUnit < 0x10000000000000000) {m : ℕ}
    (hfit : ∀ j < m, NextFits W (iterationAt W w j)) :
    ∀ j ≤ m, iterationAt W w j = index W w j := by
  intro j
  induction j with
  | zero => exact fun _ => index_zero hw
  | succ j ih =>
      intro hj
      have hprev := ih (by omega)
      rw [iterationAt, hprev, nextIteration_index hW hlt (hprev ▸ hfit j hj)]

end Indices

/-! ## Partitions -/

theorem workerIdx_lt {W : ℕ} {params : List WorkerParam} {p : WorkerParam}
    (hworkers : params.map WorkerParam.workerIdx = List.range W) (hp : p ∈ params) :
    p.workerIdx < W := by
  rw [← List.mem_range, ← hworkers]
  exact List.mem_map_of_mem hp

theorem perm_range {W bound : ℕ} (hW : 1 ≤ W) {params : List WorkerParam}
    (hworkers : params.map WorkerParam.workerIdx = List.range W) (terms : WorkerParam → List ℕ)
    (hterms : ∀ p ∈ params, ∃ m, terms p = (List.range m).map (index W p.workerIdx) ∧
      ∀ k, k < m ↔ index W p.workerIdx k < bound) :
    (params.flatMap terms).Perm (List.range bound) := by
  have hlt : ∀ p ∈ params, p.workerIdx < W := fun p hp => workerIdx_lt hworkers hp
  have hmem : ∀ p ∈ params, ∀ i, i ∈ terms p ↔ i < bound ∧ ∃ k, index W p.workerIdx k = i := by
    intro p hp i
    obtain ⟨m, heq, hm⟩ := hterms p hp
    rw [heq, List.mem_map]
    constructor
    · rintro ⟨k, hk, rfl⟩
      exact ⟨(hm k).mp (List.mem_range.mp hk), k, rfl⟩
    · rintro ⟨hi, k, rfl⟩
      exact ⟨k, List.mem_range.mpr ((hm k).mpr hi), rfl⟩
  have hdistinct : params.Pairwise fun p q => p.workerIdx ≠ q.workerIdx := by
    have hnodup : (params.map WorkerParam.workerIdx).Nodup := hworkers ▸ List.nodup_range
    exact List.pairwise_map.mp hnodup
  have hnodup : (params.flatMap terms).Nodup := by
    refine List.nodup_flatMap.mpr ⟨fun p hp => ?_, ?_⟩
    · obtain ⟨m, heq, _⟩ := hterms p hp
      rw [heq]
      exact List.nodup_range.map (index_strictMono hW p.workerIdx).injective
    · refine hdistinct.imp_of_mem fun {p q} hp hq hne i hip hiq => hne ?_
      obtain ⟨_, k, hk⟩ := (hmem p hp i).mp hip
      obtain ⟨_, k', hk'⟩ := (hmem q hq i).mp hiq
      exact (index_inj (hlt p hp) (hlt q hq) (hk.trans hk'.symm)).1
  refine (List.perm_ext_iff_of_nodup hnodup List.nodup_range).mpr fun i => ?_
  rw [List.mem_flatMap, List.mem_range]
  constructor
  · rintro ⟨p, hp, hi⟩
    exact ((hmem p hp i).mp hi).1
  · intro hi
    obtain ⟨w, hw, k, hk⟩ := exists_index_eq hW i
    have hworker : w ∈ params.map WorkerParam.workerIdx := by rwa [hworkers, List.mem_range]
    obtain ⟨p, hp, rfl⟩ := List.mem_map.mp hworker
    exact ⟨p, hp, (hmem p hp i).mpr ⟨hi, k, hk⟩⟩

/-! ## The workers and the completion -/

/-- A worker has stopped before one of its iterations, all in front of which are below the number
of iterations. -/
def Stopped (iterationCount workerCount : ℕ) (p : WorkerParam) : Prop :=
  ∃ m, p.partialSum = (List.range m).map (iterationAt workerCount p.workerIdx) ∧
    p.firstUncomputedTermIndex = iterationAt workerCount p.workerIdx m ∧
    ∀ i ∈ p.partialSum, i < iterationCount

section Workers

variable {N W w : ℕ}

def WorkerAt (N W w m : ℕ) (s : WorkerLoop) : Prop :=
  s.iteration = iterationAt W w m ∧ s.partialSum = (List.range m).map (iterationAt W w) ∧
    ∀ i ∈ s.partialSum, i < N

theorem WorkerAt.compute {m : ℕ} {s : WorkerLoop} (hs : WorkerAt N W w m s)
    (hlt : s.iteration < N) (nextCheck : ℕ) :
    WorkerAt N W w (m + 1) (s.compute W nextCheck) := by
  obtain ⟨hiteration, hsum, hbelow⟩ := hs
  refine ⟨?_, ?_, ?_⟩
  · rw [iterationAt, ← hiteration]
    rfl
  · rw [List.range_succ, List.map_append, ← hsum, List.map_singleton, ← hiteration]
    rfl
  · intro i hi
    rcases List.mem_append.mp hi with hi | hi
    · exact hbelow i hi
    · exact List.mem_singleton.mp hi ▸ hlt

/-- The iterations in front of a place are the indices there. -/
theorem WorkerAt.eq_index (hW : 1 ≤ W) (hlt : W < 0x10000000000000000)
    (hw : w * termsPerUnit < 0x10000000000000000) (hfit : ∀ i < N, NextFits W i) {m : ℕ}
    (hbelow : ∀ i ∈ (List.range m).map (iterationAt W w), i < N) :
    ∀ j ≤ m, iterationAt W w j = index W w j := by
  refine iterationAt_eq hW hlt hw fun j hj => hfit _ (hbelow _ ?_)
  exact List.mem_map.mpr ⟨j, List.mem_range.mpr hj, rfl⟩

theorem workerTurn_eq_inl {interrupted : ℕ → Bool} {params : WorkerParam} {s s' : WorkerLoop}
    (h : workerTurn params interrupted s = .inl s') :
    s.iteration < params.iterationCount ∧
      ∃ nextCheck, s' = s.compute params.workerCount nextCheck := by
  unfold workerTurn at h
  split at h
  · rename_i hlt
    split at h
    · split at h
      · simp at h
      · exact ⟨hlt, _, (Sum.inl.inj h).symm⟩
    · exact ⟨hlt, _, (Sum.inl.inj h).symm⟩
  · simp at h

theorem workerTurn_eq_inr {interrupted : ℕ → Bool} {params : WorkerParam} {s s' : WorkerLoop}
    (h : workerTurn params interrupted s = .inr s') :
    s' = s ∧ (s.iteration < params.iterationCount → interrupted s.iteration = true) := by
  unfold workerTurn at h
  split at h
  · split at h
    · split at h
      · rename_i hinterrupted
        exact ⟨(Sum.inr.inj h).symm, fun _ => hinterrupted⟩
      · simp at h
    · simp at h
  · rename_i hnot
    exact ⟨(Sum.inr.inj h).symm, fun hlt => absurd hlt hnot⟩

/-- A worker returns. It has stopped at the end of its iterations or where it was interrupted. -/
theorem workerThread_spec (hW : 1 ≤ W) (hlt : W < 0x10000000000000000)
    (hw : w * termsPerUnit < 0x10000000000000000) (hfit : ∀ i < N, NextFits W i)
    (interrupted : ℕ → Bool) :
    ∃ p, workerThread ⟨N, w, W, [], 0⟩ interrupted = some p ∧ p.workerIdx = w ∧ Stopped N W p ∧
      (p.firstUncomputedTermIndex < N → interrupted p.firstUncomputedTermIndex = true) := by
  have hstep : ∀ (m : ℕ) s s', WorkerAt N W w m s →
      workerTurn ⟨N, w, W, [], 0⟩ interrupted s = .inl s' → WorkerAt N W w (m + 1) s' ∧ m < N := by
    intro m s s' hs hturn
    obtain ⟨hbelow, nextCheck, rfl⟩ := workerTurn_eq_inl hturn
    refine ⟨hs.compute hbelow nextCheck, ?_⟩
    have hindex := WorkerAt.eq_index hW hlt hw hfit (hs.2.1 ▸ hs.2.2) m le_rfl
    have hle := le_index hW w m
    have hbelow' : s.iteration < N := hbelow
    rw [hs.1] at hbelow'
    omega
  have hstart : WorkerAt N W w 0 ⟨initialIteration w, iterationsBetweenChecks, []⟩ :=
    ⟨rfl, rfl, by simp⟩
  obtain ⟨m, t, r, _, ht, hdone, hrun⟩ :=
    Iterate.iterate_counted hstep (N + 1) 0 _ hstart (Nat.zero_le N) (by omega)
  obtain ⟨rfl, hinterrupted⟩ := workerTurn_eq_inr hdone
  obtain ⟨hiteration, hsum, hbelow⟩ := ht
  exact ⟨⟨N, w, W, r.partialSum, r.iteration⟩, by simp [workerThread, hrun], rfl,
    ⟨m, hsum, hiteration, hbelow⟩, hinterrupted⟩

theorem Stopped.eq_index {p : WorkerParam} (hp : Stopped N W p) (hW : 1 ≤ W)
    (hlt : W < 0x10000000000000000) (hw : p.workerIdx * termsPerUnit < 0x10000000000000000)
    (hfit : ∀ i < N, NextFits W i) :
    ∃ m, p.partialSum = (List.range m).map (index W p.workerIdx) ∧
      p.firstUncomputedTermIndex = index W p.workerIdx m ∧
      ∀ j < m, index W p.workerIdx j < N := by
  obtain ⟨m, hsum, hfirst, hbelow⟩ := hp
  have hindex := WorkerAt.eq_index hW hlt hw hfit (hsum ▸ hbelow)
  have hsum' : p.partialSum = (List.range m).map (index W p.workerIdx) := by
    rw [hsum]
    exact List.map_congr_left fun j hj => hindex j (List.mem_range.mp hj).le
  refine ⟨m, hsum', by rw [hfirst, hindex m le_rfl], fun j hj => hbelow _ ?_⟩
  rw [hsum']
  exact List.mem_map.mpr ⟨j, List.mem_range.mpr hj, rfl⟩

theorem foldl_furthest_le (params : List WorkerParam) (final : ℕ) :
    let furthest := params.foldl (fun final p =>
      if p.firstUncomputedTermIndex > final then p.firstUncomputedTermIndex else final) final
    final ≤ furthest ∧ ∀ p ∈ params, p.firstUncomputedTermIndex ≤ furthest := by
  induction params generalizing final with
  | nil => simp
  | cons p params ih =>
      obtain ⟨hle, hall⟩ := ih (if p.firstUncomputedTermIndex > final then
        p.firstUncomputedTermIndex else final)
      simp only [List.foldl_cons]
      refine ⟨le_trans (by split <;> omega) hle, fun q hq => ?_⟩
      rcases List.mem_cons.mp hq with rfl | hq
      · exact le_trans (by split <;> omega) hle
      · exact hall q hq

theorem le_finalIteration {params : List WorkerParam} {p : WorkerParam} (hp : p ∈ params) :
    p.firstUncomputedTermIndex ≤ finalIteration params :=
  (foldl_furthest_le params 0).2 p hp

/-- The terms that are added for a worker continue those that it has computed. -/
theorem finishWorker_spec {p : WorkerParam} {final m : ℕ} (hW : 1 ≤ W)
    (hlt : W < 0x10000000000000000) (hfit : ∀ i < final, NextFits W i)
    (hsum : p.partialSum = (List.range m).map (index W p.workerIdx))
    (hfirst : p.firstUncomputedTermIndex = index W p.workerIdx m)
    (hle : p.firstUncomputedTermIndex ≤ final) :
    ∃ terms, finishWorker final W p = some terms ∧
      ∃ n, p.partialSum ++ terms = (List.range n).map (index W p.workerIdx) ∧
        ∀ k, k < n ↔ index W p.workerIdx k < final := by
  have hmono := index_strictMono hW p.workerIdx
  let I : ℕ → ℕ × List ℕ → Prop := fun k s => s.1 = index W p.workerIdx k ∧
    p.partialSum ++ s.2 = (List.range k).map (index W p.workerIdx) ∧
    ∀ j < k, index W p.workerIdx j < final
  have hstep : ∀ (k : ℕ) s s', I k s → finishTurn final W s = .inl s' →
      I (k + 1) s' ∧ k < final := by
    rintro k ⟨i, terms⟩ s' ⟨hi, hterms, hbelow⟩ hturn
    simp only at hi hterms
    simp only [finishTurn] at hturn
    split at hturn
    · rename_i hbound
      obtain rfl := Sum.inl.inj hturn
      have hid := le_index hW p.workerIdx k
      rw [hi] at hbound
      refine ⟨⟨?_, ?_, ?_⟩, by omega⟩
      · simp only
        rw [hi, nextIteration_index hW hlt (hfit _ hbound)]
      · simp only
        rw [List.range_succ, List.map_append, ← hterms, hi, List.append_assoc, List.map_singleton]
      · intro j hj
        rcases Nat.lt_succ_iff_lt_or_eq.mp hj with hj | rfl
        · exact hbelow j hj
        · exact hbound
    · simp at hturn
  have hstart : I m (p.firstUncomputedTermIndex, []) := by
    refine ⟨hfirst, by rw [List.append_nil, hsum], fun j hj => ?_⟩
    have := hmono hj
    omega
  have hm : m ≤ final := by
    have hid := le_index hW p.workerIdx m
    omega
  obtain ⟨n, ⟨i, terms⟩, r, _, ⟨hi, hterms, hbelow⟩, hdone, hrun⟩ :=
    Iterate.iterate_counted hstep (final + 1) m _ hstart hm (by omega)
  simp only [finishTurn] at hdone hi hterms
  split at hdone
  · simp at hdone
  · rename_i hnot
    obtain rfl := Sum.inr.inj hdone
    refine ⟨terms, by simp [finishWorker, hrun], n, hterms, fun k => ⟨hbelow k, fun hk => ?_⟩⟩
    exact hmono.lt_iff_lt.mp (by omega)

theorem finish_eq {final : ℕ} {terms : WorkerParam → List ℕ} {params : List WorkerParam}
    (h : ∀ p ∈ params, finishWorker final W p = some (terms p)) :
    finish final W params = some (params.flatMap terms) := by
  induction params with
  | nil => rfl
  | cons p params ih =>
      have hrest := ih fun q hq => h q (List.mem_cons_of_mem p hq)
      simp [finish, h p List.mem_cons_self, hrest]

end Workers

/-- The indices of the workers below the number of iterations are a partition of the numbers below
it. Wherever the workers stop, their terms and those that are added in the end are the terms below
the furthest of the workers, each of them once. -/
theorem work_partition {N W : ℕ} (hW : 1 ≤ W)
    (hinit : ∀ w < W, w * termsPerUnit < 0x10000000000000000) (hfit : ∀ i < N, NextFits W i) :
    (∀ params ∈ workerParams N W, ∀ interrupted, ∃ p, workerThread params interrupted = some p ∧
      p.workerIdx = params.workerIdx ∧ Stopped N W p ∧
      (p.firstUncomputedTermIndex < N → interrupted p.firstUncomputedTermIndex = true)) ∧
    (∀ params : List WorkerParam, params.map WorkerParam.workerIdx = List.range W →
      (∀ p ∈ params, Stopped N W p ∧ N ≤ p.firstUncomputedTermIndex) →
      (params.flatMap WorkerParam.partialSum).Perm (List.range N)) ∧
    ∀ params : List WorkerParam, params.map WorkerParam.workerIdx = List.range W →
      (∀ p ∈ params, Stopped N W p) → (∀ i < finalIteration params, NextFits W i) →
      ∃ terms, computed true W params = some terms ∧
        terms.Perm (List.range (finalIteration params)) := by
  have hlt : W < 0x10000000000000000 := by
    have := hinit (W - 1) (by omega)
    unfold termsPerUnit at this
    omega
  refine ⟨?_, ?_, ?_⟩
  · intro params hparams interrupted
    obtain ⟨w, hw, rfl⟩ := List.mem_map.mp hparams
    exact workerThread_spec hW hlt (hinit w (List.mem_range.mp hw)) hfit interrupted
  · intro params hparams hstopped
    refine perm_range hW hparams _ fun p hp => ?_
    obtain ⟨hstop, hend⟩ := hstopped p hp
    obtain ⟨m, hsum, hfirst, hbelow⟩ :=
      hstop.eq_index hW hlt (hinit _ (workerIdx_lt hparams hp)) hfit
    refine ⟨m, hsum, fun k => ⟨hbelow k, fun hk => ?_⟩⟩
    exact (index_strictMono hW p.workerIdx).lt_iff_lt.mp (by omega)
  · intro params hparams hstopped hfinal
    have hterms : ∀ p ∈ params, ∃ terms, finishWorker (finalIteration params) W p = some terms ∧
        ∃ n, p.partialSum ++ terms = (List.range n).map (index W p.workerIdx) ∧
          ∀ k, k < n ↔ index W p.workerIdx k < finalIteration params := by
      intro p hp
      obtain ⟨m, hsum, hfirst, _⟩ :=
        (hstopped p hp).eq_index hW hlt (hinit _ (workerIdx_lt hparams hp)) hfit
      exact finishWorker_spec hW hlt hfinal hsum hfirst (le_finalIteration hp)
    choose! terms hterms using hterms
    have hfinish := finish_eq fun p hp => (hterms p hp).1
    refine ⟨_, by rw [computed, if_pos rfl, hfinish]; rfl, ?_⟩
    exact (List.flatMap_append_perm params WorkerParam.partialSum terms).trans
      (perm_range hW hparams _ fun p hp => (hterms p hp).2)

instance (workerCount iteration : ℕ) : Decidable (NextFits workerCount iteration) :=
  inferInstanceAs (Decidable (_ < _))

/-- The first of two workers stops inside of its first block, the second one goes to its end. -/
theorem work_partition_two :
    computed true 2 [⟨10, 0, 2, [0, 1], 2⟩, ⟨10, 1, 2, [4, 5, 6, 7], 12⟩] =
      some [0, 1, 4, 5, 6, 7, 2, 3, 8, 9, 10, 11] ∧
    ∃ terms, computed true 2 [⟨10, 0, 2, [0, 1], 2⟩, ⟨10, 1, 2, [4, 5, 6, 7], 12⟩] = some terms ∧
      terms.Perm (List.range 12) := by
  refine ⟨by decide, (work_partition (N := 10) (W := 2) (by decide) (by decide) (by decide)).2.2
    _ rfl ?_ (by decide)⟩
  rintro p hp
  rw [List.mem_cons, List.mem_singleton] at hp
  rcases hp with rfl | rfl
  · exact ⟨2, by decide, by decide, by decide⟩
  · exact ⟨4, by decide, by decide, by decide⟩

end Sigpi

end PosixThreads
