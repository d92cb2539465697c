import PosixThreads.Collections.Hash.Map

/-!
# Probing ends

Nothing is assumed of the comparison here, and present keys may be inserted. What is counted twice
makes the counter larger than it should be, and this only leaves more of the slots free: every
table that `rehash` fills or an operation leaves is `Probeable`.
-/

namespace PosixThreads

variable {K V : Type}

namespace Hash

/-- What `new` passes to `rehash`. -/
def unallocated : Hash K V := ⟨[], 0, 0, false⟩

/-- A temporary table of `rehash`, behind some turns of its loop. -/
def Refilled (H : HashFns K) (t m : Hash K V) : Prop :=
  ∃ slots rest, t.storage = slots ++ rest ∧
    slots.foldlM (reinsert H) (blank (newCapacity t.capacity)) = some m

def Returns (H : HashFns K) (t : Hash K V) (call : HashOp K V × HashResult K V) (t' : Hash K V) :
    Prop :=
  t.exec H call.1 = some (call.2, t')

structure ProbingEnds (H : HashFns K) (t : Hash K V) : Prop where
  capacity_eq : ∃ k, t.capacity = 8 * 2 ^ k
  nonFree_le : t.storage.countP (fun s => !s.isFree) ≤ t.nonFreeEntries
  exists_free : ∃ i < t.capacity, t.storage[i]? = some .free
  visits : ∀ key, H.secondary key % 2 = 1 → ∀ i < t.capacity, ∃ n < t.capacity,
    place H t key n = i
  ends : ∀ key, H.secondary key % 2 = 1 → ∀ skipDeleted, ∃ n < t.capacity,
    indexForKey H t key skipDeleted = some (place H t key n)

theorem capacity_blank (cap : ℕ) : (blank cap : Hash K V).capacity = cap := by
  simp [blank, capacity]

theorem nonFreeEntries_blank (cap : ℕ) : (blank cap : Hash K V).nonFreeEntries = 0 := rfl

section Steps

variable {H : HashFns K} {t t' m : Hash K V} {key : K} {value : V}

theorem Probeable.probingEnds (ht : Probeable t) : ProbingEnds H t where
  capacity_eq := ht.capacity_eq
  nonFree_le := ht.nonFree_le
  exists_free := ht.exists_free
  visits _ hodd _ hi := ht.exists_place hodd hi
  ends _ hodd skipDeleted := by
    obtain ⟨n, _, hindex, hn, _⟩ := ht.indexForKey_spec hodd skipDeleted
    exact ⟨n, hn, hindex⟩

theorem exists_slot_of_indexForKey {skipDeleted : Bool} {i : ℕ}
    (h : indexForKey H t key skipDeleted = some i) : ∃ s, t.storage[i]? = some s := by
  rw [indexForKey, Option.join_eq_some_iff] at h
  refine Iterate.iterate_invariant (I := fun _ => True)
    (Q := fun r => ∀ i, r = some i → ∃ s, t.storage[i]? = some s) (fun _ _ _ _ => trivial) ?_
    _ _ _ trivial h i rfl
  rintro ⟨index, offset⟩ r _ hturn i rfl
  simp only [probeTurn] at hturn
  split at hturn
  · simp at hturn
  · rename_i slot hslot
    split at hturn
    · rw [Sum.inr.injEq, Option.some.injEq] at hturn
      exact hturn ▸ ⟨slot, hslot⟩
    · simp at hturn

/-- `insert` counts a key that is present already once more. -/
theorem Probeable.of_put (ht : Probeable t)
    (hroom : shouldRehash t.nonFreeEntries t.capacity = false)
    (hput : Hash.put H t key value = some t') :
    Probeable t' ∧ t'.capacity = t.capacity ∧ t'.nonFreeEntries = t.nonFreeEntries + 1 ∧
      t'.rehashing = t.rehashing := by
  simp only [Hash.put, Option.bind_eq_bind, Option.bind_eq_some_iff, Option.pure_def,
    Option.some.injEq] at hput
  obtain ⟨i, hindex, rfl⟩ := hput
  obtain ⟨s, hs⟩ := exists_slot_of_indexForKey hindex
  obtain ⟨k, hk⟩ := ht.capacity_eq
  rw [shouldRehash, decide_eq_false_iff_not] at hroom
  exact ⟨ht.put key value hs (by omega), by simp [capacity], rfl, rfl⟩

theorem Probeable.of_reinsert (ht : Probeable t) {s : HashSlot K V}
    (h : reinsert H t s = some t') :
    Probeable t' ∧ t'.capacity = t.capacity ∧
      t'.nonFreeEntries = t.nonFreeEntries + if s.isOccupied then 1 else 0 := by
  cases s with
  | free =>
      obtain rfl : t = t' := Option.some.inj h
      exact ⟨ht, rfl, rfl⟩
  | deleted =>
      obtain rfl : t = t' := Option.some.inj h
      exact ⟨ht, rfl, rfl⟩
  | occupied key value =>
      rw [reinsert] at h
      split at h
      · simp at h
      · rename_i hroom
        obtain ⟨ht', hcap, hnon, _⟩ := ht.of_put (by simpa using hroom) h
        exact ⟨ht', hcap, hnon⟩

/-- The loop of `rehash`, from any of its turns on. -/
theorem Probeable.of_foldlM (slots : List (HashSlot K V)) (ht : Probeable t)
    (h : slots.foldlM (reinsert H) t = some m) :
    Probeable m ∧ m.capacity = t.capacity ∧
      m.nonFreeEntries = t.nonFreeEntries + slots.countP HashSlot.isOccupied := by
  induction slots generalizing t with
  | nil =>
      obtain rfl : t = m := Option.some.inj h
      exact ⟨ht, rfl, rfl⟩
  | cons s slots ih =>
      rw [List.foldlM_cons, Option.bind_eq_bind, Option.bind_eq_some_iff] at h
      obtain ⟨t₁, hfirst, hrest⟩ := h
      obtain ⟨ht₁, hcap₁, hnon₁⟩ := ht.of_reinsert hfirst
      obtain ⟨hm, hcap, hnon⟩ := ih ht₁ hrest
      refine ⟨hm, hcap.trans hcap₁, ?_⟩
      rw [hnon, hnon₁, List.countP_cons]
      omega

theorem Probeable.enlarged (ht : Probeable t) :
    Probeable (Hash.blank (newCapacity t.capacity) : Hash K V) := by
  obtain ⟨k, hk⟩ := ht.capacity_eq
  exact .blank ⟨k + 1, by rw [ht.newCapacity_eq, hk, Nat.pow_succ]; omega⟩

theorem Probeable.of_refilled (ht : Probeable t) (hm : Refilled H t m) : Probeable m := by
  obtain ⟨slots, _, _, hfold⟩ := hm
  exact (ht.enlarged.of_foldlM slots hfold).1

theorem probeable_of_refilled_unallocated (hm : Refilled H (unallocated : Hash K V) m) :
    Probeable m := by
  obtain ⟨slots, _, _, hfold⟩ := hm
  have hblank : Probeable (blank 8 : Hash K V) := .blank ⟨0, rfl⟩
  exact (hblank.of_foldlM slots hfold).1

/-- What the source has behind the rehash of `insert`. -/
theorem Probeable.of_rehash (ht : Probeable t) {ok : Bool}
    (h : rehash H ok t = some (none, t')) :
    Probeable t' ∧ t'.rehashing = false ∧ shouldRehash t'.nonFreeEntries t'.capacity = false := by
  unfold rehash at h
  split at h
  · simp at h
  · split at h
    · simp only [Option.bind_eq_bind, Option.bind_eq_some_iff, Option.pure_def, Option.some.injEq,
        Prod.mk.injEq, true_and] at h
      obtain ⟨m, hfold, rfl⟩ := h
      obtain ⟨hm, hcap, hnon⟩ := ht.enlarged.of_foldlM _ hfold
      refine ⟨⟨hm.capacity_eq, hm.load, hm.nonFree_le⟩, rfl, ?_⟩
      have hlive := ht.live_le
      have hload := ht.load
      have hge := ht.capacity_ge
      rw [capacity_blank, ht.newCapacity_eq] at hcap
      rw [nonFreeEntries_blank, Nat.zero_add] at hnon
      have hcap' : ({ m with rehashing := false } : Hash K V).capacity = m.capacity := rfl
      rw [shouldRehash, decide_eq_false_iff_not, hcap', hcap]
      simp only
      omega
    · simp at h

theorem rehash_error {ok : Bool} {err : CommonErrorCode}
    (h : rehash H ok t = some (some err, t')) : t' = t := by
  unfold rehash at h
  split at h
  · simp at h
  · split at h
    · simp only [Option.bind_eq_bind, Option.bind_eq_some_iff, Option.pure_def, Option.some.injEq,
        Prod.mk.injEq, reduceCtorEq, false_and, and_false, exists_false] at h
    · simp only [Option.pure_def, Option.some.injEq, Prod.mk.injEq] at h
      exact h.2.symm

theorem Probeable.of_insert (ht : Probeable t) (hnot : t.rehashing = false) {ok : Bool}
    {err : Option CommonErrorCode} (h : t.insert H ok key value = some (err, t')) :
    Probeable t' ∧ t'.rehashing = false := by
  unfold insert at h
  split at h
  · simp at h
  · split at h
    · rw [Option.bind_eq_bind, Option.bind_eq_some_iff] at h
      obtain ⟨⟨err₁, t₁⟩, hrehash, h⟩ := h
      cases err₁ with
      | none =>
          obtain ⟨ht₁, hnot₁, hroom₁⟩ := ht.of_rehash hrehash
          simp only [Option.isSome_none, Bool.false_eq_true, if_false, Option.bind_eq_bind,
            Option.bind_eq_some_iff, Option.pure_def, Option.some.injEq, Prod.mk.injEq] at h
          obtain ⟨t₂, hput, _, rfl⟩ := h
          obtain ⟨ht₂, _, _, hnot₂⟩ := ht₁.of_put hroom₁ hput
          exact ⟨ht₂, hnot₂.trans hnot₁⟩
      | some err₁ =>
          obtain rfl := rehash_error hrehash
          simp only [Option.isSome_some, if_true, Option.pure_def, Option.some.injEq,
            Prod.mk.injEq] at h
          obtain ⟨_, rfl⟩ := h
          exact ⟨ht, hnot⟩
    · rename_i hroom
      simp only [Option.bind_eq_bind, Option.bind_eq_some_iff, Option.pure_def, Option.some.injEq,
        Prod.mk.injEq] at h
      obtain ⟨t₁, hput, _, rfl⟩ := h
      obtain ⟨ht₁, _, _, hnot₁⟩ := ht.of_put (by simpa using hroom) hput
      exact ⟨ht₁, hnot₁.trans hnot⟩

theorem Probeable.of_remove (ht : Probeable t) {result : Option V}
    (h : t.remove H key = some (result, t')) : Probeable t' ∧ t'.rehashing = t.rehashing := by
  rw [remove, Option.bind_eq_bind, Option.bind_eq_some_iff] at h
  obtain ⟨i, _, h⟩ := h
  split at h
  · rename_i b w hi
    simp only [Option.pure_def, Option.some.injEq, Prod.mk.injEq] at h
    obtain ⟨_, rfl⟩ := h
    exact ⟨ht.delete hi, rfl⟩
  · simp only [Option.pure_def, Option.some.injEq, Prod.mk.injEq] at h
    obtain ⟨_, rfl⟩ := h
    exact ⟨ht, rfl⟩

theorem Probeable.of_returns (ht : Probeable t) (hnot : t.rehashing = false)
    {call : HashOp K V × HashResult K V} (h : Returns H t call t') :
    Probeable t' ∧ t'.rehashing = false := by
  obtain ⟨op, result⟩ := call
  cases op with
  | insert key value ok =>
      simp only [Returns, exec, Option.bind_eq_bind, Option.bind_eq_some_iff, Option.pure_def,
        Option.some.injEq, Prod.mk.injEq] at h
      obtain ⟨⟨err, t₁⟩, hinsert, _, rfl⟩ := h
      exact ht.of_insert hnot hinsert
  | remove key =>
      simp only [Returns, exec, Option.bind_eq_bind, Option.bind_eq_some_iff, Option.pure_def,
        Option.some.injEq, Prod.mk.injEq] at h
      obtain ⟨⟨value, t₁⟩, hremove, _, rfl⟩ := h
      obtain ⟨ht₁, hnot₁⟩ := ht.of_remove hremove
      exact ⟨ht₁, hnot₁.trans hnot⟩
  | get key =>
      simp only [Returns, exec, Option.bind_eq_bind, Option.bind_eq_some_iff, Option.pure_def,
        Option.some.injEq, Prod.mk.injEq] at h
      obtain ⟨_, _, _, rfl⟩ := h
      exact ⟨ht, hnot⟩
  | forEach stop =>
      simp only [Returns, exec, Option.some.injEq, Prod.mk.injEq] at h
      obtain ⟨_, rfl⟩ := h
      exact ⟨ht, hnot⟩

/-! ## Odd hashes -/

variable (hodd : ∀ key, H.secondary key % 2 = 1)

include hodd in
theorem Probeable.put_returns (ht : Probeable t) (key : K) (value : V) :
    ∃ t', Hash.put H t key value = some t' := by
  obtain ⟨n, s, hindex, _⟩ := ht.indexForKey_spec (hodd key) false
  exact ⟨_, by simp [Hash.put, hindex]; rfl⟩

include hodd in
/-- The assertion of `rehash` does not fail: there is room for the live slots. -/
theorem Probeable.foldlM_returns (slots : List (HashSlot K V)) (ht : Probeable t)
    (hroom : 2 * (t.nonFreeEntries + slots.countP HashSlot.isOccupied) ≤ t.capacity) :
    ∃ m, slots.foldlM (reinsert H) t = some m := by
  induction slots generalizing t with
  | nil => exact ⟨t, rfl⟩
  | cons s slots ih =>
      rw [List.countP_cons] at hroom
      have hfirst : ∃ t₁, reinsert H t s = some t₁ := by
        cases s with
        | free => exact ⟨t, rfl⟩
        | deleted => exact ⟨t, rfl⟩
        | occupied key value =>
            obtain ⟨t₁, hput⟩ := ht.put_returns hodd key value
            simp only [HashSlot.isOccupied, if_true] at hroom
            have hno : shouldRehash t.nonFreeEntries t.capacity = false := by
              rw [shouldRehash, decide_eq_false_iff_not]
              omega
            exact ⟨t₁, by simp [reinsert, hno, hput]⟩
      obtain ⟨t₁, hfirst⟩ := hfirst
      obtain ⟨ht₁, hcap₁, hnon₁⟩ := ht.of_reinsert hfirst
      obtain ⟨m, hrest⟩ := ih ht₁ (by omega)
      exact ⟨m, by rw [List.foldlM_cons, hfirst]; exact hrest⟩

include hodd in
theorem Probeable.rehash_returns (ht : Probeable t) (hnot : t.rehashing = false) (ok : Bool) :
    ∃ err t', rehash H ok t = some (err, t') := by
  by_cases hok : Granted H ok t
  · have hlive := ht.live_le
    have hload := ht.load
    obtain ⟨m, hfold⟩ := ht.enlarged.foldlM_returns hodd t.storage (by
      rw [capacity_blank, ht.newCapacity_eq, nonFreeEntries_blank]
      omega)
    rw [Granted] at hok
    exact ⟨none, { m with rehashing := false }, by simp [rehash, hnot, hok, hfold]⟩
  · exact ⟨_, t, rehash_of_not_granted hnot hok⟩

include hodd in
theorem Probeable.insert_returns (ht : Probeable t) (hnot : t.rehashing = false) (ok : Bool)
    (key : K) (value : V) : ∃ err t', t.insert H ok key value = some (err, t') := by
  have hge := ht.capacity_ge
  have hcap : t.capacity ≠ 0 := by omega
  rw [Hash.insert, if_neg hcap]
  split
  · obtain ⟨err, t₁, hrehash⟩ := ht.rehash_returns hodd hnot ok
    cases err with
    | none =>
        obtain ⟨t₂, hput⟩ := (ht.of_rehash hrehash).1.put_returns hodd key value
        exact ⟨none, t₂, by simp [hrehash, hput]⟩
    | some err => exact ⟨some err, t₁, by simp [hrehash]⟩
  · obtain ⟨t₁, hput⟩ := ht.put_returns hodd key value
    exact ⟨none, t₁, by simp [hput]⟩

include hodd in
theorem Probeable.returns (ht : Probeable t) (hnot : t.rehashing = false) (op : HashOp K V) :
    ∃ result t', Returns H t (op, result) t' := by
  cases op with
  | insert key value ok =>
      obtain ⟨err, t', hinsert⟩ := ht.insert_returns hodd hnot ok key value
      exact ⟨.status err, t', by simp [Returns, exec, hinsert]⟩
  | remove key =>
      obtain ⟨n, s, hindex, _, hs, _⟩ := ht.indexForKey_spec (hodd key) true
      cases s with
      | occupied a v =>
          exact ⟨.removed (some v), _, by simp [Returns, exec, remove, hindex, hs]; rfl⟩
      | free => exact ⟨.removed none, t, by simp [Returns, exec, remove, hindex, hs]⟩
      | deleted => exact ⟨.removed none, t, by simp [Returns, exec, remove, hindex, hs]⟩
  | get key =>
      obtain ⟨n, s, hindex, _, hs, _⟩ := ht.indexForKey_spec (hodd key) true
      cases s with
      | occupied a v => exact ⟨.found (some v), t, by simp [Returns, exec, get, hindex, hs]⟩
      | free => exact ⟨.found none, t, by simp [Returns, exec, get, hindex, hs]⟩
      | deleted => exact ⟨.found none, t, by simp [Returns, exec, get, hindex, hs]⟩
  | forEach stop => exact ⟨.visited (t.forEach (noteSeen stop) []), t, rfl⟩

end Steps

/-- In every table that the operations reach from a new one, and in those that `rehash` would fill
from there, probing ends for every key with an odd second hash. If all keys have one, like those of
the byte hasher, every operation returns. -/
theorem probing_ends {H : HashFns K} {t : Hash K V} {hist : List (HashOp K V × HashResult K V)}
    (hrun : Lts.Run (Fresh H) (Returns H) hist t) :
    ProbingEnds H t ∧ (∀ m, Refilled H t m ∨ Refilled H unallocated m → ProbingEnds H m) ∧
      ((∀ key, H.secondary key % 2 = 1) → ∀ op, ∃ result t', Returns H t (op, result) t') ∧
      ∀ (hash : K → ByteHasherState → ByteHasherState) (seed : UInt64) (key : K),
        (ByteHasher.byteHasherSecondary hash seed key).toNat % 2 = 1 := by
  obtain ⟨ht, hnot⟩ := hrun.invariant (I := fun _ t => Probeable t ∧ t.rehashing = false)
    (fun t h => ⟨h.refines.wf.probeable, h.refines.rehashing_eq⟩)
    (fun _ _ _ _ h hcall => h.1.of_returns h.2 hcall)
  refine ⟨ht.probingEnds, ?_, fun hodd op => ht.returns hodd hnot op,
    ByteHasher.byteHasherSecondary_odd⟩
  rintro m (hm | hm)
  · exact (ht.of_refilled hm).probingEnds
  · exact (probeable_of_refilled_unallocated hm).probingEnds

/-- A key is inserted twice: it is counted twice, and probing for it ends. -/
theorem probing_ends_reinserted : ∃ t : Hash (List UInt8) ℕ,
    Lts.Run (Fresh sliceHashFns) (Returns sliceHashFns)
      [(.insert [97] 5 true, .status none), (.insert [97] 6 true, .status none)] t ∧
    t.nonFreeEntries = 2 ∧ ProbingEnds sliceHashFns t := by
  generalize ht₀ : (⟨List.replicate 8 .free, 0, 0, false⟩ : Hash (List UInt8) ℕ) = t₀
  generalize ht₁ : (⟨(List.replicate 8 .free).set 6 (.occupied [97] 5), 1, 1, false⟩ :
    Hash (List UInt8) ℕ) = t₁
  generalize ht₂ : (⟨(List.replicate 8 .free).set 6 (.occupied [97] 6), 2, 2, false⟩ :
    Hash (List UInt8) ℕ) = t₂
  have hnew : new sliceHashFns true = some (none, t₀) := by
    rw [← ht₀]
    decide +kernel
  have hinsert : t₀.exec sliceHashFns (.insert [97] 5 true) = some (.status none, t₁) := by
    rw [← ht₀, ← ht₁]
    decide +kernel
  have hagain : t₁.exec sliceHashFns (.insert [97] 6 true) = some (.status none, t₂) := by
    rw [← ht₁, ← ht₂]
    decide +kernel
  have hrun : Lts.Run (Fresh sliceHashFns) (Returns sliceHashFns)
      [(.insert [97] 5 true, .status none), (.insert [97] 6 true, .status none)] t₂ :=
    (Lts.Run.start ⟨true, hnew⟩ |>.snoc hinsert).snoc hagain
  exact ⟨t₂, hrun, by rw [← ht₂], (probing_ends hrun).1⟩

end Hash

end PosixThreads
