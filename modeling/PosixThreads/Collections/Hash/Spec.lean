import PosixThreads.Collections.Hash.Basic
import PosixThreads.Library.Heap
import PosixThreads.Library.Probe
import Mathlib.Data.List.Perm.Basic
import Mathlib.Data.Nat.Find

/-!
# The hash table as a finite map

`Hash.WF` is what holds of a table between two calls: its capacity is a power of two,
at most half of its slots are not free, every live key is found on its probe
sequence before a free slot, and no two live keys are equal. `WF` is kept by every
operation, and under it the operations act on `bindings` as their names say, as
long as `insert` is only called with absent keys.
-/

namespace PosixThreads

variable {K V : Type}

/-- The comparison is an equivalence that the hashers respect, and the second hash is
odd. -/
structure HashFns.Lawful (H : HashFns K) : Prop where
  eq_refl : ∀ a, H.eq a a = true
  eq_symm : ∀ a b, H.eq a b = true → H.eq b a = true
  eq_trans : ∀ a b c, H.eq a b = true → H.eq b c = true → H.eq a c = true
  primary_congr : ∀ a b, H.eq a b = true → H.primary a = H.primary b
  secondary_congr : ∀ a b, H.eq a b = true → H.secondary a = H.secondary b
  secondary_odd : ∀ a, H.secondary a % 2 = 1

def HashSlot.isFree : HashSlot K V → Bool
  | .free => true
  | _ => false

def HashSlot.isOccupied : HashSlot K V → Bool
  | .occupied _ _ => true
  | _ => false

namespace Hash

variable {H : HashFns K} {t : Hash K V} {key : K} {value : V}

def place (H : HashFns K) (t : Hash K V) (key : K) (n : ℕ) : ℕ :=
  Probe.probe (H.primary key) (probeOffset H t.capacity key) t.capacity n

structure WF (H : HashFns K) (t : Hash K V) : Prop where
  capacity_eq : ∃ k, t.capacity = 8 * 2 ^ k
  load : 2 * t.nonFreeEntries ≤ t.capacity
  nonFree_le : t.storage.countP (fun s => !s.isFree) ≤ t.nonFreeEntries
  reach : ∀ {i : ℕ} {a : K} {v : V}, t.storage[i]? = some (.occupied a v) →
    ∃ n < t.capacity, place H t a n = i ∧ ∀ m < n, t.storage[place H t a m]? ≠ some .free
  unique : ∀ {i j : ℕ} {a b : K} {v w : V}, t.storage[i]? = some (.occupied a v) →
    t.storage[j]? = some (.occupied b w) → H.eq a b = true → i = j
  len_eq : t.len = t.bindings.length

def Absent (H : HashFns K) (t : Hash K V) (key : K) : Prop :=
  ∀ a v, (a, v) ∈ t.bindings → H.eq key a = false

theorem mem_bindings {a : K} {v : V} :
    (a, v) ∈ t.bindings ↔ ∃ i : ℕ, t.storage[i]? = some (.occupied a v) := by
  simp only [bindings, List.mem_filterMap]
  constructor
  · rintro ⟨s, hs, heq⟩
    obtain ⟨i, hi⟩ := List.getElem?_of_mem hs
    cases s with
    | free => simp at heq
    | deleted => simp at heq
    | occupied b w =>
        simp only [Option.some.injEq, Prod.mk.injEq] at heq
        obtain ⟨rfl, rfl⟩ := heq
        exact ⟨i, hi⟩
  · rintro ⟨i, hi⟩
    exact ⟨_, List.mem_of_getElem? hi, rfl⟩

/-! ## Probing -/

/-- What probing relies on: the capacity is a power of two, and at most half of the slots are not
free. The counter may be more than the number of these slots. -/
structure Probeable (t : Hash K V) : Prop where
  capacity_eq : ∃ k, t.capacity = 8 * 2 ^ k
  load : 2 * t.nonFreeEntries ≤ t.capacity
  nonFree_le : t.storage.countP (fun s => !s.isFree) ≤ t.nonFreeEntries

theorem WF.probeable (hwf : WF H t) : Probeable t := ⟨hwf.capacity_eq, hwf.load, hwf.nonFree_le⟩

theorem place_congr (hH : H.Lawful) {a b : K} (h : H.eq a b = true) (n : ℕ) :
    place H t a n = place H t b n := by
  simp only [place, probeOffset, hH.primary_congr a b h, hH.secondary_congr a b h]

namespace Probeable

variable (ht : Probeable t)

include ht in
theorem capacity_ge : 8 ≤ t.capacity := by
  obtain ⟨k, hk⟩ := ht.capacity_eq
  have := Nat.one_le_two_pow (n := k)
  omega

include ht in
theorem place_lt (a : K) (n : ℕ) : place H t a n < t.capacity :=
  Probe.probe_lt (by have := ht.capacity_ge; omega) n

include ht in
theorem exists_slot (a : K) (n : ℕ) : ∃ s, t.storage[place H t a n]? = some s :=
  ⟨_, List.getElem?_eq_getElem (ht.place_lt a n)⟩

include ht in
/-- The offset of an odd hash has no common factor with the capacity. -/
theorem coprime_offset {a : K} (hodd : H.secondary a % 2 = 1) :
    Nat.Coprime (probeOffset H t.capacity a) t.capacity := by
  obtain ⟨k, hk⟩ := ht.capacity_eq
  have hpow : t.capacity = 2 ^ (k + 3) := by rw [hk, Nat.pow_add, Nat.mul_comm]
  have hmod : H.secondary a % t.capacity % 2 = 1 := by
    rw [Nat.mod_mod_of_dvd, hodd]
    rw [hpow, Nat.pow_succ]
    exact Nat.dvd_mul_left 2 _
  rw [probeOffset, if_neg (by omega)]
  rw [hpow] at hmod ⊢
  exact Probe.coprime_two_pow hmod _

include ht in
theorem exists_place {a : K} (hodd : H.secondary a % 2 = 1) {i : ℕ} (hi : i < t.capacity) :
    ∃ n < t.capacity, place H t a n = i :=
  Probe.exists_probe_eq (H.primary a) (ht.coprime_offset hodd) hi

include ht in
theorem exists_free : ∃ i < t.capacity, t.storage[i]? = some .free := by
  have hge := ht.capacity_ge
  have hlen : t.storage.length = t.capacity := rfl
  by_contra hnone
  push Not at hnone
  have hall : t.storage.countP (fun s => !s.isFree) = t.storage.length := by
    refine List.countP_eq_length.mpr fun s hs => ?_
    obtain ⟨i, hi⟩ := List.getElem?_of_mem hs
    have hlt : i < t.capacity := (List.getElem?_eq_some_iff.mp hi).1
    cases s with
    | free => exact absurd hi (hnone i hlt)
    | deleted => rfl
    | occupied => rfl
  have hle := ht.nonFree_le
  have hload := ht.load
  omega

end Probeable

theorem WF.capacity_ge (hwf : WF H t) : 8 ≤ t.capacity := hwf.probeable.capacity_ge

theorem probeOffset_ne_zero (H : HashFns K) (cap : ℕ) (key : K) : probeOffset H cap key ≠ 0 := by
  unfold probeOffset
  split <;> omega

def probeState (H : HashFns K) (t : Hash K V) (key : K) (n : ℕ) : ℕ × ℕ :=
  (place H t key n, if n = 0 then 0 else probeOffset H t.capacity key)

/-- The probing loop ends at the first place where it may. -/
theorem iterate_probe {skipDeleted : Bool} {n : ℕ} {s : HashSlot K V}
    (hn : t.storage[place H t key n]? = some s) (hstop : probeStops H key skipDeleted s = true)
    (hgo : ∀ m < n, ∃ s, t.storage[place H t key m]? = some s ∧
      probeStops H key skipDeleted s = false) (fuel m : ℕ) (hm : m ≤ n) (hfuel : n < m + fuel) :
    Iterate.iterate (probeTurn H t key skipDeleted) fuel (probeState H t key m) =
      some (some (place H t key n)) := by
  induction fuel generalizing m with
  | zero => omega
  | succ fuel ih =>
      rcases hm.lt_or_eq with hlt | rfl
      · obtain ⟨s', hs', hgo'⟩ := hgo m hlt
        have hturn : probeTurn H t key skipDeleted (probeState H t key m) =
            .inl (probeState H t key (m + 1)) := by
          have hplace : (place H t key m + probeOffset H t.capacity key) % t.capacity =
              place H t key (m + 1) := (Probe.probe_succ m).symm
          have hne := probeOffset_ne_zero H t.capacity key
          cases m with
          | zero => simp [probeTurn, probeState, hs', hgo', hplace]
          | succ m => simp [probeTurn, probeState, hs', hgo', hplace, hne]
        rw [Iterate.iterate_succ_of_inl fuel hturn]
        exact ih (m + 1) hlt (by omega)
      · have hturn : probeTurn H t key skipDeleted (probeState H t key m) =
            .inr (some (place H t key m)) := by
          simp only [probeTurn, probeState, hn, hstop, if_true]
        exact Iterate.iterate_succ_of_inr fuel hturn

/-- Probing for a key with an odd hash ends, at the first place of the sequence where it may. -/
theorem Probeable.indexForKey_spec (ht : Probeable t) (hodd : H.secondary key % 2 = 1)
    (skipDeleted : Bool) :
    ∃ n s, indexForKey H t key skipDeleted = some (place H t key n) ∧ n < t.capacity ∧
      t.storage[place H t key n]? = some s ∧ probeStops H key skipDeleted s = true ∧
      ∀ m < n, ∃ s, t.storage[place H t key m]? = some s ∧
        probeStops H key skipDeleted s = false := by
  classical
  obtain ⟨i, hi, hfree⟩ := ht.exists_free
  obtain ⟨n₀, hn₀, hplace⟩ := ht.exists_place hodd hi
  have hstop₀ : ∃ s, t.storage[place H t key n₀]? = some s ∧
      probeStops H key skipDeleted s = true := ⟨.free, by rw [hplace]; exact hfree, rfl⟩
  have hex : ∃ n, ∃ s, t.storage[place H t key n]? = some s ∧
      probeStops H key skipDeleted s = true := ⟨n₀, hstop₀⟩
  obtain ⟨s, hs, hstop⟩ := Nat.find_spec hex
  have hle : Nat.find hex ≤ n₀ := Nat.find_min' hex hstop₀
  have hgo : ∀ m < Nat.find hex, ∃ s, t.storage[place H t key m]? = some s ∧
      probeStops H key skipDeleted s = false := by
    intro m hm
    obtain ⟨s', hs'⟩ := ht.exists_slot key m
    refine ⟨s', hs', ?_⟩
    by_contra hne
    exact Nat.find_min hex hm ⟨s', hs', by simpa using hne⟩
  refine ⟨Nat.find hex, s, ?_, by omega, hs, hstop, hgo⟩
  have hstart : (H.primary key % t.capacity, 0) = probeState H t key 0 := by
    simp [probeState, place, Probe.probe_zero]
  rw [indexForKey, hstart, iterate_probe hs hstop hgo t.capacity 0 (Nat.zero_le _) (by omega)]
  rfl

theorem indexForKey_spec (hH : H.Lawful) (hwf : WF H t) (key : K) (skipDeleted : Bool) :
    ∃ n s, indexForKey H t key skipDeleted = some (place H t key n) ∧ n < t.capacity ∧
      t.storage[place H t key n]? = some s ∧ probeStops H key skipDeleted s = true ∧
      ∀ m < n, ∃ s, t.storage[place H t key m]? = some s ∧
        probeStops H key skipDeleted s = false :=
  hwf.probeable.indexForKey_spec (hH.secondary_odd key) skipDeleted

/-! ## Looking up and removing -/

section Lookup

variable (hH : H.Lawful) (hwf : WF H t)

include hH hwf in
theorem indexForKey_of_occupied {i : ℕ} {a : K} {v : V}
    (hi : t.storage[i]? = some (.occupied a v)) (heq : H.eq key a = true) :
    indexForKey H t key true = some i := by
  obtain ⟨n, s, hindex, _, hs, hstop, hgo⟩ := indexForKey_spec hH hwf key true
  obtain ⟨m, _, hm, hfree⟩ := hwf.reach hi
  have hplace : place H t key m = i := by rw [place_congr hH heq, hm]
  rw [hindex, Option.some.injEq]
  rcases lt_trichotomy n m with hlt | rfl | hgt
  · -- an equal key in front would be the same key
    cases s with
    | free =>
        rw [place_congr hH heq] at hs
        exact absurd hs (hfree n hlt)
    | deleted => simp [probeStops] at hstop
    | occupied b w =>
        exact hwf.unique hs hi (hH.eq_trans _ _ _ (hH.eq_symm _ _ hstop) heq)
  · exact hplace
  · obtain ⟨s', hs', hgo'⟩ := hgo m hgt
    rw [hplace, hi, Option.some.injEq] at hs'
    subst hs'
    simp [probeStops, heq] at hgo'

include hH hwf in
/-- Probing for a key that is not live ends at a free slot. -/
theorem indexForKey_of_absent (habsent : Absent H t key) :
    ∃ i : ℕ, indexForKey H t key true = some i ∧ t.storage[i]? = some .free := by
  obtain ⟨n, s, hindex, _, hs, hstop, _⟩ := indexForKey_spec hH hwf key true
  refine ⟨_, hindex, ?_⟩
  cases s with
  | free => exact hs
  | deleted => simp [probeStops] at hstop
  | occupied a v =>
      have := habsent a v (mem_bindings.mpr ⟨_, hs⟩)
      simp only [probeStops] at hstop
      rw [hstop] at this
      simp at this

include hH hwf in
theorem get_of_mem {a : K} {v : V} (hmem : (a, v) ∈ t.bindings) (heq : H.eq key a = true) :
    get H t key = some (some v) := by
  obtain ⟨i, hi⟩ := mem_bindings.mp hmem
  simp [get, indexForKey_of_occupied hH hwf hi heq, hi]

include hH hwf in
theorem get_of_absent (habsent : Absent H t key) : get H t key = some none := by
  obtain ⟨i, hindex, hi⟩ := indexForKey_of_absent hH hwf habsent
  simp [get, hindex, hi]

include hH hwf in
theorem get_cases (key : K) :
    (∃ a v, (a, v) ∈ t.bindings ∧ H.eq key a = true ∧ get H t key = some (some v)) ∨
      (Absent H t key ∧ get H t key = some none) := by
  by_cases habsent : Absent H t key
  · exact .inr ⟨habsent, get_of_absent hH hwf habsent⟩
  · simp only [Absent, not_forall, Bool.not_eq_false] at habsent
    obtain ⟨a, v, hmem, heq⟩ := habsent
    exact .inl ⟨a, v, hmem, heq, get_of_mem hH hwf hmem heq⟩

end Lookup

/-! ## Changing one slot -/

section Store

variable {i : ℕ} {s : HashSlot K V}

theorem length_bindings (t : Hash K V) :
    t.bindings.length = t.storage.countP HashSlot.isOccupied := by
  rw [bindings, List.length_filterMap_eq_countP]
  refine List.countP_congr fun s _ => ?_
  cases s <;> simp [HashSlot.isOccupied]

theorem getElem?_store {s₀ : HashSlot K V} (hi : t.storage[i]? = some s₀) (j : ℕ) :
    (t.storage.set i s)[j]? = if j = i then some s else t.storage[j]? := by
  have hlt := (List.getElem?_eq_some_iff.mp hi).1
  by_cases hj : j = i
  · subst hj
    simp [hlt]
  · rw [if_neg hj, List.getElem?_set_ne (Ne.symm hj)]

variable {s₀ : HashSlot K V}

theorem mem_bindings_put (hi : t.storage[i]? = some s₀) (hs₀ : ∀ a v, s₀ ≠ .occupied a v)
    {t' : Hash K V} (ht' : t'.storage = t.storage.set i (.occupied key value)) (a : K) (v : V) :
    (a, v) ∈ t'.bindings ↔ (a, v) ∈ t.bindings ∨ (a = key ∧ v = value) := by
  simp only [mem_bindings, ht', getElem?_store hi]
  constructor
  · rintro ⟨j, hj⟩
    split at hj
    · simp only [Option.some.injEq, HashSlot.occupied.injEq] at hj
      exact .inr ⟨hj.1.symm, hj.2.symm⟩
    · exact .inl ⟨j, hj⟩
  · rintro (⟨j, hj⟩ | ⟨rfl, rfl⟩)
    · refine ⟨j, ?_⟩
      rw [if_neg, hj]
      rintro rfl
      rw [hj, Option.some.injEq] at hi
      exact hs₀ a v hi.symm
    · exact ⟨i, by simp⟩

theorem Probeable.put (ht : Probeable t) (key : K) (value : V) (hi : t.storage[i]? = some s₀)
    (hroom : 2 * (t.nonFreeEntries + 1) ≤ t.capacity) :
    Probeable { t with
      storage := t.storage.set i (.occupied key value)
      len := t.len + 1
      nonFreeEntries := t.nonFreeEntries + 1 } := by
  have hset := Heap.countP_set_add (fun s : HashSlot K V => !s.isFree) hi (.occupied key value)
  have hle := ht.nonFree_le
  have hnew : (HashSlot.occupied key value).isFree = false := rfl
  refine ⟨?_, ?_, ?_⟩
  · simpa [capacity] using ht.capacity_eq
  · simpa [capacity] using hroom
  · simp only [hnew, Bool.not_false, if_true] at hset ⊢
    omega

theorem Probeable.delete (ht : Probeable t) {b : K} {w : V}
    (hi : t.storage[i]? = some (.occupied b w)) :
    Probeable { t with storage := t.storage.set i .deleted, len := t.len - 1 } := by
  have hset := Heap.countP_set_add (fun s : HashSlot K V => !s.isFree) hi .deleted
  have hle := ht.nonFree_le
  have hold : (HashSlot.occupied b w).isFree = false := rfl
  have hnew : (HashSlot.deleted : HashSlot K V).isFree = false := rfl
  refine ⟨?_, ?_, ?_⟩
  · simpa [capacity] using ht.capacity_eq
  · simpa [capacity] using ht.load
  · simp only [hold, hnew, Bool.not_false, if_true] at hset ⊢
    omega

/-- A table in which an absent key has been written to a slot of its probe sequence. -/
theorem WF.put (hwf : WF H t) (habsent : Absent H t key) {n : ℕ} (hn : n < t.capacity)
    (hi : t.storage[place H t key n]? = some s₀) (hs₀ : ∀ a v, s₀ ≠ .occupied a v)
    (hgo : ∀ m < n, t.storage[place H t key m]? ≠ some .free)
    (hroom : 2 * (t.nonFreeEntries + 1) ≤ t.capacity) (hH : H.Lawful) :
    WF H { t with
      storage := t.storage.set (place H t key n) (.occupied key value)
      len := t.len + 1
      nonFreeEntries := t.nonFreeEntries + 1 } := by
  have hprobe := hwf.probeable.put key value hi hroom
  generalize ht' : ({ t with
    storage := t.storage.set (place H t key n) (.occupied key value)
    len := t.len + 1
    nonFreeEntries := t.nonFreeEntries + 1 } : Hash K V) = t' at hprobe ⊢
  have hstorage : t'.storage = t.storage.set (place H t key n) (.occupied key value) := by
    rw [← ht']
  have hcap : t'.capacity = t.capacity := by simp [capacity, hstorage]
  have hplace : place H t' = place H t := by
    funext a m
    simp only [place, hcap]
  have hget : ∀ j : ℕ, t'.storage[j]? = if j = place H t key n then
      some (.occupied key value) else t.storage[j]? := by
    intro j
    rw [hstorage]
    exact getElem?_store hi j
  have hfree : ∀ j : ℕ, t.storage[j]? ≠ some .free → t'.storage[j]? ≠ some .free := by
    intro j hj
    rw [hget]
    split
    · simp
    · exact hj
  have hkey : ∀ (j : ℕ) (a : K) (v : V), t.storage[j]? = some (.occupied a v) →
      H.eq key a = false := fun j a v hj => habsent a v (mem_bindings.mpr ⟨j, hj⟩)
  refine ⟨hprobe.capacity_eq, hprobe.load, hprobe.nonFree_le, ?_, ?_, ?_⟩
  · intro j a v hj
    rw [hget] at hj
    rw [hcap, hplace]
    split at hj
    · rename_i hjn
      simp only [Option.some.injEq, HashSlot.occupied.injEq] at hj
      obtain ⟨rfl, rfl⟩ := hj
      exact ⟨n, hn, hjn.symm, fun m hm => hfree _ (hgo m hm)⟩
    · obtain ⟨m, hm, hplace', hgo'⟩ := hwf.reach hj
      exact ⟨m, hm, hplace', fun m' hm' => hfree _ (hgo' m' hm')⟩
  · intro j j' a b v w hj hj' heq
    rw [hget] at hj hj'
    split at hj <;> split at hj'
    · omega
    · simp only [Option.some.injEq, HashSlot.occupied.injEq] at hj
      obtain ⟨rfl, rfl⟩ := hj
      rw [hkey j' b w hj'] at heq
      simp at heq
    · simp only [Option.some.injEq, HashSlot.occupied.injEq] at hj'
      obtain ⟨rfl, rfl⟩ := hj'
      have := hH.eq_symm _ _ heq
      rw [hkey j a v hj] at this
      simp at this
    · exact hwf.unique hj hj' heq
  · have hset := Heap.countP_set_add HashSlot.isOccupied hi (.occupied key value)
    have hlen := hwf.len_eq
    rw [length_bindings] at hlen
    rw [length_bindings, hstorage, ← ht']
    cases s₀ with
    | occupied a v => exact absurd rfl (hs₀ a v)
    | free =>
        simp only [HashSlot.isOccupied, Bool.false_eq_true, if_false, if_true] at hset ⊢
        omega
    | deleted =>
        simp only [HashSlot.isOccupied, Bool.false_eq_true, if_false, if_true] at hset ⊢
        omega

theorem put_spec (hH : H.Lawful) (hwf : WF H t) (habsent : Absent H t key)
    (hroom : 2 * (t.nonFreeEntries + 1) ≤ t.capacity) (value : V) :
    ∃ t', put H t key value = some t' ∧ WF H t' ∧ t'.capacity = t.capacity ∧
      t'.nonFreeEntries = t.nonFreeEntries + 1 ∧ t'.rehashing = t.rehashing ∧
      ∀ a v, (a, v) ∈ t'.bindings ↔ (a, v) ∈ t.bindings ∨ (a = key ∧ v = value) := by
  obtain ⟨n, s, hindex, hn, hs, hstop, hgo⟩ := indexForKey_spec hH hwf key false
  have hs₀ : ∀ a v, s ≠ .occupied a v := by
    rintro a v rfl
    have := habsent a v (mem_bindings.mpr ⟨_, hs⟩)
    simp only [probeStops] at hstop
    rw [hstop] at this
    simp at this
  have hgo' : ∀ m < n, t.storage[place H t key m]? ≠ some .free := by
    intro m hm hfree
    obtain ⟨s', hs', hgo'⟩ := hgo m hm
    rw [hfree, Option.some.injEq] at hs'
    subst hs'
    simp [probeStops] at hgo'
  refine ⟨_, by simp [put, hindex]; rfl, hwf.put habsent hn hs hs₀ hgo' hroom hH,
    by simp [capacity], rfl, rfl, ?_⟩
  exact mem_bindings_put hs hs₀ rfl

theorem mem_bindings_delete (hwf : WF H t) (hH : H.Lawful) {b : K} {w : V}
    (hi : t.storage[i]? = some (.occupied b w)) (heq : H.eq key b = true) {t' : Hash K V}
    (ht' : t'.storage = t.storage.set i .deleted) (a : K) (v : V) :
    (a, v) ∈ t'.bindings ↔ (a, v) ∈ t.bindings ∧ H.eq key a = false := by
  simp only [mem_bindings, ht', getElem?_store hi]
  constructor
  · rintro ⟨j, hj⟩
    split at hj
    · simp at hj
    · rename_i hne
      refine ⟨⟨j, hj⟩, ?_⟩
      by_contra hka
      simp only [Bool.not_eq_false] at hka
      exact hne (hwf.unique hj hi (hH.eq_trans _ _ _ (hH.eq_symm _ _ hka) heq))
  · rintro ⟨⟨j, hj⟩, hka⟩
    refine ⟨j, ?_⟩
    rw [if_neg, hj]
    rintro rfl
    rw [hj, Option.some.injEq, HashSlot.occupied.injEq] at hi
    rw [hi.1, heq] at hka
    simp at hka

theorem WF.delete (hwf : WF H t) {b : K} {w : V} (hi : t.storage[i]? = some (.occupied b w)) :
    WF H { t with storage := t.storage.set i .deleted, len := t.len - 1 } := by
  have hprobe := hwf.probeable.delete hi
  generalize ht' : ({ t with
    storage := t.storage.set i .deleted, len := t.len - 1 } : Hash K V) = t' at hprobe ⊢
  have hstorage : t'.storage = t.storage.set i .deleted := by rw [← ht']
  have hcap : t'.capacity = t.capacity := by simp [capacity, hstorage]
  have hplace : place H t' = place H t := by
    funext a m
    simp only [place, hcap]
  have hget : ∀ j : ℕ, t'.storage[j]? = if j = i then some .deleted else t.storage[j]? := by
    intro j
    rw [hstorage]
    exact getElem?_store hi j
  have hlive : ∀ (j : ℕ) (a : K) (v : V), t'.storage[j]? = some (.occupied a v) →
      t.storage[j]? = some (.occupied a v) := by
    intro j a v hj
    rw [hget] at hj
    split at hj
    · simp at hj
    · exact hj
  refine ⟨hprobe.capacity_eq, hprobe.load, hprobe.nonFree_le, ?_, ?_, ?_⟩
  · intro j a v hj
    obtain ⟨m, hm, hplace', hgo⟩ := hwf.reach (hlive j a v hj)
    rw [hcap, hplace]
    refine ⟨m, hm, hplace', fun m' hm' => ?_⟩
    rw [hget]
    split
    · simp
    · exact hgo m' hm'
  · intro j j' a b v w hj hj' heq
    exact hwf.unique (hlive j a v hj) (hlive j' b w hj') heq
  · have hset := Heap.countP_set_add HashSlot.isOccupied hi .deleted
    have hlen := hwf.len_eq
    rw [length_bindings] at hlen
    rw [length_bindings, hstorage, ← ht']
    simp only [HashSlot.isOccupied, Bool.false_eq_true, if_false, if_true] at hset ⊢
    omega

theorem remove_of_mem (hH : H.Lawful) (hwf : WF H t) {b : K} {w : V}
    (hmem : (b, w) ∈ t.bindings) (heq : H.eq key b = true) :
    ∃ t', remove H t key = some (some w, t') ∧ WF H t' ∧ t'.capacity = t.capacity ∧
      t'.rehashing = t.rehashing ∧
      ∀ a v, (a, v) ∈ t'.bindings ↔ (a, v) ∈ t.bindings ∧ H.eq key a = false := by
  obtain ⟨i, hi⟩ := mem_bindings.mp hmem
  refine ⟨{ t with storage := t.storage.set i .deleted, len := t.len - 1 }, ?_, hwf.delete hi,
    by simp [capacity], rfl, mem_bindings_delete hwf hH hi heq rfl⟩
  simp [remove, indexForKey_of_occupied hH hwf hi heq, hi]

end Store

/-! ## Rehashing and inserting -/

/-- The live slots are some of those that are counted. -/
theorem Probeable.live_le (ht : Probeable t) :
    t.storage.countP HashSlot.isOccupied ≤ t.nonFreeEntries := by
  refine le_trans (List.countP_mono_left fun s _ hs => ?_) ht.nonFree_le
  cases s with
  | occupied => rfl
  | free => simp [HashSlot.isOccupied] at hs
  | deleted => simp [HashSlot.isOccupied] at hs

theorem Probeable.blank {cap : ℕ} (hcap : ∃ k, cap = 8 * 2 ^ k) :
    Probeable (blank cap : Hash K V) := by
  refine ⟨?_, Nat.zero_le _, ?_⟩
  · simpa [capacity, Hash.blank] using hcap
  · simp [Hash.blank, List.countP_replicate, HashSlot.isFree]

theorem WF.blank {cap : ℕ} (hcap : ∃ k, cap = 8 * 2 ^ k) : WF H (blank cap : Hash K V) := by
  have hnone : ∀ (i : ℕ) (a : K) (v : V),
      (Hash.blank cap : Hash K V).storage[i]? ≠ some (.occupied a v) := by
    intro i a v hi
    have := List.eq_of_mem_replicate (List.mem_of_getElem? hi)
    simp at this
  have hprobe : Probeable (Hash.blank cap : Hash K V) := .blank hcap
  refine ⟨hprobe.capacity_eq, hprobe.load, hprobe.nonFree_le, fun hi => absurd hi (hnone _ _ _),
    fun hi => absurd hi (hnone _ _ _), ?_⟩
  simp [length_bindings, Hash.blank, List.countP_replicate, HashSlot.isOccupied]

/-- The loop of `rehash`: the live slots are inserted one after the other. -/
theorem foldlM_reinsert (hH : H.Lawful) (slots : List (HashSlot K V)) {m : Hash K V}
    (hwf : WF H m)
    (hroom : 2 * (m.nonFreeEntries + slots.countP HashSlot.isOccupied) ≤ m.capacity)
    (habsent : ∀ a v, .occupied a v ∈ slots → Absent H m a)
    (hpair : slots.Pairwise fun s s' => ∀ a v b w, s = .occupied a v → s' = .occupied b w →
      H.eq a b = false) :
    ∃ m', slots.foldlM (reinsert H) m = some m' ∧ WF H m' ∧ m'.capacity = m.capacity ∧
      m'.nonFreeEntries = m.nonFreeEntries + slots.countP HashSlot.isOccupied ∧
      ∀ a v, (a, v) ∈ m'.bindings ↔ (a, v) ∈ m.bindings ∨ .occupied a v ∈ slots := by
  induction slots generalizing m with
  | nil => exact ⟨m, rfl, hwf, rfl, rfl, by simp⟩
  | cons s slots ih =>
      rw [List.pairwise_cons] at hpair
      have hskip : s.isOccupied = false → ∃ m', (s :: slots).foldlM (reinsert H) m = some m' ∧
          WF H m' ∧ m'.capacity = m.capacity ∧
          m'.nonFreeEntries = m.nonFreeEntries + (s :: slots).countP HashSlot.isOccupied ∧
          ∀ a v, (a, v) ∈ m'.bindings ↔ (a, v) ∈ m.bindings ∨ .occupied a v ∈ s :: slots := by
        intro hs
        have hcount : (s :: slots).countP HashSlot.isOccupied =
            slots.countP HashSlot.isOccupied := by simp [hs]
        rw [hcount] at hroom ⊢
        obtain ⟨m', hfold, hwf', hcap, hnon, hmem⟩ := ih hwf hroom
          (fun a v h => habsent a v (List.mem_cons_of_mem _ h)) hpair.2
        refine ⟨m', ?_, hwf', hcap, hnon, fun a v => ?_⟩
        · cases s with
          | occupied a v => simp [HashSlot.isOccupied] at hs
          | free => simpa [reinsert] using hfold
          | deleted => simpa [reinsert] using hfold
        · have hne : HashSlot.occupied a v ≠ s := by
            rintro rfl
            simp [HashSlot.isOccupied] at hs
          simp [hmem, hne]
      cases s with
      | free => exact hskip rfl
      | deleted => exact hskip rfl
      | occupied key value =>
          have hcount : (HashSlot.occupied key value :: slots).countP HashSlot.isOccupied =
              slots.countP HashSlot.isOccupied + 1 := by
            rw [List.countP_cons]
            rfl
          rw [hcount] at hroom ⊢
          have hno : shouldRehash m.nonFreeEntries m.capacity = false := by
            simp only [shouldRehash, decide_eq_false_iff_not]
            omega
          obtain ⟨m₁, hput, hwf₁, hcap₁, hnon₁, _, hmem₁⟩ :=
            put_spec hH hwf (habsent key value (by simp)) (by omega) value
          obtain ⟨m', hfold, hwf', hcap', hnon', hmem'⟩ := ih hwf₁ (by omega) (fun a v h => by
            intro b w hb
            rcases (hmem₁ b w).mp hb with hb | ⟨rfl, rfl⟩
            · exact habsent a v (List.mem_cons_of_mem _ h) b w hb
            · have hne := hpair.1 _ h _ _ _ _ rfl rfl
              by_contra heq
              simp only [Bool.not_eq_false] at heq
              rw [hH.eq_symm _ _ heq] at hne
              simp at hne) hpair.2
          refine ⟨m', ?_, hwf', by omega, by omega, fun a v => ?_⟩
          · simpa [reinsert, hno, hput] using hfold
          · rw [hmem', hmem₁, List.mem_cons, HashSlot.occupied.injEq]
            tauto

theorem Probeable.newCapacity_eq (ht : Probeable t) : newCapacity t.capacity = 2 * t.capacity := by
  have hge := ht.capacity_ge
  rw [newCapacity, enlargementMultiplier, if_neg (by omega), Nat.mul_comm]

def Granted (H : HashFns K) (ok : Bool) (t : Hash K V) : Prop :=
  (ok && newCapacity t.capacity * H.elementSize ≤ ptrdiffMax) = true

instance (ok : Bool) : Decidable (Granted H ok t) :=
  inferInstanceAs (Decidable ((ok && newCapacity t.capacity * H.elementSize ≤ ptrdiffMax) = true))

/-- Rehashing keeps the bindings and forgets the deleted slots, in twice the room. -/
theorem rehash_of_granted (hH : H.Lawful) (hwf : WF H t) (hnot : t.rehashing = false) {ok : Bool}
    (hok : Granted H ok t) :
    ∃ t', rehash H ok t = some (none, t') ∧ WF H t' ∧ t'.rehashing = false ∧
      t'.capacity = 2 * t.capacity ∧ t'.nonFreeEntries = t.len ∧
      ∀ b, b ∈ t'.bindings ↔ b ∈ t.bindings := by
  obtain ⟨k, hk⟩ := hwf.capacity_eq
  have hnew := hwf.probeable.newCapacity_eq
  have hblank : WF H (blank (newCapacity t.capacity) : Hash K V) :=
    WF.blank ⟨k + 1, by rw [hnew, hk, Nat.pow_succ]; omega⟩
  have hcap : (blank (newCapacity t.capacity) : Hash K V).capacity = 2 * t.capacity := by
    rw [← hnew]
    simp [blank, capacity]
  have hnone : ∀ b, b ∉ (blank (newCapacity t.capacity) : Hash K V).bindings := by
    rintro ⟨a, v⟩ hb
    obtain ⟨i, hi⟩ := mem_bindings.mp hb
    have := List.eq_of_mem_replicate (List.mem_of_getElem? hi)
    simp at this
  have hload := hwf.load
  have hlive := hwf.probeable.live_le
  have hzero : (blank (newCapacity t.capacity) : Hash K V).nonFreeEntries = 0 := rfl
  obtain ⟨m', hfold, hwf', hcap', hnon', hmem'⟩ := foldlM_reinsert hH t.storage hblank
    (by omega)
    (fun a v _ b w hb => absurd hb (hnone _))
    (by
      rw [List.pairwise_iff_getElem]
      intro i j hi hj hlt a v b w ha hb
      by_contra heq
      simp only [Bool.not_eq_false] at heq
      have := hwf.unique (List.getElem?_eq_some_iff.mpr ⟨hi, ha⟩)
        (List.getElem?_eq_some_iff.mpr ⟨hj, hb⟩) heq
      omega)
  refine ⟨{ m' with rehashing := false }, ?_, ?_, rfl, ?_, ?_, ?_⟩
  · rw [Granted] at hok
    simp [rehash, hnot, hok, hfold]
  · exact ⟨hwf'.capacity_eq, hwf'.load, hwf'.nonFree_le, hwf'.reach, hwf'.unique, hwf'.len_eq⟩
  · exact hcap'.trans hcap
  · rw [hwf.len_eq, length_bindings]
    exact hnon'.trans (by omega)
  · rintro ⟨a, v⟩
    have hkeep : (a, v) ∈ ({ m' with rehashing := false } : Hash K V).bindings ↔
        (a, v) ∈ m'.bindings := Iff.rfl
    rw [hkeep, hmem', or_iff_right (hnone _), mem_bindings, List.mem_iff_getElem?]

theorem rehash_of_not_granted (hnot : t.rehashing = false) {ok : Bool} (hok : ¬ Granted H ok t) :
    rehash H ok t = some (some .memoryAllocationFailure, t) := by
  rw [Granted] at hok
  rw [rehash, hnot, if_neg (by simp), if_neg hok]
  rfl

def Refused (H : HashFns K) (ok : Bool) (t : Hash K V) : Prop :=
  shouldRehash t.nonFreeEntries t.capacity = true ∧ ¬ Granted H ok t

instance (ok : Bool) : Decidable (Refused H ok t) :=
  inferInstanceAs (Decidable (shouldRehash t.nonFreeEntries t.capacity = true ∧ ¬ Granted H ok t))

def Grows (H : HashFns K) (ok : Bool) (t : Hash K V) : Prop :=
  shouldRehash t.nonFreeEntries t.capacity = true ∧ Granted H ok t

instance (ok : Bool) : Decidable (Grows H ok t) :=
  inferInstanceAs (Decidable (shouldRehash t.nonFreeEntries t.capacity = true ∧ Granted H ok t))

theorem insert_of_refused (hwf : WF H t) (hnot : t.rehashing = false) {ok : Bool}
    (href : Refused H ok t) (key : K) (value : V) :
    insert H ok t key value = some (some .memoryAllocationFailure, t) := by
  have hge := hwf.capacity_ge
  have hcap : t.capacity ≠ 0 := by omega
  simp [insert, hcap, href.1, rehash_of_not_granted hnot href.2]

/-- What the part of `insert` behind the rehash gets: room for one more key. -/
theorem insert_of_not_refused (hH : H.Lawful) (hwf : WF H t) (hnot : t.rehashing = false)
    {ok : Bool} (href : ¬ Refused H ok t) :
    ∃ t₁, (∀ key value, insert H ok t key value = (put H t₁ key value).map fun t' => (none, t')) ∧
      WF H t₁ ∧ t₁.rehashing = false ∧ 2 * (t₁.nonFreeEntries + 1) ≤ t₁.capacity ∧
      t₁.capacity = (if Grows H ok t then 2 * t.capacity else t.capacity) ∧
      t₁.nonFreeEntries = (if Grows H ok t then t.len else t.nonFreeEntries) ∧
      ∀ b, b ∈ t₁.bindings ↔ b ∈ t.bindings := by
  have hge := hwf.capacity_ge
  have hcap : t.capacity ≠ 0 := by omega
  by_cases hgrow : Grows H ok t
  · obtain ⟨t₁, hrehash, hwf₁, hnot₁, hcap₁, hnon₁, hmem₁⟩ :=
      rehash_of_granted hH hwf hnot hgrow.2
    have hlive := hwf.probeable.live_le
    have hload := hwf.load
    have hlen := hwf.len_eq.trans (length_bindings t)
    refine ⟨t₁, fun key value => ?_, hwf₁, hnot₁, by omega, by rw [if_pos hgrow, hcap₁],
      by rw [if_pos hgrow, hnon₁], hmem₁⟩
    cases hput : put H t₁ key value <;> simp [insert, hcap, hgrow.1, hrehash, hput]
  · have hshould : shouldRehash t.nonFreeEntries t.capacity = false := by
      by_contra hne
      rw [Bool.not_eq_false] at hne
      exact href ⟨hne, fun hgranted => hgrow ⟨hne, hgranted⟩⟩
    have hroom : 2 * (t.nonFreeEntries + 1) ≤ t.capacity := by
      obtain ⟨k, hk⟩ := hwf.capacity_eq
      simp only [shouldRehash, decide_eq_false_iff_not, not_le] at hshould
      omega
    refine ⟨t, fun key value => ?_, hwf, hnot, hroom, by rw [if_neg hgrow], by rw [if_neg hgrow],
      fun _ => Iff.rfl⟩
    cases hput : put H t key value <;> simp [insert, hcap, hshould, hput]

theorem insert_spec (hH : H.Lawful) (hwf : WF H t) (hnot : t.rehashing = false)
    (habsent : Absent H t key) (ok : Bool) (value : V) :
    insert H ok t key value = some (some .memoryAllocationFailure, t) ∨
      ∃ t', insert H ok t key value = some (none, t') ∧ WF H t' ∧ t'.rehashing = false ∧
        ∀ a v, (a, v) ∈ t'.bindings ↔ (a, v) ∈ t.bindings ∨ (a = key ∧ v = value) := by
  by_cases href : Refused H ok t
  · exact .inl (insert_of_refused hwf hnot href key value)
  · right
    obtain ⟨t₁, hinsert, hwf₁, hnot₁, hroom₁, _, _, hmem₁⟩ :=
      insert_of_not_refused hH hwf hnot href
    have habsent₁ : Absent H t₁ key := fun a v h => habsent a v ((hmem₁ _).mp h)
    obtain ⟨t', hput, hwf', _, _, hnot', hmem'⟩ := put_spec hH hwf₁ habsent₁ hroom₁ value
    refine ⟨t', by rw [hinsert, hput]; rfl, hwf', hnot'.trans hnot₁, fun a v => ?_⟩
    rw [hmem', hmem₁]

theorem new_spec (H : HashFns K) (ok : Bool) :
    (∃ t₀, (new H ok : Option (_ × Hash K V)) = some (some .memoryAllocationFailure, t₀)) ∨
      ∃ t : Hash K V, new H ok = some (none, t) ∧ WF H t ∧ t.rehashing = false ∧
        t.bindings = [] := by
  have hzero : (⟨[], 0, 0, false⟩ : Hash K V).capacity = 0 := rfl
  by_cases hok : (ok && newCapacity 0 * H.elementSize ≤ ptrdiffMax) = true
  · right
    have hblank : WF H (blank 8 : Hash K V) := WF.blank ⟨0, rfl⟩
    refine ⟨{ (blank 8 : Hash K V) with rehashing := false }, ?_, ?_, rfl, rfl⟩
    · rw [new, rehash, if_neg (by simp), hzero, if_pos hok]
      rfl
    · exact ⟨hblank.capacity_eq, hblank.load, hblank.nonFree_le, hblank.reach, hblank.unique,
        hblank.len_eq⟩
  · left
    refine ⟨⟨[], 0, 0, false⟩, ?_⟩
    rw [new, rehash, if_neg (by simp), hzero, if_neg hok]
    rfl

theorem WF.value_unique (hwf : WF H t) {a b : K} {v w : V} (ha : (a, v) ∈ t.bindings)
    (hb : (b, w) ∈ t.bindings) (heq : H.eq a b = true) : a = b ∧ v = w := by
  obtain ⟨i, hi⟩ := mem_bindings.mp ha
  obtain ⟨j, hj⟩ := mem_bindings.mp hb
  have hij := hwf.unique hi hj heq
  rw [hij, hj, Option.some.injEq, HashSlot.occupied.injEq] at hi
  exact ⟨hi.1.symm, hi.2.symm⟩

theorem WF.pairwise (hwf : WF H t) :
    t.bindings.Pairwise fun b b' => H.eq b.1 b'.1 = false := by
  rw [bindings, List.pairwise_filterMap, List.pairwise_iff_getElem]
  intro i j hi hj hlt b hb b' hb'
  by_contra heq
  simp only [Bool.not_eq_false] at heq
  have hslot : ∀ (k : ℕ) (hk : k < t.storage.length) (c : K × V),
      (match t.storage[k] with
        | .occupied key value => some (key, value)
        | _ => none) = some c → t.storage[k]? = some (.occupied c.1 c.2) := by
    intro k hk c hc
    rw [List.getElem?_eq_getElem hk]
    cases hs : t.storage[k] with
    | free => simp [hs] at hc
    | deleted => simp [hs] at hc
    | occupied a v =>
        simp only [hs, Option.some.injEq] at hc
        rw [← hc]
  have := hwf.unique (hslot i hi b hb) (hslot j hj b' hb') heq
  omega

end Hash

end PosixThreads
