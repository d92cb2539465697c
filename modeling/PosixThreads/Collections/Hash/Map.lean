import PosixThreads.Collections.Hash.ByteHasher
import PosixThreads.Collections.Hash.Spec
import PosixThreads.Library.Lts

/-!
# The hash table refines a finite map

The map is the list of its live keys with their values, in the order in which they were
inserted. `MapStep` is what the operations mean for it. Runs of the table, in which
`insert` is only called with absent keys, have the results of runs of the map.

The allocation of a rehash may fail at any time. `for_each` does not promise an order,
and its callback may stop it.
-/

namespace PosixThreads

variable {K V : Type}

namespace Hash

/-- The loop of `for_each` over the slots. The callback gets the key, the value and
`opaque_data`, and stops the loop by returning true. -/
def forEachFrom {σ : Type} (callback : K → V → σ → Bool × σ) : List (HashSlot K V) → σ → σ
  | [], data => data
  | .occupied key value :: slots, data =>
      match callback key value data with
      | (true, data) => data
      | (false, data) => forEachFrom callback slots data
  | _ :: slots, data => forEachFrom callback slots data

def forEach {σ : Type} (callback : K → V → σ → Bool × σ) (t : Hash K V) (data : σ) : σ :=
  forEachFrom callback t.storage data

end Hash

/-- The operations. Whether a rehash would get its memory is `ok`, and a callback decides
whether to stop by what it has seen so far. -/
inductive HashOp (K V : Type)
  | insert (key : K) (value : V) (ok : Bool)
  | remove (key : K)
  | get (key : K)
  | forEach (stop : List (K × V) → Bool)

/-- What an operation returns, and what the callback of `for_each` has seen. -/
inductive HashResult (K V : Type)
  | status (err : Option CommonErrorCode)
  | removed (value : Option V)
  | found (value : Option V)
  | visited (seen : List (K × V))
  deriving DecidableEq

def noteSeen (stop : List (K × V) → Bool) (key : K) (value : V) (seen : List (K × V)) :
    Bool × List (K × V) :=
  (stop (seen ++ [(key, value)]), seen ++ [(key, value)])

namespace Hash

def exec (H : HashFns K) (t : Hash K V) : HashOp K V → Option (HashResult K V × Hash K V)
  | .insert key value ok => do
      let (err, t) ← t.insert H ok key value
      return (.status err, t)
  | .remove key => do
      let (value, t) ← t.remove H key
      return (.removed value, t)
  | .get key => do return (.found (← t.get H key), t)
  | .forEach stop => some (.visited (t.forEach (noteSeen stop) []), t)

def Allowed (H : HashFns K) (t : Hash K V) : HashOp K V → Prop
  | .insert key _ _ => Absent H t key
  | _ => True

instance (H : HashFns K) (t : Hash K V) (key : K) : Decidable (Absent H t key) :=
  decidable_of_iff (∀ p ∈ t.bindings, H.eq key p.1 = false) Prod.forall

instance (H : HashFns K) (t : Hash K V) (op : HashOp K V) : Decidable (Allowed H t op) :=
  match op with
  | .insert key _ _ => inferInstanceAs (Decidable (Absent H t key))
  | .remove _ | .get _ | .forEach _ => inferInstanceAs (Decidable True)

def Fresh (H : HashFns K) (t : Hash K V) : Prop := ∃ ok, new H ok = some (none, t)

def Call (H : HashFns K) (t : Hash K V) (call : HashOp K V × HashResult K V) (t' : Hash K V) :
    Prop :=
  t.Allowed H call.1 ∧ t.exec H call.1 = some (call.2, t')

end Hash

/-! ## Finite maps -/

def mapLookup (H : HashFns K) (m : List (K × V)) (key : K) : Option V :=
  (m.find? fun p => H.eq key p.1).map Prod.snd

def mapErase (H : HashFns K) (m : List (K × V)) (key : K) : List (K × V) :=
  m.filter fun p => !H.eq key p.1

/-- What a callback has seen of a list, if it started with `seen`. -/
def visits (stop : List (K × V) → Bool) : List (K × V) → List (K × V) → List (K × V)
  | seen, [] => seen
  | seen, p :: l => if stop (seen ++ [p]) then seen ++ [p] else visits stop (seen ++ [p]) l

inductive MapStep (H : HashFns K) (m : List (K × V)) :
    HashOp K V × HashResult K V → List (K × V) → Prop
  | inserted {key : K} {value : V} {ok : Bool} (habsent : mapLookup H m key = none) :
      MapStep H m (.insert key value ok, .status none) (m ++ [(key, value)])
  | refused {key : K} {value : V} {ok : Bool} :
      MapStep H m (.insert key value ok, .status (some .memoryAllocationFailure)) m
  | removed {key : K} : MapStep H m (.remove key, .removed (mapLookup H m key)) (mapErase H m key)
  | found {key : K} : MapStep H m (.get key, .found (mapLookup H m key)) m
  | visited {stop : List (K × V) → Bool} {l : List (K × V)} (hperm : l.Perm m) :
      MapStep H m (.forEach stop, .visited (visits stop [] l)) m

theorem visits_of_never {stop : List (K × V) → Bool} (hstop : ∀ seen, stop seen = false)
    (seen l : List (K × V)) : visits stop seen l = seen ++ l := by
  induction l generalizing seen with
  | nil => simp [visits]
  | cons p l ih => simp [visits, hstop, ih]

section Map

variable {H : HashFns K} {m : List (K × V)} {key : K}

theorem mapLookup_eq_none_iff : mapLookup H m key = none ↔ ∀ p ∈ m, H.eq key p.1 = false := by
  simp [mapLookup]

theorem mapLookup_of_mem (hH : H.Lawful) (hpair : m.Pairwise fun p q => H.eq p.1 q.1 = false)
    {p : K × V} (hp : p ∈ m) (heq : H.eq key p.1 = true) : mapLookup H m key = some p.2 := by
  induction m with
  | nil => simp at hp
  | cons q m ih =>
      obtain ⟨hq, hpair⟩ := List.pairwise_cons.mp hpair
      rcases List.mem_cons.mp hp with rfl | hp
      · simp [mapLookup, heq]
      · -- an earlier key is different from `p.1`, so it is different from the given one
        have hne : H.eq key q.1 = false := by
          by_contra hkey
          rw [Bool.not_eq_false] at hkey
          have hqp := hH.eq_trans _ _ _ (hH.eq_symm _ _ hkey) heq
          rw [hq p hp] at hqp
          simp at hqp
        have := ih hpair hp
        simpa [mapLookup, hne] using this

end Map

/-! ## Refinement -/

namespace Hash

structure Refines (H : HashFns K) (t : Hash K V) (m : List (K × V)) : Prop where
  wf : WF H t
  rehashing_eq : t.rehashing = false
  perm : t.bindings.Perm m

section Refines

variable {H : HashFns K} {t t' : Hash K V} {m m' : List (K × V)} {key : K}

theorem WF.nodup (hH : H.Lawful) (hwf : WF H t) : t.bindings.Nodup := by
  refine hwf.pairwise.imp ?_
  rintro p q hne rfl
  rw [hH.eq_refl] at hne
  simp at hne

theorem Refines.pairwise (hH : H.Lawful) (h : Refines H t m) :
    m.Pairwise fun p q => H.eq p.1 q.1 = false := by
  refine h.perm.pairwise h.wf.pairwise fun {p q} hne => ?_
  by_contra heq
  rw [Bool.not_eq_false] at heq
  rw [hH.eq_symm _ _ heq] at hne
  simp at hne

theorem Refines.len_eq (h : Refines H t m) : t.len = m.length :=
  h.wf.len_eq.trans h.perm.length_eq

theorem Refines.absent_iff (h : Refines H t m) : Absent H t key ↔ mapLookup H m key = none := by
  rw [mapLookup_eq_none_iff]
  constructor
  · intro habsent p hp
    exact habsent p.1 p.2 (h.perm.mem_iff.mpr hp)
  · intro habsent a v hmem
    exact habsent (a, v) (h.perm.mem_iff.mp hmem)

theorem Refines.get_eq (hH : H.Lawful) (h : Refines H t m) :
    t.get H key = some (mapLookup H m key) := by
  rcases get_cases hH h.wf key with ⟨a, v, hmem, heq, hget⟩ | ⟨habsent, hget⟩
  · rw [hget, mapLookup_of_mem hH (h.pairwise hH) (h.perm.mem_iff.mp hmem) heq]
  · rw [hget, h.absent_iff.mp habsent]

theorem forEachFrom_noteSeen (stop : List (K × V) → Bool) (slots : List (HashSlot K V))
    (seen : List (K × V)) :
    forEachFrom (noteSeen stop) slots seen = visits stop seen (slots.filterMap fun
      | .occupied key value => some (key, value)
      | _ => none) := by
  induction slots generalizing seen with
  | nil => rfl
  | cons slot slots ih =>
      cases slot with
      | free | deleted => exact ih seen
      | occupied key value =>
          simp only [forEachFrom, noteSeen, List.filterMap_cons, visits]
          cases hstop : stop (seen ++ [(key, value)]) with
          | true => rfl
          | false =>
              simp only [Bool.false_eq_true, if_false]
              exact ih _

theorem insert_error {ok : Bool} {value : V} {err : CommonErrorCode}
    (h : insert H ok t key value = some (some err, t')) :
    t' = t ∧ err = .memoryAllocationFailure ∧
      (ok = false ∨ ptrdiffMax < newCapacity t.capacity * H.elementSize) := by
  unfold insert at h
  split at h
  · simp at h
  · split at h
    · simp only [Option.bind_eq_bind, Option.bind_eq_some_iff] at h
      obtain ⟨⟨err₁, t₁⟩, hrehash, h⟩ := h
      unfold rehash at hrehash
      split at hrehash
      · simp at hrehash
      · split at hrehash
        · -- the rehash succeeds, so there is no error
          simp only [Option.bind_eq_bind, Option.bind_eq_some_iff, Option.pure_def,
            Option.some.injEq, Prod.mk.injEq] at hrehash
          obtain ⟨_, _, rfl, _⟩ := hrehash
          simp [Option.bind_eq_some_iff] at h
        · rename_i hok
          simp only [Option.pure_def, Option.some.injEq, Prod.mk.injEq] at hrehash
          obtain ⟨rfl, rfl⟩ := hrehash
          simp only [Option.isSome_some, if_true, Option.pure_def, Option.some.injEq,
            Prod.mk.injEq] at h
          obtain ⟨rfl, rfl⟩ := h
          simp only [Bool.and_eq_true, decide_eq_true_eq, not_and, not_le] at hok
          refine ⟨rfl, rfl, ?_⟩
          cases hok' : ok with
          | false => exact .inl rfl
          | true => exact .inr (hok hok')
    · simp [Option.bind_eq_some_iff] at h

/-- One call on the table is one call on the map. -/
theorem Refines.call (hH : H.Lawful) (h : Refines H t m) {op : HashOp K V}
    (hallowed : t.Allowed H op) :
    ∃ result t' m', t.exec H op = some (result, t') ∧ MapStep H m (op, result) m' ∧
      Refines H t' m' := by
  cases op with
  | insert key value ok =>
      rcases insert_spec hH h.wf h.rehashing_eq hallowed ok value with
        hfail | ⟨t', hinsert, hwf', hrehashing', hmem'⟩
      · exact ⟨.status (some .memoryAllocationFailure), t, m, by simp [exec, hfail], .refused, h⟩
      · have hlookup := h.absent_iff.mp hallowed
        refine ⟨.status none, t', m ++ [(key, value)], by simp [exec, hinsert], .inserted hlookup,
          hwf', hrehashing', ?_⟩
        have hnew : (key, value) ∉ m := by
          intro hmem
          have := mapLookup_eq_none_iff.mp hlookup _ hmem
          rw [hH.eq_refl] at this
          simp at this
        have hnodup : (m ++ [(key, value)]).Nodup := by
          refine List.nodup_append.mpr ⟨h.perm.nodup (h.wf.nodup hH), by simp, ?_⟩
          intro p hp q hq
          rw [List.mem_singleton] at hq
          rintro rfl
          exact hnew (hq ▸ hp)
        refine (List.perm_ext_iff_of_nodup (hwf'.nodup hH) hnodup).mpr fun p => ?_
        rw [hmem' p.1 p.2, h.perm.mem_iff, List.mem_append, List.mem_singleton, Prod.ext_iff]
  | remove key =>
      rcases get_cases hH h.wf key with ⟨a, v, hmem, heq, _⟩ | ⟨habsent, _⟩
      · obtain ⟨t', hremove, hwf', _, hrehashing', hmem'⟩ := remove_of_mem hH h.wf hmem heq
        have hlookup := mapLookup_of_mem hH (h.pairwise hH) (h.perm.mem_iff.mp hmem) heq
        refine ⟨.removed (some v), t', mapErase H m key, by simp [exec, hremove], ?_, hwf',
          hrehashing'.trans h.rehashing_eq, ?_⟩
        · rw [← hlookup]
          exact .removed
        · have hnodup : (mapErase H m key).Nodup :=
            (h.perm.nodup (h.wf.nodup hH)).sublist List.filter_sublist
          refine (List.perm_ext_iff_of_nodup (hwf'.nodup hH) hnodup).mpr fun p => ?_
          rw [hmem' p.1 p.2, h.perm.mem_iff, mapErase, List.mem_filter, Bool.not_eq_true']
      · have hlookup := h.absent_iff.mp habsent
        have herase : mapErase H m key = m := by
          refine List.filter_eq_self.mpr fun p hp => ?_
          rw [mapLookup_eq_none_iff.mp hlookup p hp]
          rfl
        obtain ⟨i, hindex, hi⟩ := indexForKey_of_absent hH h.wf habsent
        refine ⟨.removed none, t, mapErase H m key, by simp [exec, remove, hindex, hi], ?_, ?_⟩
        · rw [← hlookup]
          exact .removed
        · rw [herase]
          exact h
  | get key => exact ⟨.found (mapLookup H m key), t, m, by simp [exec, h.get_eq hH], .found, h⟩
  | forEach stop =>
      refine ⟨.visited (visits stop [] t.bindings), t, m, ?_, .visited h.perm, h⟩
      simp only [exec, forEach, forEachFrom_noteSeen]
      rfl

theorem Fresh.refines (h : t.Fresh H) : Refines H t [] := by
  obtain ⟨ok, hnew⟩ := h
  rcases new_spec (V := V) H ok with ⟨t₀, hfail⟩ | ⟨t₁, hok, hwf, hrehashing, hbindings⟩
  · simp [hfail] at hnew
  · rw [hok] at hnew
    simp only [Option.some.injEq, Prod.mk.injEq, true_and] at hnew
    subst hnew
    exact ⟨hwf, hrehashing, by rw [hbindings]⟩

/-- The table refines a finite map: every run of it has the results of a run of the map, and
no call of a run fails an assertion. -/
theorem refines_of_run (hH : H.Lawful) {hist : List (HashOp K V × HashResult K V)}
    (hrun : Lts.Run (Fresh H) (Call H) hist t) :
    (∃ m, Lts.Run (· = []) (MapStep H) hist m ∧ t.len = m.length ∧ t.bindings.Perm m ∧
      ∀ key, t.get H key = some (mapLookup H m key)) ∧
    (∀ op, t.Allowed H op → ∃ result t', t.exec H op = some (result, t')) ∧
    ∀ key value ok err t', t.insert H ok key value = some (some err, t') →
      t' = t ∧ (ok = false ∨ ptrdiffMax < newCapacity t.capacity * H.elementSize) := by
  have hinit : ∀ s : Hash K V, Fresh H s → ∃ m, m = [] ∧ Refines H s m :=
    fun s hs => ⟨[], rfl, hs.refines⟩
  have hstep : ∀ (s : Hash K V) call s' m, Refines H s m → Call H s call s' →
      ∃ m', MapStep H m call m' ∧ Refines H s' m' := by
    rintro s ⟨op, result⟩ s' m hs ⟨hallowed, hexec⟩
    obtain ⟨result₁, s₁, m', hexec₁, hmap, href'⟩ := hs.call hH hallowed
    rw [hexec, Option.some.injEq, Prod.mk.injEq] at hexec₁
    obtain ⟨rfl, rfl⟩ := hexec₁
    exact ⟨m', hmap, href'⟩
  obtain ⟨m, hmap, href⟩ := hrun.simulation hinit hstep
  refine ⟨⟨m, hmap, href.len_eq, href.perm, fun key => href.get_eq hH⟩, ?_, ?_⟩
  · intro op hallowed
    obtain ⟨result, t', _, hexec, _⟩ := href.call hH hallowed
    exact ⟨result, t', hexec⟩
  · intro key value ok err t' hinsert
    obtain ⟨ht', _, hfail⟩ := insert_error hinsert
    exact ⟨ht', hfail⟩

end Refines

/-- A call with this result, as a function. A second value follows the calls. -/
def execCall [DecidableEq K] [DecidableEq V] {γ : Type} (H : HashFns K)
    (after : Hash K V × γ → HashOp K V × HashResult K V → γ) (s : Hash K V × γ)
    (call : HashOp K V × HashResult K V) : Option (Hash K V × γ) :=
  match s.1.exec H call.1 with
  | some (result, t) => if result = call.2 then some (t, after s call) else none
  | none => none

theorem execCall_eq_some [DecidableEq K] [DecidableEq V] {γ : Type} {H : HashFns K}
    {after : Hash K V × γ → HashOp K V × HashResult K V → γ} {s s' : Hash K V × γ}
    {call : HashOp K V × HashResult K V} (h : execCall H after s call = some s') :
    s.1.exec H call.1 = some (call.2, s'.1) ∧ s'.2 = after s call := by
  unfold execCall at h
  split at h
  · rename_i result t hexec
    split at h
    · rename_i hresult
      rw [Option.some.injEq] at h
      rw [← h, ← hresult]
      exact ⟨hexec, rfl⟩
    · simp at h
  · simp at h

/-! ## Byte strings as keys -/

open ByteHasher in
/-- The hashers of `byte_hasher.c` on byte strings. -/
def sliceHashFns : HashFns (List UInt8) where
  primary key := (byteHasher (fun key state => digestSlice state key) 164 key).toNat
  secondary key := (byteHasherSecondary (fun key state => digestSlice state key) 235 key).toNat
  eq lhs rhs := lhs = rhs
  elementSize := 24

theorem sliceHashFns_lawful : sliceHashFns.Lawful where
  eq_refl a := by simp [sliceHashFns]
  eq_symm a b h := by simpa [sliceHashFns, eq_comm] using h
  eq_trans a b c h h' := by
    simp only [sliceHashFns, decide_eq_true_eq] at h h' ⊢
    exact h.trans h'
  primary_congr a b h := by
    simp only [sliceHashFns, decide_eq_true_eq] at h
    rw [h]
  secondary_congr a b h := by
    simp only [sliceHashFns, decide_eq_true_eq] at h
    rw [h]
  secondary_odd a := ByteHasher.byteHasherSecondary_odd _ 235 a

/-- The keys `a`, `i` and `q` begin at one slot. `i` is found behind the slot that `a` has left, and
`q` takes that one. -/
def collidingCalls : List (HashOp (List UInt8) ℕ × HashResult (List UInt8) ℕ) :=
  [(.insert [97] 5 true, .status none), (.insert [105] 7 true, .status none),
    (.remove [97], .removed (some 5)), (.get [105], .found (some 7)),
    (.insert [113] 9 true, .status none), (.get [97], .found none)]

theorem refines_after_remove : ∃ (t : Hash (List UInt8) ℕ) (m : List (List UInt8 × ℕ)),
    Lts.Run (Fresh sliceHashFns) (Call sliceHashFns) collidingCalls t ∧
    t.storage[6]? = some (.occupied [113] 9) ∧
    Lts.Run (· = []) (MapStep sliceHashFns) collidingCalls m ∧
    t.len = m.length := by
  have hfresh : Fresh sliceHashFns (⟨List.replicate 8 .free, 0, 0, false⟩ : Hash (List UInt8) ℕ) :=
    ⟨true, by decide +kernel⟩
  obtain ⟨t, hrun, hslot⟩ := Lts.exists_run_guarded
    (fun t call => ((t.exec sliceHashFns call.1).filter (·.1 = call.2)).map Prod.snd)
    (fun t call => t.Allowed sliceHashFns call.1) collidingCalls
    (fun t => t.storage[6]? = some (.occupied [113] 9)) hfresh (by decide +kernel)
  have hcalls : Lts.Run (Fresh sliceHashFns) (Call sliceHashFns) collidingCalls t := by
    refine hrun.mono ?_
    rintro t call t' ⟨hexec, hallowed⟩
    obtain ⟨⟨result, t''⟩, hfilter, rfl⟩ := Option.map_eq_some_iff.mp hexec
    obtain ⟨hexec, hresult⟩ := Option.filter_eq_some_iff.mp hfilter
    obtain rfl : result = call.2 := of_decide_eq_true hresult
    exact ⟨hallowed, hexec⟩
  obtain ⟨⟨m, hmap, hlen, -⟩, -⟩ := refines_of_run sliceHashFns_lawful hcalls
  exact ⟨t, m, hcalls, hslot, hmap, hlen⟩

end Hash

end PosixThreads
