import PosixThreads.Collections.Hash.Map

/-!
# Inserting keys that may be live

As a map, an insert would replace the value of a live key. The table is here run side by side
with the map that its calls stand for, with any key in any insert. It stands for the map after
every call just if no insert that succeeds finds its key live: such an insert counts a key that
was counted before, and if a deleted slot comes first on the probe sequence, the key gets a
second slot.
-/

namespace PosixThreads

variable {K V : Type}

/-- The map after an insert, whatever it held before. -/
def mapUpsert (H : HashFns K) (m : List (K × V)) (key : K) (value : V) : List (K × V) :=
  mapErase H m key ++ [(key, value)]

def mapAfter (H : HashFns K) (m : List (K × V)) : HashOp K V × HashResult K V → List (K × V)
  | (.insert key value _, .status none) => mapUpsert H m key value
  | (.remove key, _) => mapErase H m key
  | _ => m

section Map

variable {H : HashFns K} {m m' : List (K × V)} {key : K} {value : V}

theorem mapErase_of_absent (habsent : mapLookup H m key = none) : mapErase H m key = m := by
  refine List.filter_eq_self.mpr fun p hp => ?_
  rw [mapLookup_eq_none_iff.mp habsent p hp]
  rfl

theorem mapLookup_mapErase (key : K) (m : List (K × V)) :
    mapLookup H (mapErase H m key) key = none := by
  rw [mapLookup_eq_none_iff]
  intro p hp
  have := (List.mem_filter.mp hp).2
  rwa [Bool.not_eq_true'] at this

theorem mapLookup_mapUpsert (hH : H.Lawful) (m : List (K × V)) (key : K) (value : V) :
    mapLookup H (mapUpsert H m key value) key = some value := by
  have hnone := mapLookup_mapErase (H := H) key m
  rw [mapLookup, Option.map_eq_none_iff] at hnone
  rw [mapLookup, mapUpsert, List.find?_append, hnone]
  simp [hH.eq_refl]

theorem length_mapErase (hH : H.Lawful) (hpair : m.Pairwise fun p q => H.eq p.1 q.1 = false)
    (hlive : mapLookup H m key ≠ none) : (mapErase H m key).length + 1 = m.length := by
  induction m with
  | nil => simp [mapLookup] at hlive
  | cons q m ih =>
      obtain ⟨hq, hpair⟩ := List.pairwise_cons.mp hpair
      cases hkey : H.eq key q.1 with
      | true =>
          have habsent : mapLookup H m key = none := by
            rw [mapLookup_eq_none_iff]
            intro p hp
            by_contra hne
            rw [Bool.not_eq_false] at hne
            have hqp := hH.eq_trans _ _ _ (hH.eq_symm _ _ hkey) hne
            rw [hq p hp] at hqp
            simp at hqp
          have herase : mapErase H (q :: m) key = m := by
            rw [mapErase, List.filter_cons_of_neg (by simp [hkey])]
            exact mapErase_of_absent habsent
          rw [herase, List.length_cons]
      | false =>
          have hlive' : mapLookup H m key ≠ none := by
            simpa [mapLookup, hkey] using hlive
          have herase : mapErase H (q :: m) key = q :: mapErase H m key :=
            List.filter_cons_of_pos (by simp [hkey])
          rw [herase, List.length_cons, List.length_cons, ih hpair hlive']

theorem length_mapUpsert (hH : H.Lawful) (hpair : m.Pairwise fun p q => H.eq p.1 q.1 = false)
    (hlive : mapLookup H m key ≠ none) (value : V) :
    (mapUpsert H m key value).length = m.length := by
  rw [mapUpsert, List.length_append, List.length_singleton]
  exact length_mapErase hH hpair hlive

theorem MapStep.eq_mapAfter {op : HashOp K V} {result : HashResult K V}
    (h : MapStep H m (op, result) m') : m' = mapAfter H m (op, result) := by
  cases h with
  | inserted habsent => rw [mapAfter, mapUpsert, mapErase_of_absent habsent]
  | refused => rfl
  | removed => rfl
  | found => rfl
  | visited hperm => rfl

end Map

namespace Hash

/-! ## Standing for the map -/

structure UpsertSound (H : HashFns K) (t : Hash K V) (m : List (K × V)) : Prop where
  get_eq : ∀ key, t.get H key = some (mapLookup H m key)
  remove_eq : ∀ key value, mapLookup H m key = some value →
    ∃ t', t.remove H key = some (some value, t') ∧ t'.get H key = some none ∧
      t'.remove H key = some (none, t')
  forEach_perm : (t.forEach (noteSeen fun _ => false) []).Perm m
  len_eq : t.len = m.length
  returns : ∀ op, ∃ result t', t.exec H op = some (result, t')

section Sound

variable {H : HashFns K} {t t' : Hash K V} {m : List (K × V)} {key : K}

theorem put_returns (hH : H.Lawful) (hwf : WF H t) (key : K) (value : V) :
    ∃ t', put H t key value = some t' ∧ t'.len = t.len + 1 := by
  obtain ⟨n, s, hindex, _⟩ := indexForKey_spec hH hwf key false
  exact ⟨_, by simp [put, hindex]; rfl, rfl⟩

/-- An insert that is not refused counts its key, whether it is live or not. -/
theorem Refines.insert_len (hH : H.Lawful) (h : Refines H t m) {ok : Bool}
    (href : ¬ Refused H ok t) (key : K) (value : V) :
    ∃ t', insert H ok t key value = some (none, t') ∧ t'.len = m.length + 1 := by
  obtain ⟨t₁, hinsert, hwf₁, _, _, _, _, hmem₁⟩ :=
    insert_of_not_refused hH h.wf h.rehashing_eq href
  obtain ⟨t', hput, hlen'⟩ := put_returns hH hwf₁ key value
  have hperm : t₁.bindings.Perm t.bindings :=
    (List.perm_ext_iff_of_nodup (hwf₁.nodup hH) (h.wf.nodup hH)).mpr hmem₁
  refine ⟨t', by rw [hinsert, hput]; rfl, ?_⟩
  rw [hlen', hwf₁.len_eq, hperm.length_eq, h.perm.length_eq]

theorem Refines.returns (hH : H.Lawful) (h : Refines H t m) (op : HashOp K V) :
    ∃ result t', t.exec H op = some (result, t') := by
  cases op with
  | insert key value ok =>
      by_cases href : Refused H ok t
      · exact ⟨.status (some .memoryAllocationFailure), t, by
          simp [exec, insert_of_refused h.wf h.rehashing_eq href]⟩
      · obtain ⟨t', hinsert, _⟩ := h.insert_len hH href key value
        exact ⟨.status none, t', by simp [exec, hinsert]⟩
  | remove key =>
      obtain ⟨result, t', _, hexec, _⟩ := h.call hH (show t.Allowed H (.remove key) from trivial)
      exact ⟨result, t', hexec⟩
  | get key =>
      obtain ⟨result, t', _, hexec, _⟩ := h.call hH (show t.Allowed H (.get key) from trivial)
      exact ⟨result, t', hexec⟩
  | forEach stop =>
      obtain ⟨result, t', _, hexec, _⟩ := h.call hH (show t.Allowed H (.forEach stop) from trivial)
      exact ⟨result, t', hexec⟩

theorem Refines.remove (hH : H.Lawful) (h : Refines H t m) (key : K) :
    ∃ t', t.remove H key = some (mapLookup H m key, t') ∧ Refines H t' (mapErase H m key) := by
  obtain ⟨result, t', m', hexec, hmap, href'⟩ :=
    h.call hH (show t.Allowed H (.remove key) from trivial)
  cases hmap with
  | removed =>
      simp only [exec, Option.bind_eq_bind, Option.bind_eq_some_iff, Option.pure_def,
        Option.some.injEq, Prod.mk.injEq, HashResult.removed.injEq] at hexec
      obtain ⟨⟨_, _⟩, hremove, rfl, rfl⟩ := hexec
      exact ⟨_, hremove, href'⟩

theorem remove_none (h : t.remove H key = some (none, t')) : t' = t := by
  simp only [Hash.remove, Option.bind_eq_bind, Option.bind_eq_some_iff] at h
  obtain ⟨pos, _, h⟩ := h
  split at h
  · simp at h
  · simpa using h.symm

theorem Refines.upsertSound (hH : H.Lawful) (h : Refines H t m) : UpsertSound H t m where
  get_eq _ := h.get_eq hH
  remove_eq key value hlive := by
    obtain ⟨t', hremove, href'⟩ := h.remove hH key
    obtain ⟨t'', hremove', _⟩ := href'.remove hH key
    rw [mapLookup_mapErase] at hremove'
    refine ⟨t', by rw [hremove, hlive], ?_, ?_⟩
    · rw [href'.get_eq hH, mapLookup_mapErase]
    · rw [hremove', remove_none hremove']
  forEach_perm := by
    rw [forEach, forEachFrom_noteSeen, visits_of_never fun _ => rfl]
    exact h.perm
  len_eq := h.len_eq
  returns := h.returns hH

end Sound

/-! ## Runs -/

def UpsertInit (H : HashFns K) (s : Hash K V × List (K × V)) : Prop := Fresh H s.1 ∧ s.2 = []

def UpsertCall (H : HashFns K) (s : Hash K V × List (K × V)) (call : HashOp K V × HashResult K V)
    (s' : Hash K V × List (K × V)) : Prop :=
  s.1.exec H call.1 = some (call.2, s'.1) ∧ s'.2 = mapAfter H s.2 call

structure CallSound (H : HashFns K) (call : HashOp K V × HashResult K V)
    (s' : Hash K V × List (K × V)) : Prop where
  sound : UpsertSound H s'.1 s'.2
  inserted : ∀ key value ok, call = (.insert key value ok, .status none) →
    s'.1.get H key = some (some value)

/-- An insert is refused, or finds its key absent. -/
def InsertsAbsent (H : HashFns K) (s : Hash K V × List (K × V)) : HashOp K V → Prop
  | .insert key _ ok => Refused H ok s.1 ∨ mapLookup H s.2 key = none
  | _ => True

instance (H : HashFns K) [DecidableEq V] (s : Hash K V × List (K × V)) (op : HashOp K V) :
    Decidable (InsertsAbsent H s op) :=
  match op with
  | .insert key _ ok => inferInstanceAs (Decidable (Refused H ok s.1 ∨ mapLookup H s.2 key = none))
  | .remove _ | .get _ | .forEach _ => inferInstanceAs (Decidable True)

section Runs

variable {H : HashFns K} {s s' : Hash K V × List (K × V)} {call : HashOp K V × HashResult K V}

theorem Refines.upsertCall (hH : H.Lawful) (h : Refines H s.1 s.2) (hcall : UpsertCall H s call s')
    (hallowed : s.1.Allowed H call.1) : Refines H s'.1 s'.2 := by
  obtain ⟨op, result⟩ := call
  obtain ⟨result₁, t₁, m', hexec, hmap, href'⟩ := h.call hH hallowed
  obtain ⟨hexec', hm'⟩ := hcall
  rw [hexec', Option.some.injEq, Prod.mk.injEq] at hexec
  obtain ⟨rfl, rfl⟩ := hexec
  rw [hm', ← hmap.eq_mapAfter]
  exact href'

theorem Refines.insertsAbsent (hH : H.Lawful) (h : Refines H s.1 s.2)
    (hcall : UpsertCall H s call s') (habsent : InsertsAbsent H s call.1) :
    Refines H s'.1 s'.2 := by
  obtain ⟨op, result⟩ := call
  cases op with
  | insert key value ok =>
      rcases habsent with href | habsent
      · obtain ⟨hexec, hm'⟩ := hcall
        simp only [exec, insert_of_refused h.wf h.rehashing_eq href, Option.bind_eq_bind,
          Option.bind_some, Option.pure_def, Option.some.injEq, Prod.mk.injEq] at hexec
        obtain ⟨hresult, ht'⟩ := hexec
        rw [hm', ← ht', ← hresult]
        exact h
      · exact h.upsertCall hH hcall (h.absent_iff.mpr habsent)
  | remove key => exact h.upsertCall hH hcall trivial
  | get key => exact h.upsertCall hH hcall trivial
  | forEach stop => exact h.upsertCall hH hcall trivial

theorem Refines.callSound (hH : H.Lawful) (h : Refines H s'.1 s'.2)
    (hcall : UpsertCall H s call s') :
    CallSound H call s' where
  sound := h.upsertSound hH
  inserted key value ok heq := by
    rw [h.get_eq hH, hcall.2, heq, mapAfter, mapLookup_mapUpsert hH]

/-- Behind an insert of a live key the count is wrong. -/
theorem Refines.not_sound (hH : H.Lawful) (h : Refines H s.1 s.2) (hcall : UpsertCall H s call s')
    (hnot : ¬ InsertsAbsent H s call.1) : ¬ UpsertSound H s'.1 s'.2 := by
  obtain ⟨op, result⟩ := call
  cases op with
  | insert key value ok =>
      obtain ⟨href, hlive⟩ := not_or.mp hnot
      obtain ⟨t', hinsert, hlen'⟩ := h.insert_len hH href key value
      obtain ⟨hexec, hm'⟩ := hcall
      simp only [exec, hinsert, Option.bind_eq_bind, Option.bind_some, Option.pure_def,
        Option.some.injEq, Prod.mk.injEq] at hexec
      obtain ⟨hresult, ht'⟩ := hexec
      intro hsound
      have hlen := hsound.len_eq
      rw [hm', ← hresult, ← ht', hlen', mapAfter, length_mapUpsert hH (h.pairwise hH) hlive] at hlen
      omega
  | remove key => exact absurd trivial hnot
  | get key => exact absurd trivial hnot
  | forEach stop => exact absurd trivial hnot

end Runs

/-- A new table stands for the empty map, and a run of calls keeps it so if and only if no insert
that succeeds finds its key live. -/
theorem upsertSound_iff {H : HashFns K} (hH : H.Lawful)
    (hist : List (HashOp K V × HashResult K V)) (s : Hash K V × List (K × V)) :
    (UpsertInit H s → UpsertSound H s.1 s.2) ∧
      (Lts.Run (UpsertInit H)
          (fun s call s' => UpsertCall H s call s' ∧ CallSound H call s') hist s ↔
        Lts.Run (UpsertInit H)
          (fun s call s' => UpsertCall H s call s' ∧ InsertsAbsent H s call.1) hist s) := by
  have hinit : ∀ s : Hash K V × List (K × V), UpsertInit H s → Refines H s.1 s.2 := by
    rintro ⟨t, m⟩ ⟨hfresh, hm⟩
    rw [hm]
    exact hfresh.refines
  refine ⟨fun h => (hinit s h).upsertSound hH, ?_⟩
  refine Lts.Run.iff_of_invariant (I := fun s => Refines H s.1 s.2) hinit ?_ ?_
  · intro s call s' hrel hcall
    constructor
    · intro hsound
      by_contra hnot
      exact hrel.not_sound hH hcall hnot hsound.sound
    · intro habsent
      exact (hrel.insertsAbsent hH hcall habsent).callSound hH hcall
  · intro s call s' hrel hcall habsent
    exact hrel.insertsAbsent hH hcall habsent

/-- A key is inserted again after its removal. -/
theorem upsertSound_after_remove : ∃ s : Hash (List UInt8) ℕ × List (List UInt8 × ℕ),
    Lts.Run (UpsertInit sliceHashFns)
      (fun s call s' => UpsertCall sliceHashFns s call s' ∧ CallSound sliceHashFns call s')
      [(.insert [97] 1 true, .status none), (.remove [97], .removed (some 1)),
        (.insert [97] 2 true, .status none)] s ∧ s.2 = [([97], 2)] := by
  have hinit : UpsertInit sliceHashFns
      ((⟨List.replicate 8 .free, 0, 0, false⟩ : Hash (List UInt8) ℕ), []) :=
    ⟨⟨true, by decide +kernel⟩, rfl⟩
  obtain ⟨s, hrun, hs⟩ := Lts.exists_run_guarded
    (execCall sliceHashFns fun s => mapAfter sliceHashFns s.2)
    (fun s call => InsertsAbsent sliceHashFns s call.1)
    [(.insert [97] 1 true, .status none), (.remove [97], .removed (some 1)),
      (.insert [97] 2 true, .status none)] (fun s => s.2 = [([97], 2)]) hinit
    (by decide +kernel)
  refine ⟨s, ((upsertSound_iff sliceHashFns_lawful _ s).2).mpr (hrun.mono ?_), hs⟩
  rintro s call s' ⟨hexec, hgood⟩
  exact ⟨execCall_eq_some hexec, hgood⟩

/-- The keys `a` and `i` begin at one slot. The second insert of `i` takes the slot that `a` has
left, and the removal finds this one only. -/
theorem not_upsertSound_reinserted : ∃ s : Hash (List UInt8) ℕ × List (List UInt8 × ℕ),
    Lts.Run (UpsertInit sliceHashFns) (UpsertCall sliceHashFns)
      [(.insert [97] 1 true, .status none), (.insert [105] 2 true, .status none),
        (.remove [97], .removed (some 1)), (.insert [105] 3 true, .status none),
        (.remove [105], .removed (some 3))] s ∧
    s.1.get sliceHashFns [105] = some (some 2) ∧ ¬ UpsertSound sliceHashFns s.1 s.2 := by
  have hinit : UpsertInit sliceHashFns
      ((⟨List.replicate 8 .free, 0, 0, false⟩ : Hash (List UInt8) ℕ), []) :=
    ⟨⟨true, by decide +kernel⟩, rfl⟩
  obtain ⟨s, hrun, hget, hlookup⟩ := Lts.exists_run
    (execCall sliceHashFns fun s => mapAfter sliceHashFns s.2)
    [(.insert [97] 1 true, .status none), (.insert [105] 2 true, .status none),
      (.remove [97], .removed (some 1)), (.insert [105] 3 true, .status none),
      (.remove [105], .removed (some 3))]
    (fun s => s.1.get sliceHashFns [105] = some (some 2) ∧ mapLookup sliceHashFns s.2 [105] = none)
    hinit (by decide +kernel)
  refine ⟨s, hrun.mono fun _ _ _ => execCall_eq_some, hget, fun hsound => ?_⟩
  have := hsound.get_eq [105]
  rw [hget, hlookup] at this
  simp at this

end Hash

end PosixThreads
