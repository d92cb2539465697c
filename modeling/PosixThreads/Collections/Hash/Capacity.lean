import PosixThreads.Collections.Hash.Map

/-!
# The capacity of the hash table

A table grows when it is half full by `nonFreeEntries`, and then it always doubles. The counter
has the live keys and every removal since the table grew last: a deleted slot is still counted,
and it is counted again when a key is put there. The capacity therefore follows the removals as
much as the live keys.
-/

namespace PosixThreads

namespace Hash

variable {K V : Type}

/-- The removals since the table grew last. -/
def removedAfter (H : HashFns K) (s : Hash K V × ℕ) : HashOp K V × HashResult K V → ℕ
  | (.insert _ _ ok, _) => if Grows H ok s.1 then 0 else s.2
  | (.remove _, .removed (some _)) => s.2 + 1
  | _ => s.2

def ChurnInit (H : HashFns K) (s : Hash K V × ℕ) : Prop := Fresh H s.1 ∧ s.2 = 0

/-- A call by which absent keys are inserted, after which at most `m` keys are live. -/
def ChurnCall (H : HashFns K) (m : ℕ) (s : Hash K V × ℕ) (call : HashOp K V × HashResult K V)
    (s' : Hash K V × ℕ) : Prop :=
  Call H s.1 call s'.1 ∧ s'.2 = removedAfter H s call ∧ s'.1.bindings.length ≤ m

/-- An insert that makes the table larger finds at most `m` keys live or removed since the table
grew last. -/
def GrowsWithin (H : HashFns K) (m : ℕ) (s : Hash K V × ℕ) : HashOp K V → Prop
  | .insert _ _ ok => Grows H ok s.1 → s.1.bindings.length + s.2 ≤ m
  | _ => True

instance (H : HashFns K) (m : ℕ) (s : Hash K V × ℕ) (op : HashOp K V) :
    Decidable (GrowsWithin H m s op) :=
  match op with
  | .insert _ _ ok => inferInstanceAs (Decidable (Grows H ok s.1 → s.1.bindings.length + s.2 ≤ m))
  | .remove _ | .get _ | .forEach _ => inferInstanceAs (Decidable True)

section Counts

variable {H : HashFns K} {t t' : Hash K V} {key : K} {value : V}

theorem Fresh.eq_blank (h : Fresh H t) :
    t = ⟨List.replicate minCapacity .free, 0, 0, false⟩ := by
  obtain ⟨ok, hnew⟩ := h
  unfold new rehash at hnew
  split at hnew
  · simp at hnew
  · split at hnew
    · simpa [newCapacity, capacity, blank] using hnew.symm
    · simp at hnew

theorem insert_counts (hH : H.Lawful) (hwf : WF H t) (hnot : t.rehashing = false) {ok : Bool}
    (href : ¬ Refused H ok t) (habsent : Absent H t key) (value : V) :
    ∃ t', insert H ok t key value = some (none, t') ∧ WF H t' ∧ t'.rehashing = false ∧
      t'.capacity = (if Grows H ok t then 2 * t.capacity else t.capacity) ∧
      t'.nonFreeEntries = (if Grows H ok t then t.len else t.nonFreeEntries) + 1 ∧
      t'.len = t.len + 1 := by
  obtain ⟨t₁, hinsert, hwf₁, hnot₁, hroom₁, hcap₁, hnon₁, hmem₁⟩ :=
    insert_of_not_refused hH hwf hnot href
  have habsent₁ : Absent H t₁ key := fun a v h => habsent a v ((hmem₁ _).mp h)
  obtain ⟨t', hput, hwf', hcap', hnon', hnot', _⟩ := put_spec hH hwf₁ habsent₁ hroom₁ value
  have hlen' : t'.len = t₁.len + 1 := by
    obtain ⟨n, s, hindex, _⟩ := indexForKey_spec hH hwf₁ key false
    simp only [put, hindex, Option.bind_eq_bind, Option.bind_some, Option.pure_def,
      Option.some.injEq] at hput
    rw [← hput]
  have hperm : t₁.bindings.Perm t.bindings :=
    (List.perm_ext_iff_of_nodup (hwf₁.nodup hH) (hwf.nodup hH)).mpr hmem₁
  refine ⟨t', by rw [hinsert, hput]; rfl, hwf', hnot'.trans hnot₁, hcap'.trans hcap₁,
    by rw [hnon', hnon₁], ?_⟩
  rw [hlen', hwf₁.len_eq, hwf.len_eq, hperm.length_eq]

theorem remove_counts (hH : H.Lawful) (hwf : WF H t) {result : Option V}
    (h : remove H t key = some (result, t')) :
    WF H t' ∧ t'.rehashing = t.rehashing ∧ t'.capacity = t.capacity ∧
      t'.nonFreeEntries = t.nonFreeEntries ∧ t'.len + (if result.isSome then 1 else 0) = t.len := by
  rcases get_cases hH hwf key with ⟨a, v, hmem, heq, _⟩ | ⟨habsent, _⟩
  · obtain ⟨i, hi⟩ := mem_bindings.mp hmem
    have hpos : 0 < t.len := by
      rw [hwf.len_eq]
      exact List.length_pos_of_mem hmem
    simp only [remove, indexForKey_of_occupied hH hwf hi heq, hi, Option.bind_eq_bind,
      Option.bind_some, Option.pure_def, Option.some.injEq, Prod.mk.injEq] at h
    obtain ⟨rfl, rfl⟩ := h
    refine ⟨hwf.delete hi, rfl, by simp [capacity], rfl, ?_⟩
    rw [Option.isSome_some, if_pos rfl]
    exact Nat.sub_add_cancel hpos
  · obtain ⟨i, hindex, hi⟩ := indexForKey_of_absent hH hwf habsent
    simp only [remove, hindex, hi, Option.bind_eq_bind, Option.bind_some, Option.pure_def,
      Option.some.injEq, Prod.mk.injEq] at h
    obtain ⟨rfl, rfl⟩ := h
    exact ⟨hwf, rfl, rfl, rfl, rfl⟩

end Counts

structure ChurnInv (H : HashFns K) (s : Hash K V × ℕ) : Prop where
  wf : WF H s.1
  rehashing_eq : s.1.rehashing = false
  nonFree_eq : s.1.nonFreeEntries = s.1.len + s.2

section Steps

variable {H : HashFns K} {m : ℕ} {s s' : Hash K V × ℕ} {call : HashOp K V × HashResult K V}

/-- A call keeps the counters together. It doubles the capacity if it is an insert that grows the
table, and else leaves it as it was. -/
theorem ChurnInv.step (hH : H.Lawful) (hinv : ChurnInv H s) (hcall : ChurnCall H m s call s') :
    ChurnInv H s' ∧
      ((∃ key value ok, call.1 = .insert key value ok ∧ Grows H ok s.1 ∧
          s'.1.capacity = 2 * s.1.capacity) ∨
        ((∀ key value ok, call.1 = .insert key value ok → ¬ Grows H ok s.1) ∧
          s'.1.capacity = s.1.capacity)) := by
  obtain ⟨t, removed⟩ := s
  obtain ⟨t', removed'⟩ := s'
  obtain ⟨op, result⟩ := call
  obtain ⟨hwf, hnot, hnon⟩ := hinv
  obtain ⟨⟨hallowed, hexec⟩, hremoved, _⟩ := hcall
  simp only at hwf hnot hnon hallowed hexec hremoved
  cases op with
  | insert key value ok =>
      by_cases href : Refused H ok t
      · have hgrow : ¬ Grows H ok t := fun h => href.2 h.2
        simp only [exec, insert_of_refused hwf hnot href, Option.bind_eq_bind, Option.bind_some,
          Option.pure_def, Option.some.injEq, Prod.mk.injEq] at hexec
        obtain ⟨_, rfl⟩ := hexec
        simp only [removedAfter, if_neg hgrow] at hremoved
        refine ⟨⟨hwf, hnot, by rw [hnon, hremoved]⟩, .inr ⟨?_, rfl⟩⟩
        rintro _ _ _ ⟨⟩
        exact hgrow
      · obtain ⟨t₁, hinsert, hwf₁, hnot₁, hcap₁, hnon₁, hlen₁⟩ :=
          insert_counts hH hwf hnot href hallowed value
        simp only [exec, hinsert, Option.bind_eq_bind, Option.bind_some, Option.pure_def,
          Option.some.injEq, Prod.mk.injEq] at hexec
        obtain ⟨_, rfl⟩ := hexec
        by_cases hgrow : Grows H ok t
        · simp only [removedAfter, if_pos hgrow] at hremoved hcap₁ hnon₁
          exact ⟨⟨hwf₁, hnot₁, by simp only; omega⟩, .inl ⟨key, value, ok, rfl, hgrow, hcap₁⟩⟩
        · simp only [removedAfter, if_neg hgrow] at hremoved hcap₁ hnon₁
          refine ⟨⟨hwf₁, hnot₁, by simp only; omega⟩, .inr ⟨?_, hcap₁⟩⟩
          rintro _ _ _ ⟨⟩
          exact hgrow
  | remove key =>
      simp only [exec, Option.bind_eq_bind, Option.bind_eq_some_iff, Option.pure_def,
        Option.some.injEq, Prod.mk.injEq] at hexec
      obtain ⟨⟨value, t₁⟩, hremove, rfl, rfl⟩ := hexec
      obtain ⟨hwf₁, hnot₁, hcap₁, hnon₁, hlen₁⟩ := remove_counts hH hwf hremove
      refine ⟨⟨hwf₁, hnot₁.trans hnot, ?_⟩, .inr ⟨by rintro _ _ _ ⟨⟩, hcap₁⟩⟩
      cases value with
      | none =>
          simp only [removedAfter, Option.isSome_none, Bool.false_eq_true, if_false]
            at hremoved hlen₁ ⊢
          omega
      | some value =>
          simp only [removedAfter, Option.isSome_some, if_true] at hremoved hlen₁ ⊢
          omega
  | get key =>
      simp only [exec, Option.bind_eq_bind, Option.bind_eq_some_iff, Option.pure_def,
        Option.some.injEq, Prod.mk.injEq] at hexec
      obtain ⟨_, _, _, rfl⟩ := hexec
      exact ⟨⟨hwf, hnot, by rw [hnon, hremoved]; rfl⟩, .inr ⟨by rintro _ _ _ ⟨⟩, rfl⟩⟩
  | forEach stop =>
      simp only [exec, Option.some.injEq, Prod.mk.injEq] at hexec
      obtain ⟨_, rfl⟩ := hexec
      exact ⟨⟨hwf, hnot, by rw [hnon, hremoved]; rfl⟩, .inr ⟨by rintro _ _ _ ⟨⟩, rfl⟩⟩

theorem ChurnInv.capacity_eq (hinv : ChurnInv H s) {ok : Bool} (hgrow : Grows H ok s.1) :
    s.1.capacity = 2 * (s.1.bindings.length + s.2) := by
  have hload := hinv.wf.load
  have hnon := hinv.nonFree_eq
  have hlen := hinv.wf.len_eq
  have hshould := hgrow.1
  rw [shouldRehash, decide_eq_true_eq] at hshould
  omega

/-- A call keeps the bound if and only if it grows the table within the bound. -/
theorem ChurnInv.capacity_le_iff (hH : H.Lawful) (hinv : ChurnInv H s)
    (hcall : ChurnCall H m s call s') (hle : s.1.capacity ≤ max 8 (4 * m)) :
    s'.1.capacity ≤ max 8 (4 * m) ↔ GrowsWithin H m s call.1 := by
  obtain ⟨_, ⟨key, value, ok, hop, hgrow, hcap⟩ | ⟨hop, hcap⟩⟩ := hinv.step hH hcall
  · have heq := hinv.capacity_eq hgrow
    have hge := hinv.wf.capacity_ge
    have hwithin : GrowsWithin H m s call.1 ↔ s.1.bindings.length + s.2 ≤ m := by
      rw [hop]
      exact ⟨fun h => h hgrow, fun h _ => h⟩
    rw [hwithin]
    omega
  · refine ⟨fun _ => ?_, fun _ => hcap ▸ hle⟩
    generalize call.1 = op at hop
    cases op with
    | insert key value ok => exact fun hgrow => absurd hgrow (hop key value ok rfl)
    | remove key => trivial
    | get key => trivial
    | forEach stop => trivial

end Steps

/-- `ChurnCall` as a function, for allowed calls. -/
def execChurn [DecidableEq K] [DecidableEq V] (H : HashFns K) (m : ℕ) (s : Hash K V × ℕ)
    (call : HashOp K V × HashResult K V) : Option (Hash K V × ℕ) :=
  (execCall H (removedAfter H) s call).filter fun s' => s'.1.bindings.length ≤ m

theorem churnCall_of_exec [DecidableEq K] [DecidableEq V] {H : HashFns K} {m : ℕ}
    {s s' : Hash K V × ℕ} {call : HashOp K V × HashResult K V}
    (h : execChurn H m s call = some s') (hallowed : s.1.Allowed H call.1) :
    ChurnCall H m s call s' := by
  rw [execChurn, Option.filter_eq_some_iff, decide_eq_true_eq] at h
  obtain ⟨hexec, hlive⟩ := h
  obtain ⟨hexec, hremoved⟩ := execCall_eq_some hexec
  exact ⟨⟨hallowed, hexec⟩, hremoved, hlive⟩

/-- Of the runs by which at most `m` keys are live at any time, those that keep the capacity within
the bound are those in which the table grows with at most `m` keys live or removed since it grew
last. -/
theorem capacity_bounded_iff {H : HashFns K} (hH : H.Lawful) (m : ℕ)
    (hist : List (HashOp K V × HashResult K V)) (s : Hash K V × ℕ) :
    (ChurnInit H s → s.1.capacity ≤ max 8 (4 * m)) ∧
      (Lts.Run (ChurnInit H)
          (fun s call s' => ChurnCall H m s call s' ∧ s'.1.capacity ≤ max 8 (4 * m)) hist s ↔
        Lts.Run (ChurnInit H)
          (fun s call s' => ChurnCall H m s call s' ∧ GrowsWithin H m s call.1) hist s) := by
  have hinit : ∀ s : Hash K V × ℕ, ChurnInit H s →
      ChurnInv H s ∧ s.1.capacity ≤ max 8 (4 * m) := by
    rintro ⟨t, removed⟩ ⟨hfresh, hremoved⟩
    have hrefines := hfresh.refines
    have ht := hfresh.eq_blank
    simp only at hremoved ht hrefines
    refine ⟨⟨hrefines.wf, hrefines.rehashing_eq, ?_⟩, ?_⟩
    · rw [hremoved, ht]
      rfl
    · rw [ht]
      exact le_max_left 8 _
  refine ⟨fun h => (hinit s h).2, ?_⟩
  refine Lts.Run.iff_of_invariant (I := fun s => ChurnInv H s ∧ s.1.capacity ≤ max 8 (4 * m))
    hinit ?_ ?_
  · intro s call s' hinv hcall
    exact hinv.1.capacity_le_iff hH hcall hinv.2
  · intro s call s' hinv hcall hwithin
    exact ⟨(hinv.1.step hH hcall).1, (hinv.1.capacity_le_iff hH hcall hinv.2).mpr hwithin⟩

/-- Four live keys, and one of them is replaced: the table grows to four slots a key. -/
theorem capacity_bounded_four : ∃ s : Hash (List UInt8) ℕ × ℕ,
    Lts.Run (ChurnInit sliceHashFns)
      (fun s call s' => ChurnCall sliceHashFns 4 s call s' ∧ s'.1.capacity ≤ max 8 (4 * 4))
      [(.insert [97] 0 true, .status none), (.insert [98] 1 true, .status none),
        (.insert [99] 2 true, .status none), (.insert [100] 3 true, .status none),
        (.remove [97], .removed (some 0)), (.insert [101] 4 true, .status none)] s ∧
    s.1.capacity = 16 := by
  have hinit : ChurnInit sliceHashFns
      ((⟨List.replicate 8 .free, 0, 0, false⟩ : Hash (List UInt8) ℕ), 0) :=
    ⟨⟨true, by decide +kernel⟩, rfl⟩
  obtain ⟨s, hrun, hs⟩ := Lts.exists_run_guarded (execChurn sliceHashFns 4)
    (fun s call => s.1.Allowed sliceHashFns call.1 ∧ GrowsWithin sliceHashFns 4 s call.1)
    [(.insert [97] 0 true, .status none), (.insert [98] 1 true, .status none),
      (.insert [99] 2 true, .status none), (.insert [100] 3 true, .status none),
      (.remove [97], .removed (some 0)), (.insert [101] 4 true, .status none)]
    (fun s => s.1.capacity = 16) hinit (by decide +kernel)
  refine ⟨s, ((capacity_bounded_iff sliceHashFns_lawful 4 _ s).2).mpr (hrun.mono ?_), hs⟩
  rintro s call s' ⟨hexec, hallowed, hwithin⟩
  exact ⟨churnCall_of_exec hexec hallowed, hwithin⟩

/-- One key is inserted and removed over and over. -/
theorem not_capacity_bounded_churn : ∃ s : Hash (List UInt8) ℕ × ℕ,
    Lts.Run (ChurnInit sliceHashFns) (ChurnCall sliceHashFns 1)
      [(.insert [97] 0 true, .status none), (.remove [97], .removed (some 0)),
        (.insert [97] 0 true, .status none), (.remove [97], .removed (some 0)),
        (.insert [97] 0 true, .status none), (.remove [97], .removed (some 0)),
        (.insert [97] 0 true, .status none), (.remove [97], .removed (some 0)),
        (.insert [97] 0 true, .status none)] s ∧
    ¬ s.1.capacity ≤ max 8 (4 * 1) := by
  have hinit : ChurnInit sliceHashFns
      ((⟨List.replicate 8 .free, 0, 0, false⟩ : Hash (List UInt8) ℕ), 0) :=
    ⟨⟨true, by decide +kernel⟩, rfl⟩
  obtain ⟨s, hrun, hs⟩ := Lts.exists_run_guarded (execChurn sliceHashFns 1)
    (fun s call => s.1.Allowed sliceHashFns call.1)
    [(.insert [97] 0 true, .status none), (.remove [97], .removed (some 0)),
      (.insert [97] 0 true, .status none), (.remove [97], .removed (some 0)),
      (.insert [97] 0 true, .status none), (.remove [97], .removed (some 0)),
      (.insert [97] 0 true, .status none), (.remove [97], .removed (some 0)),
      (.insert [97] 0 true, .status none)]
    (fun s => ¬ s.1.capacity ≤ max 8 (4 * 1)) hinit (by decide +kernel)
  exact ⟨s, hrun.mono fun _ _ _ h => churnCall_of_exec h.1 h.2, hs⟩

end Hash

end PosixThreads
