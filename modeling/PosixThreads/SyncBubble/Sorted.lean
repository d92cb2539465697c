import PosixThreads.Collections.Dlist.Swap
import PosixThreads.Library.Bubble
import PosixThreads.SyncBubble.Basic

/-!
# What the list is sorted to

A pass carries a node along the part of the list that is not sorted yet. After an exchange the
carried node is compared once more, with the node that it has just been exchanged with. As two
strings are never exchanged both ways, the passes end whatever bytes the strings have. What
`string_cmp` tells of strings with null bytes is no order, and only plain strings end up sorted.
-/

namespace PosixThreads

namespace Dlist

variable {α : Type} {h : Heap (DlistNode α)} {self : Dlist} {xs ys : List (ℕ × α)} {x : ℕ × α}

namespace Represents

theorem nextMut_eq (hrepr : Represents h self (xs ++ x :: ys)) :
    nextMut h (some x.1) = some (firstOr ys none) := by
  have hget := (Seg.append_iff.mp hrepr.seg).2.1
  rw [nextMut, hget]
  rfl

theorem prevMut_eq (hrepr : Represents h self (xs ++ x :: ys)) :
    prevMut h (some x.1) = some (lastOr none xs) := by
  have hget := (Seg.append_iff.mp hrepr.seg).2.1
  rw [prevMut, hget]
  rfl

theorem split_cons (hrepr : Represents h self (xs ++ x :: ys)) :
    Represents h self ((xs ++ [x]) ++ ys) := by
  rwa [List.append_assoc, List.singleton_append]

theorem prevMut_adjacent {y : ℕ × α} (hrepr : Represents h self (xs ++ x :: y :: ys)) :
    prevMut h (some y.1) = some (some x.1) := by
  have hprev := hrepr.split_cons.prevMut_eq
  rwa [lastOr_append] at hprev

theorem swap_adjacent {y : ℕ × α} (hrepr : Represents h self (xs ++ x :: y :: ys)) :
    ∃ h' self', swap h self x.1 y.1 = some (h', self') ∧
      Represents h' self' (xs ++ y :: x :: ys) := by
  have hrepr' : Represents h self (xs ++ x :: ([] ++ y :: ys)) := hrepr
  obtain ⟨h', self', hswap, hexchanged⟩ := hrepr'.swap_forward
  rw [exchange_append hrepr'.nodup] at hexchanged
  exact ⟨h', self', hswap, hexchanged⟩

end Represents

end Dlist

namespace SyncBubble

open Dlist (Represents firstOr lastOr)

def InOrder (x y : ℕ × StringT) : Prop := ¬(StringT.cmp x.2 y.2).getD 0 > 0

instance : DecidableRel InOrder := fun _ _ => inferInstanceAs (Decidable (¬_))

abbrev InBytes (x y : ℕ × StringT) : Prop := x.2.bytes ≤ y.2.bytes

instance : IsTrans (ℕ × StringT) InBytes := ⟨fun _ _ _ => List.le_trans⟩

instance : Std.Total InBytes := ⟨fun x y => List.le_total x.2.bytes y.2.bytes⟩

theorem InOrder.of_not {x y : ℕ × StringT} (h : ¬InOrder x y) : InOrder y x := by
  rw [InOrder, not_not] at h
  rw [InOrder, StringT.cmp_swap]
  cases hcmp : StringT.cmp x.2 y.2 with
  | none => simp
  | some c =>
      rw [hcmp, Option.getD_some] at h
      rw [Option.map_some, Option.getD_some]
      omega

theorem inOrder_iff_inBytes {x y : ℕ × StringT} (hx : x.2.Plain) (hy : y.2.Plain) :
    InOrder x y ↔ InBytes x y := by
  obtain ⟨c, hc, hsign⟩ := hx.cmp_spec hy
  rw [InOrder, hc, Option.getD_some, hsign]
  exact List.not_lt

section Pass

variable {h : Heap (DlistNode StringT)} {list : Dlist} {us ys vs ws : List (ℕ × StringT)}
  {x y : ℕ × StringT} {sortedStart : Option ℕ}

theorem compareWithPrev_eq (hrepr : Represents h list (us ++ x :: y :: vs))
    (hx : x.2.Holds x.2.bytes) (hy : y.2.Holds y.2.bytes) :
    compareWithPrev h list y.1 =
      if InOrder x y then some (h, list, false)
      else (Dlist.swap h list x.1 y.1).map fun (h, list) => (h, list, true) := by
  have hprev : Dlist.prevMut h (some y.1) = some (some x.1) := hrepr.prevMut_adjacent
  have hcurrent : Dlist.get h y.1 = some y.2 := hrepr.get_eq (by simp)
  have hprevious : Dlist.get h x.1 = some x.2 := hrepr.get_eq (by simp)
  obtain ⟨c, hc⟩ := hx.exists_cmp hy
  have hgt : c > 0 ↔ ¬InOrder x y := by rw [InOrder, hc, Option.getD_some, not_not]
  simp only [compareWithPrev, hprev, hcurrent, hprevious, hc, Option.bind_eq_bind,
    Option.bind_some, hgt]
  by_cases horder : InOrder x y
  · rw [if_pos horder, if_neg (not_not.mpr horder)]
    rfl
  · rw [if_neg horder, if_pos horder, Option.map_eq_bind]
    rfl

theorem compareWithPrev_exchanges (hrepr : Represents h list (us ++ x :: y :: vs))
    (hx : x.2.Holds x.2.bytes) (hy : y.2.Holds y.2.bytes) (horder : ¬InOrder x y) :
    ∃ h' list', compareWithPrev h list y.1 = some (h', list', true) ∧
      Represents h' list' (us ++ y :: x :: vs) := by
  obtain ⟨h', list', hswap, hrepr'⟩ := hrepr.swap_adjacent
  refine ⟨h', list', ?_, hrepr'⟩
  rw [compareWithPrev_eq hrepr hx hy, if_neg horder, hswap]
  rfl

theorem sortPass_turn {h' : Heap (DlistNode StringT)} {list' : Dlist} {node : ℕ} {exchanged : Bool}
    {next : Option ℕ} (hne : some node ≠ sortedStart)
    (hcompare : compareWithPrev h list node = some (h', list', exchanged))
    (hnext : Dlist.nextMut h' (some node) = some next) (fuel : ℕ) (swapped : Bool) :
    sortPass sortedStart (fuel + 1) h list (some node) swapped =
      sortPass sortedStart fuel h' list' next (swapped || exchanged) := by
  simp only [sortPass, if_neg hne, hcompare, hnext, Option.bind_eq_bind, Option.bind_some]

/-- Two nodes that are in order stay where they are. -/
theorem sortPass_of_inOrder (hrepr : Represents h list (us ++ x :: y :: vs))
    (hx : x.2.Holds x.2.bytes) (hy : y.2.Holds y.2.bytes) (horder : InOrder x y)
    (hne : some y.1 ≠ sortedStart) (fuel : ℕ) (swapped : Bool) :
    sortPass sortedStart (fuel + 1) h list (some y.1) swapped =
      sortPass sortedStart fuel h list (firstOr vs none) swapped := by
  have hcompare := compareWithPrev_eq hrepr hx hy
  rw [if_pos horder] at hcompare
  rw [sortPass_turn hne hcompare hrepr.split_cons.nextMut_eq, Bool.or_false]

/-- A pass stops where the sorted part starts, which is nowhere if there is none. -/
theorem sortPass_end (fuel : ℕ) (swapped : Bool) :
    sortPass (firstOr ws none) (fuel + 1) h list (firstOr ws none) swapped =
      some (h, list, swapped) := by
  cases ws with
  | nil => rfl
  | cons w ws => exact if_pos rfl

theorem ne_sortedStart (hrepr : Represents h list (us ++ ws)) (hx : x ∈ us) :
    some x.1 ≠ firstOr ws none := by
  intro hfirst
  cases ws with
  | nil => exact absurd hfirst (Option.some_ne_none x.1)
  | cons w ws =>
      have hnodup := hrepr.nodup
      rw [List.map_append, List.nodup_append] at hnodup
      rw [Dlist.firstOr_cons, Option.some.injEq] at hfirst
      exact hnodup.2.2 x.1 (List.mem_map_of_mem hx) w.1 (by simp) hfirst

theorem sortPass_spec (hrepr : Represents h list (us ++ x :: (ys ++ ws)))
    (hholds : ∀ z ∈ x :: ys, z.2.Holds z.2.bytes) (swapped : Bool) :
    ∃ h' list', (∀ fuel, 2 * ys.length < fuel →
        sortPass (firstOr ws none) fuel h list (firstOr (ys ++ ws) none) swapped =
          some (h', list', swapped || Bubble.moves InOrder x ys)) ∧
      Represents h' list' (us ++ (Bubble.pass InOrder x ys ++ ws)) := by
  induction ys generalizing x us h list swapped with
  | nil =>
      refine ⟨h, list, fun fuel hfuel => ?_, hrepr⟩
      obtain ⟨fuel, rfl⟩ := Nat.exists_eq_add_one.mpr hfuel
      rw [List.nil_append, sortPass_end, Bubble.moves, Bool.or_false]
  | cons y ys ih =>
      have hx : x.2.Holds x.2.bytes := hholds x (by simp)
      have hy : y.2.Holds y.2.bytes := hholds y (by simp)
      have hparts : Represents h list ((us ++ x :: y :: ys) ++ ws) := by simpa using hrepr
      have hxne : some x.1 ≠ firstOr ws none := ne_sortedStart hparts (by simp)
      have hyne : some y.1 ≠ firstOr ws none := ne_sortedStart hparts (by simp)
      by_cases horder : InOrder x y
      · obtain ⟨h', list', hpass, hrepr'⟩ :=
          ih hrepr.split_cons (fun z hz => hholds z (List.mem_cons_of_mem x hz)) swapped
        refine ⟨h', list', fun fuel hfuel => ?_, ?_⟩
        · obtain ⟨fuel, rfl⟩ := Nat.exists_eq_add_one.mpr (Nat.zero_lt_of_lt hfuel)
          rw [List.length_cons] at hfuel
          rw [Bubble.moves_cons_of_le horder, ← hpass fuel (by omega)]
          exact sortPass_of_inOrder hrepr hx hy horder hyne fuel swapped
        · rw [Bubble.pass_cons_of_le horder]
          simpa using hrepr'
      · -- The carried node is the one behind `y` now, and they are in order.
        obtain ⟨h₁, list₁, hcompare, hrepr₁⟩ := compareWithPrev_exchanges hrepr hx hy horder
        have horder' : InOrder y x := InOrder.of_not horder
        have hholds' : ∀ z ∈ x :: ys, z.2.Holds z.2.bytes :=
          List.forall_mem_cons.mpr ⟨hx, fun z hz => hholds z (by simp [hz])⟩
        obtain ⟨h', list', hpass, hrepr'⟩ := ih hrepr₁.split_cons hholds' true
        refine ⟨h', list', fun fuel hfuel => ?_, ?_⟩
        · rw [List.length_cons] at hfuel
          obtain ⟨fuel, rfl⟩ := Nat.exists_eq_add_of_le' (show 2 ≤ fuel by omega)
          have hturn : sortPass (firstOr ws none) (fuel + 2) h list (some y.1) swapped =
              sortPass (firstOr ws none) (fuel + 1) h₁ list₁ (some x.1) true := by
            rw [sortPass_turn hyne hcompare hrepr₁.nextMut_eq, Bool.or_true,
              Dlist.firstOr_cons]
          have hagain := sortPass_of_inOrder hrepr₁ hy hx horder' hxne fuel true
          rw [Bubble.moves_cons_of_not_le horder, Bool.or_true]
          exact hturn.trans (hagain.trans (hpass fuel (by omega)))
        · rw [Bubble.pass_cons_of_not_le horder]
          simpa using hrepr'

/-- The sorted part grows by the node that the pass has left in front of it. -/
theorem nextSortedStart_eq (hrepr : Represents h list (us ++ x :: ws)) :
    nextSortedStart h list (firstOr ws none) = some (some x.1) := by
  cases ws with
  | nil =>
      have hend := hrepr.end_eq
      rw [Dlist.lastOr_append] at hend
      exact congrArg some hend
  | cons w ws => exact hrepr.prevMut_adjacent

theorem nextMut_head (hrepr : Represents h list (x :: ys)) :
    Dlist.nextMut h list.head = some (firstOr ys none) := by
  have hsplit : Represents h list ([] ++ x :: ys) := hrepr
  rw [hrepr.head_eq]
  exact hsplit.nextMut_eq

end Pass

section Passes

variable {h : Heap (DlistNode StringT)} {list : Dlist} {ys ws : List (ℕ × StringT)}
  {x : ℕ × StringT}

/-- One pass, behind which the sorted part starts one node earlier. -/
theorem bubbleSortFrom_turn (hrepr : Represents h list (x :: ys ++ ws))
    (hholds : ∀ z ∈ x :: ys, z.2.Holds z.2.bytes) :
    ∃ h' list' init last, Bubble.pass InOrder x ys = init ++ [last] ∧
      Represents h' list' (init ++ last :: ws) ∧
      ∀ fuel turns, 2 * ys.length < fuel →
        bubbleSortFrom fuel (turns + 1) h list (firstOr ws none) =
          if Bubble.moves InOrder x ys then
            bubbleSortFrom fuel turns h' list' (firstOr (last :: ws) none)
          else some (h', list') := by
  obtain ⟨init, last, hpass⟩ := Bubble.pass_eq_concat (r := InOrder) x ys
  have hsplit : Represents h list ([] ++ x :: (ys ++ ws)) := hrepr
  obtain ⟨h', list', hloop, hrepr'⟩ := sortPass_spec hsplit hholds false
  rw [hpass, List.nil_append, List.append_assoc, List.singleton_append] at hrepr'
  refine ⟨h', list', init, last, hpass, hrepr', fun fuel turns hfuel => ?_⟩
  have hfirst : Dlist.nextMut h list.head = some (firstOr (ys ++ ws) none) := nextMut_head hrepr
  simp only [bubbleSortFrom, hfirst, hloop fuel hfuel, nextSortedStart_eq hrepr',
    Option.bind_eq_bind, Option.bind_some, Bool.false_or]
  rfl

theorem pass_congr_inBytes (hplain : ∀ z ∈ x :: ys, z.2.Plain) :
    Bubble.pass InOrder x ys = Bubble.pass InBytes x ys ∧
      Bubble.moves InOrder x ys = Bubble.moves InBytes x ys :=
  Bubble.pass_congr fun a ha b hb => inOrder_iff_inBytes (hplain a ha) (hplain b hb)

/-- The passes end. From a state in which a part of the list is sorted and where it belongs, they
sort the whole list if its strings are plain. -/
theorem bubbleSortFrom_spec (hrepr : Represents h list (x :: ys ++ ws))
    (hholds : ∀ z ∈ x :: ys, z.2.Holds z.2.bytes) :
    ∃ h' list' zs, (∀ fuel turns, 2 * ys.length < fuel → ys.length < turns →
        bubbleSortFrom fuel turns h list (firstOr ws none) = some (h', list')) ∧
      Represents h' list' zs ∧ zs.Perm (x :: ys ++ ws) ∧
      ((∀ z ∈ x :: ys, z.2.Plain) → Bubble.Settled InBytes (x :: ys) ws →
        zs.Pairwise InBytes) := by
  induction hlen : ys.length using Nat.strong_induction_on generalizing x ys ws h list with
  | _ n ih =>
      obtain ⟨h₁, list₁, init, last, hpass, hrepr₁, hturn⟩ := bubbleSortFrom_turn hrepr hholds
      have hperm : (init ++ [last]).Perm (x :: ys) := hpass ▸ Bubble.pass_perm x ys
      have hperm' : (init ++ last :: ws).Perm (x :: ys ++ ws) := by
        simpa using hperm.append_right ws
      by_cases hmoves : Bubble.moves InOrder x ys = true
      · cases init with
        | nil =>
            -- a pass over one node exchanges nothing
            have hnil : ys = [] := by simpa using hperm.length_eq.symm
            rw [hnil] at hmoves
            exact absurd hmoves Bool.false_ne_true
        | cons x' ys' =>
            have hlt : ys'.length + 1 = ys.length := by simpa using hperm.length_eq
            have hmem : ∀ z ∈ x' :: ys', z ∈ x :: ys := fun z hz =>
              hperm.mem_iff.mp (List.mem_append_left _ hz)
            obtain ⟨h', list', zs, hrest, hrepr', hzs, hsorted⟩ :=
              ih ys'.length (by omega) hrepr₁ (fun z hz => hholds z (hmem z hz)) rfl
            refine ⟨h', list', zs, fun fuel turns hfuel hturns => ?_, hrepr', hzs.trans hperm',
              fun hplain hsettled => ?_⟩
            · obtain ⟨turns, rfl⟩ := Nat.exists_eq_add_one.mpr (Nat.zero_lt_of_lt hturns)
              rw [hturn fuel turns (by omega), if_pos hmoves]
              exact hrest fuel turns (by omega) (by omega)
            · rw [(pass_congr_inBytes hplain).1] at hpass
              exact hsorted (fun z hz => hplain z (hmem z hz)) (hsettled.pass hpass)
      · have hstays : Bubble.moves InOrder x ys = false := Bool.eq_false_of_not_eq_true hmoves
        refine ⟨h₁, list₁, init ++ last :: ws, fun fuel turns hfuel hturns => ?_, hrepr₁, hperm',
          fun hplain hsettled => ?_⟩
        · obtain ⟨turns, rfl⟩ := Nat.exists_eq_add_one.mpr (Nat.zero_lt_of_lt hturns)
          rw [hturn fuel turns (by omega), if_neg hmoves]
        · obtain ⟨hpass', hmoves'⟩ := pass_congr_inBytes hplain
          have hstays' : Bubble.moves InBytes x ys = false := hmoves'.symm.trans hstays
          have hsame := hpass'.trans (Bubble.pairwise_of_not_moves hstays').1
          have heq : init ++ last :: ws = x :: ys ++ ws := by
            rw [← hsame, hpass, List.append_assoc, List.singleton_append]
          rw [heq]
          exact hsettled.pairwise hstays'

end Passes

theorem bubbleSort_spec {h : Heap (DlistNode StringT)} {list : Dlist}
    {xs : List (ℕ × StringT)} (hrepr : Represents h list xs)
    (hholds : ∀ x ∈ xs, x.2.Holds x.2.bytes) :
    ∃ h' list' ys, (∀ fuel, 2 * list.len < fuel → bubbleSort fuel h list = some (h', list')) ∧
      Represents h' list' ys ∧ ys.Perm xs ∧ ((∀ x ∈ xs, x.2.Plain) → ys.Pairwise InBytes) := by
  cases xs with
  | nil =>
      refine ⟨h, list, [], fun fuel hfuel => ?_, hrepr, .refl _, fun _ => .nil⟩
      obtain ⟨fuel, rfl⟩ := Nat.exists_eq_add_one.mpr (Nat.zero_lt_of_lt hfuel)
      have hhead : list.head = none := hrepr.head_eq
      rw [bubbleSort, bubbleSortFrom, hhead]
      rfl
  | cons x xs =>
      have hsplit : Represents h list (x :: xs ++ []) := by simpa using hrepr
      obtain ⟨h', list', ys, hruns, hrepr', hperm, hsorted⟩ :=
        bubbleSortFrom_spec hsplit hholds
      rw [List.append_nil] at hperm
      refine ⟨h', list', ys, fun fuel hfuel => ?_, hrepr', hperm, fun hplain =>
        hsorted hplain (.nil _)⟩
      rw [hrepr.len_eq, List.length_cons] at hfuel
      exact hruns fuel fuel (by omega) (by omega)

/-- `bubble_sort` ends, in turns that are bounded by the length of the list, and leaves the nodes of
the list with their strings in the order of the bytes of the strings. -/
theorem bubbleSort_sorts {h : Heap (DlistNode StringT)} {list : Dlist}
    {xs : List (ℕ × StringT)} (hrepr : Represents h list xs) (hplain : ∀ x ∈ xs, x.2.Plain) :
    ∃ h' list' ys, (∀ fuel, 2 * list.len < fuel → bubbleSort fuel h list = some (h', list')) ∧
      Represents h' list' ys ∧ ys.Perm xs ∧ ys.Pairwise fun x y => x.2.bytes ≤ y.2.bytes := by
  obtain ⟨h', list', ys, hruns, hrepr', hperm, hsorted⟩ :=
    bubbleSort_spec hrepr fun x hx => (hplain x hx).holds
  exact ⟨h', list', ys, hruns, hrepr', hperm, hsorted hplain⟩

def unsortedHeap : Heap (DlistNode StringT) :=
  ⟨[some ⟨⟨⟨[some 98, some 0], 2, 2⟩⟩, none, some 1⟩,
    some ⟨⟨⟨[some 97, some 98, some 0], 3, 3⟩⟩, some 0, none⟩]⟩

theorem bubbleSort_sorts_pair : ∃ h' list' ys,
    (∀ fuel, 4 < fuel → bubbleSort fuel unsortedHeap ⟨some 0, some 1, 2⟩ = some (h', list')) ∧
      Represents h' list' ys ∧
      ys.Perm [(0, ⟨⟨[some 98, some 0], 2, 2⟩⟩), (1, ⟨⟨[some 97, some 98, some 0], 3, 3⟩⟩)] ∧
      ys.Pairwise fun x y => x.2.bytes ≤ y.2.bytes := by
  have hb : StringT.Holds ⟨⟨[some 98, some 0], 2, 2⟩⟩ [98] := ⟨⟨[], rfl⟩, rfl, rfl, by decide⟩
  have hab : StringT.Holds ⟨⟨[some 97, some 98, some 0], 3, 3⟩⟩ [97, 98] :=
    ⟨⟨[], rfl⟩, rfl, rfl, by decide⟩
  have hrepr : Represents unsortedHeap ⟨some 0, some 1, 2⟩
      [(0, ⟨⟨[some 98, some 0], 2, 2⟩⟩), (1, ⟨⟨[some 97, some 98, some 0], 3, 3⟩⟩)] :=
    ⟨⟨rfl, rfl, trivial⟩, rfl, rfl, rfl, by decide⟩
  exact bubbleSort_sorts hrepr (List.forall_mem_cons.mpr ⟨hb.plain (by decide),
    List.forall_mem_cons.mpr ⟨hab.plain (by decide), by simp⟩⟩)

end SyncBubble

end PosixThreads
