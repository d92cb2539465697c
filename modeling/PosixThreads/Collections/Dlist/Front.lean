import PosixThreads.Collections.Dlist.Spec

/-!
# Moving a node to the front

`move_before` without a target moves a node behind the end of the list. Its mirror image
`move_after` also delegates to `move_after`, with the head of the list as the target, so it
moves a node behind the head. Only the head itself is then where it should be.
-/

namespace PosixThreads

namespace Dlist

namespace Represents

variable {α : Type} {h : Heap (DlistNode α)} {self : Dlist} {xs ys : List (ℕ × α)} {x : ℕ × α}
  {p : ℕ} {v : α}

theorem moveAfter_none_head (hrepr : Represents h self ((p, v) :: ys)) :
    moveAfter h self p none = some (h, self) := by
  have hp : p ∈ ((p, v) :: ys).map Prod.fst := by simp
  have hchecks := hrepr.moveChecks_eq hp none (by simp)
  have hget := hrepr.seg.1
  simp [moveAfter, hchecks, hget]

theorem moveAfter_none_spec (hrepr : Represents h self (x :: xs ++ (p, v) :: ys)) :
    ∃ h' self', moveAfter h self p none = some (h', self') ∧
      Represents h' self' (x :: (p, v) :: (xs ++ ys)) := by
  have hp : p ∈ (x :: xs ++ (p, v) :: ys).map Prod.fst := by simp
  have hx : x.1 ∈ (x :: xs ++ (p, v) :: ys).map Prod.fst := by simp
  have hchecks := hrepr.moveChecks_eq hp none (by simp)
  have hchecks' := hrepr.moveChecks_eq hp (some x.1) (fun t ht => Option.some.inj ht ▸ hx)
  have hne : x.1 ≠ p := fun heq => (not_mem_of_nodup hrepr.nodup).1 (by simp [← heq])
  have hsome : lastOr none (x :: xs) ≠ none := lastOr_eq_none_iff.not.mpr (List.cons_ne_nil x xs)
  have hhead : self.head = some x.1 := hrepr.head_eq
  obtain ⟨hseg, hget, _⟩ := Seg.append_iff.mp hrepr.seg
  cases xs with
  | nil =>
      -- the node follows the head already
      refine ⟨h, self, ?_, hrepr⟩
      simp [moveAfter, moveAfterNode, hchecks, hchecks', hget, hhead]
  | cons y xs =>
      have hprev : lastOr none (x :: y :: xs) ≠ some x.1 := by
        rw [lastOr_cons, lastOr_congr (List.cons_ne_nil y xs) _ none]
        intro heq
        have hnodup := (not_mem_of_nodup hrepr.nodup).2.2.2.1
        exact (List.nodup_cons.mp hnodup).1 (lastOr_mem heq)
      have hsplit : x :: y :: xs ++ ys = [x] ++ (y :: xs ++ ys) := rfl
      obtain ⟨h', self', hrelink, hrepr', _⟩ := hrepr.relinkAfter_spec hsplit rfl hseg.1 rfl
      refine ⟨h', self', ?_, hrepr'⟩
      generalize lastOr none (x :: y :: xs) = prev at hget hprev hsome
      simp [moveAfter, moveAfterNode, hchecks, hchecks', hget, hhead, hne, hprev, hrelink, hsome]

/-- `move_before` moves any node to the end of the list, and `move_after` moves a node to the front
if and only if it is there already. -/
theorem moveAfter_none_iff (hrepr : Represents h self (xs ++ (p, v) :: ys)) :
    ((∃ h' self', moveAfter h self p none = some (h', self') ∧
        Represents h' self' ((p, v) :: (xs ++ ys))) ↔ self.head = some p) ∧
      ∃ h' self', moveBefore h self p none = some (h', self') ∧
        Represents h' self' (xs ++ ys ++ [(p, v)]) := by
  refine ⟨?_, hrepr.moveBefore_none_spec⟩
  cases xs with
  | nil => exact iff_of_true ⟨h, self, hrepr.moveAfter_none_head, hrepr⟩ hrepr.head_eq
  | cons x xs =>
      have hne : x.1 ≠ p := fun heq => (not_mem_of_nodup hrepr.nodup).1 (by simp [← heq])
      have hhead : self.head = some x.1 := hrepr.head_eq
      refine iff_of_false ?_ (by simpa [hhead] using hne)
      rintro ⟨h', self', hmove, hfront⟩
      obtain ⟨h₁, self₁, hmove₁, hsecond⟩ := hrepr.moveAfter_none_spec
      obtain ⟨rfl, rfl⟩ := Prod.mk.inj (Option.some.inj (hmove₁.symm.trans hmove))
      have heq := hsecond.unique hfront
      exact hne (congrArg Prod.fst (List.cons.inj heq).1)

end Represents

def tripleHeap : Heap (DlistNode ℕ) :=
  ⟨[some ⟨10, none, some 1⟩, some ⟨20, some 0, some 2⟩, some ⟨30, some 1, none⟩]⟩

def tripleList : Dlist := ⟨some 0, some 2, 3⟩

theorem tripleList_represents : Represents tripleHeap tripleList [(0, 10), (1, 20), (2, 30)] :=
  ⟨⟨rfl, rfl, rfl, trivial⟩, rfl, rfl, rfl, by decide⟩

/-- The head stays in front, and the second node is moved to the end. -/
theorem moveAfter_none_keeps_head :
    (∃ h' self', moveAfter tripleHeap tripleList 0 none = some (h', self') ∧
      Represents h' self' [(0, 10), (1, 20), (2, 30)]) ∧
    ∃ h' self', moveBefore tripleHeap tripleList 1 none = some (h', self') ∧
      Represents h' self' [(0, 10), (2, 30), (1, 20)] := by
  have hfirst : Represents tripleHeap tripleList ([] ++ (0, 10) :: [(1, 20), (2, 30)]) :=
    tripleList_represents
  have hsecond : Represents tripleHeap tripleList ([(0, 10)] ++ (1, 20) :: [(2, 30)]) :=
    tripleList_represents
  exact ⟨hfirst.moveAfter_none_iff.1.mpr rfl, hsecond.moveAfter_none_iff.2⟩

/-- The last node of three is moved to the second place. -/
theorem moveAfter_none_moves_behind_head : ∃ h' self',
    moveAfter tripleHeap tripleList 2 none = some (h', self') ∧
      Represents h' self' [(0, 10), (2, 30), (1, 20)] ∧
      ¬Represents h' self' [(2, 30), (0, 10), (1, 20)] := by
  refine ⟨⟨[some ⟨10, none, some 2⟩, some ⟨20, some 2, none⟩, some ⟨30, some 0, some 1⟩]⟩,
    ⟨some 0, some 1, 3⟩, by decide, ⟨⟨rfl, rfl, rfl, trivial⟩, rfl, rfl, rfl, by decide⟩, ?_⟩
  intro hfront
  exact absurd hfront.head_eq (by decide)

end Dlist

end PosixThreads
