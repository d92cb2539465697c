import PosixThreads.Collections.Dlist.Spec
import PosixThreads.Library.Lts

/-!
# Doubly linked lists refine sequences

`Dlists` is a heap with any number of lists on it, and `Seqs` is the same as sequences of nodes.
An operation of `Seqs` says what the name of the operation promises. It is `none` if an argument
is not as `dlist.h` demands: a node that is not in the list, or a list that has been used up by
`concat`. Whatever is done with `Seqs` can be done with `Dlists`, with the same results, and the
lists are well-formed all along. In particular no assertion fails.
-/

namespace PosixThreads

namespace Dlist

variable {α : Type}

/-! ## Sequences -/

/-- The sequence with a node behind a given one, or in front of all if there is none given. -/
def seqInsertAfter (x : ℕ × α) : Option ℕ → List (ℕ × α) → List (ℕ × α)
  | none, xs => x :: xs
  | some _, [] => []
  | some p, y :: ys => if y.1 = p then y :: x :: ys else y :: seqInsertAfter x (some p) ys

/-- The sequence with a node in front of a given one, or behind all if there is none given. -/
def seqInsertBefore (x : ℕ × α) : Option ℕ → List (ℕ × α) → List (ℕ × α)
  | none, xs => xs ++ [x]
  | some _, [] => []
  | some p, y :: ys => if y.1 = p then x :: y :: ys else y :: seqInsertBefore x (some p) ys

def seqErase (node : ℕ) (xs : List (ℕ × α)) : List (ℕ × α) := xs.eraseP (·.1 = node)

def seqValue (node : ℕ) (xs : List (ℕ × α)) : Option α :=
  (xs.find? (·.1 = node)).map Prod.snd

def seqMoveAfter (node after : ℕ) (xs : List (ℕ × α)) : List (ℕ × α) :=
  if after = node then xs
  else match seqValue node xs with
    | none => xs
    | some v => seqInsertAfter (node, v) (some after) (seqErase node xs)

def seqMoveBefore (node : ℕ) (before : Option ℕ) (xs : List (ℕ × α)) : List (ℕ × α) :=
  if before = some node then xs
  else match seqValue node xs with
    | none => xs
    | some v => seqInsertBefore (node, v) before (seqErase node xs)

def seqHas (xs : List (ℕ × α)) : Option ℕ → Bool
  | none => true
  | some p => p ∈ xs.map Prod.fst

section Sequences

variable {x : ℕ × α} {xs ys : List (ℕ × α)} {p : ℕ} {v : α}

theorem seqInsertAfter_none (x : ℕ × α) (xs : List (ℕ × α)) :
    seqInsertAfter x none xs = x :: xs := by
  cases xs <;> rfl

theorem seqInsertBefore_none (x : ℕ × α) (xs : List (ℕ × α)) :
    seqInsertBefore x none xs = xs ++ [x] := by
  cases xs <;> rfl

theorem seqInsertAfter_split (hp : p ∉ xs.map Prod.fst) (v : α) :
    seqInsertAfter x (some p) (xs ++ (p, v) :: ys) = xs ++ (p, v) :: x :: ys := by
  induction xs with
  | nil => simp [seqInsertAfter]
  | cons y xs ih =>
      simp only [List.map_cons, List.mem_cons, not_or] at hp
      simp [seqInsertAfter, Ne.symm hp.1, ih hp.2]

theorem seqInsertBefore_split (hp : p ∉ xs.map Prod.fst) (v : α) :
    seqInsertBefore x (some p) (xs ++ (p, v) :: ys) = xs ++ x :: (p, v) :: ys := by
  induction xs with
  | nil => simp [seqInsertBefore]
  | cons y xs ih =>
      simp only [List.map_cons, List.mem_cons, not_or] at hp
      simp [seqInsertBefore, Ne.symm hp.1, ih hp.2]

theorem seqInsertAfter_last (hnodup : ((xs ++ ys).map Prod.fst).Nodup)
    (hp : lastOr none xs = some p) : seqInsertAfter x (some p) (xs ++ ys) = xs ++ x :: ys := by
  rcases List.eq_nil_or_concat xs with rfl | ⟨zs, ⟨q, w⟩, rfl⟩
  · simp at hp
  · rw [List.concat_eq_append] at *
    simp only [lastOr_append, lastOr_cons, lastOr_nil, Option.some.injEq] at hp
    subst hp
    rw [List.append_assoc, List.singleton_append] at hnodup ⊢
    rw [seqInsertAfter_split (not_mem_of_nodup hnodup).1, List.append_assoc]
    rfl

theorem seqInsertBefore_first (hnodup : ((xs ++ ys).map Prod.fst).Nodup)
    (hp : firstOr ys none = some p) : seqInsertBefore x (some p) (xs ++ ys) = xs ++ x :: ys := by
  cases ys with
  | nil => simp at hp
  | cons y ys =>
      obtain ⟨q, w⟩ := y
      simp only [firstOr_cons, Option.some.injEq] at hp
      subst hp
      exact seqInsertBefore_split (not_mem_of_nodup hnodup).1 w

theorem seqErase_split (hp : p ∉ xs.map Prod.fst) (v : α) :
    seqErase p (xs ++ (p, v) :: ys) = xs ++ ys := by
  have hnot : ∀ y ∈ xs, ¬ decide (y.1 = p) = true := by
    intro y hy heq
    exact hp (List.mem_map.mpr ⟨y, hy, of_decide_eq_true heq⟩)
  rw [seqErase, List.eraseP_append_right _ hnot]
  simp

theorem seqValue_split (hp : p ∉ xs.map Prod.fst) (v : α) :
    seqValue p (xs ++ (p, v) :: ys) = some v := by
  have hnone : xs.find? (·.1 = p) = none := by
    rw [List.find?_eq_none]
    intro y hy heq
    exact hp (List.mem_map.mpr ⟨y, hy, of_decide_eq_true heq⟩)
  simp [seqValue, List.find?_append, hnone]

theorem exists_split (hnodup : (xs.map Prod.fst).Nodup) (hp : p ∈ xs.map Prod.fst) :
    ∃ as v bs, xs = as ++ (p, v) :: bs ∧ p ∉ as.map Prod.fst := by
  obtain ⟨⟨q, v⟩, hmem, rfl⟩ := List.mem_map.mp hp
  obtain ⟨as, bs, rfl⟩ := List.append_of_mem hmem
  exact ⟨as, v, bs, rfl, (not_mem_of_nodup hnodup).1⟩

end Sequences

/-! ## The operations on one list -/

/-- Only the nodes of a list have been changed, and those that it has got are new. -/
structure Edits (h : Heap (DlistNode α)) (xs : List (ℕ × α)) (h' : Heap (DlistNode α))
    (xs' : List (ℕ × α)) : Prop where
  frame : ∀ q < h.next, q ∉ xs.map Prod.fst → h'.get q = h.get q
  nodes : ∀ q ∈ xs'.map Prod.fst, q ∈ xs.map Prod.fst ∨ h.next ≤ q

namespace Represents

variable {h h' : Heap (DlistNode α)} {self other : Dlist} {xs ys : List (ℕ × α)} {p : ℕ} {v : α}

/-- A list only depends on its own nodes. -/
theorem congr (hrepr : Represents h self xs) (heq : ∀ q ∈ xs.map Prod.fst, h'.get q = h.get q) :
    Represents h' self xs :=
  ⟨hrepr.seg.congr heq, hrepr.head_eq, hrepr.end_eq, hrepr.len_eq, hrepr.nodup⟩

theorem plucked (hp : h.get p = some ⟨v, none, none⟩) :
    Represents h (Dlist.plucked p) [(p, v)] :=
  ⟨⟨hp, trivial⟩, rfl, rfl, rfl, by simp⟩

theorem edits_insert {as bs : List (ℕ × α)} (hframe : ∀ q, q ∉ (as ++ (h.next, v) :: bs).map
    Prod.fst → h'.get q = h.get q) : Edits h (as ++ bs) h' (as ++ (h.next, v) :: bs) := by
  constructor
  · intro q hlt hq
    refine hframe q ?_
    rw [mem_insert_iff]
    rintro (heq | hmem)
    · exact hlt.ne heq
    · exact hq hmem
  · intro q hq
    rcases (mem_insert_iff q).mp hq with heq | hmem
    · exact Or.inr heq.ge
    · exact Or.inl hmem

theorem insertAfter_seq (hrepr : Represents h self xs) (value : α) {prev : Option ℕ}
    (hprev : seqHas xs prev = true) :
    ∃ h' self', insertAfter true h self value prev = some (none, h', self', some h.next) ∧
      Represents h' self' (seqInsertAfter (h.next, value) prev xs) ∧ h'.next = h.next + 1 ∧
      Edits h xs h' (seqInsertAfter (h.next, value) prev xs) := by
  obtain ⟨as, bs, hxs, hlast, hseq⟩ : ∃ as bs, xs = as ++ bs ∧ lastOr none as = prev ∧
      seqInsertAfter (h.next, value) prev xs = as ++ (h.next, value) :: bs := by
    cases prev with
    | none => exact ⟨[], xs, rfl, rfl, seqInsertAfter_none _ _⟩
    | some p =>
        simp only [seqHas, decide_eq_true_eq] at hprev
        obtain ⟨as, v, bs, rfl, hnot⟩ := exists_split hrepr.nodup hprev
        refine ⟨as ++ [(p, v)], bs, by simp, by simp, ?_⟩
        simp [seqInsertAfter_split hnot]
  subst hxs
  obtain ⟨h', self', hinsert, hrepr', hnext, hframe⟩ := hrepr.insertAfter_spec value
  rw [hlast] at hinsert
  rw [hseq]
  exact ⟨h', self', hinsert, hrepr', hnext, edits_insert hframe⟩

theorem insertBefore_seq (hrepr : Represents h self xs) (value : α) (next : Option ℕ)
    (hhas : seqHas xs next = true) :
    ∃ h' self', insertBefore true h self value next = some (none, h', self', some h.next) ∧
      Represents h' self' (seqInsertBefore (h.next, value) next xs) ∧ h'.next = h.next + 1 ∧
      Edits h xs h' (seqInsertBefore (h.next, value) next xs) := by
  obtain ⟨as, bs, hxs, hlast, hseq⟩ : ∃ as bs, xs = as ++ bs ∧
      insertBefore true h self value next = insertAfter true h self value (lastOr none as) ∧
      seqInsertBefore (h.next, value) next xs = as ++ (h.next, value) :: bs := by
    cases next with
    | none =>
        refine ⟨xs, [], by simp, ?_, seqInsertBefore_none _ _⟩
        rw [insertBefore, append, hrepr.end_eq]
    | some p =>
        simp only [seqHas, decide_eq_true_eq] at hhas
        obtain ⟨as, v, bs, rfl, hnot⟩ := exists_split hrepr.nodup hhas
        refine ⟨as, (p, v) :: bs, rfl, ?_, seqInsertBefore_split hnot v⟩
        simp [insertBefore, (Seg.append_iff.mp hrepr.seg).2.1]
  subst hxs
  obtain ⟨h', self', hinsert, hrepr', hnext, hframe⟩ := hrepr.insertAfter_spec value
  rw [hseq, hlast]
  exact ⟨h', self', hinsert, hrepr', hnext, edits_insert hframe⟩

theorem append_seq (hrepr : Represents h self xs) (value : α) :
    ∃ h' self', append true h self value = some (none, h', self', some h.next) ∧
      Represents h' self' (xs ++ [(h.next, value)]) ∧ h'.next = h.next + 1 ∧
      Edits h xs h' (xs ++ [(h.next, value)]) := by
  have hinsert := hrepr.insertBefore_seq value none rfl
  rwa [seqInsertBefore_none] at hinsert

theorem edits_erase {as bs : List (ℕ × α)} (hframe : ∀ q, q ∉ (as ++ (p, v) :: bs).map Prod.fst →
    h'.get q = h.get q) : Edits h (as ++ (p, v) :: bs) h' (as ++ bs) :=
  ⟨fun q _ hq => hframe q hq, fun q hq => Or.inl ((mem_insert_iff q).mpr (Or.inr hq))⟩

theorem pluck_seq (hrepr : Represents h self xs) (hp : p ∈ xs.map Prod.fst) :
    ∃ h' self' v, pluck h self p = some (h', self') ∧ seqValue p xs = some v ∧
      Represents h' self' (seqErase p xs) ∧ Represents h' (Dlist.plucked p) [(p, v)] ∧
      h'.next = h.next ∧ p ∉ (seqErase p xs).map Prod.fst ∧ Edits h xs h' (seqErase p xs) := by
  obtain ⟨as, v, bs, rfl, hnot⟩ := exists_split hrepr.nodup hp
  obtain ⟨h', self', hpluck, hrepr', hp', hnext, hframe⟩ := hrepr.pluck_spec
  rw [seqErase_split hnot, seqValue_split hnot]
  exact ⟨h', self', v, hpluck, rfl, hrepr', .plucked hp', hnext, hrepr.not_mem_without,
    edits_erase hframe⟩

theorem remove_seq (hrepr : Represents h self xs) (hp : p ∈ xs.map Prod.fst) :
    ∃ h' self' v, remove h self p = some (v, h', self') ∧ seqValue p xs = some v ∧
      Represents h' self' (seqErase p xs) ∧ h'.next = h.next ∧ Edits h xs h' (seqErase p xs) := by
  obtain ⟨as, v, bs, rfl, hnot⟩ := exists_split hrepr.nodup hp
  obtain ⟨h', self', hremove, hrepr', hnext, hframe⟩ := hrepr.remove_frame
  rw [seqErase_split hnot, seqValue_split hnot]
  exact ⟨h', self', v, hremove, rfl, hrepr', hnext, edits_erase hframe⟩

theorem concat_spec (hxs : Represents h self xs) (hys : Represents h other ys)
    (hdisj : ∀ q ∈ xs.map Prod.fst, q ∉ ys.map Prod.fst) :
    ∃ h' self', concat h self other = some (h', self') ∧ Represents h' self' (xs ++ ys) ∧
      h'.next = h.next ∧ ∀ q, q ∉ xs.map Prod.fst → q ∉ ys.map Prod.fst → h'.get q = h.get q := by
  by_cases hy : ys = []
  · subst hy
    refine ⟨h, self, ?_, by rwa [List.append_nil], rfl, fun _ _ _ => rfl⟩
    simp [concat, hys.len_eq]
  by_cases hx : xs = []
  · subst hx
    refine ⟨h, other, ?_, hys, rfl, fun _ _ _ => rfl⟩
    simp [concat, hys.len_eq, hxs.len_eq, hy]
  have hnodup : ((xs ++ ys).map Prod.fst).Nodup := by
    rw [List.map_append, List.nodup_append]
    refine ⟨hxs.nodup, hys.nodup, ?_⟩
    rintro q hq r hr rfl
    exact hdisj q hq hr
  obtain ⟨h₁, hset₁, hxs₁, hnext₁, hframe₁⟩ :=
    hxs.seg.setNext_last hxs.nodup (firstOr ys none)
  have hys₁ : Seg h₁ none ys none :=
    hys.seg.congr fun q hq => hframe₁ q fun hq' => hdisj q hq' hq
  obtain ⟨h₂, hset₂, hys₂, hnext₂, hframe₂⟩ := hys₁.setPrev_first hys.nodup (lastOr none xs)
  refine ⟨h₂, ⟨self.head, other.endNode, self.len + other.len⟩, ?_,
    ⟨Seg.append_iff.mpr ⟨?_, hys₂⟩, ?_, ?_, ?_, hnodup⟩, hnext₂.trans hnext₁, ?_⟩
  · have hlast : (lastOr none xs).isSome = true := by
      rw [Option.isSome_iff_ne_none, Ne, lastOr_eq_none_iff]
      exact hx
    simp [concat, hxs.len_eq, hys.len_eq, hx, hy, link, hxs.end_eq, hys.head_eq, hlast, hset₁,
      hset₂]
  · exact hxs₁.congr fun q hq => hframe₂ q (hdisj q hq)
  · cases xs with
    | nil => exact absurd rfl hx
    | cons x xs => simpa using hxs.head_eq
  · rw [hys.end_eq, lastOr_append, lastOr_congr hy]
  · simp [hxs.len_eq, hys.len_eq]
  · intro q hqx hqy
    rw [hframe₂ q hqy, hframe₁ q hqx]

/-- What follows a node of the list is what follows it when another node is taken out, unless it is
that one. -/
theorem exists_split_after {a : ℕ} (hrepr : Represents h self (xs ++ (p, v) :: ys))
    (ha : a ∈ (xs ++ ys).map Prod.fst) (hprev : lastOr none xs ≠ some a) :
    ∃ us vs n, xs ++ ys = us ++ vs ∧ lastOr none us = some a ∧ h.get a = some n ∧
      n.next = firstOr vs none := by
  rw [List.map_append, List.mem_append] at ha
  obtain ⟨_, _, _, hnx, hny⟩ := not_mem_of_nodup hrepr.nodup
  rcases ha with ha | ha
  · obtain ⟨us, w, vs, rfl, _⟩ := exists_split hnx ha
    have hvs : vs ≠ [] := fun heq => hprev (by simp [heq])
    have hseg := hrepr.seg
    rw [List.append_assoc, List.cons_append] at hseg
    refine ⟨us ++ [(a, w)], vs ++ ys, _, by simp, by simp, (Seg.append_iff.mp hseg).2.1, ?_⟩
    cases vs with
    | nil => exact absurd rfl hvs
    | cons u vs => rfl
  · obtain ⟨us, w, vs, rfl, _⟩ := exists_split hny ha
    have hys := (Seg.append_iff.mp hrepr.seg).2.2
    exact ⟨xs ++ us ++ [(a, w)], vs, _, by simp, by simp, (Seg.append_iff.mp hys).2.1, rfl⟩

theorem exists_split_before {b : ℕ} (hrepr : Represents h self (xs ++ (p, v) :: ys))
    (hb : b ∈ (xs ++ ys).map Prod.fst) (hnext : firstOr ys none ≠ some b) :
    ∃ us vs n, xs ++ ys = us ++ vs ∧ firstOr vs none = some b ∧ h.get b = some n ∧
      n.prev = lastOr none us := by
  rw [List.map_append, List.mem_append] at hb
  obtain ⟨_, _, _, hnx, hny⟩ := not_mem_of_nodup hrepr.nodup
  rcases hb with hb | hb
  · obtain ⟨us, w, vs, rfl, _⟩ := exists_split hnx hb
    have hxs := (Seg.append_iff.mp hrepr.seg).1
    exact ⟨us, (b, w) :: vs ++ ys, _, by simp, rfl, (Seg.append_iff.mp hxs).2.1, rfl⟩
  · obtain ⟨us, w, vs, rfl, _⟩ := exists_split hny hb
    have hus : us ≠ [] := fun heq => hnext (by simp [heq])
    have hys := (Seg.append_iff.mp hrepr.seg).2.2
    refine ⟨xs ++ us, (b, w) :: vs, _, by simp, rfl, (Seg.append_iff.mp hys).2.1, ?_⟩
    rw [lastOr_append]
    exact lastOr_congr hus _ _

theorem edits_move {as bs us vs : List (ℕ × α)} (hsplit : as ++ bs = us ++ vs)
    (hframe : ∀ q, q ∉ (as ++ (p, v) :: bs).map Prod.fst → h'.get q = h.get q) :
    Edits h (as ++ (p, v) :: bs) h' (us ++ (p, v) :: vs) := by
  refine ⟨fun q _ hq => hframe q hq, fun q hq => Or.inl ?_⟩
  rwa [mem_insert_iff, ← hsplit, ← mem_insert_iff] at hq

theorem edits_refl (h : Heap (DlistNode α)) (xs : List (ℕ × α)) : Edits h xs h xs :=
  ⟨fun _ _ _ => rfl, fun _ hq => Or.inl hq⟩

theorem moveAfter_seq {a : ℕ} (hrepr : Represents h self xs) (hp : p ∈ xs.map Prod.fst)
    (ha : a ∈ xs.map Prod.fst) :
    ∃ h' self', moveAfter h self p (some a) = some (h', self') ∧
      Represents h' self' (seqMoveAfter p a xs) ∧ h'.next = h.next ∧
      Edits h xs h' (seqMoveAfter p a xs) := by
  have hchecks := hrepr.moveChecks_eq hp (some a) (fun t ht => by cases ht; exact ha)
  obtain ⟨as, v, bs, rfl, hnot⟩ := exists_split hrepr.nodup hp
  have hget := (Seg.append_iff.mp hrepr.seg).2.1
  have hnodup := nodup_without hrepr.nodup
  by_cases hself : a = p
  · subst hself
    refine ⟨h, self, ?_, ?_⟩
    · simp [moveAfter, moveAfterNode, hchecks, hget]
    · rw [seqMoveAfter, if_pos rfl]
      exact ⟨hrepr, rfl, edits_refl _ _⟩
  rw [seqMoveAfter, if_neg hself, seqValue_split hnot]
  dsimp only
  rw [seqErase_split hnot]
  by_cases hprev : lastOr none as = some a
  · -- the node follows the target already
    refine ⟨h, self, ?_, ?_⟩
    · simp [moveAfter, moveAfterNode, hchecks, hget, hprev]
    · rw [seqInsertAfter_last hnodup hprev]
      exact ⟨hrepr, rfl, edits_refl _ _⟩
  · obtain ⟨us, vs, n, hsplit, hlast, hn, hnext⟩ :=
      hrepr.exists_split_after (((mem_insert_iff a).mp ha).resolve_left hself) hprev
    obtain ⟨h', self', hrelink, hrepr', hnext', hframe⟩ :=
      hrepr.relinkAfter_spec hsplit hlast hn hnext
    rw [hsplit] at hnodup ⊢
    rw [seqInsertAfter_last hnodup hlast]
    refine ⟨h', self', ?_, hrepr', hnext', edits_move hsplit hframe⟩
    simp [moveAfter, moveAfterNode, hchecks, hget, hself, hprev, hrelink]

theorem moveBefore_seq {before : Option ℕ} (hrepr : Represents h self xs)
    (hp : p ∈ xs.map Prod.fst) (hbefore : seqHas xs before = true) :
    ∃ h' self', moveBefore h self p before = some (h', self') ∧
      Represents h' self' (seqMoveBefore p before xs) ∧ h'.next = h.next ∧
      Edits h xs h' (seqMoveBefore p before xs) := by
  obtain ⟨as, v, bs, rfl, hnot⟩ := exists_split hrepr.nodup hp
  have hget := (Seg.append_iff.mp hrepr.seg).2.1
  have hnodup := nodup_without hrepr.nodup
  cases before with
  | none =>
      obtain ⟨h', self', hmove, hrepr', hnext, hframe⟩ := hrepr.moveBefore_none_frame
      simp only [seqMoveBefore, reduceCtorEq, if_false, seqValue_split hnot, seqErase_split hnot,
        seqInsertBefore_none]
      exact ⟨h', self', hmove, hrepr', hnext, edits_move (List.append_nil _).symm hframe⟩
  | some b =>
      simp only [seqHas, decide_eq_true_eq] at hbefore
      have hchecks := hrepr.moveChecks_eq hp (some b) (fun t ht => by cases ht; exact hbefore)
      by_cases hself : b = p
      · subst hself
        refine ⟨h, self, ?_, ?_⟩
        · simp [moveBefore, hchecks, hget]
        · rw [seqMoveBefore, if_pos rfl]
          exact ⟨hrepr, rfl, edits_refl _ _⟩
      have hself' : (some b : Option ℕ) ≠ some p := by simpa using hself
      simp only [seqMoveBefore, hself', if_false, seqValue_split hnot, seqErase_split hnot]
      by_cases hfirst : firstOr bs none = some b
      · refine ⟨h, self, ?_, ?_⟩
        · simp [moveBefore, hchecks, hget, hfirst]
        · rw [seqInsertBefore_first hnodup hfirst]
          exact ⟨hrepr, rfl, edits_refl _ _⟩
      · obtain ⟨us, vs, n, hsplit, hb, hn, hprev⟩ :=
          hrepr.exists_split_before (((mem_insert_iff b).mp hbefore).resolve_left hself) hfirst
        obtain ⟨h', self', hrelink, hrepr', hnext', hframe⟩ :=
          hrepr.relinkBefore_spec hsplit hb hn hprev
        rw [hsplit] at hnodup ⊢
        rw [seqInsertBefore_first hnodup hb]
        refine ⟨h', self', ?_, hrepr', hnext', edits_move hsplit hframe⟩
        simp [moveBefore, hchecks, hget, hself, Ne.symm hfirst, hrelink]

end Represents

end Dlist

/-! ## Lists on one heap -/

/-- The nodes, and the lists that they belong to. A list is freed when it has been used up. -/
structure Dlists (α : Type) where
  nodes : Heap (DlistNode α)
  lists : Heap Dlist
  deriving DecidableEq

/-- The address of the next node, and the sequences. -/
structure Seqs (α : Type) where
  next : ℕ
  seqs : Heap (List (ℕ × α))
  deriving DecidableEq

/-- The operations, with the answer of the allocator where there is one. The target of `moveAfter`
is not `NULL`. -/
inductive DlistOp (α : Type)
  | new
  | insertAfter (i : ℕ) (ok : Bool) (value : α) (prev : Option ℕ)
  | insertBefore (i : ℕ) (ok : Bool) (value : α) (next : Option ℕ)
  | append (i : ℕ) (ok : Bool) (value : α)
  | pluck (i node : ℕ)
  | remove (i node : ℕ)
  | concat (i j : ℕ)
  | moveBefore (i node : ℕ) (before : Option ℕ)
  | moveAfter (i node after : ℕ)

inductive DlistOut (α : Type)
  | done
  | inserted (err : Option CommonErrorCode) (result : Option ℕ)
  | value (v : α)
  deriving DecidableEq

namespace Dlists

variable {α : Type}

def new : Dlists α := ⟨.empty, .empty⟩

/-- The end of an operation that inserts into a list. -/
def inserted (s : Dlists α) (i : ℕ) :
    Option CommonErrorCode × Heap (DlistNode α) × Dlist × Option ℕ → DlistOut α × Dlists α
  | (err, nodes, self, result) => (.inserted err result, ⟨nodes, s.lists.set i self⟩)

def exec (s : Dlists α) : DlistOp α → Option (DlistOut α × Dlists α)
  | .new => some (.done, { s with lists := s.lists.alloc Dlist.new })
  | .insertAfter i ok value prev => do
      let self ← s.lists.get i
      return s.inserted i (← Dlist.insertAfter ok s.nodes self value prev)
  | .insertBefore i ok value next => do
      let self ← s.lists.get i
      return s.inserted i (← Dlist.insertBefore ok s.nodes self value next)
  | .append i ok value => do
      let self ← s.lists.get i
      return s.inserted i (← Dlist.append ok s.nodes self value)
  | .pluck i node => do
      let self ← s.lists.get i
      let (nodes, self) ← Dlist.pluck s.nodes self node
      return (.done, ⟨nodes, (s.lists.set i self).alloc (Dlist.plucked node)⟩)
  | .remove i node => do
      let self ← s.lists.get i
      let (value, nodes, self) ← Dlist.remove s.nodes self node
      return (.value value, ⟨nodes, s.lists.set i self⟩)
  | .concat i j => do
      let self ← s.lists.get i
      let other ← s.lists.get j
      let (nodes, self) ← Dlist.concat s.nodes self other
      return (.done, ⟨nodes, (s.lists.free j).set i self⟩)
  | .moveBefore i node before => do
      let self ← s.lists.get i
      let (nodes, self) ← Dlist.moveBefore s.nodes self node before
      return (.done, ⟨nodes, s.lists.set i self⟩)
  | .moveAfter i node after => do
      let self ← s.lists.get i
      let (nodes, self) ← Dlist.moveAfter s.nodes self node (some after)
      return (.done, ⟨nodes, s.lists.set i self⟩)

end Dlists

namespace Seqs

open Dlist

variable {α : Type}

def new : Seqs α := ⟨0, .empty⟩

def insert (t : Seqs α) (i : ℕ) (ok : Bool) (xs : List (ℕ × α)) : DlistOut α × Seqs α :=
  if ok then (.inserted none (some t.next), ⟨t.next + 1, t.seqs.set i xs⟩)
  else (.inserted (some .memoryAllocationFailure) none, t)

def exec (t : Seqs α) : DlistOp α → Option (DlistOut α × Seqs α)
  | .new => some (.done, { t with seqs := t.seqs.alloc [] })
  | .insertAfter i ok value prev => do
      let xs ← t.seqs.get i
      if seqHas xs prev then t.insert i ok (seqInsertAfter (t.next, value) prev xs) else none
  | .insertBefore i ok value next => do
      let xs ← t.seqs.get i
      if seqHas xs next then t.insert i ok (seqInsertBefore (t.next, value) next xs) else none
  | .append i ok value => do
      let xs ← t.seqs.get i
      return t.insert i ok (xs ++ [(t.next, value)])
  | .pluck i node => do
      let xs ← t.seqs.get i
      let v ← seqValue node xs
      return (.done, { t with seqs := (t.seqs.set i (seqErase node xs)).alloc [(node, v)] })
  | .remove i node => do
      let xs ← t.seqs.get i
      let v ← seqValue node xs
      return (.value v, { t with seqs := t.seqs.set i (seqErase node xs) })
  | .concat i j => do
      let xs ← t.seqs.get i
      let ys ← t.seqs.get j
      if i = j then none
      else return (.done, { t with seqs := (t.seqs.free j).set i (xs ++ ys) })
  | .moveBefore i node before => do
      let xs ← t.seqs.get i
      if seqHas xs (some node) && seqHas xs before then
        return (.done, { t with seqs := t.seqs.set i (seqMoveBefore node before xs) })
      else none
  | .moveAfter i node after => do
      let xs ← t.seqs.get i
      if seqHas xs (some node) && seqHas xs (some after) then
        return (.done, { t with seqs := t.seqs.set i (seqMoveAfter node after xs) })
      else none

end Seqs

/-- The lists are the sequences, and no node is in two of them. -/
structure Dlists.Agrees {α : Type} (s : Dlists α) (t : Seqs α) : Prop where
  next_eq : s.nodes.next = t.next
  count_eq : s.lists.next = t.seqs.next
  repr : ∀ {i xs}, t.seqs.get i = some xs →
    ∃ self, s.lists.get i = some self ∧ Dlist.Represents s.nodes self xs
  disjoint : ∀ {i j xs ys}, i ≠ j → t.seqs.get i = some xs → t.seqs.get j = some ys →
    ∀ q ∈ xs.map Prod.fst, q ∉ ys.map Prod.fst

theorem Dlists.Agrees.new {α : Type} : Dlists.Agrees (Dlists.new : Dlists α) Seqs.new := by
  refine ⟨rfl, rfl, fun hget => ?_, fun _ hget => ?_⟩ <;> simp [Seqs.new] at hget

namespace Dlists.Agrees

open Dlist

variable {α : Type} {s : Dlists α} {t : Seqs α} {i : ℕ} {self self' : Dlist}
  {xs xs' : List (ℕ × α)} {h' : Heap (DlistNode α)}

/-- One list is replaced. The others must not notice. -/
theorem update (hagrees : s.Agrees t) (hself : s.lists.get i = some self)
    (hxs : t.seqs.get i = some xs) (hrepr : Represents h' self' xs')
    (hothers : ∀ k ys, k ≠ i → t.seqs.get k = some ys → ∀ q ∈ ys.map Prod.fst,
      h'.get q = s.nodes.get q ∧ q ∉ xs'.map Prod.fst) :
    Agrees ⟨h', s.lists.set i self'⟩ ⟨h'.next, t.seqs.set i xs'⟩ := by
  refine ⟨rfl, by simp [hagrees.count_eq], fun {k ys} hget => ?_, fun {k l ys zs} hne hys hzs => ?_⟩
  · simp only [Heap.get_set hxs, Heap.get_set hself] at hget ⊢
    by_cases hk : k = i
    · simp only [hk, if_true, Option.some.injEq] at hget ⊢
      exact ⟨self', rfl, hget ▸ hrepr⟩
    · simp only [hk, if_false] at hget ⊢
      obtain ⟨other, hother, hrepr'⟩ := hagrees.repr hget
      exact ⟨other, hother, hrepr'.congr fun q hq => (hothers k ys hk hget q hq).1⟩
  · simp only [Heap.get_set hxs] at hys hzs
    intro q hq
    by_cases hk : k = i
    · have hl : l ≠ i := fun hl => hne (hk.trans hl.symm)
      simp only [hk, hl, if_true, if_false, Option.some.injEq] at hys hzs
      subst hys
      exact fun hq' => (hothers l zs hl hzs q hq').2 hq
    · by_cases hl : l = i
      · simp only [hk, hl, if_true, if_false, Option.some.injEq] at hys hzs
        subst hzs
        exact (hothers k ys hk hys q hq).2
      · simp only [hk, hl, if_false] at hys hzs
        exact hagrees.disjoint hne hys hzs q hq

/-- An operation on one list that only changes nodes of its own and new ones. -/
theorem edited (hagrees : s.Agrees t) (hself : s.lists.get i = some self)
    (hxs : t.seqs.get i = some xs) (hrepr : Represents h' self' xs')
    (hedits : Edits s.nodes xs h' xs') :
    Agrees ⟨h', s.lists.set i self'⟩ ⟨h'.next, t.seqs.set i xs'⟩ := by
  refine hagrees.update hself hxs hrepr fun k ys hk hys q hq => ?_
  obtain ⟨other, _, hother⟩ := hagrees.repr hys
  have hnot : q ∉ xs.map Prod.fst := hagrees.disjoint hk hys hxs q hq
  have hlt : q < s.nodes.next := hother.seg.lt_next hq
  refine ⟨hedits.frame q hlt hnot, fun hq' => ?_⟩
  rcases hedits.nodes q hq' with hmem | hge
  · exact hnot hmem
  · exact absurd hlt hge.not_gt

theorem alloc (hagrees : s.Agrees t) (hrepr : Represents s.nodes self xs)
    (hnew : ∀ k ys, t.seqs.get k = some ys → ∀ q ∈ xs.map Prod.fst, q ∉ ys.map Prod.fst) :
    Agrees ⟨s.nodes, s.lists.alloc self⟩ ⟨t.next, t.seqs.alloc xs⟩ := by
  refine ⟨hagrees.next_eq, by simp [hagrees.count_eq], fun {k ys} hget => ?_,
    fun {k l ys zs} hne hys hzs => ?_⟩
  · simp only [Heap.get_alloc, hagrees.count_eq] at hget ⊢
    split at hget
    · rename_i hk
      simp only [Option.some.injEq] at hget
      exact ⟨self, by rw [if_pos hk], hget ▸ hrepr⟩
    · rename_i hk
      rw [if_neg hk]
      exact hagrees.repr hget
  · simp only [Heap.get_alloc] at hys hzs
    intro q hq
    by_cases hk : k = t.seqs.next
    · have hl : l ≠ t.seqs.next := fun hl => hne (hk.trans hl.symm)
      simp only [hk, hl, if_true, if_false, Option.some.injEq] at hys hzs
      subst hys
      exact hnew l zs hzs q hq
    · by_cases hl : l = t.seqs.next
      · simp only [hk, hl, if_true, if_false, Option.some.injEq] at hys hzs
        subst hzs
        exact fun hq' => hnew k ys hys q hq' hq
      · simp only [hk, hl, if_false] at hys hzs
        exact hagrees.disjoint hne hys hzs q hq

theorem free (hagrees : s.Agrees t) (j : ℕ) :
    Agrees ⟨s.nodes, s.lists.free j⟩ ⟨t.next, t.seqs.free j⟩ := by
  refine ⟨hagrees.next_eq, by simp [hagrees.count_eq], fun {k ys} hget => ?_,
    fun {k l ys zs} hne hys hzs => ?_⟩
  · obtain ⟨hk, hget⟩ := Heap.get_of_get_free hget
    obtain ⟨other, hother, hrepr⟩ := hagrees.repr hget
    exact ⟨other, by rwa [Heap.get_free_of_ne _ hk], hrepr⟩
  · exact hagrees.disjoint hne (Heap.get_of_get_free hys).2 (Heap.get_of_get_free hzs).2

/-- What the operations that insert have in common. -/
theorem insert (hagrees : s.Agrees t) (hself : s.lists.get i = some self)
    (hxs : t.seqs.get i = some xs) (ok : Bool)
    {r : Option (Option CommonErrorCode × Heap (DlistNode α) × Dlist × Option ℕ)}
    (hfail : ok = false → r = some (some .memoryAllocationFailure, s.nodes, self, none))
    (hok : ok = true → ∃ h' self', r = some (none, h', self', some s.nodes.next) ∧
      Represents h' self' xs' ∧ h'.next = s.nodes.next + 1 ∧ Edits s.nodes xs h' xs') :
    ∃ s', (r.bind fun x => some (s.inserted i x)) = some ((t.insert i ok xs').1, s') ∧
      s'.Agrees (t.insert i ok xs').2 := by
  cases ok with
  | false =>
      refine ⟨s, ?_, by simpa [Seqs.insert] using hagrees⟩
      simp [hfail rfl, Dlists.inserted, Heap.set_self hself, Seqs.insert]
  | true =>
      obtain ⟨h', self', hr, hrepr, hnext, hedits⟩ := hok rfl
      refine ⟨⟨h', s.lists.set i self'⟩, ?_, ?_⟩
      · simp [hr, Dlists.inserted, Seqs.insert, hagrees.next_eq]
      · have hagrees' := hagrees.edited hself hxs hrepr hedits
        rwa [hnext, hagrees.next_eq] at hagrees'

theorem insertBefore_fail (hrepr : Represents s.nodes self xs) (value : α) {next : Option ℕ}
    (hhas : seqHas xs next = true) : insertBefore false s.nodes self value next =
      some (some .memoryAllocationFailure, s.nodes, self, none) := by
  cases next with
  | none => rfl
  | some p =>
      simp only [seqHas, decide_eq_true_eq] at hhas
      obtain ⟨as, v, bs, rfl, _⟩ := exists_split hrepr.nodup hhas
      simp [insertBefore, insertAfter, (Seg.append_iff.mp hrepr.seg).2.1]

theorem mem_of_seqValue {node : ℕ} {v : α} (hv : seqValue node xs = some v) :
    node ∈ xs.map Prod.fst := by
  rw [seqValue, Option.map_eq_some_iff] at hv
  obtain ⟨x, hx, _⟩ := hv
  have heq := List.find?_some hx
  exact List.mem_map.mpr ⟨x, List.mem_of_find?_eq_some hx, of_decide_eq_true heq⟩

theorem edited_in_place (hagrees : s.Agrees t) (hself : s.lists.get i = some self)
    (hxs : t.seqs.get i = some xs) (hrepr : Represents h' self' xs')
    (hnext : h'.next = s.nodes.next) (hedits : Edits s.nodes xs h' xs') :
    Agrees ⟨h', s.lists.set i self'⟩ ⟨t.next, t.seqs.set i xs'⟩ := by
  have hagrees' := hagrees.edited hself hxs hrepr hedits
  rwa [hnext, hagrees.next_eq] at hagrees'

/-- What such an operation does to one list, it does to the lists. -/
theorem edit {op : DlistOp α} {out : DlistOut α} (hagrees : s.Agrees t)
    (hxs : t.seqs.get i = some xs)
    (hspec : ∀ self, s.lists.get i = some self → Represents s.nodes self xs → ∃ h' self',
      s.exec op = some (out, ⟨h', s.lists.set i self'⟩) ∧ Represents h' self' xs' ∧
        h'.next = s.nodes.next ∧ Edits s.nodes xs h' xs') :
    ∃ s', s.exec op = some (out, s') ∧ s'.Agrees ⟨t.next, t.seqs.set i xs'⟩ := by
  obtain ⟨self, hself, hrepr⟩ := hagrees.repr hxs
  obtain ⟨h', self', hexec, hrepr', hnext, hedits⟩ := hspec self hself hrepr
  exact ⟨_, hexec, hagrees.edited_in_place hself hxs hrepr' hnext hedits⟩

theorem pluck (hagrees : s.Agrees t) (hself : s.lists.get i = some self)
    (hxs : t.seqs.get i = some xs) {node : ℕ} {v : α} (hv : seqValue node xs = some v) :
    ∃ s', s.exec (.pluck i node) = some (.done, s') ∧
      s'.Agrees { t with seqs := (t.seqs.set i (seqErase node xs)).alloc [(node, v)] } := by
  obtain ⟨self₀, hself₀, hrepr⟩ := hagrees.repr hxs
  obtain rfl : self = self₀ := Option.some.inj (hself.symm.trans hself₀)
  have hmem := mem_of_seqValue hv
  obtain ⟨h', self', w, hpluck, hw, hrepr', hplucked, hnext, hnot, hedits⟩ :=
    hrepr.pluck_seq hmem
  obtain rfl : v = w := Option.some.inj (hv.symm.trans hw)
  refine ⟨⟨h', (s.lists.set i self').alloc (Dlist.plucked node)⟩, ?_, ?_⟩
  · simp [Dlists.exec, hself, hpluck]
  · refine (hagrees.edited_in_place hself hxs hrepr' hnext hedits).alloc hplucked ?_
    intro k ys hys q hq
    simp only [List.map_cons, List.map_nil, List.mem_singleton] at hq
    subst hq
    simp only [Heap.get_set hxs] at hys
    split at hys
    · rwa [← Option.some.inj hys]
    · rename_i hk
      exact hagrees.disjoint (Ne.symm hk) hxs hys q hmem

theorem concat {j : ℕ} {ys : List (ℕ × α)} (hagrees : s.Agrees t) (hxs : t.seqs.get i = some xs)
    (hys : t.seqs.get j = some ys) (hne : i ≠ j) :
    ∃ s', s.exec (.concat i j) = some (.done, s') ∧
      s'.Agrees { t with seqs := (t.seqs.free j).set i (xs ++ ys) } := by
  obtain ⟨self, hself, hrepr⟩ := hagrees.repr hxs
  obtain ⟨other, hother, hrepr₂⟩ := hagrees.repr hys
  obtain ⟨h', self', hconcat, hrepr', hnext, hframe⟩ :=
    hrepr.concat_spec hrepr₂ (hagrees.disjoint hne hxs hys)
  refine ⟨⟨h', (s.lists.free j).set i self'⟩, ?_, ?_⟩
  · simp [Dlists.exec, hself, hother, hconcat]
  · have hself' : (s.lists.free j).get i = some self := by rwa [Heap.get_free_of_ne _ hne]
    have hxs' : (t.seqs.free j).get i = some xs := by rwa [Heap.get_free_of_ne _ hne]
    have hagrees' := (hagrees.free j).update hself' hxs' hrepr' ?_
    · rwa [hnext, hagrees.next_eq] at hagrees'
    · intro k zs hk hzs q hq
      obtain ⟨hkj, hzs⟩ := Heap.get_of_get_free hzs
      have hqx := hagrees.disjoint hk hzs hxs q hq
      have hqy := hagrees.disjoint hkj hzs hys q hq
      refine ⟨hframe q hqx hqy, ?_⟩
      rw [List.map_append, List.mem_append, not_or]
      exact ⟨hqx, hqy⟩

theorem insertAfter (hagrees : s.Agrees t) (hxs : t.seqs.get i = some xs) (ok : Bool) (value : α)
    {prev : Option ℕ} (hhas : seqHas xs prev = true) :
    ∃ s', s.exec (.insertAfter i ok value prev) =
        some ((t.insert i ok (seqInsertAfter (t.next, value) prev xs)).1, s') ∧
      s'.Agrees (t.insert i ok (seqInsertAfter (t.next, value) prev xs)).2 := by
  obtain ⟨self, hself, hrepr⟩ := hagrees.repr hxs
  have hinsert := hagrees.insert hself hxs ok
    (r := Dlist.insertAfter ok s.nodes self value prev)
    (fun hok => by simp [hok, Dlist.insertAfter])
    (fun hok => by rw [hok]; exact hrepr.insertAfter_seq value hhas)
  rw [hagrees.next_eq] at hinsert
  simpa [Dlists.exec, hself] using hinsert

theorem insertBefore (hagrees : s.Agrees t) (hxs : t.seqs.get i = some xs) (ok : Bool) (value : α)
    {next : Option ℕ} (hhas : seqHas xs next = true) :
    ∃ s', s.exec (.insertBefore i ok value next) =
        some ((t.insert i ok (seqInsertBefore (t.next, value) next xs)).1, s') ∧
      s'.Agrees (t.insert i ok (seqInsertBefore (t.next, value) next xs)).2 := by
  obtain ⟨self, hself, hrepr⟩ := hagrees.repr hxs
  have hinsert := hagrees.insert hself hxs ok
    (r := Dlist.insertBefore ok s.nodes self value next)
    (fun hok => by rw [hok]; exact insertBefore_fail hrepr value hhas)
    (fun hok => by rw [hok]; exact hrepr.insertBefore_seq value next hhas)
  rw [hagrees.next_eq] at hinsert
  simpa [Dlists.exec, hself] using hinsert

theorem append (hagrees : s.Agrees t) (hxs : t.seqs.get i = some xs) (ok : Bool) (value : α) :
    ∃ s', s.exec (.append i ok value) =
        some ((t.insert i ok (xs ++ [(t.next, value)])).1, s') ∧
      s'.Agrees (t.insert i ok (xs ++ [(t.next, value)])).2 := by
  obtain ⟨self, hself, hrepr⟩ := hagrees.repr hxs
  have hinsert := hagrees.insert hself hxs ok
    (r := Dlist.append ok s.nodes self value)
    (fun hok => by simp [hok, Dlist.append, Dlist.insertAfter])
    (fun hok => by rw [hok]; exact hrepr.append_seq value)
  rw [hagrees.next_eq] at hinsert
  simpa [Dlists.exec, hself] using hinsert

theorem remove (hagrees : s.Agrees t) (hxs : t.seqs.get i = some xs) {node : ℕ} {v : α}
    (hv : seqValue node xs = some v) :
    ∃ s', s.exec (.remove i node) = some (.value v, s') ∧
      s'.Agrees ⟨t.next, t.seqs.set i (seqErase node xs)⟩ := by
  refine hagrees.edit hxs fun self hself hrepr => ?_
  obtain ⟨h', self', w, hremove, hw, hspec⟩ := hrepr.remove_seq (mem_of_seqValue hv)
  obtain rfl : v = w := Option.some.inj (hv.symm.trans hw)
  exact ⟨h', self', by simp [Dlists.exec, hself, hremove], hspec⟩

theorem moveBefore (hagrees : s.Agrees t) (hxs : t.seqs.get i = some xs) {node : ℕ}
    {before : Option ℕ} (hnode : node ∈ xs.map Prod.fst) (hhas : seqHas xs before = true) :
    ∃ s', s.exec (.moveBefore i node before) = some (.done, s') ∧
      s'.Agrees ⟨t.next, t.seqs.set i (seqMoveBefore node before xs)⟩ := by
  refine hagrees.edit hxs fun self hself hrepr => ?_
  obtain ⟨h', self', hmove, hspec⟩ := hrepr.moveBefore_seq hnode hhas
  exact ⟨h', self', by simp [Dlists.exec, hself, hmove], hspec⟩

theorem moveAfter (hagrees : s.Agrees t) (hxs : t.seqs.get i = some xs) {node after : ℕ}
    (hnode : node ∈ xs.map Prod.fst) (hafter : after ∈ xs.map Prod.fst) :
    ∃ s', s.exec (.moveAfter i node after) = some (.done, s') ∧
      s'.Agrees ⟨t.next, t.seqs.set i (seqMoveAfter node after xs)⟩ := by
  refine hagrees.edit hxs fun self hself hrepr => ?_
  obtain ⟨h', self', hmove, hspec⟩ := hrepr.moveAfter_seq hnode hafter
  exact ⟨h', self', by simp [Dlists.exec, hself, hmove], hspec⟩

/-- The step lemma: an operation on the sequences is an operation on the lists. -/
theorem exec {op : DlistOp α} {out : DlistOut α} {t' : Seqs α} (hagrees : s.Agrees t)
    (hexec : t.exec op = some (out, t')) : ∃ s', s.exec op = some (out, s') ∧ s'.Agrees t' := by
  cases op with
    simp only [Seqs.exec, Option.bind_eq_bind, Option.bind_eq_some_iff,
      Option.ite_none_left_eq_some, Option.ite_none_right_eq_some, Option.pure_def,
      Option.some.injEq, Bool.and_eq_true] at hexec
  | new =>
      obtain ⟨rfl, rfl⟩ := Prod.mk.inj hexec
      exact ⟨_, rfl, hagrees.alloc (.new _) (by simp)⟩
  | insertAfter i ok value prev =>
      obtain ⟨xs, hxs, hhas, heq⟩ := hexec
      have hspec := hagrees.insertAfter hxs ok value hhas
      rwa [heq] at hspec
  | insertBefore i ok value next =>
      obtain ⟨xs, hxs, hhas, heq⟩ := hexec
      have hspec := hagrees.insertBefore hxs ok value hhas
      rwa [heq] at hspec
  | append i ok value =>
      obtain ⟨xs, hxs, heq⟩ := hexec
      have hspec := hagrees.append hxs ok value
      rwa [heq] at hspec
  | pluck i node =>
      obtain ⟨xs, hxs, v, hv, heq⟩ := hexec
      obtain ⟨rfl, rfl⟩ := Prod.mk.inj heq
      obtain ⟨self, hself, _⟩ := hagrees.repr hxs
      exact hagrees.pluck hself hxs hv
  | remove i node =>
      obtain ⟨xs, hxs, v, hv, heq⟩ := hexec
      obtain ⟨rfl, rfl⟩ := Prod.mk.inj heq
      exact hagrees.remove hxs hv
  | concat i j =>
      obtain ⟨xs, hxs, ys, hys, hne, heq⟩ := hexec
      obtain ⟨rfl, rfl⟩ := Prod.mk.inj heq
      exact hagrees.concat hxs hys hne
  | moveBefore i node before =>
      obtain ⟨xs, hxs, ⟨hnode, hhas⟩, heq⟩ := hexec
      obtain ⟨rfl, rfl⟩ := Prod.mk.inj heq
      exact hagrees.moveBefore hxs (of_decide_eq_true hnode) hhas
  | moveAfter i node after =>
      obtain ⟨xs, hxs, ⟨hnode, hafter⟩, heq⟩ := hexec
      obtain ⟨rfl, rfl⟩ := Prod.mk.inj heq
      exact hagrees.moveAfter hxs (of_decide_eq_true hnode) (of_decide_eq_true hafter)

end Dlists.Agrees

/-- What is done with the sequences, from none at all on, is done with the lists, and the lists
then are the sequences. -/
theorem dlists_refine_seqs {α : Type} {ops : List (DlistOp α)} {outs : List (DlistOut α)}
    {t : Seqs α} (hrun : Lts.runAll Seqs.exec Seqs.new ops = some (outs, t)) :
    ∃ s, Lts.runAll Dlists.exec Dlists.new ops = some (outs, s) ∧ s.Agrees t :=
  Lts.runAll_refines (fun _ _ _ _ _ hagrees hexec => hagrees.exec hexec) .new hrun

/-- Three nodes, the last of which is moved to the front; then the middle one is plucked and
concatenated again. -/
theorem dlists_refine_seqs_three :
    ∃ s, Lts.runAll Dlists.exec Dlists.new [.new, .append 0 true 'a', .insertBefore 0 true 'b' none,
        .insertAfter 0 true 'c' (some 1), .moveBefore 0 2 (some 0), .moveAfter 0 1 0, .pluck 0 0,
        .concat 0 1, .remove 0 2] =
      some ([.done, .inserted none (some 0), .inserted none (some 1), .inserted none (some 2),
        .done, .done, .done, .done, .value 'c'], s) ∧
      s.Agrees ⟨3, ⟨[some [(1, 'b'), (0, 'a')], none]⟩⟩ :=
  dlists_refine_seqs (by decide +kernel)

end PosixThreads
