import Mathlib.Data.List.Nodup
import Mathlib.Data.List.Perm.Subperm
import PosixThreads.Collections.Dlist.Basic

/-!
# The doubly linked list as a sequence

`Dlist.Represents h self xs` says that the list `self` on the heap `h` is the sequence `xs`
of nodes with their values. It is built from `Seg`, which describes a part of the
list between two neighbours, so that an operation in the middle of a list is an
operation at the ends of two parts. Each operation is then described by its effect
on `xs`, and its assertions hold.
-/

namespace PosixThreads

namespace Dlist

variable {α : Type}

/-! ## Parts of a list -/

/-- The first node of a part, or what follows if it is empty. -/
def firstOr : List (ℕ × α) → Option ℕ → Option ℕ
  | [], next => next
  | (p, _) :: _, _ => some p

/-- The last node of a part, or what precedes if it is empty. -/
def lastOr : Option ℕ → List (ℕ × α) → Option ℕ
  | prev, [] => prev
  | _, (p, _) :: xs => lastOr (some p) xs

/-- The nodes of a part of a list, linked with each other and with their neighbours. -/
def Seg (h : Heap (DlistNode α)) : Option ℕ → List (ℕ × α) → Option ℕ → Prop
  | _, [], _ => True
  | prev, (p, v) :: xs, next =>
      h.get p = some ⟨v, prev, firstOr xs next⟩ ∧ Seg h (some p) xs next

structure Represents (h : Heap (DlistNode α)) (l : Dlist) (xs : List (ℕ × α)) : Prop where
  seg : Seg h none xs none
  head_eq : l.head = firstOr xs none
  end_eq : l.endNode = lastOr none xs
  len_eq : l.len = xs.length
  nodup : (xs.map Prod.fst).Nodup

@[simp] theorem firstOr_nil (next : Option ℕ) : firstOr ([] : List (ℕ × α)) next = next := rfl

@[simp] theorem firstOr_cons (x : ℕ × α) (xs : List (ℕ × α)) (next : Option ℕ) :
    firstOr (x :: xs) next = some x.1 := rfl

@[simp] theorem lastOr_nil (prev : Option ℕ) : lastOr prev ([] : List (ℕ × α)) = prev := rfl

@[simp] theorem lastOr_cons (prev : Option ℕ) (x : ℕ × α) (xs : List (ℕ × α)) :
    lastOr prev (x :: xs) = lastOr (some x.1) xs := rfl

@[simp] theorem firstOr_append (xs ys : List (ℕ × α)) (next : Option ℕ) :
    firstOr (xs ++ ys) next = firstOr xs (firstOr ys next) := by
  cases xs <;> rfl

@[simp] theorem lastOr_append (prev : Option ℕ) (xs ys : List (ℕ × α)) :
    lastOr prev (xs ++ ys) = lastOr (lastOr prev xs) ys := by
  induction xs generalizing prev with
  | nil => rfl
  | cons x xs ih => exact ih _

theorem lastOr_eq_none_iff {xs : List (ℕ × α)} : lastOr none xs = none ↔ xs = [] := by
  rcases List.eq_nil_or_concat xs with rfl | ⟨ys, y, rfl⟩
  · simp
  · simp [List.concat_eq_append]

theorem firstOr_mem {xs : List (ℕ × α)} {p : ℕ} (h : firstOr xs none = some p) :
    p ∈ xs.map Prod.fst := by
  cases xs with
  | nil => simp at h
  | cons x xs =>
      simp only [firstOr_cons, Option.some.injEq] at h
      simp [← h]

theorem lastOr_mem {xs : List (ℕ × α)} {p : ℕ} (h : lastOr none xs = some p) :
    p ∈ xs.map Prod.fst := by
  rcases List.eq_nil_or_concat xs with rfl | ⟨ys, y, rfl⟩
  · simp [lastOr] at h
  · simp only [List.concat_eq_append, lastOr_append, lastOr, Option.some.injEq] at h
    simp [← h]

namespace Seg

variable {h h' : Heap (DlistNode α)} {prev next : Option ℕ} {xs ys : List (ℕ × α)}

theorem append_iff :
    Seg h prev (xs ++ ys) next ↔
      Seg h prev xs (firstOr ys next) ∧ Seg h (lastOr prev xs) ys next := by
  induction xs generalizing prev with
  | nil => simp [Seg, lastOr]
  | cons x xs ih =>
      obtain ⟨p, v⟩ := x
      simp only [List.cons_append, Seg, lastOr, ih, firstOr_append, and_assoc]

theorem congr (hseg : Seg h prev xs next) (heq : ∀ p ∈ xs.map Prod.fst, h'.get p = h.get p) :
    Seg h' prev xs next := by
  induction xs generalizing prev with
  | nil => trivial
  | cons x xs ih =>
      obtain ⟨p, v⟩ := x
      exact ⟨by rw [heq p (by simp)]; exact hseg.1,
        ih hseg.2 fun q hq => heq q (List.mem_cons_of_mem _ hq)⟩

/-- The nodes from a given one to the end of a list are determined by the links. -/
theorem unique (hxs : Seg h prev xs none) (hys : Seg h prev ys none)
    (hfirst : firstOr xs none = firstOr ys none) : xs = ys := by
  induction xs generalizing prev ys with
  | nil =>
      cases ys with
      | nil => rfl
      | cons y ys => simp at hfirst
  | cons x xs ih =>
      cases ys with
      | nil => simp at hfirst
      | cons y ys =>
          obtain ⟨p, v⟩ := x
          obtain ⟨q, w⟩ := y
          simp only [firstOr_cons, Option.some.injEq] at hfirst
          subst hfirst
          have heq := hxs.1.symm.trans hys.1
          simp only [Option.some.injEq, DlistNode.mk.injEq, true_and] at heq
          rw [heq.1, ih hxs.2 hys.2 heq.2]

theorem get_isSome (hseg : Seg h prev xs next) {p : ℕ} {v : α} (hp : (p, v) ∈ xs) :
    ∃ prev' next', h.get p = some ⟨v, prev', next'⟩ := by
  induction xs generalizing prev with
  | nil => simp at hp
  | cons x xs ih =>
      obtain ⟨q, w⟩ := x
      rcases List.mem_cons.mp hp with heq | hp
      · cases heq
        exact ⟨_, _, hseg.1⟩
      · exact ih hseg.2 hp

theorem lt_next (hseg : Seg h prev xs next) {p : ℕ} (hp : p ∈ xs.map Prod.fst) : p < h.next := by
  obtain ⟨⟨q, v⟩, hq, rfl⟩ := List.mem_map.mp hp
  obtain ⟨_, _, hget⟩ := hseg.get_isSome hq
  exact Heap.lt_next_of_get hget

/-- Nodes are different, so there are no more of them than there are addresses. -/
theorem length_le (hseg : Seg h prev xs next) (hnodup : (xs.map Prod.fst).Nodup) :
    xs.length ≤ h.next := by
  have hsub : xs.map Prod.fst ⊆ List.range h.next := fun p hp =>
    List.mem_range.mpr (hseg.lt_next hp)
  simpa using (hnodup.subperm hsub).length_le

theorem get_last (hseg : Seg h prev xs next) {p : ℕ} (hlast : lastOr none xs = some p) :
    ∃ n, h.get p = some n ∧ n.next = next := by
  rcases List.eq_nil_or_concat xs with rfl | ⟨ys, ⟨q, w⟩, rfl⟩
  · simp at hlast
  · rw [List.concat_eq_append] at hseg hlast
    simp only [lastOr_append, lastOr_cons, lastOr_nil, Option.some.injEq] at hlast
    subst hlast
    exact ⟨_, (append_iff.mp hseg).2.1, rfl⟩

theorem setNext_last (hseg : Seg h prev xs next) (hnodup : (xs.map Prod.fst).Nodup)
    (next' : Option ℕ) :
    ∃ h', setNext h (lastOr none xs) next' = some h' ∧ Seg h' prev xs next' ∧
      h'.next = h.next ∧ ∀ q, q ∉ xs.map Prod.fst → h'.get q = h.get q := by
  rcases List.eq_nil_or_concat xs with rfl | ⟨ys, ⟨p, v⟩, rfl⟩
  · exact ⟨h, rfl, trivial, rfl, fun _ _ => rfl⟩
  · rw [List.concat_eq_append] at *
    obtain ⟨hys, hp, _⟩ := append_iff.mp hseg
    simp only [firstOr] at hp
    have hlast : lastOr none (ys ++ [(p, v)]) = some p := by simp [lastOr]
    have hnot : p ∉ ys.map Prod.fst := by
      simp only [List.map_append, List.map_cons, List.map_nil] at hnodup
      exact fun hmem => (List.disjoint_of_nodup_append hnodup) hmem (by simp)
    refine ⟨h.set p ⟨v, lastOr prev ys, next'⟩, ?_, ?_, by simp, ?_⟩
    · rw [hlast]
      simp [setNext, hp]
    · refine append_iff.mpr ⟨hys.congr fun q hq => ?_, ?_, trivial⟩
      · exact Heap.get_set_of_ne _ fun heq => hnot (heq ▸ hq)
      · exact Heap.get_set_self hp _
    · intro q hq
      exact Heap.get_set_of_ne _ fun heq => hq (by simp [heq])

theorem setPrev_first (hseg : Seg h prev ys next) (hnodup : (ys.map Prod.fst).Nodup)
    (prev' : Option ℕ) :
    ∃ h', setPrev h (firstOr ys none) prev' = some h' ∧ Seg h' prev' ys next ∧
      h'.next = h.next ∧ ∀ q, q ∉ ys.map Prod.fst → h'.get q = h.get q := by
  cases ys with
  | nil => exact ⟨h, rfl, trivial, rfl, fun _ _ => rfl⟩
  | cons y ys =>
      obtain ⟨p, v⟩ := y
      obtain ⟨hp, hys⟩ := hseg
      have hnot : p ∉ ys.map Prod.fst := (List.nodup_cons.mp hnodup).1
      refine ⟨h.set p ⟨v, prev', firstOr ys next⟩, ?_, ⟨Heap.get_set_self hp _, ?_⟩, by simp, ?_⟩
      · simp [setPrev, firstOr, hp]
      · exact hys.congr fun q hq => Heap.get_set_of_ne _ fun heq => hnot (heq ▸ hq)
      · intro q hq
        exact Heap.get_set_of_ne _ fun heq => hq (by simp [heq])

end Seg

/-! ## The loops -/

section Loops

variable {h : Heap (DlistNode α)} {prev : Option ℕ} {xs : List (ℕ × α)}

theorem containsFrom_spec (hseg : Seg h prev xs none) (node : ℕ) {fuel : ℕ}
    (hfuel : xs.length < fuel) :
    containsFrom h node fuel (firstOr xs none) = some (decide (node ∈ xs.map Prod.fst)) := by
  induction xs generalizing prev fuel with
  | nil =>
      cases fuel with
      | zero => simp at hfuel
      | succ fuel => simp [containsFrom]
  | cons x xs ih =>
      obtain ⟨p, v⟩ := x
      cases fuel with
      | zero => simp at hfuel
      | succ fuel =>
          have hrest := ih hseg.2 (Nat.lt_of_succ_lt_succ hfuel)
          by_cases hp : p = node
          · simp [containsFrom, hp]
          · simp [containsFrom, hp, Ne.symm hp, hseg.1, hrest]

/-- The loop of `is_valid` counts the nodes and finds the last one. -/
theorem isValidFrom_spec (hseg : Seg h prev xs none)
    (hprev : ∀ p, prev = some p → ∃ n, h.get p = some n ∧ n.next = firstOr xs none)
    (len : ℕ) (endNode : Option ℕ) {fuel : ℕ} (hfuel : xs.length < fuel) :
    isValidFrom h fuel (firstOr xs none) len endNode =
      some (len + xs.length, lastOr endNode xs) := by
  induction xs generalizing prev fuel len endNode with
  | nil =>
      cases fuel with
      | zero => simp at hfuel
      | succ fuel => simp [isValidFrom]
  | cons x xs ih =>
      obtain ⟨p, v⟩ := x
      obtain ⟨hp, hxs⟩ := hseg
      cases fuel with
      | zero => simp at hfuel
      | succ fuel =>
          have hrest := ih hxs (fun q hq => by
            cases hq
            exact ⟨_, hp, rfl⟩) (len + 1) (some p) (Nat.lt_of_succ_lt_succ hfuel)
          have hlen : len + 1 + xs.length = len + (xs.length + 1) := by omega
          have hnext : nextLinksBack h p (firstOr xs none) = some true := by
            cases xs with
            | nil => rfl
            | cons y ys => simp [nextLinksBack, hxs.1]
          have hback : prevLinksBack h p prev = some true := by
            cases prev with
            | none => rfl
            | some q =>
                obtain ⟨n, hn, hnext'⟩ := hprev q rfl
                simp [prevLinksBack, hn, hnext']
          simp only [isValidFrom, firstOr_cons, hp, Option.bind_eq_bind, Option.bind_some, hnext,
            hback, assertThat_true, hrest, lastOr_cons, List.length_cons, hlen]

end Loops

namespace Represents

variable {h : Heap (DlistNode α)} {self : Dlist} {xs : List (ℕ × α)}

theorem contains_eq (hrepr : Represents h self xs) (node : ℕ) :
    contains h self node = some (decide (node ∈ xs.map Prod.fst)) := by
  have hlen := hrepr.seg.length_le hrepr.nodup
  rw [contains, hrepr.head_eq]
  exact containsFrom_spec hrepr.seg node (by omega)

theorem isValid_eq (hrepr : Represents h self xs) : isValid h self = some () := by
  have hlen := hrepr.seg.length_le hrepr.nodup
  have hloop := @isValidFrom_spec _ _ _ _ hrepr.seg (by simp) 0 none (h.next + 1) (by omega)
  simp [isValid, hrepr.head_eq, hloop, hrepr.len_eq, hrepr.end_eq]

theorem moveChecks_eq (hrepr : Represents h self xs) {node : ℕ} (hnode : node ∈ xs.map Prod.fst)
    (target : Option ℕ) (htarget : ∀ t, target = some t → t ∈ xs.map Prod.fst) :
    moveChecks h self node target = some () := by
  cases target with
  | none => simp [moveChecks, nullOrContains, hrepr.contains_eq, hnode, hrepr.isValid_eq]
  | some t =>
      have ht := htarget t rfl
      simp [moveChecks, nullOrContains, hrepr.contains_eq, hnode, ht, hrepr.isValid_eq]

end Represents

/-! ## Taking a node out and linking it at the end -/

section Relink

variable {h : Heap (DlistNode α)} {xs ys : List (ℕ × α)} {p : ℕ} {v : α}

theorem not_mem_of_nodup (hnodup : ((xs ++ (p, v) :: ys).map Prod.fst).Nodup) :
    p ∉ xs.map Prod.fst ∧ p ∉ ys.map Prod.fst ∧
      (∀ q ∈ xs.map Prod.fst, q ∉ ys.map Prod.fst) ∧ (xs.map Prod.fst).Nodup ∧
      (ys.map Prod.fst).Nodup := by
  rw [List.map_append, List.map_cons, List.nodup_append] at hnodup
  obtain ⟨hxs, hys, hdisj⟩ := hnodup
  rw [List.nodup_cons] at hys
  refine ⟨fun hmem => hdisj p hmem p (by simp) rfl, hys.1, fun q hq hq' => ?_, hxs, hys.2⟩
  exact hdisj q hq q (List.mem_cons_of_mem _ hq') rfl

theorem mem_insert_iff (q : ℕ) :
    q ∈ (xs ++ (p, v) :: ys).map Prod.fst ↔ q = p ∨ q ∈ (xs ++ ys).map Prod.fst := by
  simp only [List.map_append, List.map_cons, List.mem_append, List.mem_cons]
  tauto

theorem nodup_without (hnodup : ((xs ++ (p, v) :: ys).map Prod.fst).Nodup) :
    ((xs ++ ys).map Prod.fst).Nodup := by
  refine List.Nodup.sublist ?_ hnodup
  exact List.Sublist.map _ (List.Sublist.append_left (List.sublist_cons_self _ _) _)

/-- The node that is taken out loses its links, and its neighbours are linked. -/
theorem unlinkBoth_spec (hseg : Seg h none (xs ++ (p, v) :: ys) none)
    (hnodup : ((xs ++ (p, v) :: ys).map Prod.fst).Nodup) :
    ∃ h', unlinkBoth h p = some h' ∧ Seg h' none (xs ++ ys) none ∧
      h'.get p = some ⟨v, none, none⟩ ∧ h'.next = h.next ∧
      ∀ q, q ∉ (xs ++ (p, v) :: ys).map Prod.fst → h'.get q = h.get q := by
  obtain ⟨hpx, hpy, hdisj, hnx, hny⟩ := not_mem_of_nodup hnodup
  obtain ⟨hxs, hp, hys⟩ := Seg.append_iff.mp hseg
  obtain ⟨h₁, hset₁, hxs₁, hnext₁, hframe₁⟩ := hxs.setNext_last hnx (firstOr ys none)
  have hys₁ : Seg h₁ (some p) ys none :=
    hys.congr fun q hq => hframe₁ q fun hq' => hdisj q hq' hq
  obtain ⟨h₂, hset₂, hys₂, hnext₂, hframe₂⟩ := hys₁.setPrev_first hny (lastOr none xs)
  have hxs₂ : Seg h₂ none xs (firstOr ys none) :=
    hxs₁.congr fun q hq => hframe₂ q (hdisj q hq)
  have hp₂ : h₂.get p = some ⟨v, lastOr none xs, firstOr ys none⟩ := by
    rw [hframe₂ p hpy, hframe₁ p hpx, hp]
  refine ⟨h₂.set p ⟨v, none, none⟩, ?_, Seg.append_iff.mpr ⟨?_, ?_⟩, Heap.get_set_self hp₂ _, ?_,
    ?_⟩
  · simp [unlinkBoth, hp, hset₁, hset₂, hp₂]
  · exact hxs₂.congr fun q hq => Heap.get_set_of_ne _ fun heq => hpx (heq ▸ hq)
  · exact hys₂.congr fun q hq => Heap.get_set_of_ne _ fun heq => hpy (heq ▸ hq)
  · rw [Heap.next_set, hnext₂, hnext₁]
  · intro q hq
    simp only [List.map_append, List.map_cons, List.mem_append, List.mem_cons, not_or] at hq
    rw [Heap.get_set_of_ne _ hq.2.1, hframe₂ q hq.2.2, hframe₁ q hq.1]

/-- A node is linked between two parts, whatever these have been linked to before. -/
theorem link_between {prev next prev' next' : Option ℕ} (hxs : Seg h none xs next)
    (hys : Seg h prev ys none) (hnodup : ((xs ++ (p, v) :: ys).map Prod.fst).Nodup)
    (hp : h.get p = some ⟨v, prev', next'⟩) :
    ∃ h₁ h₂, link h (lastOr none xs) (some p) = some h₁ ∧
      link h₁ (some p) (firstOr ys none) = some h₂ ∧
      Seg h₂ none (xs ++ (p, v) :: ys) none ∧ h₂.next = h.next ∧
      ∀ q, q ∉ (xs ++ (p, v) :: ys).map Prod.fst → h₂.get q = h.get q := by
  obtain ⟨hpx, hpy, hdisj, hnx, hny⟩ := not_mem_of_nodup hnodup
  obtain ⟨h₁, hset₁, hxs₁, hnext₁, hframe₁⟩ := hxs.setNext_last hnx (some p)
  have hp₁ : h₁.get p = some ⟨v, prev', next'⟩ := by rw [hframe₁ p hpx, hp]
  have hp₂ := Heap.get_set_self hp₁ ⟨v, lastOr none xs, next'⟩
  have hp₃ := Heap.get_set_self hp₂ ⟨v, lastOr none xs, firstOr ys none⟩
  set h₃ := (h₁.set p ⟨v, lastOr none xs, next'⟩).set p ⟨v, lastOr none xs, firstOr ys none⟩
    with hh₃
  have hother : ∀ q, q ≠ p → h₃.get q = h₁.get q := by
    intro q hq
    rw [hh₃, Heap.get_set_of_ne _ hq, Heap.get_set_of_ne _ hq]
  have hys₃ : Seg h₃ prev ys none := by
    refine hys.congr fun q hq => ?_
    rw [hother q (fun heq => hpy (heq ▸ hq)), hframe₁ q (fun hq' => hdisj q hq' hq)]
  obtain ⟨h₂, hset₂, hys₂, hnext₂, hframe₂⟩ := hys₃.setPrev_first hny (some p)
  refine ⟨h₁.set p ⟨v, lastOr none xs, next'⟩, h₂, ?_, ?_,
    Seg.append_iff.mpr ⟨?_, ?_, hys₂⟩, ?_, ?_⟩
  · simp [link, hset₁, setPrev, hp₁]
  · simp [link, setNext, hp₂, ← hh₃, hset₂]
  · refine hxs₁.congr fun q hq => ?_
    rw [hframe₂ q (hdisj q hq), hother q (fun heq => hpx (heq ▸ hq))]
  · rw [hframe₂ p hpy, hp₃]
  · rw [hnext₂, hh₃, Heap.next_set, Heap.next_set, hnext₁]
  · intro q hq
    simp only [List.map_append, List.map_cons, List.mem_append, List.mem_cons, not_or] at hq
    rw [hframe₂ q hq.2.2, hother q hq.2.1, hframe₁ q hq.1]

/-- The links between two parts are cut. The node before the cut skips the one behind it. -/
theorem unlinkNext_spec (hseg : Seg h none (xs ++ ys) none)
    (hnodup : ((xs ++ ys).map Prod.fst).Nodup) :
    ∃ h' next, unlinkNext h (firstOr ys none) = some h' ∧ Seg h' none xs next ∧
      Seg h' none ys none ∧ h'.next = h.next ∧
      ∀ q, q ∉ (xs ++ ys).map Prod.fst → h'.get q = h.get q := by
  obtain ⟨hxs, hys⟩ := Seg.append_iff.mp hseg
  cases ys with
  | nil => exact ⟨h, none, rfl, hxs, trivial, rfl, fun _ _ => rfl⟩
  | cons y ys =>
      obtain ⟨q, w⟩ := y
      obtain ⟨hqx, hqy, hdisj, hnx, hny⟩ := not_mem_of_nodup hnodup
      obtain ⟨hq, hys'⟩ := hys
      obtain ⟨h₁, hset₁, hxs₁, hnext₁, hframe₁⟩ := hxs.setNext_last hnx (firstOr ys none)
      have hq₁ : h₁.get q = some ⟨w, lastOr none xs, firstOr ys none⟩ := by rw [hframe₁ q hqx, hq]
      have hself : firstOr ys none ≠ some q := by
        cases ys with
        | nil => simp
        | cons z ys =>
            intro heq
            simp only [firstOr_cons, Option.some.injEq] at heq
            exact hqy (by simp [← heq])
      refine ⟨h₁.set q ⟨w, none, firstOr ys none⟩, firstOr ys none, ?_, ?_,
        ⟨Heap.get_set_self hq₁ _, ?_⟩, ?_, ?_⟩
      · rcases List.eq_nil_or_concat xs with rfl | ⟨zs, ⟨r, u⟩, rfl⟩
        · simp only [lastOr_nil, setNext, Option.some.injEq] at hset₁ hq
          subst hset₁
          simp [unlinkNext, unlinkPrev, hq, hself, setPrev]
        · rw [List.concat_eq_append] at *
          have hr : h.get r = some ⟨u, lastOr none zs, some q⟩ := (Seg.append_iff.mp hxs).2.1
          simp only [lastOr_append, lastOr_cons, lastOr_nil, setNext, hr, Option.bind_eq_bind,
            Option.bind_some, Option.pure_def, Option.some.injEq] at hset₁ hq
          rw [← hset₁] at hq₁ ⊢
          simp only [lastOr_append, lastOr_cons, lastOr_nil] at hq₁
          simp [unlinkNext, unlinkPrev, hq, hself, hr, setPrev, hq₁]
      · exact hxs₁.congr fun r hr => Heap.get_set_of_ne _ fun heq => hqx (heq ▸ hr)
      · refine hys'.congr fun r hr => ?_
        have hne : r ≠ q := fun heq => hqy (heq ▸ hr)
        rw [Heap.get_set_of_ne _ hne, hframe₁ r (fun hr' => hdisj r hr' hr)]
      · rw [Heap.next_set, hnext₁]
      · intro r hr
        simp only [List.map_append, List.map_cons, List.mem_append, List.mem_cons, not_or] at hr
        rw [Heap.get_set_of_ne _ hr.2.1, hframe₁ r hr.1]

end Relink

/-! ## The operations -/

namespace Represents

variable {h : Heap (DlistNode α)} {self : Dlist} {xs ys : List (ℕ × α)} {p : ℕ} {v : α}

theorem new (h : Heap (DlistNode α)) : Represents h Dlist.new [] :=
  ⟨trivial, rfl, rfl, rfl, List.nodup_nil⟩

theorem get_eq (hrepr : Represents h self xs) (hp : (p, v) ∈ xs) : Dlist.get h p = some v := by
  obtain ⟨_, _, hget⟩ := hrepr.seg.get_isSome hp
  simp [Dlist.get, hget]

theorem value_unique (hrepr : Represents h self xs) {w : α} (hv : (p, v) ∈ xs)
    (hw : (p, w) ∈ xs) : v = w := by
  have heq := (hrepr.get_eq hv).symm.trans (hrepr.get_eq hw)
  simpa using heq

theorem unique (hxs : Represents h self xs) (hys : Represents h self ys) : xs = ys :=
  hxs.seg.unique hys.seg (hxs.head_eq.symm.trans hys.head_eq)

/-- What `insert_after` finds behind a node, or at the head of the list. -/
theorem nextAfter_eq (hrepr : Represents h self (xs ++ ys)) :
    nextAfter h self (lastOr none xs) = some (firstOr ys none) := by
  rcases List.eq_nil_or_concat xs with rfl | ⟨zs, ⟨q, w⟩, rfl⟩
  · simp [nextAfter, hrepr.head_eq]
  · rw [List.concat_eq_append] at *
    have hseg := (Seg.append_iff.mp hrepr.seg).1
    have hq : h.get q = some ⟨w, lastOr none zs, firstOr ys none⟩ :=
      (Seg.append_iff.mp hseg).2.1
    simp [nextAfter, hrepr.contains_eq, hq]

theorem nodup_insert (hnodup : ((xs ++ ys).map Prod.fst).Nodup)
    (hnot : p ∉ (xs ++ ys).map Prod.fst) (v : α) : ((xs ++ (p, v) :: ys).map Prod.fst).Nodup := by
  have hperm : ((xs ++ (p, v) :: ys).map Prod.fst).Perm (p :: (xs ++ ys).map Prod.fst) := by
    simp
  exact hperm.nodup_iff.mpr (List.nodup_cons.mpr ⟨hnot, hnodup⟩)

theorem insertAfter_spec (hrepr : Represents h self (xs ++ ys)) (value : α) :
    ∃ h' self', insertAfter true h self value (lastOr none xs) =
        some (none, h', self', some h.next) ∧
      Represents h' self' (xs ++ (h.next, value) :: ys) ∧ h'.next = h.next + 1 ∧
      ∀ q, q ∉ (xs ++ (h.next, value) :: ys).map Prod.fst → h'.get q = h.get q := by
  have hnot : h.next ∉ (xs ++ ys).map Prod.fst := fun hmem => (hrepr.seg.lt_next hmem).ne rfl
  have hnodup := nodup_insert hrepr.nodup hnot value
  have hrepr₀ : Represents (h.alloc ⟨value, none, none⟩) self (xs ++ ys) := by
    refine ⟨hrepr.seg.congr fun q hq => ?_, hrepr.head_eq, hrepr.end_eq, hrepr.len_eq,
      hrepr.nodup⟩
    rw [Heap.get_alloc, if_neg (hrepr.seg.lt_next hq).ne]
  obtain ⟨h₁, next, hunlink, hxs₁, hys₁, hnext₁, hframe₁⟩ :=
    unlinkNext_spec hrepr₀.seg hrepr.nodup
  have hp₁ : h₁.get h.next = some ⟨value, none, none⟩ := by
    rw [hframe₁ _ hnot, Heap.get_alloc_next]
  obtain ⟨h₂, h₃, hlink₂, hlink₃, hseg₃, hnext₃, hframe₃⟩ := link_between hxs₁ hys₁ hnodup hp₁
  refine ⟨h₃, { head := if lastOr none xs = none then some h.next else self.head
                endNode := if firstOr ys none = none then some h.next else self.endNode
                len := self.len + 1 }, ?_, ⟨hseg₃, ?_, ?_, ?_, hnodup⟩, ?_, ?_⟩
  · simp [insertAfter, hrepr₀.nextAfter_eq, hunlink, hlink₂, hlink₃]
  · cases xs with
    | nil => simp
    | cons x xs =>
        have hne : lastOr none (x :: xs) ≠ none := fun heq => by
          simpa using lastOr_eq_none_iff.mp heq
        simp only [hne, if_false, hrepr.head_eq]
        simp
  · rw [hrepr.end_eq]
    cases ys with
    | nil => simp
    | cons y ys => simp
  · simp only [hrepr.len_eq, List.length_append, List.length_cons]
    omega
  · rw [hnext₃, hnext₁, Heap.next_alloc]
  · intro q hq
    have hne : q ≠ h.next := fun heq => hq (by simp [heq])
    rw [hframe₃ q hq, hframe₁ q, Heap.get_alloc, if_neg hne]
    intro hmem
    rw [List.map_append, List.mem_append] at hmem
    refine hq ?_
    rw [List.map_append, List.map_cons, List.mem_append]
    exact hmem.imp_right (List.mem_cons_of_mem _)

theorem append_spec (hrepr : Represents h self xs) (ok : Bool) (value : α) :
    (ok = false ∧
      append ok h self value = some (some .memoryAllocationFailure, h, self, none)) ∨
    (ok = true ∧ ∃ h' self', append ok h self value = some (none, h', self', some h.next) ∧
      Represents h' self' (xs ++ [(h.next, value)]) ∧ h.next ∉ xs.map Prod.fst) := by
  cases ok with
  | false => exact .inl ⟨rfl, by simp [append, insertAfter]⟩
  | true =>
      have hrepr₀ : Represents h self (xs ++ []) := by rwa [List.append_nil]
      obtain ⟨h', self', hinsert, hrepr', _, _⟩ := hrepr₀.insertAfter_spec value
      refine .inr ⟨rfl, h', self', ?_, hrepr', fun hmem => (hrepr.seg.lt_next hmem).ne rfl⟩
      rw [append, hrepr.end_eq, hinsert]

/-- The new ends of a list when a node is taken out of it. -/
theorem ends_without (hrepr : Represents h self (xs ++ (p, v) :: ys)) :
    (if self.head = some p then firstOr ys none else self.head) = firstOr (xs ++ ys) none ∧
      (if self.endNode = some p then lastOr none xs else self.endNode) =
        lastOr none (xs ++ ys) := by
  obtain ⟨hpx, hpy, _, _, _⟩ := not_mem_of_nodup hrepr.nodup
  constructor
  · rw [hrepr.head_eq]
    cases xs with
    | nil => simp
    | cons x xs =>
        have hne : x.1 ≠ p := fun heq => hpx (by simp [heq])
        simp [hne]
  · rw [hrepr.end_eq]
    rcases List.eq_nil_or_concat ys with rfl | ⟨zs, z, rfl⟩
    · simp
    · rw [List.concat_eq_append] at *
      have hne : z.1 ≠ p := fun heq => hpy (by simp [heq])
      simp [hne]

theorem not_mem_without (hrepr : Represents h self (xs ++ (p, v) :: ys)) :
    p ∉ (xs ++ ys).map Prod.fst := by
  obtain ⟨hpx, hpy, _⟩ := not_mem_of_nodup hrepr.nodup
  rw [List.map_append, List.mem_append]
  rintro (hmem | hmem)
  · exact hpx hmem
  · exact hpy hmem

theorem pluck_spec (hrepr : Represents h self (xs ++ (p, v) :: ys)) :
    ∃ h' self', pluck h self p = some (h', self') ∧ Represents h' self' (xs ++ ys) ∧
      h'.get p = some ⟨v, none, none⟩ ∧ h'.next = h.next ∧
      ∀ q, q ∉ (xs ++ (p, v) :: ys).map Prod.fst → h'.get q = h.get q := by
  obtain ⟨h', hunlink, hseg, hp', hnext, hframe⟩ := unlinkBoth_spec hrepr.seg hrepr.nodup
  obtain ⟨_, hp, _⟩ := Seg.append_iff.mp hrepr.seg
  obtain ⟨hhead, hend⟩ := hrepr.ends_without
  have hmem : p ∈ (xs ++ (p, v) :: ys).map Prod.fst := by simp
  have hnot := hrepr.not_mem_without
  have hlen := hrepr.len_eq
  have hrepr' : Represents h' ⟨firstOr (xs ++ ys) none, lastOr none (xs ++ ys), self.len - 1⟩
      (xs ++ ys) := by
    refine ⟨hseg, rfl, rfl, ?_, nodup_without hrepr.nodup⟩
    simp only [List.length_append, List.length_cons] at hlen ⊢
    omega
  refine ⟨h', _, ?_, hrepr', hp', hnext, hframe⟩
  simp only [pluck, hrepr.contains_eq, hmem, decide_true, Option.bind_eq_bind, Option.bind_some,
    assertThat_true, hp, hhead, hend, hunlink, hrepr'.contains_eq, hnot, decide_false,
    Bool.not_false]
  rfl

/-- The node is freed, and the nodes of other lists stay as they are. -/
theorem remove_frame (hrepr : Represents h self (xs ++ (p, v) :: ys)) :
    ∃ h' self', remove h self p = some (v, h', self') ∧ Represents h' self' (xs ++ ys) ∧
      h'.next = h.next ∧ ∀ q, q ∉ (xs ++ (p, v) :: ys).map Prod.fst → h'.get q = h.get q := by
  obtain ⟨h', self', hpluck, hrepr', hp', hnext, hframe⟩ := hrepr.pluck_spec
  have hnot := hrepr.not_mem_without
  refine ⟨h'.free p, self', ?_, ⟨?_, hrepr'.head_eq, hrepr'.end_eq, hrepr'.len_eq,
    hrepr'.nodup⟩, ?_, ?_⟩
  · simp [remove, hrepr.contains_eq, hpluck, hp']
  · exact hrepr'.seg.congr fun q hq => Heap.get_free_of_ne _ fun heq => hnot (heq ▸ hq)
  · rw [Heap.next_free, hnext]
  · intro q hq
    rw [Heap.get_free_of_ne _ (fun heq => hq (by simp [heq])), hframe q hq]

theorem remove_spec (hrepr : Represents h self (xs ++ (p, v) :: ys)) :
    ∃ h' self', remove h self p = some (v, h', self') ∧ Represents h' self' (xs ++ ys) := by
  obtain ⟨h', self', hremove, hrepr', _⟩ := hrepr.remove_frame
  exact ⟨h', self', hremove, hrepr'⟩

/-! ## Moving a node -/

theorem lastOr_congr {zs : List (ℕ × α)} (hne : zs ≠ []) (prev prev' : Option ℕ) :
    lastOr prev zs = lastOr prev' zs := by
  cases zs with
  | nil => exact absurd rfl hne
  | cons z zs => rfl

/-- A node is unlinked, and linked again between the parts `us` and `vs` of the other nodes. -/
theorem unlink_link {us vs : List (ℕ × α)} (hrepr : Represents h self (xs ++ (p, v) :: ys))
    (hsplit : xs ++ ys = us ++ vs) :
    ∃ h₁ h₂ h₃, unlinkBoth h p = some h₁ ∧ link h₁ (lastOr none us) (some p) = some h₂ ∧
      link h₂ (some p) (firstOr vs none) = some h₃ ∧ h₃.next = h.next ∧
      Represents h₃ ⟨firstOr (us ++ (p, v) :: vs) none, lastOr none (us ++ (p, v) :: vs), self.len⟩
        (us ++ (p, v) :: vs) ∧
      ∀ q, q ∉ (xs ++ (p, v) :: ys).map Prod.fst → h₃.get q = h.get q := by
  have hnot := hrepr.not_mem_without
  have hnodup := nodup_without hrepr.nodup
  obtain ⟨h₁, hunlink, hseg₁, hp₁, hnext₁, hframe₁⟩ := unlinkBoth_spec hrepr.seg hrepr.nodup
  rw [hsplit] at hnot hnodup hseg₁
  have hnodup' := nodup_insert hnodup hnot v
  obtain ⟨hus₁, hvs₁⟩ := Seg.append_iff.mp hseg₁
  obtain ⟨h₂, h₃, hlink₂, hlink₃, hseg₃, hnext₃, hframe₃⟩ := link_between hus₁ hvs₁ hnodup' hp₁
  have hlen := hrepr.len_eq
  have hlen' := congrArg List.length hsplit
  refine ⟨h₁, h₂, h₃, hunlink, hlink₂, hlink₃, hnext₃.trans hnext₁,
    ⟨hseg₃, rfl, rfl, ?_, hnodup'⟩, fun q hq => ?_⟩
  · simp only [List.length_append, List.length_cons] at hlen hlen' ⊢
    omega
  · have hq' := hq
    rw [mem_insert_iff, hsplit, ← mem_insert_iff] at hq'
    rw [hframe₃ q hq', hframe₁ q hq]

/-- The last node behind a move, as `move_after` finds it. -/
theorem end_relinked {us vs : List (ℕ × α)} {a : ℕ} {n : DlistNode α}
    (hrepr : Represents h self (xs ++ (p, v) :: ys)) (hsplit : xs ++ ys = us ++ vs)
    (ha : lastOr none us = some a) (hn : h.get a = some n) (hnext : n.next = firstOr vs none) :
    (if self.endNode = some p then lastOr none xs
      else if self.endNode = some a then some p else self.endNode) =
        lastOr none (us ++ (p, v) :: vs) := by
  have hend := hrepr.ends_without.2
  have hnodup := nodup_without hrepr.nodup
  rw [hsplit] at hend hnodup
  rw [lastOr_append, lastOr_cons]
  by_cases hvs : vs = []
  · subst hvs
    have hne : self.endNode ≠ some p := by
      -- otherwise the node would follow `a`
      intro hendp
      rw [hrepr.end_eq, lastOr_append, lastOr_cons] at hendp
      have hnil : ys = [] := by
        by_contra hne
        rw [lastOr_congr hne _ none] at hendp
        exact (not_mem_of_nodup hrepr.nodup).2.1 (lastOr_mem hendp)
      rw [hnil, List.append_nil, List.append_nil] at hsplit
      obtain ⟨n', hn', hnext'⟩ :=
        (Seg.append_iff.mp hrepr.seg).1.get_last (p := a) (by rw [hsplit, ha])
      rw [hn, Option.some.injEq] at hn'
      rw [← hn', hnext] at hnext'
      simp at hnext'
    rw [if_neg hne, List.append_nil, ha] at hend
    rw [if_neg hne, if_pos hend]
    rfl
  · rw [lastOr_append, lastOr_congr hvs _ none] at hend
    rw [lastOr_congr hvs _ none]
    by_cases hp' : self.endNode = some p
    · rw [if_pos hp'] at hend ⊢
      exact hend
    · rw [if_neg hp'] at hend ⊢
      -- `a` is not among the nodes behind it
      have hne : self.endNode ≠ some a := by
        intro heq
        rw [hend] at heq
        rw [List.map_append, List.nodup_append] at hnodup
        exact hnodup.2.2 a (lastOr_mem ha) a (lastOr_mem heq) rfl
      rw [if_neg hne, hend]

/-- A node is moved to another place, between the parts `us` and `vs` of the other nodes. -/
theorem relinkAfter_spec {us vs : List (ℕ × α)} {a : ℕ} {n : DlistNode α}
    (hrepr : Represents h self (xs ++ (p, v) :: ys)) (hsplit : xs ++ ys = us ++ vs)
    (ha : lastOr none us = some a) (hn : h.get a = some n) (hnext : n.next = firstOr vs none) :
    ∃ h' self', relinkAfter h self p a = some (h', self') ∧
      Represents h' self' (us ++ (p, v) :: vs) ∧ h'.next = h.next ∧
      ∀ q, q ∉ (xs ++ (p, v) :: ys).map Prod.fst → h'.get q = h.get q := by
  have hp := (Seg.append_iff.mp hrepr.seg).2.1
  have hend := hrepr.end_relinked hsplit ha hn hnext
  have hhead : (if self.head = some p then firstOr ys none else self.head) =
      firstOr (us ++ (p, v) :: vs) none := by
    rw [hrepr.ends_without.1, hsplit]
    cases us with
    | nil => simp at ha
    | cons u us => rfl
  obtain ⟨h₁, h₂, h₃, hunlink, hlink₂, hlink₃, hnext₃, hrepr', hframe⟩ := hrepr.unlink_link hsplit
  rw [ha] at hlink₂
  refine ⟨h₃, _, ?_, hrepr', hnext₃, hframe⟩
  simp only [relinkAfter, hp, hn, hnext, Option.bind_eq_bind, Option.bind_some, hunlink, hlink₂,
    hlink₃, hhead, hend, hrepr'.isValid_eq]
  rfl

theorem relinkAfter_end (hrepr : Represents h self (xs ++ (p, v) :: ys)) {e : ℕ}
    (he : lastOr none ys = some e) :
    ∃ h' self', relinkAfter h self p e = some (h', self') ∧
      Represents h' self' (xs ++ ys ++ [(p, v)]) ∧ h'.next = h.next ∧
      ∀ q, q ∉ (xs ++ (p, v) :: ys).map Prod.fst → h'.get q = h.get q := by
  obtain ⟨_, _, hys⟩ := Seg.append_iff.mp hrepr.seg
  obtain ⟨n, hn, hnext⟩ := hys.get_last he
  have hne : ys ≠ [] := fun heq => by simp [heq] at he
  have hlast : lastOr none (xs ++ ys) = some e := by
    rw [lastOr_append, lastOr_congr hne _ none, he]
  exact hrepr.relinkAfter_spec (List.append_nil _).symm hlast hn hnext

/-- The first node behind a move, as `move_before` finds it. -/
theorem head_relinked {us vs : List (ℕ × α)} {b : ℕ} {n : DlistNode α}
    (hrepr : Represents h self (xs ++ (p, v) :: ys)) (hsplit : xs ++ ys = us ++ vs)
    (hb : firstOr vs none = some b) (hn : h.get b = some n) (hprev : n.prev = lastOr none us) :
    (if self.head = some p then firstOr ys none
      else if self.head = some b then some p else self.head) =
        firstOr (us ++ (p, v) :: vs) none := by
  have hhead := hrepr.ends_without.1
  have hnodup := nodup_without hrepr.nodup
  rw [hsplit] at hhead hnodup
  cases us with
  | nil =>
      have hne : self.head ≠ some p := by
        -- otherwise the node would precede `b`
        intro hheadp
        rw [hrepr.head_eq] at hheadp
        have hnil : xs = [] := by
          cases xs with
          | nil => rfl
          | cons x xs =>
              simp only [List.cons_append, firstOr_cons, Option.some.injEq] at hheadp
              exact absurd (by simp [← hheadp]) (not_mem_of_nodup hrepr.nodup).1
        subst hnil
        have hys := (Seg.append_iff.mp hrepr.seg).2.2
        rw [List.nil_append, List.nil_append] at hsplit
        cases vs with
        | nil => simp at hb
        | cons y vs =>
            simp only [firstOr_cons, Option.some.injEq] at hb
            rw [hsplit] at hys
            rw [← hb, hys.1, Option.some.injEq] at hn
            simp [← hn] at hprev
      rw [if_neg hne, List.nil_append, hb] at hhead
      rw [if_neg hne, if_pos hhead]
      rfl
  | cons u us =>
      simp only [List.cons_append, firstOr_cons] at hhead ⊢
      by_cases hp' : self.head = some p
      · rw [if_pos hp'] at hhead ⊢
        exact hhead
      · rw [if_neg hp'] at hhead ⊢
        -- `b` is not among the nodes in front of it
        have hne : self.head ≠ some b := by
          intro heq
          rw [hhead, Option.some.injEq] at heq
          rw [List.map_append, List.nodup_append] at hnodup
          exact hnodup.2.2 b (by simp [heq]) b (firstOr_mem hb) rfl
        rw [if_neg hne, hhead]

/-- The mirror image of `relinkAfter_spec`. -/
theorem relinkBefore_spec {us vs : List (ℕ × α)} {b : ℕ} {n : DlistNode α}
    (hrepr : Represents h self (xs ++ (p, v) :: ys)) (hsplit : xs ++ ys = us ++ vs)
    (hb : firstOr vs none = some b) (hn : h.get b = some n) (hprev : n.prev = lastOr none us) :
    ∃ h' self', relinkBefore h self p b = some (h', self') ∧
      Represents h' self' (us ++ (p, v) :: vs) ∧ h'.next = h.next ∧
      ∀ q, q ∉ (xs ++ (p, v) :: ys).map Prod.fst → h'.get q = h.get q := by
  have hp := (Seg.append_iff.mp hrepr.seg).2.1
  have hhead := hrepr.head_relinked hsplit hb hn hprev
  have hend : (if self.endNode = some p then lastOr none xs else self.endNode) =
      lastOr none (us ++ (p, v) :: vs) := by
    rw [hrepr.ends_without.2, hsplit]
    cases vs with
    | nil => simp at hb
    | cons y vs => simp
  obtain ⟨h₁, h₂, h₃, hunlink, hlink₂, hlink₃, hnext₃, hrepr', hframe⟩ := hrepr.unlink_link hsplit
  rw [hb] at hlink₃
  refine ⟨h₃, _, ?_, hrepr', hnext₃, hframe⟩
  simp only [relinkBefore, hp, hn, hprev, Option.bind_eq_bind, Option.bind_some, hunlink, hlink₂,
    hlink₃, hhead, hend, hrepr'.isValid_eq]
  rfl

theorem moveBefore_none_frame (hrepr : Represents h self (xs ++ (p, v) :: ys)) :
    ∃ h' self', moveBefore h self p none = some (h', self') ∧
      Represents h' self' (xs ++ ys ++ [(p, v)]) ∧ h'.next = h.next ∧
      ∀ q, q ∉ (xs ++ (p, v) :: ys).map Prod.fst → h'.get q = h.get q := by
  have hmem : p ∈ (xs ++ (p, v) :: ys).map Prod.fst := by simp
  obtain ⟨hpx, hpy, hdisj, _, _⟩ := not_mem_of_nodup hrepr.nodup
  obtain ⟨_, hp, _⟩ := Seg.append_iff.mp hrepr.seg
  have hchecks := hrepr.moveChecks_eq hmem none (by simp)
  cases ys with
  | nil =>
      refine ⟨h, self, ?_, by simpa using hrepr, rfl, fun _ _ => rfl⟩
      simp [moveBefore, hchecks, hp]
  | cons y ys =>
      obtain ⟨e, he⟩ : ∃ e, lastOr none (y :: ys) = some e := by
        rw [← Option.ne_none_iff_exists']
        intro hnone
        simpa using lastOr_eq_none_iff.mp hnone
      obtain ⟨h', self', hrelink, hrepr', hframe⟩ := hrepr.relinkAfter_end he
      have hend : self.endNode = some e := by
        rw [hrepr.end_eq]
        simpa using he
      have hemem := lastOr_mem he
      have hchecks' := hrepr.moveChecks_eq hmem (some e) (by
        rintro t ht
        cases ht
        rw [List.map_append, List.map_cons, List.mem_append]
        exact .inr (List.mem_cons_of_mem _ hemem))
      have hne : e ≠ p := fun heq => hpy (heq ▸ hemem)
      have hprev : lastOr none xs ≠ some e := fun heq => hdisj e (lastOr_mem heq) hemem
      refine ⟨h', self', ?_, hrepr', hframe⟩
      simp [moveBefore, hchecks, hp, hend, moveAfter, moveAfterNode, hchecks', hne, hprev, hrelink]

theorem moveBefore_none_spec (hrepr : Represents h self (xs ++ (p, v) :: ys)) :
    ∃ h' self', moveBefore h self p none = some (h', self') ∧
      Represents h' self' (xs ++ ys ++ [(p, v)]) := by
  obtain ⟨h', self', hmove, hrepr', _⟩ := hrepr.moveBefore_none_frame
  exact ⟨h', self', hmove, hrepr'⟩

end Represents

end Dlist

end PosixThreads
