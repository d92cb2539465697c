import PosixThreads.Collections.Dlist.Spec

/-!
# Exchanging two nodes

`swap` reads the neighbours of both nodes, and then exchanges its two arguments if the second
one directly precedes the first. From there on the neighbours of one node stand under the name
of the other: every link that is made is the one that has been there before, and only the ends
of the list change.
-/

namespace PosixThreads

namespace Dlist

variable {α : Type}

def exchange (x y : ℕ × α) (xs : List (ℕ × α)) : List (ℕ × α) :=
  xs.map fun z => if z.1 = x.1 then y else if z.1 = y.1 then x else z

section Exchange

variable {x y : ℕ × α} {xs ys zs : List (ℕ × α)}

theorem firstOr_exchange (x y : ℕ × α) (xs : List (ℕ × α)) :
    firstOr (exchange x y xs) none =
      if firstOr xs none = some x.1 then some y.1
      else if firstOr xs none = some y.1 then some x.1
      else firstOr xs none := by
  cases xs with
  | nil => rfl
  | cons z zs =>
      simp only [exchange, List.map_cons, firstOr_cons, Option.some.injEq]
      split_ifs <;> rfl

theorem lastOr_exchange (x y : ℕ × α) (xs : List (ℕ × α)) :
    lastOr none (exchange x y xs) =
      if lastOr none xs = some x.1 then some y.1
      else if lastOr none xs = some y.1 then some x.1
      else lastOr none xs := by
  rcases List.eq_nil_or_concat xs with rfl | ⟨zs, z, rfl⟩
  · rfl
  · simp only [exchange, List.concat_eq_append, List.map_append, List.map_cons, List.map_nil,
      lastOr_append, lastOr_cons, lastOr_nil, Option.some.injEq]
    split_ifs <;> rfl

theorem exchange_of_not_mem (hx : x.1 ∉ xs.map Prod.fst) (hy : y.1 ∉ xs.map Prod.fst) :
    exchange x y xs = xs := by
  rw [exchange, List.map_congr_left (g := id), List.map_id]
  intro z hz
  have hzx : z.1 ≠ x.1 := fun heq => hx (heq ▸ List.mem_map_of_mem hz)
  have hzy : z.1 ≠ y.1 := fun heq => hy (heq ▸ List.mem_map_of_mem hz)
  rw [if_neg hzx, if_neg hzy, id]

theorem exchange_comm (hne : x.1 ≠ y.1) : exchange x y xs = exchange y x xs := by
  unfold exchange
  refine List.map_congr_left fun z _ => ?_
  by_cases hx : z.1 = x.1
  · rw [if_pos hx, if_neg (fun hy => hne (hx.symm.trans hy)), if_pos hx]
  · rw [if_neg hx, if_neg hx]

theorem exchange_append
    (hnodup : ((xs ++ x :: (ys ++ y :: zs)).map Prod.fst).Nodup) :
    exchange x y (xs ++ x :: (ys ++ y :: zs)) = xs ++ y :: (ys ++ x :: zs) := by
  obtain ⟨hxs, hrest, hdisj, _, hnodup'⟩ := not_mem_of_nodup hnodup
  obtain ⟨hys, hzs, _, _, _⟩ := not_mem_of_nodup hnodup'
  have hyxs : y.1 ∉ xs.map Prod.fst := fun hmem => hdisj _ hmem (by simp)
  have hne : y.1 ≠ x.1 := fun heq => hrest (by simp [heq])
  have hxys : x.1 ∉ ys.map Prod.fst := fun hmem => hrest (by
    rw [List.map_append, List.mem_append]
    exact .inl hmem)
  have hxzs : x.1 ∉ zs.map Prod.fst := fun hmem => hrest (by
    rw [List.map_append, List.map_cons, List.mem_append]
    exact .inr (List.mem_cons_of_mem _ hmem))
  have hsplit : exchange x y (xs ++ x :: (ys ++ y :: zs)) =
      exchange x y xs ++ y :: (exchange x y ys ++ x :: exchange x y zs) := by
    simp [exchange, hne]
  rw [hsplit, exchange_of_not_mem hxs hyxs, exchange_of_not_mem hxys hys,
    exchange_of_not_mem hxzs hzs]

theorem exchange_perm :
    (xs ++ y :: (ys ++ x :: zs)).Perm (xs ++ x :: (ys ++ y :: zs)) := by
  refine List.Perm.append_left xs ?_
  calc
    (y :: (ys ++ x :: zs)).Perm (y :: x :: (ys ++ zs)) := List.perm_middle.cons y
    List.Perm _ (x :: y :: (ys ++ zs)) := List.Perm.swap x y _
    List.Perm _ (x :: (ys ++ y :: zs)) := List.perm_middle.symm.cons x

theorem exists_split_pair (hx : x ∈ xs) (hy : y ∈ xs) (hne : x ≠ y) :
    (∃ as bs cs, xs = as ++ x :: (bs ++ y :: cs)) ∨
      ∃ as bs cs, xs = as ++ y :: (bs ++ x :: cs) := by
  obtain ⟨as, bs, rfl⟩ := List.append_of_mem hx
  rw [List.mem_append, List.mem_cons] at hy
  rcases hy with hy | hy | hy
  · obtain ⟨as', cs, rfl⟩ := List.append_of_mem hy
    exact .inr ⟨as', cs, bs, by simp⟩
  · exact absurd hy.symm hne
  · obtain ⟨bs', cs, rfl⟩ := List.append_of_mem hy
    exact .inl ⟨as, bs', cs, rfl⟩

end Exchange

/-! ## The links -/

section Links

variable {h : Heap (DlistNode α)} {prev prev' next next' : Option ℕ} {xs ys zs : List (ℕ × α)}
  {p q : ℕ} {v w : α} {x y : ℕ × α}

def Apart (xs ys : List (ℕ × α)) : Prop := ∀ r ∈ xs.map Prod.fst, r ∉ ys.map Prod.fst

theorem Apart.symm (ha : Apart xs ys) : Apart ys xs := fun r hr hr' => ha r hr' hr

theorem link_parts (hxs : Seg h prev xs next) (hys : Seg h prev' ys next')
    (hne : xs ≠ [] ∨ ys ≠ []) (hnx : (xs.map Prod.fst).Nodup) (hny : (ys.map Prod.fst).Nodup)
    (ha : Apart xs ys) :
    ∃ h', link h (lastOr none xs) (firstOr ys none) = some h' ∧
      Seg h' prev xs (firstOr ys none) ∧ Seg h' (lastOr none xs) ys next' ∧
      ∀ {us : List (ℕ × α)} {before after : Option ℕ}, Apart us xs → Apart us ys →
        Seg h before us after → Seg h' before us after := by
  obtain ⟨h₁, hset₁, hxs₁, _, hframe₁⟩ := hxs.setNext_last hnx (firstOr ys none)
  have hys₁ : Seg h₁ prev' ys next' := hys.congr fun r hr => hframe₁ r fun hr' => ha r hr' hr
  obtain ⟨h₂, hset₂, hys₂, _, hframe₂⟩ := hys₁.setPrev_first hny (lastOr none xs)
  have hends : ((lastOr none xs).isSome || (firstOr ys none).isSome) = true := by
    rcases hne with hne | hne
    · have hlast : lastOr none xs ≠ none := fun heq => hne (lastOr_eq_none_iff.mp heq)
      simp [Option.isSome_iff_ne_none.mpr hlast]
    · cases ys with
      | nil => exact absurd rfl hne
      | cons y ys => simp
  refine ⟨h₂, ?_, ?_, hys₂, fun hux huy hus => hus.congr fun r hr => ?_⟩
  · simp only [link, hends, assertThat_true, Option.bind_eq_bind, Option.bind_some, hset₁, hset₂]
  · exact hxs₁.congr fun r hr => hframe₂ r (ha r hr)
  · rw [hframe₂ r (huy r hr), hframe₁ r (hux r hr)]

structure Separated (xs : List (ℕ × α)) (x : ℕ × α) (ys : List (ℕ × α)) (y : ℕ × α)
    (zs : List (ℕ × α)) : Prop where
  xs_ys : Apart xs ys
  xs_zs : Apart xs zs
  ys_zs : Apart ys zs
  x_xs : Apart [x] xs
  x_ys : Apart [x] ys
  x_zs : Apart [x] zs
  y_xs : Apart [y] xs
  y_ys : Apart [y] ys
  y_zs : Apart [y] zs
  x_y : Apart [x] [y]
  nodup_xs : (xs.map Prod.fst).Nodup
  nodup_ys : (ys.map Prod.fst).Nodup
  nodup_zs : (zs.map Prod.fst).Nodup

theorem separated_of_nodup (hnodup : ((xs ++ x :: (ys ++ y :: zs)).map Prod.fst).Nodup) :
    Separated xs x ys y zs := by
  simp only [List.map_append, List.map_cons, List.nodup_append', List.nodup_cons, List.mem_append,
    List.mem_cons, not_or, List.disjoint_cons_right, List.disjoint_append_right] at hnodup
  constructor <;> grind [Apart, List.Disjoint]

theorem firstOr_ne_of_apart (ha : Apart [x] zs) : firstOr zs none ≠ some x.1 := by
  cases zs with
  | nil => simp
  | cons z zs =>
      intro heq
      exact ha x.1 (by simp) (by simp [← Option.some.inj heq])

/-- The links that are already there are made once more. -/
theorem link_again (hxs : Seg h prev xs (firstOr ys none)) (hys : Seg h (lastOr none xs) ys next)
    (hne : xs ≠ [] ∨ ys ≠ []) : link h (lastOr none xs) (firstOr ys none) = some h := by
  have hnext : setNext h (lastOr none xs) (firstOr ys none) = some h := by
    cases hlast : lastOr none xs with
    | none => rfl
    | some r =>
        obtain ⟨n, hn, hnext⟩ := hxs.get_last hlast
        simp [setNext, hn, ← hnext, Heap.set_self hn]
  cases ys with
  | nil =>
      have hlast : lastOr none xs ≠ none := fun heq =>
        (hne.resolve_right (by simp)) (lastOr_eq_none_iff.mp heq)
      simp only [firstOr_nil] at hnext ⊢
      simp [link, Option.isSome_iff_ne_none.mpr hlast, hnext, setPrev]
  | cons y ys =>
      simp only [firstOr_cons] at hnext ⊢
      simp [link, hnext, setPrev, hys.1, Heap.set_self hys.1]

/-- The first argument comes first, with other nodes between the two. -/
theorem swapLinks_forward (hseg : Seg h none (xs ++ (p, v) :: (y :: ys ++ (q, w) :: zs)) none)
    (hs : Separated xs (p, v) (y :: ys) (q, w) zs) :
    ∃ h', swapLinks h p q (lastOr none xs) (some y.1) (lastOr (some y.1) ys) (firstOr zs none) =
        some h' ∧ Seg h' none (xs ++ (q, w) :: (y :: ys ++ (p, v) :: zs)) none := by
  obtain ⟨hxs, hp, hrest⟩ := Seg.append_iff.mp hseg
  obtain ⟨hmid, hq, hzs⟩ := Seg.append_iff.mp hrest
  have hp₀ : Seg h (lastOr none xs) [(p, v)] (some y.1) := ⟨hp, trivial⟩
  have hq₀ : Seg h (lastOr (some y.1) ys) [(q, w)] (firstOr zs none) := ⟨hq, trivial⟩
  have hne : some y.1 ≠ some q := firstOr_ne_of_apart hs.y_ys
  obtain ⟨h₁, hlink₁, hxs₁, hq₁, hframe₁⟩ :=
    link_parts hxs hq₀ (by simp) hs.nodup_xs (List.nodup_singleton q) hs.y_xs.symm
  have hp₁ := hframe₁ hs.x_xs hs.x_y hp₀
  have hmid₁ := hframe₁ hs.xs_ys.symm hs.y_ys.symm hmid
  have hzs₁ := hframe₁ hs.xs_zs.symm hs.y_zs.symm hzs
  obtain ⟨h₂, hlink₂, hp₂, hzs₂, hframe₂⟩ :=
    link_parts hp₁ hzs₁ (by simp) (List.nodup_singleton p) hs.nodup_zs hs.x_zs
  have hxs₂ := hframe₂ hs.x_xs.symm hs.xs_zs hxs₁
  have hq₂ := hframe₂ hs.x_y.symm hs.y_zs hq₁
  have hmid₂ := hframe₂ hs.x_ys.symm hs.ys_zs hmid₁
  obtain ⟨h₃, hlink₃, hq₃, hmid₃, hframe₃⟩ :=
    link_parts hq₂ hmid₂ (by simp) (List.nodup_singleton q) hs.nodup_ys hs.y_ys
  have hxs₃ := hframe₃ hs.y_xs.symm hs.xs_ys hxs₂
  have hp₃ := hframe₃ hs.x_y hs.x_ys hp₂
  have hzs₃ := hframe₃ hs.y_zs.symm hs.ys_zs.symm hzs₂
  obtain ⟨h₄, hlink₄, hmid₄, hp₄, hframe₄⟩ :=
    link_parts hmid₃ hp₃ (by simp) hs.nodup_ys (List.nodup_singleton p) hs.x_ys.symm
  have hxs₄ := hframe₄ hs.xs_ys hs.x_xs.symm hxs₃
  have hq₄ := hframe₄ hs.y_ys hs.x_y.symm hq₃
  have hzs₄ := hframe₄ hs.ys_zs.symm hs.x_zs.symm hzs₃
  simp only [lastOr_cons, lastOr_nil, firstOr_cons] at *
  refine ⟨h₄, ?_, Seg.append_iff.mpr ⟨hxs₄, hq₄.1, Seg.append_iff.mpr ⟨hmid₄, hp₄.1, hzs₄⟩⟩⟩
  simp only [swapLinks, hlink₁, hlink₂, Option.bind_eq_bind, Option.bind_some, if_neg hne,
    hlink₃, hlink₄]

/-- The first argument comes last, with other nodes between the two. The same links are made,
in the opposite order. -/
theorem swapLinks_backward (hseg : Seg h none (xs ++ (p, v) :: (y :: ys ++ (q, w) :: zs)) none)
    (hs : Separated xs (p, v) (y :: ys) (q, w) zs) :
    ∃ h', swapLinks h q p (lastOr (some y.1) ys) (firstOr zs none) (lastOr none xs) (some y.1) =
        some h' ∧ Seg h' none (xs ++ (q, w) :: (y :: ys ++ (p, v) :: zs)) none := by
  obtain ⟨hxs, hp, hrest⟩ := Seg.append_iff.mp hseg
  obtain ⟨hmid, hq, hzs⟩ := Seg.append_iff.mp hrest
  have hp₀ : Seg h (lastOr none xs) [(p, v)] (some y.1) := ⟨hp, trivial⟩
  have hq₀ : Seg h (lastOr (some y.1) ys) [(q, w)] (firstOr zs none) := ⟨hq, trivial⟩
  have hne : firstOr zs none ≠ some p := firstOr_ne_of_apart hs.x_zs
  obtain ⟨h₁, hlink₁, hmid₁, hp₁, hframe₁⟩ :=
    link_parts hmid hp₀ (by simp) hs.nodup_ys (List.nodup_singleton p) hs.x_ys.symm
  have hxs₁ := hframe₁ hs.xs_ys hs.x_xs.symm hxs
  have hq₁ := hframe₁ hs.y_ys hs.x_y.symm hq₀
  have hzs₁ := hframe₁ hs.ys_zs.symm hs.x_zs.symm hzs
  obtain ⟨h₂, hlink₂, hq₂, hmid₂, hframe₂⟩ :=
    link_parts hq₁ hmid₁ (by simp) (List.nodup_singleton q) hs.nodup_ys hs.y_ys
  have hxs₂ := hframe₂ hs.y_xs.symm hs.xs_ys hxs₁
  have hp₂ := hframe₂ hs.x_y hs.x_ys hp₁
  have hzs₂ := hframe₂ hs.y_zs.symm hs.ys_zs.symm hzs₁
  obtain ⟨h₃, hlink₃, hp₃, hzs₃, hframe₃⟩ :=
    link_parts hp₂ hzs₂ (by simp) (List.nodup_singleton p) hs.nodup_zs hs.x_zs
  have hxs₃ := hframe₃ hs.x_xs.symm hs.xs_zs hxs₂
  have hq₃ := hframe₃ hs.x_y.symm hs.y_zs hq₂
  have hmid₃ := hframe₃ hs.x_ys.symm hs.ys_zs hmid₂
  obtain ⟨h₄, hlink₄, hxs₄, hq₄, hframe₄⟩ :=
    link_parts hxs₃ hq₃ (by simp) hs.nodup_xs (List.nodup_singleton q) hs.y_xs.symm
  have hp₄ := hframe₄ hs.x_xs hs.x_y hp₃
  have hmid₄ := hframe₄ hs.xs_ys.symm hs.y_ys.symm hmid₃
  have hzs₄ := hframe₄ hs.xs_zs.symm hs.y_zs.symm hzs₃
  simp only [lastOr_cons, lastOr_nil, firstOr_cons] at *
  refine ⟨h₄, ?_, Seg.append_iff.mpr ⟨hxs₄, hq₄.1, Seg.append_iff.mpr ⟨hmid₄, hp₄.1, hzs₄⟩⟩⟩
  simp only [swapLinks, hlink₁, hlink₂, Option.bind_eq_bind, Option.bind_some, if_neg hne,
    hlink₃, hlink₄]

/-- The second argument directly follows the first. -/
theorem swapLinks_adjacent (hseg : Seg h none (xs ++ (p, v) :: (q, w) :: zs) none)
    (hs : Separated xs (p, v) [] (q, w) zs) :
    ∃ h', swapLinks h p q (lastOr none xs) (some q) (some p) (firstOr zs none) = some h' ∧
      Seg h' none (xs ++ (q, w) :: (p, v) :: zs) none := by
  obtain ⟨hxs, hp, hq, hzs⟩ := Seg.append_iff.mp hseg
  have hp₀ : Seg h (lastOr none xs) [(p, v)] (some q) := ⟨hp, trivial⟩
  have hq₀ : Seg h (some p) [(q, w)] (firstOr zs none) := ⟨hq, trivial⟩
  obtain ⟨h₁, hlink₁, hxs₁, hq₁, hframe₁⟩ :=
    link_parts hxs hq₀ (by simp) hs.nodup_xs (List.nodup_singleton q) hs.y_xs.symm
  have hp₁ := hframe₁ hs.x_xs hs.x_y hp₀
  have hzs₁ := hframe₁ hs.xs_zs.symm hs.y_zs.symm hzs
  obtain ⟨h₂, hlink₂, hp₂, hzs₂, hframe₂⟩ :=
    link_parts hp₁ hzs₁ (by simp) (List.nodup_singleton p) hs.nodup_zs hs.x_zs
  have hxs₂ := hframe₂ hs.x_xs.symm hs.xs_zs hxs₁
  have hq₂ := hframe₂ hs.x_y.symm hs.y_zs hq₁
  obtain ⟨h₃, hlink₃, hq₃, hp₃, hframe₃⟩ := link_parts hq₂ hp₂ (by simp)
    (List.nodup_singleton q) (List.nodup_singleton p) hs.x_y.symm
  have hxs₃ := hframe₃ hs.y_xs.symm hs.x_xs.symm hxs₂
  have hzs₃ := hframe₃ hs.y_zs.symm hs.x_zs.symm hzs₂
  simp only [lastOr_cons, lastOr_nil, firstOr_cons] at *
  refine ⟨h₃, ?_, Seg.append_iff.mpr ⟨hxs₃, hq₃.1, hp₃.1, hzs₃⟩⟩
  simp only [swapLinks, hlink₁, hlink₂, Option.bind_eq_bind, Option.bind_some, if_true, hlink₃]

/-- The second argument directly precedes the first, and has been exchanged with it. What
`swap` takes for the links of the exchanged nodes is what they are linked to already. -/
theorem swapLinks_same (hseg : Seg h none (xs ++ (p, v) :: (q, w) :: zs) none)
    (hs : Separated xs (p, v) [] (q, w) zs) :
    swapLinks h p q (some p) (firstOr zs none) (lastOr none xs) (some q) = some h := by
  obtain ⟨hxs, hp, hq, hzs⟩ := Seg.append_iff.mp hseg
  have hne : firstOr zs none ≠ some q := firstOr_ne_of_apart hs.y_zs
  have hp₀ : Seg h (lastOr none xs) [(p, v)] (firstOr [(q, w)] none) := ⟨hp, trivial⟩
  have hq₀ : Seg h (lastOr none [(p, v)]) [(q, w)] (firstOr zs none) := ⟨hq, trivial⟩
  have hpq : link h (some p) (some q) = some h := link_again hp₀ hq₀ (by simp)
  have hqz : link h (some q) (firstOr zs none) = some h := link_again hq₀ hzs (by simp)
  have hxs₀ : Seg h none xs (firstOr [(p, v)] none) := hxs
  have hxp : link h (lastOr none xs) (some p) = some h := link_again hxs₀ hp₀ (by simp)
  simp only [swapLinks, hpq, Option.bind_eq_bind, Option.bind_some, if_neg hne, hqz, hxp]

end Links

/-! ## The whole list -/

section Swap

variable {h h' : Heap (DlistNode α)} {self : Dlist} {xs ys zs : List (ℕ × α)} {x y : ℕ × α}

theorem swapEnds_comm {lhs rhs : ℕ} (hne : lhs ≠ rhs) :
    swapEnds self lhs rhs = swapEnds self rhs lhs := by
  have hends : ∀ e : Option ℕ,
      (if e = some lhs then some rhs else if e = some rhs then some lhs else e) =
        if e = some rhs then some lhs else if e = some lhs then some rhs else e := by
    intro e
    by_cases hl : e = some lhs
    · have hr : e ≠ some rhs := fun hr => hne (Option.some.inj (hl.symm.trans hr))
      rw [if_pos hl, if_neg hr, if_pos hl]
    · rw [if_neg hl, if_neg hl]
  simp only [swapEnds, hends]

theorem Represents.swapEnds (hrepr : Represents h self xs)
    (hseg : Seg h' none (exchange x y xs) none)
    (hnodup : ((exchange x y xs).map Prod.fst).Nodup) :
    Represents h' (swapEnds self x.1 y.1) (exchange x y xs) where
  seg := hseg
  head_eq := by rw [firstOr_exchange, ← hrepr.head_eq]; rfl
  end_eq := by rw [lastOr_exchange, ← hrepr.end_eq]; rfl
  len_eq := by rw [exchange, List.length_map, ← hrepr.len_eq]; rfl
  nodup := hnodup

/-- Both assertions hold, and the links decide. -/
theorem Represents.swap_eq (hrepr : Represents h self xs) {l r : DlistNode α} (hx : x ∈ xs)
    (hy : y ∈ xs) (hne : x.1 ≠ y.1) (hl : h.get x.1 = some l) (hr : h.get y.1 = some r) :
    swap h self x.1 y.1 =
      if r.next = some x.1 then
        (swapLinks h y.1 x.1 l.prev l.next r.prev r.next).map (·, Dlist.swapEnds self x.1 y.1)
      else
        (swapLinks h x.1 y.1 l.prev l.next r.prev r.next).map (·, Dlist.swapEnds self x.1 y.1) := by
  have hx' : x.1 ∈ xs.map Prod.fst := List.mem_map_of_mem hx
  have hy' : y.1 ∈ xs.map Prod.fst := List.mem_map_of_mem hy
  simp only [swap, hrepr.contains_eq, hx', hy', decide_true, Option.bind_eq_bind, Option.bind_some,
    assertThat_true, if_neg hne, hl, hr]
  split_ifs with hnext
  · simp only [Option.map_eq_bind, swapEnds_comm hne.symm]
    rfl
  · simp only [Option.map_eq_bind]
    rfl

theorem Represents.swap_forward
    (hrepr : Represents h self (xs ++ x :: (ys ++ y :: zs))) :
    ∃ h' self', swap h self x.1 y.1 = some (h', self') ∧
      Represents h' self' (exchange x y (xs ++ x :: (ys ++ y :: zs))) := by
  have hs := separated_of_nodup hrepr.nodup
  have hne : x.1 ≠ y.1 := fun heq => hs.x_y x.1 (by simp) (by simp [heq])
  obtain ⟨hxs, hx, hrest⟩ := Seg.append_iff.mp hrepr.seg
  obtain ⟨hmid, hy, hzs⟩ := Seg.append_iff.mp hrest
  have hswap := hrepr.swap_eq (by simp) (by simp) hne hx hy
  rw [if_neg (firstOr_ne_of_apart hs.x_zs)] at hswap
  have hnodup := (exchange_perm.map Prod.fst).nodup_iff.mpr hrepr.nodup
  obtain ⟨h', hlinks, hseg⟩ :
      ∃ h', swapLinks h x.1 y.1 (lastOr none xs) (firstOr (ys ++ y :: zs) none)
        (lastOr (some x.1) ys) (firstOr zs none) = some h' ∧
          Seg h' none (xs ++ y :: (ys ++ x :: zs)) none := by
    cases ys with
    | nil => exact swapLinks_adjacent hrepr.seg hs
    | cons z ys => exact swapLinks_forward hrepr.seg hs
  rw [← exchange_append hrepr.nodup] at hseg hnodup
  exact ⟨h', _, hswap.trans (congrArg (Option.map _) hlinks), hrepr.swapEnds hseg hnodup⟩

theorem Represents.swap_backward {z : ℕ × α}
    (hrepr : Represents h self (xs ++ y :: (z :: ys ++ x :: zs))) :
    ∃ h' self', swap h self x.1 y.1 = some (h', self') ∧
      Represents h' self' (exchange x y (xs ++ y :: (z :: ys ++ x :: zs))) := by
  have hs := separated_of_nodup hrepr.nodup
  have hne : x.1 ≠ y.1 := fun heq => hs.x_y y.1 (by simp) (by simp [heq])
  obtain ⟨hxs, hy, hrest⟩ := Seg.append_iff.mp hrepr.seg
  obtain ⟨hmid, hx, hzs⟩ := Seg.append_iff.mp hrest
  have hswap := hrepr.swap_eq (by simp) (by simp) hne hx hy
  have hnext : firstOr (z :: ys) none ≠ some x.1 := firstOr_ne_of_apart hs.y_ys
  rw [if_neg (show firstOr (z :: ys ++ x :: zs) none ≠ some x.1 from hnext)] at hswap
  have hnodup := (exchange_perm.map Prod.fst).nodup_iff.mpr hrepr.nodup
  obtain ⟨h', hlinks, hseg⟩ := swapLinks_backward hrepr.seg hs
  rw [← exchange_append hrepr.nodup, exchange_comm hne.symm] at hseg hnodup
  exact ⟨h', _, hswap.trans (congrArg (Option.map _) hlinks), hrepr.swapEnds hseg hnodup⟩

/-- The first argument directly follows the second one. The nodes stay linked as they are. -/
theorem Represents.not_swap_adjacent (hrepr : Represents h self (xs ++ y :: x :: zs)) :
    ¬∃ h' self', swap h self x.1 y.1 = some (h', self') ∧
      Represents h' self' (exchange x y (xs ++ y :: x :: zs)) := by
  have hs : Separated xs y [] x zs := separated_of_nodup hrepr.nodup
  have hne : x.1 ≠ y.1 := fun heq => hs.x_y y.1 (by simp) (by simp [heq])
  obtain ⟨hxs, hy, hx, hzs⟩ := Seg.append_iff.mp hrepr.seg
  have hswap := hrepr.swap_eq (by simp) (by simp) hne hx hy
  rw [firstOr_cons, if_pos rfl, swapLinks_same hrepr.seg hs] at hswap
  have hexchange : exchange x y (xs ++ y :: x :: zs) = xs ++ x :: y :: zs := by
    rw [exchange_comm hne]
    exact @exchange_append _ _ _ _ [] _ hrepr.nodup
  rintro ⟨h', self', hswap', hrepr'⟩
  rw [hswap, Option.map_some, Option.some.injEq, Prod.mk.injEq] at hswap'
  rw [hexchange, ← hswap'.1] at hrepr'
  -- the node at `x` still follows the one at `y`
  have hx' := (Seg.append_iff.mp hrepr'.seg).2.1
  rw [hx, Option.some.injEq, DlistNode.mk.injEq] at hx'
  exact hs.x_xs y.1 (by simp) (lastOr_mem hx'.2.1.symm)

theorem Represents.eq_of_mem (hrepr : Represents h self xs) (hx : x ∈ xs) (hy : y ∈ xs)
    (heq : x.1 = y.1) : x = y := by
  obtain ⟨_, _, hgetx⟩ := hrepr.seg.get_isSome hx
  obtain ⟨_, _, hgety⟩ := hrepr.seg.get_isSome hy
  rw [heq, hgety, Option.some.injEq, DlistNode.mk.injEq] at hgetx
  exact Prod.ext heq hgetx.1.symm

theorem Represents.swap_self (hrepr : Represents h self xs) (hx : x ∈ xs) :
    swap h self x.1 x.1 = some (h, self) ∧ exchange x x xs = xs := by
  have hx' : x.1 ∈ xs.map Prod.fst := List.mem_map_of_mem hx
  constructor
  · simp [swap, hrepr.contains_eq, hx']
  · rw [exchange, List.map_congr_left (g := id), List.map_id]
    intro z hz
    split_ifs with heq
    · exact (hrepr.eq_of_mem hz hx heq).symm
    · rfl

/-- `swap` exchanges two nodes of a list exactly if the second argument does not directly
precede the first. -/
theorem Represents.swapExchanges_iff (hrepr : Represents h self xs) (hx : x ∈ xs) (hy : y ∈ xs) :
    (∃ h' self', swap h self x.1 y.1 = some (h', self') ∧
      Represents h' self' (exchange x y xs)) ↔
        ∀ r, h.get y.1 = some r → r.next ≠ some x.1 := by
  by_cases hne : x.1 = y.1
  · obtain rfl := hrepr.eq_of_mem hx hy hne
    obtain ⟨hswap, hexchange⟩ := hrepr.swap_self hx
    refine iff_of_true ⟨h, self, hswap, hexchange.symm ▸ hrepr⟩ fun r hr => ?_
    obtain ⟨as, bs, rfl⟩ := List.append_of_mem hx
    obtain ⟨_, hget, _⟩ := Seg.append_iff.mp hrepr.seg
    rw [hget, Option.some.injEq] at hr
    rw [← hr]
    refine firstOr_ne_of_apart fun p hp hp' => ?_
    rw [List.map_cons, List.map_nil, List.mem_singleton] at hp
    exact (not_mem_of_nodup hrepr.nodup).2.1 (hp ▸ hp')
  · rcases exists_split_pair hx hy fun heq => hne (congrArg Prod.fst heq) with
      ⟨as, bs, cs, rfl⟩ | ⟨as, bs, cs, rfl⟩
    · have hs := separated_of_nodup hrepr.nodup
      obtain ⟨_, hget, _⟩ := Seg.append_iff.mp (Seg.append_iff.mp hrepr.seg).2.2
      refine iff_of_true hrepr.swap_forward fun r hr => ?_
      rw [hget, Option.some.injEq] at hr
      rw [← hr]
      exact firstOr_ne_of_apart hs.x_zs
    · have hs := separated_of_nodup hrepr.nodup
      obtain ⟨_, hget, _⟩ := Seg.append_iff.mp hrepr.seg
      cases bs with
      | nil => exact iff_of_false hrepr.not_swap_adjacent fun hnext => hnext _ hget rfl
      | cons z bs =>
          refine iff_of_true hrepr.swap_backward fun r hr => ?_
          rw [hget, Option.some.injEq] at hr
          rw [← hr]
          exact firstOr_ne_of_apart hs.y_ys

end Swap

def pairHeap : Heap (DlistNode ℕ) := ⟨[some ⟨10, none, some 1⟩, some ⟨20, some 0, none⟩]⟩

def pairList : Dlist := ⟨some 0, some 1, 2⟩

theorem pairList_represents : Represents pairHeap pairList [(0, 10), (1, 20)] :=
  ⟨⟨rfl, rfl, trivial⟩, rfl, rfl, rfl, by decide⟩

/-- The first node is exchanged with the last. -/
theorem swapExchanges_pair : (0, 10) ∈ [(0, 10), (1, 20)] ∧ (1, 20) ∈ [(0, 10), (1, 20)] ∧
    ∃ h' self', swap pairHeap pairList 0 1 = some (h', self') ∧
      Represents h' self' [(1, 20), (0, 10)] :=
  ⟨by decide, by decide,
    (pairList_represents.swapExchanges_iff (x := (0, 10)) (y := (1, 20)) (by decide)
      (by decide)).mpr (by
        rintro r hr
        cases hr
        simp)⟩

/-- The last node is exchanged with the first. The nodes keep their links and the list loses
both ends, which `is_valid` does not let pass. -/
theorem swapExchanges_fails_on_last_first : ∃ h' self',
    swap pairHeap pairList 1 0 = some (h', self') ∧ h' = pairHeap ∧ self'.head = some 1 ∧
      self'.endNode = some 0 ∧ isValid h' self' = none ∧
      ¬∃ ys, Represents h' self' ys := by
  refine ⟨pairHeap, ⟨some 1, some 0, 2⟩, by decide, rfl, rfl, rfl, by decide, ?_⟩
  rintro ⟨ys, hys⟩
  have hvalid := hys.isValid_eq
  exact absurd hvalid (by decide)

end Dlist

end PosixThreads
