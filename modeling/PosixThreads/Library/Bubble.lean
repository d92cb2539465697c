import Mathlib.Data.List.Chain
import Mathlib.Data.List.Perm.Basic
import Mathlib.Order.Defs.Unbundled

/-!
# Passes of bubble sort

A pass carries an element along a list. Wherever the carried element may stand in front of the
next one it is left there, and the next one is carried on; otherwise the two change places. What
the pass leaves at the end is in order with everything, and a pass in which no two elements
change places has met a sorted list.

A list is sorted from behind: `Settled r us ws` says that `ws` is sorted and that each element
of `us` may stand in front of it. A pass over `us` settles one more element.
-/

namespace Bubble

variable {α : Type*} (r : α → α → Prop) [DecidableRel r]

/-- A pass that carries the given element along. -/
def pass : α → List α → List α
  | x, [] => [x]
  | x, y :: ys => if r x y then x :: pass y ys else y :: pass x ys

/-- Some elements change places in the pass. -/
def moves : α → List α → Bool
  | _, [] => false
  | x, y :: ys => if r x y then moves y ys else true

/-- The elements of the second list are where they belong. -/
structure Settled (us ws : List α) : Prop where
  sorted : ws.Pairwise r
  before : ∀ u ∈ us, ∀ w ∈ ws, r u w

variable {r} {x y : α} {ys us ws : List α}

theorem pass_cons_of_le (h : r x y) : pass r x (y :: ys) = x :: pass r y ys := if_pos h

theorem pass_cons_of_not_le (h : ¬r x y) : pass r x (y :: ys) = y :: pass r x ys := if_neg h

theorem moves_cons_of_le (h : r x y) : moves r x (y :: ys) = moves r y ys := if_pos h

theorem moves_cons_of_not_le (h : ¬r x y) : moves r x (y :: ys) = true := if_neg h

/-- A pass goes by the order of the elements that it meets. -/
theorem pass_congr {r' : α → α → Prop} [DecidableRel r']
    (h : ∀ a ∈ x :: ys, ∀ b ∈ x :: ys, r a b ↔ r' a b) :
    pass r x ys = pass r' x ys ∧ moves r x ys = moves r' x ys := by
  induction ys generalizing x with
  | nil => exact ⟨rfl, rfl⟩
  | cons y ys ih =>
      have hxy : r x y ↔ r' x y := h x (by simp) y (by simp)
      by_cases hr : r x y
      · obtain ⟨hpass, hmoves⟩ := ih fun a ha b hb =>
          h a (List.mem_cons_of_mem x ha) b (List.mem_cons_of_mem x hb)
        rw [pass_cons_of_le hr, pass_cons_of_le (hxy.mp hr), moves_cons_of_le hr,
          moves_cons_of_le (hxy.mp hr), hpass]
        exact ⟨rfl, hmoves⟩
      · have hr' : ¬r' x y := hxy.not.mp hr
        have hmem : ∀ a ∈ x :: ys, a ∈ x :: y :: ys := fun a ha => by
          simp only [List.mem_cons] at ha ⊢
          exact ha.imp_right .inr
        obtain ⟨hpass, -⟩ := ih fun a ha b hb => h a (hmem a ha) b (hmem b hb)
        rw [pass_cons_of_not_le hr, pass_cons_of_not_le hr', moves_cons_of_not_le hr,
          moves_cons_of_not_le hr', hpass]
        exact ⟨rfl, rfl⟩

theorem pass_perm (x : α) (ys : List α) : (pass r x ys).Perm (x :: ys) := by
  induction ys generalizing x with
  | nil => exact .refl _
  | cons y ys ih =>
      by_cases h : r x y
      · rw [pass_cons_of_le h]
        exact (ih y).cons x
      · rw [pass_cons_of_not_le h]
        exact ((ih x).cons y).trans (.swap x y ys)

/-- A pass leaves some element at the end. -/
theorem pass_eq_concat (x : α) (ys : List α) : ∃ init last, pass r x ys = init ++ [last] := by
  have hne : pass r x ys ≠ [] := fun hnil => by
    have hperm := pass_perm (r := r) x ys
    rw [hnil] at hperm
    exact absurd hperm.nil_eq (List.cons_ne_nil x ys).symm
  exact (List.eq_nil_or_concat' _).resolve_left hne

/-- A pass in which nothing moves leaves the list alone, which is sorted. -/
theorem pairwise_of_not_moves [IsTrans α r] (h : moves r x ys = false) :
    pass r x ys = x :: ys ∧ (x :: ys).Pairwise r := by
  rw [← List.isChain_iff_pairwise]
  induction ys generalizing x with
  | nil => exact ⟨rfl, .singleton x⟩
  | cons y ys ih =>
      by_cases hxy : r x y
      · rw [moves_cons_of_le hxy] at h
        obtain ⟨hpass, hchain⟩ := ih h
        exact ⟨by rw [pass_cons_of_le hxy, hpass], .cons_cons hxy hchain⟩
      · rw [moves_cons_of_not_le hxy] at h
        exact absurd h (by decide)

theorem exists_pass_eq_concat [IsTrans α r] [Std.Total r] (x : α) (ys : List α) :
    ∃ init last, pass r x ys = init ++ [last] ∧ r x last ∧ ∀ y ∈ init, r y last := by
  have hrefl : ∀ a, r a a := fun a => (Std.Total.total a a).elim id id
  induction ys generalizing x with
  | nil => exact ⟨[], x, rfl, hrefl x, by simp⟩
  | cons y ys ih =>
      by_cases h : r x y
      · obtain ⟨init, last, hpass, hlast, hinit⟩ := ih y
        have hx : r x last := IsTrans.trans _ _ _ h hlast
        exact ⟨x :: init, last, by rw [pass_cons_of_le h, hpass, List.cons_append], hx,
          List.forall_mem_cons.mpr ⟨hx, hinit⟩⟩
      · obtain ⟨init, last, hpass, hlast, hinit⟩ := ih x
        have hy : r y last :=
          IsTrans.trans _ _ _ ((Std.Total.total x y).resolve_left h) hlast
        exact ⟨y :: init, last, by rw [pass_cons_of_not_le h, hpass, List.cons_append], hlast,
          List.forall_mem_cons.mpr ⟨hy, hinit⟩⟩

namespace Settled

omit [DecidableRel r] in
theorem nil (us : List α) : Settled r us [] := ⟨.nil, by simp⟩

/-- One pass settles what it leaves at the end. -/
theorem pass [IsTrans α r] [Std.Total r] (h : Settled r (x :: ys) ws) {init : List α} {last : α}
    (hpass : Bubble.pass r x ys = init ++ [last]) : Settled r init (last :: ws) := by
  have hinit : ∀ y ∈ init, r y last := by
    obtain ⟨init', last', hpass', -, hinit⟩ := exists_pass_eq_concat (r := r) x ys
    obtain ⟨rfl, hlast⟩ := List.append_inj' (hpass'.symm.trans hpass) rfl
    rwa [← List.singleton_inj.mp hlast]
  have hmem : ∀ u ∈ init ++ [last], ∀ w ∈ ws, r u w := by
    intro u hu
    rw [← hpass] at hu
    exact h.before u ((pass_perm x ys).mem_iff.mp hu)
  refine ⟨List.pairwise_cons.mpr ⟨hmem last (by simp), h.sorted⟩, ?_⟩
  intro u hu
  exact List.forall_mem_cons.mpr ⟨hinit u hu, hmem u (List.mem_append_left _ hu)⟩

theorem pairwise [IsTrans α r] (h : Settled r (x :: ys) ws) (hmoves : moves r x ys = false) :
    (x :: ys ++ ws).Pairwise r :=
  List.pairwise_append.mpr ⟨(pairwise_of_not_moves hmoves).2, h.sorted, h.before⟩

end Settled

end Bubble
