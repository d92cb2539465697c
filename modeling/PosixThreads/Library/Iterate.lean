import Mathlib.Logic.Relation
import Mathlib.Order.Basic

/-!
# Loops run with a bounded number of turns

A loop is given by its body `body : σ → σ ⊕ ρ`: one turn either goes on with a
new state or leaves the loop with a result. `iterate body n s` runs at most `n`
turns and is `none` when they do not suffice, so a loop that never ends is
`none` for every `n`.

Two rules are proved for it. The invariant rule `iterate_invariant` reads a
property of the result off an invariant of the turns. The variant rule
`iterate_isSome` shows that a measure which every turn decreases bounds the
number of turns. `iterate_of_reaches` connects both with single turns: a state
reached turn by turn determines the result.
-/

namespace Iterate

variable {σ ρ : Type*}

/-- Run the loop with the given body for at most the given number of turns. -/
def iterate (body : σ → σ ⊕ ρ) : ℕ → σ → Option ρ
  | 0, _ => none
  | n + 1, s =>
      match body s with
      | .inl s' => iterate body n s'
      | .inr r => some r

/-- One turn of the loop that does not leave it. -/
def Turn (body : σ → σ ⊕ ρ) (s s' : σ) : Prop := body s = .inl s'

/-- The states a loop passes through, in any number of turns. -/
abbrev Reaches (body : σ → σ ⊕ ρ) : σ → σ → Prop :=
  Relation.ReflTransGen (Turn body)

theorem iterate_succ_of_inl {body : σ → σ ⊕ ρ} {s s' : σ} (n : ℕ)
    (h : body s = .inl s') : iterate body (n + 1) s = iterate body n s' := by
  simp [iterate, h]

theorem iterate_succ_of_inr {body : σ → σ ⊕ ρ} {s : σ} {r : ρ} (n : ℕ)
    (h : body s = .inr r) : iterate body (n + 1) s = some r := by
  simp [iterate, h]

/-- The invariant rule: what holds initially and is kept by every turn holds in
the last state, so it may be used for the result. -/
theorem iterate_invariant {body : σ → σ ⊕ ρ} {I : σ → Prop} {Q : ρ → Prop}
    (hstep : ∀ s s', I s → body s = .inl s' → I s')
    (hdone : ∀ s r, I s → body s = .inr r → Q r) :
    ∀ (n : ℕ) (s : σ) (r : ρ), I s → iterate body n s = some r → Q r := by
  intro n
  induction n with
  | zero =>
      intro s r _ h
      simp [iterate] at h
  | succ n ih =>
      intro s r hs h
      cases hb : body s with
      | inl s' =>
          rw [iterate_succ_of_inl n hb] at h
          exact ih s' r (hstep s s' hs hb) h
      | inr r' =>
          rw [iterate_succ_of_inr n hb] at h
          cases h
          exact hdone s r hs hb

/-- The variant rule: a measure that every turn decreases bounds the number of
turns. -/
theorem iterate_isSome {body : σ → σ ⊕ ρ} {I : σ → Prop} (μ : σ → ℕ)
    (hstep : ∀ s s', I s → body s = .inl s' → I s' ∧ μ s' < μ s) :
    ∀ (n : ℕ) (s : σ), I s → μ s < n → (iterate body n s).isSome := by
  intro n
  induction n with
  | zero =>
      intro s _ h
      exact absurd h (Nat.not_lt_zero _)
  | succ n ih =>
      intro s hs h
      cases hb : body s with
      | inl s' =>
          obtain ⟨hs', hlt⟩ := hstep s s' hs hb
          rw [iterate_succ_of_inl n hb]
          exact ih s' hs' (by omega)
      | inr r => simp [iterate_succ_of_inr n hb]

/-- The invariant rule for an invariant that counts the turns, of which there are at most
`bound`. -/
theorem iterate_counted {body : σ → σ ⊕ ρ} {I : ℕ → σ → Prop} {bound : ℕ}
    (hstep : ∀ k s s', I k s → body s = .inl s' → I (k + 1) s' ∧ k < bound) :
    ∀ (n k : ℕ) (s : σ), I k s → k ≤ bound → bound < k + n →
      ∃ m t r, k ≤ m ∧ I m t ∧ body t = .inr r ∧ iterate body n s = some r := by
  intro n
  induction n with
  | zero =>
      intro k s _ hle h
      omega
  | succ n ih =>
      intro k s hs _ h
      cases hb : body s with
      | inl s' =>
          obtain ⟨hs', hlt⟩ := hstep k s s' hs hb
          obtain ⟨m, t, r, hle, ht, hdone, heq⟩ := ih (k + 1) s' hs' hlt (by omega)
          exact ⟨m, t, r, by omega, ht, hdone, by rw [iterate_succ_of_inl n hb, heq]⟩
      | inr r => exact ⟨k, s, r, Nat.le_refl k, hs, hb, iterate_succ_of_inr n hb⟩

/-- A loop that ends does so with the result of the state it reaches. -/
theorem iterate_of_reaches {body : σ → σ ⊕ ρ} {s t : σ} {r : ρ}
    (hreach : Reaches body s t) (hdone : body t = .inr r) :
    ∀ (n : ℕ), (iterate body n s).isSome → iterate body n s = some r := by
  induction hreach using Relation.ReflTransGen.head_induction_on with
  | refl =>
      intro n h
      cases n with
      | zero => simp [iterate] at h
      | succ n => exact iterate_succ_of_inr n hdone
  | head hturn _ ih =>
      intro n h
      cases n with
      | zero => simp [iterate] at h
      | succ n =>
          rw [iterate_succ_of_inl n hturn] at h ⊢
          exact ih n h

/-- A loop that ends has reached the state of its last turn. -/
theorem exists_reaches_of_iterate_eq_some {body : σ → σ ⊕ ρ} {n : ℕ} {s : σ} {r : ρ}
    (h : iterate body n s = some r) : ∃ t, Reaches body s t ∧ body t = .inr r :=
  iterate_invariant (I := Reaches body s) (Q := fun r => ∃ t, Reaches body s t ∧ body t = .inr r)
    (fun _ _ hreach hturn => hreach.tail hturn) (fun t _ hreach hdone => ⟨t, hreach, hdone⟩)
    n s r .refl h

/-- The states of a loop come in one order: the last one is reached from every other. -/
theorem reaches_of_done {body : σ → σ ⊕ ρ} {s t u : σ} {r : ρ} (ht : Reaches body s t)
    (hu : Reaches body s u) (hdone : body u = .inr r) : Reaches body t u := by
  induction ht using Relation.ReflTransGen.head_induction_on with
  | refl => exact hu
  | @head s s' hturn _ ih =>
      have hturn' : body s = .inl s' := hturn
      rcases hu.cases_head with rfl | ⟨s'', hturn'', hrest⟩
      · simp [hdone] at hturn'
      · have heq : body s = .inl s'' := hturn''
        rw [hturn', Sum.inl.injEq] at heq
        subst heq
        exact ih hrest

/-- An invariant of the turns holds in every state the loop passes through. -/
theorem reaches_invariant {body : σ → σ ⊕ ρ} {I : σ → Prop}
    (hstep : ∀ s s', I s → body s = .inl s' → I s') {s t : σ}
    (hreach : Reaches body s t) (hs : I s) : I t := by
  induction hreach with
  | refl => exact hs
  | tail _ hturn ih => exact hstep _ _ ih hturn

end Iterate
