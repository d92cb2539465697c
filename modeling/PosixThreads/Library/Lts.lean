import Mathlib.Data.Nat.Notation
import Mathlib.Tactic.TypeStar

/-!
# Labelled transition systems

A system is given by its initial states and by its steps, which have labels. The label
of a step says which party acts and what is observed of it, so a run of the system
comes with the history of its labels. What holds in every run is shown by an invariant,
and a system refines another one if its steps can be simulated there.
-/

namespace Lts

variable {σ τ ℓ : Type*}

inductive Run (init : σ → Prop) (step : σ → ℓ → σ → Prop) : List ℓ → σ → Prop
  | start {s : σ} (hinit : init s) : Run init step [] s
  | snoc {hist : List ℓ} {s s' : σ} {a : ℓ} (hrun : Run init step hist s) (hstep : step s a s') :
      Run init step (hist ++ [a]) s'

section Rules

variable {init : σ → Prop} {step : σ → ℓ → σ → Prop} {hist : List ℓ} {s : σ}

/-- The invariant rule. The invariant may speak of the history. -/
theorem Run.invariant {I : List ℓ → σ → Prop} (hrun : Run init step hist s)
    (hinit : ∀ s, init s → I [] s)
    (hstep : ∀ hist s a s', I hist s → step s a s' → I (hist ++ [a]) s') : I hist s := by
  induction hrun with
  | start hs => exact hinit _ hs
  | snoc _ hs ih => exact hstep _ _ _ _ ih hs

/-- A run of a system is a run of every system that has all of its steps. -/
theorem Run.mono {step' : σ → ℓ → σ → Prop} (hrun : Run init step hist s)
    (hstep : ∀ s a s', step s a s' → step' s a s') : Run init step' hist s := by
  induction hrun with
  | start hs => exact .start hs
  | snoc _ hs ih => exact ih.snoc (hstep _ _ _ hs)

/-- The simulation rule: a run of one system has the history of a run of the other one. -/
theorem Run.simulation {init' : τ → Prop} {step' : τ → ℓ → τ → Prop} {R : σ → τ → Prop}
    (hrun : Run init step hist s) (hinit : ∀ s, init s → ∃ t, init' t ∧ R s t)
    (hstep : ∀ s a s' t, R s t → step s a s' → ∃ t', step' t a t' ∧ R s' t') :
    ∃ t, Run init' step' hist t ∧ R s t := by
  induction hrun with
  | start hs =>
      obtain ⟨t, ht, hrel⟩ := hinit _ hs
      exact ⟨t, .start ht, hrel⟩
  | snoc _ hs ih =>
      obtain ⟨t, hrun', hrel⟩ := ih
      obtain ⟨t', hs', hrel'⟩ := hstep _ _ _ _ hrel hs
      exact ⟨t', hrun'.snoc hs', hrel'⟩

/-- The rule for conditions that mean the same: if one condition on the steps holds where the
other one does, as long as an invariant holds, and keeps the invariant, then the runs whose steps
meet the one are those whose steps meet the other one. -/
theorem Run.iff_of_invariant {P Q : σ → ℓ → σ → Prop} {I : σ → Prop}
    (hinit : ∀ s, init s → I s)
    (hiff : ∀ s a s', I s → step s a s' → (P s a s' ↔ Q s a s'))
    (hkeep : ∀ s a s', I s → step s a s' → Q s a s' → I s') :
    Run init (fun s a s' => step s a s' ∧ P s a s') hist s ↔
      Run init (fun s a s' => step s a s' ∧ Q s a s') hist s := by
  have hinv : ∀ {hist s}, Run init (fun s a s' => step s a s' ∧ Q s a s') hist s → I s := by
    intro hist s hrun
    exact hrun.invariant hinit fun _ s a s' hs hstep => hkeep s a s' hs hstep.1 hstep.2
  constructor
  · intro hrun
    induction hrun with
    | start hs => exact .start hs
    | snoc _ hs ih => exact ih.snoc ⟨hs.1, (hiff _ _ _ (hinv ih) hs.1).mp hs.2⟩
  · intro hrun
    induction hrun with
    | start hs => exact .start hs
    | snoc hrun hs ih => exact ih.snoc ⟨hs.1, (hiff _ _ _ (hinv hrun) hs.1).mpr hs.2⟩

end Rules

/-- The rule for completion: if runs are bounded, and a run that is not at its end can go on, then
every run can go on to an end. -/
theorem Run.complete {init : σ → Prop} {step : σ → ℓ → σ → Prop} {final : σ → Prop} {N : ℕ}
    (hbound : ∀ {hist s}, Run init step hist s → hist.length ≤ N)
    (hprogress : ∀ {hist s}, Run init step hist s → final s ∨ ∃ a s', step s a s')
    {hist : List ℓ} {s : σ} (hrun : Run init step hist s) :
    ∃ rest s', Run init step (hist ++ rest) s' ∧ final s' := by
  obtain ⟨k, hk⟩ : ∃ k, N - hist.length = k := ⟨_, rfl⟩
  induction k generalizing hist s with
  | zero =>
      rcases hprogress hrun with hfinal | ⟨a, s', hstep⟩
      · exact ⟨[], s, by rwa [List.append_nil], hfinal⟩
      · have hlen := hbound (hrun.snoc hstep)
        rw [List.length_append, List.length_singleton] at hlen
        omega
  | succ k ih =>
      rcases hprogress hrun with hfinal | ⟨a, s', hstep⟩
      · exact ⟨[], s, by rwa [List.append_nil], hfinal⟩
      · have hlen : N - (hist ++ [a]).length = k := by
          rw [List.length_append, List.length_singleton]
          omega
        obtain ⟨rest, s'', hrun', hfinal⟩ := ih (hrun.snoc hstep) hlen
        rw [List.append_assoc] at hrun'
        exact ⟨_, s'', hrun', hfinal⟩

def execAll (f : σ → ℓ → Option σ) (s : σ) (labels : List ℓ) : Option σ := labels.foldlM f s

theorem Run.execAll {init : σ → Prop} {f : σ → ℓ → Option σ} {hist labels : List ℓ} {s s' : σ}
    (hrun : Run init (fun s a s' => f s a = some s') hist s)
    (hexec : Lts.execAll f s labels = some s') :
    Run init (fun s a s' => f s a = some s') (hist ++ labels) s' := by
  induction labels generalizing hist s with
  | nil =>
      simp only [Lts.execAll, List.foldlM_nil, Option.pure_def, Option.some.injEq] at hexec
      rw [List.append_nil, ← hexec]
      exact hrun
  | cons a labels ih =>
      simp only [Lts.execAll, List.foldlM_cons, Option.bind_eq_bind,
        Option.bind_eq_some_iff] at hexec
      obtain ⟨s₁, hs₁, hexec⟩ := hexec
      have hrun' := ih (hrun.snoc hs₁) hexec
      rwa [List.append_assoc] at hrun'

/-- Steps that are guarded by a condition on the state before. -/
theorem Run.execAll_guarded {init : σ → Prop} {f : σ → ℓ → Option σ} {guard : σ → ℓ → Prop}
    [∀ s a, Decidable (guard s a)] {labels : List ℓ} {s s' : σ} (hinit : init s)
    (hexec : Lts.execAll (fun s a => if guard s a then f s a else none) s labels = some s') :
    Run init (fun s a s' => f s a = some s' ∧ guard s a) labels s' := by
  refine Run.mono (Run.execAll (.start hinit) hexec) fun s a s' hstep => ?_
  split at hstep
  · exact ⟨hstep, ‹_›⟩
  · simp at hstep

/-- A run that ends as tested. -/
theorem exists_run (f : σ → ℓ → Option σ) (labels : List ℓ) (P : σ → Prop) [DecidablePred P]
    {init : σ → Prop} {s : σ} (hinit : init s)
    (htest : ((execAll f s labels).any fun s' => decide (P s')) = true) :
    ∃ s', Run init (fun s a s' => f s a = some s') labels s' ∧ P s' := by
  obtain ⟨s', hexec, htest⟩ := (Option.any_eq_true _ _).mp htest
  exact ⟨s', Run.execAll (.start hinit) hexec, of_decide_eq_true htest⟩

theorem exists_run_guarded (f : σ → ℓ → Option σ) (guard : σ → ℓ → Prop)
    [∀ s a, Decidable (guard s a)] (labels : List ℓ) (P : σ → Prop) [DecidablePred P]
    {init : σ → Prop} {s : σ} (hinit : init s)
    (htest : ((execAll (fun s a => if guard s a then f s a else none) s labels).any fun s' =>
      decide (P s')) = true) :
    ∃ s', Run init (fun s a s' => f s a = some s' ∧ guard s a) labels s' ∧ P s' := by
  obtain ⟨s', hexec, htest⟩ := (Option.any_eq_true _ _).mp htest
  exact ⟨s', Run.execAll_guarded hinit hexec, of_decide_eq_true htest⟩

section Results

variable {ο : Type*} {f : σ → ℓ → Option (ο × σ)} {g : τ → ℓ → Option (ο × τ)}

/-- Steps that are given by a function and have results, performed one after the other. -/
def runAll (f : σ → ℓ → Option (ο × σ)) : σ → List ℓ → Option (List ο × σ)
  | s, [] => some ([], s)
  | s, a :: labels => do
      let (out, s) ← f s a
      let (outs, s) ← runAll f s labels
      return (out :: outs, s)

/-- The refinement rule for such steps: whatever can be done with the one system can be done with
the other one, with the same results. -/
theorem runAll_refines {R : σ → τ → Prop}
    (hstep : ∀ s t a out t', R s t → g t a = some (out, t') →
      ∃ s', f s a = some (out, s') ∧ R s' t')
    {s : σ} {t t' : τ} {labels : List ℓ} {outs : List ο} (hrel : R s t)
    (hrun : runAll g t labels = some (outs, t')) :
    ∃ s', runAll f s labels = some (outs, s') ∧ R s' t' := by
  induction labels generalizing s t outs with
  | nil =>
      simp only [runAll, Option.some.injEq, Prod.mk.injEq] at hrun
      obtain ⟨rfl, rfl⟩ := hrun
      exact ⟨s, rfl, hrel⟩
  | cons a labels ih =>
      simp only [runAll, Option.bind_eq_bind, Option.bind_eq_some_iff, Option.pure_def,
        Option.some.injEq, Prod.mk.injEq] at hrun
      obtain ⟨⟨out, t₁⟩, hg, ⟨outs₁, t₂⟩, hrun₁, rfl, rfl⟩ := hrun
      obtain ⟨s₁, hf, hrel₁⟩ := hstep _ _ _ _ _ hrel hg
      obtain ⟨s', hrun', hrel'⟩ := ih hrel₁ hrun₁
      exact ⟨s', by simp [runAll, hf, hrun'], hrel'⟩

end Results

end Lts
