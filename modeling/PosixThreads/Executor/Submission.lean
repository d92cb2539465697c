import PosixThreads.Executor.ThreadPool

/-!
# The result of a submission

`executor_thread_pool_submit` returns that a task has been submitted unless the pool is not
running, whether the task has been added to the queue or not. What a failure leads to, by way of
`on_error`, comes after that and has no influence on the result.

A task that is in the queue stays there until a worker takes it, and no worker exits before.
-/

namespace PosixThreads

def ThreadPool.result (s : ThreadPool) : Option ExecutorSubmission :=
  match s.log.getLast? with
  | some (.submit _ result) => some result
  | _ => none

/-- The result of a submission tells whether the task has been added to the queue. -/
def ThreadPool.SubmitTruthful (s s' : ThreadPool) : Prop :=
  s'.result = some .submitted ∧ s'.tasks = s.tasks ++ [s.next] ∨
    s'.result = some .dropped ∧ s'.tasks = s.tasks

instance (s s' : ThreadPool) : Decidable (s.SubmitTruthful s') :=
  inferInstanceAs (Decidable (_ ∧ _ ∨ _ ∧ _))

/-- The node of a task that is submitted can be allocated if it is needed. -/
def PoolAction.HasRoom (s : ThreadPool) : PoolAction → Prop
  | .submit alloc _ => s.state ≠ .running ∨ alloc = true
  | _ => True

instance (s : ThreadPool) (act : PoolAction) : Decidable (act.HasRoom s) :=
  match act with
  | .submit alloc _ => inferInstanceAs (Decidable (s.state ≠ .running ∨ alloc = true))
  | .stopFailed | .shutdown | .setOnError _ | .enter _ | .finish _ _ _ => isTrue trivial

def ThreadPool.serves (s : ThreadPool) : List ℕ := s.tasks ++ workingTasks s.workers

def PoolAction.finishes (s : ThreadPool) : PoolAction → Option ℕ
  | .finish w _ _ => s.workers[w]?.bind Worker.task?
  | _ => none

section Steps

variable {s s' : ThreadPool} {act : PoolAction} {alloc : Bool} {woken : Option ℕ} {n w : ℕ}

inductive SubmitOutcome (s : ThreadPool) (alloc : Bool) (s' : ThreadPool) : Prop
  | rejected (hstate : s.state ≠ .running) (htasks : s'.tasks = s.tasks)
      (hresult : s'.result = some .dropped)
  | added (hstate : s.state = .running) (halloc : alloc = true)
      (htasks : s'.tasks = s.tasks ++ [s.next]) (hresult : s'.result = some .submitted)
  | lost (hstate : s.state = .running) (halloc : alloc = false) (htasks : s'.tasks = s.tasks)
      (hresult : s'.result = some .submitted)

theorem ThreadPool.submit_spec (h : s.submit alloc woken = some s') :
    SubmitOutcome s alloc s' ∧ (workingTasks s'.workers).Perm (workingTasks s.workers) := by
  simp only [ThreadPool.submit] at h
  split at h
  · rename_i hstate
    rw [← Option.some.inj h]
    exact ⟨.rejected hstate rfl (by simp [ThreadPool.result]), .refl _⟩
  · rename_i hstate
    rw [not_not] at hstate
    split at h
    · rename_i halloc
      split at h
      · obtain ⟨workers, rfl, -, hworking, -⟩ := ThreadPool.condSignal_spec h
        exact ⟨.added hstate halloc rfl (by simp [ThreadPool.result]), hworking⟩
      · rw [← Option.some.inj h]
        exact ⟨.added hstate halloc rfl (by simp [ThreadPool.result]), .refl _⟩
    · rename_i halloc
      rw [← Option.some.inj h]
      exact ⟨.lost hstate (by simpa using halloc) rfl (by simp [ThreadPool.result]), .refl _⟩

/-- A submission is truthful unless the pool is running and there is no memory. -/
theorem ThreadPool.submitTruthful_iff (h : s.submit alloc woken = some s') :
    s.SubmitTruthful s' ↔ s.state ≠ .running ∨ alloc = true := by
  cases (ThreadPool.submit_spec h).1 with
  | rejected hstate htasks hresult => exact iff_of_true (.inr ⟨hresult, htasks⟩) (.inl hstate)
  | added hstate halloc htasks hresult => exact iff_of_true (.inl ⟨hresult, htasks⟩) (.inr halloc)
  | lost hstate halloc htasks hresult =>
      refine iff_of_false ?_ (by simp [hstate, halloc])
      rintro (⟨-, hadded⟩ | ⟨hdropped, -⟩)
      · simp [htasks] at hadded
      · simp [hresult] at hdropped

theorem PoolInv.step_of_hasRoom (hinv : PoolInv s) (hroom : act.HasRoom s) (h : s.Step act s') :
    PoolInv s' := by
  cases act with
  | submit alloc woken =>
      have hsubmit : s.submit true woken = some s' := by
        rcases hroom with hstate | rfl
        · -- a pool that is not running does not ask for memory
          rw [← h]
          simp only [ThreadPool.step, ThreadPool.submit, if_pos hstate]
        · exact h
      exact hinv.step (rfl : (PoolAction.submit true woken).allocated = true) hsubmit
  | _ => exact hinv.step rfl h

theorem ThreadPool.serves_takeTask {old : Worker} (hw : s.workers[w]? = some old)
    (hold : old.task? = none) (hn : n ∈ s.serves) : n ∈ (s.takeTask w).serves := by
  rw [ThreadPool.serves, List.mem_append] at hn ⊢
  unfold ThreadPool.takeTask
  split
  · rename_i htasks
    have hworking : n ∈ workingTasks s.workers := by simpa [htasks] using hn
    split
    · exact .inr ((workingTasks_set_perm hw hold rfl).symm.subset hworking)
    · exact .inr ((workingTasks_set_perm hw hold rfl).symm.subset hworking)
  · rename_i task rest htasks
    obtain ⟨others, hbefore, hafter⟩ := workingTasks_set hw (.working task)
    rw [hold] at hbefore
    rw [htasks, List.mem_cons] at hn
    rcases hn with (rfl | hrest) | hworking
    · exact .inr (hafter.symm.subset List.mem_cons_self)
    · exact .inl hrest
    · exact .inr (hafter.symm.subset (List.mem_cons_of_mem _ (hbefore.subset hworking)))

theorem ThreadPool.serves_of_step (hstate : s.state ≠ .starting) (h : s.Step act s')
    (hn : n ∈ s.serves) (hfinishes : act.finishes s ≠ some n) : n ∈ s'.serves := by
  rw [ThreadPool.serves, List.mem_append] at hn ⊢
  cases act with
  | submit alloc woken =>
      obtain ⟨hout, hworking⟩ := ThreadPool.submit_spec h
      refine hn.imp (fun hqueue => ?_) fun hmem => hworking.symm.subset hmem
      cases hout with
      | rejected _ htasks | lost _ _ htasks =>
          rw [htasks]
          exact hqueue
      | added _ _ htasks =>
          rw [htasks]
          exact List.mem_append_left _ hqueue
  | stopFailed =>
      simp only [ThreadPool.Step, ThreadPool.step] at h
      split at h
      · rw [← Option.some.inj h]
        simpa [ThreadPool.shutdown, ThreadPool.condBroadcast, workingTasks_signal] using hn
      · simp at h
  | shutdown =>
      simp only [ThreadPool.Step, ThreadPool.step, Option.some.injEq] at h
      rw [← h]
      simpa [ThreadPool.shutdown, ThreadPool.condBroadcast, workingTasks_signal] using hn
  | setOnError onError =>
      simp only [ThreadPool.Step, ThreadPool.step, Option.some.injEq] at h
      rw [← h]
      exact hn
  | enter w =>
      obtain ⟨old, hw, hold, rfl⟩ := ThreadPool.enter_spec hstate h
      exact List.mem_append.mp (ThreadPool.serves_takeTask hw hold (List.mem_append.mpr hn))
  | finish w err onErrorResult =>
      simp only [ThreadPool.Step, ThreadPool.step, ThreadPool.finish] at h
      split at h
      · rename_i task hw
        split at h
        · obtain ⟨others, hbefore, hafter⟩ := workingTasks_set hw .locking
          rw [← Option.some.inj h]
          refine hn.imp_right fun hworking => hafter.symm.subset ?_
          -- it is not the task that ends
          have hne : n ≠ task := by
            rintro rfl
            exact hfinishes (by simp [PoolAction.finishes, hw, Worker.task?])
          exact (List.mem_cons.mp (hbefore.subset hworking)).resolve_left hne
        · simp at h
      · simp at h

end Steps

end PosixThreads
