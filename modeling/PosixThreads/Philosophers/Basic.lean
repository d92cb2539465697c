import Mathlib.Data.Int.Notation
import PosixThreads.Library.Locks
import PosixThreads.Library.Threads

/-!
# The philosophers

These are the threads of `worker_thread`. A step goes from one operation of a mutex to the next
one, and the step that takes the right fork begins to eat. The numbers of philosophers and of
dishes are parameters. Sleeping is left out, as it may take any time.

`food_store_take` goes down to -1 and stays there, which is what ends a thread.
-/

namespace PosixThreads

inductive PhilMutex
  | store
  | fork (id : ℕ)
  deriving DecidableEq, Repr

/-- What the philosophers share: the owners of the mutexes, `units` of the food store, and who has
begun to eat which dish so far. -/
structure Table (n : ℕ) where
  owner : PhilMutex → Option (Fin n)
  units : ℤ
  log : List (Fin n × ℤ)

/-- Where a philosopher is. The first three are in `food_store_take`: in front of its mutex, behind
it, and where it is given back. After that he has no fork, the left one, both, and the right one. -/
inductive Phase
  | fetching
  | taking
  | leaving (dish : ℤ)
  | hungry (dish : ℤ)
  | holding (dish : ℤ)
  | eating (dish : ℤ)
  | finishing
  | finished
  deriving DecidableEq, Repr

/-- `left_fork_id`. The last philosopher goes against the crowd. -/
def leftFork (n id : ℕ) : ℕ := if id + 1 = n then 0 else id

/-- `right_fork_id`. -/
def rightFork (n id : ℕ) : ℕ := if id + 1 = n then id else id + 1

namespace Table

variable {n : ℕ}

def lock (s : Table n) (t : Fin n) (m : PhilMutex) : Option (Table n) :=
  if s.owner m = none then some { s with owner := Function.update s.owner m (some t) } else none

def unlock (s : Table n) (m : PhilMutex) : Table n :=
  { s with owner := Function.update s.owner m none }

end Table

def workerStep {n : ℕ} (id : Fin n) (s : Table n) : Phase → Unit → Option (Table n × Phase)
  | .fetching, _ => (s.lock id .store).map fun s => (s, .taking)
  | .taking, _ =>
      let units := if s.units ≥ 0 then s.units - 1 else s.units
      some ({ s with units := units }, .leaving units)
  | .leaving dish, _ => some (s.unlock .store, if dish = -1 then .finished else .hungry dish)
  | .hungry dish, _ => (s.lock id (.fork (leftFork n id))).map fun s => (s, .holding dish)
  | .holding dish, _ =>
      (s.lock id (.fork (rightFork n id))).map fun s =>
        ({ s with log := s.log ++ [(id, dish)] }, .eating dish)
  | .eating _, _ => some (s.unlock (.fork (leftFork n id)), .finishing)
  | .finishing, _ => some (s.unlock (.fork (rightFork n id)), .fetching)
  | .finished, _ => none

abbrev Dinner (n : ℕ) := Threads.Config (Fin n) (Table n) Phase

/-- The philosophers are created, with `units` of food in the store. -/
def DinnerInit (n units : ℕ) (s : Dinner n) : Prop :=
  s.shared = ⟨fun _ => none, units, []⟩ ∧ s.pc = fun _ => .fetching

abbrev DinnerRun (n units : ℕ) : List (Fin n × Unit) → Dinner n → Prop :=
  Threads.Run (DinnerInit n units) workerStep

namespace Phase

def held (n id : ℕ) : Phase → Set PhilMutex
  | .taking => {.store}
  | .leaving _ => {.store}
  | .holding _ => {.fork (leftFork n id)}
  | .eating _ => {.fork (leftFork n id), .fork (rightFork n id)}
  | .finishing => {.fork (rightFork n id)}
  | _ => ∅

def wants (n id : ℕ) : Phase → Option PhilMutex
  | .fetching => some .store
  | .hungry _ => some (.fork (leftFork n id))
  | .holding _ => some (.fork (rightFork n id))
  | _ => none

end Phase

/-! ## One step -/

section Step

variable {n : ℕ} {id : Fin n} {s s' : Table n} {p p' : Phase}

theorem leftFork_lt_rightFork (hn : 2 ≤ n) (id : ℕ) : leftFork n id < rightFork n id := by
  unfold leftFork rightFork
  split <;> omega

theorem rightFork_lt (id : Fin n) : rightFork n id < n := by
  unfold rightFork
  have := id.isLt
  split <;> omega

theorem lock_eq_some {m : PhilMutex} : s.lock id m = some s' ↔
    s.owner m = none ∧ s' = { s with owner := Function.update s.owner m (some id) } := by
  rw [Table.lock]
  by_cases hfree : s.owner m = none
  · rw [if_pos hfree, Option.some.injEq]
    exact ⟨fun h => ⟨hfree, h.symm⟩, fun h => h.2.symm⟩
  · rw [if_neg hfree]
    exact ⟨by simp, fun h => absurd h.1 hfree⟩

/-- What a step does to the mutexes: one is locked that is free, or one is unlocked that is held, or
the philosopher does something else with the mutex of the store locked. -/
inductive Moves (id : Fin n) (s : Table n) (p : Phase) (s' : Table n) (p' : Phase) : Prop
  | locks {m : PhilMutex} (hfree : s.owner m = none) (hwants : p.wants n id = some m)
      (howner : s'.owner = Function.update s.owner m (some id))
      (hheld : ∀ k, k ∈ p'.held n id ↔ k = m ∨ k ∈ p.held n id)
  | unlocks {m : PhilMutex} (hm : m ∈ p.held n id)
      (howner : s'.owner = Function.update s.owner m none)
      (hheld : ∀ k, k ∈ p'.held n id ↔ k ∈ p.held n id ∧ k ≠ m)
  | keeps (howner : s'.owner = s.owner) (hheld : p'.held n id = p.held n id)

theorem workerStep_moves (hn : 2 ≤ n) (h : workerStep id s p () = some (s', p')) :
    Moves id s p s' p' := by
  have hforks : rightFork n id ≠ leftFork n id := (leftFork_lt_rightFork hn id).ne'
  cases p with
  | fetching =>
      obtain ⟨s₁, hlock, heq⟩ := Option.map_eq_some_iff.mp h
      obtain ⟨hfree, rfl⟩ := lock_eq_some.mp hlock
      cases heq
      exact .locks hfree rfl rfl (by simp [Phase.held])
  | taking =>
      cases h
      exact .keeps rfl rfl
  | leaving dish =>
      cases h
      refine .unlocks rfl rfl fun k => ?_
      split <;> simp [Phase.held]
  | hungry dish =>
      obtain ⟨s₁, hlock, heq⟩ := Option.map_eq_some_iff.mp h
      obtain ⟨hfree, rfl⟩ := lock_eq_some.mp hlock
      cases heq
      exact .locks hfree rfl rfl (by simp [Phase.held])
  | holding dish =>
      obtain ⟨s₁, hlock, heq⟩ := Option.map_eq_some_iff.mp h
      obtain ⟨hfree, rfl⟩ := lock_eq_some.mp hlock
      cases heq
      exact .locks hfree rfl rfl fun k => by simp [Phase.held, or_comm]
  | eating dish =>
      cases h
      refine .unlocks (.inl rfl) rfl fun k => ?_
      simp only [Phase.held, Set.mem_singleton_iff, Set.mem_insert_iff]
      constructor
      · rintro rfl
        exact ⟨.inr rfl, fun heq => hforks (PhilMutex.fork.inj heq)⟩
      · rintro ⟨h, hne⟩
        exact h.resolve_left hne
  | finishing =>
      cases h
      exact .unlocks rfl rfl (by simp [Phase.held])
  | finished => cases h

/-- A philosopher is blocked only in front of a mutex that has an owner. -/
theorem workerStep_eq_none (h : workerStep id s p () = none) (hp : p ≠ .finished) :
    ∃ m, p.wants n id = some m ∧ s.owner m ≠ none := by
  have hlock : ∀ m, s.lock id m = none → s.owner m ≠ none := by
    intro m hm hfree
    simp [Table.lock, hfree] at hm
  cases p with
  | fetching => exact ⟨_, rfl, hlock _ (Option.map_eq_none_iff.mp h)⟩
  | taking => cases h
  | leaving dish => cases h
  | hungry dish => exact ⟨_, rfl, hlock _ (Option.map_eq_none_iff.mp h)⟩
  | holding dish => exact ⟨_, rfl, hlock _ (Option.map_eq_none_iff.mp h)⟩
  | eating dish => cases h
  | finishing => cases h
  | finished => exact absurd rfl hp

end Step

/-! ## The mutexes in every run -/

variable {n units : ℕ} {hist : List (Fin n × Unit)} {s : Dinner n}

theorem owned_of_run (hn : 2 ≤ n) (hrun : DinnerRun n units hist s) :
    Locks.Owned s.shared.owner fun t => (s.pc t).held n t := by
  refine hrun.invariant (I := fun _ (s : Dinner n) =>
    Locks.Owned s.shared.owner fun t => (s.pc t).held n t) (fun s hinit => ?_)
    fun _ s label s' h hstep => ?_
  · rw [hinit.1, hinit.2]
    intro m t
    simp [Phase.held]
  · obtain ⟨sh, p, hmove, rfl⟩ := Threads.move_eq_some.mp hstep
    rw [Threads.update_comp (fun (t : Fin n) (p : Phase) => p.held n t)]
    cases workerStep_moves hn hmove with
    | locks hfree hwants howner hheld =>
        rw [howner]
        exact h.acquire hfree hheld
    | unlocks hm howner hheld =>
        rw [howner]
        exact h.release hm hheld
    | keeps howner hheld =>
        rw [howner]
        exact h.keep hheld

theorem not_eating_together (hn : 2 ≤ n) (hrun : DinnerRun n units hist s) {t u : Fin n}
    {dish dish' : ℤ} (ht : s.pc t = .eating dish) (hu : s.pc u = .eating dish') {f : ℕ}
    (hft : f = leftFork n t ∨ f = rightFork n t) (hfu : f = leftFork n u ∨ f = rightFork n u) :
    t = u := by
  have howned := owned_of_run hn hrun
  have hmem : ∀ {v : Fin n} {dish : ℤ}, s.pc v = .eating dish →
      (f = leftFork n v ∨ f = rightFork n v) → .fork f ∈ (s.pc v).held n v := by
    intro v dish hv hf
    rw [hv]
    rcases hf with rfl | rfl
    · exact .inl rfl
    · exact .inr rfl
  exact howned.unique (hmem ht hft) (hmem hu hfu)

/-! ## No deadlock -/

/-- Who waits for the store is behind those who have it, who waits for his left fork has none, and
forks are taken in the order of their numbers. -/
def Phase.rank (n id : ℕ) : Phase → ℕ
  | .fetching => 1
  | .hungry _ => n + 3
  | .holding _ => n + 2 - rightFork n id
  | _ => 0

theorem rank_lt {t u : Fin n} {p q : Phase} {m : PhilMutex} (hn : 2 ≤ n)
    (hp : p.wants n t = some m) (hq : m ∈ q.held n u) : q.rank n u < p.rank n t := by
  have hlt := leftFork_lt_rightFork hn u
  have hright := rightFork_lt t
  cases p <;> simp only [Phase.wants, Option.some.injEq, reduceCtorEq] at hp <;> subst hp <;>
    cases q <;>
    simp only [Phase.held, Set.mem_singleton_iff, Set.mem_insert_iff, Set.mem_empty_iff_false,
      reduceCtorEq, PhilMutex.fork.injEq, or_self] at hq <;>
    simp only [Phase.rank] <;> omega

/-- As long as not all of the philosophers have finished, one of them can go on. -/
theorem not_all_blocked (hn : 2 ≤ n) (hrun : DinnerRun n units hist s) :
    (∀ t, s.pc t = .finished) ∨ ∃ label s', Threads.move workerStep s label = some s' := by
  rw [or_iff_not_imp_left, not_forall]
  rintro ⟨t, ht⟩
  by_contra hblocked
  have howned := owned_of_run hn hrun
  have hdead : Locks.Deadlock (fun u m => m ∈ (s.pc u).held n u)
      (fun u m => (s.pc u).wants n u = some m) {u | s.pc u ≠ .finished} := by
    refine ⟨⟨t, ht⟩, fun u hu => ?_⟩
    obtain ⟨m, hwants, howner⟩ :=
      workerStep_eq_none (Threads.eq_none_of_blocked hblocked u ()) hu
    obtain ⟨v, hv⟩ := Option.ne_none_iff_exists'.mp howner
    have hholds : m ∈ (s.pc v).held n v := (howned m v).mp hv
    refine ⟨m, hwants, v, fun hfin => ?_, hholds⟩
    rw [hfin] at hholds
    exact hholds
  refine Locks.not_deadlock_of_rank (fun u => (s.pc u).rank n u) ?_ _ hdead
  intro u v m hwaits hholds
  exact rank_lt hn hwaits hholds

/-- Neighbours do not eat at the same time, and nobody ever waits in a circle: in every state that
is reached, somebody can go on as long as not all have finished. -/
theorem dinner_goes_on (hn : 2 ≤ n) (hrun : DinnerRun n units hist s) :
    (∀ t u dish dish' f, s.pc t = .eating dish → s.pc u = .eating dish' →
      (f = leftFork n t ∨ f = rightFork n t) → (f = leftFork n u ∨ f = rightFork n u) → t = u) ∧
      ((∀ t, s.pc t = .finished) ∨ ∃ label s', Threads.move workerStep s label = some s') :=
  ⟨fun _ _ _ _ _ ht hu => not_eating_together hn hrun ht hu, not_all_blocked hn hrun⟩

/-- Everybody at a table of five has a dish, and all but the last one hold their left forks. -/
def crowd : List (Fin 5 × Unit) :=
  [0, 0, 0, 0, 1, 1, 1, 1, 2, 2, 2, 2, 3, 3, 3, 3, 4, 4, 4].map fun t => (t, ())

theorem dinner_goes_on_crowd : ∃ s, DinnerRun 5 50 crowd s ∧
    (∀ t u dish dish' f, s.pc t = .eating dish → s.pc u = .eating dish' →
      (f = leftFork 5 t ∨ f = rightFork 5 t) → (f = leftFork 5 u ∨ f = rightFork 5 u) → t = u) ∧
      ((∀ t, s.pc t = .finished) ∨ ∃ label s', Threads.move workerStep s label = some s') := by
  have hinit : DinnerInit 5 50 ⟨⟨fun _ => none, 50, []⟩, fun _ => .fetching⟩ := ⟨rfl, rfl⟩
  obtain ⟨s, hrun, -⟩ := Lts.exists_run (Threads.move workerStep) crowd
    (fun s => s.pc 3 = .holding 46 ∧ s.pc 4 = .hungry 45) hinit (by decide)
  exact ⟨s, hrun, dinner_goes_on (by decide) hrun⟩

end PosixThreads
