import Mathlib.Data.Fintype.BigOperators
import Mathlib.Data.List.Nodup
import PosixThreads.Library.Locks
import PosixThreads.Library.Threads

/-!
# The resources of the thread-per-connection proxy

The thread of every client asks the manager for a resource by its name. The one that asks for a name
first makes the resource and then the thread that downloads it. The mutex is locked for the look at
the table and for the change of it, and not any more when a client gets what it has found there.

An access to the table or to `server_tids` is taken for one step. Behind the unlocking nothing keeps
a `get` from a `put`, or a `push_back` from another one, and what comes of such an overlap C++ does
not say.

`pthread_create` returns the number of an error, which is not negative. The manager looks for a
negative one.
-/

namespace PosixThreads

namespace MultithreadProxy

/-- What the clients share of `CachingResourceManager`: the mutex, the table, and the length of
`server_tids`. Resources are numbered in the order in which they are made. There are those whose
server has been created and those for which it could not be, and what `getResource` has returned so
far. -/
structure Manager (T N : Type*) where
  mutex : Option T
  table : N → Option ℕ
  made : ℕ
  serverTids : ℕ
  servers : List ℕ
  failed : List ℕ
  answers : List (N × Option ℕ)

/-- Where a client is in `getResource`: behind `contains` it is in front of the unlocking and of
`get`, or in front of `put`, of the unlocking, of `pthread_create` and of `push_back`. -/
inductive ManagerPlace (N : Type*)
  | outside
  | locking (name : N)
  | looking (name : N)
  | unlocking (name : N)
  | getting (name : N)
  | putting (name : N)
  | leaving (name : N) (res : ℕ)
  | creating (name : N) (res : ℕ)
  | adding (name : N) (res : ℕ)
  deriving DecidableEq, Repr

/-- The next accesses of two clients are to the same thing, and one of them changes it. -/
def ManagerPlace.Conflicts {N : Type*} : ManagerPlace N → ManagerPlace N → Prop
  | .looking _, .putting _ | .putting _, .looking _ | .putting _, .putting _ => True
  | .getting _, .putting _ | .putting _, .getting _ | .adding _ _, .adding _ _ => True
  | _, _ => False

/-- A client asks for a resource, or it goes on. The number is what `pthread_create` returns. -/
inductive ManagerLabel (N : Type*)
  | ask (name : N)
  | go (code : ℕ)
  deriving DecidableEq, Repr

section Code

variable {T N : Type*} [DecidableEq N]

def Manager.answer (s : Manager T N) (name : N) (res : Option ℕ) : Manager T N :=
  { s with answers := s.answers ++ [(name, res)] }

/-- `pthread_create`, and the look at what it returns. -/
def Manager.createServer (s : Manager T N) (name : N) (res code : ℕ) :
    Manager T N × ManagerPlace N :=
  let s :=
    if code = 0 then { s with servers := s.servers ++ [res] }
    else { s with failed := s.failed ++ [res] }
  if (code : ℤ) < 0 then (s.answer name none, .outside) else (s, .adding name res)

/-- A step of `getResource`, in which nobody else is at the table or at `server_tids`. There is none
from a `get` that throws. -/
def managerStep (t : T) (s : Manager T N) :
    ManagerPlace N → ManagerLabel N → Option (Manager T N × ManagerPlace N)
  | .outside, .ask name => some (s, .locking name)
  | .outside, .go _ => none
  | .locking name, .go _ =>
      if s.mutex.isNone then some ({ s with mutex := some t }, .looking name) else none
  | .looking name, .go _ =>
      some (s, if (s.table name).isSome then .unlocking name else .putting name)
  | .unlocking name, .go _ => some ({ s with mutex := none }, .getting name)
  | .getting name, .go _ =>
      (s.table name).map fun res => (s.answer name (some res), .outside)
  | .putting name, .go _ =>
      some ({ s with
        table := Function.update s.table name (some s.made)
        made := s.made + 1 }, .leaving name s.made)
  | .leaving name res, .go _ => some ({ s with mutex := none }, .creating name res)
  | .creating name res, .go code => some (s.createServer name res code)
  | .adding name res, .go _ =>
      some ({ s.answer name (some res) with serverTids := s.serverTids + 1 }, .outside)
  | _, .ask _ => none

end Code

abbrev ManagerConfig (T N : Type*) := Threads.Config T (Manager T N) (ManagerPlace N)

def ManagerInit {T N : Type*} (s : ManagerConfig T N) : Prop :=
  s = ⟨⟨none, fun _ => none, 0, 0, [], [], []⟩, fun _ => .outside⟩

abbrev ManagerRun (T N : Type*) [DecidableEq T] [DecidableEq N] :
    List (T × ManagerLabel N) → ManagerConfig T N → Prop :=
  Threads.Run ManagerInit managerStep

/-- Whoever asks for a name gets the one resource of this name, and no `get` throws. At most one
server is created for a resource. When all calls have returned, it is exactly the resources for
which `pthread_create` has failed that have none, though the clients have got them. As long as a
call has not returned, one of them can go on. Only a `get` and a `push_back` can overlap with what
another client does. -/
structure ManagerSound {T N : Type*} [DecidableEq N] (s : ManagerConfig T N) : Prop where
  answers : ∀ answer ∈ s.shared.answers,
    answer.2.isSome = true ∧ s.shared.table answer.1 = answer.2
  apart : ∀ name name' res, s.shared.table name = some res → s.shared.table name' = some res →
    name = name'
  found : ∀ t name, s.pc t = .getting name → (s.shared.table name).isSome = true
  once : (s.shared.servers ++ s.shared.failed).Nodup
  settled : (∀ t, s.pc t = .outside) → s.shared.serverTids = s.shared.made ∧
    ∀ name res, s.shared.table name = some res → (res ∉ s.shared.servers ↔ res ∈ s.shared.failed)
  goesOn : (∃ t, s.pc t ≠ .outside) →
    ∃ t, s.pc t ≠ .outside ∧ ∀ code, (managerStep t s.shared (s.pc t) (.go code)).isSome = true
  conflicts : ∀ t u, t ≠ u → (s.pc t).Conflicts (s.pc u) →
    (∃ name, s.pc t = .getting name ∨ s.pc u = .getting name) ∨
      ∃ name res, s.pc t = .adding name res

namespace ManagerPlace

variable {N : Type*}

def Holds : ManagerPlace N → Prop
  | .looking _ | .unlocking _ | .putting _ | .leaving _ _ => True
  | _ => False

def owes (res : ℕ) : ManagerPlace N → ℕ
  | .leaving _ res' | .creating _ res' => if res' = res then 1 else 0
  | _ => 0

def makes : ManagerPlace N → ℕ
  | .leaving _ _ | .creating _ _ | .adding _ _ => 1
  | _ => 0

def Knows (table : N → Option ℕ) : ManagerPlace N → Prop
  | .unlocking name | .getting name => (table name).isSome = true
  | .putting name => table name = none
  | .leaving name res | .creating name res | .adding name res => table name = some res
  | _ => True

end ManagerPlace

section Step

variable {T N : Type*} [DecidableEq N] {t : T} {s s' : Manager T N} {p p' : ManagerPlace N}

inductive ManagerMoves (t : T) (s : Manager T N) :
    ManagerPlace N → Manager T N → ManagerPlace N → Prop
  | ask {name : N} : ManagerMoves t s .outside s (.locking name)
  | lock {name : N} (hfree : s.mutex = none) :
      ManagerMoves t s (.locking name) { s with mutex := some t } (.looking name)
  | found {name : N} (hfound : (s.table name).isSome = true) :
      ManagerMoves t s (.looking name) s (.unlocking name)
  | missing {name : N} (hmissing : s.table name = none) :
      ManagerMoves t s (.looking name) s (.putting name)
  | unlock {name : N} :
      ManagerMoves t s (.unlocking name) { s with mutex := none } (.getting name)
  | get {name : N} {res : ℕ} (hget : s.table name = some res) :
      ManagerMoves t s (.getting name) (s.answer name (some res)) .outside
  | put {name : N} :
      ManagerMoves t s (.putting name)
        { s with
          table := Function.update s.table name (some s.made)
          made := s.made + 1 } (.leaving name s.made)
  | leave {name : N} {res : ℕ} :
      ManagerMoves t s (.leaving name res) { s with mutex := none } (.creating name res)
  | create {name : N} {res : ℕ} :
      ManagerMoves t s (.creating name res) { s with servers := s.servers ++ [res] }
        (.adding name res)
  | fail {name : N} {res : ℕ} :
      ManagerMoves t s (.creating name res) { s with failed := s.failed ++ [res] }
        (.adding name res)
  | add {name : N} {res : ℕ} :
      ManagerMoves t s (.adding name res)
        { s.answer name (some res) with serverTids := s.serverTids + 1 } .outside

/-- No number of an error is negative. -/
theorem createServer_moves (name : N) (res code : ℕ) :
    ManagerMoves t s (.creating name res) (s.createServer name res code).1
      (s.createServer name res code).2 := by
  have hcode : ¬(code : ℤ) < 0 := by omega
  by_cases hzero : code = 0
  · simp only [Manager.createServer, if_pos hzero, if_neg hcode]
    exact .create
  · simp only [Manager.createServer, if_neg hzero, if_neg hcode]
    exact .fail

theorem managerStep_moves {label : ManagerLabel N}
    (h : managerStep t s p label = some (s', p')) : ManagerMoves t s p s' p' := by
  cases p with
  | outside =>
      cases label with
      | go code => cases h
      | ask name =>
          cases h
          exact .ask
  | locking name =>
      cases label with
      | ask name' => cases h
      | go code =>
          simp only [managerStep] at h
          split at h
          · cases h
            exact .lock (Option.isNone_iff_eq_none.mp ‹_›)
          · cases h
  | looking name =>
      cases label with
      | ask name' => cases h
      | go code =>
          cases h
          by_cases hsome : (s.table name).isSome = true
          · rw [if_pos hsome]
            exact .found hsome
          · rw [if_neg hsome]
            exact .missing (Option.not_isSome_iff_eq_none.mp hsome)
  | unlocking name =>
      cases label with
      | ask name' => cases h
      | go code =>
          cases h
          exact .unlock
  | getting name =>
      cases label with
      | ask name' => cases h
      | go code =>
          obtain ⟨res, hget, heq⟩ := Option.map_eq_some_iff.mp h
          cases heq
          exact .get hget
  | putting name =>
      cases label with
      | ask name' => cases h
      | go code =>
          cases h
          exact .put
  | leaving name res =>
      cases label with
      | ask name' => cases h
      | go code =>
          cases h
          exact .leave
  | creating name res =>
      cases label with
      | ask name' => cases h
      | go code =>
          cases h
          exact createServer_moves name res code
  | adding name res =>
      cases label with
      | ask name' => cases h
      | go code =>
          cases h
          exact .add

theorem ManagerMoves.mutex (h : ManagerMoves t s p s' p') :
    s'.mutex = s.mutex ∧ (p'.Holds ↔ p.Holds) ∨ (s.mutex = none ∧ s'.mutex = some t ∧ p'.Holds) ∨
      p.Holds ∧ s'.mutex = none ∧ ¬p'.Holds := by
  cases h with
  | lock hfree => exact .inr (.inl ⟨hfree, rfl, trivial⟩)
  | unlock | leave => exact .inr (.inr ⟨trivial, rfl, id⟩)
  | ask | found | missing | get | put | create | fail | add => exact .inl ⟨rfl, Iff.rfl⟩

/-- A resource is put in by the client that has the mutex, or the table is left as it is. -/
theorem ManagerMoves.table (h : ManagerMoves t s p s' p') :
    s'.table = s.table ∧ s'.made = s.made ∨
      ∃ name, p = .putting name ∧ p' = .leaving name s.made ∧ s'.made = s.made + 1 ∧
        s'.table = Function.update s.table name (some s.made) := by
  cases h with
  | put => exact .inr ⟨_, rfl, rfl, rfl, rfl⟩
  | ask | lock | found | missing | unlock | get | leave | create | fail | add =>
      exact .inl ⟨rfl, rfl⟩

theorem ManagerMoves.knows (h : ManagerMoves t s p s' p') (hknows : p.Knows s.table) :
    p'.Knows s'.table := by
  cases h with
  | put => exact Function.update_self _ _ _
  | found hfound => exact hfound
  | missing hmissing => exact hmissing
  | ask | lock | get | add => trivial
  | unlock | leave | create | fail => exact hknows

theorem ManagerMoves.answers (h : ManagerMoves t s p s' p') (hknows : p.Knows s.table) :
    ∀ answer ∈ s'.answers, answer ∈ s.answers ∨
      answer.2.isSome = true ∧ s'.table answer.1 = answer.2 := by
  cases h with
  | get hget =>
      intro answer hanswer
      rcases List.mem_append.mp hanswer with hold | hnew
      · exact .inl hold
      · obtain rfl := List.mem_singleton.mp hnew
        exact .inr ⟨rfl, hget⟩
  | add =>
      intro answer hanswer
      rcases List.mem_append.mp hanswer with hold | hnew
      · exact .inl hold
      · obtain rfl := List.mem_singleton.mp hnew
        exact .inr ⟨rfl, hknows⟩
  | ask | lock | found | missing | unlock | put | leave | create | fail => exact fun _ => .inl

/-- Every resource that has been made is served, has failed, or is owed. -/
theorem ManagerMoves.owes (h : ManagerMoves t s p s' p') (res : ℕ) :
    s'.servers.count res + s'.failed.count res + p'.owes res +
        (if res < s.made then 1 else 0) =
      s.servers.count res + s.failed.count res + p.owes res +
        if res < s'.made then 1 else 0 := by
  cases h with
  | put =>
      simp only [ManagerPlace.owes]
      split_ifs <;> omega
  | create | fail =>
      simp only [ManagerPlace.owes, List.count_append, List.count_singleton, beq_iff_eq]
      split_ifs <;> omega
  | ask | lock | found | missing | unlock | get | leave | add => rfl

theorem ManagerMoves.makes (h : ManagerMoves t s p s' p') :
    s'.serverTids + p'.makes + s.made = s.serverTids + p.makes + s'.made := by
  cases h with
  | put =>
      simp only [ManagerPlace.makes]
      omega
  | add =>
      simp only [ManagerPlace.makes, Manager.answer]
  | ask | lock | found | missing | unlock | get | leave | create | fail => rfl

end Step

/-! ## Every run -/

structure ManagerInv {T N : Type*} [DecidableEq T] [Fintype T] [DecidableEq N]
    (s : ManagerConfig T N) : Prop where
  mutex : ∀ t, s.shared.mutex = some t ↔ (s.pc t).Holds
  knows : ∀ t, (s.pc t).Knows s.shared.table
  below : ∀ name res, s.shared.table name = some res → res < s.shared.made
  apart : ∀ name name' res, s.shared.table name = some res → s.shared.table name' = some res →
    name = name'
  answers : ∀ answer ∈ s.shared.answers,
    answer.2.isSome = true ∧ s.shared.table answer.1 = answer.2
  owed : ∀ res, s.shared.servers.count res + s.shared.failed.count res +
    ∑ t, (s.pc t).owes res = if res < s.shared.made then 1 else 0
  added : s.shared.serverTids + ∑ t, (s.pc t).makes = s.shared.made

section Runs

variable {T N : Type*} [DecidableEq T] [Fintype T] [DecidableEq N] {s s' : ManagerConfig T N}

theorem ManagerInv.start (h : ManagerInit s) : ManagerInv s := by
  obtain rfl := h
  refine ⟨fun t => ?_, fun t => trivial, fun _ _ h => (by cases h), fun _ _ _ h => (by cases h),
    fun _ h => (by cases h), fun res => ?_, ?_⟩
  · exact iff_of_false (by simp) id
  · simp [ManagerPlace.owes]
  · simp [ManagerPlace.makes]

theorem ManagerInv.knows_at (h : ManagerInv s) {t : T} {p : ManagerPlace N} (hp : s.pc t = p) :
    p.Knows s.shared.table := hp ▸ h.knows t

theorem ManagerInv.alone (h : ManagerInv s) {t u : T} (ht : (s.pc t).Holds)
    (hu : (s.pc u).Holds) : u = t :=
  Option.some.inj (((h.mutex u).mpr hu).symm.trans ((h.mutex t).mpr ht))

/-- The entry that is put in is new, and so nobody knows anything else of it. -/
theorem ManagerInv.put (h : ManagerInv s) {t u : T} {name : N} (hp : s.pc t = .putting name)
    (hu : u ≠ t) :
    (s.pc u).Knows (Function.update s.shared.table name (some s.shared.made)) := by
  have hnone : s.shared.table name = none := h.knows_at hp
  have hholds : (s.pc t).Holds := by
    rw [hp]
    trivial
  have hother : ¬(s.pc u).Holds := fun hheld => hu (h.alone hholds hheld)
  have hsame : ∀ name' res, s.shared.table name' = some res →
      Function.update s.shared.table name (some s.shared.made) name' = some res := by
    intro name' res hsome
    rw [Function.update_of_ne, hsome]
    rintro rfl
    rw [hnone] at hsome
    cases hsome
  have hknows := h.knows u
  cases hpc : s.pc u with
  | outside | locking name' | looking name' => trivial
  | putting name' | unlocking name' | leaving name' res =>
      rw [hpc] at hother
      exact absurd trivial hother
  | getting name' =>
      rw [hpc] at hknows
      obtain ⟨res, hres⟩ := Option.isSome_iff_exists.mp hknows
      exact Option.isSome_iff_exists.mpr ⟨res, hsame name' res hres⟩
  | creating name' res | adding name' res =>
      rw [hpc] at hknows
      exact hsame name' res hknows

theorem ManagerInv.below_table (h : ManagerInv s) {t : T} {sh : Manager T N} {p : ManagerPlace N}
    (hmoves : ManagerMoves t s.shared (s.pc t) sh p) (name : N) (res : ℕ)
    (hres : sh.table name = some res) : res < sh.made := by
  rcases hmoves.table with ⟨htable, hmade⟩ | ⟨name', -, -, hmade, htable⟩
  · rw [hmade]
    exact h.below name res (htable ▸ hres)
  · rw [htable, Function.update_apply] at hres
    rw [hmade]
    split_ifs at hres
    · cases hres
      exact Nat.lt_succ_self _
    · exact Nat.lt_succ_of_lt (h.below name res hres)

theorem ManagerInv.apart_table (h : ManagerInv s) {t : T} {sh : Manager T N} {p : ManagerPlace N}
    (hmoves : ManagerMoves t s.shared (s.pc t) sh p) (name name' : N) (res : ℕ)
    (hres : sh.table name = some res) (hres' : sh.table name' = some res) : name = name' := by
  rcases hmoves.table with ⟨htable, -⟩ | ⟨new, -, -, -, htable⟩
  · rw [htable] at hres hres'
    exact h.apart name name' res hres hres'
  · rw [htable, Function.update_apply] at hres hres'
    -- the number of the new resource is that of no other one
    split_ifs at hres hres' with hname hname' hname'
    · exact hname.trans hname'.symm
    · cases hres
      exact absurd (h.below name' _ hres') (Nat.lt_irrefl _)
    · cases hres'
      exact absurd (h.below name _ hres) (Nat.lt_irrefl _)
    · exact h.apart name name' res hres hres'

theorem ManagerInv.answers_table (h : ManagerInv s) {t : T} {sh : Manager T N} {p : ManagerPlace N}
    (hmoves : ManagerMoves t s.shared (s.pc t) sh p) {answer : N × Option ℕ}
    (hanswer : answer.2.isSome = true ∧ s.shared.table answer.1 = answer.2) :
    answer.2.isSome = true ∧ sh.table answer.1 = answer.2 := by
  refine ⟨hanswer.1, ?_⟩
  rcases hmoves.table with ⟨htable, -⟩ | ⟨name, hp, -, -, htable⟩
  · rw [htable, hanswer.2]
  · have hnone : s.shared.table name = none := h.knows_at hp
    have hne : answer.1 ≠ name := by
      intro heq
      rw [← hanswer.2, heq, hnone] at hanswer
      exact absurd hanswer.1 (by simp)
    rw [htable, Function.update_of_ne hne, hanswer.2]

theorem ManagerInv.step (h : ManagerInv s) {label : T × ManagerLabel N}
    (hstep : Threads.move managerStep s label = some s') : ManagerInv s' := by
  obtain ⟨sh, p, hf, rfl⟩ := Threads.move_eq_some.mp hstep
  obtain ⟨t, label⟩ := label
  have hmoves := managerStep_moves hf
  have hknows : ∀ u, (Function.update s.pc t p u).Knows sh.table := by
    intro u
    by_cases hu : u = t
    · rw [hu, Function.update_self]
      exact hmoves.knows (h.knows t)
    · rw [Function.update_of_ne hu]
      rcases hmoves.table with ⟨htable, -⟩ | ⟨name, hp, -, -, htable⟩
      · rw [htable]
        exact h.knows u
      · rw [htable]
        exact h.put hp hu
  refine ⟨fun u => ?_, hknows, ?_, ?_, ?_, fun res => ?_, ?_⟩
  · have hlock := Locks.mutex_update h.mutex hmoves.mutex u
    by_cases hu : u = t
    · subst hu
      simpa using hlock
    · simpa [Function.update_of_ne hu] using hlock
  · exact h.below_table hmoves
  · exact h.apart_table hmoves
  · intro answer hanswer
    rcases hmoves.answers (h.knows t) answer hanswer with hold | hnew
    · exact h.answers_table hmoves (h.answers answer hold)
    · exact hnew
  · have hsum := Threads.sum_update (fun _ p => ManagerPlace.owes res p) s.pc t p
    have howed := h.owed res
    have howes := hmoves.owes res
    simp only at howes ⊢
    omega
  · have hsum := Threads.sum_update (fun _ p => ManagerPlace.makes p) s.pc t p
    have hadded := h.added
    have hmakes := hmoves.makes
    simp only at hmakes ⊢
    omega

theorem ManagerInv.go (h : ManagerInv s) {t : T} (hne : s.pc t ≠ .outside)
    (hlock : ∀ name, s.pc t = .locking name → s.shared.mutex = none) (code : ℕ) :
    (managerStep t s.shared (s.pc t) (.go code)).isSome = true := by
  have hknows := h.knows t
  cases hp : s.pc t with
  | outside => exact absurd hp hne
  | locking name => simp [managerStep, hlock name hp]
  | getting name =>
      rw [hp] at hknows
      rw [managerStep, Option.isSome_map]
      exact hknows
  | looking name | unlocking name | putting name => rfl
  | leaving name res | creating name res | adding name res => rfl

theorem ManagerInv.goesOn (h : ManagerInv s) (hcall : ∃ t, s.pc t ≠ .outside) :
    ∃ t, s.pc t ≠ .outside ∧
      ∀ code, (managerStep t s.shared (s.pc t) (.go code)).isSome = true := by
  cases hmutex : s.shared.mutex with
  | none =>
      obtain ⟨t, hne⟩ := hcall
      exact ⟨t, hne, h.go hne fun _ _ => hmutex⟩
  | some u =>
      have hholds : (s.pc u).Holds := (h.mutex u).mp hmutex
      refine ⟨u, fun hout => ?_, h.go (fun hout => ?_) fun name hp => ?_⟩
      · exact (hout ▸ hholds : ManagerPlace.Holds (.outside : ManagerPlace N))
      · exact (hout ▸ hholds : ManagerPlace.Holds (.outside : ManagerPlace N))
      · exact ((hp ▸ hholds : ManagerPlace.Holds (.locking name))).elim

theorem ManagerInv.conflicts (h : ManagerInv s) {t u : T} (hne : t ≠ u)
    (hconflicts : (s.pc t).Conflicts (s.pc u)) :
    (∃ name, s.pc t = .getting name ∨ s.pc u = .getting name) ∨
      ∃ name res, s.pc t = .adding name res := by
  have halone : ¬((s.pc t).Holds ∧ (s.pc u).Holds) := fun hboth => hne (h.alone hboth.2 hboth.1)
  cases ht : s.pc t with
  | getting name => exact .inl ⟨name, .inl rfl⟩
  | adding name res => exact .inr ⟨name, res, rfl⟩
  | looking name | putting name =>
      rw [ht] at hconflicts halone
      cases hu : s.pc u with
      | getting name' => exact .inl ⟨name', .inr rfl⟩
      | looking name' | putting name' =>
          rw [hu] at halone
          exact absurd ⟨trivial, trivial⟩ halone
      | outside | locking | unlocking | leaving | creating | adding =>
          rw [hu] at hconflicts
          exact hconflicts.elim
  | outside | locking | unlocking | leaving | creating =>
      rw [ht] at hconflicts
      cases hu : s.pc u <;> rw [hu] at hconflicts <;> exact hconflicts.elim

/-- Any number of clients that ask for whatever they like, and any answers of `pthread_create`. -/
theorem managerSound_of_run {hist : List (T × ManagerLabel N)} (hrun : ManagerRun T N hist s) :
    ManagerSound s := by
  have h : ManagerInv s :=
    hrun.invariant (I := fun _ s => ManagerInv s) (fun _ => .start)
      fun _ _ _ _ h hstep => h.step hstep
  refine ⟨h.answers, h.apart, fun t name hp => ?_, ?_, fun hout => ?_, h.goesOn,
    fun t u hne => h.conflicts hne⟩
  · exact h.knows_at hp
  · refine List.nodup_iff_count_le_one.mpr fun res => ?_
    have howed := h.owed res
    rw [List.count_append]
    split_ifs at howed <;> omega
  · have hadded := h.added
    simp only [hout, ManagerPlace.makes, Finset.sum_const_zero] at hadded
    refine ⟨hadded, fun name res htable => ?_⟩
    have howed := h.owed res
    simp only [hout, ManagerPlace.owes, Finset.sum_const_zero,
      if_pos (h.below name res htable)] at howed
    rw [← List.count_eq_zero, ← List.count_pos_iff]
    omega

end Runs

/-- While a client creates the server of a resource, another one finds the resource. The server
cannot be created. -/
def noServer : List (Fin 2 × ManagerLabel ℕ) :=
  let first : Fin 2 := ⟨0, Nat.zero_lt_two⟩
  let second : Fin 2 := ⟨1, Nat.one_lt_two⟩
  (first, .ask 7) :: List.replicate 4 (first, .go 0) ++
    (second, .ask 7) :: List.replicate 4 (second, .go 0) ++ [(first, .go 11), (first, .go 0)]

theorem managerSound_noServer : ∃ s, ManagerRun (Fin 2) ℕ noServer s ∧
    s.shared.answers = [(7, some 0), (7, some 0)] ∧ s.shared.servers = [] ∧
    s.shared.failed = [0] ∧ ManagerSound s := by
  have hinit : ManagerInit (⟨⟨none, fun _ => none, 0, 0, [], [], []⟩, fun _ => .outside⟩ :
      ManagerConfig (Fin 2) ℕ) := rfl
  obtain ⟨s, hrun, hanswers, hservers, hfailed⟩ := Lts.exists_run (Threads.move managerStep)
    noServer (fun s => s.shared.answers = [(7, some 0), (7, some 0)] ∧ s.shared.servers = [] ∧
      s.shared.failed = [0]) hinit (by decide +kernel)
  exact ⟨s, hrun, hanswers, hservers, hfailed, managerSound_of_run hrun⟩

/-- A client gets what it has found while another one puts in what it has not, and two clients add
the threads of their servers to the list. -/
theorem managerRun_conflicts : ∃ t u : Fin 2, t ≠ u ∧
    (∃ hist s, ManagerRun (Fin 2) ℕ hist s ∧ s.pc t = .getting 7 ∧ s.pc u = .putting 8) ∧
    ∃ hist s, ManagerRun (Fin 2) ℕ hist s ∧ s.pc t = .adding 7 0 ∧ s.pc u = .adding 8 1 := by
  have hinit : ManagerInit (⟨⟨none, fun _ => none, 0, 0, [], [], []⟩, fun _ => .outside⟩ :
      ManagerConfig (Fin 2) ℕ) := rfl
  let first : Fin 2 := ⟨0, Nat.zero_lt_two⟩
  let second : Fin 2 := ⟨1, Nat.one_lt_two⟩
  let asks (t : Fin 2) (name steps : ℕ) : List (Fin 2 × ManagerLabel ℕ) :=
    (t, .ask name) :: List.replicate steps (t, .go 0)
  obtain ⟨s, hrun, hplaces⟩ := Lts.exists_run (Threads.move managerStep)
    (asks first 7 6 ++ asks first 7 3 ++ asks second 8 2)
    (fun s => s.pc first = .getting 7 ∧ s.pc second = .putting 8) hinit (by decide +kernel)
  obtain ⟨s', hrun', hplaces'⟩ := Lts.exists_run (Threads.move managerStep)
    (asks first 7 5 ++ asks second 8 5)
    (fun s => s.pc first = .adding 7 0 ∧ s.pc second = .adding 8 1) hinit (by decide +kernel)
  exact ⟨first, second, by decide, ⟨_, s, hrun, hplaces⟩, _, s', hrun', hplaces'⟩

end MultithreadProxy

end PosixThreads
