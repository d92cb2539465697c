import Mathlib.Algebra.Order.Ring.Nat
import Mathlib.Tactic.Tauto
import PosixThreads.CopyTree.Basic

/-!
# The tasks of the copying threads

A task is in the queue, in the hand of the main thread, among those that the thread of its directory
still has to put in the queue, or it has a thread of its own. Every path has one task at most, and
its directory comes before it.
-/

namespace PosixThreads

namespace CopyTree

/-- What is counted over a list changes by what it changes for one element. -/
theorem sum_map_set {α : Type*} (f : α → ℕ) {l : List α} {i : ℕ} {a : α} (h : l[i]? = some a)
    (b : α) : ((l.set i b).map f).sum + f a = (l.map f).sum + f b := by
  induction l generalizing i with
  | nil => simp at h
  | cons x l ih =>
      cases i with
      | zero =>
          obtain rfl : x = a := by simpa using h
          simp only [List.set_cons_zero, List.map_cons, List.sum_cons]
          omega
      | succ i =>
          have hl := ih (i := i) (by simpa using h)
          simp only [List.set_cons_succ, List.map_cons, List.sum_cons]
          omega

variable {N : Type}

def CopyPc.children : CopyPc N → List (CopyTask N)
  | .openingDir children | .makingDir children | .pushing children | .counting children => children
  | _ => []

/-- A task has been put in the queue and not been counted. -/
def CopyPc.counts : CopyPc N → ℕ
  | .counting _ => 1
  | _ => 0

def MainPc.tasks : MainPc N → List (CopyTask N)
  | .uncounting task | .looking task | .listing task => [task]
  | .creating task children => task :: children
  | _ => []

/-- A task has been taken from the queue and is still counted. -/
def MainPc.counts : MainPc N → ℕ
  | .uncounting _ => 1
  | _ => 0

/-- The tasks among them that `expected_tasks` counts. -/
def MainPc.outstanding : MainPc N → ℕ
  | .uncounting _ | .looking _ | .listing _ => 1
  | .creating _ children => children.length
  | _ => 0

def MainPc.inLoop : MainPc N → Bool
  | .freeing | .exited => false
  | _ => true

def CopyState.Started (s : CopyState N) (path : List N) : Prop :=
  path ∈ s.threads.map CopyThread.path ∨
    ∃ type children, s.main = .creating ⟨type, path⟩ children

section Known

variable [DecidableEq N]

def paths (tasks : List (CopyTask N)) : List (List N) := tasks.map CopyTask.path

def CopyThread.knows (path : List N) (t : CopyThread N) : ℕ :=
  (if t.path = path then 1 else 0) + (paths t.pc.children).count path

def CopyState.known (s : CopyState N) (path : List N) : ℕ :=
  (s.threads.map (CopyThread.knows path)).sum + (paths s.queue).count path +
    (paths s.main.tasks).count path

end Known

/-- A task that is in the queue, in a hand, or still to come. -/
def CopyState.Waiting (s : CopyState N) (task : CopyTask N) : Prop :=
  task ∈ s.queue ∨ task ∈ s.main.tasks ∨ ∃ t ∈ s.threads, task ∈ t.pc.children

/-! ## What a step does -/

section Moves

variable [DecidableEq N] {src : Source N} {before : Target N} {s s' : CopyState N}
  {path : List N} {pc pc' : CopyPc N}

inductive ThreadMoves (src : Source N) (s : CopyState N) (path : List N) :
    CopyPc N → CopyState N → CopyPc N → Prop
  | openDir {children : List (CopyTask N)} :
      ThreadMoves src s path (.openingDir children) s (.makingDir children)
  | makeDir {children : List (CopyTask N)} {target : Target N}
      (htarget : s.target.makeDir path = some target) :
      ThreadMoves src s path (.makingDir children) { s with target := target } (.pushing children)
  | pushed : ThreadMoves src s path (.pushing []) s .exited
  | push {task : CopyTask N} {children : List (CopyTask N)} :
      ThreadMoves src s path (.pushing (task :: children)) { s with queue := s.queue ++ [task] }
        (.counting children)
  | count {children : List (CopyTask N)} :
      ThreadMoves src s path (.counting children) { s with size := s.size + 1 } (.pushing children)
  | openFile {target : Target N} (htarget : s.target.openFile path = some target) :
      ThreadMoves src s path .openingFile { s with target := target } (.copying 0)
  | copied {bytes : List UInt8} (hsrc : src path = some (.file bytes)) :
      ThreadMoves src s path (.copying bytes.length) s .exited
  | write {bytes chunk : List UInt8} {offset count : ℕ} (hsrc : src path = some (.file bytes))
      (hchunk : readChunk bytes offset count = some chunk) :
      ThreadMoves src s path (.copying offset)
        { s with target := s.target.write path offset chunk } (.copying (offset + chunk.length))
  | fail {pc : CopyPc N} {err : CopyError} {target : Target N} (herr : err ∈ pc.errors)
      (htarget : ∀ other ≠ path, target other = s.target other) :
      ThreadMoves src s path pc { s with target := target } (.failing err)
  | setError {err : CopyError} :
      ThreadMoves src s path (.failing err) { s with error := some err } .interrupting
  | interrupt : ThreadMoves src s path .interrupting { s with interrupted := true } .exited

theorem Target.makeDir_of_ne {target target' : Target N}
    (h : target.makeDir path = some target') {other : List N} (hne : other ≠ path) :
    target' other = target other := by
  rw [Target.makeDir] at h
  split_ifs at h <;> cases h
  · rfl
  · exact Function.update_of_ne hne _ _

theorem Target.openFile_of_ne {target target' : Target N}
    (h : target.openFile path = some target') {other : List N} (hne : other ≠ path) :
    target' other = target other := by
  rw [Target.openFile] at h
  split at h
  · cases h
  · cases h
    rfl
  · split_ifs at h
    cases h
    exact Function.update_of_ne hne _ _

theorem Target.write_of_ne (target : Target N) (offset : ℕ) (chunk : List UInt8)
    {other : List N} (hne : other ≠ path) :
    target.write path offset chunk other = target other := by
  rw [Target.write]
  cases target path with
  | none => rfl
  | some node =>
      cases node with
      | file bytes => exact Function.update_of_ne hne _ _
      | dir => rfl

theorem leaves_of_ne {t : CopyThread N} {target target' : Target N} {a : CopyAnswer}
    {err : CopyError} (h : t.leaves src target a err = some target') {other : List N}
    (hne : other ≠ t.path) : target' other = target other := by
  unfold CopyThread.leaves at h
  split at h
  · exact Target.openFile_of_ne h hne
  · split at h
    · obtain ⟨chunk, -, h⟩ := Option.bind_eq_some_iff.mp h
      split_ifs at h
      cases h
      exact Target.write_of_ne _ _ _ hne
    · cases h
  · split at h
    · split_ifs at h
      cases h
      rfl
    · cases h
  · cases h
    rfl

theorem succeeds_moves {t : CopyThread N} {count : ℕ}
    (h : t.succeeds src s count = some (s', pc')) : ThreadMoves src s t.path t.pc s' pc' := by
  obtain ⟨path, pc⟩ := t
  cases pc with
  | openingDir children =>
      cases h
      exact .openDir
  | makingDir children =>
      obtain ⟨target, htarget, heq⟩ := Option.map_eq_some_iff.mp h
      cases heq
      exact .makeDir htarget
  | pushing children =>
      cases children with
      | nil =>
          cases h
          exact .pushed
      | cons task children =>
          cases h
          exact .push
  | counting children =>
      cases h
      exact .count
  | openingFile =>
      obtain ⟨target, htarget, heq⟩ := Option.map_eq_some_iff.mp h
      cases heq
      exact .openFile htarget
  | copying offset =>
      cases hsrc : src path with
      | none => simp [CopyThread.succeeds, hsrc] at h
      | some node =>
          cases node with
          | dir entries => simp [CopyThread.succeeds, hsrc] at h
          | other => simp [CopyThread.succeeds, hsrc] at h
          | file bytes =>
              simp only [CopyThread.succeeds, hsrc] at h
              by_cases hend : offset = bytes.length
              · rw [if_pos hend] at h
                cases h
                subst hend
                exact .copied hsrc
              · rw [if_neg hend] at h
                obtain ⟨chunk, hchunk, heq⟩ := Option.map_eq_some_iff.mp h
                cases heq
                exact .write hsrc hchunk
  | failing err =>
      cases h
      exact .setError
  | interrupting =>
      cases h
      exact .interrupt
  | exited => cases h

theorem step_moves {t : CopyThread N} {a : CopyAnswer} (h : t.step src s a = some (s', pc')) :
    ThreadMoves src s t.path t.pc s' pc' := by
  rw [CopyThread.step] at h
  split at h
  · exact succeeds_moves h
  · split_ifs at h with herr
    obtain ⟨target, hleaves, heq⟩ := Option.map_eq_some_iff.mp h
    cases heq
    exact .fail herr fun other hne => leaves_of_ne hleaves hne

/-- What only the main thread changes, and what a copying thread does not undo. -/
structure ThreadFrame (s s' : CopyState N) (path : List N) : Prop where
  main : s'.main = s.main
  expected : s'.expected = s.expected
  status : s'.status = s.status
  freed : s'.freed = s.freed
  size : s.size ≤ s'.size
  interrupted : s.interrupted = true → s'.interrupted = true
  error : s.error ≠ none → s'.error ≠ none
  target : ∀ other ≠ path, s'.target other = s.target other

theorem ThreadMoves.frame (h : ThreadMoves src s path pc s' pc') : ThreadFrame s s' path := by
  cases h with
  | openDir | pushed | copied | push =>
      exact ⟨rfl, rfl, rfl, rfl, Nat.le_refl _, id, id, fun _ _ => rfl⟩
  | makeDir htarget =>
      exact ⟨rfl, rfl, rfl, rfl, Nat.le_refl _, id, id,
        fun _ hne => Target.makeDir_of_ne htarget hne⟩
  | count => exact ⟨rfl, rfl, rfl, rfl, Nat.le_succ _, id, id, fun _ _ => rfl⟩
  | openFile htarget =>
      exact ⟨rfl, rfl, rfl, rfl, Nat.le_refl _, id, id,
        fun _ hne => Target.openFile_of_ne htarget hne⟩
  | write =>
      exact ⟨rfl, rfl, rfl, rfl, Nat.le_refl _, id, id, fun _ hne => Target.write_of_ne _ _ _ hne⟩
  | fail _ htarget => exact ⟨rfl, rfl, rfl, rfl, Nat.le_refl _, id, id, htarget⟩
  | setError => exact ⟨rfl, rfl, rfl, rfl, Nat.le_refl _, id, fun _ => by simp, fun _ _ => rfl⟩
  | interrupt => exact ⟨rfl, rfl, rfl, rfl, Nat.le_refl _, fun _ => rfl, id, fun _ _ => rfl⟩

/-- A task goes from a thread to the queue, or a thread that fails forgets it. -/
theorem ThreadMoves.count_le (h : ThreadMoves src s path pc s' pc') (q : List N) :
    (paths pc'.children).count q + (paths s'.queue).count q ≤
      (paths pc.children).count q + (paths s.queue).count q := by
  cases h with
  | push =>
      simp only [CopyPc.children, paths, List.map_cons, List.map_append, List.map_nil,
        List.count_append, List.count_cons, List.count_nil]
      omega
  | fail =>
      simp only [CopyPc.children, paths, List.map_nil, List.count_nil]
      omega
  | openDir | makeDir | pushed | count | openFile | copied | write | setError | interrupt =>
      exact Nat.le_refl _

theorem ThreadMoves.count_eq (h : ThreadMoves src s path pc s' pc')
    (hfine : ∀ err, pc' ≠ .failing err) (q : List N) :
    (paths pc'.children).count q + (paths s'.queue).count q =
      (paths pc.children).count q + (paths s.queue).count q := by
  cases h with
  | push =>
      simp only [CopyPc.children, paths, List.map_cons, List.map_append, List.map_nil,
        List.count_append, List.count_cons, List.count_nil]
      omega
  | fail => exact absurd rfl (hfine _)
  | openDir | makeDir | pushed | count | openFile | copied | write | setError | interrupt => rfl

theorem ThreadMoves.length_eq (h : ThreadMoves src s path pc s' pc')
    (hfine : ∀ err, pc' ≠ .failing err) :
    pc'.children.length + s'.queue.length = pc.children.length + s.queue.length := by
  cases h with
  | push =>
      simp only [CopyPc.children, List.length_append, List.length_cons, List.length_nil]
      omega
  | fail => exact absurd rfl (hfine _)
  | openDir | makeDir | pushed | count | openFile | copied | write | setError | interrupt => rfl

theorem ThreadMoves.sizes (h : ThreadMoves src s path pc s' pc') :
    s'.size + pc'.counts + s.queue.length = s.size + pc.counts + s'.queue.length := by
  cases h with
  | push =>
      simp only [CopyPc.counts, List.length_append, List.length_cons, List.length_nil]
      omega
  | count => simp only [CopyPc.counts]
  | fail herr =>
      cases pc with
      | counting => cases herr
      | openingDir | makingDir | pushing | openingFile | copying | failing | interrupting
      | exited =>
          rfl
  | openDir | makeDir | pushed | openFile | copied | write | setError | interrupt => rfl

theorem ThreadMoves.waiting (h : ThreadMoves src s path pc s' pc') {task : CopyTask N}
    (hwaiting : task ∈ s'.queue ∨ task ∈ pc'.children) : task ∈ s.queue ∨ task ∈ pc.children := by
  cases h with
  | push =>
      simp only [CopyPc.children, List.mem_append, List.mem_cons] at hwaiting ⊢
      tauto
  | fail => exact .inl (hwaiting.resolve_right (by simp [CopyPc.children]))
  | openDir | makeDir | pushed | count | openFile | copied | write | setError | interrupt =>
      exact hwaiting

/-- A thread that has failed sets the error. -/
theorem ThreadMoves.failing (h : ThreadMoves src s path pc s' pc') {err : CopyError}
    (hpc : pc = .failing err) : s'.error ≠ none := by
  cases h with
  | setError => simp
  | fail herr =>
      subst hpc
      cases herr
  | openDir | makeDir | pushed | push | count | openFile | copied | write | interrupt => cases hpc

theorem ThreadMoves.interrupting (h : ThreadMoves src s path pc s' pc')
    (hpc : pc = .interrupting) : s'.interrupted = true := by
  cases h with
  | interrupt => rfl
  | fail herr =>
      subst hpc
      cases herr
  | openDir | makeDir | pushed | push | count | openFile | copied | write | setError => cases hpc

/-- An error is set by a thread that interrupts the queue next. -/
theorem ThreadMoves.setsError (h : ThreadMoves src s path pc s' pc') (herror : s'.error ≠ none) :
    s.error ≠ none ∨ pc' = .interrupting := by
  cases h with
  | setError => exact .inr rfl
  | openDir | makeDir | pushed | push | count | openFile | copied | write | fail | interrupt =>
      exact .inl herror

theorem exec_thread {i : ℕ} {a : CopyAnswer} {s₂ : CopyState N}
    (h : s.exec src (.thread i a) = some s₂) : ∃ t s' pc', s.threads[i]? = some t ∧
      ThreadMoves src s t.path t.pc s' pc' ∧
      s₂ = { s' with threads := s'.threads.set i ⟨t.path, pc'⟩ } := by
  obtain ⟨t, ht, h⟩ := Option.bind_eq_some_iff.mp h
  split_ifs at h
  obtain ⟨⟨s', pc'⟩, hstep, h⟩ := Option.bind_eq_some_iff.mp h
  cases h
  exact ⟨t, s', pc', ht, step_moves hstep, rfl⟩

theorem ThreadMoves.threads (h : ThreadMoves src s path pc s' pc') : s'.threads = s.threads := by
  cases h <;> rfl

end Moves

section Main

variable {src : Source N} {s s' : CopyState N}

/-- What the main thread does in a step. It abandons its loop when it has seen an error, of a thread
or of its own. -/
inductive MainMoves (src : Source N) (s : CopyState N) : CopyState N → Prop
  | leave (hmain : s.main = .testing) (hend : s.expected = 0 ∨ s.error ≠ none) :
      MainMoves src s { s with main := .freeing }
  | loop (hmain : s.main = .testing) (hexpected : 0 < s.expected) :
      MainMoves src s { s with main := .polling }
  | poll (hmain : s.main = .polling) (hready : 0 < s.size ∨ s.interrupted = true) :
      MainMoves src s { s with main := .checking }
  | abandon {err : CopyError} (hloop : s.main.inLoop = true) (hcounts : s.main.counts = 0) :
      MainMoves src s { s with status := some err, main := .freeing }
  | check (hmain : s.main = .checking) (hnot : s.interrupted = false) :
      MainMoves src s { s with main := .taking }
  | take {task : CopyTask N} {queue : List (CopyTask N)} (hmain : s.main = .taking)
      (hqueue : s.queue = task :: queue) :
      MainMoves src s { s with queue := queue, main := .uncounting task }
  | uncount {task : CopyTask N} (hmain : s.main = .uncounting task) :
      MainMoves src s { s with size := s.size - 1, main := .looking task }
  | look {task : CopyTask N} (hmain : s.main = .looking task) :
      MainMoves src s { s with main := .listing task }
  | list {task : CopyTask N} {children : List (CopyTask N)} (hmain : s.main = .listing task)
      (hchildren : getChildrenForTask src task = some children) :
      MainMoves src s
        { s with expected := s.expected - 1 + children.length, main := .creating task children }
  | create {task : CopyTask N} {children : List (CopyTask N)}
      (hmain : s.main = .creating task children) :
      MainMoves src s { s with threads := s.threads ++ [task.start children], main := .testing }
  | free (hmain : s.main = .freeing) : MainMoves src s { s with freed := true, main := .exited }

theorem mainSucceeds_moves (h : s.mainSucceeds src = some s') : MainMoves src s s' := by
  cases hmain : s.main with
  | testing =>
      simp only [CopyState.mainSucceeds, hmain] at h
      cases h
      by_cases hgo : 0 < s.expected ∧ s.error = none
      · rw [if_pos hgo]
        exact .loop hmain hgo.1
      · rw [if_neg hgo]
        refine .leave hmain ?_
        by_cases hzero : s.expected = 0
        · exact .inl hzero
        · exact .inr fun herror => hgo ⟨Nat.pos_of_ne_zero hzero, herror⟩
  | polling =>
      simp only [CopyState.mainSucceeds, hmain] at h
      split_ifs at h with hblocked
      cases h
      refine .poll hmain ?_
      by_cases hsize : s.size = 0
      · exact .inr (by simpa [hsize] using hblocked)
      · exact .inl (Nat.pos_of_ne_zero hsize)
  | checking =>
      simp only [CopyState.mainSucceeds, hmain] at h
      cases h
      by_cases hinterrupted : s.interrupted = true
      · rw [if_pos hinterrupted]
        exact .abandon (by rw [hmain]; rfl) (by rw [hmain]; rfl)
      · rw [if_neg hinterrupted]
        exact .check hmain (by simpa using hinterrupted)
  | taking =>
      simp only [CopyState.mainSucceeds, hmain] at h
      split at h
      · cases h
      · cases h
        exact .take hmain ‹_›
  | uncounting task =>
      simp only [CopyState.mainSucceeds, hmain] at h
      cases h
      exact .uncount hmain
  | looking task =>
      simp only [CopyState.mainSucceeds, hmain] at h
      cases h
      split
      · exact .abandon (by rw [hmain]; rfl) (by rw [hmain]; rfl)
      · exact .look hmain
  | listing task =>
      simp only [CopyState.mainSucceeds, hmain] at h
      obtain ⟨children, hchildren, heq⟩ := Option.map_eq_some_iff.mp h
      cases heq
      exact .list hmain hchildren
  | creating task children =>
      simp only [CopyState.mainSucceeds, hmain] at h
      cases h
      exact .create hmain
  | freeing =>
      simp only [CopyState.mainSucceeds, hmain] at h
      cases h
      exact .free hmain
  | exited =>
      simp only [CopyState.mainSucceeds, hmain] at h
      cases h

theorem mainStep_moves {err : Option CopyError} (h : s.mainStep src err = some s') :
    MainMoves src s s' := by
  unfold CopyState.mainStep at h
  split at h
  · exact mainSucceeds_moves h
  · split_ifs at h with herr
    cases h
    cases hmain : s.main with
    | listing | creating => exact .abandon (by rw [hmain]; rfl) (by rw [hmain]; rfl)
    | testing | polling | checking | taking | uncounting | looking | freeing | exited =>
        simp [hmain, MainPc.errors] at herr

end Main

/-! ## The children of a directory -/

section Children

variable {src : Source N} {path : List N}

theorem mem_childTasks {entries : List (DirEntry N)} {tasks : List (CopyTask N)}
    (h : childTasks src path entries = some tasks) (child : CopyTask N) :
    child ∈ tasks ↔ ∃ name node, .name name ∈ entries ∧ child.path = name :: path ∧
      src child.path = some node ∧ node.taskType = some child.type := by
  induction entries generalizing tasks with
  | nil =>
      cases h
      simp
  | cons entry entries ih =>
      cases entry with
      | dot | dotDot => simpa using ih h
      | name name =>
          obtain ⟨node, hnode, h⟩ := Option.bind_eq_some_iff.mp h
          cases htype : node.taskType with
          | none =>
              rw [htype] at h
              rw [ih h]
              constructor
              · rintro ⟨name', node', hname, hrest⟩
                exact ⟨name', node', List.mem_cons_of_mem _ hname, hrest⟩
              · rintro ⟨name', node', hname, hpath, hsrc, hkind⟩
                rcases List.mem_cons.mp hname with heq | hname
                · cases heq
                  rw [hpath, hnode] at hsrc
                  cases hsrc
                  rw [htype] at hkind
                  cases hkind
                · exact ⟨name', node', hname, hpath, hsrc, hkind⟩
          | some type =>
              rw [htype] at h
              obtain ⟨rest, hrest, h⟩ := Option.bind_eq_some_iff.mp h
              cases h
              rw [List.mem_cons, ih hrest]
              constructor
              · rintro (rfl | ⟨name', node', hname, hchild⟩)
                · exact ⟨name, node, List.mem_cons_self, rfl, hnode, htype⟩
                · exact ⟨name', node', List.mem_cons_of_mem _ hname, hchild⟩
              · rintro ⟨name', node', hname, hpath, hsrc, hkind⟩
                rcases List.mem_cons.mp hname with heq | hname
                · cases heq
                  rw [hpath, hnode] at hsrc
                  cases hsrc
                  rw [htype] at hkind
                  cases hkind
                  left
                  cases child
                  subst hpath
                  rfl
                · exact .inr ⟨name', node', hname, hpath, hsrc, hkind⟩

theorem paths_childTasks {entries : List (DirEntry N)} {tasks : List (CopyTask N)}
    (h : childTasks src path entries = some tasks) :
    (paths tasks).Sublist ((entries.filterMap DirEntry.name?).map (· :: path)) := by
  induction entries generalizing tasks with
  | nil =>
      cases h
      exact List.Sublist.refl _
  | cons entry entries ih =>
      cases entry with
      | dot | dotDot => exact ih h
      | name name =>
          obtain ⟨node, -, h⟩ := Option.bind_eq_some_iff.mp h
          cases htype : node.taskType with
          | none =>
              rw [htype] at h
              exact (ih h).cons _
          | some type =>
              rw [htype] at h
              obtain ⟨rest, hrest, h⟩ := Option.bind_eq_some_iff.mp h
              cases h
              exact (ih hrest).cons_cons _

/-- The children of a task are the files and directories in its directory, each once. -/
structure ChildrenOf (src : Source N) (task : CopyTask N) (children : List (CopyTask N)) :
    Prop where
  mem : ∀ child, child ∈ children ↔ src.Child task.path child
  nodup : (paths children).Nodup
  node : ∃ node, src task.path = some node ∧ node.taskType = some task.type

theorem childrenOf_getChildren {task : CopyTask N} {children : List (CopyTask N)}
    (hdistinct : src.Distinct) (hhas : src.Has task)
    (h : getChildrenForTask src task = some children) : ChildrenOf src task children := by
  rw [getChildrenForTask] at h
  cases htype : task.type with
  | directory =>
      simp only [htype] at h
      split at h
      · rename_i entries hdir
        refine ⟨fun child => ?_, ?_, _, hdir, htype ▸ rfl⟩
        · rw [mem_childTasks h]
          constructor
          · rintro ⟨name, node, hname, hchild⟩
            exact ⟨entries, name, node, hdir, hname, hchild⟩
          · rintro ⟨entries', name, node, hdir', hname, hchild⟩
            cases hdir.symm.trans hdir'
            exact ⟨name, node, hname, hchild⟩
        · refine (paths_childTasks h).nodup ?_
          exact (hdistinct _ _ hdir).map fun a b heq => (List.cons.inj heq).1
      · cases h
  | regularFile =>
      simp only [htype] at h
      cases h
      cases hhas with
      | root => cases htype
      | child hdir hchild =>
          obtain ⟨entries, name, node, -, -, -, hsrc, hkind⟩ := hchild
          refine ⟨fun child => iff_of_false (by simp) ?_, List.nodup_nil, node, hsrc, hkind⟩
          rintro ⟨entries', -, -, hdir', -⟩
          cases hsrc.symm.trans hdir'
          rw [htype] at hkind
          cases hkind

end Children

end CopyTree

end PosixThreads
