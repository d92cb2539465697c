import Mathlib.Algebra.BigOperators.Group.List.Basic
import PosixThreads.CopyTree.Tasks

/-!
# What has been copied

The queue never has less in it than its counter says, so that the main thread finds a node. Every
path has one task at most, so that only its own thread changes what is there. As long as no call has
failed, `expected_tasks` is the number of tasks that are still to come.
-/

namespace PosixThreads

namespace CopyTree

variable {N : Type} [DecidableEq N] {src : Source N} {before : Target N} {s s' : CopyState N}
  {t : CopyThread N} {i : ℕ} {pc' : CopyPc N}

def CopyState.setThread (s : CopyState N) (i : ℕ) (t : CopyThread N) : CopyState N :=
  { s with threads := s.threads.set i t }

omit [DecidableEq N] in
theorem paths_set {threads : List (CopyThread N)} (hget : threads[i]? = some t) (pc : CopyPc N) :
    (threads.set i ⟨t.path, pc⟩).map CopyThread.path = threads.map CopyThread.path := by
  have hi := (List.getElem?_eq_some_iff.mp hget).1
  refine List.ext_getElem? fun j => ?_
  rw [List.getElem?_map, List.getElem?_map]
  by_cases hij : i = j
  · subst hij
    rw [List.getElem?_set_self hi, hget]
    rfl
  · rw [List.getElem?_set_ne hij]

omit [DecidableEq N] in
theorem mem_set_ne {threads : List (CopyThread N)}
    (hnodup : (threads.map CopyThread.path).Nodup) (hget : threads[i]? = some t)
    {u b : CopyThread N} (hu : u ∈ threads.set i b) : u = b ∨ u ∈ threads ∧ u.path ≠ t.path := by
  obtain ⟨j, hj⟩ := List.mem_iff_getElem?.mp hu
  by_cases hij : i = j
  · subst hij
    rw [List.getElem?_set_self (List.getElem?_eq_some_iff.mp hget).1] at hj
    exact .inl (Option.some.inj hj).symm
  · rw [List.getElem?_set_ne hij] at hj
    refine .inr ⟨List.mem_of_getElem? hj, fun heq => hij ?_⟩
    have hi : i < (threads.map CopyThread.path).length := by
      simpa using (List.getElem?_eq_some_iff.mp hget).1
    refine (List.getElem?_inj hi hnodup).mp ?_
    rw [List.getElem?_map, List.getElem?_map, hget, hj, Option.map_some, Option.map_some, heq]

omit [DecidableEq N] in
theorem mem_set_or {threads : List (CopyThread N)} (hget : threads[i]? = some t)
    {u : CopyThread N} (hu : u ∈ threads) (b : CopyThread N) : u = t ∨ u ∈ threads.set i b := by
  obtain ⟨j, hj⟩ := List.mem_iff_getElem?.mp hu
  by_cases hij : i = j
  · subst hij
    exact .inl (Option.some.inj (hj.symm.trans hget))
  · rw [← List.getElem?_set_ne hij] at hj
    exact .inr (List.mem_of_getElem? hj)

omit [DecidableEq N] in
theorem mem_set_self {threads : List (CopyThread N)} (hget : threads[i]? = some t)
    (b : CopyThread N) : b ∈ threads.set i b :=
  List.mem_set (List.getElem?_eq_some_iff.mp hget).1 b

/-! ## The queue and its counter -/

structure QueueInv (s : CopyState N) : Prop where
  sizes : s.size + (s.threads.map fun t => t.pc.counts).sum = s.queue.length + s.main.counts
  checking : s.main = .checking → 0 < s.size ∨ s.interrupted = true
  taking : s.main = .taking → 0 < s.size
  uncounting : ∀ task, s.main = .uncounting task → 0 < s.size
  interrupted : s.error ≠ none → s.interrupted = true ∨ ∃ t ∈ s.threads, t.pc = .interrupting
  status : s.status ≠ none → s.main.inLoop = false
  freed : s.freed = true → s.main = .exited
  polling : s.main = .polling → 0 < s.expected

theorem QueueInv.thread (h : QueueInv s) (hget : s.threads[i]? = some t)
    (hmoves : ThreadMoves src s t.path t.pc s' pc') :
    QueueInv (s'.setThread i ⟨t.path, pc'⟩) := by
  have hframe := hmoves.frame
  have hthreads := hmoves.threads
  refine ⟨?_, fun hmain => ?_, fun hmain => ?_, fun task hmain => ?_, fun herror => ?_,
    fun hstatus => ?_, fun hfreed => ?_, fun hmain => ?_⟩
  · have hsum := sum_map_set (fun t => t.pc.counts) hget ⟨t.path, pc'⟩
    have hsizes := h.sizes
    have hstep := hmoves.sizes
    simp only [CopyState.setThread, hframe.main, hthreads] at hsum ⊢
    omega
  · rcases h.checking (hframe.main ▸ hmain) with hsize | hinterrupted
    · exact .inl (Nat.lt_of_lt_of_le hsize hframe.size)
    · exact .inr (hframe.interrupted hinterrupted)
  · exact Nat.lt_of_lt_of_le (h.taking (hframe.main ▸ hmain)) hframe.size
  · exact Nat.lt_of_lt_of_le (h.uncounting task (hframe.main ▸ hmain)) hframe.size
  · simp only [CopyState.setThread, hthreads] at herror ⊢
    rcases hmoves.setsError herror with hold | hnew
    · rcases h.interrupted hold with hinterrupted | ⟨u, hu, hpc⟩
      · exact .inl (hframe.interrupted hinterrupted)
      · rcases mem_set_or hget hu ⟨t.path, pc'⟩ with rfl | hmem
        · exact .inl (hmoves.interrupting hpc)
        · exact .inr ⟨u, hmem, hpc⟩
    · exact .inr ⟨_, mem_set_self hget _, hnew⟩
  · simp only [CopyState.setThread, hframe.main]
    exact h.status (hframe.status ▸ hstatus)
  · exact hframe.main.trans (h.freed (hframe.freed ▸ hfreed))
  · exact hframe.expected ▸ h.polling (hframe.main ▸ hmain)

omit [DecidableEq N] in
theorem QueueInv.main (h : QueueInv s) (hmoves : MainMoves src s s') : QueueInv s' := by
  have hsizes := h.sizes
  have hfreed : s.main ≠ .exited → s.freed ≠ true := fun hne hfreed => hne (h.freed hfreed)
  have hstatus : s.main.inLoop = true → s.status = none := by
    intro hloop
    by_contra hne
    rw [h.status hne] at hloop
    cases hloop
  cases hmoves with
  | leave hmain =>
      rw [hmain] at hsizes hfreed
      exact ⟨hsizes, nofun, nofun, nofun, h.interrupted, fun _ => rfl,
        fun hf => absurd hf (hfreed nofun), nofun⟩
  | loop hmain hexpected =>
      rw [hmain] at hsizes hfreed hstatus
      exact ⟨hsizes, nofun, nofun, nofun, h.interrupted, fun hne => absurd (hstatus rfl) hne,
        fun hf => absurd hf (hfreed nofun), fun _ => hexpected⟩
  | poll hmain hready =>
      rw [hmain] at hsizes hfreed hstatus
      exact ⟨hsizes, fun _ => hready, nofun, nofun, h.interrupted,
        fun hne => absurd (hstatus rfl) hne, fun hf => absurd hf (hfreed nofun), nofun⟩
  | abandon hloop hcounts =>
      rw [hcounts] at hsizes
      refine ⟨hsizes, nofun, nofun, nofun, h.interrupted, fun _ => rfl, fun hf => ?_, nofun⟩
      rw [h.freed hf] at hloop
      cases hloop
  | check hmain hnot =>
      have hsize : 0 < s.size := (h.checking hmain).resolve_right (by simp [hnot])
      rw [hmain] at hsizes hfreed hstatus
      exact ⟨hsizes, nofun, fun _ => hsize, nofun, h.interrupted,
        fun hne => absurd (hstatus rfl) hne, fun hf => absurd hf (hfreed nofun), nofun⟩
  | take hmain hqueue =>
      have hsize := h.taking hmain
      rw [hmain] at hsizes hfreed hstatus
      rw [hqueue] at hsizes
      exact ⟨hsizes, nofun, nofun, fun _ _ => hsize, h.interrupted,
        fun hne => absurd (hstatus rfl) hne, fun hf => absurd hf (hfreed nofun), nofun⟩
  | uncount hmain =>
      have hsize := h.uncounting _ hmain
      rw [hmain] at hsizes hfreed hstatus
      refine ⟨?_, nofun, nofun, nofun, h.interrupted,
        fun hne => absurd (hstatus rfl) hne, fun hf => absurd hf (hfreed nofun), nofun⟩
      simp only [MainPc.counts] at hsizes ⊢
      omega
  | look hmain | list hmain =>
      rw [hmain] at hsizes hfreed hstatus
      exact ⟨hsizes, nofun, nofun, nofun, h.interrupted,
        fun hne => absurd (hstatus rfl) hne, fun hf => absurd hf (hfreed nofun), nofun⟩
  | @create task children hmain =>
      rw [hmain] at hsizes hfreed hstatus
      refine ⟨?_, nofun, nofun, nofun, fun herror => ?_,
        fun hne => absurd (hstatus rfl) hne, fun hf => absurd hf (hfreed nofun), nofun⟩
      · have hstart : (task.start children).pc.counts = 0 := by
          rw [CopyTask.start]
          cases task.type <;> rfl
        simpa [hstart, MainPc.counts] using hsizes
      · rcases h.interrupted herror with hinterrupted | ⟨u, hu, hpc⟩
        · exact .inl hinterrupted
        · exact .inr ⟨u, List.mem_append_left _ hu, hpc⟩
  | free hmain =>
      rw [hmain] at hsizes
      exact ⟨hsizes, nofun, nofun, nofun, h.interrupted, fun _ => rfl, fun _ => rfl, nofun⟩

omit [DecidableEq N] in
theorem QueueInv.finds (h : QueueInv s) (hmain : s.main = .taking) : s.queue ≠ [] := by
  intro hqueue
  have hsizes := h.sizes
  have hsize := h.taking hmain
  rw [hqueue, hmain] at hsizes
  simp only [List.length_nil, MainPc.counts] at hsizes
  omega

/-! ## The tasks and the copies -/

def Place (src : Source N) (before target : Target N) (error : Option CopyError)
    (t : CopyThread N) : Prop :=
  match t.pc with
  | .openingDir _ | .makingDir _ =>
      (∃ entries, src t.path = some (.dir entries)) ∧ target t.path = before t.path
  | .pushing _ | .counting _ =>
      (∃ entries, src t.path = some (.dir entries)) ∧ Made before target t.path
  | .openingFile =>
      (∃ bytes, src t.path = some (.file bytes)) ∧ target t.path = before t.path
  | .copying offset => ∃ bytes, src t.path = some (.file bytes) ∧ offset ≤ bytes.length ∧
      target t.path = some (.file (bytes.take offset ++ (before.old t.path).drop offset))
  | .failing _ => True
  | .interrupting => error ≠ none
  | .exited => Copied src before target t.path ∨ error ≠ none

omit [DecidableEq N] in
theorem Made.of_eq {target target' : Target N} {path : List N} (h : Made before target path)
    (heq : target' path = target path) : Made before target' path := by
  rw [Made, heq]
  exact h

omit [DecidableEq N] in
theorem Copied.of_eq {target target' : Target N} {path : List N}
    (h : Copied src before target path) (heq : target' path = target path) :
    Copied src before target' path := by
  rw [Copied, Made, heq]
  exact h

omit [DecidableEq N] in
theorem Place.of_eq {target target' : Target N} {error error' : Option CopyError}
    (h : Place src before target error t) (htarget : target' t.path = target t.path)
    (herror : error ≠ none → error' ≠ none) : Place src before target' error' t := by
  obtain ⟨path, pc⟩ := t
  cases pc with
  | openingDir | makingDir | openingFile => exact ⟨h.1, htarget.trans h.2⟩
  | pushing | counting => exact ⟨h.1, h.2.of_eq htarget⟩
  | copying offset =>
      obtain ⟨bytes, hsrc, hle, hbytes⟩ := h
      exact ⟨bytes, hsrc, hle, htarget.trans hbytes⟩
  | failing => trivial
  | interrupting => exact herror h
  | exited => exact h.imp (·.of_eq htarget) herror

theorem made_of_makeDir {target target' : Target N} {path : List N}
    (h : target.makeDir path = some target') (hbefore : target path = before path) :
    Made before target' path := by
  rw [Target.makeDir] at h
  split_ifs at h with hsome <;> cases h
  · obtain ⟨node, hnode⟩ := Option.isSome_iff_exists.mp hsome
    cases node with
    | dir => exact .inl hnode
    | file bytes => exact .inr ⟨bytes, hbefore ▸ hnode, hnode⟩
  · exact .inl (Function.update_self _ _ _)

theorem openFile_old {target target' : Target N} {path : List N}
    (h : target.openFile path = some target') :
    target' path = some (.file (target.old path)) := by
  rw [Target.openFile] at h
  split at h
  · cases h
  · rename_i bytes hfile
    cases h
    rw [Target.old, hfile]
  · rename_i hnone
    split_ifs at h
    cases h
    rw [Function.update_self, Target.old, hnone]

/-- The bytes that are written go on where those in front of them end. -/
theorem write_next {target : Target N} {path : List N} {bytes old chunk : List UInt8}
    {offset count : ℕ} (htarget : target path = some (.file (bytes.take offset ++ old.drop offset)))
    (hle : offset ≤ bytes.length) (hchunk : readChunk bytes offset count = some chunk) :
    offset + chunk.length ≤ bytes.length ∧ target.write path offset chunk path =
      some (.file (bytes.take (offset + chunk.length) ++ old.drop (offset + chunk.length))) := by
  rw [readChunk] at hchunk
  split_ifs at hchunk with hcount
  cases hchunk
  have hlen : ((bytes.drop offset).take count).length = count := by
    rw [List.length_take, List.length_drop]
    omega
  have htake : (bytes.take offset).length = offset := by
    rw [List.length_take]
    omega
  rw [hlen]
  refine ⟨hcount.2.2, ?_⟩
  have hfront : (bytes.take offset ++ old.drop offset).take offset = bytes.take offset :=
    List.take_left' htake
  have hback : (bytes.take offset ++ old.drop offset).drop (offset + count) =
      old.drop (offset + count) := by
    rw [← List.drop_drop, List.drop_left' htake, List.drop_drop]
  rw [Target.write, htarget]
  simp only [Function.update_self, hlen, hfront, hback]
  rw [List.take_add]

theorem ThreadMoves.place (h : ThreadMoves src s t.path t.pc s' pc')
    (hplace : Place src before s.target s.error t) :
    Place src before s'.target s'.error ⟨t.path, pc'⟩ := by
  obtain ⟨path, pc⟩ := t
  cases h with
  | openDir => exact hplace
  | makeDir htarget => exact ⟨hplace.1, made_of_makeDir htarget hplace.2⟩
  | pushed =>
      obtain ⟨⟨entries, hdir⟩, hmade⟩ := hplace
      left
      rw [Copied]
      simp only [hdir]
      exact hmade
  | push | count => exact hplace
  | openFile htarget =>
      obtain ⟨⟨bytes, hfile⟩, hbefore⟩ := hplace
      have hold : s.target.old path = before.old path := by
        rw [Target.old, Target.old]
        simp only at hbefore
        rw [hbefore]
      refine ⟨bytes, hfile, Nat.zero_le _, ?_⟩
      exact (openFile_old htarget).trans (by rw [hold]; rfl)
  | @copied bytes hsrc =>
      obtain ⟨bytes', hfile, -, htarget⟩ := hplace
      cases hsrc.symm.trans hfile
      left
      rw [Copied]
      simp only [hsrc]
      rw [List.take_length] at htarget
      exact htarget
  | write hsrc hchunk =>
      obtain ⟨bytes', hfile, hle, htarget⟩ := hplace
      cases hsrc.symm.trans hfile
      obtain ⟨hle', hwrite⟩ := write_next htarget hle hchunk
      exact ⟨_, hsrc, hle', hwrite⟩
  | fail => trivial
  | setError => exact Option.some_ne_none _
  | interrupt => exact .inr hplace

structure TreeInv (src : Source N) (before : Target N) (s : CopyState N) : Prop where
  once : ∀ path, s.known path ≤ 1
  parents : s.main.inLoop = true → ∀ name path, 0 < s.known (name :: path) → s.Started path
  waiting : ∀ task, s.Waiting task → src.Has task
  entries : ∀ t ∈ s.threads, ∃ type, src.Has ⟨type, t.path⟩
  places : ∀ t ∈ s.threads, Place src before s.target s.error t
  untouched : ∀ path, path ∉ s.threads.map CopyThread.path → s.target path = before path
  created : ∀ task children, s.main = .creating task children → ChildrenOf src task children

theorem count_le_known (s : CopyState N) (path : List N) :
    (s.threads.map CopyThread.path).count path + (paths s.main.tasks).count path ≤
      s.known path := by
  have hle : (s.threads.map CopyThread.path).count path ≤
      (s.threads.map (CopyThread.knows path)).sum := by
    induction s.threads with
    | nil => exact Nat.le_refl _
    | cons t threads ih =>
        rw [List.map_cons, List.map_cons, List.sum_cons, List.count_cons, CopyThread.knows]
        simp only [beq_iff_eq]
        omega
  rw [CopyState.known]
  omega

theorem TreeInv.nodup (h : TreeInv src before s) : (s.threads.map CopyThread.path).Nodup := by
  refine List.nodup_iff_count_le_one.mpr fun path => ?_
  have hle := count_le_known s path
  have honce := h.once path
  omega

theorem known_setThread (hget : s.threads[i]? = some t)
    (hmoves : ThreadMoves src s t.path t.pc s' pc') (path : List N) :
    (s'.setThread i ⟨t.path, pc'⟩).known path + ((paths t.pc.children).count path +
        (paths s.queue).count path) =
      s.known path + ((paths pc'.children).count path + (paths s'.queue).count path) := by
  have hsum := sum_map_set (CopyThread.knows path) hget ⟨t.path, pc'⟩
  simp only [CopyState.known, CopyState.setThread, hmoves.frame.main, hmoves.threads,
    CopyThread.knows] at hsum ⊢
  omega

theorem started_setThread (hget : s.threads[i]? = some t)
    (hmoves : ThreadMoves src s t.path t.pc s' pc') (path : List N) :
    (s'.setThread i ⟨t.path, pc'⟩).Started path ↔ s.Started path := by
  rw [CopyState.Started, CopyState.Started]
  simp only [CopyState.setThread, hmoves.threads, hmoves.frame.main, paths_set hget]

theorem TreeInv.thread (h : TreeInv src before s) (hget : s.threads[i]? = some t)
    (hmoves : ThreadMoves src s t.path t.pc s' pc') :
    TreeInv src before (s'.setThread i ⟨t.path, pc'⟩) := by
  have hframe := hmoves.frame
  have hmem : t ∈ s.threads := List.mem_of_getElem? hget
  have hle : ∀ path, (s'.setThread i ⟨t.path, pc'⟩).known path ≤ s.known path := by
    intro path
    have hknown := known_setThread hget hmoves path
    have hcount := hmoves.count_le path
    omega
  refine ⟨fun path => Nat.le_trans (hle path) (h.once path), fun hloop name path hpos => ?_,
    fun task hwaiting => ?_, fun u hu => ?_, fun u hu => ?_, fun path hpath => ?_,
    fun task children hmain => h.created task children (hframe.main ▸ hmain)⟩
  · rw [started_setThread hget hmoves]
    exact h.parents (hframe.main ▸ hloop) name path (Nat.lt_of_lt_of_le hpos (hle _))
  · rcases hwaiting with hqueue | hhand | ⟨u, hu, hchild⟩
    · rcases hmoves.waiting (.inl hqueue) with hold | hold
      · exact h.waiting task (.inl hold)
      · exact h.waiting task (.inr (.inr ⟨t, hmem, hold⟩))
    · exact h.waiting task (.inr (.inl (hframe.main ▸ hhand)))
    · simp only [CopyState.setThread, hmoves.threads] at hu
      rcases mem_set_ne h.nodup hget hu with rfl | ⟨hu, -⟩
      · rcases hmoves.waiting (.inr hchild) with hold | hold
        · exact h.waiting task (.inl hold)
        · exact h.waiting task (.inr (.inr ⟨t, hmem, hold⟩))
      · exact h.waiting task (.inr (.inr ⟨u, hu, hchild⟩))
  · simp only [CopyState.setThread, hmoves.threads] at hu
    rcases mem_set_ne h.nodup hget hu with rfl | ⟨hu, -⟩
    · exact h.entries t hmem
    · exact h.entries u hu
  · simp only [CopyState.setThread, hmoves.threads] at hu ⊢
    rcases mem_set_ne h.nodup hget hu with rfl | ⟨hu, hne⟩
    · exact hmoves.place (h.places t hmem)
    · exact (h.places u hu).of_eq (hframe.target u.path hne) hframe.error
  · simp only [CopyState.setThread, hmoves.threads, paths_set hget] at hpath ⊢
    have hne : path ≠ t.path := by
      rintro rfl
      exact hpath (List.mem_map_of_mem hmem)
    rw [hframe.target path hne, h.untouched path hpath]

omit [DecidableEq N] in
theorem CopyState.Waiting.of_hand {task : CopyTask N} (h : s'.Waiting task)
    (hqueue : s'.queue = s.queue) (hthreads : s'.threads = s.threads)
    (hhand : task ∈ s'.main.tasks → task ∈ s.main.tasks) : s.Waiting task := by
  rcases h with hmem | hmem | ⟨t, ht, hmem⟩
  · exact .inl (hqueue ▸ hmem)
  · exact .inr (.inl (hhand hmem))
  · exact .inr (.inr ⟨t, hthreads ▸ ht, hmem⟩)

/-- The main thread has no new task and no new thread. -/
theorem TreeInv.keeps (h : TreeInv src before s) (hthreads : s'.threads = s.threads)
    (htarget : s'.target = s.target) (herror : s'.error = s.error)
    (hknown : ∀ path, s'.known path ≤ s.known path)
    (hwaiting : ∀ task, s'.Waiting task → s.Waiting task)
    (hloop : s'.main.inLoop = true → s.main.inLoop = true ∧
      ∀ task children, s.main ≠ .creating task children)
    (hmain : ∀ task children, s'.main ≠ .creating task children) : TreeInv src before s' := by
  refine ⟨fun path => Nat.le_trans (hknown path) (h.once path), fun hl name path hpos => ?_,
    fun task htask => h.waiting task (hwaiting task htask), ?_, ?_, ?_,
    fun task children heq => absurd heq (hmain task children)⟩
  · obtain ⟨hl', hnot⟩ := hloop hl
    rcases h.parents hl' name path (Nat.lt_of_lt_of_le hpos (hknown _)) with hthread | hcreating
    · exact .inl (hthreads ▸ hthread)
    · obtain ⟨type, children, heq⟩ := hcreating
      exact absurd heq (hnot _ _)
  · rw [hthreads]
    exact h.entries
  · rw [hthreads, htarget, herror]
    exact h.places
  · rw [hthreads, htarget]
    exact h.untouched

theorem TreeInv.children_new (h : TreeInv src before s) {task : CopyTask N}
    {children : List (CopyTask N)} (hmain : s.main = .listing task)
    (hof : ChildrenOf src task children) {child : CopyTask N} (hchild : child ∈ children) :
    s.known child.path = 0 := by
  obtain ⟨entries, name, node, -, -, hpath, -⟩ := (hof.mem child).mp hchild
  by_contra hne
  rcases h.parents (by rw [hmain]; rfl) name task.path (hpath ▸ Nat.pos_of_ne_zero hne) with
    hthread | ⟨type, children', hcreating⟩
  · -- the directory has a thread already, but its task is in the hand of the main thread
    have hle := count_le_known s task.path
    have honce := h.once task.path
    have hpos := List.count_pos_iff.mpr hthread
    have hhand : (paths s.main.tasks).count task.path = 1 := by
      rw [hmain]
      simp [MainPc.tasks, paths]
    omega
  · rw [hmain] at hcreating
    cases hcreating

theorem TreeInv.list (h : TreeInv src before s) (hdistinct : src.Distinct) {task : CopyTask N}
    {children : List (CopyTask N)} (hmain : s.main = .listing task)
    (hchildren : getChildrenForTask src task = some children) (expected : ℕ) :
    TreeInv src before { s with expected := expected, main := .creating task children } := by
  have hhas : src.Has task := h.waiting task (.inr (.inl (by rw [hmain]; exact List.mem_cons_self)))
  have hof := childrenOf_getChildren hdistinct hhas hchildren
  have hknown : ∀ path, CopyState.known
      { s with expected := expected, main := .creating task children } path =
        s.known path + (paths children).count path := by
    intro path
    simp only [CopyState.known, hmain, MainPc.tasks, paths, List.map_cons, List.map_nil,
      List.count_cons, List.count_nil]
    omega
  have hcases : ∀ path, 0 < (paths children).count path →
      ∃ child ∈ children, child.path = path := by
    intro path hpos
    exact List.mem_map.mp (List.count_pos_iff.mp hpos)
  refine ⟨fun path => ?_, fun _ name path hpos => ?_, fun other hother => ?_, h.entries, h.places,
    h.untouched, fun task' children' heq => ?_⟩
  · rw [hknown]
    have hcount := List.nodup_iff_count_le_one.mp hof.nodup path
    rcases Nat.eq_zero_or_pos ((paths children).count path) with hzero | hpos
    · rw [hzero]
      exact h.once path
    · obtain ⟨child, hchild, rfl⟩ := hcases path hpos
      rw [h.children_new hmain hof hchild]
      omega
  · rw [hknown] at hpos
    rcases Nat.eq_zero_or_pos ((paths children).count (name :: path)) with hzero | hcount
    · rw [hzero] at hpos
      rcases h.parents (by rw [hmain]; rfl) name path hpos with hthread | ⟨type, children', heq⟩
      · exact .inl hthread
      · rw [hmain] at heq
        cases heq
    · obtain ⟨child, hchild, hpath⟩ := hcases _ hcount
      obtain ⟨entries, name', node, -, -, hpath', -⟩ := (hof.mem child).mp hchild
      obtain rfl : path = task.path := (List.cons.inj (hpath.symm.trans hpath')).2
      exact .inr ⟨task.type, children, rfl⟩
  · rcases hother with hqueue | hhand | hthread
    · exact h.waiting other (.inl hqueue)
    · rcases List.mem_cons.mp hhand with rfl | hchild
      · exact hhas
      · have hmem := (hof.mem other).mp hchild
        obtain ⟨entries, -, -, hdir, -⟩ := hmem
        obtain ⟨node, hnode, htype⟩ := hof.node
        cases hdir.symm.trans hnode
        have hdirectory : src.Has ⟨.directory, task.path⟩ := by
          rw [Option.some.inj htype]
          exact hhas
        exact .child hdirectory ((hof.mem other).mp hchild)
    · exact h.waiting other (.inr (.inr hthread))
  · cases heq
    exact hof

omit [DecidableEq N] in
theorem start_children {task : CopyTask N} {children : List (CopyTask N)}
    (hof : ChildrenOf src task children) : (task.start children).pc.children = children := by
  obtain ⟨node, hnode, htype⟩ := hof.node
  rw [CopyTask.start]
  cases hkind : task.type with
  | directory => rfl
  | regularFile =>
      refine (List.eq_nil_iff_forall_not_mem.mpr fun child hchild => ?_).symm
      obtain ⟨entries, -, -, hdir, -⟩ := (hof.mem child).mp hchild
      cases hdir.symm.trans hnode
      rw [hkind] at htype
      cases htype

omit [DecidableEq N] in
theorem start_place {task : CopyTask N} {children : List (CopyTask N)} {target : Target N}
    {error : Option CopyError} (hof : ChildrenOf src task children)
    (htarget : target task.path = before task.path) :
    Place src before target error (task.start children) := by
  obtain ⟨node, hnode, htype⟩ := hof.node
  rw [Place, CopyTask.start]
  cases hkind : task.type with
  | directory =>
      rw [hkind] at htype
      cases node with
      | dir entries => exact ⟨⟨entries, hnode⟩, htarget⟩
      | file | other => cases htype
  | regularFile =>
      rw [hkind] at htype
      cases node with
      | file bytes => exact ⟨⟨bytes, hnode⟩, htarget⟩
      | dir | other => cases htype

theorem known_create {task : CopyTask N} {children : List (CopyTask N)}
    (hmain : s.main = .creating task children) (hof : ChildrenOf src task children)
    (path : List N) : CopyState.known
      { s with threads := s.threads ++ [task.start children], main := .testing } path =
        s.known path := by
  have hpath : (task.start children).path = task.path := rfl
  simp only [CopyState.known, hmain, MainPc.tasks, CopyThread.knows, List.map_append,
    List.map_cons, List.map_nil, List.sum_append, List.sum_cons, List.sum_nil, hpath,
    start_children hof, paths, List.count_cons, List.count_nil, beq_iff_eq]
  omega

omit [DecidableEq N] in
theorem started_create {task : CopyTask N} {children : List (CopyTask N)}
    (hmain : s.main = .creating task children) (path : List N) : CopyState.Started
      { s with threads := s.threads ++ [task.start children], main := .testing } path ↔
        s.Started path := by
  have hpath : (task.start children).path = task.path := rfl
  rw [CopyState.Started, CopyState.Started]
  simp only [List.map_append, List.map_cons, List.map_nil, List.mem_append, List.mem_singleton,
    hmain, hpath]
  constructor
  · rintro ((hthread | rfl) | ⟨type, children', heq⟩)
    · exact .inl hthread
    · exact .inr ⟨task.type, children, rfl⟩
    · cases heq
  · rintro (hthread | ⟨type, children', heq⟩)
    · exact .inl (.inl hthread)
    · cases heq
      exact .inl (.inr rfl)

theorem TreeInv.create (h : TreeInv src before s) {task : CopyTask N}
    {children : List (CopyTask N)} (hmain : s.main = .creating task children) :
    TreeInv src before
      { s with threads := s.threads ++ [task.start children], main := .testing } := by
  have hof := h.created task children hmain
  have hhas : src.Has task := h.waiting task (.inr (.inl (by rw [hmain]; exact List.mem_cons_self)))
  have hfresh : task.path ∉ s.threads.map CopyThread.path := by
    intro hmem
    have hle := count_le_known s task.path
    have honce := h.once task.path
    have hpos := List.count_pos_iff.mpr hmem
    have hhand : 0 < (paths s.main.tasks).count task.path := by
      rw [hmain]
      simp [MainPc.tasks, paths]
    omega
  refine ⟨fun path => ?_, fun _ name path hpos => ?_, fun other hother => ?_, fun u hu => ?_,
    fun u hu => ?_, fun path hpath => ?_, fun _ _ heq => (by cases heq)⟩
  · rw [known_create hmain hof]
    exact h.once path
  · rw [known_create hmain hof] at hpos
    rw [started_create hmain]
    exact h.parents (by rw [hmain]; rfl) name path hpos
  · rcases hother with hqueue | hhand | ⟨u, hu, hchild⟩
    · exact h.waiting other (.inl hqueue)
    · cases hhand
    · rcases List.mem_append.mp hu with hold | hnew
      · exact h.waiting other (.inr (.inr ⟨u, hold, hchild⟩))
      · obtain rfl := List.mem_singleton.mp hnew
        rw [start_children hof] at hchild
        exact h.waiting other (.inr (.inl (by rw [hmain]; exact List.mem_cons_of_mem _ hchild)))
  · rcases List.mem_append.mp hu with hold | hnew
    · exact h.entries u hold
    · obtain rfl := List.mem_singleton.mp hnew
      exact ⟨task.type, hhas⟩
  · rcases List.mem_append.mp hu with hold | hnew
    · exact h.places u hold
    · obtain rfl := List.mem_singleton.mp hnew
      exact start_place hof (h.untouched _ hfresh)
  · refine h.untouched path fun hmem => hpath ?_
    rw [List.map_append]
    exact List.mem_append_left _ hmem

theorem TreeInv.main (h : TreeInv src before s) (hdistinct : src.Distinct)
    (hmoves : MainMoves src s s') : TreeInv src before s' := by
  cases hmoves with
  | leave hmain =>
      refine h.keeps rfl rfl rfl (fun path => ?_) ?_ (fun hl => (by cases hl)) (by simp)
      · simp [CopyState.known, hmain, MainPc.tasks]
      · exact fun task hwaiting => hwaiting.of_hand rfl rfl fun hmem => absurd hmem List.not_mem_nil
  | loop hmain | poll hmain | check hmain =>
      refine h.keeps rfl rfl rfl (fun path => ?_) ?_
        (fun _ => ⟨by rw [hmain]; rfl, by simp [hmain]⟩) (by simp)
      · simp [CopyState.known, hmain, MainPc.tasks]
      · exact fun task hwaiting => hwaiting.of_hand rfl rfl fun hmem => absurd hmem List.not_mem_nil
  | abandon =>
      refine h.keeps rfl rfl rfl (fun path => ?_) ?_ (fun hl => (by cases hl)) (by simp)
      · simp [CopyState.known, MainPc.tasks, paths]
      · exact fun task hwaiting => hwaiting.of_hand rfl rfl fun hmem => absurd hmem List.not_mem_nil
  | free hmain =>
      refine h.keeps rfl rfl rfl (fun path => ?_) ?_ (fun hl => (by cases hl)) (by simp)
      · simp [CopyState.known, hmain, MainPc.tasks]
      · exact fun task hwaiting => hwaiting.of_hand rfl rfl fun hmem => absurd hmem List.not_mem_nil
  | take hmain hqueue =>
      refine h.keeps rfl rfl rfl (fun path => ?_) ?_
        (fun _ => ⟨by rw [hmain]; rfl, by simp [hmain]⟩) (by simp)
      · simp only [CopyState.known, hmain, hqueue, MainPc.tasks, paths, List.map_cons,
          List.map_nil, List.count_cons, List.count_nil]
        omega
      · rintro task (hold | hhand | hthread)
        · exact .inl (hqueue ▸ List.mem_cons_of_mem _ hold)
        · obtain rfl := List.mem_singleton.mp hhand
          exact .inl (hqueue ▸ List.mem_cons_self)
        · exact .inr (.inr hthread)
  | uncount hmain | look hmain =>
      refine h.keeps rfl rfl rfl (fun path => ?_) ?_
        (fun _ => ⟨by rw [hmain]; rfl, by simp [hmain]⟩) (by simp)
      · simp [CopyState.known, hmain, MainPc.tasks]
      · refine fun task hwaiting => hwaiting.of_hand rfl rfl fun hhand => ?_
        rw [hmain]
        exact hhand
  | list hmain hchildren => exact h.list hdistinct hmain hchildren _
  | create hmain => exact h.create hmain

/-! ## As long as no call has failed -/

theorem fine_of_thread (hget : s.threads[i]? = some t)
    (hmoves : ThreadMoves src s t.path t.pc s' pc')
    (hfine : (s'.setThread i ⟨t.path, pc'⟩).Fine) : s.Fine := by
  have hframe := hmoves.frame
  refine ⟨hframe.status ▸ hfine.status, ?_, fun u hu err hpc => ?_⟩
  · by_contra hne
    exact hframe.error hne hfine.error
  · rcases mem_set_or hget hu ⟨t.path, pc'⟩ with rfl | hmem
    · exact hmoves.failing hpc hfine.error
    · refine hfine.threads u ?_ err hpc
      simpa only [CopyState.setThread, hmoves.threads] using hmem

omit [DecidableEq N] in
theorem MainMoves.fine (h : MainMoves src s s') (hfine : s'.Fine) : s.Fine := by
  cases h with
  | abandon => exact absurd hfine.status (by simp)
  | create =>
      exact ⟨hfine.status, hfine.error, fun t ht => hfine.threads t (List.mem_append_left _ ht)⟩
  | leave | loop | poll | check | take | uncount | look | list | free =>
      exact ⟨hfine.status, hfine.error, hfine.threads⟩

structure FineInv (src : Source N) (s : CopyState N) : Prop where
  counted : s.expected = (s.threads.map fun t => t.pc.children.length).sum + s.queue.length +
    s.main.outstanding
  left : s.main.inLoop = false → s.expected = 0
  root : 0 < s.known []
  complete : ∀ path, s.Started path → ∀ child, src.Child path child → 0 < s.known child.path

theorem FineInv.thread (h : FineInv src s) (hget : s.threads[i]? = some t)
    (hmoves : ThreadMoves src s t.path t.pc s' pc')
    (hfine : (s'.setThread i ⟨t.path, pc'⟩).Fine) :
    FineInv src (s'.setThread i ⟨t.path, pc'⟩) := by
  have hframe := hmoves.frame
  have hgoes : ∀ err, pc' ≠ .failing err := by
    refine hfine.threads ⟨t.path, pc'⟩ ?_
    simp only [CopyState.setThread, hmoves.threads]
    exact mem_set_self hget _
  have hknown : ∀ path, (s'.setThread i ⟨t.path, pc'⟩).known path = s.known path := by
    intro path
    have hset := known_setThread hget hmoves path
    have hcount := hmoves.count_eq hgoes path
    omega
  refine ⟨?_, fun hleft => ?_, ?_, fun path hstarted child hchild => ?_⟩
  · have hsum := sum_map_set (fun t => t.pc.children.length) hget ⟨t.path, pc'⟩
    have hcounted := h.counted
    have hlength := hmoves.length_eq hgoes
    simp only [CopyState.setThread, hframe.main, hframe.expected, hmoves.threads] at hsum ⊢
    omega
  · exact hframe.expected.trans (h.left (hframe.main ▸ hleft))
  · rw [hknown]
    exact h.root
  · rw [hknown]
    exact h.complete path ((started_setThread hget hmoves path).mp hstarted) child hchild

theorem FineInv.keeps (h : FineInv src s) (hthreads : s'.threads = s.threads)
    (hknown : ∀ path, s'.known path = s.known path)
    (hmain : ∀ task children, s'.main ≠ .creating task children)
    (hcounted : s'.expected = (s.threads.map fun t => t.pc.children.length).sum +
      s'.queue.length + s'.main.outstanding)
    (hleft : s'.main.inLoop = false → s'.expected = 0) : FineInv src s' := by
  refine ⟨hthreads ▸ hcounted, hleft, (hknown []).symm ▸ h.root,
    fun path hstarted child hchild => ?_⟩
  rw [hknown]
  refine h.complete path ?_ child hchild
  rcases hstarted with hthread | ⟨type, children, heq⟩
  · exact .inl (hthreads ▸ hthread)
  · exact absurd heq (hmain _ _)

theorem FineInv.main (h : FineInv src s) (htree : TreeInv src before s)
    (hdistinct : src.Distinct) (hmoves : MainMoves src s s') (hfine : s'.Fine) :
    FineInv src s' := by
  have hcounted := h.counted
  cases hmoves with
  | leave hmain hend =>
      rw [hmain] at hcounted
      exact h.keeps rfl (fun path => by simp [CopyState.known, hmain, MainPc.tasks]) (by simp)
        hcounted fun _ => hend.resolve_right fun hne => hne hfine.error
  | loop hmain | poll hmain | check hmain =>
      rw [hmain] at hcounted
      exact h.keeps rfl (fun path => by simp [CopyState.known, hmain, MainPc.tasks]) (by simp)
        hcounted fun hleft => (by cases hleft)
  | abandon => exact absurd hfine.status (by simp)
  | take hmain hqueue =>
      rw [hmain, hqueue] at hcounted
      refine h.keeps rfl (fun path => ?_) (by simp) ?_ fun hleft => (by cases hleft)
      · simp only [CopyState.known, hmain, hqueue, MainPc.tasks, paths, List.map_cons,
          List.map_nil, List.count_cons, List.count_nil]
        omega
      · simp only [MainPc.outstanding, List.length_cons] at hcounted ⊢
        omega
  | uncount hmain | look hmain =>
      rw [hmain] at hcounted
      exact h.keeps rfl (fun path => by simp [CopyState.known, hmain, MainPc.tasks]) (by simp)
        hcounted fun hleft => (by cases hleft)
  | free hmain =>
      have hleft := h.left (by rw [hmain]; rfl)
      rw [hmain] at hcounted
      exact h.keeps rfl (fun path => by simp [CopyState.known, hmain, MainPc.tasks]) (by simp)
        hcounted fun _ => hleft
  | @list task children hmain hchildren =>
      rw [hmain] at hcounted
      have hhas : src.Has task :=
        htree.waiting task (.inr (.inl (by rw [hmain]; exact List.mem_cons_self)))
      have hof := childrenOf_getChildren hdistinct hhas hchildren
      have hle : ∀ path, s.known path + (paths children).count path = CopyState.known
          { s with
            expected := s.expected - 1 + children.length
            main := .creating task children } path := by
        intro path
        simp only [CopyState.known, hmain, MainPc.tasks, paths, List.map_cons, List.map_nil,
          List.count_cons, List.count_nil]
        omega
      refine ⟨?_, fun hleft => (by cases hleft), ?_, fun path hstarted child hchild => ?_⟩
      · simp only [MainPc.outstanding] at hcounted ⊢
        omega
      · rw [← hle]
        exact Nat.add_pos_left h.root _
      · rw [← hle]
        rcases hstarted with hthread | ⟨type, children', heq⟩
        · exact Nat.add_pos_left (h.complete path (.inl hthread) child hchild) _
        · cases heq
          refine Nat.add_pos_right _ (List.count_pos_iff.mpr ?_)
          exact List.mem_map_of_mem ((hof.mem child).mpr hchild)
  | @create task children hmain =>
      have hof := htree.created task children hmain
      rw [hmain] at hcounted
      refine ⟨?_, fun hleft => (by cases hleft), ?_, fun path hstarted child hchild => ?_⟩
      · simp only [MainPc.outstanding, List.map_append, List.map_cons, List.map_nil,
          List.sum_append, List.sum_cons, List.sum_nil, start_children hof] at hcounted ⊢
        omega
      · rw [known_create hmain hof]
        exact h.root
      · rw [known_create hmain hof]
        exact h.complete path ((started_create hmain path).mp hstarted) child hchild

/-! ## Every run -/

structure CopyInv (src : Source N) (before : Target N) (s : CopyState N) : Prop where
  queue : QueueInv s
  tree : TreeInv src before s
  fine : s.Fine → FineInv src s

theorem CopyInv.start (h : CopyInit before s) : CopyInv src before s := by
  obtain rfl := h
  refine ⟨⟨rfl, nofun, nofun, nofun, nofun, nofun, nofun, nofun⟩,
    ⟨fun path => ?_, fun _ name path hpos => ?_, fun task htask => ?_, nofun, nofun,
      fun _ _ => rfl, nofun⟩, fun _ => ⟨rfl, nofun, ?_, fun path hstarted => ?_⟩⟩
  · simp only [CopyState.known, paths, MainPc.tasks, List.map_nil, List.sum_nil, List.map_cons,
      List.count_cons, List.count_nil]
    split_ifs <;> omega
  · simp [CopyState.known, paths, MainPc.tasks] at hpos
  · rcases htask with hqueue | hhand | ⟨t, ht, -⟩
    · obtain rfl := List.mem_singleton.mp hqueue
      exact .root
    · cases hhand
    · cases ht
  · simp [CopyState.known, paths, MainPc.tasks]
  · rcases hstarted with hthread | ⟨type, children, heq⟩
    · cases hthread
    · cases heq

theorem CopyInv.step (h : CopyInv src before s) (hdistinct : src.Distinct) {act : CopyAct}
    (hstep : s.exec src act = some s') : CopyInv src before s' := by
  cases act with
  | main err =>
      have hmoves := mainStep_moves hstep
      exact ⟨h.queue.main hmoves, h.tree.main hdistinct hmoves, fun hfine =>
        (h.fine (hmoves.fine hfine)).main h.tree hdistinct hmoves hfine⟩
  | thread i a =>
      obtain ⟨t, s₁, pc', hget, hmoves, rfl⟩ := exec_thread hstep
      exact ⟨h.queue.thread hget hmoves, h.tree.thread hget hmoves, fun hfine =>
        (h.fine (fine_of_thread hget hmoves hfine)).thread hget hmoves hfine⟩

/-- A thread that has not exited can go on, or fail. -/
theorem exists_step (src : Source N) (s : CopyState N) {t : CopyThread N} (hpc : t.pc ≠ .exited) :
    ∃ a result, t.step src s a = some result := by
  obtain ⟨path, pc⟩ := t
  cases pc with
  | openingDir children => exact ⟨⟨none, 0, 0⟩, _, rfl⟩
  | makingDir children =>
      exact ⟨⟨some .mkdirError, 0, 0⟩, _, rfl⟩
  | pushing children =>
      cases children with
      | nil => exact ⟨⟨none, 0, 0⟩, _, rfl⟩
      | cons task children => exact ⟨⟨none, 0, 0⟩, _, rfl⟩
  | counting children => exact ⟨⟨none, 0, 0⟩, _, rfl⟩
  | openingFile =>
      exact ⟨⟨some .openError, 0, 0⟩, _, rfl⟩
  | copying offset =>
      exact ⟨⟨some .readError, 0, 0⟩, _, rfl⟩
  | failing err => exact ⟨⟨none, 0, 0⟩, _, rfl⟩
  | interrupting => exact ⟨⟨none, 0, 0⟩, _, rfl⟩
  | exited => exact absurd rfl hpc

theorem exited_of_blocked (hblocked : ∀ act, s.exec src act = none) {t : CopyThread N}
    (ht : t ∈ s.threads) : t.pc = .exited ∨ s.freed = true ∧ t.pc.usesQueue = true := by
  by_contra hnot
  obtain ⟨hpc, hqueue⟩ := not_or.mp hnot
  obtain ⟨a, result, hstep⟩ := exists_step src s hpc
  obtain ⟨i, hi⟩ := List.mem_iff_getElem?.mp ht
  have hnone := hblocked (.thread i a)
  simp only [CopyState.exec, hi, hstep, Option.bind_eq_bind, Option.bind_some, Option.pure_def,
    ite_eq_left_iff, reduceCtorEq, imp_false, not_not, Bool.and_eq_true] at hnone
  exact hqueue ⟨hnone.1.1, hnone.2⟩

/-- The main thread waits for a task, or it has exited. -/
theorem main_of_blocked (h : QueueInv s) (hblocked : ∀ act, s.exec src act = none) :
    s.main = .polling ∧ s.size = 0 ∧ s.interrupted = false ∨ s.main = .exited := by
  have hnone : s.mainSucceeds src = none := hblocked (.main none)
  cases hmain : s.main with
  | testing | uncounting | looking | creating | freeing | checking =>
      simp [CopyState.mainSucceeds, hmain] at hnone
  | polling =>
      simp only [CopyState.mainSucceeds, hmain] at hnone
      split_ifs at hnone with hwait
      exact .inl ⟨rfl, hwait⟩
  | taking =>
      have hqueue := h.finds hmain
      simp only [CopyState.mainSucceeds, hmain] at hnone
      split at hnone
      · exact absurd ‹_› hqueue
      · cases hnone
  | listing task =>
      obtain ⟨type, path⟩ := task
      cases type with
      | directory =>
          have herr := hblocked (.main (some .dirReadingError))
          simp [CopyState.exec, CopyState.mainStep, hmain, MainPc.errors] at herr
      | regularFile => simp [CopyState.mainSucceeds, hmain, getChildrenForTask] at hnone
  | exited => exact .inr rfl

omit [DecidableEq N] in
theorem sum_of_exited {threads : List (CopyThread N)} (hexited : ∀ t ∈ threads, t.pc = .exited)
    (f : CopyPc N → ℕ) (hf : f .exited = 0) : (threads.map fun t => f t.pc).sum = 0 := by
  refine List.sum_eq_zero fun n hn => ?_
  obtain ⟨t, ht, rfl⟩ := List.mem_map.mp hn
  rw [hexited t ht, hf]

theorem CopyInv.ends (h : CopyInv src before s) (hblocked : ∀ act, s.exec src act = none) :
    s.main = .exited ∧
      ∀ t ∈ s.threads, t.pc = .exited ∨ s.freed = true ∧ t.pc.usesQueue = true := by
  rcases main_of_blocked h.queue hblocked with ⟨hmain, hsize, hnot⟩ | hmain
  · -- nobody is left who could put a task in the queue, so that there is none to wait for
    have hexited : ∀ t ∈ s.threads, t.pc = .exited := by
      intro t ht
      refine (exited_of_blocked hblocked ht).resolve_right fun ⟨hfreed, _⟩ => ?_
      have hexited := h.queue.freed hfreed
      rw [hmain] at hexited
      cases hexited
    have herror : s.error = none := by
      by_contra hne
      rcases h.queue.interrupted hne with hinterrupted | ⟨t, ht, hpc⟩
      · rw [hnot] at hinterrupted
        cases hinterrupted
      · rw [hexited t ht] at hpc
        cases hpc
    have hstatus : s.status = none := by
      by_contra hne
      have hloop := h.queue.status hne
      rw [hmain] at hloop
      cases hloop
    have hfine : s.Fine := ⟨hstatus, herror, fun t ht err => by rw [hexited t ht]; nofun⟩
    have hcounted := (h.fine hfine).counted
    have hsizes := h.queue.sizes
    have hpos := h.queue.polling hmain
    rw [hmain, sum_of_exited hexited (fun pc => pc.children.length) rfl] at hcounted
    rw [hmain, sum_of_exited hexited CopyPc.counts rfl] at hsizes
    simp only [MainPc.outstanding, MainPc.counts] at hcounted hsizes
    omega
  · exact ⟨hmain, fun t ht => exited_of_blocked hblocked ht⟩

/-- What is left when the main thread has left its loop and no call has failed. -/
theorem CopyInv.nothing (h : CopyInv src before s) (hfine : s.Fine)
    (hmain : s.main = .exited) : s.queue = [] ∧ ∀ t ∈ s.threads,
      t.pc.children = [] ∧ t.pc.counts = 0 := by
  have hcounted := (h.fine hfine).counted
  have hzero := (h.fine hfine).left (by rw [hmain]; rfl)
  have hsizes := h.queue.sizes
  rw [hzero] at hcounted
  rw [hmain] at hsizes
  have hqueue : s.queue.length = 0 := by omega
  have hchildren : (s.threads.map fun t => t.pc.children.length).sum = 0 := by omega
  have hcounts : (s.threads.map fun t => t.pc.counts).sum = 0 := by
    simp only [MainPc.counts] at hsizes
    omega
  refine ⟨List.length_eq_zero_iff.mp hqueue, fun t ht => ⟨?_, ?_⟩⟩
  · exact List.length_eq_zero_iff.mp
      (List.sum_eq_zero_iff_forall_eq_nat.mp hchildren _ (List.mem_map_of_mem ht))
  · exact List.sum_eq_zero_iff_forall_eq_nat.mp hcounts _ (List.mem_map_of_mem ht)

theorem CopyInv.unused (h : CopyInv src before s) (hfine : s.Fine) (hfreed : s.freed = true)
    {t : CopyThread N} (ht : t ∈ s.threads) : t.pc.usesQueue = false := by
  obtain ⟨-, hleft⟩ := h.nothing hfine (h.queue.freed hfreed)
  obtain ⟨hchildren, hcounts⟩ := hleft t ht
  have hplace := h.tree.places t ht
  cases hpc : t.pc with
  | pushing children =>
      rw [hpc] at hchildren
      obtain rfl : children = [] := hchildren
      rfl
  | counting children =>
      rw [hpc] at hcounts
      cases hcounts
  | interrupting =>
      rw [Place, hpc] at hplace
      exact absurd hfine.error hplace
  | openingDir | makingDir | openingFile | copying | failing | exited => rfl

theorem CopyInv.everything (h : CopyInv src before s) (hfine : s.Fine) (hmain : s.main = .exited)
    (hexited : ∀ t ∈ s.threads, t.pc = .exited) {task : CopyTask N} (hhas : src.Has task) :
    task.path ∈ s.threads.map CopyThread.path := by
  obtain ⟨hqueue, -⟩ := h.nothing hfine hmain
  have hthread : ∀ path, 0 < s.known path → path ∈ s.threads.map CopyThread.path := by
    intro path hpos
    by_contra hnot
    have hzero : (s.threads.map (CopyThread.knows path)).sum = 0 := by
      refine List.sum_eq_zero fun n hn => ?_
      obtain ⟨t, ht, rfl⟩ := List.mem_map.mp hn
      have hne : t.path ≠ path := by
        rintro rfl
        exact hnot (List.mem_map_of_mem ht)
      rw [CopyThread.knows, if_neg hne, hexited t ht]
      rfl
    rw [CopyState.known, hzero, hqueue, hmain] at hpos
    cases hpos
  induction hhas with
  | root => exact hthread [] (h.fine hfine).root
  | child hdir hchild ih =>
      exact hthread _ ((h.fine hfine).complete _ (.inl ih) _ hchild)

/-- In every order of the steps of any number of threads, whichever calls fail. -/
theorem copySound_of_run (hdistinct : src.Distinct) {hist : List CopyAct}
    (hrun : CopyRun src before hist s) : CopySound src before s := by
  have h : CopyInv src before s :=
    hrun.invariant (I := fun _ s => CopyInv src before s) (fun _ => .start)
      fun _ _ _ _ h hstep => h.step hdistinct hstep
  refine ⟨h.queue.finds, h.tree.nodup, h.tree.entries, h.tree.untouched, h.ends,
    fun hfine hfreed t ht => h.unused hfine hfreed ht, fun hfine hmain hexited task hhas => ?_⟩
  obtain ⟨t, ht, hpath⟩ := List.mem_map.mp (h.everything hfine hmain hexited hhas)
  have hplace := h.tree.places t ht
  rw [Place, hexited t ht, hpath] at hplace
  exact hplace.resolve_right fun hne => hne hfine.error

def sourceTree : Source ℕ
  | [] => some (.dir [.dot, .dotDot, .name 1, .name 2])
  | [1] => some (.file [97, 98])
  | [2] => some (.dir [.name 3, .name 4])
  | [3, 2] => some (.file [99])
  | [4, 2] => some .other
  | _ => none

def targetTree : Target ℕ
  | [] => some .dir
  | [1] => some (.file [0, 0, 0])
  | _ => none

theorem distinct_sourceTree : sourceTree.Distinct := by
  intro path entries hdir
  unfold sourceTree at hdir
  split at hdir <;> cases hdir
  · decide
  · decide

def allTaken : List CopyAct :=
  List.replicate 8 (.main none) ++ List.replicate 7 (.thread 0 ⟨none, 0, 0⟩) ++
    List.replicate 16 (.main none) ++ List.replicate 5 (.thread 2 ⟨none, 0, 0⟩) ++
      List.replicate 10 (.main none)

/-- The files are copied in the end. If one of them cannot be read, its thread comes to use the
queue that has been freed. -/
theorem copySound_sourceTree :
    (∃ s, CopyRun sourceTree targetTree (allTaken ++
        List.replicate 3 (.thread 1 ⟨none, 2, 0⟩) ++ List.replicate 3 (.thread 3 ⟨none, 1, 0⟩)) s ∧
      (∀ t ∈ s.threads, t.pc = .exited) ∧ s.target [1] = some (.file [97, 98, 0]) ∧
      s.target [2] = some .dir ∧ s.target [3, 2] = some (.file [99]) ∧ s.target [4, 2] = none ∧
      CopySound sourceTree targetTree s) ∧
    ∃ s, CopyRun sourceTree targetTree (allTaken ++
        [.thread 1 ⟨none, 0, 0⟩, .thread 1 ⟨some .readError, 0, 0⟩, .thread 1 ⟨none, 0, 0⟩]) s ∧
      s.freed = true ∧ s.threads[1]? = some ⟨[1], .interrupting⟩ := by
  have hinit : CopyInit targetTree (⟨targetTree, [⟨.directory, []⟩], 1, false, false, none, none, 1,
      .testing, []⟩ : CopyState ℕ) := rfl
  constructor
  · obtain ⟨s, hrun, hexited, hfirst, hdir, hsecond, hother⟩ := Lts.exists_run
      (CopyState.exec sourceTree) (allTaken ++ List.replicate 3 (.thread 1 ⟨none, 2, 0⟩) ++
        List.replicate 3 (.thread 3 ⟨none, 1, 0⟩))
      (fun s => (∀ t ∈ s.threads, t.pc = .exited) ∧
        s.target [1] = some (.file [97, 98, 0]) ∧ s.target [2] = some .dir ∧
        s.target [3, 2] = some (.file [99]) ∧ s.target [4, 2] = none)
      hinit (by decide +kernel)
    exact ⟨s, hrun, hexited, hfirst, hdir, hsecond, hother,
      copySound_of_run distinct_sourceTree hrun⟩
  · exact Lts.exists_run (CopyState.exec sourceTree) (allTaken ++
        [.thread 1 ⟨none, 0, 0⟩, .thread 1 ⟨some .readError, 0, 0⟩, .thread 1 ⟨none, 0, 0⟩])
      (fun s => s.freed = true ∧ s.threads[1]? = some ⟨[1], .interrupting⟩) hinit
      (by decide +kernel)

end CopyTree

end PosixThreads
