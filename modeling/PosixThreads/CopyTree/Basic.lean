import Mathlib.Data.List.Nodup
import PosixThreads.Library.Lts

/-!
# Copying a tree of directories

The main thread takes tasks from a queue, one for each directory and each file, and gives every task
to a detached thread of its own. Before it does so it lists the children of a directory. The thread
of the directory makes the directory and puts the tasks for the children in the queue. The main
thread counts the tasks that are still to come, and leaves its loop at zero, or when a thread has
failed. Then it frees the queue, while threads may still be copying. What becomes of a thread that
uses the queue after that cannot be told, and it has no step.

The source does not change meanwhile, and the copy is not inside it. A path is the list of its
names, the last one first. A call that is tried again is one step.
-/

namespace PosixThreads

namespace CopyTree

inductive DirEntry (N : Type)
  | dot
  | dotDot
  | name (name : N)
  deriving DecidableEq, Repr

def DirEntry.name? {N : Type} : DirEntry N → Option N
  | .name entry => some entry
  | _ => none

inductive SourceNode (N : Type)
  | file (bytes : List UInt8)
  | dir (entries : List (DirEntry N))
  | other
  deriving DecidableEq, Repr

inductive TargetNode
  | file (bytes : List UInt8)
  | dir
  deriving DecidableEq, Repr

abbrev Source (N : Type) := List N → Option (SourceNode N)

abbrev Target (N : Type) := List N → Option TargetNode

inductive TaskType
  | directory
  | regularFile
  deriving DecidableEq, Repr

/-- `copy_task`. The two paths differ in their roots. -/
structure CopyTask (N : Type) where
  type : TaskType
  path : List N
  deriving DecidableEq, Repr

/-- `ERRORS`, and the result of an `open` or `close` that fails. -/
inductive CopyError
  | openFailed
  | memoryAllocationError
  | fdopendirError
  | rightsError
  | mkdirError
  | statError
  | pthreadCreateError
  | openError
  | closeError
  | readError
  | writeError
  | queueError
  | dirReadingError
  deriving DecidableEq, Repr

/-- Where a copying thread is. `copy_directory` is in front of `open`, of `mkdir`, of `queue_push`
and of its `atomic_fetch_add`, with the tasks that are left; `copy_file` is in front of `open` or of
`read`. A thread that fails sets `error` and then `interrupted`. -/
inductive CopyPc (N : Type)
  | openingDir (children : List (CopyTask N))
  | makingDir (children : List (CopyTask N))
  | pushing (children : List (CopyTask N))
  | counting (children : List (CopyTask N))
  | openingFile
  | copying (offset : ℕ)
  | failing (err : CopyError)
  | interrupting
  | exited
  deriving DecidableEq, Repr

structure CopyThread (N : Type) where
  path : List N
  pc : CopyPc N
  deriving DecidableEq, Repr

/-- Where the main thread is: at the condition of its loop, in `queue_pop`, in front of the look at
`error`, of `get_children_for_task`, of `pthread_create` or of `free_queue`. -/
inductive MainPc (N : Type)
  | testing
  | polling
  | checking
  | taking
  | uncounting (task : CopyTask N)
  | looking (task : CopyTask N)
  | listing (task : CopyTask N)
  | creating (task : CopyTask N) (children : List (CopyTask N))
  | freeing
  | exited
  deriving DecidableEq, Repr

/-- The copy, the queue, `error`, and `return_status` and `expected_tasks` of the main thread. -/
structure CopyState (N : Type) where
  target : Target N
  queue : List (CopyTask N)
  size : ℕ
  interrupted : Bool
  freed : Bool
  error : Option CopyError
  status : Option CopyError
  expected : ℕ
  main : MainPc N
  threads : List (CopyThread N)

/-- The error of a call that fails, if one does; how many bytes `read` gives, and how many of them
`write` takes when it fails. -/
structure CopyAnswer where
  err : Option CopyError
  read : ℕ
  written : ℕ
  deriving DecidableEq, Repr

def readBufferSize : ℕ := 1024

section Code

variable {N : Type}

def SourceNode.taskType : SourceNode N → Option TaskType
  | .file _ => some .regularFile
  | .dir _ => some .directory
  | .other => none

/-- The loop of `count_and_create_tasks_list_for_dir_children`, which fails if `lstat` does. -/
def childTasks (src : Source N) (path : List N) : List (DirEntry N) → Option (List (CopyTask N))
  | [] => some []
  | .dot :: entries | .dotDot :: entries => childTasks src path entries
  | .name name :: entries => do
      let node ← src (name :: path)
      match node.taskType with
      | none => childTasks src path entries
      | some type => return ⟨type, name :: path⟩ :: (← childTasks src path entries)

def getChildrenForTask (src : Source N) (task : CopyTask N) : Option (List (CopyTask N)) :=
  match task.type with
  | .regularFile => some []
  | .directory =>
      match src task.path with
      | some (.dir entries) => childTasks src task.path entries
      | _ => none

variable [DecidableEq N]

/-- There is a directory to make an entry in. The one that the root is in is there. -/
def Target.hasParent (target : Target N) : List N → Bool
  | [] => true
  | _ :: path => target path = some .dir

/-- `mkdir` and `access`. -/
def Target.makeDir (target : Target N) (path : List N) : Option (Target N) :=
  if (target path).isSome then some target
  else if target.hasParent path then some (Function.update target path (some .dir))
  else none

/-- `open` for the copy of a file, which keeps what is there. -/
def Target.openFile (target : Target N) (path : List N) : Option (Target N) :=
  match target path with
  | some .dir => none
  | some (.file _) => some target
  | none =>
      if target.hasParent path then some (Function.update target path (some (.file [])))
      else none

def Target.write (target : Target N) (path : List N) (offset : ℕ) (chunk : List UInt8) :
    Target N :=
  match target path with
  | some (.file bytes) =>
      Function.update target path
        (some (.file (bytes.take offset ++ chunk ++ bytes.drop (offset + chunk.length))))
  | _ => target

/-- `read`, in front of the end of a file. -/
def readChunk (bytes : List UInt8) (offset count : ℕ) : Option (List UInt8) :=
  if 0 < count ∧ count ≤ readBufferSize ∧ offset + count ≤ bytes.length then
    some ((bytes.drop offset).take count)
  else none

def CopyThread.succeeds (src : Source N) (t : CopyThread N) (s : CopyState N) (count : ℕ) :
    Option (CopyState N × CopyPc N) :=
  match t.pc with
  | .openingDir children => some (s, .makingDir children)
  | .makingDir children =>
      (s.target.makeDir t.path).map fun target => ({ s with target := target }, .pushing children)
  | .pushing [] => some (s, .exited)
  | .pushing (task :: children) => some ({ s with queue := s.queue ++ [task] }, .counting children)
  | .counting children => some ({ s with size := s.size + 1 }, .pushing children)
  | .openingFile =>
      (s.target.openFile t.path).map fun target => ({ s with target := target }, .copying 0)
  | .copying offset =>
      match src t.path with
      | some (.file bytes) =>
          if offset = bytes.length then some (s, .exited)
          else
            (readChunk bytes offset count).map fun chunk =>
              ({ s with target := s.target.write t.path offset chunk },
                .copying (offset + chunk.length))
      | _ => none
  | .failing err => some ({ s with error := some err }, .interrupting)
  | .interrupting => some ({ s with interrupted := true }, .exited)
  | .exited => none

def CopyPc.errors : CopyPc N → List CopyError
  | .openingDir _ => [.fdopendirError]
  | .makingDir _ => [.rightsError, .mkdirError]
  | .pushing (_ :: _) => [.queueError]
  | .openingFile => [.openFailed, .statError, .openError, .memoryAllocationError]
  | .copying _ => [.readError, .writeError, .closeError]
  | _ => []

/-- What a thread leaves of the copy if a call fails: there is no memory when the file has been
opened, `write` may take a part, and `close` comes at the end. -/
def CopyThread.leaves (src : Source N) (t : CopyThread N) (target : Target N) (a : CopyAnswer)
    (err : CopyError) : Option (Target N) :=
  match t.pc, err with
  | .openingFile, .memoryAllocationError => target.openFile t.path
  | .copying offset, .writeError =>
      match src t.path with
      | some (.file bytes) => do
          let chunk ← readChunk bytes offset a.read
          if a.written < chunk.length then
            return target.write t.path offset (chunk.take a.written)
          else none
      | _ => none
  | .copying offset, .closeError =>
      match src t.path with
      | some (.file bytes) => if offset = bytes.length then some target else none
      | _ => none
  | _, _ => some target

def CopyThread.step (src : Source N) (t : CopyThread N) (s : CopyState N) (a : CopyAnswer) :
    Option (CopyState N × CopyPc N) :=
  match a.err with
  | none => t.succeeds src s a.read
  | some err =>
      if err ∈ t.pc.errors then
        (t.leaves src s.target a err).map fun target => ({ s with target := target }, .failing err)
      else none

/-- The thread uses the queue next, unless there is no memory for a node. -/
def CopyPc.usesQueue : CopyPc N → Bool
  | .pushing (_ :: _) | .counting _ | .interrupting => true
  | _ => false

def CopyTask.start (task : CopyTask N) (children : List (CopyTask N)) : CopyThread N :=
  ⟨task.path, match task.type with
    | .directory => .openingDir children
    | .regularFile => .openingFile⟩

/-- A step of the main thread in which no call fails. There is none from a `queue_pop` that finds no
node. -/
def CopyState.mainSucceeds (src : Source N) (s : CopyState N) : Option (CopyState N) :=
  match s.main with
  | .testing =>
      some { s with main := if 0 < s.expected ∧ s.error = none then .polling else .freeing }
  | .polling =>
      if s.size = 0 ∧ s.interrupted = false then none else some { s with main := .checking }
  | .checking =>
      some (if s.interrupted then { s with status := some .queueError, main := .freeing }
        else { s with main := .taking })
  | .taking =>
      match s.queue with
      | [] => none
      | task :: queue => some { s with queue := queue, main := .uncounting task }
  | .uncounting task => some { s with size := s.size - 1, main := .looking task }
  | .looking task =>
      some (match s.error with
        | some err => { s with status := some err, main := .freeing }
        | none => { s with main := .listing task })
  | .listing task =>
      (getChildrenForTask src task).map fun children =>
        { s with expected := s.expected - 1 + children.length, main := .creating task children }
  | .creating task children =>
      some { s with threads := s.threads ++ [task.start children], main := .testing }
  | .freeing => some { s with freed := true, main := .exited }
  | .exited => none

def MainPc.errors : MainPc N → List CopyError
  | .listing ⟨.directory, _⟩ => [.dirReadingError]
  | .creating ⟨.directory, _⟩ _ => [.memoryAllocationError, .pthreadCreateError]
  | .creating ⟨.regularFile, _⟩ _ => [.pthreadCreateError]
  | _ => []

def CopyState.mainStep (src : Source N) (s : CopyState N) (err : Option CopyError) :
    Option (CopyState N) :=
  match err with
  | none => s.mainSucceeds src
  | some err =>
      if err ∈ s.main.errors then some { s with status := some err, main := .freeing } else none

end Code

inductive CopyAct
  | main (err : Option CopyError)
  | thread (i : ℕ) (a : CopyAnswer)
  deriving DecidableEq, Repr

section Runs

variable {N : Type} [DecidableEq N]

def CopyState.exec (src : Source N) (s : CopyState N) : CopyAct → Option (CopyState N)
  | .main err => s.mainStep src err
  | .thread i a => do
      let t ← s.threads[i]?
      if s.freed && a.err.isNone && t.pc.usesQueue then none
      else
        let (s, pc) ← t.step src s a
        return { s with threads := s.threads.set i { t with pc := pc } }

def CopyInit (target : Target N) (s : CopyState N) : Prop :=
  s = ⟨target, [⟨.directory, []⟩], 1, false, false, none, none, 1, .testing, []⟩

abbrev CopyRun (src : Source N) (target : Target N) : List CopyAct → CopyState N → Prop :=
  Lts.Run (CopyInit target) fun s act s' => s.exec src act = some s'

end Runs

section Sound

variable {N : Type}

def Source.Distinct (src : Source N) : Prop :=
  ∀ path entries, src path = some (.dir entries) → (entries.filterMap DirEntry.name?).Nodup

def Source.Child (src : Source N) (path : List N) (child : CopyTask N) : Prop :=
  ∃ entries name node, src path = some (.dir entries) ∧ .name name ∈ entries ∧
    child.path = name :: path ∧ src child.path = some node ∧ node.taskType = some child.type

inductive Source.Has (src : Source N) : CopyTask N → Prop
  | root : Has src ⟨.directory, []⟩
  | child {path : List N} {task : CopyTask N} (hdir : Has src ⟨.directory, path⟩)
      (hchild : src.Child path task) : Has src task

/-- What has been in the place of a file. -/
def Target.old (target : Target N) (path : List N) : List UInt8 :=
  match target path with
  | some (.file bytes) => bytes
  | _ => []

/-- There is a directory, or the file that has been in its place: `mkdir` fails then, and `access`
lets the file pass. -/
def Made (before target : Target N) (path : List N) : Prop :=
  target path = some .dir ∨
    ∃ bytes, before path = some (.file bytes) ∧ target path = some (.file bytes)

/-- A directory has been made, and a file has the bytes of the source, followed by what was longer
in the old one. -/
def Copied (src : Source N) (before target : Target N) (path : List N) : Prop :=
  match src path with
  | some (.dir _) => Made before target path
  | some (.file bytes) =>
      target path = some (.file (bytes ++ (before.old path).drop bytes.length))
  | _ => True

structure CopyState.Fine (s : CopyState N) : Prop where
  status : s.status = none
  error : s.error = none
  threads : ∀ t ∈ s.threads, ∀ err, t.pc ≠ .failing err

/-- The queue is not empty when a node is taken, every entry of the source has one thread at most,
and nothing else of the copy is changed. Nothing is blocked for ever, but for a thread that uses the
queue when it has been freed. If no call fails, there is no such thread, and everything has been
copied in the end. -/
structure CopySound [DecidableEq N] (src : Source N) (before : Target N) (s : CopyState N) :
    Prop where
  taking : s.main = .taking → s.queue ≠ []
  once : (s.threads.map CopyThread.path).Nodup
  entries : ∀ t ∈ s.threads, ∃ type, src.Has ⟨type, t.path⟩
  untouched : ∀ path, path ∉ s.threads.map CopyThread.path → s.target path = before path
  ends : (∀ act, s.exec src act = none) → s.main = .exited ∧
    ∀ t ∈ s.threads, t.pc = .exited ∨ s.freed = true ∧ t.pc.usesQueue = true
  freed : s.Fine → s.freed = true → ∀ t ∈ s.threads, t.pc.usesQueue = false
  copied : s.Fine → s.main = .exited → (∀ t ∈ s.threads, t.pc = .exited) →
    ∀ task, src.Has task → Copied src before s.target task.path

end Sound

end CopyTree

end PosixThreads
