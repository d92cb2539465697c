import PosixThreads.Library.Lts
import PosixThreads.ProxyWorker.Basic

/-!
# The lock of the cache

`readClientRequest` locks the cache when it has got a `GET` request. It forgets to unlock it when
the request is for a resource that is not in the cache and has no `Host` header, or when it cannot
connect to the host. From then on every other worker waits at its next `GET` request.
-/

namespace PosixThreads

variable {M : Type}

/-- The answers let a worker connect to a host, whose address it may know already. -/
def ConnectAnswers.connects (answers : ConnectAnswers) (known : Bool) : Bool :=
  answers.socket.isSome && answers.nonblocking && (known || answers.resolves) &&
    decide (answers.connect ≠ .failed)

/-- The resource is in the cache, or the request has a `Host` header and the worker can connect to
this host. -/
def HttpRequest.served (request : HttpRequest) (w : ProxyWorker M) (table : CacheTable M)
    (answers : ConnectAnswers) : Bool :=
  (table request.uri).isSome || request.host?.any fun host => answers.connects (w.dnsMap host)

section Request

variable {parse : M → Option HttpRequest} {w : ProxyWorker M} {fd : ℕ} {message : M}
  {request : HttpRequest} {table : CacheTable M} {answers : ConnectAnswers}

theorem ProxyWorker.isSome_beginConnectToServer (w : ProxyWorker M) (host : String)
    (answers : ConnectAnswers) :
    (w.beginConnectToServer host answers).1.isSome = answers.connects (w.dnsMap host) := by
  obtain ⟨socket, nonblocking, resolves, connect⟩ := answers
  cases socket with
  | none => rfl
  | some sd =>
      cases nonblocking with
      | false => simp [ProxyWorker.beginConnectToServer, ConnectAnswers.connects]
      | true =>
          cases hknown : w.dnsMap host <;> cases resolves <;> cases connect <;>
            simp [ProxyWorker.beginConnectToServer, ConnectAnswers.connects, hknown]

/-- The second part of `readClientRequest` unlocks the cache for the requests that can be served. -/
theorem ProxyWorker.unlocked_finishRequest :
    (w.finishRequest fd message request table answers).unlocked =
      request.served w table answers := by
  cases hres : table request.uri with
  | some res => simp [ProxyWorker.finishRequest, hres, HttpRequest.served, answerFromCache]
  | none =>
      cases hhost : request.host? with
      | none => simp [ProxyWorker.finishRequest, hres, HttpRequest.served, fetchFromServer, hhost]
      | some host =>
          have hconnects := w.isSome_beginConnectToServer host answers
          simp only [ProxyWorker.finishRequest, hres, HttpRequest.served, fetchFromServer, hhost,
            Option.any_some, Option.isSome_none, Bool.false_or, ← hconnects]
          split <;> simp_all

/-- A message whose request makes a worker lock the cache and can be served then, or does not make
it lock the cache at all. -/
def Releases (parse : M → Option HttpRequest) (w : ProxyWorker M) (message : M)
    (table : CacheTable M) (answers : ConnectAnswers) : Prop :=
  ∀ request, parse message = some request → request.method = "GET" →
    request.served w table answers = true

/-- `readClientRequest` returns in any case, and without the lock exactly for those messages. -/
theorem ProxyWorker.readClientRequest_unlocked (hclient : (w.clients fd).isSome = true) :
    ∃ code unlocked, w.readClientRequest parse fd message table answers = some (code, unlocked) ∧
      (unlocked = true ↔ Releases parse w message table answers) := by
  obtain ⟨client, hclient⟩ := Option.isSome_iff_exists.mp hclient
  cases hparse : parse message with
  | none =>
      refine ⟨StatusCode.fail, true, ?_, ?_⟩
      · simp [ProxyWorker.readClientRequest, ProxyWorker.beginRequest, hclient, hparse]
      · simp [Releases, hparse]
  | some request =>
      by_cases hget : request.method = "GET"
      · let w' := w.setClient fd { client with
          msgQueue := []
          recvMsgCount := 0
          written := []
          resName := request.uri }
        have hserved : request.served w' table answers = request.served w table answers := rfl
        refine ⟨(w'.finishRequest fd message request table answers).code,
          (w'.finishRequest fd message request table answers).unlocked, ?_, ?_⟩
        · simp [ProxyWorker.readClientRequest, ProxyWorker.beginRequest, hclient, hparse, hget, w']
        · rw [ProxyWorker.unlocked_finishRequest, hserved]
          simp [Releases, hparse, hget]
      · refine ⟨StatusCode.success, true, ?_, ?_⟩
        · simp [ProxyWorker.readClientRequest, ProxyWorker.beginRequest, hclient, hparse, hget]
        · simp [Releases, hparse, hget]

end Request

/-! ## Several workers -/

/-- Where a worker is: not in `readClientRequest`, in `cache->lock()`, or between it and the end
of `readClientRequest`. -/
inductive RequestPc (M : Type)
  | outside
  | locking (fd : ℕ) (message : M) (request : HttpRequest)
  | holding (fd : ℕ) (message : M) (request : HttpRequest)

def RequestPc.isOutside : RequestPc M → Bool
  | .outside => true
  | _ => false

def RequestPc.isLocking : RequestPc M → Bool
  | .locking _ _ _ => true
  | _ => false

/-- The workers and the cache, with the worker that holds its lock. -/
structure WorkerProxy (M : Type) where
  workers : List (ProxyWorker M × RequestPc M)
  table : CacheTable M
  holder : Option ℕ

/-- What a worker does: it reads a request, it gets the lock, it leaves `readClientRequest`, or it
does something else. -/
inductive ProxyAct (M : Type)
  | read (i fd : ℕ) (message : M)
  | lock (i : ℕ)
  | finish (i : ℕ) (answers : ConnectAnswers)
  | other (i : ℕ) (worker : ProxyWorker M) (table : CacheTable M)

namespace WorkerProxy

def new (n : ℕ) : WorkerProxy M where
  workers := (List.range n).map fun id =>
    (⟨id, fun _ => none, fun _ => none, fun _ => false, fun _ => false, fun _ => false⟩, .outside)
  table := fun _ => none
  holder := none

/-- `readMessageFrom` for a client that has sent something, up to `cache->lock()`. -/
def read (parse : M → Option HttpRequest) (w : ProxyWorker M) (fd : ℕ) (message : M) :
    Option (ProxyWorker M × RequestPc M) := do
  let w := if (w.clients fd).isSome then w else w.setClient fd .new
  match ← w.beginRequest parse fd message with
  | (.returned _, w) => return (w, .outside)
  | (.locks request, w) => return (w, .locking fd message request)

def exec (parse : M → Option HttpRequest) (s : WorkerProxy M) :
    ProxyAct M → Option (WorkerProxy M)
  | .read i fd message =>
      match s.workers[i]? with
      | some (w, .outside) => do
          return { s with workers := s.workers.set i (← read parse w fd message) }
      | _ => none
  | .lock i =>
      match s.workers[i]?, s.holder with
      | some (w, .locking fd message request), none => some { s with
          workers := s.workers.set i (w, .holding fd message request)
          holder := some i }
      | _, _ => none
  | .finish i answers =>
      match s.workers[i]? with
      | some (w, .holding fd message request) =>
          let done := w.finishRequest fd message request s.table answers
          some ⟨s.workers.set i (done.worker, .outside), done.table,
            if done.unlocked then none else s.holder⟩
      | _ => none
  | .other i worker table =>
      match s.workers[i]? with
      | some (_, .outside) => some { s with
          workers := s.workers.set i (worker, .outside)
          table := table }
      | _ => none

def Init (s : WorkerProxy M) : Prop := ∃ n, s = new n

def Step (parse : M → Option HttpRequest) (s : WorkerProxy M) (act : ProxyAct M)
    (s' : WorkerProxy M) : Prop :=
  s.exec parse act = some s'

/-- A worker waits for the lock, and the one that holds it is not in `readClientRequest`. -/
def Stalled (s : WorkerProxy M) : Prop :=
  ∃ (i fd : ℕ) (w : ProxyWorker M) (message : M) (request : HttpRequest),
    s.workers[i]? = some (w, .locking fd message request) ∧
    ∃ (j : ℕ) (w' : ProxyWorker M), s.holder = some j ∧ s.workers[j]? = some (w', .outside)

end WorkerProxy

def ProxyAct.served (s : WorkerProxy M) : ProxyAct M → Bool
  | .finish i answers =>
      match s.workers[i]? with
      | some (w, .holding _ _ request) => request.served w s.table answers
      | _ => true
  | _ => true

section Runs

variable {parse : M → Option HttpRequest} {s s' : WorkerProxy M} {act : ProxyAct M}
  {hist : List (ProxyAct M)}

/-- The worker that holds the lock is in `readClientRequest`, and nobody else believes to hold
it. -/
structure HoldInv (s : WorkerProxy M) : Prop where
  holder : ∀ j, s.holder = some j →
    ∃ w fd message request, s.workers[j]? = some (w, RequestPc.holding fd message request)
  holding : ∀ {i w fd message request},
    s.workers[i]? = some (w, RequestPc.holding fd message request) → s.holder = some i

theorem HoldInv.of_init (hinit : s.Init) : HoldInv s := by
  obtain ⟨n, rfl⟩ := hinit
  constructor
  · simp [WorkerProxy.new]
  · intro i w fd message request hi
    simp only [WorkerProxy.new, List.getElem?_map, Option.map_eq_some_iff] at hi
    obtain ⟨id, _, heq⟩ := hi
    simp at heq

/-- A worker that neither gets nor gives back the lock does something. -/
theorem HoldInv.set {i : ℕ} {w w' : ProxyWorker M} {pc pc' : RequestPc M} (hinv : HoldInv s)
    (hi : s.workers[i]? = some (w, pc))
    (hpc : ∀ fd message request, pc ≠ .holding fd message request)
    (hpc' : ∀ fd message request, pc' ≠ .holding fd message request) (table : CacheTable M) :
    HoldInv ⟨s.workers.set i (w', pc'), table, s.holder⟩ := by
  obtain ⟨hlt, _⟩ := List.getElem?_eq_some_iff.mp hi
  constructor
  · intro j hj
    obtain ⟨v, fd, message, request, hv⟩ := hinv.holder j hj
    have hne : i ≠ j := by
      rintro rfl
      rw [hi, Option.some.injEq, Prod.mk.injEq] at hv
      exact hpc _ _ _ hv.2
    exact ⟨v, fd, message, request, (List.getElem?_set_ne hne).trans hv⟩
  · intro j v fd message request hj
    by_cases hij : i = j
    · subst hij
      rw [List.getElem?_set_self hlt, Option.some.injEq, Prod.mk.injEq] at hj
      exact absurd hj.2 (hpc' _ _ _)
    · rw [List.getElem?_set_ne hij] at hj
      exact hinv.holding hj

theorem WorkerProxy.read_ne_holding {w w' : ProxyWorker M} {pc : RequestPc M} {fd : ℕ}
    {message : M} (h : WorkerProxy.read parse w fd message = some (w', pc)) :
    ∀ fd message request, pc ≠ .holding fd message request := by
  simp only [WorkerProxy.read, Option.bind_eq_bind, Option.bind_eq_some_iff] at h
  obtain ⟨⟨start, v⟩, _, h⟩ := h
  cases start <;> simp only [Option.pure_def, Option.some.injEq, Prod.mk.injEq] at h <;>
    simp [← h.2]

theorem HoldInv.step (hinv : HoldInv s) (hserved : act.served s = true) (h : s.Step parse act s') :
    HoldInv s' := by
  cases act with
  | read i fd message =>
      simp only [WorkerProxy.Step, WorkerProxy.exec] at h
      split at h
      · rename_i w hi
        simp only [Option.bind_eq_bind, Option.bind_eq_some_iff, Option.pure_def,
          Option.some.injEq] at h
        obtain ⟨⟨w', pc'⟩, hread, rfl⟩ := h
        exact hinv.set hi (by simp) (WorkerProxy.read_ne_holding hread) s.table
      · simp at h
  | lock i =>
      simp only [WorkerProxy.Step, WorkerProxy.exec] at h
      split at h
      · rename_i w fd message request hi hfree
        rw [← Option.some.inj h]
        obtain ⟨hlt, _⟩ := List.getElem?_eq_some_iff.mp hi
        constructor
        · intro j hj
          obtain rfl : i = j := Option.some.inj hj
          exact ⟨w, fd, message, request, List.getElem?_set_self hlt⟩
        · intro j v fd' message' request' hj
          by_cases hij : i = j
          · rw [hij]
          · simp only [List.getElem?_set_ne hij] at hj
            have hholder := hinv.holding hj
            simp [hfree] at hholder
      · simp at h
  | finish i answers =>
      simp only [WorkerProxy.Step, WorkerProxy.exec] at h
      split at h
      · rename_i w fd message request hi
        have hunlocked : (w.finishRequest fd message request s.table answers).unlocked = true := by
          rw [ProxyWorker.unlocked_finishRequest]
          simpa [ProxyAct.served, hi] using hserved
        rw [← Option.some.inj h]
        constructor
        · simp [hunlocked]
        · intro j v fd' message' request' hj
          have hne : i ≠ j := by
            rintro rfl
            obtain ⟨hlt, _⟩ := List.getElem?_eq_some_iff.mp hi
            simp [hlt] at hj
          simp only [List.getElem?_set_ne hne] at hj
          have heq := (hinv.holding hi).symm.trans (hinv.holding hj)
          exact absurd (Option.some.inj heq) hne
      · simp at h
  | other i worker table =>
      simp only [WorkerProxy.Step, WorkerProxy.exec] at h
      split at h
      · rename_i w hi
        rw [← Option.some.inj h]
        exact hinv.set hi (by simp) (by simp) table
      · simp at h

end Runs

/-- `readClientRequest` gives the lock back for the messages that `Releases` describes and for no
others. In a run in which all the requests that lock the cache can be served, nobody waits for a
worker that is not in `readClientRequest`. -/
theorem lock_released (parse : M → Option HttpRequest) :
    (∀ (w : ProxyWorker M) (fd : ℕ) (message : M) (table : CacheTable M)
        (answers : ConnectAnswers), (w.clients fd).isSome = true →
      ∃ code unlocked, w.readClientRequest parse fd message table answers =
          some (code, unlocked) ∧
        (unlocked = true ↔ Releases parse w message table answers)) ∧
    ∀ (hist : List (ProxyAct M)) (s : WorkerProxy M),
      Lts.Run WorkerProxy.Init (fun s act s' => s.Step parse act s' ∧ act.served s = true) hist s →
        ¬s.Stalled := by
  refine ⟨fun w fd message table answers hclient =>
    ProxyWorker.readClientRequest_unlocked hclient, fun hist s hrun => ?_⟩
  have hinv : HoldInv s := by
    refine Lts.Run.invariant (I := fun _ s => HoldInv s) hrun (fun s => HoldInv.of_init) ?_
    exact fun hist s act s' hinv hstep => hinv.step hstep.2 hstep.1
  rintro ⟨_, _, _, _, _, _, j, w', hholder, hout⟩
  obtain ⟨w, fd, message, request, hj⟩ := hinv.holder j hholder
  rw [hout] at hj
  simp at hj

/-- A parser that knows two messages, one with a `Host` header and one without. -/
def parseExample (message : String) : Option HttpRequest :=
  if message = "GET http://a/ HTTP/1.0\r\nHost: a\r\n\r\n" then
    some ⟨"GET", "http://a/", [("Host", "a")]⟩
  else if message = "GET http://b/ HTTP/1.0\r\n\r\n" then some ⟨"GET", "http://b/", []⟩
  else none

def workerExample : ProxyWorker String where
  id := 0
  clients := fun _ => some .new
  servers := fun _ => none
  readSet := fun _ => false
  writeSet := fun _ => false
  dnsMap := fun _ => false

/-- Two workers get the same request. The second one waits until the first one has connected to the
server. -/
theorem lock_released_two_workers :
    (∃ s : WorkerProxy String, Lts.Run WorkerProxy.Init
      (fun s act s' => s.Step parseExample act s' ∧ act.served s = true)
      [.read 0 4 "GET http://a/ HTTP/1.0\r\nHost: a\r\n\r\n", .lock 0,
        .read 1 5 "GET http://a/ HTTP/1.0\r\nHost: a\r\n\r\n",
        .finish 0 ⟨some 6, true, true, .inProgress⟩, .lock 1] s ∧
      s.holder = some 1 ∧ (s.table "http://a/").isSome = true ∧ ¬s.Stalled) ∧
    ∃ code unlocked, workerExample.readClientRequest parseExample 4
        "GET http://a/ HTTP/1.0\r\nHost: a\r\n\r\n" (fun _ => none)
        ⟨some 6, true, true, .inProgress⟩ = some (code, unlocked) ∧
      (unlocked = true ↔ Releases parseExample workerExample
        "GET http://a/ HTTP/1.0\r\nHost: a\r\n\r\n" (fun _ => none)
        ⟨some 6, true, true, .inProgress⟩) := by
  have hinit : (WorkerProxy.new 2 : WorkerProxy String).Init := ⟨2, rfl⟩
  obtain ⟨s, hrun, hholder, htable⟩ := Lts.exists_run_guarded (WorkerProxy.exec parseExample)
    (fun s act => act.served s = true)
    [.read 0 4 "GET http://a/ HTTP/1.0\r\nHost: a\r\n\r\n", .lock 0,
      .read 1 5 "GET http://a/ HTTP/1.0\r\nHost: a\r\n\r\n",
      .finish 0 ⟨some 6, true, true, .inProgress⟩, .lock 1]
    (fun s => s.holder = some 1 ∧ (s.table "http://a/").isSome = true) hinit (by decide +kernel)
  exact ⟨⟨s, hrun, hholder, htable, (lock_released parseExample).2 _ s hrun⟩,
    (lock_released parseExample).1 _ _ _ _ _ rfl⟩

/-- A request without a `Host` header keeps the lock, and the next worker waits for it. -/
theorem stalled_missing_host :
    (∃ s : WorkerProxy String, Lts.Run WorkerProxy.Init (WorkerProxy.Step parseExample)
      [.read 0 4 "GET http://b/ HTTP/1.0\r\n\r\n", .lock 0,
        .finish 0 ⟨none, false, false, .failed⟩,
        .read 1 5 "GET http://a/ HTTP/1.0\r\nHost: a\r\n\r\n"] s ∧ s.Stalled) ∧
    workerExample.readClientRequest parseExample 4 "GET http://b/ HTTP/1.0\r\n\r\n"
        (fun _ => none) ⟨none, false, false, .failed⟩ = some (StatusCode.fail, false) := by
  refine ⟨?_, by decide +kernel⟩
  have hinit : (WorkerProxy.new 2 : WorkerProxy String).Init := ⟨2, rfl⟩
  obtain ⟨s, hrun, hholder, hzero, hone⟩ := Lts.exists_run (WorkerProxy.exec parseExample)
    [.read 0 4 "GET http://b/ HTTP/1.0\r\n\r\n", .lock 0,
      .finish 0 ⟨none, false, false, .failed⟩,
      .read 1 5 "GET http://a/ HTTP/1.0\r\nHost: a\r\n\r\n"]
    (fun s => s.holder = some 0 ∧ (s.workers[0]?.any fun p => p.2.isOutside) = true ∧
      (s.workers[1]?.any fun p => p.2.isLocking) = true) hinit (by decide +kernel)
  obtain ⟨⟨w, pc⟩, hw, hpc⟩ := (Option.any_eq_true _ _).mp hzero
  obtain ⟨⟨v, pc'⟩, hv, hpc'⟩ := (Option.any_eq_true _ _).mp hone
  refine ⟨s, hrun, ?_⟩
  cases pc with
  | outside =>
      cases pc' with
      | locking fd message request => exact ⟨1, fd, v, message, request, hv, 0, w, hholder, hw⟩
      | outside => simp [RequestPc.isLocking] at hpc'
      | holding fd message request => simp [RequestPc.isLocking] at hpc'
  | locking fd message request => simp [RequestPc.isOutside] at hpc
  | holding fd message request => simp [RequestPc.isOutside] at hpc

end PosixThreads
