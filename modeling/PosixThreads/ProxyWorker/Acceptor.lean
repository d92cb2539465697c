import Mathlib.Data.Finset.Basic

/-!
# The accepting thread of the worker proxy

`HttpProxy::run` waits with `select` for new connections and for the signal to terminate. It passes
its own set of descriptors, which `select` overwrites with those that are ready, and it adds
nothing to the set after that. What has not been ready once is not watched again.
-/

namespace PosixThreads

namespace WorkerThreadProxy

structure SelectData where
  maxFd : ℕ
  readSet : Finset ℕ
  writeSet : Finset ℕ
  deriving DecidableEq

inductive FdType
  | read
  | write
  deriving DecidableEq, Repr

namespace SelectData

def new : SelectData := ⟨0, ∅, ∅⟩

def addFd (selected : SelectData) (fd : ℕ) (type : FdType) : SelectData :=
  let maxFd := if fd > selected.maxFd then fd else selected.maxFd
  match type with
  | .read => { selected with readSet := insert fd selected.readSet, maxFd }
  | .write => { selected with writeSet := insert fd selected.writeSet, maxFd }

end SelectData

structure AcceptAnswers where
  accepted : Option ℕ
  nonblocking : Bool
  deriving DecidableEq, Repr

/-- How `select` returns, with the answers to the calls that may follow. If it fails, for a signal
or for something else, it leaves the sets as they are. -/
inductive SelectResult
  | ready (fds : Finset ℕ) (answers : AcceptAnswers)
  | interrupted (answers : AcceptAnswers)
  | failed
  | timedOut

/-- What `select` may return for a read set, of which it looks at the descriptors below `nfds`. -/
def SelectResult.Fits (nfds : ℕ) (readSet : Finset ℕ) : SelectResult → Prop
  | .ready fds _ => fds ⊆ readSet ∧ fds.Nonempty ∧ ∀ fd ∈ fds, fd < nfds
  | _ => True

/-- `HttpProxy`, with the clients that have been handed to workers: the worker and the descriptor
of each. -/
structure HttpProxy where
  proxySocket : ℕ
  signalFd : ℕ
  selected : SelectData
  workerThreadsCount : ℕ
  currentWorkerId : ℕ
  handed : List (ℕ × ℕ)

namespace HttpProxy

def start (proxySocket signalFd workerThreadsCount : ℕ) : HttpProxy where
  proxySocket := proxySocket
  signalFd := signalFd
  selected := (SelectData.new.addFd proxySocket .read).addFd signalFd .read
  workerThreadsCount := workerThreadsCount
  currentWorkerId := 0
  handed := []

/-- `acceptNewClient`. It is `none` for `status_code::FAIL`. -/
def acceptNewClient (p : HttpProxy) (answers : AcceptAnswers) : Option HttpProxy :=
  match answers.accepted with
  | none => none
  | some newClientFd =>
      if answers.nonblocking then
        let next := p.currentWorkerId + 1
        some { p with
          currentWorkerId := if next = p.workerThreadsCount then 0 else next
          handed := p.handed ++ [(p.currentWorkerId, newClientFd)] }
      else none

/-- The tests behind `select`. It is `none` if they leave the loop. -/
def afterSelect (p : HttpProxy) (answers : AcceptAnswers) : Option HttpProxy :=
  if p.signalFd ∈ p.selected.readSet then none
  else if p.proxySocket ∈ p.selected.readSet then p.acceptNewClient answers
  else some p

def turn (p : HttpProxy) : SelectResult → Option HttpProxy
  | .ready fds answers =>
      afterSelect { p with selected := { p.selected with readSet := fds } } answers
  | .interrupted answers => p.afterSelect answers
  | .failed => none
  | .timedOut => none

/-- The read sets that are passed to `select`, up to the call behind the last of the results. -/
def selectSets (p : HttpProxy) : List SelectResult → List (Finset ℕ)
  | [] => [p.selected.readSet]
  | r :: rs => p.selected.readSet ::
      match p.turn r with
      | none => []
      | some p => p.selectSets rs

def Answered (p : HttpProxy) : List SelectResult → Prop
  | [] => True
  | r :: rs => r.Fits (p.selected.maxFd + 1) p.selected.readSet ∧
      ∀ p', p.turn r = some p' → p'.Answered rs

/-- There is a connection and no signal, and the connection is accepted. -/
def Accepts (signalFd : ℕ) : SelectResult → Prop
  | .ready fds answers => signalFd ∉ fds ∧ answers.accepted.isSome ∧ answers.nonblocking = true
  | _ => False

section Loop

variable {p p' : HttpProxy} {r : SelectResult}

theorem readSet_start (proxySocket signalFd count : ℕ) :
    (start proxySocket signalFd count).selected.readSet = {signalFd, proxySocket} := rfl

theorem acceptNewClient_eq_some {answers : AcceptAnswers}
    (h : p.acceptNewClient answers = some p') :
    p'.proxySocket = p.proxySocket ∧ p'.signalFd = p.signalFd ∧ p'.selected = p.selected ∧
      answers.accepted.isSome ∧ answers.nonblocking = true := by
  unfold acceptNewClient at h
  split at h
  · simp at h
  · rename_i newClientFd haccepted
    split at h
    · rename_i hnonblocking
      obtain rfl := Option.some.inj h
      exact ⟨rfl, rfl, rfl, by rw [haccepted]; rfl, hnonblocking⟩
    · simp at h

/-- A turn that goes on leaves the set as it has found it. -/
theorem afterSelect_eq_some {answers : AcceptAnswers} (h : p.afterSelect answers = some p') :
    p'.proxySocket = p.proxySocket ∧ p'.signalFd = p.signalFd ∧ p'.selected = p.selected ∧
      p.signalFd ∉ p.selected.readSet ∧ (p.proxySocket ∈ p.selected.readSet →
        answers.accepted.isSome ∧ answers.nonblocking = true) := by
  unfold afterSelect at h
  split at h
  · simp at h
  · rename_i hsignal
    split at h
    · obtain ⟨hproxy, hfd, hselected, haccepted⟩ := acceptNewClient_eq_some h
      exact ⟨hproxy, hfd, hselected, hsignal, fun _ => haccepted⟩
    · rename_i hnot
      obtain rfl := Option.some.inj h
      exact ⟨rfl, rfl, rfl, hsignal, fun hmem => absurd hmem hnot⟩

theorem turn_of_only (honly : p.selected.readSet = {p.proxySocket})
    (hfit : r.Fits (p.selected.maxFd + 1) p.selected.readSet) (h : p.turn r = some p') :
    p'.proxySocket = p.proxySocket ∧ p'.selected.readSet = {p.proxySocket} := by
  cases r with
  | ready fds answers =>
      obtain ⟨hproxy, _, hselected, _⟩ := afterSelect_eq_some h
      obtain ⟨hsub, hne, _⟩ := hfit
      rw [honly] at hsub
      rw [hselected]
      exact ⟨hproxy, hne.subset_singleton_iff.mp hsub⟩
  | interrupted answers =>
      obtain ⟨hproxy, _, hselected, _⟩ := afterSelect_eq_some h
      rw [hselected]
      exact ⟨hproxy, honly⟩
  | failed => simp [turn] at h
  | timedOut => simp [turn] at h

theorem selectSets_of_only (rs : List SelectResult)
    (honly : p.selected.readSet = {p.proxySocket}) (hanswered : p.Answered rs) :
    ∀ set ∈ p.selectSets rs, set = {p.proxySocket} := by
  induction rs generalizing p with
  | nil => simpa [selectSets] using honly
  | cons r rs ih =>
      obtain ⟨hfit, hrest⟩ := hanswered
      intro set hset
      rw [selectSets, List.mem_cons] at hset
      rcases hset with rfl | hset
      · exact honly
      · cases hturn : p.turn r with
        | none => simp [hturn] at hset
        | some p' =>
            obtain ⟨hproxy, honly'⟩ := turn_of_only honly hfit hturn
            rw [hturn] at hset
            rw [← hproxy] at honly' ⊢
            exact ih honly' (hrest p' hturn) set hset

/-- The first turn goes on if a connection is accepted and no signal has come. -/
theorem turn_start (count : ℕ) {proxySocket signalFd : ℕ} {fds : Finset ℕ} {answers : AcceptAnswers}
    (hfit : fds ⊆ {signalFd, proxySocket}) (hne : fds.Nonempty)
    (haccepts : Accepts signalFd (.ready fds answers)) :
    fds = {proxySocket} ∧
      ((start proxySocket signalFd count).turn (.ready fds answers)).isSome := by
  obtain ⟨hsignal, haccepted, hnonblocking⟩ := haccepts
  have hsub : fds ⊆ {proxySocket} := (Finset.subset_insert_iff_of_notMem hsignal).mp hfit
  obtain rfl := hne.subset_singleton_iff.mp hsub
  obtain ⟨newClientFd, hnew⟩ := Option.isSome_iff_exists.mp haccepted
  refine ⟨rfl, ?_⟩
  have hsignal' : signalFd ≠ proxySocket := by simpa using hsignal
  simp [turn, afterSelect, start, hsignal', acceptNewClient, hnew, hnonblocking]

theorem accepts_of_turn_start {proxySocket signalFd count : ℕ}
    (hfit : r.Fits ((start proxySocket signalFd count).selected.maxFd + 1)
      (start proxySocket signalFd count).selected.readSet)
    (h : (start proxySocket signalFd count).turn r = some p') :
    Accepts signalFd r ∧ signalFd ≠ proxySocket ∧ p'.proxySocket = proxySocket ∧
      p'.selected.readSet = {proxySocket} := by
  cases r with
  | ready fds answers =>
      obtain ⟨hsub, hne, _⟩ := hfit
      rw [readSet_start] at hsub
      obtain ⟨hproxy, _, hselected, hsignal, haccepted⟩ := afterSelect_eq_some h
      have honly : fds = {proxySocket} :=
        hne.subset_singleton_iff.mp ((Finset.subset_insert_iff_of_notMem hsignal).mp hsub)
      have hsignal' : signalFd ∉ fds := hsignal
      rw [honly, Finset.mem_singleton] at hsignal'
      refine ⟨⟨hsignal, haccepted ?_⟩, hsignal', hproxy, by rw [hselected]; exact honly⟩
      exact honly ▸ Finset.mem_singleton_self _
  | interrupted answers =>
      obtain ⟨_, _, _, hsignal, _⟩ := afterSelect_eq_some h
      exact absurd (Finset.mem_insert_self signalFd {proxySocket}) hsignal
  | failed => simp [turn] at h
  | timedOut => simp [turn] at h

end Loop

/-- The signal and the connections are watched at every call of `select` if and only if the first
call does not report a connection, which is accepted, and no signal. Every later call watches for
connections only. -/
theorem watches_both_iff {proxySocket signalFd count : ℕ} {results : List SelectResult}
    (hanswered : (start proxySocket signalFd count).Answered results) :
    ((∀ set ∈ (start proxySocket signalFd count).selectSets results,
        proxySocket ∈ set ∧ signalFd ∈ set) ↔ ∀ r ∈ results.head?, ¬Accepts signalFd r) ∧
      ∀ set ∈ ((start proxySocket signalFd count).selectSets results).tail,
        set = {proxySocket} := by
  have hfirst : proxySocket ∈ (start proxySocket signalFd count).selected.readSet ∧
      signalFd ∈ (start proxySocket signalFd count).selected.readSet := by simp [readSet_start]
  cases results with
  | nil => simpa [selectSets] using hfirst
  | cons r rs =>
      obtain ⟨hfit, hrest⟩ := hanswered
      cases hturn : (start proxySocket signalFd count).turn r with
      | none =>
          have hnot : ¬Accepts signalFd r := by
            intro haccepts
            cases r with
            | ready fds answers =>
                have hsome := (turn_start count hfit.1 hfit.2.1 haccepts).2
                simp [hturn] at hsome
            | interrupted answers => exact haccepts
            | failed => exact haccepts
            | timedOut => exact haccepts
          simpa [selectSets, hturn, hnot] using hfirst
      | some p' =>
          obtain ⟨haccepts, hne, hproxy, honly⟩ := accepts_of_turn_start hfit hturn
          have hlater := selectSets_of_only rs (by rw [honly, hproxy]) (hrest p' hturn)
          rw [hproxy] at hlater
          have hsets : (start proxySocket signalFd count).selectSets (r :: rs) =
              {signalFd, proxySocket} :: p'.selectSets rs := by rw [selectSets, hturn]; rfl
          have hsecond : ({proxySocket} : Finset ℕ) ∈ p'.selectSets rs := by
            cases rs <;> simp [selectSets, honly]
          rw [hsets]
          refine ⟨iff_of_false (fun hall => ?_) (by simpa using haccepts), hlater⟩
          have hmem := (hall _ (List.mem_cons_of_mem _ hsecond)).2
          exact hne (Finset.mem_singleton.mp hmem)

/-- A signal ends the loop. -/
theorem watches_both_signal : (start 3 4 2).selectSets [.ready {4} ⟨none, true⟩] = [{4, 3}] ∧
    ∀ set ∈ (start 3 4 2).selectSets [.ready {4} ⟨none, true⟩], 3 ∈ set ∧ 4 ∈ set := by
  have hanswered : (start 3 4 2).Answered [.ready {4} ⟨none, true⟩] :=
    ⟨⟨by decide, by decide, by decide⟩, fun _ _ => trivial⟩
  exact ⟨by decide, (watches_both_iff hanswered).1.mpr (by simp [Accepts])⟩

/-- A connection is accepted, and the signal is not in the second set. -/
theorem not_watches_both_accepted : (start 3 4 2).Answered [.ready {3} ⟨some 5, true⟩] ∧
    (start 3 4 2).selectSets [.ready {3} ⟨some 5, true⟩] = [{4, 3}, {3}] ∧
    ¬∀ set ∈ (start 3 4 2).selectSets [.ready {3} ⟨some 5, true⟩], 3 ∈ set ∧ 4 ∈ set :=
  ⟨⟨⟨by decide, by decide, by decide⟩, fun _ _ => trivial⟩, by decide, by decide⟩

end HttpProxy

end WorkerThreadProxy

end PosixThreads
