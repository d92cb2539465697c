import PosixThreads.Library.Heap
import PosixThreads.Library.Lts
import PosixThreads.MultithreadProxy.Basic

/-!
# Completion

When the last part has been announced, the event has been posted for the last time, and a client
that gets into `eventfd_read` later has to find something that has been left in the counter. The
clients that are going to get there are those which have seen the status `INCOMPLETED`, and all
that is posted for them is the number of subscribers at the time. A client that has not subscribed
yet is not among these, and a client that finds the status unchanged takes a second time what was
meant for another one.

`Waits` says of a client of a complete resource whether it gets into `eventfd_read` again. It does
so once at most. Nobody is left behind if the counter covers these clients at the moment at which
the server has made its last step, and otherwise it is possible that somebody is.
-/

namespace PosixThreads.MultithreadProxy

/-- A client of a complete resource that gets into `eventfd_read` before it leaves. `size` is the
number of parts. -/
def ClientThread.waits (size : ℕ) : ClientThread → Bool
  | .sendsFirst _ completed => !completed
  | .subscribes _ | .reads _ => true
  | .asksStatus recv | .asksSize recv => decide (recv ≠ size)
  | .starts | .sends _ | .leaves | .gone => false

def ClientThread.Bounded (size : ℕ) : ClientThread → Prop
  | .sendsFirst recv _ | .subscribes recv | .reads recv | .sends recv | .asksStatus recv
  | .asksSize recv => recv ≤ size
  | .starts | .leaves | .gone => True

namespace NotifyState

def waiting (s : NotifyState) : ℕ := s.clients.countP (ClientThread.waits s.parts.length)

/-- The resource is complete and nothing will be posted any more, but a client waits. -/
def Stuck (s : NotifyState) : Prop :=
  s.completed = true ∧ .post ∉ s.server.steps ∧ (∃ recv, .reads recv ∈ s.clients) ∧ s.counter = 0

def Init (s : NotifyState) : Prop := s = .new

def Step (parse : ResponseParser) (memory : ℕ → Bool) (s : NotifyState) (act : NotifyAct)
    (s' : NotifyState) : Prop :=
  s.exec parse memory act = some s'

/-- The last step of the server leaves something in the counter for every client that waits. It is
the change of the status or, if the status has been changed already, the post. -/
def Covers (s : NotifyState) : NotifyAct → Prop
  | .server =>
      (s.server.steps = [.complete] → s.waiting ≤ s.counter) ∧
        (s.completed = true → s.server.steps = [.post] →
          s.waiting ≤ s.counter + s.server.postCount)
  | _ => True

instance (s : NotifyState) (act : NotifyAct) : Decidable (s.Covers act) :=
  match act with
  | .server => inferInstanceAs (Decidable (_ ∧ _))
  | .part _ | .quit | .spawn | .client _ _ => inferInstanceAs (Decidable True)

end NotifyState

/-! ## The steps of the server -/

/-- Steps of the server that may be left, given the status: parts are added only before the resource
is complete, which happens once and in the last call, and what is counted is posted. -/
def Planned (code : ℤ) : Bool → List ServerStep → Prop
  | completed, [] => completed = true → code = StatusCode.completed
  | completed, .add _ :: steps => completed = false ∧ Planned code completed steps
  | completed, .count :: steps => steps ≠ [] ∧ Planned code completed steps
  | completed, .post :: steps => Planned code completed steps
  | completed, .complete :: steps => completed = false ∧ Planned code true steps

section Planned

variable {parse : ResponseParser} {memory : ℕ → Bool} {d : Download} {full : Message} {part : Part}
  {handled : Handled} {code : ℤ} {steps : List ServerStep}

theorem Planned.of_success (h : Planned StatusCode.success true steps) : False := by
  induction steps with
  | nil => exact absurd (h rfl) (by decide)
  | cons step steps ih =>
      cases step with
      | add part => exact absurd h.1 (by decide)
      | count => exact ih h.2
      | post => exact ih h
      | complete => exact absurd h.1 (by decide)

/-- A complete resource is posted once more unless the server has made its last step. -/
theorem Planned.eq_nil (h : Planned code true steps) (hpost : .post ∉ steps) : steps = [] := by
  induction steps with
  | nil => rfl
  | cons step steps ih =>
      simp only [List.mem_cons, not_or] at hpost
      cases step with
      | add part => exact absurd h.1 (by decide)
      | count => exact absurd (ih h.2 hpost.2) h.1
      | post => exact absurd rfl hpost.1
      | complete => exact absurd h.1 (by decide)

theorem planned_afterParse {out : ParseResult × Response}
    (h : d.afterParse false full part out = some handled) :
    Planned handled.code false handled.steps := by
  obtain ⟨result, response⟩ := out
  cases result with
  | error =>
      simp only [Download.afterParse, Option.pure_def, Option.some.injEq] at h
      subst h
      simp [Planned]
  | incompleted =>
      simp only [Download.afterParse, Option.bind_eq_bind, Option.bind_eq_some_iff,
        Option.pure_def, Option.some.injEq] at h
      obtain ⟨_, -, -, -, rfl⟩ := h
      simp [Planned]
  | completed =>
      simp only [Download.afterParse, Option.bind_eq_bind, Option.bind_eq_some_iff,
        Option.pure_def, Option.some.injEq] at h
      obtain ⟨-, -, rfl⟩ := h
      simp [Planned]

theorem planned_account (h : d.account parse false full part = some handled) :
    Planned handled.code false handled.steps := by
  simp only [Download.account] at h
  split at h
  · simp only [Option.pure_def, Option.some.injEq] at h
    subst h
    simp [Planned]
  · split at h
    · simp only [Option.pure_def, Option.some.injEq] at h
      subst h
      simp [Planned]
    · exact planned_afterParse h

theorem planned_handleResponse (h : d.handleResponse parse memory false part = some handled) :
    Planned handled.code false handled.steps := by
  simp only [Download.handleResponse] at h
  split at h
  · simp only [Option.pure_def, Option.some.injEq] at h
    subst h
    simp [Planned]
  · split at h
    · simp only [Option.bind_eq_bind, Option.bind_eq_some_iff] at h
      obtain ⟨⟨added, full, fullData⟩, -, h⟩ := h
      cases added with
      | true => exact planned_account h
      | false =>
          simp only [Bool.false_eq_true, if_false, Option.pure_def, Option.some.injEq] at h
          subst h
          simp [Planned]
    · exact planned_account h

end Planned

/-! ## The steps of the clients -/

namespace NotifyState

variable {parse : ResponseParser} {memory : ℕ → Bool} {s s' : NotifyState} {i : ℕ} {ok : Bool}
  {client : ClientThread} {act : NotifyAct}

/-- What the step of a client leaves. A client of a complete resource waits afterwards only if it
has waited before, and it takes from the counter only if it does not wait afterwards. -/
structure ClientStep (s : NotifyState) (i : ℕ) (client : ClientThread) (s' : NotifyState)
    (client' : ClientThread) : Prop where
  clients_eq : s'.clients = s.clients.set i client'
  completed_eq : s'.completed = s.completed
  parts_eq : s'.parts = s.parts
  server_eq : s'.server = s.server
  bounded : client'.Bounded s.parts.length
  covered : s.completed = true →
    (if client'.waits s.parts.length then 1 else 0) + s.counter ≤
      (if client.waits s.parts.length then 1 else 0) + s'.counter

theorem execClient_spec (h : s.execClient i ok client = some s')
    (hbounded : client.Bounded s.parts.length) :
    ∃ client', ClientStep s i client s' client' := by
  cases client with
  | starts =>
      obtain rfl := Option.some.inj h
      exact ⟨_, rfl, rfl, rfl, rfl, Nat.zero_le _, fun hcompleted => by
        simp [setClient, ClientThread.waits, hcompleted]⟩
  | sendsFirst recv completed =>
      simp only [ClientThread.Bounded] at hbounded
      simp only [execClient] at h
      split at h
      · next hmore =>
          simp only [Bool.and_eq_true, decide_eq_true_eq] at hmore
          obtain rfl := Option.some.inj h
          exact ⟨_, rfl, rfl, rfl, rfl, hmore.1, fun _ => Nat.le_refl _⟩
      · obtain rfl := Option.some.inj h
        have hrecv : (if recv < s.parts.length then recv + 1 else recv) ≤ s.parts.length := by
          split <;> omega
        cases completed with
        | true => exact ⟨_, rfl, rfl, rfl, rfl, trivial, fun _ => Nat.le_refl _⟩
        | false => exact ⟨_, rfl, rfl, rfl, rfl, hrecv, fun _ => Nat.le_refl _⟩
  | subscribes recv =>
      obtain rfl := Option.some.inj h
      exact ⟨_, rfl, rfl, rfl, rfl, hbounded, fun _ => Nat.le_refl _⟩
  | reads recv =>
      simp only [execClient] at h
      split at h
      · obtain rfl := Option.some.inj h
        exact ⟨_, rfl, rfl, rfl, rfl, trivial, fun _ => by
          simp [setClient, ClientThread.waits]⟩
      · split at h
        · simp at h
        · next hcounter =>
            obtain rfl := Option.some.inj h
            refine ⟨_, rfl, rfl, rfl, rfl, hbounded, fun _ => ?_⟩
            simp only [setClient, ClientThread.waits, Bool.false_eq_true, if_false, if_true]
            omega
  | sends recv =>
      simp only [execClient] at h
      split at h
      · next hmore =>
          obtain rfl := Option.some.inj h
          cases ok with
          | true => exact ⟨_, rfl, rfl, rfl, rfl, hmore, fun _ => Nat.le_refl _⟩
          | false => exact ⟨_, rfl, rfl, rfl, rfl, trivial, fun _ => Nat.le_refl _⟩
      · next hall =>
          obtain rfl := Option.some.inj h
          have hrecv : recv = s.parts.length := Nat.le_antisymm hbounded (Nat.le_of_not_lt hall)
          exact ⟨_, rfl, rfl, rfl, rfl, hbounded, fun _ => by
            simp [setClient, ClientThread.waits, hrecv]⟩
  | asksStatus recv =>
      obtain rfl := Option.some.inj h
      cases hcompleted : s.completed with
      | true => exact ⟨_, rfl, hcompleted.symm ▸ rfl, rfl, rfl, hbounded, fun _ => Nat.le_refl _⟩
      | false =>
          exact ⟨_, rfl, hcompleted.symm ▸ rfl, rfl, rfl, hbounded, fun htrue =>
            absurd (hcompleted.symm.trans htrue) (by decide)⟩
  | asksSize recv =>
      obtain rfl := Option.some.inj h
      by_cases hrecv : recv = s.parts.length
      · exact ⟨_, rfl, rfl, rfl, rfl, by simp [hrecv, ClientThread.Bounded], fun _ => by
          simp [setClient, ClientThread.waits, hrecv]⟩
      · refine ⟨_, rfl, rfl, rfl, rfl, by
          simpa [hrecv, ClientThread.Bounded] using hbounded, fun _ => ?_⟩
        simp [setClient, ClientThread.waits, hrecv]
  | leaves =>
      obtain rfl := Option.some.inj h
      exact ⟨_, rfl, rfl, rfl, rfl, trivial, fun _ => Nat.le_refl _⟩
  | gone => simp [execClient] at h

theorem ClientStep.waiting_add {client' : ClientThread} (h : ClientStep s i client s' client')
    (hclient : s.clients[i]? = some client) :
    s'.waiting + (if client.waits s.parts.length then 1 else 0) =
      s.waiting + (if client'.waits s.parts.length then 1 else 0) := by
  simp only [waiting, h.clients_eq, h.parts_eq]
  exact Heap.countP_set_add _ hclient client'

/-! ## Runs -/

structure NotifyInv (s : NotifyState) : Prop where
  planned : Planned s.server.code s.completed s.server.steps
  bounded : ∀ client ∈ s.clients, client.Bounded s.parts.length

/-- The counter covers the clients that wait as soon as the server has made its last step. -/
def Covered (s : NotifyState) : Prop :=
  s.completed = true → s.server.steps = [] → s.waiting ≤ s.counter

theorem Bounded.mono {size size' : ℕ} (h : client.Bounded size) (hle : size ≤ size') :
    client.Bounded size' := by
  cases client <;> first | trivial | exact Nat.le_trans h hle

theorem notifyInv_new : NotifyInv .new := ⟨nofun, nofun⟩

theorem NotifyInv.server (hinv : NotifyInv s) (h : s.execServer = some s') : NotifyInv s' := by
  obtain ⟨hplanned, hbounded⟩ := hinv
  simp only [execServer] at h
  split at h
  · simp at h
  · next step steps hsteps =>
      rw [hsteps] at hplanned
      cases step with
      | add part =>
          obtain rfl := Option.some.inj h
          refine ⟨hplanned.2, fun client hclient => ?_⟩
          exact Bounded.mono (hbounded client hclient) (by simp)
      | count =>
          obtain rfl := Option.some.inj h
          exact ⟨hplanned.2, hbounded⟩
      | post =>
          obtain rfl := Option.some.inj h
          exact ⟨hplanned, hbounded⟩
      | complete =>
          obtain rfl := Option.some.inj h
          exact ⟨hplanned.2, hbounded⟩

theorem NotifyInv.covered_iff (hinv : NotifyInv s) (h : s.execServer = some s') :
    Covered s' ↔ s.Covers .server := by
  obtain ⟨hplanned, -⟩ := hinv
  simp only [execServer] at h
  split at h
  · simp at h
  · next step steps hsteps =>
      rw [hsteps] at hplanned
      cases step with
      | add part =>
          obtain rfl := Option.some.inj h
          simp [Covered, Covers, hsteps, hplanned.1]
      | count =>
          obtain rfl := Option.some.inj h
          simp [Covered, Covers, hsteps, hplanned.1]
      | post =>
          obtain rfl := Option.some.inj h
          simp [Covered, Covers, hsteps, waiting]
      | complete =>
          obtain rfl := Option.some.inj h
          simp [Covered, Covers, hsteps, waiting]

theorem NotifyInv.clientStep (hinv : NotifyInv s) (hclient : s.clients[i]? = some client)
    (h : s.execClient i ok client = some s') :
    NotifyInv s' ∧ (Covered s → Covered s') := by
  obtain ⟨hplanned, hbounded⟩ := hinv
  obtain ⟨client', hstep⟩ := execClient_spec h (hbounded client (List.mem_of_getElem? hclient))
  refine ⟨⟨?_, fun other hother => ?_⟩, fun hcovered hcompleted hsteps => ?_⟩
  · rw [hstep.server_eq, hstep.completed_eq]
    exact hplanned
  · rw [hstep.parts_eq]
    rw [hstep.clients_eq] at hother
    rcases List.mem_or_eq_of_mem_set hother with hother | rfl
    · exact hbounded other hother
    · exact hstep.bounded
  · rw [hstep.completed_eq] at hcompleted
    rw [hstep.server_eq] at hsteps
    have hwaiting := hcovered hcompleted hsteps
    have hadd := hstep.waiting_add hclient
    have hcounter := hstep.covered hcompleted
    omega

/-- The server's thread goes on reading only while the resource is not complete. -/
theorem NotifyInv.incomplete (hinv : NotifyInv s) (hreads : s.serverReads = true) :
    s.completed = false := by
  simp only [serverReads, Bool.and_eq_true, beq_iff_eq] at hreads
  have hplanned := hinv.planned
  cases hcompleted : s.completed with
  | false => rfl
  | true =>
      rw [hreads.2, hcompleted] at hplanned
      exact hplanned.of_success.elim

theorem NotifyInv.part {part : Part} (hinv : NotifyInv s)
    (h : s.exec parse memory (.part part) = some s') : NotifyInv s' ∧ Covered s' := by
  simp only [exec, Option.bind_eq_bind, Option.bind_eq_some_iff, Option.pure_def,
    Option.some.injEq, assertThat_eq_some_iff] at h
  obtain ⟨_, hreads, handled, hhandled, rfl⟩ := h
  have hcompleted := hinv.incomplete hreads
  rw [hcompleted] at hhandled
  exact ⟨⟨hcompleted ▸ planned_handleResponse hhandled, hinv.bounded⟩, by
    simp [Covered, hcompleted]⟩

theorem NotifyInv.quit (hinv : NotifyInv s) (h : s.exec parse memory .quit = some s') :
    NotifyInv s' ∧ Covered s' := by
  simp only [exec, Option.bind_eq_bind, Option.bind_eq_some_iff, Option.pure_def,
    Option.some.injEq, assertThat_eq_some_iff] at h
  obtain ⟨_, hreads, rfl⟩ := h
  have hcompleted := hinv.incomplete hreads
  simp only [serverReads, Bool.and_eq_true, List.isEmpty_iff] at hreads
  refine ⟨⟨?_, hinv.bounded⟩, by simp [Covered, hcompleted]⟩
  simp [hcompleted, hreads.1, Planned]

theorem NotifyInv.spawn (hinv : NotifyInv s) (h : s.exec parse memory .spawn = some s') :
    NotifyInv s' ∧ (Covered s → Covered s') := by
  obtain rfl := Option.some.inj h
  refine ⟨⟨hinv.planned, fun client hclient => ?_⟩, fun hcovered => ?_⟩
  · rcases List.mem_append.mp hclient with hclient | hclient
    · exact hinv.bounded client hclient
    · rw [List.mem_singleton.mp hclient]
      trivial
  · simpa [Covered, waiting, List.countP_append, ClientThread.waits] using hcovered

/-- Every step keeps the invariant. The clients that wait stay covered unless the step is the last
one of the server, which decides whether they are. -/
theorem NotifyInv.step (hinv : NotifyInv s) (hstep : s.Step parse memory act s') :
    NotifyInv s' ∧ (s.Covers act → Covered s → Covered s') := by
  cases act with
  | part part =>
      obtain ⟨hinv', hcovered⟩ := hinv.part hstep
      exact ⟨hinv', fun _ _ => hcovered⟩
  | server => exact ⟨hinv.server hstep, fun hcovers _ => (hinv.covered_iff hstep).mpr hcovers⟩
  | quit =>
      obtain ⟨hinv', hcovered⟩ := hinv.quit hstep
      exact ⟨hinv', fun _ _ => hcovered⟩
  | spawn =>
      obtain ⟨hinv', hcovered⟩ := hinv.spawn hstep
      exact ⟨hinv', fun _ => hcovered⟩
  | client i ok =>
      simp only [Step, exec, Option.bind_eq_bind, Option.bind_eq_some_iff] at hstep
      obtain ⟨client, hclient, hexec⟩ := hstep
      obtain ⟨hinv', hcovered⟩ := hinv.clientStep hclient hexec
      exact ⟨hinv', fun _ => hcovered⟩

theorem NotifyInv.of_run {hist : List NotifyAct}
    (hrun : Lts.Run Init (Step parse memory) hist s) : NotifyInv s := by
  refine Lts.Run.invariant (I := fun _ s => NotifyInv s) hrun ?_ ?_
  · rintro s rfl
    exact notifyInv_new
  · intro hist s act s' hinv hstep
    exact (hinv.step hstep).1

theorem covered_of_run {hist : List NotifyAct}
    (hrun : Lts.Run Init (fun s act s' => s.Step parse memory act s' ∧ s.Covers act) hist s) :
    NotifyInv s ∧ Covered s := by
  refine Lts.Run.invariant (I := fun _ s => NotifyInv s ∧ Covered s) hrun ?_ ?_
  · rintro s rfl
    exact ⟨notifyInv_new, nofun⟩
  · rintro hist s act s' ⟨hinv, hcovered⟩ ⟨hstep, hcovers⟩
    obtain ⟨hinv', hkeeps⟩ := hinv.step hstep
    exact ⟨hinv', hkeeps hcovers hcovered⟩

theorem NotifyInv.not_stuck (hinv : NotifyInv s) (hcovered : Covered s) : ¬s.Stuck := by
  rintro ⟨hcompleted, hpost, ⟨recv, hreads⟩, hcounter⟩
  have hplanned := hinv.planned
  rw [hcompleted] at hplanned
  have hwaiting := hcovered hcompleted (hplanned.eq_nil hpost)
  have hpos : 0 < s.waiting := List.countP_pos_iff.mpr ⟨_, hreads, rfl⟩
  omega

/-! ## Runs that leave a client behind -/

/-- Some further steps lead to a state in which a client is left behind. -/
def CanStick (parse : ResponseParser) (memory : ℕ → Bool) (s : NotifyState) : Prop :=
  ∃ more s', Lts.execAll (exec parse memory) s more = some s' ∧ s'.Stuck

theorem CanStick.of_step (act : NotifyAct) (hstep : s.exec parse memory act = some s')
    (h : CanStick parse memory s') : CanStick parse memory s := by
  obtain ⟨more, s'', hexec, hstuck⟩ := h
  exact ⟨act :: more, s'', by simpa [Lts.execAll, hstep] using hexec, hstuck⟩

theorem CanStick.of_client (ok : Bool) (hclient : s.clients[i]? = some client)
    (hexec : s.execClient i ok client = some s') (h : CanStick parse memory s') :
    CanStick parse memory s := by
  refine CanStick.of_step (.client i ok) ?_ h
  simp [exec, hclient, hexec]

theorem clients_setClient {other : ClientThread} (hclient : s.clients[i]? = some client) :
    (s.setClient i other).clients[i]? = some other := by
  simp [setClient, (List.getElem?_eq_some_iff.mp hclient).1]

theorem setClient_setClient (s : NotifyState) (i : ℕ) (client client' : ClientThread) :
    (s.setClient i client).setClient i client' = s.setClient i client' := by
  simp [setClient]

theorem setClient_self (hclient : s.clients[i]? = some client) : s.setClient i client = s := by
  obtain ⟨hi, rfl⟩ := List.getElem?_eq_some_iff.mp hclient
  simp [setClient]

theorem CanStick.of_subscribes {recv : ℕ} (hclient : s.clients[i]? = some (.subscribes recv))
    (h : CanStick parse memory
      ({ s with subscribesCount := s.subscribesCount + 1 }.setClient i (.reads recv))) :
    CanStick parse memory s :=
  CanStick.of_client true hclient rfl h

theorem CanStick.of_asksSize {recv : ℕ} (hclient : s.clients[i]? = some (.asksSize recv))
    (hrecv : recv ≠ s.parts.length) (h : CanStick parse memory (s.setClient i (.reads recv))) :
    CanStick parse memory s := by
  refine CanStick.of_client true hclient rfl ?_
  rwa [if_neg hrecv]

/-- A client that waits can get into `eventfd_read` before anything else happens. -/
theorem CanStick.of_waits (hclient : s.clients[i]? = some client) (hcompleted : s.completed = true)
    (hwaits : client.waits s.parts.length = true)
    (h : ∀ recv count, CanStick parse memory
      ({ s with subscribesCount := count }.setClient i (.reads recv))) :
    CanStick parse memory s := by
  cases client with
  | starts => simp [ClientThread.waits] at hwaits
  | sendsFirst recv completed =>
      simp only [ClientThread.waits, Bool.not_eq_true'] at hwaits
      subst hwaits
      have hexec : s.execClient i false (.sendsFirst recv false) = some (s.setClient i
          (.subscribes (if recv < s.parts.length then recv + 1 else recv))) := by
        simp [execClient]
      refine CanStick.of_client false hclient hexec ?_
      refine CanStick.of_subscribes (clients_setClient hclient) ?_
      have := h (if recv < s.parts.length then recv + 1 else recv) (s.subscribesCount + 1)
      simpa [setClient] using this
  | subscribes recv => exact CanStick.of_subscribes hclient (h recv _)
  | reads recv =>
      have := h recv s.subscribesCount
      rwa [setClient_self hclient] at this
  | sends recv => simp [ClientThread.waits] at hwaits
  | asksStatus recv =>
      simp only [ClientThread.waits, decide_eq_true_eq] at hwaits
      refine CanStick.of_client true hclient rfl ?_
      rw [if_pos hcompleted]
      refine CanStick.of_asksSize (clients_setClient hclient) hwaits ?_
      rw [setClient_setClient]
      exact h recv s.subscribesCount
  | asksSize recv =>
      simp only [ClientThread.waits, decide_eq_true_eq] at hwaits
      exact CanStick.of_asksSize hclient hwaits (h recv s.subscribesCount)
  | leaves => simp [ClientThread.waits] at hwaits
  | gone => simp [ClientThread.waits] at hwaits

theorem waiting_setClient (hclient : s.clients[i]? = some client) (other : ClientThread) :
    (s.setClient i other).waiting + (if client.waits s.parts.length then 1 else 0) =
      s.waiting + (if other.waits s.parts.length then 1 else 0) :=
  Heap.countP_set_add _ hclient other

/-- If the counter does not cover the clients that wait, then they can use it up. -/
theorem CanStick.of_uncovered (hcompleted : s.completed = true) (hpost : .post ∉ s.server.steps)
    (hlt : s.counter < s.waiting) : CanStick parse memory s := by
  generalize hcounter : s.counter = counter at hlt
  induction counter generalizing s with
  | zero =>
      obtain ⟨client, hmem, hwaits⟩ := List.countP_pos_iff.mp hlt
      obtain ⟨i, hclient⟩ := List.getElem?_of_mem hmem
      refine CanStick.of_waits hclient hcompleted hwaits fun recv count => ?_
      have hreads : ({ s with subscribesCount := count }.setClient i (.reads recv)).clients[i]? =
          some (.reads recv) := clients_setClient hclient
      exact ⟨[], _, rfl, hcompleted, hpost, ⟨recv, List.mem_of_getElem? hreads⟩, hcounter⟩
  | succ counter ih =>
      obtain ⟨client, hmem, hwaits⟩ := List.countP_pos_iff.mp (Nat.zero_lt_of_lt hlt)
      obtain ⟨i, hclient⟩ := List.getElem?_of_mem hmem
      refine CanStick.of_waits hclient hcompleted hwaits fun recv count => ?_
      -- The client takes one from the counter, and then it does not wait any more.
      have hreads : ({ s with subscribesCount := count }.setClient i (.reads recv)).clients[i]? =
          some (.reads recv) := clients_setClient hclient
      have hexec : ({ s with subscribesCount := count }.setClient i (.reads recv)).execClient i true
          (.reads recv) = some ({ s with
            subscribesCount := count
            counter := counter }.setClient i (.sends recv)) := by
        simp [execClient, setClient, hcounter]
      refine CanStick.of_client true hreads hexec (ih hcompleted hpost rfl ?_)
      have hwaiting : ({ s with
          subscribesCount := count
          counter := counter }.setClient i (.sends recv)).waiting +
            (if client.waits s.parts.length then 1 else 0) = s.waiting + 0 :=
        waiting_setClient hclient (.sends recv)
      rw [if_pos hwaits] at hwaiting
      omega

end NotifyState

/-- No client is left behind in a run in which the last step of the server leaves something in the
counter for every client that is going to wait. After any other last step a client can be left
behind. -/
theorem completionReaches (parse : ResponseParser) (memory : ℕ → Bool) :
    (∀ hist s, Lts.Run NotifyState.Init
      (fun s act s' => s.Step parse memory act s' ∧ s.Covers act) hist s → ¬s.Stuck) ∧
    ∀ hist s act s', Lts.Run NotifyState.Init (NotifyState.Step parse memory) hist s →
      s.Step parse memory act s' → ¬s.Covers act →
      ∃ more s'', Lts.Run NotifyState.Init (NotifyState.Step parse memory)
        (hist ++ act :: more) s'' ∧ s''.Stuck := by
  refine ⟨fun hist s hrun => ?_, fun hist s act s' hrun hstep hnot => ?_⟩
  · obtain ⟨hinv, hcovered⟩ := NotifyState.covered_of_run hrun
    exact hinv.not_stuck hcovered
  · have hinv := NotifyState.NotifyInv.of_run hrun
    cases act with
    | server =>
        have huncovered : ¬s'.Covered := fun h => hnot ((hinv.covered_iff hstep).mp h)
        simp only [NotifyState.Covered, Classical.not_imp, Nat.not_le] at huncovered
        obtain ⟨hcompleted, hsteps, hlt⟩ := huncovered
        obtain ⟨more, s'', hexec, hstuck⟩ : s'.CanStick parse memory :=
          .of_uncovered hcompleted (by simp [hsteps]) hlt
        have hrun' := Lts.Run.execAll (hrun.snoc hstep) hexec
        rw [List.append_assoc] at hrun'
        exact ⟨more, s'', hrun', hstuck⟩
    | part part => exact absurd trivial hnot
    | quit => exact absurd trivial hnot
    | spawn => exact absurd trivial hnot
    | client i ok => exact absurd trivial hnot

/-- A parser for a response that is complete with its first part. -/
def parseAtOnce : ResponseParser := fun _ => (.completed, ⟨[], 0, 200⟩)

/-- Two clients have subscribed when the only part comes. -/
theorem completionReaches_two_clients :
    ∃ s, Lts.Run NotifyState.Init
      (fun s act s' => s.Step parseAtOnce (fun _ => true) act s' ∧ s.Covers act)
      [.spawn, .spawn, .client 0 true, .client 1 true, .client 0 true, .client 1 true,
        .client 0 true, .client 1 true, .part ⟨⟨[0x48], 128, by decide⟩, 1⟩, .server, .server,
        .server, .server, .client 0 true, .client 1 true] s ∧
      s.clients = [.sends 0, .sends 0] ∧ ¬s.Stuck := by
  obtain ⟨s, hrun, hclients⟩ := Lts.exists_run_guarded
    (NotifyState.exec parseAtOnce fun _ => true) NotifyState.Covers
    [.spawn, .spawn, .client 0 true, .client 1 true, .client 0 true, .client 1 true,
      .client 0 true, .client 1 true, .part ⟨⟨[0x48], 128, by decide⟩, 1⟩, .server, .server,
      .server, .server, .client 0 true, .client 1 true]
    (fun s => s.clients = [.sends 0, .sends 0]) (show NotifyState.Init .new from rfl)
    (by decide +kernel)
  exact ⟨s, hrun, hclients, (completionReaches parseAtOnce fun _ => true).1 _ s hrun⟩

/-- Two clients subscribe behind the only notification, which has been for one. -/
theorem not_completionReaches_two_clients :
    ∃ s, Lts.Run NotifyState.Init (NotifyState.Step parseAtOnce fun _ => true)
      [.spawn, .spawn, .client 0 true, .client 1 true,
        .part ⟨⟨[0x48], 128, by decide⟩, 1⟩, .server, .server, .server, .server,
        .client 0 true, .client 0 true, .client 0 true, .client 0 true,
        .client 1 true, .client 1 true, .client 1 true] s ∧ s.Stuck := by
  obtain ⟨s, hrun, hcompleted, hsteps, hclient, hcounter⟩ := Lts.exists_run
    (NotifyState.exec parseAtOnce fun _ => true)
    [.spawn, .spawn, .client 0 true, .client 1 true,
      .part ⟨⟨[0x48], 128, by decide⟩, 1⟩, .server, .server, .server, .server,
      .client 0 true, .client 0 true, .client 0 true, .client 0 true,
      .client 1 true, .client 1 true, .client 1 true]
    (fun s => s.completed = true ∧ s.server.steps = [] ∧ .reads 1 ∈ s.clients ∧ s.counter = 0)
    (show NotifyState.Init .new from rfl) (by decide +kernel)
  exact ⟨s, hrun, hcompleted, by simp [hsteps], ⟨1, hclient⟩, hcounter⟩

end PosixThreads.MultithreadProxy
