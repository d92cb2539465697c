import Mathlib.Data.List.Basic
import PosixThreads.Library.Lts
import PosixThreads.ProxyWorker.Basic

/-!
# The order of the parts

A client of a resource gets its parts one by one. How far it has got is kept twice: as the number
of parts that have been written to it, and as the queue of parts that have been copied for it. A
part that cannot be written leaves the queue but is not counted, so what is behind it in the queue
is written in its place. If there is nothing behind it, then it is copied again.
-/

namespace PosixThreads

variable {M : Type}

def CacheTable.parts (table : CacheTable M) (name : String) : List M :=
  ((table name).map ResourceInfo.parts).getD []

/-- What `readServerResponse` does with a new part. `completes` is whether it is the last one. -/
def CacheTable.receivePart (table : CacheTable M) (name : String) (part : M) (completes : Bool) :
    CacheTable M :=
  let res := (table name).getD .new
  if res.completed then Function.update table name (some res)
  else Function.update table name (some { res with
    completed := completes
    parts := res.parts ++ [part] })

/-- What has been written to the client are the first parts, as many as it has counted, and its
queue begins with the next one. -/
structure ClientInfo.Delivered (client : ClientInfo M) (parts : List M) : Prop where
  count_le : client.recvMsgCount ≤ parts.length
  written_eq : client.written = parts.take client.recvMsgCount
  queue_prefix : client.msgQueue <+: parts.drop client.recvMsgCount

/-- There is at most one part that the next write to the client can find in its queue. -/
def ClientInfo.lastPending (client : ClientInfo M) (parts : List M) : Bool :=
  if client.msgQueue.isEmpty then decide (parts.length ≤ client.recvMsgCount + 1)
  else decide (client.msgQueue.length ≤ 1)

/-! ## The queue of one client -/

namespace ClientInfo

variable {client : ClientInfo M} {parts parts' : List M} {table : CacheTable M}

/-- The client after a write, which takes what is in front of its queue. -/
def afterWrite (client : ClientInfo M) (written : Bool) : ClientInfo M :=
  match client.msgQueue with
  | [] => client
  | msg :: queue =>
      if written then { client with
        msgQueue := queue
        recvMsgCount := client.recvMsgCount + 1
        written := client.written ++ [msg] }
      else { client with msgQueue := queue }

@[simp] theorem resName_afterWrite (client : ClientInfo M) (written : Bool) :
    (client.afterWrite written).resName = client.resName := by
  simp only [afterWrite]
  split
  · rfl
  · split <;> rfl

theorem Delivered.mono (hdel : client.Delivered parts) (hpre : parts <+: parts') :
    client.Delivered parts' := by
  obtain ⟨more, rfl⟩ := hpre
  obtain ⟨hcount, hwritten, hqueue⟩ := hdel
  refine ⟨Nat.le_trans hcount (by simp), ?_, ?_⟩
  · rw [List.take_append_of_le_length hcount]
    exact hwritten
  · rw [List.drop_append_of_le_length hcount]
    exact List.prefix_append_of_prefix hqueue

theorem Delivered.lootQueue (hdel : client.Delivered (table.parts client.resName)) :
    ∃ queue, ProxyWorker.lootQueue table client = some queue ∧
      ({ client with msgQueue := queue }).Delivered (table.parts client.resName) ∧
      (client.lastPending (table.parts client.resName) = true → queue.length ≤ 1) := by
  obtain ⟨hcount, hwritten, hqueue⟩ := hdel
  cases hres : table client.resName with
  | none =>
      have hparts : table.parts client.resName = [] := by simp [CacheTable.parts, hres]
      rw [hparts] at hqueue ⊢
      simp only [List.drop_nil, List.prefix_nil] at hqueue
      refine ⟨client.msgQueue, by simp [ProxyWorker.lootQueue, hres], ?_, by simp [hqueue]⟩
      rw [hparts] at hcount hwritten
      exact ⟨hcount, hwritten, by simp [hqueue]⟩
  | some res =>
      have hparts : table.parts client.resName = res.parts := by simp [CacheTable.parts, hres]
      rw [hparts] at hcount hwritten hqueue ⊢
      cases hempty : client.msgQueue.isEmpty with
      | true =>
          refine ⟨res.parts.drop client.recvMsgCount, ?_,
            ⟨hcount, hwritten, List.prefix_refl _⟩, ?_⟩
          · simp [ProxyWorker.lootQueue, hres, hempty, assertThat, hcount]
          · intro hlast
            simp only [lastPending, hempty, if_true, decide_eq_true_eq] at hlast
            simp only [List.length_drop]
            omega
      | false =>
          refine ⟨client.msgQueue, ?_, ⟨hcount, hwritten, hqueue⟩, ?_⟩
          · simp [ProxyWorker.lootQueue, hres, hempty]
          · intro hlast
            simpa [lastPending, hempty] using hlast

theorem Delivered.written (hdel : client.Delivered parts) :
    (client.afterWrite true).Delivered parts := by
  cases hqueue : client.msgQueue with
  | nil => simpa [afterWrite, hqueue] using hdel
  | cons msg queue =>
      obtain ⟨hcount, hwritten, rest, hrest⟩ := hdel
      rw [hqueue, List.cons_append] at hrest
      have hlt : client.recvMsgCount < parts.length := by
        by_contra hle
        rw [List.drop_eq_nil_of_le (Nat.le_of_not_lt hle)] at hrest
        simp at hrest
      rw [List.drop_eq_getElem_cons hlt] at hrest
      obtain ⟨hmsg, htail⟩ := List.cons_eq_cons.mp hrest
      simp only [afterWrite, hqueue, if_true]
      refine ⟨hlt, ?_, rest, htail⟩
      calc client.written ++ [msg]
          = parts.take client.recvMsgCount ++ [parts[client.recvMsgCount]] := by
            rw [hwritten, hmsg]
        _ = parts.take (client.recvMsgCount + 1) := (List.take_succ_eq_append_getElem hlt).symm

/-- A part that has not been written does no harm if it is the only one in the queue. -/
theorem Delivered.failed (hdel : client.Delivered parts) (hlast : client.msgQueue.length ≤ 1) :
    (client.afterWrite false).Delivered parts := by
  cases hqueue : client.msgQueue with
  | nil => simpa [afterWrite, hqueue] using hdel
  | cons msg queue =>
      have hnil : queue = [] := by
        rw [hqueue] at hlast
        simpa using hlast
      simp only [afterWrite, hqueue, hnil]
      exact ⟨hdel.count_le, hdel.written_eq, List.nil_prefix⟩

/-- It does harm if there are others, unless the parts are the same. -/
theorem Delivered.not_failed (hdel : client.Delivered parts) (hnodup : parts.Nodup)
    (hmore : 1 < client.msgQueue.length) : ¬(client.afterWrite false).Delivered parts := by
  intro hdel'
  obtain ⟨msg, next, queue, hqueue⟩ : ∃ msg next queue, client.msgQueue = msg :: next :: queue := by
    match hqueue : client.msgQueue, hmore with
    | msg :: next :: queue, _ => exact ⟨msg, next, queue, rfl⟩
  obtain ⟨rest, hrest⟩ := hdel.queue_prefix
  obtain ⟨rest', hrest'⟩ := hdel'.queue_prefix
  simp only [afterWrite, hqueue] at hrest'
  rw [hqueue] at hrest
  have heq : msg = next := (List.cons_eq_cons.mp (hrest.trans hrest'.symm)).1
  have hnodup' : (msg :: next :: queue ++ rest).Nodup := by
    rw [hrest]
    exact hnodup.sublist (List.drop_sublist _ _)
  simp [heq] at hnodup'

end ClientInfo

/-! ## All the clients of a worker -/

structure DeliveryState (M : Type) where
  table : CacheTable M
  worker : ProxyWorker M

inductive DeliveryAct (M : Type)
  | arrive (name : String) (part : M) (completes : Bool)
  | loot (fd : ℕ) (reset : Bool)
  | write (fd : ℕ) (finished written : Bool)

namespace DeliveryState

def exec (s : DeliveryState M) : DeliveryAct M → Option (DeliveryState M)
  | .arrive name part completes =>
      some { s with table := s.table.receivePart name part completes }
  | .loot fd reset => do
      return { s with worker := ← s.worker.lootNewResourceParts s.table fd reset }
  | .write fd finished written => do
      let (_, w) ← s.worker.writeMessageTo s.table fd finished written
      return { s with worker := w }

def Init (s : DeliveryState M) : Prop :=
  ∀ fd client, s.worker.clients fd = some client → s.worker.servers fd = none ∧
    client.msgQueue = [] ∧ client.recvMsgCount = 0 ∧ client.written = []

def Step (s : DeliveryState M) (act : DeliveryAct M) (s' : DeliveryState M) : Prop :=
  s.exec act = some s'

def Delivered (s : DeliveryState M) : Prop :=
  ∀ fd client, s.worker.clients fd = some client →
    client.Delivered (s.table.parts client.resName)

end DeliveryState

/-- A write to a client that fails finds at most one part in its queue. -/
def DeliveryAct.failsLast (s : DeliveryState M) : DeliveryAct M → Bool
  | .write fd _ false =>
      (s.worker.clients fd).all fun client => client.lastPending (s.table.parts client.resName)
  | _ => true

section Runs

variable {s s' : DeliveryState M} {act : DeliveryAct M} {hist : List (DeliveryAct M)}
  {table : CacheTable M} {w : ProxyWorker M} {fd : ℕ} {client : ClientInfo M}

/-- What a run keeps: no client is a server, and the parts are in order. -/
structure DeliveryInv (s : DeliveryState M) : Prop where
  not_server : ∀ fd client, s.worker.clients fd = some client → s.worker.servers fd = none
  delivered : s.Delivered

theorem DeliveryInv.of_init (hinit : s.Init) : DeliveryInv s := by
  refine ⟨fun fd client hclient => (hinit fd client hclient).1, fun fd client hclient => ?_⟩
  obtain ⟨_, hqueue, hcount, hwritten⟩ := hinit fd client hclient
  exact ⟨by simp [hcount], by simp [hcount, hwritten], by simp [hqueue]⟩

theorem CacheTable.parts_receivePart (table : CacheTable M) (name : String) (part : M)
    (completes : Bool) (name' : String) :
    table.parts name' <+: (table.receivePart name part completes).parts name' := by
  by_cases hname : name' = name
  · subst hname
    cases hres : table name' with
    | none => simp [CacheTable.parts, hres]
    | some res =>
        cases hcompleted : res.completed with
        | true => simp [CacheTable.parts, CacheTable.receivePart, hres, hcompleted]
        | false => simp [CacheTable.parts, CacheTable.receivePart, hres, hcompleted]
  · have hsame : table.receivePart name part completes name' = table name' := by
      simp only [CacheTable.receivePart]
      split
      · exact Function.update_of_ne hname _ _
      · exact Function.update_of_ne hname _ _
    simp [CacheTable.parts, hsame]

theorem DeliveryInv.set {client' : ClientInfo M} {w : ProxyWorker M} (hinv : DeliveryInv s)
    (hclient : s.worker.clients fd = some client) (hservers : w.servers = s.worker.servers)
    (hclients : w.clients = Function.update s.worker.clients fd (some client'))
    (hdel : client'.Delivered (s.table.parts client'.resName)) :
    DeliveryInv { s with worker := w } := by
  constructor
  · intro fd' other hother
    simp only [hservers]
    by_cases hfd : fd' = fd
    · rw [hfd]
      exact hinv.not_server fd client hclient
    · simp only [hclients, Function.update_of_ne hfd] at hother
      exact hinv.not_server fd' other hother
  · intro fd' other hother
    by_cases hfd : fd' = fd
    · simp only [hclients, hfd, Function.update_self, Option.some.injEq] at hother
      rw [← hother]
      exact hdel
    · simp only [hclients, Function.update_of_ne hfd] at hother
      exact hinv.delivered fd' other hother

theorem ProxyWorker.lootNewResourceParts_eq {queue : List M} (reset : Bool)
    (hclient : w.clients fd = some client) (hqueue : lootQueue table client = some queue) :
    ∃ w', lootNewResourceParts table w fd reset = some w' ∧ w'.servers = w.servers ∧
      w'.clients = Function.update w.clients fd (some { client with msgQueue := queue }) := by
  simp only [lootNewResourceParts, hclient, hqueue, Option.bind_eq_bind, Option.bind_some,
    Option.pure_def, Option.some.injEq]
  refine ⟨_, rfl, ?_, ?_⟩
  · split <;> rfl
  · split <;> rfl

theorem ProxyWorker.writeMessageTo_client {queue : List M} (finished written : Bool)
    (hclient : w.clients fd = some client) (hserver : w.servers fd = none)
    (hqueue : lootQueue table client = some queue) :
    ∃ code w', writeMessageTo table w fd finished written = some (code, w') ∧
      w'.servers = w.servers ∧ w'.clients = Function.update w.clients fd
        (some (({ client with msgQueue := queue }).afterWrite written)) := by
  obtain ⟨w₁, hloot, hservers, hclients⟩ :=
    lootNewResourceParts_eq (w := w.removeWrite fd) false hclient hqueue
  have hself : w₁.clients fd = some { client with msgQueue := queue } := by simp [hclients]
  have hwrite : writeMessageTo table w fd finished written =
      (w.removeWrite fd).writeToClient table fd written := by
    simp [writeMessageTo, removeWrite, hserver, hclient]
  rw [hwrite]
  simp only [writeToClient, hloot, hself, Option.bind_eq_bind, Option.bind_some]
  cases queue with
  | nil => exact ⟨_, _, rfl, hservers, hclients⟩
  | cons msg queue =>
      cases written with
      | true =>
          refine ⟨_, _, rfl, ?_, ?_⟩
          · split <;> exact hservers
          · split <;> simp [setClient, addWrite, hclients, ClientInfo.afterWrite, removeWrite]
      | false =>
          refine ⟨_, _, rfl, ?_, ?_⟩
          · split <;> exact hservers
          · split <;> simp [setClient, addWrite, hclients, ClientInfo.afterWrite, removeWrite]

theorem ProxyWorker.writeToServer_frame (server : ServerInfo M) (finished written : Bool) :
    (w.writeToServer fd server finished written).2.clients = w.clients ∧
      ∀ fd', fd' ≠ fd →
        (w.writeToServer fd server finished written).2.servers fd' = w.servers fd' := by
  obtain ⟨queue, connected, name⟩ := server
  cases connected with
  | false =>
      cases finished with
      | false => exact ⟨rfl, fun _ _ => rfl⟩
      | true => cases queue <;> simp +contextual [writeToServer, setServer, addRead, addWrite]
  | true =>
      cases queue with
      | nil => exact ⟨rfl, fun _ _ => rfl⟩
      | cons msg queue =>
          cases queue <;> simp +contextual [writeToServer, setServer, addWrite]

theorem ProxyWorker.writeMessageTo_server {server : ServerInfo M} (finished written : Bool)
    (hserver : w.servers fd = some server) (hclient : w.clients fd = none) :
    writeMessageTo table w fd finished written =
      some ((w.removeWrite fd).writeToServer fd server finished written) := by
  simp [writeMessageTo, removeWrite, hserver, hclient, assertThat]

theorem ProxyWorker.writeMessageTo_unknown (finished written : Bool)
    (hserver : w.servers fd = none) (hclient : w.clients fd = none) :
    writeMessageTo table w fd finished written =
      some (StatusCode.success, w.removeWrite fd) := by
  simp [writeMessageTo, removeWrite, hserver, hclient]

/-- What happens to the servers does not matter, as long as they are not clients. -/
theorem DeliveryInv.of_clients_eq {w : ProxyWorker M} (hinv : DeliveryInv s)
    (hclients : w.clients = s.worker.clients) (hfd : s.worker.clients fd = none)
    (hservers : ∀ fd', fd' ≠ fd → w.servers fd' = s.worker.servers fd') :
    DeliveryInv { s with worker := w } := by
  constructor
  · intro fd' client hclient
    simp only [hclients] at hclient
    have hne : fd' ≠ fd := by
      rintro rfl
      simp [hfd] at hclient
    exact (hservers fd' hne).trans (hinv.not_server fd' client hclient)
  · intro fd' client hclient
    simp only [hclients] at hclient
    exact hinv.delivered fd' client hclient

theorem DeliveryInv.loot (hinv : DeliveryInv s) (fd : ℕ) (reset : Bool) :
    ∃ s', s.exec (.loot fd reset) = some s' ∧ DeliveryInv s' := by
  cases hclient : s.worker.clients fd with
  | none =>
      refine ⟨s, ?_, hinv⟩
      simp [DeliveryState.exec, ProxyWorker.lootNewResourceParts, hclient]
  | some client =>
      obtain ⟨queue, hqueue, hdel, _⟩ := (hinv.delivered fd client hclient).lootQueue
      obtain ⟨w, hloot, hservers, hclients⟩ :=
        ProxyWorker.lootNewResourceParts_eq reset hclient hqueue
      exact ⟨{ s with worker := w }, by simp [DeliveryState.exec, hloot],
        hinv.set hclient hservers hclients hdel⟩

theorem DeliveryInv.write (hinv : DeliveryInv s) (fd : ℕ) (finished written : Bool)
    (hlast : (DeliveryAct.write fd finished written).failsLast s = true) :
    ∃ s', s.exec (.write fd finished written) = some s' ∧ DeliveryInv s' := by
  cases hclient : s.worker.clients fd with
  | none =>
      cases hserver : s.worker.servers fd with
      | none =>
          refine ⟨{ s with worker := s.worker.removeWrite fd }, ?_, hinv.of_clients_eq rfl hclient
            fun _ _ => rfl⟩
          simp [DeliveryState.exec, ProxyWorker.writeMessageTo_unknown finished written hserver
            hclient]
      | some server =>
          obtain ⟨hclients, hservers⟩ :=
            (s.worker.removeWrite fd).writeToServer_frame server finished written
          refine ⟨_, ?_, hinv.of_clients_eq hclients hclient hservers⟩
          simp [DeliveryState.exec, ProxyWorker.writeMessageTo_server finished written hserver
            hclient]
  | some client =>
      obtain ⟨queue, hqueue, hdel, hpending⟩ := (hinv.delivered fd client hclient).lootQueue
      obtain ⟨code, w, hwrite, hservers, hclients⟩ :=
        ProxyWorker.writeMessageTo_client finished written hclient
          (hinv.not_server fd client hclient) hqueue
      refine ⟨{ s with worker := w }, by simp [DeliveryState.exec, hwrite],
        hinv.set hclient hservers hclients ?_⟩
      rw [ClientInfo.resName_afterWrite]
      cases written with
      | true => exact hdel.written
      | false =>
          refine hdel.failed (hpending ?_)
          simpa [DeliveryAct.failsLast, hclient] using hlast

theorem DeliveryInv.exec (hinv : DeliveryInv s) (hlast : act.failsLast s = true) :
    ∃ s', s.exec act = some s' ∧ DeliveryInv s' := by
  cases act with
  | arrive name part completes =>
      refine ⟨_, rfl, hinv.not_server, fun fd client hclient => ?_⟩
      exact (hinv.delivered fd client hclient).mono (s.table.parts_receivePart _ _ _ _)
  | loot fd reset => exact hinv.loot fd reset
  | write fd finished written => exact hinv.write fd finished written hlast

theorem DeliveryInv.of_run (hrun : Lts.Run DeliveryState.Init
    (fun s act s' => s.Step act s' ∧ act.failsLast s = true) hist s) : DeliveryInv s := by
  refine Lts.Run.invariant (I := fun _ s => DeliveryInv s) hrun (fun s => DeliveryInv.of_init) ?_
  intro hist s act s' hinv hstep
  obtain ⟨s₁, hexec, hinv₁⟩ := hinv.exec hstep.2
  rw [Option.some.inj (hstep.1.symm.trans hexec)]
  exact hinv₁

end Runs

/-- In a run in which no write fails that has other parts behind it, the clients have got the parts
of their resources in order, and the next call returns. -/
theorem partsDelivered_of_run {hist : List (DeliveryAct M)} {s : DeliveryState M}
    (hrun : Lts.Run DeliveryState.Init (fun s act s' => s.Step act s' ∧ act.failsLast s = true)
      hist s) :
    s.Delivered ∧ ∀ act, act.failsLast s = true → (s.exec act).isSome = true := by
  have hinv := DeliveryInv.of_run hrun
  refine ⟨hinv.delivered, fun act hlast => ?_⟩
  obtain ⟨s', hexec, _⟩ := hinv.exec hlast
  simp [hexec]

/-- A worker with one client, which has asked for `http://a/`. -/
def deliveryExample : DeliveryState ℕ where
  table := fun _ => none
  worker := {
    id := 0
    clients := fun fd => if fd = 4 then some ⟨[], "http://a/", 0, []⟩ else none
    servers := fun _ => none
    readSet := fun _ => false
    writeSet := fun _ => false
    dnsMap := fun _ => false }

theorem init_deliveryExample : deliveryExample.Init := by
  intro fd client hclient
  simp only [deliveryExample] at hclient
  split at hclient
  · rw [← Option.some.inj hclient]
    exact ⟨rfl, rfl, rfl, rfl⟩
  · simp at hclient

/-- The first part cannot be written before the second one arrives. Both are written then. -/
theorem partsDelivered_two_parts :
    ∃ s : DeliveryState ℕ, Lts.Run DeliveryState.Init
      (fun s act s' => s.Step act s' ∧ act.failsLast s = true)
      [.arrive "http://a/" 10 false, .write 4 true false, .arrive "http://a/" 11 true,
        .loot 4 true, .write 4 true true, .write 4 true true] s ∧
      s.worker.clients 4 = some ⟨[], "http://a/", 2, [10, 11]⟩ ∧ s.Delivered := by
  obtain ⟨s, hrun, hclient⟩ := Lts.exists_run_guarded DeliveryState.exec
    (fun s act => act.failsLast s = true)
    [.arrive "http://a/" 10 false, .write 4 true false, .arrive "http://a/" 11 true,
      .loot 4 true, .write 4 true true, .write 4 true true]
    (fun s => s.worker.clients 4 = some ⟨[], "http://a/", 2, [10, 11]⟩) init_deliveryExample
    (by decide +kernel)
  exact ⟨s, hrun, hclient, (partsDelivered_of_run hrun).1⟩

/-- The first of two parts cannot be written, and the second one is written in its place. -/
theorem not_partsDelivered_two_parts :
    ∃ s : DeliveryState ℕ, Lts.Run DeliveryState.Init DeliveryState.Step
      [.arrive "http://a/" 10 false, .arrive "http://a/" 11 true, .write 4 true false,
        .write 4 true true] s ∧ ¬s.Delivered := by
  obtain ⟨s, hrun, hclient, hparts⟩ := Lts.exists_run DeliveryState.exec
    [.arrive "http://a/" 10 false, .arrive "http://a/" 11 true, .write 4 true false,
      .write 4 true true]
    (fun s => s.worker.clients 4 = some ⟨[], "http://a/", 1, [11]⟩ ∧
      s.table.parts "http://a/" = [10, 11]) init_deliveryExample (by decide +kernel)
  refine ⟨s, hrun, fun hdel => ?_⟩
  have hwritten := (hdel 4 _ hclient).written_eq
  rw [hparts] at hwritten
  exact absurd hwritten (by decide)

end PosixThreads
