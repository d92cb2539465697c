import PosixThreads.Loop.Errors

/-!
# The end of the loop

`loop_run` asks `loop_prepare_pollfd` whether there is anything left to do. The flag `empty` is
false at first, and it is set to true only if the loop has been stopped; the handlers in the list
can but set it to false. So a loop with nothing left to do polls again.

The other threads go on while the loop thread looks at the handlers. `ScanTrace` keeps what it has
seen.
-/

namespace PosixThreads

structure SeenHandler where
  handler : ℕ
  status : HandlerStatus
  passive : Bool
  deriving DecidableEq, Repr

def SeenHandler.Idle (x : SeenHandler) : Prop := x.status = .unregistered ∨ x.passive = true

instance (x : SeenHandler) : Decidable x.Idle := inferInstanceAs (Decidable (_ ∨ _))

/-- A loop and what the last call of `loop_prepare_pollfd` has read: whether the loop has been
stopped, and the handlers. -/
structure ScanTrace where
  loop : Loop
  stopped : Bool
  seen : List SeenHandler

namespace ScanTrace

/-- What is known of the flag `stopped` and of the handlers after a step. -/
def look (t : ScanTrace) : LoopAction → Bool × List SeenHandler
  | .loop _ =>
      match t.loop.pc with
      | .prepare => (t.loop.stopped, [])
      | .preparing (h :: _) _ _ =>
          (t.stopped, t.seen ++ [⟨h, (t.loop.handler h).status, (t.loop.handler h).passive⟩])
      | _ => (t.stopped, t.seen)
  | _ => (t.stopped, t.seen)

def step (t : ScanTrace) (act : LoopAction) : Option ScanTrace :=
  (t.loop.step act).map fun s => ⟨s, (t.look act).1, (t.look act).2⟩

def Init (t : ScanTrace) : Prop := t.loop.Init ∧ t = ⟨t.loop, false, []⟩

def Step (t : ScanTrace) (act : LoopAction) (t' : ScanTrace) : Prop := t.step act = some t'

def Idle (t : ScanTrace) : Prop := ∀ x ∈ t.seen, x.Idle

instance (t : ScanTrace) : Decidable t.Idle := inferInstanceAs (Decidable (∀ _ ∈ _, _))

/-- The flag tells whether there is nothing left to do, and if so then the loop ends. -/
structure EmptySound (t : ScanTrace) (empty : Bool) : Prop where
  flag : empty = true ↔ t.stopped = true ∨ t.Idle
  leaves : t.Idle → ∀ answer s', t.loop.loopStep answer = some s' →
    s'.pc = .leave t.loop.pollMeta none

/-! ## The flag in a run -/

variable {t t' : ScanTrace} {act : LoopAction} {hist : List LoopAction}

theorem Step.spec (h : t.Step act t') : t.loop.Step act t'.loop ∧
    t'.stopped = (t.look act).1 ∧ t'.seen = (t.look act).2 := by
  obtain ⟨s, hs, rfl⟩ := Option.map_eq_some_iff.mp h
  exact ⟨hs, rfl, rfl⟩

end ScanTrace

/-- The flag is what has been read of `stopped`, and the handlers that have been seen are the first
ones of the list. -/
def LoopPc.Scans (handlers : List ℕ) (stopped : Bool) (seen : List SeenHandler) : LoopPc → Prop
  | .preparing rest empty _ =>
      empty = stopped ∧ (stopped = true → rest = []) ∧
        (stopped = false → seen.map SeenHandler.handler ++ rest = handlers)
  | .prepareFlags _ rest empty _ | .prepareForce _ _ rest empty _ =>
      empty = false ∧ stopped = false ∧ seen.map SeenHandler.handler ++ rest = handlers
  | _ => True

namespace ScanTrace

variable {t t' : ScanTrace} {act : LoopAction} {hist : List LoopAction}

def ScanInv (t : ScanTrace) : Prop := t.loop.pc.Scans t.loop.handlers t.stopped t.seen

theorem ScanInv.loopStep {s' : Loop} {answer : LoopAnswer} (hinv : t.ScanInv)
    (h : t.loop.loopStep answer = some s') :
    s'.pc.Scans s'.handlers (t.look (.loop answer)).1 (t.look (.loop answer)).2 := by
  unfold ScanInv at hinv
  cases hpc : t.loop.pc with
  | prepare =>
      simp only [Loop.loopStep, hpc] at h
      split at h <;>
      · rename_i hstopped
        rw [← Option.some.inj h]
        simp [LoopPc.Scans, look, hpc, hstopped]
  | preparing rest empty forced =>
      rw [hpc] at hinv
      obtain ⟨hempty, hstopped, hseen⟩ := hinv
      cases rest with
      | nil =>
          simp only [Loop.loopStep, hpc] at h
          split at h <;>
          · rw [← Option.some.inj h]
            trivial
      | cons x rest =>
          -- there is a handler to look at, so the loop has not been stopped
          have hrunning : t.stopped = false := by
            rw [← Bool.not_eq_true]
            exact fun h => List.cons_ne_nil x rest (hstopped h)
          have hlist := hseen hrunning
          rw [hrunning] at hempty
          simp only [Loop.loopStep, hpc, hempty, Bool.false_and] at h
          split at h <;>
          · rw [← Option.some.inj h]
            simp [LoopPc.Scans, look, hpc, hrunning, hlist]
  | prepareFlags x rest empty forced =>
      rw [hpc] at hinv
      obtain ⟨hempty, hrunning, hlist⟩ := hinv
      simp only [Loop.loopStep, hpc] at h
      split at h <;>
      · rw [← Option.some.inj h]
        simp [LoopPc.Scans, look, hpc, Loop.setHandler, hempty, hrunning, hlist]
  | prepareForce x events rest empty forced =>
      rw [hpc] at hinv
      obtain ⟨hempty, hrunning, hlist⟩ := hinv
      simp only [Loop.loopStep, hpc] at h
      split at h <;>
      · rw [← Option.some.inj h]
        simp [LoopPc.Scans, look, hpc, Loop.setHandler, hempty, hrunning, hlist]
  | _ =>
      -- the other steps lead to places outside of the scan
      rw [Loop.loopStep, hpc] at h
      grind [LoopPc.Scans]

theorem ScanInv.step (hinv : t.ScanInv) (h : t.Step act t') : t'.ScanInv := by
  obtain ⟨hstep, hstopped, hseen⟩ := h.spec
  unfold ScanInv
  rw [hstopped, hseen]
  cases hact : act.ofLoop with
  | true =>
      cases act with
      | loop answer => exact hinv.loopStep hstep
      | _ => simp [LoopAction.ofLoop] at hact
  | false =>
      have hlook : t.look act = (t.stopped, t.seen) := by
        cases act with
        | loop answer => simp [LoopAction.ofLoop] at hact
        | _ => rfl
      rw [hlook, hstep.pc_of_not_ofLoop hact, (hstep.lists_of_not_ofLoop hact).1]
      exact hinv

theorem scanInv_of_run (hrun : Lts.Run Init Step hist t) : t.ScanInv := by
  refine Lts.Run.invariant (I := fun _ t => t.ScanInv) hrun ?_ fun _ _ _ _ hinv hstep =>
    hinv.step hstep
  rintro t ⟨⟨handler, _, hloop⟩, _⟩
  rw [ScanInv, hloop]
  trivial

/-- The flag is right, and a loop with nothing left to do ends, exactly if the loop has been
stopped or there is something left to do. Unless it has been stopped, all its handlers have been
seen. -/
theorem emptySound_iff_of_run {empty forced : Bool} (hrun : Lts.Run Init Step hist t)
    (hpc : t.loop.pc = .preparing [] empty forced) :
    (t.EmptySound empty ↔ t.stopped = true ∨ ¬ t.Idle) ∧
      (t.stopped = false → t.seen.map SeenHandler.handler = t.loop.handlers) := by
  have hinv := scanInv_of_run hrun
  rw [ScanInv, hpc] at hinv
  obtain ⟨rfl, -, hseen⟩ := hinv
  refine ⟨⟨fun h => ?_, fun h => ⟨?_, ?_⟩⟩, fun hrunning => by simpa using hseen hrunning⟩
  · -- a right flag that is true says that the loop has been stopped
    rw [or_iff_not_imp_left]
    exact fun hrunning hidle => hrunning (h.flag.mpr (.inr hidle))
  · exact ⟨.inl, fun h' => h'.elim id fun hidle => h.resolve_right fun hnot => hnot hidle⟩
  · intro hidle answer s' hstep
    have hstopped : t.stopped = true := h.resolve_right fun hnot => hnot hidle
    simp only [Loop.loopStep, hpc, hstopped, if_true, Option.some.injEq] at hstep
    rw [← hstep]

end ScanTrace

def ScanTrace.fresh (handler : ℕ → Handler) : ScanTrace := ⟨loopNew handler, false, []⟩

def activeHandler : Handler := { notifyHandler with passive := false }

theorem ScanTrace.init_fresh : (ScanTrace.fresh fun _ => activeHandler).Init :=
  ⟨⟨_, fun _ => ⟨rfl, rfl⟩, rfl⟩, rfl⟩

/-- A step of the loop thread, with bytes in the pipe of `notify` and nothing else to read. -/
def loopNotified : LoopAction :=
  .loop ⟨true, true, some [⟨true, false, false, false⟩, .empty], ⟨true, true⟩,
    ⟨none, true, true, ⟨true, true⟩⟩⟩

/-- The handler 1 is registered, and the loop has looked at its handlers. -/
def registeredActs : List LoopAction :=
  [.register 1, .proceed .interrupt true] ++ List.replicate 15 loopNotified

/-- The loop goes on, since the handler 1 is active. -/
theorem emptySound_registered : ∃ t forced,
    Lts.Run ScanTrace.Init ScanTrace.Step registeredActs t ∧
      t.loop.pc = .preparing [] false forced ∧ t.seen.length = 2 ∧ t.EmptySound false := by
  obtain ⟨t, hrun, hpc, hlength, hidle⟩ := Lts.exists_run ScanTrace.step registeredActs
    (fun t => t.loop.pc = .preparing [] false false ∧ t.seen.length = 2 ∧ ¬ t.Idle)
    ScanTrace.init_fresh (by decide +kernel)
  exact ⟨t, false, hrun, hpc, hlength,
    (ScanTrace.emptySound_iff_of_run hrun hpc).1.mpr (.inr hidle)⟩

/-- The handler 1 is unregistered while the loop waits, and in the next iteration the loop has
looked at its handlers. -/
def lastUnregisteredActs : List LoopAction :=
  registeredActs ++ [loopNotified, .unregister 1] ++ List.replicate 21 loopNotified

/-- Only the handler of `notify` is left, and the loop polls again. -/
theorem not_emptySound_last_unregistered : ∃ t,
    Lts.Run ScanTrace.Init ScanTrace.Step lastUnregisteredActs t ∧
      t.loop.pc = .preparing [] false false ∧ t.loop.handlers = [notifyId] ∧ t.stopped = false ∧
      t.Idle ∧ ¬ t.EmptySound false ∧
      ∃ answer s', t.loop.loopStep answer = some s' ∧ s'.pc = .poll false := by
  obtain ⟨t, hrun, hpc, hhandlers, hstopped, hidle⟩ := Lts.exists_run ScanTrace.step
    lastUnregisteredActs (fun t => t.loop.pc = .preparing [] false false ∧
      t.loop.handlers = [notifyId] ∧ t.stopped = false ∧ t.Idle)
    ScanTrace.init_fresh (by decide +kernel)
  refine ⟨t, hrun, hpc, hhandlers, hstopped, hidle, fun h => ?_, ?_⟩
  · exact absurd (h.flag.mpr (.inr hidle)) Bool.false_ne_true
  · exact ⟨⟨true, true, none, ⟨true, true⟩, ⟨none, true, true, ⟨true, true⟩⟩⟩,
      { t.loop with pc := .poll false }, by simp [Loop.loopStep, hpc], rfl⟩

end PosixThreads
