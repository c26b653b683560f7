import Vecoda.CommandThread

/-!
# The end of a session

`CommandThreadProc` leaves its loop by a Detach that ends the session, or by a
read that fails, after a Detach or without one. What it cleans up depends on
`continueRunning`; m_detachEvent is set by the Detach alone. A wait is over as
soon as one of its two events is set, whether or not the thread has run since.
-/

set_option autoImplicit false

namespace Vecoda.HostRelease
open BreakLock CommandThread Transitions

/-- The command thread in its loop, behind it, in `WaitForAttach`, and gone. -/
inductive Proc where
  | reading (continueRunning : Bool)
  | left (continueRunning : Bool)
  | attaching
  | ended
  deriving DecidableEq, Repr

def Proc.inLoop : Proc → Bool
  | reading _ => true
  | _ => false

/-- `deleted` are the virtual machines whose records and events the clean-up
deletes; `received` tells whether the session has had a Detach. -/
structure State where
  base : BreakLock.State
  proc : Proc
  deleted : ℕ → Bool
  received : Bool

section Steps

variable (s : State)

def command (c : Command) : Option State :=
  match s.proc, c with
  | .reading _, .detach continueRunning =>
    if !s.base.readsCommands || !Ownership.canEnter s.base.criticalSection .command then none
    else some {s with
      base := {s.base with detachEvent := true}, received := true,
      proc := if continueRunning then .reading true else .left false}
  | .reading _, .reattach => none
  | .reading _, c => (commandThreadProc s.base c).map (fun base => {s with base := base})
  | _, _ => none

def close : Option State :=
  match s.proc with
  | .reading continueRunning =>
    if s.base.readsCommands then some {s with proc := .left continueRunning} else none
  | _ => none

def cleanUp : Option State :=
  match s.proc with
  | .left true => some {s with proc := .attaching}
  | .left false => some {s with
      base := {s.base with stateToVm := fun _ => false, breakEvent := fun _ => false}.moveTo .command .ended,
      proc := .ended, deleted := fun L => s.deleted L || s.base.stateToVm L}
  | _ => none

def reattach : Option State :=
  match s.proc with
  | .attaching => (BreakLock.reattach s.base).map (fun base =>
      {s with base := base, proc := .reading false, received := false})
  | _ => none

end Steps

inductive Label where
  | act (t : Thread) (a : Act)
  | command (c : Command)
  | evaluated
  | close
  | cleanUp
  | reattach

def step (s : State) : Label → Option State
  | .act t a => (act t s.base a).map (fun base => {s with base := base})
  | .command c => command s c
  | .evaluated => (evaluated s.base).map (fun base => {s with base := base})
  | .close => close s
  | .cleanUp => cleanUp s
  | .reattach => reattach s

def Step (s : State) (l : Label) (s' : State) : Prop := step s l = some s'

def initial : State := ⟨BreakLock.initial,.reading false,fun _ => false,false⟩

def getIsAttached (s : BreakLock.State) : Bool := !s.detachEvent

def Waits (s : BreakLock.State) (t : Thread) (L : ℕ) : Prop :=
  (∃ stop, s.location t = .waiting stop L) ∧ s.breakEvent L = false ∧ s.detachEvent = false

def Blocked (s : BreakLock.State) (t : Thread) : Prop :=
  (∃ L, Waits s t L) ∨ (s.location t = .loading ∧ s.loadEvent = false ∧ s.detachEvent = false)

structure Released (s : State) : Prop where
  signalled : s.base.detachEvent = true
  detached : getIsAttached s.base = false
  free : ∀ t, ¬ Blocked s.base t
  deleted : ∀ t L, s.deleted L = true → ¬ Waits s.base t L

def HostReleased (s : State) : Prop := s.proc.inLoop = false → Released s

/-- A read fails only after the Detach of its session. -/
def Announced (s : State) : Label → Prop
  | .close => s.received = true
  | _ => True

section Invariant

variable {s s' : State}

/-- m_detachEvent is set from the Detach on, and without one the loop is not left. -/
structure Signalled (s : State) : Prop where
  event : s.base.detachEvent = s.received
  received : s.proc.inLoop = false → s.received = true

theorem released_of_event (h : s.base.detachEvent = true) : Released s := by
  have hnone : s.base.detachEvent ≠ false := by simp [h]
  refine ⟨h,by simp [getIsAttached, h],fun t hb => ?_,fun t L _ hw => hnone hw.2.2⟩
  rcases hb with ⟨L,hw⟩ | ⟨-,-,hd⟩
  · exact hnone hw.2.2
  · exact hnone hd

theorem hostReleased_of_signalled (s : State) (h : Signalled s) : HostReleased s :=
  fun hloop => released_of_event (h.event.trans (h.received hloop))

theorem signalled_base (h : Signalled s) (base : BreakLock.State)
    (hd : base.detachEvent = s.base.detachEvent) : Signalled {s with base := base} :=
  ⟨hd.trans h.event,h.received⟩

/-- The commands other than Detach do not touch m_detachEvent. -/
theorem detachEvent_command {b b' : BreakLock.State} {c : Command}
    (hc : ∀ continueRunning, c ≠ .detach continueRunning) (hr : c ≠ .reattach)
    (h : commandThreadProc b c = some b') : b'.detachEvent = b.detachEvent := by
  unfold commandThreadProc at h
  split at h
  · cases h
  · cases c with
    | resume L =>
      dsimp only [resume] at h
      split at h <;> cases h
      rfl
    | evaluate L =>
      dsimp only [evaluate] at h
      split at h
      · cases h
        rfl
      · split at h <;> cases h
        rfl
    | loadDone =>
      cases h
      rfl
    | ignoreException message =>
      cases h
      rfl
    | detach continueRunning => exact absurd rfl (hc continueRunning)
    | reattach => exact absurd rfl hr

theorem signalled_command (c : Command) (h : Signalled s) (hs : command s c = some s') :
    Signalled s' := by
  unfold command at hs
  split at hs
  · split at hs
    · cases hs
    · cases hs
      exact ⟨rfl,fun _ => rfl⟩
  · cases hs
  · rename_i hdetach hreattach
    obtain ⟨b,hb,rfl⟩ := Option.map_eq_some_iff.mp hs
    exact signalled_base h b (detachEvent_command hdetach hreattach hb)
  · cases hs

theorem signalled_step (s : State) (l : Label) (s' : State) (h : Signalled s) (hs : Step s l s')
    (ha : Announced s l) : Signalled s' := by
  cases l with
  | act t a =>
    obtain ⟨b,hb,rfl⟩ := Option.map_eq_some_iff.mp hs
    exact signalled_base h b (moves_act hb).detachEvent
  | command c => exact signalled_command c h hs
  | evaluated =>
    obtain ⟨b,hb,rfl⟩ := Option.map_eq_some_iff.mp hs
    apply signalled_base h b
    unfold evaluated at hb
    split at hb <;> cases hb
    rfl
  | close =>
    have hr : s.received = true := ha
    change close s = some s' at hs
    unfold close at hs
    split at hs
    · split at hs
      · cases hs
        exact ⟨h.event,fun _ => hr⟩
      · cases hs
    · cases hs
  | cleanUp =>
    change cleanUp s = some s' at hs
    unfold cleanUp at hs
    split at hs
    · rename_i hp
      cases hs
      exact ⟨h.event,fun _ => h.received (by rw [hp]; rfl)⟩
    · rename_i hp
      cases hs
      exact ⟨h.event,fun _ => h.received (by rw [hp]; rfl)⟩
    · cases hs
  | reattach =>
    change reattach s = some s' at hs
    unfold reattach at hs
    split at hs
    · obtain ⟨b,hb,rfl⟩ := Option.map_eq_some_iff.mp hs
      unfold BreakLock.reattach at hb
      split at hb <;> cases hb
      exact ⟨rfl,fun hloop => by cases hloop⟩
    · cases hs

/-- A read that fails without a Detach leaves the host waiting. -/
theorem not_released_step (s : State) (l : Label) (s' : State) (h : Signalled s) (hs : Step s l s')
    (ha : ¬ Announced s l) : ¬ HostReleased s' := by
  cases l with
  | close =>
    have hr : s.received = false := by simpa [Announced] using ha
    change close s = some s' at hs
    unfold close at hs
    split at hs
    · split at hs
      · cases hs
        intro hp
        have hd := (hp rfl).signalled
        rw [h.event, hr] at hd
        cases hd
      · cases hs
    · cases hs
  | act t a => exact absurd trivial ha
  | command c => exact absurd trivial ha
  | evaluated => exact absurd trivial ha
  | cleanUp => exact absurd trivial ha
  | reattach => exact absurd trivial ha

end Invariant

/-- The loss of the debugger releases the host, exactly if it is announced. -/
theorem hostReleased_along_iff (labels : List Label) :
    Along Step HostReleased initial labels ↔ Meets Step Announced initial labels :=
  along_iff_meets hostReleased_of_signalled signalled_step not_released_step initial labels
    ⟨rfl,fun hloop => by cases hloop⟩

def crash : List Label :=
  [.act (.lua 0) (.luaCall 1 ⟨false,false,true⟩), .act (.lua 0) (.hook 1 true),
   .act (.lua 0) .send, .close, .cleanUp]

theorem crash_runs : (crash.foldlM step initial).isSome = true := by decide +kernel

/-- The thread waits for the event of a machine that is deleted. -/
theorem crash_not_released : ¬ Along Step HostReleased initial crash := by
  intro h
  have hend := along_runs h (runs_of_foldlM (Option.some_get crash_runs).symm (fun _ _ _ _ h => h))
  have hfree := (hend (by decide +kernel)).deleted (.lua 0) 1 (by decide +kernel)
  exact hfree ⟨⟨.breakFromScript,by decide +kernel⟩,by decide +kernel,by decide +kernel⟩

end Vecoda.HostRelease
