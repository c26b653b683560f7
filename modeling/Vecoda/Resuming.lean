import Vecoda.HookCallback
import Vecoda.Registration
import Vecoda.Variables

/-!
# Stops and resumes

A virtual machine sends a break event and waits for its break_event, which the
command thread sets for Continue and the steps without asking whether anyone
waits. The adapter writes these commands for a request, or of its own accord,
without asking whether the thread is stopped. The breaks of a virtual machine
are numbered, and a resume command carries the number of the last one that the
adapter had received when it wrote the command.
-/

set_option autoImplicit false

namespace Vecoda.Resuming
open MessagePipe (Bytes)
open Backend HookCallback HandleBreak Variables

inductive Resume where
  | continue
  | stepOver
  | stepInto
  | stepOut
  deriving DecidableEq, Repr

inductive Instruction where
  | resume (how : Resume) (L : LuaState) (number : ℕ)
  | evaluate (c : Command)
  | detach (continueRunning : Bool)
  deriving DecidableEq, Repr

inductive Event where
  | break (L : LuaState) (number : ℕ) (stop : StopEvent)
  | result (c : Command) (success : Bool) (text : Bytes)

inductive Serving where
  | reading
  | evaluating (c : Command)
  | ended
  deriving DecidableEq, Repr

/-- `blocked` are the machines between SendBreakEvent and the end of
WaitForContinue; `stopped` are those the adapter has a break of that it has not
answered by a resume command. -/
structure State where
  backend : DebugBackend
  blocked : LuaState → Bool
  detachEvent : Bool
  commandThread : Serving
  commands : List Instruction
  events : List Event
  debugdata : Bool
  stopped : LuaState → Bool
  received : LuaState → ℕ
  sent : LuaState → ℕ
  released : LuaState → ℕ

def resume : Resume → DebugBackend → LuaState → DebugBackend
  | .continue => continueVm
  | .stepOver => stepOver
  | .stepInto => stepInto
  | .stepOut => stepOut

def resetEvent (vm : VirtualMachine) : VirtualMachine := {vm with breakEvent := false}

def resetEvents (b : DebugBackend) : DebugBackend :=
  b.vms.foldl (fun b L => b.modifyVm L resetEvent) b

def signalled (b : DebugBackend) (L : LuaState) : Bool := (b.getVm L).any VirtualMachine.breakEvent

section Backend

variable (s : State)

def attachState (L : LuaState) (checkstack : Bool) : Option State :=
  some {s with backend := (s.backend.attachState L (!s.detachEvent) checkstack).1}

def detachState (L : LuaState) : Option State :=
  if s.blocked L then none else some {s with backend := s.backend.detachState L}

/-- SendBreakEvent of a registered machine, and the beginning of WaitForContinue. -/
def sendBreak (L : LuaState) (stop : StopEvent) : Option State :=
  if s.blocked L || (s.backend.getVm L).isNone then none
  else some {s with blocked := Function.update s.blocked L true,
                    events := s.events ++ [.break L (s.sent L+1) stop],
                    sent := Function.update s.sent L (s.sent L+1),
                    released := if s.detachEvent then Function.update s.released L (s.sent L+1)
                      else s.released}

/-- The end of WaitForContinue; the event is reset by the thread it wakes. -/
def wake (L : LuaState) : Option State :=
  if s.blocked L && (signalled s.backend L || s.detachEvent) then
    some {s with blocked := Function.update s.blocked L false,
                 backend := s.backend.modifyVm L resetEvent}
  else none

/-- `SetHookMode(HookMode_None)` for all machines. Without the wish to go on the
command thread ends, and the records are deleted. -/
def detached (b : DebugBackend) (continueRunning : Bool) : DebugBackend :=
  let b := {b with hook := fun L => if L ∈ b.vms then .none else b.hook L}
  if continueRunning then b
  else {b with scripts := [], nameToScript := [], vms := [], stateToVm := []}

/-- A machine that is not registered makes Continue and the steps use a null
pointer, and is not evaluated. A detach frees all that wait. -/
def commandThreadProc : Option State :=
  match s.commandThread, s.commands with
  | .reading, .resume how L number :: rest =>
    if (s.backend.getVm L).isNone then none
    else some {s with commands := rest, backend := resume how s.backend L,
                      released := Function.update s.released L (max (s.released L) number)}
  | .reading, .evaluate c :: rest =>
    if (s.backend.getVm c.vm).isNone then
      some {s with commands := rest, events := s.events ++ [.result c false []]}
    else some {s with commands := rest, commandThread := .evaluating c}
  | .reading, .detach continueRunning :: rest =>
    some {s with commands := rest, backend := detached s.backend continueRunning,
                 detachEvent := true, released := s.sent,
                 commandThread := if continueRunning then .reading else .ended}
  | _, _ => none

def evaluated (success : Bool) (text : Bytes) : Option State :=
  match s.commandThread with
  | .evaluating c => some {s with commandThread := .reading,
                                  events := s.events ++ [.result c success text]}
  | _ => none

def waitForAttach : Option State :=
  if s.detachEvent && s.commands = [] && s.commandThread = .reading then
    some {s with backend := resetEvents s.backend.deleteAllBreakpoints.activeLuaHookInAllVms,
                 detachEvent := false, events := [], debugdata := true, stopped := fun _ => false,
                 received := fun _ => 0}
  else none

end Backend

section Adapter

variable (s : State)

def receive : Option State :=
  if !s.debugdata then none
  else match s.events with
    | [] => none
    | .break L number _ :: rest =>
      some {s with events := rest, stopped := Function.update s.stopped L true,
                   received := Function.update s.received L number}
    | .result _ _ _ :: rest => some {s with events := rest}

def write (i : Instruction) : State := {s with commands := s.commands ++ [i]}

def writeResume (how : Resume) (L : LuaState) : State :=
  if !s.debugdata then s
  else {write s (.resume how L (s.received L)) with stopped := Function.update s.stopped L false}

def writeEvaluate (c : Command) : State := if !s.debugdata then s else write s (.evaluate c)

def stop (continueRunning : Bool) : State :=
  if !s.debugdata then s else {write s (.detach continueRunning) with debugdata := false}

end Adapter

inductive Label where
  | attachState (L : LuaState) (checkstack : Bool)
  | detachState (L : LuaState)
  | sendBreak (L : LuaState) (stop : StopEvent)
  | wake (L : LuaState)
  | command
  | evaluated (success : Bool) (text : Bytes)
  | waitForAttach
  | receive
  | resume (how : Resume) (L : LuaState)
  | evaluate (c : Command)
  | stop (continueRunning : Bool)

def step (s : State) : Label → Option State
  | .attachState L checkstack => attachState s L checkstack
  | .detachState L => detachState s L
  | .sendBreak L stop => sendBreak s L stop
  | .wake L => wake s L
  | .command => commandThreadProc s
  | .evaluated success text => evaluated s success text
  | .waitForAttach => waitForAttach s
  | .receive => receive s
  | .resume how L => some (writeResume s how L)
  | .evaluate c => some (writeEvaluate s c)
  | .stop continueRunning => some (stop s continueRunning)

def Step (s : State) (l : Label) (s' : State) : Prop := step s l = some s'

def initial : State where
  backend := DebugBackend.initial
  blocked _ := false
  detachEvent := false
  commandThread := .reading
  commands := []
  events := []
  debugdata := true
  stopped _ := false
  received _ := 0
  sent _ := 0
  released _ := 0

section Signals

variable {b : DebugBackend} {L M : LuaState}

theorem signalled_modifyVm (f : VirtualMachine → VirtualMachine) :
    signalled (b.modifyVm L f) M =
      if M = L then (b.getVm M).any (fun vm => (f vm).breakEvent) else signalled b M := by
  split
  · rename_i h
    rw [h, signalled, DebugBackend.getVm_modifyVm, Option.any_map]
  · rename_i h
    rw [signalled, DebugBackend.getVm_modifyVm_of_ne _ _ _ _ h, signalled]

theorem signalled_resetEvent :
    signalled (b.modifyVm L resetEvent) M = if M = L then false else signalled b M := by
  rw [signalled_modifyVm]
  cases b.getVm M <;> rfl

theorem listed_modifyVm (h : Registration.Listed b) (f : VirtualMachine → VirtualMachine) :
    Registration.Listed (b.modifyVm L f) :=
  Registration.listed_congr h rfl (Registration.entries_modifyVm f)

/-- The four commands differ in the mode, the call count and the hook they leave. -/
theorem resume_spec (how : Resume) : ∃ f hook, resume how b L = {b.modifyVm L f with hook := hook} ∧
    ∀ vm, (f vm).breakEvent = true := by
  cases how with
  | «continue» =>
    exact ⟨fun vm => {vm with callCount := 0, mode := .continue, breakEvent := true},b.hook,rfl,fun _ => rfl⟩
  | stepOver => exact ⟨_,_,rfl,fun _ => rfl⟩
  | stepInto => exact ⟨_,_,rfl,fun _ => rfl⟩
  | stepOut => exact ⟨_,_,rfl,fun _ => rfl⟩

theorem signalled_resume (how : Resume) (h : (b.getVm L).isNone = false) :
    signalled (resume how b L) M = if M = L then true else signalled b M := by
  obtain ⟨f,hook,hr,hf⟩ := resume_spec (b := b) (L := L) how
  have hm := signalled_modifyVm (b := b) (L := L) (M := M) f
  rw [hr]
  apply hm.trans
  split
  · rename_i hM
    cases hvm : b.getVm L with
    | none => simp [hvm] at h
    | some vm => simp [hM, hvm, hf]
  · rfl

theorem listed_resume (how : Resume) (h : Registration.Listed b) :
    Registration.Listed (resume how b L) := by
  obtain ⟨f,hook,hr,-⟩ := resume_spec (b := b) (L := L) how
  rw [hr]
  exact Registration.listed_congr (listed_modifyVm (L := L) h f) rfl rfl

/-- The loop resets every event of m_vms, and with them all there are. -/
theorem signalled_reset (vms : List LuaState) (b : DebugBackend) :
    signalled (vms.foldl (fun b L => b.modifyVm L resetEvent) b) M =
      if M ∈ vms then false else signalled b M := by
  induction vms generalizing b with
  | nil => rfl
  | cons L vms ih =>
    rw [List.foldl_cons, ih, signalled_resetEvent]
    by_cases hM : M = L <;> simp [hM]

theorem listed_reset (vms : List LuaState) (b : DebugBackend) (h : Registration.Listed b) :
    Registration.Listed (vms.foldl (fun b L => b.modifyVm L resetEvent) b) := by
  induction vms generalizing b with
  | nil => exact h
  | cons L vms ih => exact ih _ (listed_modifyVm h _)

theorem signalled_resetEvents (h : Registration.Listed b) : signalled (resetEvents b) M = false := by
  rw [resetEvents, signalled_reset]
  split
  · rfl
  · rename_i hM
    rw [signalled, (Registration.getVm_none_iff h).mpr hM]
    rfl

theorem signalled_attachState (h : Registration.Listed b) (attached checkstack : Bool) :
    signalled (b.attachState L attached checkstack).1 M = signalled b M := by
  by_cases hk : attached = true → L ∈ b.vms
  · rw [Registration.attachState_known h hk]
  · obtain ⟨rfl,hL⟩ := Classical.not_imp.mp hk
    have hnone := (Registration.getVm_none_iff h).mpr hL
    have hmap : (b.attachState L true checkstack).1.stateToVm =
        b.stateToVm ++ [(L,VirtualMachine.attached b.hasBreakPoint)] := by
      cases checkstack <;> simp [DebugBackend.attachState, hnone, DebugBackend.report,
        DebugBackend.setHookMode]
    rw [signalled, DebugBackend.getVm, hmap, List.lookup_append, signalled, DebugBackend.getVm]
    cases b.stateToVm.lookup M with
    | some vm => rfl
    | none =>
      by_cases hM : M = L
      · subst hM
        simp [VirtualMachine.attached]
      · simp [List.lookup_cons, show (M == L) = false by simpa using hM]

theorem lookup_filter (entries : List (LuaState × VirtualMachine)) :
    (entries.filter (fun e => e.1 ≠ L)).lookup M = if M = L then none else entries.lookup M := by
  induction entries with
  | nil => simp
  | cons e entries ih =>
    by_cases he : e.1 = L
    · rw [List.filter_cons_of_neg (by simpa using he), ih, List.lookup_cons, he]
      by_cases hM : M = L
      · simp [hM]
      · simp [hM, show (M == L) = false by simpa using hM]
    · rw [List.filter_cons_of_pos (by simpa using he), List.lookup_cons, List.lookup_cons, ih]
      by_cases hM : M = L
      · simp [hM, show (L == e.1) = false by simpa using Ne.symm he]
      · simp [hM]

theorem signalled_detachState :
    signalled (b.detachState L) M = if M = L then false else signalled b M := by
  rw [signalled, DebugBackend.getVm, DebugBackend.detachState]
  cases hL : (b.getVm L).isSome with
  | true =>
    dsimp only
    rw [if_pos rfl, lookup_filter]
    split <;> rfl
  | false =>
    dsimp only
    rw [if_neg (by simp)]
    split
    · rename_i hM
      have hnone : b.stateToVm.lookup L = none :=
        Option.not_isSome_iff_eq_none.mp (Bool.eq_false_iff.mp hL)
      rw [hM, hnone]
      rfl
    · rfl

theorem signalled_detached (continueRunning : Bool) (h : signalled b M = false) :
    signalled (detached b continueRunning) M = false := by
  cases continueRunning with
  | true => exact h
  | false => rfl

theorem listed_detached (continueRunning : Bool) (h : Registration.Listed b) :
    Registration.Listed (detached b continueRunning) := by
  cases continueRunning with
  | true => exact ⟨h.nodup,h.entries⟩
  | false => exact ⟨List.nodup_nil,rfl⟩

theorem listed_prepared (h : Registration.Listed b) :
    Registration.Listed b.deleteAllBreakpoints.activeLuaHookInAllVms :=
  Registration.listed_congr h rfl (Registration.entries_modifyVms (·.setActive false))

end Signals

end Vecoda.Resuming
