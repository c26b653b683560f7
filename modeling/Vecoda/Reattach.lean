import Vecoda.HostRelease
import Vecoda.JitRepeats
import Vecoda.Resuming

/-!
# The session after a Detach

What a session leaves behind lies in the scripts, in the machines and in three
kinds of events. The clean-up of `CommandThreadProc` deletes the breakpoints and
`WaitForAttach` resets the events; the mode of a machine is left as the last
Continue, step or Break of the old session has set it.
-/

set_option autoImplicit false

namespace Vecoda.Reattach
open MessagePipe (Bytes)
open Backend HookCallback JitRepeats Transitions
open HostRelease (Proc)
open Resuming (Resume resume resetEvent resetEvents signalled)

inductive Instruction where
  | resume (how : Resume) (L : LuaState)
  | break (L : LuaState)
  | toggleBreakpoint (L : LuaState) (scriptIndex : ℕ) (line : UInt32)
  | deleteAllBreakpoints
  | loadDone
  | detach (continueRunning : Bool)
  | other (commandId : ℕ)
  deriving DecidableEq

/-- A machine in `BreakFromScript`, which has what the hook has read, or in one of the
stops for an error; `released` once its wait is over. -/
structure Stop where
  hook : Option (Reading × LuaDebug)
  released : Bool

/-- `given` is the last Continue, step or Break for a machine since it was attached. -/
structure State where
  backend : DebugBackend
  stopped : LuaState → Option Stop
  loadEvent : Bool
  detachEvent : Bool
  proc : Proc
  given : LuaState → Option Instruction

section Steps

variable (s : State)

/-- `WaitForContinue`, which the thread may find over already. -/
def waitForContinue (L : LuaState) (hook : Option (Reading × LuaDebug)) : State :=
  {s with
    backend := s.backend.modifyVm L resetEvent,
    stopped := Function.update s.stopped L (some ⟨hook,signalled s.backend L || s.detachEvent⟩)}

def event (v : Version) (L : LuaState) (r : Reading) (event : ℤ) (ar : LuaDebug) : Option State :=
  if (s.stopped L).isSome then none
  else
    let r := {r with attached := !s.detachEvent}
    (notify v s.backend L r event ar).map (fun (b,reason) =>
      match reason with
      | none => {s with backend := b}
      | some _ => waitForContinue {s with backend := b} L (some (r,ar)))

def fault (L : LuaState) : Option State :=
  if (s.stopped L).isSome || (s.backend.getVm L).isNone then none else some (waitForContinue s L none)

def wake (L : LuaState) : Option State :=
  match s.stopped L with
  | none => none
  | some stop =>
    if stop.released then
      some {s with
        backend := match stop.hook with
          | some (r,ar) => resumed s.backend L r ar
          | none => s.backend,
        stopped := Function.update s.stopped L none}
    else none

def attachState (L : LuaState) (checkstack : Bool) : Option State :=
  some {s with backend := (s.backend.attachState L (!s.detachEvent) checkstack).1}

def detachState (L : LuaState) : Option State :=
  if (s.stopped L).isSome then none
  else some {s with backend := s.backend.detachState L, given := Function.update s.given L none}

def load (L : LuaState) (source name : Option Bytes) : Option State :=
  some {s with backend := (s.backend.registerScript L source name false).1}

/-- The event is consumed by the thread that waits for it, if there is one. -/
def resumeVm (how : Resume) (L : LuaState) : State :=
  let s := {s with backend := resume how s.backend L,
                   given := Function.update s.given L (some (.resume how L))}
  match s.stopped L with
  | some stop =>
    if stop.released then s
    else {s with backend := s.backend.modifyVm L resetEvent,
                 stopped := Function.update s.stopped L (some {stop with released := true})}
  | none => s

def detach (continueRunning : Bool) : State :=
  {s with
    backend := {s.backend with hook := fun L => if L ∈ s.backend.vms then .none else s.backend.hook L},
    stopped := fun L => (s.stopped L).map (fun stop => {stop with released := true}),
    detachEvent := true, proc := if continueRunning then .reading true else .left false}

def command (c : Instruction) : Option State :=
  match s.proc with
  | .reading _ =>
    match c with
    | .resume how L => if (s.backend.getVm L).isNone then none else some (resumeVm s how L)
    | .break L =>
      if (s.backend.getVm L).isNone then none
      else some {s with
        backend := breakVm s.backend L, given := Function.update s.given L (some (.break L))}
    | .toggleBreakpoint L i line =>
      (s.backend.toggleBreakpoint L i line).map (fun b => {s with backend := b})
    | .deleteAllBreakpoints => some {s with backend := s.backend.deleteAllBreakpoints}
    | .loadDone => some {s with loadEvent := true}
    | .detach continueRunning => some (detach s continueRunning)
    | .other _ => some s
  | _ => none

def close : Option State :=
  match s.proc with
  | .reading continueRunning => some {s with proc := .left continueRunning}
  | _ => none

def cleanUp : Option State :=
  match s.proc with
  | .left true => some {s with backend := s.backend.deleteAllBreakpoints, proc := .attaching}
  | .left false => some {s with
      backend := {s.backend with scripts := [], nameToScript := [], vms := [], stateToVm := []},
      proc := .ended, given := fun _ => none}
  | _ => none

def waitForAttach : Option State :=
  match s.proc with
  | .attaching => some {s with
      backend := resetEvents s.backend.activeLuaHookInAllVms,
      detachEvent := false, loadEvent := false, proc := .reading false}
  | _ => none

end Steps

inductive Label where
  | event (v : Version) (L : LuaState) (r : Reading) (event : ℤ) (ar : LuaDebug)
  | fault (L : LuaState)
  | wake (L : LuaState)
  | attachState (L : LuaState) (checkstack : Bool)
  | detachState (L : LuaState)
  | load (L : LuaState) (source name : Option Bytes)
  | command (c : Instruction)
  | close
  | cleanUp
  | waitForAttach

def step (s : State) : Label → Option State
  | .event v L r e ar => event s v L r e ar
  | .fault L => fault s L
  | .wake L => wake s L
  | .attachState L checkstack => attachState s L checkstack
  | .detachState L => detachState s L
  | .load L source name => load s L source name
  | .command c => command s c
  | .close => close s
  | .cleanUp => cleanUp s
  | .waitForAttach => waitForAttach s

def Step (s : State) (l : Label) (s' : State) : Prop := step s l = some s'

def initial : State where
  backend := DebugBackend.initial
  stopped _ := none
  loadEvent := false
  detachEvent := false
  proc := .reading false
  given _ := none

/-- No breakpoint, no event that is set, and every machine runs on. -/
structure Clean (s : State) : Prop where
  breakpoints : ∀ sc ∈ s.backend.scripts, sc.breakpoints = []
  loadEvent : s.loadEvent = false
  machines : ∀ L vm, s.backend.getVm L = some vm →
    vm.breakEvent = false ∧ vm.mode = .continue ∧ vm.callCount = 0

/-- No machine was last told to step or to break. -/
def Continued (s : State) : Prop :=
  ∀ L ∈ s.backend.vms, s.given L = none ∨ s.given L = some (.resume .continue L)

section Hook

variable {b b' b'' : DebugBackend} {L : LuaState}

theorem attachState_found {vm : VirtualMachine} {attached checkstack : Bool} (hvm : b.getVm L = none)
    (h : b.attachState L attached checkstack = (b',some vm)) : b'.getVm L = some vm := by
  unfold DebugBackend.attachState at h
  rw [hvm] at h
  split at h
  · cases h
  · dsimp only at h
    split at h
    · cases h
    · cases h
      have hl : b.stateToVm.lookup L = none := hvm
      simp [DebugBackend.getVm, DebugBackend.report, DebugBackend.setHookMode, List.lookup_append, hl]

/-- A machine the hook does not know is attached first. -/
theorem hookCallback_unknown {v : Version} {r : Reading} {event : ℤ} {ar : LuaDebug}
    {reason : Option BreakReason} (hvm : b.getVm L = none)
    (h : hookCallback v b L r event ar = some (b',reason)) :
    (b' = b ∧ reason = none) ∨ ∃ vm, (b.attachState L r.attached (r.checkstack 3)).1.getVm L = some vm ∧
      hookCallback v (b.attachState L r.attached (r.checkstack 3)).1 L r event ar = some (b',reason) := by
  by_cases hc : r.checkstack 2 = true
  · refine .inr ?_
    cases ha : b.attachState L r.attached (r.checkstack 3) with
    | mk b₁ found =>
      simp only [hookCallback, hc, hvm, ha, Bool.not_true, Bool.false_eq_true, if_false] at h
      cases found with
      | none => cases h
      | some vm =>
        have hget := attachState_found hvm ha
        refine ⟨vm,hget,?_⟩
        simp only [hookCallback, hc, hget, Bool.not_true, Bool.false_eq_true, if_false]
        exact h
  · simp only [hookCallback, hc, Bool.not_false, if_true] at h
    cases h
    exact .inl ⟨rfl,rfl⟩

structure SameMachines (b b' : DebugBackend) : Prop where
  vms : b'.vms = b.vms
  entries : Registration.entries b' = Registration.entries b
  machines : ∀ M vm', b'.getVm M = some vm' → ∃ vm, b.getVm M = some vm ∧ vm'.mode = vm.mode ∧
    (vm.mode = .continue → vm'.callCount = vm.callCount)

structure Kept (b b' : DebugBackend) : Prop extends SameMachines b b' where
  later : Later b b'

theorem sameMachines_refl (b : DebugBackend) : SameMachines b b :=
  ⟨rfl,rfl,fun _ vm h => ⟨vm,h,rfl,fun _ => rfl⟩⟩

theorem sameMachines_trans (h : SameMachines b b') (h' : SameMachines b' b'') : SameMachines b b'' := by
  refine ⟨h'.vms.trans h.vms,h'.entries.trans h.entries,fun M vm'' hvm => ?_⟩
  obtain ⟨vm',hvm',hm',hc'⟩ := h'.machines M vm'' hvm
  obtain ⟨vm,hvm,hm,hc⟩ := h.machines M vm' hvm'
  exact ⟨vm,hvm,hm'.trans hm,fun h => (hc' (hm.trans h)).trans (hc h)⟩

theorem sameMachines_of_eq (hv : b'.vms = b.vms) (hm : b'.stateToVm = b.stateToVm) :
    SameMachines b b' := by
  have hget (M : LuaState) : b'.getVm M = b.getVm M := by rw [DebugBackend.getVm, hm]; rfl
  exact ⟨hv,by rw [Registration.entries, hm]; rfl,
    fun M vm h => ⟨vm,(hget M).symm.trans h,rfl,fun _ => rfl⟩⟩

theorem sameMachines_modifyVm (f : VirtualMachine → VirtualMachine)
    (hf : ∀ vm, b.getVm L = some vm → (f vm).mode = vm.mode ∧
      (vm.mode = .continue → (f vm).callCount = vm.callCount)) : SameMachines b (b.modifyVm L f) := by
  refine ⟨rfl,Registration.entries_modifyVm f,fun M vm' h => ?_⟩
  by_cases hM : M = L
  · subst hM
    rw [DebugBackend.getVm_modifyVm] at h
    obtain ⟨vm,hvm,rfl⟩ := Option.map_eq_some_iff.mp h
    exact ⟨vm,hvm,hf vm hvm⟩
  · rw [DebugBackend.getVm_modifyVm_of_ne _ _ _ _ hM] at h
    exact ⟨vm',h,rfl,fun _ => rfl⟩

theorem sameMachines_modifyVms (f : VirtualMachine → VirtualMachine)
    (hf : ∀ vm, (f vm).mode = vm.mode ∧ (f vm).callCount = vm.callCount) :
    SameMachines b (b.modifyVms f) := by
  refine ⟨rfl,Registration.entries_modifyVms f,fun M vm' h => ?_⟩
  rw [DebugBackend.getVm_modifyVms] at h
  obtain ⟨vm,hvm,rfl⟩ := Option.map_eq_some_iff.mp h
  exact ⟨vm,hvm,(hf vm).1,fun _ => (hf vm).2⟩

theorem kept_refl (b : DebugBackend) : Kept b b := ⟨sameMachines_refl b,later_refl b⟩

theorem later_trans (h : Later b b') (h' : Later b' b'') : Later b b'' := by
  obtain ⟨new,he,hn⟩ := h.scripts
  obtain ⟨new',he',hn'⟩ := h'.scripts
  refine ⟨⟨new ++ new',by rw [he', he, List.append_assoc],fun s hs => ?_⟩⟩
  rcases List.mem_append.mp hs with hs | hs
  · exact hn s hs
  · exact hn' s hs

theorem kept_trans (h : Kept b b') (h' : Kept b' b'') : Kept b b'' :=
  ⟨sameMachines_trans h.toSameMachines h'.toSameMachines,later_trans h.later h'.later⟩

theorem later_same (hs : b'.scripts = b.scripts) : Later b b' :=
  ⟨⟨[],by rw [hs, List.append_nil],by simp⟩⟩

/-- Machines and containers as they were, some scripts more. -/
theorem kept_of_registers (hl : Later b b') (hv : b'.vms = b.vms) (hm : b'.stateToVm = b.stateToVm) :
    Kept b b' := ⟨sameMachines_of_eq hv hm,hl⟩

theorem kept_modifyVm (f : VirtualMachine → VirtualMachine)
    (hf : ∀ vm, b.getVm L = some vm → (f vm).mode = vm.mode ∧
      (vm.mode = .continue → (f vm).callCount = vm.callCount)) : Kept b (b.modifyVm L f) :=
  ⟨sameMachines_modifyVm f hf,later_same rfl⟩

theorem kept_registerScript (source name : Option Bytes) (unavailable : Bool) :
    Kept b (b.registerScript L source name unavailable).1 := by
  have hvms : (b.registerScript L source name unavailable).1.vms = b.vms := by
    unfold DebugBackend.registerScript
    simp only
    split
    · rfl
    · split <;> rfl
  exact kept_of_registers (registerScript_later (later_refl b) source name unavailable) hvms
    (registerScript_rest b L source name unavailable).1

theorem kept_registerHooked (ar : LuaDebug) : Kept b (b.registerHooked L ar) := by
  unfold DebugBackend.registerHooked
  split
  · exact kept_refl b
  · exact kept_registerScript _ _ _

theorem kept_stackHasBreakpoint (stack : List LuaDebug) (b : DebugBackend) :
    Kept b (stackHasBreakpoint b L stack).1 := by
  induction stack generalizing b with
  | nil => exact kept_refl b
  | cons ar rest ih =>
    unfold stackHasBreakpoint
    split
    · exact ih b
    · dsimp only
      split
      · exact kept_registerHooked ar
      · exact kept_trans (kept_registerHooked ar) (ih _)

theorem kept_setHookMode (mode : HookMode) : Kept b (b.setHookMode L mode) :=
  kept_of_registers (later_same rfl) rfl rfl

structure SameMode (vm vm' : VirtualMachine) : Prop where
  mode : vm'.mode = vm.mode
  callCount : vm.mode = .continue → vm'.callCount = vm.callCount

theorem sameMode_refl (vm : VirtualMachine) : SameMode vm vm := ⟨rfl,fun _ => rfl⟩

def scanned (b : DebugBackend) (L : LuaState) (stack : List LuaDebug) (full : Bool)
    (vm : VirtualMachine) : DebugBackend × Bool × VirtualMachine :=
  if !full && vm.breakpointInStack then
    let (b,found) := stackHasBreakpoint b L stack
    (b,found,if found then vm else {vm with breakpointInStack := false})
  else (b,full,vm)

def settled (b : DebugBackend) (L : LuaState) (mode : HookMode) (vm : VirtualMachine) :
    DebugBackend × VirtualMachine :=
  if b.hook L = mode then (b,vm)
  else (b.setHookMode L (if vm.mode = .continue then mode else .full),vm)

theorem updateHookMode_parts (v : Version) (vm : VirtualMachine) (stack : List LuaDebug) (event : ℤ)
    (ar : LuaDebug) (h : event ≠ Event.hookLine) :
    let entered := getIsHookEventCall v event && ar.linedefined ≠ -1
    let b₁ := if entered then b.registerHooked L ar else b
    let full := entered && hasBreakpoint b₁ ar
    let s := scanned b₁ L stack full (if full then {vm with breakpointInStack := true} else vm)
    updateHookMode v b L vm stack event ar =
      settled s.1 L (if !s.2.2.haveActiveBreakpoints then .callsAndReturns
        else if s.2.1 then .full else .callsOnly) s.2.2 := by
  rw [updateHookMode, if_neg h]
  rfl

theorem scanned_kept (stack : List LuaDebug) (full : Bool) (vm : VirtualMachine) :
    Kept b (scanned b L stack full vm).1 ∧ SameMode vm (scanned b L stack full vm).2.2 := by
  unfold scanned
  split
  · refine ⟨kept_stackHasBreakpoint stack b,?_⟩
    dsimp only
    split
    · exact sameMode_refl vm
    · exact ⟨rfl,fun _ => rfl⟩
  · exact ⟨kept_refl b,sameMode_refl vm⟩

theorem settled_kept (mode : HookMode) (vm : VirtualMachine) :
    Kept b (settled b L mode vm).1 ∧ SameMode vm (settled b L mode vm).2 := by
  unfold settled
  split
  · exact ⟨kept_refl b,sameMode_refl vm⟩
  · exact ⟨kept_setHookMode _,sameMode_refl vm⟩

theorem sameMode_trans {vm vm' vm'' : VirtualMachine} (h : SameMode vm vm') (h' : SameMode vm' vm'') :
    SameMode vm vm'' :=
  ⟨h'.mode.trans h.mode,fun hc => (h'.callCount (h.mode.trans hc)).trans (h.callCount hc)⟩

theorem updateHookMode_kept (v : Version) (vm : VirtualMachine) (stack : List LuaDebug) (event : ℤ)
    (ar : LuaDebug) : Kept b (updateHookMode v b L vm stack event ar).1 ∧
      SameMode vm (updateHookMode v b L vm stack event ar).2 := by
  by_cases hline : event = Event.hookLine
  · rw [updateHookMode, if_pos hline]
    exact ⟨kept_refl b,sameMode_refl vm⟩
  · rw [updateHookMode_parts v vm stack event ar hline]
    have hreg : Kept b (if (getIsHookEventCall v event && ar.linedefined ≠ -1) = true
        then b.registerHooked L ar else b) := by
      split
      · exact kept_registerHooked ar
      · exact kept_refl b
    generalize (if (getIsHookEventCall v event && ar.linedefined ≠ -1) = true
      then b.registerHooked L ar else b) = b₁ at hreg
    generalize (getIsHookEventCall v event && decide (ar.linedefined ≠ -1) && hasBreakpoint b₁ ar) = full
    have hflag : SameMode vm (if full = true then {vm with breakpointInStack := true} else vm) := by
      split
      · exact ⟨rfl,fun _ => rfl⟩
      · exact sameMode_refl vm
    obtain ⟨hscan,hsame⟩ := scanned_kept (b := b₁) (L := L) stack full
      (if full = true then {vm with breakpointInStack := true} else vm)
    obtain ⟨hset,hlast⟩ := settled_kept (b := (scanned b₁ L stack full
      (if full = true then {vm with breakpointInStack := true} else vm)).1) (L := L) _ _
    exact ⟨kept_trans hreg (kept_trans hscan hset),sameMode_trans hflag (sameMode_trans hsame hlast)⟩

theorem adjust_kept (v : Version) (vm : VirtualMachine) (stack : List LuaDebug) (event : ℤ)
    (ar : LuaDebug) : Kept b (adjust v b L vm stack event ar).1 ∧
      SameMode vm (adjust v b L vm stack event ar).2 := by
  unfold adjust
  split
  · exact updateHookMode_kept v vm stack event ar
  · exact ⟨kept_setHookMode _,⟨rfl,fun _ => rfl⟩⟩

theorem leave_sameMode (vm : VirtualMachine) (onLast : Bool) (depth : ℕ) :
    SameMode vm (leave vm onLast depth) := by
  unfold leave
  split
  · rename_i h
    simp only [Bool.and_eq_true, decide_eq_true_eq] at h
    refine ⟨rfl,fun hc => ?_⟩
    rw [hc] at h
    exact absurd h.1.1.2 (by decide)
  · exact sameMode_refl vm

theorem count_sameMode (vm : VirtualMachine) (v : Version) (event : ℤ) :
    SameMode vm (count vm v event) := by
  unfold count
  split
  · rename_i h
    have hc : vm.mode ≠ .continue := by
      intro hc
      simp [hc] at h
    split
    · exact ⟨rfl,fun h => absurd h hc⟩
    · split
      · exact ⟨rfl,fun h => absurd h hc⟩
      · exact sameMode_refl vm
  · exact sameMode_refl vm

/-- `HookCallback` on a known machine. -/
theorem hookCallback_kept {v : Version} {r : Reading} {event : ℤ} {ar : LuaDebug} {vm : VirtualMachine}
    {reason : Option BreakReason} (hvm : b.getVm L = some vm)
    (h : hookCallback v b L r event ar = some (b',reason)) : Kept b b' := by
  by_cases hc : r.checkstack 2 = true
  · rw [hookCallback_found v r event ar hvm hc] at h
    obtain ⟨reports,ready,jit,name,hp,-⟩ := prepare_spec b L vm r event
    rw [hp] at h
    have hprepared : Kept b {b with reports := reports} :=
      kept_of_registers (later_same rfl) rfl rfl
    obtain ⟨hadjusted,hmode⟩ := adjust_kept (b := {b with reports := reports}) (L := L) v
      {vm with initialized := ready, luaJitWorkAround := jit, name := name} r.stack event ar
    have hsame : SameMode vm {vm with initialized := ready, luaJitWorkAround := jit, name := name} :=
      ⟨rfl,fun _ => rfl⟩
    dsimp only at h
    generalize adjust v {b with reports := reports} L
      {vm with initialized := ready, luaJitWorkAround := jit, name := name} r.stack event ar = q at *
    have hq := kept_trans hprepared hadjusted
    have hput (b₁ : DebugBackend) (vm₁ : VirtualMachine) (hb : Kept b b₁) (hs : SameMode vm vm₁) :
        Kept b (b₁.putVm L vm₁) := by
      refine kept_trans hb (kept_modifyVm _ (fun vm₀ h₀ => ?_))
      obtain ⟨vm',hvm',hm,hc⟩ := hb.machines L vm₀ h₀
      cases hvm'.symm.trans hvm
      exact ⟨hs.mode.trans hm.symm,
        fun h => (hs.callCount (hm.symm.trans h)).trans (hc (hm.symm.trans h)).symm⟩
    split at h
    · cases h
      exact hput _ _ (kept_trans hq (kept_registerHooked ar))
        (sameMode_trans (sameMode_trans hsame hmode) (leave_sameMode _ _ _))
    · cases h
      exact hput _ _ hq (sameMode_trans (sameMode_trans hsame hmode) (count_sameMode _ _ _))
  · simp only [hookCallback, hc, Bool.not_false, if_true] at h
    cases h
    exact kept_refl b

end Hook

section Sessions

variable {b b' : DebugBackend} {given : LuaState → Option Instruction} {L : LuaState}

def resumeMode : Resume → Mode
  | .continue => .continue
  | .stepOver => .stepOver
  | .stepInto => .stepInto
  | .stepOut => .stepOut

def toldMode : Option Instruction → Mode
  | some (.resume how _) => resumeMode how
  | some (.break _) => .stepInto
  | _ => .continue

structure Told (b : DebugBackend) (given : LuaState → Option Instruction) : Prop where
  listed : Registration.Listed b
  machines : ∀ M vm, b.getVm M = some vm → vm.mode = toldMode (given M) ∧
    (vm.mode = .continue → vm.callCount = 0)
  unknown : ∀ M, b.getVm M = none → given M = none
  about : ∀ M i, given M = some i → i = .break M ∨ ∃ how, i = .resume how M

def Cleared (b : DebugBackend) : Prop := ∀ sc ∈ b.scripts, sc.breakpoints = []

theorem getVm_none_same (h : SameMachines b b') (M : LuaState) (hn : b'.getVm M = none) :
    b.getVm M = none := by
  by_contra hs
  have hsome := Registration.getVm_isSome_iff.mp (Option.isSome_iff_ne_none.mpr hs)
  rw [← h.entries] at hsome
  have := Registration.getVm_isSome_iff.mpr hsome
  rw [hn] at this
  cases this

theorem cleared_later (h : Later b b') (hc : Cleared b) : Cleared b' := by
  obtain ⟨new,he,hn⟩ := h.scripts
  intro sc hsc
  rw [he] at hsc
  rcases List.mem_append.mp hsc with hsc | hsc
  · exact hc sc hsc
  · exact hn sc hsc

theorem told_same (h : Told b given) (hs : SameMachines b b') : Told b' given := by
  refine ⟨Registration.listed_congr h.listed hs.vms hs.entries,fun M vm' hvm' => ?_,
    fun M hn => h.unknown M (getVm_none_same hs M hn),h.about⟩
  obtain ⟨vm,hvm,hm,hcount⟩ := hs.machines M vm' hvm'
  obtain ⟨hmode,hzero⟩ := h.machines M vm hvm
  exact ⟨hm.trans hmode,fun hcont =>
    (hcount (hm.symm.trans hcont)).trans (hzero (hm.symm.trans hcont))⟩

theorem told_attachState (h : Told b given) (attached checkstack : Bool) :
    Told (b.attachState L attached checkstack).1 given := by
  have hlisted : Registration.Listed (b.attachState L attached checkstack).1 :=
    Registration.listed_step (c := .attach L attached checkstack) h.listed rfl
  by_cases hk : attached = true → L ∈ b.vms
  · rw [Registration.attachState_known h.listed hk]
    exact h
  · obtain ⟨rfl,hL⟩ := Classical.not_imp.mp hk
    have hnone := (Registration.getVm_none_iff h.listed).mpr hL
    have hmap : (b.attachState L true checkstack).1.stateToVm =
        b.stateToVm ++ [(L,VirtualMachine.attached b.hasBreakPoint)] := by
      cases checkstack <;> simp [DebugBackend.attachState, hnone, DebugBackend.report,
        DebugBackend.setHookMode]
    have hget (M : LuaState) : (b.attachState L true checkstack).1.getVm M =
        if M = L then some (VirtualMachine.attached b.hasBreakPoint) else b.getVm M := by
      rw [DebugBackend.getVm, hmap, List.lookup_append]
      by_cases hM : M = L
      · subst hM
        have hl : b.stateToVm.lookup M = none := hnone
        simp [hl]
      · have hne : (M == L) = false := by simpa using hM
        simp [List.lookup_cons, hne, hM, DebugBackend.getVm]
    refine ⟨hlisted,fun M vm hvm => ?_,fun M hn => ?_,h.about⟩
    · rw [hget] at hvm
      split at hvm
      · rename_i hM
        cases hvm
        rw [hM, h.unknown L hnone]
        exact ⟨rfl,fun _ => rfl⟩
      · exact h.machines M vm hvm
    · rw [hget] at hn
      split at hn
      · cases hn
      · exact h.unknown M hn

theorem told_detachState (h : Told b given) :
    Told (b.detachState L) (Function.update given L none) := by
  have hlisted : Registration.Listed (b.detachState L) :=
    Registration.listed_step (c := .detach L) h.listed rfl
  have hget (M : LuaState) : (b.detachState L).getVm M = if M = L then none else b.getVm M := by
    by_cases hL : (b.getVm L).isSome = true
    · simp only [DebugBackend.detachState, hL, if_true]
      exact Resuming.lookup_filter b.stateToVm
    · have hnone : b.getVm L = none := Option.not_isSome_iff_eq_none.mp hL
      simp only [DebugBackend.detachState, hnone, Option.isSome_none, Bool.false_eq_true, if_false]
      split
      · rename_i hM
        rw [hM]
        exact hnone
      · rfl
  refine ⟨hlisted,fun M vm hvm => ?_,fun M hn => ?_,fun M i hi => ?_⟩
  · rw [hget] at hvm
    split at hvm
    · cases hvm
    · rename_i hM
      rw [Function.update_of_ne hM]
      exact h.machines M vm hvm
  · by_cases hM : M = L
    · rw [hM, Function.update_self]
    · rw [hget, if_neg hM] at hn
      rw [Function.update_of_ne hM]
      exact h.unknown M hn
  · by_cases hM : M = L
    · rw [hM, Function.update_self] at hi
      cases hi
    · rw [Function.update_of_ne hM] at hi
      exact h.about M i hi

/-- A command sets the mode of its machine. -/
theorem told_command {i : Instruction} (h : Told b given) (f : VirtualMachine → VirtualMachine)
    (hook : LuaState → HookMode) (hi : i = .break L ∨ ∃ how, i = .resume how L)
    (hsome : (b.getVm L).isSome = true)
    (hf : ∀ vm, (f vm).mode = toldMode (some i) ∧ ((f vm).mode = .continue → (f vm).callCount = 0)) :
    Told {b.modifyVm L f with hook := hook} (Function.update given L (some i)) := by
  have hget (M : LuaState) : DebugBackend.getVm {b.modifyVm L f with hook := hook} M =
      if M = L then (b.getVm L).map f else b.getVm M := by
    change (b.modifyVm L f).getVm M = _
    split
    · rename_i hM
      rw [hM, DebugBackend.getVm_modifyVm]
    · rename_i hM
      exact DebugBackend.getVm_modifyVm_of_ne _ _ _ _ hM
  refine ⟨Registration.listed_congr h.listed rfl (Registration.entries_modifyVm f),fun M vm hvm => ?_,
    fun M hn => ?_,fun M j hj => ?_⟩
  · rw [hget] at hvm
    by_cases hM : M = L
    · rw [if_pos hM] at hvm
      obtain ⟨vm₀,-,rfl⟩ := Option.map_eq_some_iff.mp hvm
      rw [hM, Function.update_self]
      exact hf vm₀
    · rw [if_neg hM] at hvm
      rw [Function.update_of_ne hM]
      exact h.machines M vm hvm
  · rw [hget] at hn
    by_cases hM : M = L
    · rw [if_pos hM, Option.map_eq_none_iff] at hn
      rw [hn] at hsome
      cases hsome
    · rw [if_neg hM] at hn
      rw [Function.update_of_ne hM]
      exact h.unknown M hn
  · by_cases hM : M = L
    · rw [hM, Function.update_self] at hj
      cases hj
      rw [hM]
      exact hi
    · rw [Function.update_of_ne hM] at hj
      exact h.about M j hj

theorem sameMachines_active (active : Bool) : SameMachines b (b.setHaveActiveBreakpoints active) := by
  have h := sameMachines_modifyVms (b := b) (·.setActive active) (fun _ => ⟨rfl,rfl⟩)
  cases active with
  | false => exact h
  | true => exact sameMachines_trans h (sameMachines_of_eq rfl rfl)

theorem sameMachines_toggle (M : LuaState) (i : ℕ) (line : UInt32)
    (h : b.toggleBreakpoint M i line = some b') : SameMachines b b' := by
  cases hscript : b.scripts[i]? with
  | none => simp [DebugBackend.toggleBreakpoint, hscript] at h
  | some script =>
    have hscripts : SameMachines b {b with scripts := b.scripts.set i (script.toggleBreakpoint line).1} :=
      sameMachines_of_eq rfl rfl
    have hreport (b₀ : DebugBackend) (r : Report) : SameMachines b₀ (b₀.report r) :=
      sameMachines_of_eq rfl rfl
    cases hset : (script.toggleBreakpoint line).2 with
    | true =>
      cases (DebugBackend.toggleBreakpoint_set hscript hset).symm.trans h
      exact sameMachines_trans (sameMachines_trans hscripts (sameMachines_active true)) (hreport _ _)
    | false =>
      cases (DebugBackend.toggleBreakpoint_unset hscript hset).symm.trans h
      refine sameMachines_trans (sameMachines_trans hscripts ?_) (hreport _ _)
      split
      · exact sameMachines_refl _
      · exact sameMachines_modifyVms _ (fun _ => ⟨rfl,rfl⟩)

theorem sameMachines_deleteAll : SameMachines b b.deleteAllBreakpoints := by
  have hscripts :
      SameMachines b {b with scripts := b.scripts.map (fun s => {s with breakpoints := []})} :=
    sameMachines_of_eq rfl rfl
  exact sameMachines_trans hscripts (sameMachines_active false)

theorem sameMachines_resetEvents : SameMachines b (resetEvents b) := by
  have h (vms : List LuaState) (b₀ : DebugBackend) :
      SameMachines b₀ (vms.foldl (fun b L => b.modifyVm L resetEvent) b₀) := by
    induction vms generalizing b₀ with
    | nil => exact sameMachines_refl b₀
    | cons M vms ih =>
      exact sameMachines_trans (sameMachines_modifyVm resetEvent (fun _ _ => ⟨rfl,fun _ => rfl⟩)) (ih _)
  exact h b.vms b

end Sessions

section Runs

variable {s s' : State} {L : LuaState}

theorem kept_reset (b : DebugBackend) : Kept b (b.modifyVm L resetEvent) :=
  kept_modifyVm resetEvent (fun _ _ => ⟨rfl,fun _ => rfl⟩)

structure Observed (s s' : State) : Prop where
  backend : ∃ b,
    (b = s.backend ∨ ∃ L attached checkstack, b = (s.backend.attachState L attached checkstack).1) ∧
    Kept b s'.backend
  given : s'.given = s.given
  proc : s'.proc = s.proc

theorem observed_kept (h : Kept s.backend s'.backend) (hg : s'.given = s.given) (hp : s'.proc = s.proc) :
    Observed s s' := ⟨⟨s.backend,.inl rfl,h⟩,hg,hp⟩

theorem observed_event {v : Version} {r : Reading} {e : ℤ} {ar : LuaDebug}
    (hs : event s v L r e ar = some s') : Observed s s' := by
  unfold event at hs
  split at hs
  · cases hs
  · dsimp only at hs
    generalize ({r with attached := !s.detachEvent} : Reading) = r at hs
    obtain ⟨⟨b,reason⟩,hb,rfl⟩ := Option.map_eq_some_iff.mp hs
    have hnotify : ∃ b₀, (b₀ = s.backend ∨
        ∃ L attached checkstack, b₀ = (s.backend.attachState L attached checkstack).1) ∧ Kept b₀ b := by
      unfold notify at hb
      split at hb
      · cases hvm : s.backend.getVm L with
        | some vm => exact ⟨_,.inl rfl,hookCallback_kept hvm hb⟩
        | none =>
          rcases hookCallback_unknown hvm hb with ⟨rfl,-⟩ | ⟨vm,hget,hb'⟩
          · exact ⟨_,.inl rfl,kept_refl s.backend⟩
          · exact ⟨_,.inr ⟨L,_,_,rfl⟩,hookCallback_kept hget hb'⟩
      · cases hb
        exact ⟨_,.inl rfl,kept_refl s.backend⟩
    obtain ⟨b₀,hb₀,hkept⟩ := hnotify
    cases reason with
    | none => exact ⟨⟨b₀,hb₀,hkept⟩,rfl,rfl⟩
    | some reason => exact ⟨⟨b₀,hb₀,kept_trans hkept (kept_reset b)⟩,rfl,rfl⟩

theorem observed_fault (hs : fault s L = some s') : Observed s s' := by
  unfold fault at hs
  split at hs
  · cases hs
  · cases hs
    exact observed_kept (kept_reset s.backend) rfl rfl

theorem observed_wake (hs : wake s L = some s') : Observed s s' := by
  unfold wake at hs
  split at hs
  · cases hs
  · split at hs
    · cases hs
      refine observed_kept ?_ rfl rfl
      dsimp only
      split
      · refine kept_modifyVm _ (fun vm _ => ?_)
        split
        · exact ⟨rfl,fun _ => rfl⟩
        · exact ⟨rfl,fun _ => rfl⟩
      · exact kept_refl s.backend
    · cases hs

theorem told_observed (h : Told s.backend s.given) (ho : Observed s s') : Told s'.backend s'.given := by
  obtain ⟨b,hb,hkept⟩ := ho.backend
  rw [ho.given]
  refine told_same ?_ hkept.toSameMachines
  rcases hb with rfl | ⟨L,attached,checkstack,rfl⟩
  · exact h
  · exact told_attachState h attached checkstack

theorem scripts_attachState (b : DebugBackend) (attached checkstack : Bool) :
    (b.attachState L attached checkstack).1.scripts = b.scripts := by
  unfold DebugBackend.attachState
  split
  · rfl
  · split
    · rfl
    · cases checkstack <;> rfl

theorem cleared_observed (h : Cleared s.backend) (ho : Observed s s') : Cleared s'.backend := by
  obtain ⟨b,hb,hkept⟩ := ho.backend
  apply cleared_later hkept.later
  rcases hb with rfl | ⟨L,attached,checkstack,rfl⟩
  · exact h
  · rw [Cleared, scripts_attachState]
    exact h

theorem told_resume (how : Resume) (hT : Told s.backend s.given)
    (hsome : (s.backend.getVm L).isSome = true) :
    Told (resumeVm s how L).backend (resumeVm s how L).given := by
  have hTold : Told (resume how s.backend L) (Function.update s.given L (some (.resume how L))) := by
    have hi : Instruction.resume how L = .break L ∨ ∃ how', Instruction.resume how L = .resume how' L :=
      .inr ⟨how,rfl⟩
    cases how with
    | «continue» =>
      exact told_command hT (fun vm => {vm with callCount := 0, mode := .continue, breakEvent := true})
        s.backend.hook hi hsome (fun _ => ⟨rfl,fun _ => rfl⟩)
    | stepOver => exact told_command hT _ _ hi hsome (fun vm => ⟨rfl,fun hc => by cases hc⟩)
    | stepInto => exact told_command hT _ _ hi hsome (fun vm => ⟨rfl,fun hc => by cases hc⟩)
    | stepOut => exact told_command hT _ _ hi hsome (fun vm => ⟨rfl,fun hc => by cases hc⟩)
  unfold resumeVm
  dsimp only
  split
  · split
    · exact hTold
    · exact told_same hTold (kept_reset _).toSameMachines
  · exact hTold

theorem command_reading {c : Instruction} (hs : command s c = some s') :
    ∃ continueRunning, s.proc = .reading continueRunning := by
  unfold command at hs
  split at hs
  · exact ⟨_,‹_›⟩
  · cases hs

def Served (s s' : State) : Instruction → Prop
  | .resume how L => (s.backend.getVm L).isSome = true ∧ s' = resumeVm s how L
  | .break L => (s.backend.getVm L).isSome = true ∧
    s' = {s with backend := breakVm s.backend L, given := Function.update s.given L (some (.break L))}
  | .toggleBreakpoint L i line =>
    ∃ b, s.backend.toggleBreakpoint L i line = some b ∧ s' = {s with backend := b}
  | .deleteAllBreakpoints => s' = {s with backend := s.backend.deleteAllBreakpoints}
  | .loadDone => s' = {s with loadEvent := true}
  | .detach continueRunning => s' = detach s continueRunning
  | .other _ => s' = s

theorem command_some {c : Instruction} (hs : command s c = some s') : Served s s' c := by
  unfold command at hs
  split at hs
  · cases c with
    | resume how L =>
      dsimp only at hs ⊢
      split at hs
      · cases hs
      · rename_i hvm
        exact ⟨by simpa [Option.isSome_iff_ne_none] using hvm,(Option.some.inj hs).symm⟩
    | «break» L =>
      dsimp only at hs ⊢
      split at hs
      · cases hs
      · rename_i hvm
        exact ⟨by simpa [Option.isSome_iff_ne_none] using hvm,(Option.some.inj hs).symm⟩
    | toggleBreakpoint L i line =>
      obtain ⟨b,hb,rfl⟩ := Option.map_eq_some_iff.mp hs
      exact ⟨b,hb,rfl⟩
    | deleteAllBreakpoints => exact (Option.some.inj hs).symm
    | loadDone => exact (Option.some.inj hs).symm
    | detach continueRunning => exact (Option.some.inj hs).symm
    | other commandId => exact (Option.some.inj hs).symm
  · cases hs

theorem resumeVm_given (how : Resume) :
    (resumeVm s how L).given = Function.update s.given L (some (.resume how L)) := by
  unfold resumeVm
  dsimp only
  split
  · split <;> rfl
  · rfl

theorem resumeVm_proc (how : Resume) : (resumeVm s how L).proc = s.proc := by
  unfold resumeVm
  dsimp only
  split
  · split <;> rfl
  · rfl

theorem told_instruction {c : Instruction} (h : Told s.backend s.given) (hs : command s c = some s') :
    Told s'.backend s'.given := by
  have hserved := command_some hs
  cases c with
  | resume how L =>
    obtain ⟨hvm,rfl⟩ := hserved
    exact told_resume how h hvm
  | «break» L =>
    obtain ⟨hvm,rfl⟩ := hserved
    exact told_command h _ _ (.inl rfl) hvm (fun vm => ⟨rfl,fun hc => by cases hc⟩)
  | toggleBreakpoint L i line =>
    obtain ⟨b,hb,rfl⟩ := hserved
    exact told_same h (sameMachines_toggle L i line hb)
  | deleteAllBreakpoints =>
    obtain rfl := hserved
    exact told_same h sameMachines_deleteAll
  | loadDone =>
    obtain rfl := hserved
    exact h
  | detach continueRunning =>
    obtain rfl := hserved
    exact told_same h (sameMachines_of_eq rfl rfl)
  | other commandId =>
    obtain rfl := hserved
    exact h

theorem detachState_some (hs : detachState s L = some s') :
    s' = {s with backend := s.backend.detachState L, given := Function.update s.given L none} := by
  unfold detachState at hs
  split at hs
  · cases hs
  · exact (Option.some.inj hs).symm

theorem close_some (hs : close s = some s') :
    ∃ continueRunning, s' = {s with proc := .left continueRunning} := by
  unfold close at hs
  split at hs
  · exact ⟨_,(Option.some.inj hs).symm⟩
  · cases hs

theorem cleared_deleteAll (b : DebugBackend) : Cleared b.deleteAllBreakpoints := by
  intro sc hsc
  obtain ⟨sc₀,-,rfl⟩ := List.mem_map.mp hsc
  rfl

def empty (b : DebugBackend) : DebugBackend :=
  {b with scripts := [], nameToScript := [], vms := [], stateToVm := []}

theorem told_empty (b : DebugBackend) : Told (empty b) (fun _ => none) :=
  ⟨⟨List.nodup_nil,rfl⟩,fun M vm hvm => (by cases hvm),fun _ _ => rfl,fun M i hi => (by cases hi)⟩

theorem cleanUp_cases (hs : cleanUp s = some s') :
    (s.proc = .left true ∧ s' = {s with backend := s.backend.deleteAllBreakpoints, proc := .attaching}) ∨
    (s.proc = .left false ∧
      s' = {s with backend := empty s.backend, proc := .ended, given := fun _ => none}) := by
  unfold cleanUp at hs
  split at hs
  · cases hs
    exact .inl ⟨‹_›,rfl⟩
  · cases hs
    exact .inr ⟨‹_›,rfl⟩
  · cases hs

theorem waitForAttach_some (hs : waitForAttach s = some s') : s.proc = .attaching ∧
    s' = {s with backend := resetEvents s.backend.activeLuaHookInAllVms,
                 detachEvent := false, loadEvent := false, proc := .reading false} := by
  unfold waitForAttach at hs
  split at hs
  · cases hs
    exact ⟨‹_›,rfl⟩
  · cases hs

theorem sameMachines_waitForAttach (b : DebugBackend) :
    SameMachines b (resetEvents b.activeLuaHookInAllVms) :=
  sameMachines_trans (sameMachines_of_eq rfl rfl : SameMachines b b.activeLuaHookInAllVms)
    sameMachines_resetEvents

theorem told_step {l : Label} (h : Told s.backend s.given) (hs : Step s l s') :
    Told s'.backend s'.given := by
  cases l with
  | event v L r e ar => exact told_observed h (observed_event hs)
  | fault L => exact told_observed h (observed_fault hs)
  | wake L => exact told_observed h (observed_wake hs)
  | attachState L checkstack =>
    cases hs
    exact told_attachState h _ checkstack
  | detachState L =>
    obtain rfl := detachState_some hs
    exact told_detachState h
  | load L source name =>
    cases hs
    exact told_same h (kept_registerScript source name false).toSameMachines
  | command c => exact told_instruction h hs
  | close =>
    obtain ⟨continueRunning,rfl⟩ := close_some hs
    exact h
  | cleanUp =>
    rcases cleanUp_cases hs with ⟨-,rfl⟩ | ⟨-,rfl⟩
    · exact told_same h sameMachines_deleteAll
    · exact told_empty s.backend
  | waitForAttach =>
    obtain ⟨-,rfl⟩ := waitForAttach_some hs
    exact told_same h (sameMachines_waitForAttach s.backend)

/-- The labels that a new session does not answer for. -/
def Unasked : Label → Prop
  | .command (.resume how _) => how = .continue
  | .command (.break _) => False
  | .command (.toggleBreakpoint _ _ _) => False
  | _ => True

def Toggles : Label → Prop
  | .command (.toggleBreakpoint _ _ _) => True
  | _ => False

theorem scripts_resetEvents (b : DebugBackend) : (resetEvents b).scripts = b.scripts := by
  have h (vms : List LuaState) (b₀ : DebugBackend) :
      (vms.foldl (fun b L => b.modifyVm L resetEvent) b₀).scripts = b₀.scripts := by
    induction vms generalizing b₀ with
    | nil => rfl
    | cons M vms ih => exact ih _
  exact h b.vms b

theorem scripts_resume (how : Resume) : (resumeVm s how L).backend.scripts = s.backend.scripts := by
  have hresume : (resume how s.backend L).scripts = s.backend.scripts := by cases how <;> rfl
  unfold resumeVm
  dsimp only
  split
  · split
    · exact hresume
    · exact hresume
  · exact hresume

theorem cleared_instruction {c : Instruction} (h : Cleared s.backend) (hc : ¬ Toggles (.command c))
    (hs : command s c = some s') : Cleared s'.backend := by
  have hserved := command_some hs
  cases c with
  | resume how L =>
    obtain ⟨-,rfl⟩ := hserved
    rw [Cleared, scripts_resume]
    exact h
  | «break» L =>
    obtain ⟨-,rfl⟩ := hserved
    exact h
  | toggleBreakpoint L i line => exact absurd trivial hc
  | deleteAllBreakpoints =>
    obtain rfl := hserved
    exact cleared_deleteAll s.backend
  | loadDone | detach _ | other _ =>
    obtain rfl := hserved
    exact h

/-- Only a toggle sets a breakpoint. -/
theorem cleared_step {l : Label} (h : Cleared s.backend) (hl : ¬ Toggles l) (hs : Step s l s') :
    Cleared s'.backend := by
  cases l with
  | event v L r e ar => exact cleared_observed h (observed_event hs)
  | fault L => exact cleared_observed h (observed_fault hs)
  | wake L => exact cleared_observed h (observed_wake hs)
  | attachState L checkstack =>
    cases hs
    rw [Cleared, scripts_attachState]
    exact h
  | detachState L =>
    obtain rfl := detachState_some hs
    have hscripts : (s.backend.detachState L).scripts = s.backend.scripts := by
      unfold DebugBackend.detachState
      split <;> rfl
    rw [Cleared, hscripts]
    exact h
  | load L source name =>
    cases hs
    exact cleared_later (kept_registerScript source name false).later h
  | command c => exact cleared_instruction h hl hs
  | close =>
    obtain ⟨continueRunning,rfl⟩ := close_some hs
    exact h
  | cleanUp =>
    rcases cleanUp_cases hs with ⟨-,rfl⟩ | ⟨-,rfl⟩
    · exact cleared_deleteAll s.backend
    · exact fun sc hsc => (by cases hsc)
  | waitForAttach =>
    obtain ⟨-,rfl⟩ := waitForAttach_some hs
    rw [Cleared, scripts_resetEvents]
    exact h

structure Invariant (s : State) : Prop where
  told : Told s.backend s.given
  cleared : s.proc = .attaching → Cleared s.backend

theorem proc_command {c : Instruction} (hs : command s c = some s') : s'.proc ≠ .attaching := by
  obtain ⟨continueRunning,hproc⟩ := command_reading hs
  have hreading : s.proc ≠ .attaching := hproc ▸ Proc.noConfusion
  have hserved := command_some hs
  cases c with
  | resume how L =>
    obtain ⟨-,rfl⟩ := hserved
    rw [resumeVm_proc]
    exact hreading
  | «break» L =>
    obtain ⟨-,rfl⟩ := hserved
    exact hreading
  | toggleBreakpoint L i line =>
    obtain ⟨b,-,rfl⟩ := hserved
    exact hreading
  | detach continueRunning =>
    obtain rfl := hserved
    cases continueRunning <;> exact Proc.noConfusion
  | deleteAllBreakpoints | loadDone | other _ =>
    obtain rfl := hserved
    exact hreading

/-- The command thread comes to `WaitForAttach` by its clean-up only. -/
theorem attaching_step {l : Label} (hs : Step s l s') (hp : s'.proc = .attaching) :
    (s.proc = .attaching ∧ ¬ Toggles l) ∨ Cleared s'.backend := by
  cases l with
  | event v L r e ar => exact .inl ⟨(observed_event hs).proc ▸ hp,id⟩
  | fault L => exact .inl ⟨(observed_fault hs).proc ▸ hp,id⟩
  | wake L => exact .inl ⟨(observed_wake hs).proc ▸ hp,id⟩
  | attachState L checkstack =>
    cases hs
    exact .inl ⟨hp,id⟩
  | detachState L =>
    obtain rfl := detachState_some hs
    exact .inl ⟨hp,id⟩
  | load L source name =>
    cases hs
    exact .inl ⟨hp,id⟩
  | command c => exact absurd hp (proc_command hs)
  | close =>
    obtain ⟨continueRunning,rfl⟩ := close_some hs
    cases hp
  | cleanUp =>
    rcases cleanUp_cases hs with ⟨-,rfl⟩ | ⟨-,rfl⟩
    · exact .inr (cleared_deleteAll s.backend)
    · cases hp
  | waitForAttach =>
    obtain ⟨-,rfl⟩ := waitForAttach_some hs
    cases hp

theorem invariant_step (s : State) (l : Label) (s' : State) (h : Invariant s) (hs : Step s l s') :
    Invariant s' := by
  refine ⟨told_step h.told hs,fun hp => ?_⟩
  rcases attaching_step hs hp with ⟨hproc,hl⟩ | hcleared
  · exact cleared_step (h.cleared hproc) hl hs
  · exact hcleared

theorem invariant_initial : Invariant initial :=
  ⟨told_empty DebugBackend.initial,fun hp => (by cases hp)⟩

theorem toldMode_continue {given : LuaState → Option Instruction} (h : Told s.backend given) :
    toldMode (given L) = .continue ↔ given L = none ∨ given L = some (.resume .continue L) := by
  cases hg : given L with
  | none => exact ⟨fun _ => .inl rfl,fun _ => rfl⟩
  | some i =>
    rcases h.about L i hg with rfl | ⟨how,rfl⟩
    · simp [toldMode]
    · cases how <;> simp [toldMode, resumeMode]

theorem continued_of_clean {labels : List Label} (h : Runs Step initial labels s)
    (hw : waitForAttach s = some s') (hc : Clean s') : Continued s := by
  have hI : Invariant s := runs_invariant invariant_step h invariant_initial
  have hsame := sameMachines_waitForAttach s.backend
  obtain ⟨-,rfl⟩ := waitForAttach_some hw
  intro L hL
  obtain ⟨vm,hvm⟩ := Option.isSome_iff_exists.mp
    (Registration.getVm_isSome_iff.mpr (hsame.entries.trans hI.told.listed.entries ▸ hL))
  obtain ⟨-,hmode,-⟩ := hc.machines L vm hvm
  obtain ⟨vm₀,hvm₀,hm,-⟩ := hsame.machines L vm hvm
  exact (toldMode_continue hI.told).mp (((hI.told.machines L vm₀ hvm₀).1).symm.trans (hm.symm.trans hmode))

theorem clean_of_continued {labels : List Label} (h : Runs Step initial labels s)
    (hw : waitForAttach s = some s') (hcont : Continued s) : Clean s' := by
  have hI : Invariant s := runs_invariant invariant_step h invariant_initial
  have hlisted := hI.told.listed
  have hsame := sameMachines_waitForAttach s.backend
  obtain ⟨hproc,rfl⟩ := waitForAttach_some hw
  refine ⟨?_,rfl,fun L vm hvm => ?_⟩
  · rw [scripts_resetEvents]
    exact hI.cleared hproc
  · obtain ⟨vm₀,hvm₀,hm,hcount⟩ := hsame.machines L vm hvm
    have hL : L ∈ s.backend.vms :=
      hlisted.entries ▸ Registration.getVm_isSome_iff.mp (Option.isSome_of_mem hvm₀)
    obtain ⟨hmode,hzero⟩ := hI.told.machines L vm₀ hvm₀
    have hrun : vm₀.mode = .continue := hmode.trans ((toldMode_continue hI.told).mpr (hcont L hL))
    refine ⟨?_,hm.trans hrun,(hcount hrun).trans (hzero hrun)⟩
    have hactive : Registration.Listed s.backend.activeLuaHookInAllVms :=
      Registration.listed_congr hlisted rfl rfl
    have hsignal := Resuming.signalled_resetEvents (M := L) hactive
    simpa [signalled, hvm] using hsignal

/-- Without a breakpoint a machine that runs on does not stop. -/
theorem hookCallback_quiet {b b' : DebugBackend} {v : Version} {r : Reading} {e : ℤ} {ar : LuaDebug}
    {vm : VirtualMachine} {reason : Option BreakReason} (hb : Cleared b) (hvm : b.getVm L = some vm)
    (hm : vm.mode = .continue) (h : hookCallback v b L r e ar = some (b',reason)) : reason = none := by
  by_cases hc : r.checkstack 2 = true
  · rw [hookCallback_found v r e ar hvm hc] at h
    obtain ⟨reports,ready,jit,name,hp,-⟩ := prepare_spec b L vm r e
    rw [hp] at h
    obtain ⟨hadjusted,hmode⟩ := adjust_kept (b := {b with reports := reports}) (L := L) v
      {vm with initialized := ready, luaJitWorkAround := jit, name := name} r.stack e ar
    dsimp only at h
    generalize adjust v {b with reports := reports} L
      {vm with initialized := ready, luaJitWorkAround := jit, name := name} r.stack e ar = q at *
    have hq : Cleared (q.1.registerHooked L ar) :=
      cleared_later (kept_trans hadjusted (kept_registerHooked ar)).later hb
    split at h
    · cases h
      have hrun (last : Bool) (depth : ℕ) : stepStops (leave q.2 last depth) = false := by
        have hleave : (leave q.2 last depth).mode = .continue :=
          (leave_sameMode q.2 last depth).mode.trans (hmode.mode.trans hm)
        simp [stepStops, hleave]
      simp only [lineEvent, stopReason, hrun, Bool.false_eq_true, if_false]
      split
      · rfl
      · split
        · rename_i sc hsc
          obtain ⟨i,-,hi⟩ := Option.bind_eq_some_iff.mp hsc
          simp [Script.getHasBreakPoint, hq sc (List.mem_of_getElem? hi)]
        · rfl
    · cases h
      rfl
  · simp only [hookCallback, hc, Bool.not_false, if_true] at h
    cases h
    rfl

theorem notify_quiet {b : DebugBackend} {v : Version} {r : Reading} {e : ℤ} {ar : LuaDebug}
    {reason : Option BreakReason} (hT : Told s.backend s.given) (hb : Cleared s.backend)
    (hm : ∀ M, toldMode (s.given M) = .continue)
    (h : notify v s.backend L r e ar = some (b,reason)) : reason = none := by
  unfold notify at h
  split at h
  · cases hvm : s.backend.getVm L with
    | some vm => exact hookCallback_quiet hb hvm ((hT.machines L vm hvm).1.trans (hm L)) h
    | none =>
      rcases hookCallback_unknown hvm h with ⟨-,hreason⟩ | ⟨vm,hget,hknown⟩
      · exact hreason
      · have hattached := told_attachState (L := L) hT r.attached (r.checkstack 3)
        refine hookCallback_quiet ?_ hget ((hattached.machines L vm hget).1.trans (hm L)) hknown
        rw [Cleared, scripts_attachState]
        exact hb
  · cases h
    rfl

theorem untoggled {l : Label} (h : Unasked l) : ¬ Toggles l := by
  cases l with
  | command c => cases c with
    | toggleBreakpoint L i line => exact h.elim
    | _ => exact id
  | _ => exact id

theorem continued_instruction {c : Instruction}
    (hupdate : ∀ L i, toldMode i = .continue → ∀ M, toldMode (Function.update s.given L i M) = .continue)
    (h : ∀ M, toldMode (s.given M) = .continue) (hc : Unasked (.command c)) (hs : command s c = some s') :
    ∀ M, toldMode (s'.given M) = .continue := by
  have hserved := command_some hs
  cases c with
  | resume how L =>
    obtain ⟨-,rfl⟩ := hserved
    have hhow : how = .continue := hc
    subst hhow
    exact resumeVm_given .continue ▸ hupdate L _ rfl
  | «break» L => exact absurd hc id
  | toggleBreakpoint L i line => exact absurd hc id
  | deleteAllBreakpoints | loadDone | detach _ | other _ =>
    obtain rfl := hserved
    exact h

theorem continued_step {l : Label} (h : ∀ M, toldMode (s.given M) = .continue) (hl : Unasked l)
    (hs : Step s l s') : ∀ M, toldMode (s'.given M) = .continue := by
  have hupdate (L : LuaState) (i : Option Instruction) (hi : toldMode i = .continue) (M : LuaState) :
      toldMode (Function.update s.given L i M) = .continue := by
    by_cases hM : M = L
    · rw [hM, Function.update_self]
      exact hi
    · rw [Function.update_of_ne hM]
      exact h M
  cases l with
  | event v L r e ar => exact (observed_event hs).given ▸ h
  | fault L => exact (observed_fault hs).given ▸ h
  | wake L => exact (observed_wake hs).given ▸ h
  | attachState L checkstack =>
    cases hs
    exact h
  | detachState L =>
    obtain rfl := detachState_some hs
    exact hupdate L none rfl
  | load L source name =>
    cases hs
    exact h
  | command c => exact continued_instruction hupdate h hl hs
  | close =>
    obtain ⟨continueRunning,rfl⟩ := close_some hs
    exact h
  | cleanUp =>
    rcases cleanUp_cases hs with ⟨-,rfl⟩ | ⟨-,rfl⟩
    · exact h
    · exact fun _ => rfl
  | waitForAttach =>
    obtain ⟨-,rfl⟩ := waitForAttach_some hs
    exact h

/-- After a clean start no machine stops that is not asked to. -/
theorem unasked_no_stop {first second : List Label} {t : State} (h : Runs Step initial first s)
    (hw : waitForAttach s = some s') (hc : Clean s') (ht : Runs Step s' second t)
    (hsecond : ∀ l ∈ second, Unasked l) {b : DebugBackend} {v : Version} {r : Reading} {e : ℤ}
    {ar : LuaDebug} {reason : Option BreakReason} (hn : notify v t.backend L r e ar = some (b,reason)) :
    reason = none := by
  have hI : Invariant s := runs_invariant invariant_step h invariant_initial
  have hrun (u u' : State) (ls : List Label) (hr : Runs Step u ls u') (hl : ∀ l ∈ ls, Unasked l)
      (hT : Told u.backend u.given) (hb : Cleared u.backend)
      (hm : ∀ M, toldMode (u.given M) = .continue) :
      Told u'.backend u'.given ∧ Cleared u'.backend ∧ ∀ M, toldMode (u'.given M) = .continue := by
    induction hr with
    | nil u => exact ⟨hT,hb,hm⟩
    | cons hs _ ih =>
      obtain ⟨hlabel,hrest⟩ := List.forall_mem_cons.mp hl
      exact ih hrest (told_step hT hs) (cleared_step hb (untoggled hlabel) hs)
        (continued_step hm hlabel hs)
  have hcont : ∀ M, toldMode (s.given M) = .continue := by
    intro M
    cases hvm : s.backend.getVm M with
    | none => rw [hI.told.unknown M hvm]; rfl
    | some vm =>
      have hM : M ∈ s.backend.vms :=
        hI.told.listed.entries ▸ Registration.getVm_isSome_iff.mp (Option.isSome_of_mem hvm)
      exact (toldMode_continue hI.told).mpr (continued_of_clean h hw hc M hM)
  have hs : Step s .waitForAttach s' := hw
  obtain ⟨hT,hb,hm⟩ := hrun s' t second ht hsecond (told_step hI.told hs) hc.breakpoints
    (continued_step (l := .waitForAttach) hcont trivial hs)
  exact notify_quiet hT hb hm hn

/-- The second session is clean exactly when the first one has left its machines running, and from a
clean start on no machine stops that is not asked to. -/
theorem clean_iff {labels : List Label} (h : Runs Step initial labels s)
    (hw : waitForAttach s = some s') : (Clean s' ↔ Continued s) ∧
      (Clean s' → ∀ second t, Runs Step s' second t → (∀ l ∈ second, Unasked l) →
        ∀ v L r e ar b reason, notify v t.backend L r e ar = some (b,reason) → reason = none) := by
  refine ⟨⟨continued_of_clean h hw,clean_of_continued h hw⟩,?_⟩
  intro hc second t ht hsecond v L r e ar b reason hn
  exact unasked_no_stop h hw hc ht hsecond hn

def breakAndDetach : List Label :=
  [.attachState 1 true, .command (.break 1), .command (.detach true), .close, .cleanUp]

theorem breakAndDetach_runs : (breakAndDetach.foldlM step initial).isSome = true := by decide +kernel

def left : State := (breakAndDetach.foldlM step initial).get breakAndDetach_runs

def reattached : State := (waitForAttach left).get (by decide +kernel)

def chunk : LuaDebug := ⟨some [],some (LuaText.text "main"),LuaText.text "@a.lua",1,0,9⟩

theorem reattached_runs : Runs Step initial breakAndDetach left ∧ waitForAttach left = some reattached :=
  ⟨runs_of_foldlM (Option.some_get breakAndDetach_runs).symm (fun _ _ _ _ h => h),
    (Option.some_get _).symm⟩

theorem clean_iff_reattached : Runs Step initial breakAndDetach left ∧
    waitForAttach left = some reattached ∧ (Clean reattached ↔ Continued left) :=
  ⟨reattached_runs.1,reattached_runs.2,(clean_iff reattached_runs.1 reattached_runs.2).1⟩

/-- The new session is told of a step that nobody has asked it for. -/
theorem reattach_not_clean : Runs Step initial breakAndDetach left ∧
    waitForAttach left = some reattached ∧ ¬ Clean reattached ∧
    ((notify .lua51 reattached.backend 1 ⟨⟨none,none,true,fun _ => true⟩,[chunk]⟩ Event.hookLine
      chunk).map Prod.snd = some (some .step)) := by
  refine ⟨reattached_runs.1,reattached_runs.2,fun hc => ?_,by decide +kernel⟩
  have hmode : ((reattached.backend.getVm 1).map VirtualMachine.mode) = some .stepInto := by decide +kernel
  obtain ⟨vm,hvm,hm⟩ := Option.map_eq_some_iff.mp hmode
  cases hm.symm.trans (hc.machines 1 vm hvm).2.1

end Runs

end Vecoda.Reattach
