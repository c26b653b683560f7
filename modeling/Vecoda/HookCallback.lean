import Vecoda.Backend

/-!
# The Lua hook

`HookCallback` with the functions it calls, and the commands that resume a
virtual machine. The record of the virtual machine is threaded through and
written back at the end. The result names the reason for which the hook stops
in `BreakFromScript`, if it does; `none` is the use of a null machine. While a
script registered from the hook waits for `LoadDone`, nothing else is assumed
to run.
-/

set_option autoImplicit false

namespace Vecoda.HookCallback
open MessagePipe LuaText Backend

inductive Version where
  | lua50
  | lua51
  | lua52
  deriving DecidableEq, Repr

inductive BreakReason where
  | breakPoint
  | step
  | exception
  | loadException
  deriving DecidableEq, Repr

namespace Event
def hookCall : ℤ := 0
def hookRet : ℤ := 1
def hookLine : ℤ := 2
def hookTailRet : ℤ := 4
def hookTailCall : ℤ := 4
end Event

/-- Lua 5.2 and its successors have tail call events, Lua 5.1 tail return events. -/
def Version.hookTailCall : Version → ℤ
  | lua52 => Event.hookTailCall
  | _ => -1

def Version.hookTailRet : Version → ℤ
  | lua51 => Event.hookTailRet
  | _ => -1

def getIsHookEventRet (v : Version) (event : ℤ) : Bool :=
  event = Event.hookRet || event = v.hookTailRet

def getIsHookEventCall (v : Version) (event : ℤ) : Bool :=
  event = Event.hookCall || event = v.hookTailCall

structure Environment where
  decodaName : Option Bytes
  jitVersion : Option ℤ
  attached : Bool
  checkstack : ℕ → Bool

structure Reading extends Environment where
  stack : List LuaDebug

def script (b : DebugBackend) (source : Bytes) : Option Script :=
  (b.getScriptIndex source).bind (fun i => b.scripts[i]?)

def hasBreakpoint (b : DebugBackend) (ar : LuaDebug) : Bool :=
  match script b ar.source with
  | none => false
  | some s =>
    s.hasBreakPointInRange (unsigned ar.linedefined) (unsigned ar.lastlinedefined) ||
      (s.hasBreakpointsActive && ar.linedefined = 0 && ar.lastlinedefined = 0)

def stackHasBreakpoint (b : DebugBackend) (L : LuaState) : List LuaDebug → DebugBackend × Bool
  | [] => (b,false)
  | ar::rest =>
    if ar.linedefined = -1 then stackHasBreakpoint b L rest
    else
      let b := b.registerHooked L ar
      if hasBreakpoint b ar then (b,true) else stackHasBreakpoint b L rest

def updateHookMode (v : Version) (b : DebugBackend) (L : LuaState) (vm : VirtualMachine)
    (stack : List LuaDebug) (event : ℤ) (ar : LuaDebug) : DebugBackend × VirtualMachine :=
  if event = Event.hookLine then (b,vm)
  else
    let entered := getIsHookEventCall v event && ar.linedefined ≠ -1
    let b := if entered then b.registerHooked L ar else b
    let full := entered && hasBreakpoint b ar
    let vm := if full then {vm with breakpointInStack := true} else vm
    let (b,full,vm) :=
      if !full && vm.breakpointInStack then
        let (b,found) := stackHasBreakpoint b L stack
        (b,found,if found then vm else {vm with breakpointInStack := false})
      else (b,full,vm)
    let mode : HookMode :=
      if !vm.haveActiveBreakpoints then .callsAndReturns else if full then .full else .callsOnly
    if b.hook L = mode then (b,vm)
    else (b.setHookMode L (if vm.mode = .continue then mode else .full),vm)

def detectJit (vm : VirtualMachine) (jitVersion : Option ℤ) : VirtualMachine × List Report :=
  match jitVersion with
  | some version =>
    if version ≥ 20000 then
      ({vm with luaJitWorkAround := true, initialized := true},
        [.message .warning (text "Warning 1009: Enabling LuaJIT C call return work-around")])
    else ({vm with initialized := true},[])
  | none => ({vm with initialized := true},[])

def onLastStepLine (vm : VirtualMachine) (scriptIndex line : ℤ) (stackDepth : ℕ) : Bool :=
  vm.luaJitWorkAround && vm.lastStepLine = line && vm.lastStepScript = scriptIndex &&
    vm.callStackDepth ≠ 0 && stackDepth = vm.callStackDepth

/-- LuaJIT loses returns, so the depth tells that a stepped over call is done. -/
def leave (vm : VirtualMachine) (onLastStepLine : Bool) (stackDepth : ℕ) : VirtualMachine :=
  if vm.luaJitWorkAround && vm.mode = .stepOver && vm.callStackDepth > 0 &&
      (stackDepth < vm.callStackDepth || (stackDepth = vm.callStackDepth && !onLastStepLine)) then
    {vm with callCount := 0, callStackDepth := 0}
  else vm

def stepStops (vm : VirtualMachine) : Bool :=
  vm.mode = .stepInto || (vm.mode = .stepOver && vm.callCount = 0) ||
    (vm.mode = .stepOut && vm.callCount = 0)

def count (vm : VirtualMachine) (v : Version) (event : ℤ) : VirtualMachine :=
  if vm.mode = .stepOver || vm.mode = .stepOut then
    if getIsHookEventRet v event then {vm with callCount := vm.callCount-1}
    else if getIsHookEventCall v event then {vm with callCount := vm.callCount+1}
    else vm
  else vm

def stopReason (b : DebugBackend) (vm : VirtualMachine) (ar : LuaDebug) (onLastStepLine : Bool) :
    Option BreakReason :=
  if onLastStepLine then none
  else if stepStops vm then some .step
  else match script b ar.source with
    | some s => if s.getHasBreakPoint (unsigned (ar.currentline-1)) then some .breakPoint else none
    | none => none

def scriptIndex (b : DebugBackend) (ar : LuaDebug) : ℤ :=
  ((b.getScriptIndex ar.source).map Int.ofNat).getD (-1)

def lineEvent (b : DebugBackend) (L : LuaState) (vm : VirtualMachine) (stack : List LuaDebug)
    (ar : LuaDebug) : DebugBackend × VirtualMachine × Option BreakReason :=
  let b := b.registerHooked L ar
  let last := onLastStepLine vm (scriptIndex b ar) ar.currentline stack.length
  let vm := leave vm last stack.length
  (b,vm,stopReason b vm ar last)

/-- The first line event looks for LuaJIT; the name is read every time. -/
def prepare (b : DebugBackend) (L : LuaState) (vm : VirtualMachine) (r : Reading) (event : ℤ) :
    DebugBackend × VirtualMachine :=
  let (vm,warnings) :=
    if !vm.initialized && event = Event.hookLine then detectJit vm r.jitVersion else (vm,[])
  let name := r.decodaName.getD []
  let renamed := if name = vm.name then [] else [Report.nameVM L name]
  ({b with reports := b.reports ++ warnings ++ renamed},{vm with name := name})

def adjust (v : Version) (b : DebugBackend) (L : LuaState) (vm : VirtualMachine)
    (stack : List LuaDebug) (event : ℤ) (ar : LuaDebug) : DebugBackend × VirtualMachine :=
  if vm.mode = .continue then updateHookMode v b L vm stack event ar
  else (b.setHookMode L .full,{vm with breakpointInStack := true})

def hookCallback (v : Version) (b : DebugBackend) (L : LuaState) (r : Reading) (event : ℤ)
    (ar : LuaDebug) : Option (DebugBackend × Option BreakReason) :=
  if !r.checkstack 2 then some (b,none)
  else
    let (b,vm) := match b.getVm L with
      | some vm => (b,some vm)
      | none => b.attachState L r.attached (r.checkstack 3)
    match vm with
    | none => none
    | some vm =>
      let (b,vm) := prepare b L vm r event
      let (b,vm) := adjust v b L vm r.stack event ar
      if event = Event.hookLine then
        let (b,vm,reason) := lineEvent b L vm r.stack ar
        some (b.putVm L vm,reason)
      else some (b.putVm L (count vm v event),none)

def delivers (v : Version) : HookMode → ℤ → Bool
  | .none, _ => false
  | .callsOnly, event => getIsHookEventCall v event
  | .callsAndReturns, event => event ≠ Event.hookLine
  | .full, _ => true

def notify (v : Version) (b : DebugBackend) (L : LuaState) (r : Reading) (event : ℤ)
    (ar : LuaDebug) : Option (DebugBackend × Option BreakReason) :=
  if delivers v (b.hook L) event then hookCallback v b L r event ar else some (b,none)

def tailFrame : LuaDebug := ⟨some [],some (text "tail"),text "=(tail call)",-1,-1,-1⟩

/-- What the LuaJIT work-around notes when `BreakFromScript` returns. -/
def resumed (b : DebugBackend) (L : LuaState) (r : Reading) (ar : LuaDebug) : DebugBackend :=
  b.modifyVm L (fun vm =>
    if vm.luaJitWorkAround then
      {vm with callStackDepth := r.stack.length, lastStepLine := ar.currentline,
               lastStepScript := scriptIndex b ar}
    else vm)

section Known

variable {b : DebugBackend} {L : LuaState}

theorem registerHooked_known {ar : LuaDebug} (h : (b.getScriptIndex ar.source).isSome = true) :
    b.registerHooked L ar = b := by
  rw [DebugBackend.registerHooked, if_pos h]

def breakable (b : DebugBackend) (ar : LuaDebug) : Bool := ar.linedefined ≠ -1 && hasBreakpoint b ar

theorem stackHasBreakpoint_known (stack : List LuaDebug)
    (h : ∀ ar ∈ stack, ar.linedefined ≠ -1 → (b.getScriptIndex ar.source).isSome = true) :
    stackHasBreakpoint b L stack = (b,stack.any (breakable b)) := by
  induction stack with
  | nil => rfl
  | cons ar rest ih =>
    obtain ⟨har,hrest⟩ := List.forall_mem_cons.mp h
    by_cases hc : ar.linedefined = -1
    · rw [stackHasBreakpoint, if_pos hc, ih hrest]
      simp [breakable, hc]
    · rw [stackHasBreakpoint, if_neg hc]
      simp only [registerHooked_known (har hc), ih hrest]
      by_cases hb : hasBreakpoint b ar = true <;> simp [breakable, hc, hb]

theorem setMode_continue (mode : HookMode) (vm : VirtualMachine) (h : vm.mode = .continue) :
    (if b.hook L = mode then (b,vm)
      else (b.setHookMode L (if vm.mode = .continue then mode else .full),vm)) =
      (b.setHookMode L mode,vm) := by
  simp only [h, if_true]
  split
  · rename_i he
    rw [← he, DebugBackend.setHookMode_same]
  · rfl

def hookMode (haveActive full : Bool) : HookMode :=
  if !haveActive then .callsAndReturns else if full then .full else .callsOnly

theorem hookMode_spec (haveActive full : Bool) :
    hookMode haveActive full = .full ∧ full = true ∨
      (full = false ∨ haveActive = false) ∧ hookMode haveActive full ≠ .none := by
  cases haveActive <;> cases full <;> simp [hookMode]

theorem flag_same (vm : VirtualMachine) {flag : Bool} (h : vm.breakpointInStack = flag) :
    {vm with breakpointInStack := flag} = vm := by
  cases vm
  cases h
  rfl

theorem updateHookMode_eq (v : Version) (vm : VirtualMachine) (stack : List LuaDebug) (event : ℤ)
    (ar : LuaDebug) (hev : event ≠ Event.hookLine) (hmode : vm.mode = .continue)
    (har : getIsHookEventCall v event = true → ar.linedefined ≠ -1 →
      (b.getScriptIndex ar.source).isSome = true)
    (hstack : ∀ ar ∈ stack, ar.linedefined ≠ -1 → (b.getScriptIndex ar.source).isSome = true) :
    let entered := getIsHookEventCall v event && breakable b ar
    let inStack := vm.breakpointInStack && stack.any (breakable b)
    updateHookMode v b L vm stack event ar =
      (b.setHookMode L (hookMode vm.haveActiveBreakpoints (entered || inStack)),
        {vm with breakpointInStack := entered || inStack}) := by
  intro entered inStack
  have hreg : (if (getIsHookEventCall v event && ar.linedefined ≠ -1) = true
      then b.registerHooked L ar else b) = b := by
    split
    · rename_i h
      obtain ⟨hcall,hlua⟩ := Bool.and_eq_true_iff.mp h
      exact registerHooked_known (har hcall (of_decide_eq_true hlua))
    · rfl
  have hfull : (getIsHookEventCall v event && ar.linedefined ≠ -1 && hasBreakpoint b ar) =
      entered := Bool.and_assoc _ _ _
  rw [updateHookMode, if_neg hev]
  simp only [hreg, hfull, stackHasBreakpoint_known stack hstack]
  cases entered with
  | true => exact setMode_continue _ {vm with breakpointInStack := true} hmode
  | false =>
    simp only [Bool.not_false, Bool.true_and, Bool.false_eq_true, if_false, Bool.false_or]
    cases hbis : vm.breakpointInStack with
    | true =>
      cases hany : stack.any (breakable b) with
      | true =>
        have hin : inStack = true := by simp [inStack, hbis, hany]
        simp only [if_true]
        rw [hin, flag_same vm hbis]
        exact setMode_continue _ vm hmode
      | false =>
        have hin : inStack = false := by simp [inStack, hany]
        simp only [if_true, Bool.false_eq_true, if_false]
        rw [hin]
        exact setMode_continue _ {vm with breakpointInStack := false} hmode
    | false =>
      have hin : inStack = false := by simp [inStack, hbis]
      simp only [Bool.false_eq_true, if_false]
      rw [hin, flag_same vm hbis]
      exact setMode_continue _ vm hmode

/-- With every source known, the machine leaves the update with the flag
cleared only over a stack without breakpoints, and with line events off only
where the flag is clear or no breakpoint is set. -/
theorem updateHookMode_known (v : Version) (vm : VirtualMachine) (stack : List LuaDebug) (event : ℤ)
    (ar : LuaDebug) (hev : event ≠ Event.hookLine) (hmode : vm.mode = .continue)
    (har : getIsHookEventCall v event = true → ar.linedefined ≠ -1 →
      (b.getScriptIndex ar.source).isSome = true)
    (hstack : ∀ ar ∈ stack, ar.linedefined ≠ -1 → (b.getScriptIndex ar.source).isSome = true)
    (hclear : vm.breakpointInStack = false → ∀ f ∈ stack, breakable b f = true →
      getIsHookEventCall v event = true ∧ f = ar) :
    ∃ mode flag, updateHookMode v b L vm stack event ar =
        (b.setHookMode L mode,{vm with breakpointInStack := flag}) ∧
      (flag = false → ∀ f ∈ stack, breakable b f = false) ∧
      (mode = .full ∨ ((flag = false ∨ vm.haveActiveBreakpoints = false) ∧ mode ≠ .none)) := by
  refine ⟨_,_,updateHookMode_eq v vm stack event ar hev hmode har hstack,fun hflag f hf => ?_,?_⟩
  · obtain ⟨hentered,hin⟩ := Bool.or_eq_false_iff.mp hflag
    by_contra hb
    have hb : breakable b f = true := by simpa using hb
    cases hbis : vm.breakpointInStack with
    | true =>
      rw [hbis, Bool.true_and, List.any_eq_false] at hin
      exact hin f hf hb
    | false =>
      obtain ⟨hcall,rfl⟩ := hclear hbis f hf hb
      simp [hcall, hb] at hentered
  · rcases hookMode_spec vm.haveActiveBreakpoints _ with h | h
    · exact .inl h.1
    · exact .inr h

theorem detectJit_spec (vm : VirtualMachine) (version : Option ℤ) :
    ∃ jit ws, detectJit vm version = ({vm with initialized := true, luaJitWorkAround := jit},ws) ∧
      (jit = vm.luaJitWorkAround ∨ ∃ n, version = some n ∧ 20000 ≤ n) := by
  unfold detectJit
  split
  · rename_i n
    split
    · rename_i hn
      exact ⟨true,_,rfl,.inr ⟨n,rfl,hn⟩⟩
    · exact ⟨vm.luaJitWorkAround,_,rfl,.inl rfl⟩
  · exact ⟨vm.luaJitWorkAround,_,rfl,.inl rfl⟩

/-- Of what the decisions read, only the work-around can change before them. -/
theorem prepare_spec (b : DebugBackend) (L : LuaState) (vm : VirtualMachine) (r : Reading)
    (event : ℤ) : ∃ reports ready jit name, prepare b L vm r event =
      ({b with reports := reports},
        {vm with initialized := ready, luaJitWorkAround := jit, name := name}) ∧
      (jit = vm.luaJitWorkAround ∨ (vm.initialized = false ∧ event = Event.hookLine ∧
        ∃ n, r.jitVersion = some n ∧ 20000 ≤ n)) := by
  obtain ⟨jit,ws,h,hjit⟩ := detectJit_spec vm r.jitVersion
  unfold prepare
  rw [h]
  cases hready : vm.initialized with
  | true => exact ⟨_,vm.initialized,vm.luaJitWorkAround,_,rfl,.inl rfl⟩
  | false =>
    by_cases hline : event = Event.hookLine
    · simp only [hline, Bool.not_false, Bool.true_and, decide_true, if_true]
      exact ⟨_,_,_,_,rfl,hjit.imp_right (fun hn => ⟨trivial,trivial,hn⟩)⟩
    · simp only [hline, decide_false, Bool.and_false, Bool.false_eq_true, if_false]
      exact ⟨_,vm.initialized,vm.luaJitWorkAround,_,rfl,.inl rfl⟩

theorem hookCallback_found (v : Version) (r : Reading) (event : ℤ) (ar : LuaDebug)
    {vm : VirtualMachine} (hvm : b.getVm L = some vm) (hc : r.checkstack 2 = true) :
    let p := prepare b L vm r event
    let q := adjust v p.1 L p.2 r.stack event ar
    let l := lineEvent q.1 L q.2 r.stack ar
    hookCallback v b L r event ar =
      if event = Event.hookLine then some (l.1.putVm L l.2.1,l.2.2)
      else some (q.1.putVm L (count q.2 v event),none) := by
  simp only [hookCallback, hc, hvm, Bool.not_true, Bool.false_eq_true, if_false]

theorem registerScript_rest (b : DebugBackend) (L : LuaState) (source name : Option Bytes)
    (unavailable : Bool) : (b.registerScript L source name unavailable).1.stateToVm = b.stateToVm ∧
      (b.registerScript L source name unavailable).1.hook = b.hook := by
  unfold DebugBackend.registerScript
  simp only
  split
  · exact ⟨rfl,rfl⟩
  · split <;> exact ⟨rfl,rfl⟩

theorem registerHooked_rest (b : DebugBackend) (L : LuaState) (ar : LuaDebug) :
    (b.registerHooked L ar).stateToVm = b.stateToVm ∧ (b.registerHooked L ar).hook = b.hook := by
  unfold DebugBackend.registerHooked
  split
  · exact ⟨rfl,rfl⟩
  · exact registerScript_rest _ _ _ _ _

end Known

section Commands

def stepWith (b : DebugBackend) (L : LuaState) (callCount : ℕ) (mode : Mode) : DebugBackend :=
  (b.modifyVm L (fun vm => {vm with callCount := callCount, mode := mode,
                                    breakEvent := true})).setHookMode L .full

def stepInto (b : DebugBackend) (L : LuaState) : DebugBackend := stepWith b L 0 .stepInto

def stepOver (b : DebugBackend) (L : LuaState) : DebugBackend := stepWith b L 0 .stepOver

def stepOut (b : DebugBackend) (L : LuaState) : DebugBackend := stepWith b L 1 .stepOut

def continueVm (b : DebugBackend) (L : LuaState) : DebugBackend :=
  b.modifyVm L (fun vm => {vm with callCount := 0, mode := .continue, breakEvent := true})

def breakVm (b : DebugBackend) (L : LuaState) : DebugBackend :=
  (b.modifyVm L (fun vm => {vm with mode := .stepInto})).setHookMode L .full

end Commands

end Vecoda.HookCallback
