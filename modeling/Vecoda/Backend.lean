import Vecoda.LuaText

/-!
# The debugger backend

The data of `DebugBackend` and the operations that change it outside the hook:
scripts and their breakpoints, the virtual machines, and the flags that say
whether any breakpoint is set. A hook mask belongs to its `lua_State` and
outlives the record of the virtual machine. Every operation runs inside
`m_criticalSection`; what it writes to the event channel is appended to
`reports`.
-/

set_option autoImplicit false

namespace Vecoda.Backend
open MessagePipe LuaText

abbrev LuaState := ℕ

inductive HookMode where
  | none
  | callsOnly
  | callsAndReturns
  | full
  deriving DecidableEq, Repr

inductive Mode where
  | continue
  | stepOver
  | stepInto
  | stepOut
  deriving DecidableEq, Repr

inductive CodeState where
  | normal
  | unavailable
  | binary
  deriving DecidableEq, Repr

inductive MessageType where
  | normal
  | warning
  | error
  deriving DecidableEq, Repr

structure Script where
  name : Bytes
  source : Bytes
  title : Bytes
  breakpoints : List UInt32
  state : CodeState
  deriving DecidableEq, Repr

structure LuaDebug where
  name : Option Bytes
  what : Option Bytes
  source : Bytes
  currentline : ℤ
  linedefined : ℤ
  lastlinedefined : ℤ
  deriving DecidableEq, Repr

structure VirtualMachine where
  initialized : Bool
  callCount : ℕ
  callStackDepth : ℕ
  lastStepLine : ℤ
  lastStepScript : ℤ
  name : Bytes
  stackTop : ℕ
  luaJitWorkAround : Bool
  breakpointInStack : Bool
  haveActiveBreakpoints : Bool
  mode : Mode
  breakEvent : Bool
  deriving DecidableEq, Repr

def VirtualMachine.attached (hasBreakPoint : Bool) : VirtualMachine :=
  {initialized := false, callCount := 0, callStackDepth := 0, lastStepLine := -2,
   lastStepScript := -1, name := [], stackTop := 0, luaJitWorkAround := false,
   breakpointInStack := true, haveActiveBreakpoints := hasBreakPoint, mode := .continue,
   breakEvent := false}

def VirtualMachine.setActive (vm : VirtualMachine) (breakpointsActive : Bool) : VirtualMachine :=
  {vm with haveActiveBreakpoints := breakpointsActive, breakpointInStack := breakpointsActive}

inductive Report where
  | createVM (L : LuaState)
  | destroyVM (L : LuaState)
  | loadScript (L : LuaState) (fileName source : Bytes) (state : CodeState)
  | setBreakpoint (L : LuaState) (scriptIndex : ℕ) (line : UInt32) (set : Bool)
  | nameVM (L : LuaState) (name : Bytes)
  | message (type : MessageType) (text : Bytes)
  deriving DecidableEq, Repr

structure DebugBackend where
  scripts : List Script
  nameToScript : List (Bytes × ℕ)
  vms : List LuaState
  stateToVm : List (LuaState × VirtualMachine)
  hook : LuaState → HookMode
  reports : List Report

def DebugBackend.initial : DebugBackend := ⟨[],[],[],[],fun _ => .none,[]⟩

def unsigned (i : ℤ) : UInt32 := UInt32.ofNat (i % 2^32).toNat

theorem unsigned_toNat {i : ℤ} (h : 0 ≤ i) (hi : i < 2^32) : ((unsigned i).toNat : ℤ) = i := by
  rw [unsigned, Int.emod_eq_of_lt h (by omega), UInt32.toNat_ofNat_of_lt']
  · exact Int.toNat_of_nonneg h
  · simp only [UInt32.size]
    omega

namespace Script

def getHasBreakPoint (s : Script) (line : UInt32) : Bool := s.breakpoints.any (· == line)

def hasBreakPointInRange (s : Script) (start «end» : UInt32) : Bool :=
  s.breakpoints.any (fun b => start ≤ b && b < «end»)

def hasBreakpointsActive (s : Script) : Bool := !s.breakpoints.isEmpty

def toggleBreakpoint (s : Script) (line : UInt32) : Script × Bool :=
  if line ∈ s.breakpoints then ({s with breakpoints := s.breakpoints.erase line},false)
  else ({s with breakpoints := s.breakpoints ++ [line]},true)

end Script

namespace DebugBackend

def getVm (b : DebugBackend) (L : LuaState) : Option VirtualMachine := b.stateToVm.lookup L

def modifyVm (b : DebugBackend) (L : LuaState) (f : VirtualMachine → VirtualMachine) : DebugBackend :=
  {b with stateToVm := b.stateToVm.map (fun e => if e.1 = L then (e.1,f e.2) else e)}

def putVm (b : DebugBackend) (L : LuaState) (vm : VirtualMachine) : DebugBackend :=
  b.modifyVm L (fun _ => vm)

def modifyVms (b : DebugBackend) (f : VirtualMachine → VirtualMachine) : DebugBackend :=
  {b with stateToVm := b.stateToVm.map (fun e => (e.1,f e.2))}

def setHookMode (b : DebugBackend) (L : LuaState) (mode : HookMode) : DebugBackend :=
  {b with hook := fun M => if M = L then mode else b.hook M}

def report (b : DebugBackend) (r : Report) : DebugBackend := {b with reports := b.reports ++ [r]}

def hasBreakPoint (b : DebugBackend) : Bool := b.stateToVm.any (fun e => e.2.haveActiveBreakpoints)

/-- `AttachState`; `checkstack` is the result of `lua_checkstack`, after whose
failure the virtual machine stays registered. -/
def attachState (b : DebugBackend) (L : LuaState) (attached checkstack : Bool) :
    DebugBackend × Option VirtualMachine :=
  if !attached then (b,none)
  else match b.getVm L with
    | some vm => (b,some vm)
    | none =>
      let vm := VirtualMachine.attached b.hasBreakPoint
      let b := {b with vms := b.vms ++ [L], stateToVm := b.stateToVm ++ [(L,vm)]}
      if !checkstack then (b,none)
      else ((b.report (.createVM L)).setHookMode L .full,some vm)

/-- The loop over `m_vms`, which steps past the entry that moves up after an erase. -/
def eraseVms (L : LuaState) : List LuaState → List LuaState
  | [] => []
  | M::rest =>
    if M = L then
      match rest with
      | [] => []
      | N::rest => N :: eraseVms L rest
    else M :: eraseVms L rest

def detachState (b : DebugBackend) (L : LuaState) : DebugBackend :=
  let b := if (b.getVm L).isSome then
      {b.report (.destroyVM L) with stateToVm := b.stateToVm.filter (fun e => e.1 ≠ L)}
    else b
  {b with vms := eraseVms L b.vms}

def getScriptIndex (b : DebugBackend) (name : Bytes) : Option ℕ := b.nameToScript.lookup name

def getFileTitle (name : Bytes) : Bytes :=
  (name.reverse.takeWhile (fun c => c ≠ byte '\\' && c ≠ byte '/')).reverse

def displayName (name : Bytes) (noname : Bool) (scriptIndex : ℕ) : Bytes :=
  if noname then text "@Untitled" ++ text (toString (scriptIndex+1)) ++ text ".lua"
  else match name with
    | c::rest => if c = byte '@' then rest else name
    | [] => []

def isBinary (source : Bytes) : Bool :=
  match source with
  | c::rest => 27 ≤ c && c ≤ 33 && (text "Lua").isPrefixOf rest
  | [] => false

/-- `RegisterScript` of a source and a name, either of which may be null; the
index is returned for a script not seen before. -/
def registerScript (b : DebugBackend) (L : LuaState) (source name : Option Bytes) (unavailable : Bool) :
    DebugBackend × Option ℕ :=
  let code := source.getD []
  let key := name.getD (cstr code)
  if (b.getScriptIndex key).isSome then (b,none)
  else
    let title := getFileTitle key
    match b.scripts.findIdx? (fun s => s.title = title && s.source = code) with
    | some i => ({b with nameToScript := b.nameToScript ++ [(key,i)]},none)
    | none =>
      let scriptIndex := b.scripts.length
      let fileName := displayName key (name.isNone && source.isSome) scriptIndex
      let state := if isBinary code then .binary else if unavailable then .unavailable else .normal
      let script : Script := ⟨fileName,code,title,[],state⟩
      let b := {b with scripts := b.scripts ++ [script],
                       nameToScript := b.nameToScript ++ [(key,scriptIndex)]}
      (b.report (.loadScript L fileName code state),some scriptIndex)

def registerHooked (b : DebugBackend) (L : LuaState) (ar : LuaDebug) : DebugBackend :=
  if (b.getScriptIndex ar.source).isSome then b
  else
    let named := (text "@").isPrefixOf ar.source
    (b.registerScript L (if named then none else some ar.source) (some ar.source) named).1

def getHaveActiveBreakpoints (b : DebugBackend) : Bool := b.scripts.any Script.hasBreakpointsActive

def activeLuaHookInAllVms (b : DebugBackend) : DebugBackend :=
  {b with hook := fun L => if (b.getVm L).isSome then .full else b.hook L}

def setHaveActiveBreakpoints (b : DebugBackend) (breakpointsActive : Bool) : DebugBackend :=
  let b := b.modifyVms (·.setActive breakpointsActive)
  if breakpointsActive then b.activeLuaHookInAllVms else b

/-- `m_scripts[scriptIndex]` is not checked: outside the vector the result is undefined. -/
def toggleBreakpoint (b : DebugBackend) (L : LuaState) (scriptIndex : ℕ) (line : UInt32) :
    Option DebugBackend :=
  match b.scripts[scriptIndex]? with
  | none => none
  | some script =>
    let (script,breakpointSet) := script.toggleBreakpoint line
    let b := {b with scripts := b.scripts.set scriptIndex script}
    let b := if breakpointSet then b.setHaveActiveBreakpoints true
      else if b.getHaveActiveBreakpoints then b
      else b.modifyVms (fun vm => {vm with haveActiveBreakpoints := false})
    some (b.report (.setBreakpoint L scriptIndex line breakpointSet))

def deleteAllBreakpoints (b : DebugBackend) : DebugBackend :=
  setHaveActiveBreakpoints {b with scripts := b.scripts.map (fun s => {s with breakpoints := []})} false

section Lookup

variable (b : DebugBackend) (L M : LuaState) (f : VirtualMachine → VirtualMachine)

theorem lookup_map (entries : List (LuaState × VirtualMachine)) :
    (entries.map (fun e => (e.1,f e.2))).lookup L = (entries.lookup L).map f := by
  induction entries with
  | nil => rfl
  | cons e entries ih =>
    rw [List.map_cons, List.lookup_cons, List.lookup_cons, ih]
    split <;> rfl

@[simp] theorem getVm_modifyVms : (b.modifyVms f).getVm L = (b.getVm L).map f :=
  lookup_map L f b.stateToVm

@[simp] theorem getVm_modifyVm : (b.modifyVm L f).getVm L = (b.getVm L).map f := by
  unfold modifyVm getVm
  dsimp only
  induction b.stateToVm with
  | nil => rfl
  | cons e entries ih =>
    obtain ⟨M,vm⟩ := e
    rw [List.map_cons, List.lookup_cons]
    by_cases h : M = L
    · simp [h]
    · have hne : (L == M) = false := by simpa using Ne.symm h
      rw [if_neg h, List.lookup_cons, hne, ih]

theorem getVm_modifyVm_of_ne (h : M ≠ L) : (b.modifyVm L f).getVm M = b.getVm M := by
  unfold modifyVm getVm
  dsimp only
  induction b.stateToVm with
  | nil => rfl
  | cons e entries ih =>
    obtain ⟨N,vm⟩ := e
    rw [List.map_cons]
    split
    · rename_i hN
      have hne : (M == N) = false := beq_eq_false_iff_ne.mpr (fun he => h (he.trans hN))
      rw [List.lookup_cons, List.lookup_cons, hne, ih]
    · rw [List.lookup_cons, List.lookup_cons, ih]

@[simp] theorem getVm_setHookMode (mode : HookMode) : (b.setHookMode M mode).getVm L = b.getVm L := rfl

@[simp] theorem getVm_report (r : Report) : (b.report r).getVm L = b.getVm L := rfl

@[simp] theorem hook_setHookMode (mode : HookMode) : (b.setHookMode L mode).hook L = mode := by
  simp [setHookMode]

@[simp] theorem getVm_setHaveActiveBreakpoints (active : Bool) :
    (b.setHaveActiveBreakpoints active).getVm L = (b.getVm L).map (·.setActive active) := by
  have hmap := getVm_modifyVms b L (·.setActive active)
  cases active <;> exact hmap

theorem hook_setHaveActiveBreakpoints (h : (b.getVm L).isSome = true) :
    (b.setHaveActiveBreakpoints true).hook L = .full := by
  have hmap : ((b.modifyVms (·.setActive true)).getVm L).isSome = true := by simpa using h
  simp only [setHaveActiveBreakpoints, if_true, activeLuaHookInAllVms, hmap]

theorem setHookMode_same : b.setHookMode L (b.hook L) = b := by
  have h : (fun M => if M = L then b.hook L else b.hook M) = b.hook := by
    funext M
    split <;> simp_all
  rw [setHookMode, h]

end Lookup

section Toggle

variable {b b' : DebugBackend} {M : LuaState} {i : ℕ} {line : UInt32}

theorem toggleBreakpoint_set {s : Script} (hs : b.scripts[i]? = some s)
    (hset : (s.toggleBreakpoint line).2 = true) :
    b.toggleBreakpoint M i line =
      some ((setHaveActiveBreakpoints {b with scripts := b.scripts.set i (s.toggleBreakpoint line).1}
        true).report (.setBreakpoint M i line true)) := by
  simp only [toggleBreakpoint, hs, hset, if_true]

theorem toggleBreakpoint_unset {s : Script} (hs : b.scripts[i]? = some s)
    (hset : (s.toggleBreakpoint line).2 = false) :
    let c : DebugBackend := {b with scripts := b.scripts.set i (s.toggleBreakpoint line).1}
    b.toggleBreakpoint M i line = some ((if c.getHaveActiveBreakpoints then c
      else c.modifyVms (fun vm => {vm with haveActiveBreakpoints := false})).report
        (.setBreakpoint M i line false)) := by
  simp only [toggleBreakpoint, hs, hset, Bool.false_eq_true, if_false]

theorem toggleBreakpoint_script (h : b.toggleBreakpoint M i line = some b') :
    ∃ s, b.scripts[i]? = some s ∧ b'.scripts = b.scripts.set i (s.toggleBreakpoint line).1 ∧
      b'.nameToScript = b.nameToScript := by
  cases hs : b.scripts[i]? with
  | none => simp [toggleBreakpoint, hs] at h
  | some s =>
    refine ⟨s,rfl,?_⟩
    cases hset : (s.toggleBreakpoint line).2 with
    | true =>
      rw [toggleBreakpoint_set hs hset] at h
      cases h
      exact ⟨rfl,rfl⟩
    | false =>
      rw [toggleBreakpoint_unset hs hset] at h
      cases h
      constructor <;> simp only [report] <;> split <;> rfl

end Toggle

end DebugBackend

end Vecoda.Backend
