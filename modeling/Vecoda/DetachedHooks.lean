import Vecoda.HookRegions

/-!
# Hooks after a Detach

`HookCallback` looks at the detach event only where it attaches a state. A
thread that comes to the lock behind the Detach installs its hook again, or
writes its events; the commands that follow the Detach are served as before.
-/

set_option autoImplicit false

namespace Vecoda.DetachedHooks
open MessagePipe (Bytes)
open LuaText (text)
open Backend HookCallback HookRegions Transitions
open HostRelease (Proc)
open Reattach (Instruction)
open Resuming (Resume resume resetEvent resetEvents signalled)

/-- Where the thread that runs a Lua state is: blocked at the entry of `HookCallback`,
out of the lock in `RegisterScript`, between its decision and `SendBreakEvent`, in
`WaitForContinue`, or in `PostLoadScript`, which has found the debugger attached. -/
inductive Location where
  | outside
  | entry (e : HookEvent)
  | loading (after : Option (HookEvent × Pending))
  | ready (e : HookEvent) (p : Pending)
  | stopping (e : HookEvent) (reason : BreakReason)
  | waiting (e : Option HookEvent)
  | registering (source name : Option Bytes)

inductive Sent where
  | break (L : LuaState) (reason : BreakReason)
  | exception (L : LuaState)
  | result (commandId : ℕ)

/-- `mark` is what had been written when the Detach was processed. -/
structure State where
  backend : DebugBackend
  location : LuaState → Location
  loadEvent : Bool
  detachEvent : Bool
  proc : Proc
  sent : List Sent
  mark : List Report × List Sent

section Steps

variable (s : State)

def moveTo (L : LuaState) (l : Location) : State := {s with location := Function.update s.location L l}

def hook (L : LuaState) (e : HookEvent) : Option State :=
  match s.location L with
  | .outside =>
    if delivers e.version (s.backend.hook L) e.event then some (moveTo s L (.entry e)) else none
  | _ => none

def Location.after (e : HookEvent) : Region → Location
  | .exit => .outside
  | .registered new p => if new then .loading (some (e,p)) else .ready e p
  | .stop reason => .stopping e reason

def leave (L : LuaState) (e : HookEvent) (r : DebugBackend × Region) : State :=
  moveTo {s with backend := r.1} L (.after e r.2)

def attachedNow (e : HookEvent) : HookEvent :=
  {e with reading := {e.reading with attached := !s.detachEvent}}

def enter (L : LuaState) : Option State :=
  match s.location L with
  | .entry e => (HookRegions.enter s.backend L (attachedNow s e)).map (leave s L (attachedNow s e))
  | _ => none

def loaded (L : LuaState) : Option State :=
  match s.location L with
  | .loading after =>
    if s.loadEvent || s.detachEvent then
      some (moveTo {s with loadEvent := false} L
        (match after with
          | none => .outside
          | some (e,p) => .ready e p))
    else none
  | _ => none

def goOn (L : LuaState) : Option State :=
  match s.location L with
  | .ready e p =>
    if (s.backend.getVm L).isNone then none else some (leave s L e (HookRegions.goOn s.backend L e p))
  | _ => none

def send (L : LuaState) : Option State :=
  match s.location L with
  | .stopping e reason => some (moveTo {s with sent := s.sent ++ [.break L reason]} L (.waiting (some e)))
  | _ => none

def wake (L : LuaState) : Option State :=
  match s.location L with
  | .waiting e =>
    if signalled s.backend L || s.detachEvent then
      let b := s.backend.modifyVm L resetEvent
      some (moveTo {s with backend := match e with
        | some e => resumed b L e.reading e.ar
        | none => b} L .outside)
    else none
  | _ => none

def fault (L : LuaState) : Option State :=
  match s.location L with
  | .outside => some (moveTo {s with sent := s.sent ++ [.exception L,.break L .exception]} L
      (if (s.backend.getVm L).isSome then .waiting none else .outside))
  | _ => none

def attachState (L : LuaState) (checkstack : Bool) : Option State :=
  some {s with backend := (s.backend.attachState L (!s.detachEvent) checkstack).1}

def detachState (L : LuaState) : Option State :=
  match s.location L with
  | .outside => some {s with backend := s.backend.detachState L}
  | _ => none

def load (L : LuaState) (source name : Option Bytes) : Option State :=
  match s.location L with
  | .outside => some (if s.detachEvent then s else moveTo s L (.registering source name))
  | _ => none

def register (L : LuaState) : Option State :=
  match s.location L with
  | .registering source name =>
    let (b,scriptIndex) := s.backend.registerScript L source name false
    some (moveTo {s with backend := b} L (if scriptIndex.isSome then .loading none else .outside))
  | _ => none

def detach (continueRunning : Bool) : State :=
  {s with
    backend := {s.backend with hook := fun L => if L ∈ s.backend.vms then .none else s.backend.hook L},
    detachEvent := true, proc := if continueRunning then .reading true else .left false,
    mark := if s.detachEvent then s.mark else (s.backend.reports,s.sent)}

/-- The results of an evaluation and of an expansion are written in any case. -/
def answered (commandId : ℕ) : Bool := commandId = 6 || commandId = 7

def command (c : Instruction) : Option State :=
  match s.proc with
  | .reading _ =>
    match c with
    | .resume how L =>
      if (s.backend.getVm L).isNone then none else some {s with backend := resume how s.backend L}
    | .break L =>
      if (s.backend.getVm L).isNone then none else some {s with backend := breakVm s.backend L}
    | .toggleBreakpoint L i line =>
      (s.backend.toggleBreakpoint L i line).map (fun b => {s with backend := b})
    | .deleteAllBreakpoints => some {s with backend := s.backend.deleteAllBreakpoints}
    | .loadDone => some {s with loadEvent := true}
    | .detach continueRunning => some (detach s continueRunning)
    | .other commandId =>
      some (if answered commandId then {s with sent := s.sent ++ [.result commandId]} else s)
  | _ => none

def close : Option State :=
  match s.proc with
  | .reading continueRunning => some {s with proc := .left continueRunning}
  | _ => none

def cleanUp : Option State :=
  match s.proc with
  | .left true => some {s with backend := s.backend.deleteAllBreakpoints, proc := .attaching}
  | .left false => some {s with
      backend := {s.backend with scripts := [], nameToScript := [], vms := [], stateToVm := []},
      proc := .ended}
  | _ => none

def waitForAttach : Option State :=
  match s.proc with
  | .attaching => some {s with
      backend := resetEvents s.backend.activeLuaHookInAllVms,
      detachEvent := false, loadEvent := false, proc := .reading false}
  | _ => none

end Steps

inductive Label where
  | hook (L : LuaState) (e : HookEvent)
  | enter (L : LuaState)
  | loaded (L : LuaState)
  | goOn (L : LuaState)
  | send (L : LuaState)
  | wake (L : LuaState)
  | fault (L : LuaState)
  | attachState (L : LuaState) (checkstack : Bool)
  | detachState (L : LuaState)
  | load (L : LuaState) (source name : Option Bytes)
  | register (L : LuaState)
  | command (c : Instruction)
  | close
  | cleanUp
  | waitForAttach

def step (s : State) : Label → Option State
  | .hook L e => hook s L e
  | .enter L => enter s L
  | .loaded L => loaded s L
  | .goOn L => goOn s L
  | .send L => send s L
  | .wake L => wake s L
  | .fault L => fault s L
  | .attachState L checkstack => attachState s L checkstack
  | .detachState L => detachState s L
  | .load L source name => load s L source name
  | .register L => register s L
  | .command c => command s c
  | .close => close s
  | .cleanUp => cleanUp s
  | .waitForAttach => waitForAttach s

def Step (s : State) (l : Label) (s' : State) : Prop := step s l = some s'

def initial : State where
  backend := DebugBackend.initial
  location _ := .outside
  loadEvent := false
  detachEvent := false
  proc := .reading false
  sent := []
  mark := ([],[])

/-- While the debugger is detached no machine has a hook, and nothing is written; a stop
writes its Break event first. -/
def Detached (s : State) : Prop :=
  s.detachEvent = true →
    (∀ L ∈ s.backend.vms, s.backend.hook L = .none) ∧ (s.backend.reports,s.sent) = s.mark

section Silent

variable (b : DebugBackend) (L : LuaState) (e : HookEvent)

def sameScript (source name : Option Bytes) : Bool :=
  let code := source.getD []
  let key := name.getD (LuaText.cstr code)
  b.scripts.any (fun s => s.title = DebugBackend.getFileTitle key && s.source = code)

def aliased (ar : LuaDebug) : Bool :=
  sameScript b (if (text "@").isPrefixOf ar.source then none else some ar.source) (some ar.source)

/-- The frame at which `StackHasBreakpoint` leaves the lock. -/
def pauses : List LuaDebug → Option LuaDebug
  | [] => none
  | ar::rest =>
    if ar.linedefined = -1 then pauses rest
    else if !known b ar then some ar
    else if hasBreakpoint b ar then none
    else pauses rest

def scanPauses : Option LuaDebug :=
  if (b.getVm L).any VirtualMachine.breakpointInStack then pauses b e.reading.stack else none

def enteredPauses : Option LuaDebug := if hasBreakpoint b e.ar then none else scanPauses b L e

/-- The function for which `UpdateHookMode` leaves the lock before it sets the hook. -/
def updatePauses : Option LuaDebug :=
  if isEntered e then
    if !known b e.ar then some e.ar else enteredPauses b L e
  else scanPauses b L e

/-- Neither the name of the machine nor the warning about LuaJIT is written. -/
def Calm (vm : VirtualMachine) : Prop :=
  e.reading.decodaName.getD [] = vm.name ∧
    (vm.initialized = false → e.event = Event.hookLine → ∀ n, e.reading.jitVersion = some n → n < 20000)

/-- A line of a machine that runs on, in a script the backend has, or a call that meets
another name of such a script first. -/
def Passes (mode : Mode) : Prop :=
  mode = .continue ∧ if e.event = Event.hookLine then known b e.ar = true ∨ aliased b e.ar = true
    else ∃ ar, updatePauses b L e = some ar ∧ aliased b ar = true

def EnterSilent : Prop :=
  e.reading.checkstack 2 = false ∨ ∃ vm, b.getVm L = some vm ∧ Calm e vm ∧ Passes b L e vm.mode

def GoOnSilent : Pending → Prop
  | .entered => ∃ ar, enteredPauses b L e = some ar ∧ aliased b ar = true
  | .scanning ar rest =>
    hasBreakpoint b ar = false ∧ ∃ ar', pauses b rest = some ar' ∧ aliased b ar' = true
  | .line => True

end Silent

/-- What may happen between the Detach and the next `WaitForAttach`. -/
def Silent (s : State) (l : Label) : Prop :=
  s.detachEvent = true → match l with
    | .enter L => ∀ e, s.location L = .entry e → EnterSilent s.backend L e
    | .goOn L => ∀ e p, s.location L = .ready e p → GoOnSilent s.backend L e p
    | .send _ => False
    | .fault _ => False
    | .detachState L => L ∉ s.backend.vms
    | .register L => ∀ source name, s.location L = .registering source name →
        (s.backend.getScriptIndex (name.getD (LuaText.cstr (source.getD [])))).isSome = true ∨
          sameScript s.backend source name = true
    | .command (.resume how _) => how = .continue
    | .command (.break _) => False
    | .command (.toggleBreakpoint _ _ _) => False
    | .command (.other commandId) => answered commandId = false
    | _ => True

structure Untouched (b b' : DebugBackend) : Prop where
  vms : b'.vms = b.vms
  entries : Registration.entries b' = Registration.entries b
  hook : b'.hook = b.hook
  reports : b'.reports = b.reports

structure Within (b b' : DebugBackend) : Prop where
  vms : b'.vms = b.vms
  entries : Registration.entries b' = Registration.entries b
  reports : b.reports <+: b'.reports

def Touched (L : LuaState) (b b' : DebugBackend) : Prop :=
  b'.hook L ≠ .none ∨ b.reports.length < b'.reports.length

section Regions

variable {b b' b'' : DebugBackend} {L : LuaState} {e : HookEvent}

theorem untouched_trans (h : Untouched b b') (h' : Untouched b' b'') : Untouched b b'' :=
  ⟨h'.vms.trans h.vms,h'.entries.trans h.entries,h'.hook.trans h.hook,h'.reports.trans h.reports⟩

theorem untouched_modifyVm (f : VirtualMachine → VirtualMachine) : Untouched b (b.modifyVm L f) :=
  ⟨rfl,Registration.entries_modifyVm f,rfl,rfl⟩

theorem Untouched.within (h : Untouched b b') : Within b b' :=
  ⟨h.vms,h.entries,h.reports ▸ List.prefix_rfl⟩

theorem within_refl (b : DebugBackend) : Within b b := ⟨rfl,rfl,List.prefix_rfl⟩

theorem within_trans (h : Within b b') (h' : Within b' b'') : Within b b'' :=
  ⟨h'.vms.trans h.vms,h'.entries.trans h.entries,h.reports.trans h'.reports⟩

theorem getVm_within (h : Within b b') : (b'.getVm L).isSome = (b.getVm L).isSome := by
  rw [Bool.eq_iff_iff, Registration.getVm_isSome_iff, Registration.getVm_isSome_iff, h.entries]

/-- A known script at most gets another name. -/
theorem registerScript_untouched (source name : Option Bytes) (unavailable : Bool)
    (h : (b.getScriptIndex (name.getD (LuaText.cstr (source.getD [])))).isSome = true ∨
      sameScript b source name = true) : Untouched b (b.registerScript L source name unavailable).1 := by
  by_cases hknown : (b.getScriptIndex (name.getD (LuaText.cstr (source.getD [])))).isSome = true
  · have hb' : (b.registerScript L source name unavailable).1 = b := by
      simp only [DebugBackend.registerScript, hknown, if_true]
    rw [hb']
    exact ⟨rfl,rfl,rfl,rfl⟩
  · have hsame : sameScript b source name = true := h.resolve_left hknown
    rw [sameScript, ← List.findIdx?_isSome] at hsame
    obtain ⟨i,hfind⟩ := Option.isSome_iff_exists.mp hsame
    have hb' : (b.registerScript L source name unavailable).1 = {b with nameToScript := b.nameToScript ++
        [(name.getD (LuaText.cstr (source.getD [])),i)]} := by
      simp only [DebugBackend.registerScript, hknown, if_false, hfind, Bool.false_eq_true]
    rw [hb']
    exact ⟨rfl,rfl,rfl,rfl⟩

/-- A new script is announced. -/
theorem registerScript_announced (source name : Option Bytes) (unavailable : Bool)
    (hknown : ¬ (b.getScriptIndex (name.getD (LuaText.cstr (source.getD [])))).isSome = true)
    (hsame : ¬ sameScript b source name = true) :
    let b' := (b.registerScript L source name unavailable).1
    Within b b' ∧ b.reports.length < b'.reports.length := by
  intro b'
  rw [sameScript, ← List.findIdx?_isSome, Option.not_isSome_iff_eq_none] at hsame
  have hb' : b'.vms = b.vms ∧ Registration.entries b' = Registration.entries b ∧
      ∃ r, b'.reports = b.reports ++ [r] := by
    simp [b', DebugBackend.registerScript, hknown, hsame, DebugBackend.report, Registration.entries]
  obtain ⟨hv,he,r,hr⟩ := hb'
  exact ⟨⟨hv,he,hr ▸ List.prefix_append _ _⟩,by simp [hr]⟩

theorem register_untouched {ar : LuaDebug} (p : Pending) (h : aliased b ar = true) :
    Untouched b (HookRegions.register b L ar p).1 :=
  registerScript_untouched _ _ _ (.inr h)

theorem register_announced {ar : LuaDebug} (p : Pending) (hk : known b ar = false)
    (h : ¬ aliased b ar = true) : Within b (HookRegions.register b L ar p).1 ∧
      b.reports.length < (HookRegions.register b L ar p).1.reports.length := by
  refine registerScript_announced _ _ _ ?_ h
  rw [Option.getD_some, Bool.not_eq_true]
  exact hk

theorem register_within {ar : LuaDebug} (p : Pending) (hk : known b ar = false) :
    Within b (HookRegions.register b L ar p).1 := by
  by_cases ha : aliased b ar = true
  · exact (register_untouched p ha).within
  · exact (register_announced p hk ha).1

theorem finish_within (full : Bool) : Within b (finish b L e full).1 := by
  have hsettle : Within b (settle b L full) := by
    unfold settle
    split
    · exact within_refl b
    · dsimp only
      split
      · exact within_refl b
      · exact ⟨rfl,rfl,List.prefix_rfl⟩
  have hcount : Within (settle b L full) (finish b L e full).1 :=
    Untouched.within (untouched_modifyVm (fun vm => count vm e.version e.event))
  exact within_trans hsettle hcount

theorem finish_hook (full : Bool) (hvm : (b.getVm L).isSome = true) (hhook : b.hook L = .none) :
    (finish b L e full).1.hook L ≠ .none := by
  obtain ⟨vm,hvm⟩ := Option.isSome_iff_exists.mp hvm
  have hmode : hookMode vm.haveActiveBreakpoints full ≠ .none := by
    rcases hookMode_spec vm.haveActiveBreakpoints full with ⟨hfull,-⟩ | ⟨-,hmode⟩
    · rw [hfull]
      exact HookMode.noConfusion
    · exact hmode
  have hsettle : (settle b L full).hook L ≠ .none := by
    rw [settle, hvm]
    dsimp only
    rw [hhook, if_neg hmode.symm, DebugBackend.hook_setHookMode]
    split
    · exact hmode
    · exact HookMode.noConfusion
  exact hsettle

/-- How a region of `UpdateHookMode` ends: it leaves the lock to register a script, or it
settles the hook. -/
def Ends (b : DebugBackend) (L : LuaState) (e : HookEvent) (r : DebugBackend × Region) :
    Option LuaDebug → Prop
  | some ar => known b ar = false ∧ ∃ p, r = HookRegions.register b L ar p
  | none => ∃ b₁ full, Untouched b b₁ ∧ r = finish b₁ L e full

theorem ends_within {r : DebugBackend × Region} {o : Option LuaDebug} (h : Ends b L e r o) :
    Within b r.1 := by
  cases o with
  | some ar =>
    obtain ⟨hk,p,rfl⟩ := h
    exact register_within p hk
  | none =>
    obtain ⟨b₁,full,hb,rfl⟩ := h
    exact within_trans hb.within (finish_within full)

theorem ends_untouched {r : DebugBackend × Region} {o : Option LuaDebug} (h : Ends b L e r o)
    (ho : ∃ ar, o = some ar ∧ aliased b ar = true) : Untouched b r.1 := by
  obtain ⟨ar,rfl,ha⟩ := ho
  obtain ⟨-,p,rfl⟩ := h
  exact register_untouched p ha

theorem ends_touched {r : DebugBackend × Region} {o : Option LuaDebug} (h : Ends b L e r o)
    (ho : ¬ ∃ ar, o = some ar ∧ aliased b ar = true) (hvm : (b.getVm L).isSome = true)
    (hhook : b.hook L = .none) : Touched L b r.1 := by
  cases o with
  | some ar =>
    obtain ⟨hk,p,rfl⟩ := h
    exact .inr (register_announced p hk (fun ha => ho ⟨ar,rfl,ha⟩)).2
  | none =>
    obtain ⟨b₁,full,hb,rfl⟩ := h
    exact .inl (finish_hook full ((getVm_within hb.within).trans hvm) (hb.hook ▸ hhook))

theorem scanFrom_ends (stack : List LuaDebug) : Ends b L e (scanFrom b L e stack) (pauses b stack) := by
  induction stack with
  | nil => exact ⟨_,false,untouched_modifyVm _,rfl⟩
  | cons ar rest ih =>
    rw [scanFrom, pauses]
    by_cases hc : ar.linedefined = -1
    · rw [if_pos hc, if_pos hc]
      exact ih
    · rw [if_neg hc, if_neg hc]
      cases hk : known b ar with
      | false => exact ⟨hk,_,rfl⟩
      | true =>
        rw [Bool.not_true, if_neg Bool.false_ne_true, if_neg Bool.false_ne_true]
        cases hasBreakpoint b ar with
        | true => exact ⟨b,true,⟨rfl,rfl,rfl,rfl⟩,rfl⟩
        | false => exact ih

theorem scan_ends : Ends b L e (scan b L e) (scanPauses b L e) := by
  unfold scan scanPauses
  cases (b.getVm L).any VirtualMachine.breakpointInStack with
  | true => exact scanFrom_ends e.reading.stack
  | false => exact ⟨b,false,⟨rfl,rfl,rfl,rfl⟩,rfl⟩

theorem entered_ends : Ends b L e (entered b L e) (enteredPauses b L e) := by
  unfold entered enteredPauses
  cases hasBreakpoint b e.ar with
  | true => exact ⟨_,true,untouched_modifyVm _,rfl⟩
  | false => exact scan_ends

theorem update_ends : Ends b L e (update b L e) (updatePauses b L e) := by
  unfold update updatePauses
  cases isEntered e with
  | false => exact scan_ends
  | true =>
    cases hk : known b e.ar with
    | true => exact entered_ends
    | false => exact ⟨hk,_,rfl⟩

theorem atLine_untouched : Untouched b (atLine b L e).1 := by
  unfold atLine
  split
  · exact ⟨rfl,rfl,rfl,rfl⟩
  · dsimp only
    exact untouched_modifyVm _

variable {vm : VirtualMachine}

/-- The name and the warning are what is written before the hook is looked at. -/
theorem prepare_calm (b : DebugBackend) (L : LuaState) (e : HookEvent) (vm : VirtualMachine) :
    ∃ extra ready jit name, prepare b L vm e.reading e.event =
      ({b with reports := b.reports ++ extra},
        {vm with initialized := ready, luaJitWorkAround := jit, name := name}) ∧
      (extra = [] ↔ Calm e vm) := by
  have hdetect : ∃ ws ready jit, (if !vm.initialized && e.event = Event.hookLine then
        detectJit vm e.reading.jitVersion else (vm,[])) =
        ({vm with initialized := ready, luaJitWorkAround := jit},ws) ∧
      (ws = [] ↔ (vm.initialized = false → e.event = Event.hookLine →
        ∀ n, e.reading.jitVersion = some n → n < 20000)) := by
    cases hready : vm.initialized with
    | true => exact ⟨[],vm.initialized,vm.luaJitWorkAround,rfl,by simp⟩
    | false =>
      by_cases hline : e.event = Event.hookLine
      · cases hjit : e.reading.jitVersion with
        | none => exact ⟨[],true,vm.luaJitWorkAround,by simp [hline, detectJit],by simp⟩
        | some n =>
          by_cases hn : n ≥ 20000
          · refine ⟨[.message .warning (text "Warning 1009: Enabling LuaJIT C call return work-around")],
              true,true,by simp [hline, detectJit, hn],?_⟩
            simp [hline, not_lt.mpr hn]
          · refine ⟨[],true,vm.luaJitWorkAround,by simp [hline, detectJit, hn],?_⟩
            simp [hline, not_le.mp hn]
      · exact ⟨[],vm.initialized,vm.luaJitWorkAround,by simp [hline],by simp [hline]⟩
  obtain ⟨ws,ready,jit,hd,hws⟩ := hdetect
  refine ⟨ws ++ (if e.reading.decodaName.getD [] = vm.name then [] else
    [Report.nameVM L (e.reading.decodaName.getD [])]),ready,jit,e.reading.decodaName.getD [],?_,?_⟩
  · rw [prepare, hd]
    simp
  · rw [List.append_eq_nil_iff, hws, Calm, and_comm]
    refine and_congr ?_ Iff.rfl
    by_cases hname : e.reading.decodaName.getD [] = vm.name
    · simp [hname]
    · simp [hname]

theorem scan_congr (b₁ : DebugBackend) (hs : b₁.scripts = b.scripts)
    (hn : b₁.nameToScript = b.nameToScript)
    (stack : List LuaDebug) : pauses b₁ stack = pauses b stack := by
  induction stack with
  | nil => rfl
  | cons ar rest ih =>
    have hk : known b₁ ar = known b ar := by rw [known, DebugBackend.getScriptIndex, hn]; rfl
    have hb : hasBreakpoint b₁ ar = hasBreakpoint b ar := by
      simp only [hasBreakpoint, script, DebugBackend.getScriptIndex, hs, hn]
    rw [pauses, pauses, hk, hb, ih]

theorem updatePauses_congr {b₁ : DebugBackend} (hs : b₁.scripts = b.scripts)
    (hn : b₁.nameToScript = b.nameToScript)
    (hin : (b₁.getVm L).any VirtualMachine.breakpointInStack =
      (b.getVm L).any VirtualMachine.breakpointInStack) :
    updatePauses b₁ L e = updatePauses b L e := by
  have hk : known b₁ e.ar = known b e.ar := by rw [known, DebugBackend.getScriptIndex, hn]; rfl
  have hb : hasBreakpoint b₁ e.ar = hasBreakpoint b e.ar := by
    simp only [hasBreakpoint, script, DebugBackend.getScriptIndex, hs, hn]
  simp only [updatePauses, enteredPauses, scanPauses, scan_congr b₁ hs hn, hk, hb, hin]

theorem keepFull_within : Within b (keepFull b L) := by
  have h : Untouched b (setInStack b L true) := untouched_modifyVm _
  exact ⟨h.vms,h.entries,h.reports ▸ List.prefix_rfl⟩

theorem opened_within (mode : Mode) : Within b (opened b L e mode).1 := by
  unfold opened
  split
  · dsimp only
    have hkeep : Within b (if mode = .continue then b else keepFull b L) := by
      split
      · exact within_refl b
      · exact keepFull_within
    apply within_trans hkeep
    generalize (if mode = .continue then b else keepFull b L) = b₁
    cases hk : known b₁ e.ar with
    | true => exact atLine_untouched.within
    | false => exact register_within _ hk
  · split
    · exact ends_within update_ends
    · have hcount :
          Within (keepFull b L) ((keepFull b L).modifyVm L (fun vm => count vm e.version e.event)) :=
        Untouched.within (untouched_modifyVm _)
      exact within_trans keepFull_within hcount

theorem opened_untouched {mode : Mode} (h : Passes b L e mode) : Untouched b (opened b L e mode).1 := by
  obtain ⟨rfl,h⟩ := h
  unfold opened
  by_cases hline : e.event = Event.hookLine
  · rw [if_pos hline] at h ⊢
    rw [if_pos rfl]
    dsimp only
    cases hk : known b e.ar with
    | true => exact atLine_untouched
    | false =>
      rw [hk] at h
      exact register_untouched _ (h.resolve_left Bool.false_ne_true)
  · rw [if_neg hline] at h ⊢
    rw [if_pos rfl]
    exact ends_untouched update_ends h

theorem opened_touched {mode : Mode} (h : ¬ Passes b L e mode) (hvm : (b.getVm L).isSome = true)
    (hhook : b.hook L = .none) : Touched L b (opened b L e mode).1 := by
  unfold opened
  by_cases hmode : mode = .continue
  · subst hmode
    by_cases hline : e.event = Event.hookLine
    · simp only [Passes, hline, if_true, true_and, not_or, Bool.not_eq_true] at h
      rw [if_pos hline, if_pos rfl]
      dsimp only
      rw [h.1]
      exact .inr (register_announced _ h.1 (by simp [h.2])).2
    · simp only [Passes, hline, if_false, true_and] at h
      rw [if_neg hline, if_pos rfl]
      exact ends_touched update_ends h hvm hhook
  · have hkeep : (keepFull b L).hook L ≠ .none := by
      rw [keepFull, DebugBackend.hook_setHookMode]
      exact HookMode.noConfusion
    by_cases hline : e.event = Event.hookLine
    · rw [if_pos hline, if_neg hmode]
      dsimp only
      cases hk : known (keepFull b L) e.ar with
      | true =>
        refine .inl ?_
        rw [Bool.not_true, if_neg Bool.false_ne_true, atLine_untouched.hook]
        exact hkeep
      | false =>
        by_cases ha : aliased (keepFull b L) e.ar = true
        · refine .inl ?_
          rw [Bool.not_false, if_pos rfl, (register_untouched _ ha).hook]
          exact hkeep
        · exact .inr (register_announced _ hk ha).2
    · rw [if_neg hline, if_neg hmode]
      exact .inl hkeep

theorem body_opened (hvm : b.getVm L = some vm) : ∃ b₁ : DebugBackend, Within b b₁ ∧
    (Calm e vm → Untouched b b₁) ∧ (¬ Calm e vm → b.reports.length < b₁.reports.length) ∧
    b₁.hook = b.hook ∧ (Passes b₁ L e vm.mode ↔ Passes b L e vm.mode) ∧
    body b L e vm = opened b₁ L e vm.mode := by
  obtain ⟨extra,ready,jit,name,hp,hcalm⟩ := prepare_calm b L e vm
  let vm₁ := {vm with initialized := ready, luaJitWorkAround := jit, name := name}
  let b₀ : DebugBackend := {b with reports := b.reports ++ extra}
  have hentries : Registration.entries (b₀.putVm L vm₁) = Registration.entries b :=
    Registration.entries_modifyVm (b := b₀) _
  have hbody : body b L e vm = opened (b₀.putVm L vm₁) L e vm.mode := by
    rw [body, hp]
  have hget : (b₀.putVm L vm₁).getVm L = some vm₁ :=
    getVm_put (show (b₀.getVm L).isSome = true from Option.isSome_of_mem hvm)
  refine ⟨b₀.putVm L vm₁,⟨rfl,hentries,List.prefix_append _ _⟩,fun hc => ?_,fun hc => ?_,rfl,?_,hbody⟩
  · refine ⟨rfl,hentries,rfl,?_⟩
    change b.reports ++ extra = b.reports
    rw [hcalm.mpr hc, List.append_nil]
  · have hextra : 0 < extra.length := List.length_pos_iff.mpr (fun h => hc (hcalm.mp h))
    change b.reports.length < (b.reports ++ extra).length
    rw [List.length_append]
    omega
  · have hp : updatePauses (b₀.putVm L vm₁) L e = updatePauses b L e :=
      updatePauses_congr rfl rfl (by rw [hget, hvm]; rfl)
    unfold Passes
    rw [hp]
    rfl

theorem body_within (hvm : b.getVm L = some vm) : Within b (body b L e vm).1 := by
  obtain ⟨b₁,hw,-,-,-,-,hbody⟩ := body_opened (e := e) hvm
  rw [hbody]
  exact within_trans hw (opened_within vm.mode)

theorem enter_cases {r : DebugBackend × Region} (he : e.reading.attached = false)
    (h : HookRegions.enter b L e = some r) : (e.reading.checkstack 2 = false ∧ r = (b,.exit)) ∨
      (e.reading.checkstack 2 = true ∧ ∃ vm, b.getVm L = some vm ∧ r = body b L e vm) := by
  unfold HookRegions.enter at h
  cases hc : e.reading.checkstack 2 with
  | false =>
    rw [hc, Bool.not_false, if_pos rfl] at h
    exact .inl ⟨rfl,(Option.some.inj h).symm⟩
  | true =>
    rw [hc, Bool.not_true, if_neg Bool.false_ne_true] at h
    cases hvm : b.getVm L with
    | some vm =>
      rw [hvm] at h
      exact .inr ⟨rfl,vm,rfl,(Option.some.inj h).symm⟩
    | none =>
      rw [hvm, he] at h
      cases h

theorem enter_untouched {r : DebugBackend × Region} (he : e.reading.attached = false)
    (h : HookRegions.enter b L e = some r) (hs : EnterSilent b L e) : Untouched b r.1 := by
  rcases enter_cases he h with ⟨-,rfl⟩ | ⟨hc,vm,hvm,rfl⟩
  · exact ⟨rfl,rfl,rfl,rfl⟩
  · rcases hs with hfalse | ⟨vm',hvm',hcalm,hp⟩
    · rw [hfalse] at hc
      cases hc
    · cases hvm.symm.trans hvm'
      obtain ⟨b₁,-,hu,-,-,hpasses,hbody⟩ := body_opened (e := e) hvm
      rw [hbody]
      exact untouched_trans (hu hcalm) (opened_untouched (hpasses.mpr hp))

theorem enter_touched {r : DebugBackend × Region} (he : e.reading.attached = false)
    (h : HookRegions.enter b L e = some r) (hs : ¬ EnterSilent b L e) (hhook : b.hook L = .none) :
    (b.getVm L).isSome = true ∧ Within b r.1 ∧ Touched L b r.1 := by
  rcases enter_cases he h with ⟨hc,rfl⟩ | ⟨hc,vm,hvm,rfl⟩
  · exact absurd (.inl hc) hs
  · obtain ⟨b₁,hw,-,hr,hh,hpasses,hbody⟩ := body_opened (e := e) hvm
    rw [hbody]
    have hopened := opened_within (b := b₁) (L := L) (e := e) vm.mode
    refine ⟨Option.isSome_of_mem hvm,within_trans hw hopened,?_⟩
    by_cases hcalm : Calm e vm
    · have hp : ¬ Passes b₁ L e vm.mode := fun hp => hs (.inr ⟨vm,hvm,hcalm,hpasses.mp hp⟩)
      have hsome : (b₁.getVm L).isSome = true := (getVm_within hw).trans (Option.isSome_of_mem hvm)
      rcases opened_touched hp hsome (hh ▸ hhook) with ht | ht
      · exact .inl ht
      · exact .inr (lt_of_le_of_lt hw.reports.length_le ht)
    · exact .inr (lt_of_lt_of_le (hr hcalm) hopened.reports.length_le)

theorem enter_listed {r : DebugBackend × Region} (hl : Registration.Listed b)
    (h : HookRegions.enter b L e = some r) : Registration.Listed r.1 := by
  have hbody {b : DebugBackend} (hl : Registration.Listed b) {vm : VirtualMachine}
      (hvm : b.getVm L = some vm) : Registration.Listed (body b L e vm).1 :=
    Registration.listed_congr hl (body_within hvm).vms (body_within hvm).entries
  unfold HookRegions.enter at h
  split at h
  · cases h
    exact hl
  · split at h
    · rename_i vm hvm
      exact Option.some.inj h ▸ hbody hl hvm
    · rename_i hvm
      split at h
      · cases h
      · rename_i b₂ vm ha
        have hl' : Registration.Listed (b.attachState L e.reading.attached (e.reading.checkstack 3)).1 :=
          Registration.listed_step (c := .attach L e.reading.attached (e.reading.checkstack 3)) hl rfl
        rw [ha] at hl'
        exact Option.some.inj h ▸ hbody hl' (Reattach.attachState_found hvm ha)

theorem scanning_ends {ar : LuaDebug} (rest : List LuaDebug) (hb : hasBreakpoint b ar = false) :
    Ends b L e (HookRegions.goOn b L e (.scanning ar rest)) (pauses b rest) := by
  rw [HookRegions.goOn, hb]
  exact scanFrom_ends rest

theorem goOn_within (p : Pending) : Within b (HookRegions.goOn b L e p).1 := by
  cases p with
  | entered => exact ends_within entered_ends
  | scanning ar rest =>
    cases hb : hasBreakpoint b ar with
    | true =>
      rw [HookRegions.goOn, hb]
      exact finish_within true
    | false => exact ends_within (scanning_ends rest hb)
  | line => exact atLine_untouched.within

theorem goOn_untouched {p : Pending} (h : GoOnSilent b L e p) :
    Untouched b (HookRegions.goOn b L e p).1 := by
  cases p with
  | entered => exact ends_untouched entered_ends h
  | scanning ar rest => exact ends_untouched (scanning_ends rest h.1) h.2
  | line => exact atLine_untouched

theorem goOn_touched {p : Pending} (h : ¬ GoOnSilent b L e p) (hvm : (b.getVm L).isSome = true)
    (hhook : b.hook L = .none) : Touched L b (HookRegions.goOn b L e p).1 := by
  cases p with
  | entered => exact ends_touched entered_ends h hvm hhook
  | scanning ar rest =>
    cases hb : hasBreakpoint b ar with
    | true =>
      rw [HookRegions.goOn, hb]
      exact .inl (finish_hook true hvm hhook)
    | false => exact ends_touched (scanning_ends rest hb) (fun h' => h ⟨hb,h'⟩) hvm hhook
  | line => exact absurd trivial h

end Regions

section Runs

variable {s s' : State} {L : LuaState}

structure Unnoticed (s s' : State) : Prop where
  backend : Untouched s.backend s'.backend
  sent : s'.sent = s.sent
  mark : s'.mark = s.mark
  detachEvent : s'.detachEvent = s.detachEvent

theorem detached_unnoticed (h : Detached s) (hu : Unnoticed s s') : Detached s' := by
  intro hd
  obtain ⟨hhook,hmark⟩ := h (hu.detachEvent ▸ hd)
  refine ⟨fun M hM => ?_,?_⟩
  · rw [hu.backend.hook]
    exact hhook M (hu.backend.vms ▸ hM)
  · rw [hu.backend.reports, hu.sent, hu.mark]
    exact hmark

/-- A step that writes is noticed, and one that sets the hook of a machine. -/
theorem not_detached_written (h : Detached s) (hd : s.detachEvent = true)
    (hd' : s'.detachEvent = s.detachEvent) (hm : s'.mark = s.mark)
    (ht : s.backend.reports.length < s'.backend.reports.length ∨ s.sent.length < s'.sent.length) :
    ¬ Detached s' := by
  intro h'
  obtain ⟨-,hmark⟩ := h hd
  obtain ⟨-,hmark'⟩ := h' (hd'.trans hd)
  have hsame := hmark'.trans (hm.trans hmark.symm)
  rw [(Prod.mk.inj hsame).1, (Prod.mk.inj hsame).2] at ht
  exact ht.elim (lt_irrefl _) (lt_irrefl _)

theorem not_detached_touched (h : Detached s) (hd : s.detachEvent = true)
    (hd' : s'.detachEvent = s.detachEvent) (hm : s'.mark = s.mark) (hL : L ∈ s'.backend.vms)
    (ht : Touched L s.backend s'.backend) : ¬ Detached s' := by
  rcases ht with ht | ht
  · exact fun h' => ht ((h' (hd'.trans hd)).1 L hL)
  · exact not_detached_written h hd hd' hm (.inl ht)

theorem enter_some (hs : enter s L = some s') : ∃ e r, s.location L = .entry e ∧
    HookRegions.enter s.backend L (attachedNow s e) = some r ∧ s' = leave s L (attachedNow s e) r := by
  unfold enter at hs
  split at hs
  · rename_i e hl
    obtain ⟨r,hr,rfl⟩ := Option.map_eq_some_iff.mp hs
    exact ⟨e,r,hl,hr,rfl⟩
  · cases hs

theorem goOn_some (hs : goOn s L = some s') : ∃ e p, s.location L = .ready e p ∧
    (s.backend.getVm L).isSome = true ∧ s' = leave s L e (HookRegions.goOn s.backend L e p) := by
  unfold goOn at hs
  split at hs
  · rename_i e p hl
    split at hs
    · cases hs
    · rename_i hvm
      cases hs
      exact ⟨e,p,hl,by simpa [Option.isSome_iff_ne_none] using hvm,rfl⟩
  · cases hs

theorem register_some (hs : register s L = some s') : ∃ source name location,
    s.location L = .registering source name ∧
    s' = moveTo {s with backend := (s.backend.registerScript L source name false).1} L location := by
  unfold register at hs
  split at hs
  · rename_i source name hl
    cases hs
    exact ⟨source,name,_,hl,rfl⟩
  · cases hs

theorem aside_hook {e : HookEvent} (hs : hook s L e = some s') : Unnoticed s s' := by
  unfold hook at hs
  split at hs
  · split at hs
    · cases hs
      exact ⟨⟨rfl,rfl,rfl,rfl⟩,rfl,rfl,rfl⟩
    · cases hs
  · cases hs

theorem aside_loaded (hs : loaded s L = some s') : Unnoticed s s' := by
  unfold loaded at hs
  split at hs
  · split at hs
    · cases hs
      exact ⟨⟨rfl,rfl,rfl,rfl⟩,rfl,rfl,rfl⟩
    · cases hs
  · cases hs

theorem aside_load {source name : Option Bytes} (hs : load s L source name = some s') :
    Unnoticed s s' := by
  unfold load at hs
  split at hs
  · cases hs
    split <;> exact ⟨⟨rfl,rfl,rfl,rfl⟩,rfl,rfl,rfl⟩
  · cases hs

theorem aside_wake (hs : wake s L = some s') : Unnoticed s s' := by
  unfold wake at hs
  split at hs
  · split at hs
    · cases hs
      have hreset : Untouched s.backend (s.backend.modifyVm L resetEvent) := untouched_modifyVm _
      rename_i e _ _
      cases e with
      | none => exact ⟨hreset,rfl,rfl,rfl⟩
      | some e =>
        have hresumed : Untouched (s.backend.modifyVm L resetEvent)
            (resumed (s.backend.modifyVm L resetEvent) L e.reading e.ar) := by
          unfold resumed
          exact untouched_modifyVm _
        exact ⟨untouched_trans hreset hresumed,rfl,rfl,rfl⟩
    · cases hs
  · cases hs

theorem aside_close (hs : close s = some s') : Unnoticed s s' := by
  unfold close at hs
  split at hs
  · cases hs
    exact ⟨⟨rfl,rfl,rfl,rfl⟩,rfl,rfl,rfl⟩
  · cases hs

theorem send_some (hs : send s L = some s') : ∃ l x, s' = moveTo {s with sent := s.sent ++ [x]} L l := by
  unfold send at hs
  split at hs
  · cases hs
    exact ⟨_,_,rfl⟩
  · cases hs

theorem fault_some (hs : fault s L = some s') :
    ∃ l x y, s' = moveTo {s with sent := s.sent ++ [x,y]} L l := by
  unfold fault at hs
  split at hs
  · cases hs
    exact ⟨_,_,_,rfl⟩
  · cases hs

theorem detachState_some (hs : detachState s L = some s') :
    s' = {s with backend := s.backend.detachState L} := by
  unfold detachState at hs
  split at hs
  · cases hs
    rfl
  · cases hs

theorem untouched_deleteAll (b : DebugBackend) : Untouched b b.deleteAllBreakpoints := by
  have h := Registration.entries_modifyVms (b := {b with scripts := b.scripts.map (fun s =>
    {s with breakpoints := []})}) (·.setActive false)
  exact ⟨rfl,h,rfl,rfl⟩

theorem cleanUp_some (hs : cleanUp s = some s') :
    (∃ proc, s' = {s with backend := s.backend.deleteAllBreakpoints, proc := proc}) ∨
    (∃ proc, s' = {s with backend := Reattach.empty s.backend, proc := proc}) := by
  unfold cleanUp at hs
  split at hs
  · cases hs
    exact .inl ⟨_,rfl⟩
  · cases hs
    exact .inr ⟨_,rfl⟩
  · cases hs

theorem waitForAttach_some (hs : waitForAttach s = some s') :
    s' = {s with backend := resetEvents s.backend.activeLuaHookInAllVms,
                 detachEvent := false, loadEvent := false, proc := .reading false} := by
  unfold waitForAttach at hs
  split at hs
  · cases hs
    rfl
  · cases hs

def Served (s s' : State) : Instruction → Prop
  | .resume how L => (s.backend.getVm L).isSome = true ∧ s' = {s with backend := resume how s.backend L}
  | .break L => (s.backend.getVm L).isSome = true ∧ s' = {s with backend := breakVm s.backend L}
  | .toggleBreakpoint L i line =>
    ∃ b, s.backend.toggleBreakpoint L i line = some b ∧ s' = {s with backend := b}
  | .deleteAllBreakpoints => s' = {s with backend := s.backend.deleteAllBreakpoints}
  | .loadDone => s' = {s with loadEvent := true}
  | .detach continueRunning => s' = detach s continueRunning
  | .other commandId =>
    s' = if answered commandId then {s with sent := s.sent ++ [.result commandId]} else s

theorem command_some {c : Instruction} (hs : command s c = some s') : Served s s' c := by
  unfold command at hs
  split at hs
  · cases c with
    | resume how L =>
      dsimp only at hs ⊢
      split at hs
      · cases hs
      · rename_i hvm
        exact ⟨by simpa [Option.isSome_iff_ne_none] using hvm,(Option.some.inj hs).symm⟩
    | «break» L =>
      dsimp only at hs ⊢
      split at hs
      · cases hs
      · rename_i hvm
        exact ⟨by simpa [Option.isSome_iff_ne_none] using hvm,(Option.some.inj hs).symm⟩
    | toggleBreakpoint L i line =>
      obtain ⟨b,hb,rfl⟩ := Option.map_eq_some_iff.mp hs
      exact ⟨b,hb,rfl⟩
    | deleteAllBreakpoints => exact (Option.some.inj hs).symm
    | loadDone => exact (Option.some.inj hs).symm
    | detach continueRunning => exact (Option.some.inj hs).symm
    | other commandId => exact (Option.some.inj hs).symm
  · cases hs

theorem detached_detach (h : Detached s) (continueRunning : Bool) :
    Detached (detach s continueRunning) := by
  intro _
  refine ⟨fun M hM => if_pos hM,?_⟩
  dsimp only [detach]
  cases hd : s.detachEvent with
  | true => exact (h hd).2
  | false => rfl

structure Invariant (s : State) : Prop where
  listed : Registration.Listed s.backend
  detached : Detached s

theorem entries_stepWith (b : DebugBackend) (L : LuaState) (callCount : ℕ) (mode : Mode) :
    Registration.entries (stepWith b L callCount mode) = Registration.entries b :=
  Registration.entries_modifyVm
    (fun vm => {vm with callCount := callCount, mode := mode, breakEvent := true})

theorem entries_breakVm (b : DebugBackend) (L : LuaState) :
    Registration.entries (breakVm b L) = Registration.entries b :=
  Registration.entries_modifyVm (fun vm => {vm with mode := .stepInto})

theorem entries_resume (how : Resume) (b : DebugBackend) (L : LuaState) :
    (resume how b L).vms = b.vms ∧ Registration.entries (resume how b L) = Registration.entries b := by
  cases how with
  | «continue» => exact ⟨rfl,Registration.entries_modifyVm _⟩
  | stepOver => exact ⟨rfl,entries_stepWith b L 0 .stepOver⟩
  | stepInto => exact ⟨rfl,entries_stepWith b L 0 .stepInto⟩
  | stepOut => exact ⟨rfl,entries_stepWith b L 1 .stepOut⟩

theorem invariant_initial : Invariant initial := ⟨⟨List.nodup_nil,rfl⟩,fun hd => (by cases hd)⟩

theorem unnoticed_region {L : LuaState} {e : HookEvent} {r : DebugBackend × Region}
    (h : Untouched s.backend r.1) : Unnoticed s (leave s L e r) := ⟨h,rfl,rfl,rfl⟩

theorem reports_toggleBreakpoint {b b' : DebugBackend} {i : ℕ} {line : UInt32}
    (h : b.toggleBreakpoint L i line = some b') : b.reports.length < b'.reports.length := by
  cases hscript : b.scripts[i]? with
  | none => simp [DebugBackend.toggleBreakpoint, hscript] at h
  | some sc =>
    cases hset : (sc.toggleBreakpoint line).2 with
    | true =>
      cases (DebugBackend.toggleBreakpoint_set hscript hset).symm.trans h
      change b.reports.length < (b.reports ++ [_]).length
      simp
    | false =>
      cases (DebugBackend.toggleBreakpoint_unset hscript hset).symm.trans h
      split <;>
      · change b.reports.length < (b.reports ++ [_]).length
        simp

theorem hook_resume {how : Resume} (b : DebugBackend) (L : LuaState) (h : how ≠ .continue) :
    (resume how b L).hook L = .full := by
  cases how with
  | «continue» => exact absurd rfl h
  | stepOver => exact DebugBackend.hook_setHookMode _ _ _
  | stepInto => exact DebugBackend.hook_setHookMode _ _ _
  | stepOut => exact DebugBackend.hook_setHookMode _ _ _

/-- What a step does to the machines and to the silence: detached, it keeps it exactly if it meets the
condition, and attached it has none to break. -/
structure Effect (s : State) (l : Label) (s' : State) : Prop where
  listed : Registration.Listed s.backend → Registration.Listed s'.backend
  attached : Detached s → s.detachEvent = false → Detached s'
  silent : Invariant s → s.detachEvent = true → Silent s l → Detached s'
  noticed : Invariant s → s.detachEvent = true → ¬ Silent s l → ¬ Detached s'

theorem detached_attached (hd : s.detachEvent = false) (hsame : s'.detachEvent = s.detachEvent) :
    Detached s' := by
  intro hd'
  cases (hd.symm.trans hsame.symm).trans hd'

section Effects

variable {l : Label}

theorem effect_unnoticed (hl : Silent s l) (hu : Unnoticed s s') : Effect s l s' where
  listed h := Registration.listed_congr h hu.backend.vms hu.backend.entries
  attached h _ := detached_unnoticed h hu
  silent h _ _ := detached_unnoticed h.detached hu
  noticed _ _ hn := absurd hl hn

/-- A step that is never silent. -/
theorem effect_noticed (hl : s.detachEvent = true → ¬ Silent s l) (hsame : s'.detachEvent = s.detachEvent)
    (hlisted : Registration.Listed s.backend → Registration.Listed s'.backend)
    (hnoticed : Invariant s → s.detachEvent = true → ¬ Detached s') : Effect s l s' where
  listed := hlisted
  attached _ hd := detached_attached hd hsame
  silent _ hd hs := absurd hs (hl hd)
  noticed h hd _ := hnoticed h hd

theorem listed_vm (h : Invariant s) (hvm : (s.backend.getVm L).isSome = true) : L ∈ s.backend.vms :=
  h.listed.entries ▸ Registration.getVm_isSome_iff.mp hvm

theorem effect_enter (hs : enter s L = some s') : Effect s (.enter L) s' := by
  obtain ⟨e,r,hl,hr,rfl⟩ := enter_some hs
  refine ⟨fun h => enter_listed h hr,fun _ hd => detached_attached hd rfl,fun h hd hc => ?_,
    fun h hd hc => ?_⟩
  · have hu := enter_untouched (by simp [attachedNow, hd]) hr (hc hd e hl)
    exact detached_unnoticed h.detached (unnoticed_region hu)
  · have hsilent : ¬ EnterSilent s.backend L (attachedNow s e) := by
      refine fun hsilent => hc (fun _ e' he' => ?_)
      cases hl.symm.trans he'
      exact hsilent
    have hL : L ∈ s.backend.vms := by
      have hstate : (HookRegions.enter s.backend L (attachedNow s e)) = some r := hr
      rcases enter_cases (by simp [attachedNow, hd]) hstate with ⟨hfalse,-⟩ | ⟨-,vm,hvm,-⟩
      · exact absurd (.inl hfalse) hsilent
      · exact listed_vm h (Option.isSome_of_mem hvm)
    obtain ⟨-,hw,ht⟩ := enter_touched (by simp [attachedNow, hd]) hr hsilent ((h.detached hd).1 L hL)
    exact not_detached_touched h.detached hd rfl rfl (hw.vms ▸ hL) ht

theorem effect_goOn (hs : goOn s L = some s') : Effect s (.goOn L) s' := by
  obtain ⟨e,p,hl,hvm,rfl⟩ := goOn_some hs
  have hw : Within s.backend (HookRegions.goOn s.backend L e p).1 := goOn_within p
  refine ⟨fun h => Registration.listed_congr h hw.vms hw.entries,fun _ hd => detached_attached hd rfl,
    fun h hd hc => ?_,fun h hd hc => ?_⟩
  · exact detached_unnoticed h.detached (unnoticed_region (goOn_untouched (hc hd e p hl)))
  · have hsilent : ¬ GoOnSilent s.backend L e p := by
      refine fun hsilent => hc (fun _ e' p' he' => ?_)
      cases hl.symm.trans he'
      exact hsilent
    have hL := listed_vm h hvm
    have ht := goOn_touched hsilent hvm ((h.detached hd).1 L hL)
    exact not_detached_touched h.detached hd rfl rfl (hw.vms ▸ hL) ht

theorem effect_send (hs : send s L = some s') : Effect s (.send L) s' := by
  obtain ⟨l,x,rfl⟩ := send_some hs
  refine effect_noticed (fun hd hc => hc hd) rfl id (fun h hd => ?_)
  exact not_detached_written h.detached hd rfl rfl (.inr (by simp [moveTo]))

theorem effect_fault (hs : fault s L = some s') : Effect s (.fault L) s' := by
  obtain ⟨l,x,y,rfl⟩ := fault_some hs
  refine effect_noticed (fun hd hc => hc hd) rfl id (fun h hd => ?_)
  exact not_detached_written h.detached hd rfl rfl (.inr (by simp [moveTo]))

theorem effect_attachState {checkstack : Bool} (hs : attachState s L checkstack = some s') :
    Effect s (.attachState L checkstack) s' := by
  cases hs
  refine ⟨fun h => Registration.listed_step (c := .attach L (!s.detachEvent) checkstack) h rfl,
    fun _ hd => detached_attached hd rfl,fun h hd _ => ?_,fun _ _ hc => absurd (fun _ => trivial) hc⟩
  have hsame : Untouched s.backend (s.backend.attachState L (!s.detachEvent) checkstack).1 := by
    rw [hd]
    exact ⟨rfl,rfl,rfl,rfl⟩
  exact detached_unnoticed h.detached ⟨hsame,rfl,rfl,rfl⟩

theorem effect_detachState (hs : detachState s L = some s') : Effect s (.detachState L) s' := by
  cases detachState_some hs
  refine ⟨fun h => Registration.listed_step (c := .detach L) h rfl,fun _ hd => detached_attached hd rfl,
    fun h hd hc => ?_,fun h hd hc => ?_⟩
  · have hL : L ∉ s.backend.vms := hc hd
    obtain ⟨hvms,hentries,hreports⟩ := Registration.detachState_spec (L := L) h.listed
    have hhook : (s.backend.detachState L).hook = s.backend.hook := by
      unfold DebugBackend.detachState
      split <;> rfl
    rw [Registration.filter_other hL] at hvms
    rw [Registration.filter_other (h.listed.entries ▸ hL)] at hentries
    rw [if_neg hL] at hreports
    exact detached_unnoticed h.detached ⟨⟨hvms,hentries,hhook,hreports⟩,rfl,rfl,rfl⟩
  · have hL : L ∈ s.backend.vms := by
      by_contra hL
      exact hc (fun _ => hL)
    obtain ⟨-,-,hreports⟩ := Registration.detachState_spec (L := L) h.listed
    rw [if_pos hL] at hreports
    exact not_detached_written h.detached hd rfl rfl (.inl (by simp [hreports]))

theorem effect_register (hs : register s L = some s') : Effect s (.register L) s' := by
  obtain ⟨source,name,l,hl,rfl⟩ := register_some hs
  have hk := Reattach.kept_registerScript (b := s.backend) (L := L) source name false
  refine ⟨fun h => Registration.listed_congr h hk.vms hk.entries,fun _ hd => detached_attached hd rfl,
    fun h hd hc => ?_,fun h hd hc => ?_⟩
  · have hu := registerScript_untouched (L := L) source name false (hc hd source name hl)
    exact detached_unnoticed h.detached ⟨hu,rfl,rfl,rfl⟩
  · have hsilent : ¬ ((s.backend.getScriptIndex (name.getD (LuaText.cstr (source.getD [])))).isSome = true ∨
        sameScript s.backend source name = true) := by
      refine fun hsilent => hc (fun _ source' name' h' => ?_)
      cases hl.symm.trans h'
      exact hsilent
    obtain ⟨hknown,hsame⟩ := not_or.mp hsilent
    have hannounced := (registerScript_announced (L := L) source name false hknown hsame).2
    exact not_detached_written h.detached hd rfl rfl (.inl hannounced)

theorem effect_resume {how : Resume} (hs : Served s s' (.resume how L)) :
    Effect s (.command (.resume how L)) s' := by
  obtain ⟨hvm,rfl⟩ := hs
  have hvms := (entries_resume how s.backend L).1
  refine ⟨fun h => Registration.listed_congr h hvms (entries_resume how _ L).2,
    fun _ hd => detached_attached hd rfl,fun h hd hc => ?_,fun h hd hc => ?_⟩
  · have hhow : how = .continue := hc hd
    subst hhow
    exact detached_unnoticed h.detached ⟨⟨rfl,Registration.entries_modifyVm _,rfl,rfl⟩,rfl,rfl,rfl⟩
  · have hmode : (resume how s.backend L).hook L ≠ .none := by
      rw [hook_resume s.backend L (fun hhow => hc (fun _ => hhow))]
      exact HookMode.noConfusion
    exact not_detached_touched h.detached hd rfl rfl (hvms ▸ listed_vm h hvm) (.inl hmode)

theorem effect_break (hs : Served s s' (.break L)) : Effect s (.command (.break L)) s' := by
  obtain ⟨hvm,rfl⟩ := hs
  refine effect_noticed (fun hd hc => hc hd) rfl
    (fun h => Registration.listed_congr h rfl (entries_breakVm s.backend L)) (fun h hd => ?_)
  have hmode : (breakVm s.backend L).hook L ≠ .none := by
    rw [breakVm, DebugBackend.hook_setHookMode]
    exact HookMode.noConfusion
  have hL : L ∈ s.backend.vms := listed_vm h hvm
  exact not_detached_touched h.detached hd rfl rfl hL (.inl hmode)

theorem effect_toggleBreakpoint {i : ℕ} {line : UInt32} (hs : Served s s' (.toggleBreakpoint L i line)) :
    Effect s (.command (.toggleBreakpoint L i line)) s' := by
  obtain ⟨b,hb,rfl⟩ := hs
  have hk := Reattach.sameMachines_toggle L i line hb
  refine effect_noticed (fun hd hc => hc hd) rfl (fun h => Registration.listed_congr h hk.vms hk.entries)
    (fun h hd => ?_)
  exact not_detached_written h.detached hd rfl rfl (.inl (reports_toggleBreakpoint hb))

theorem effect_detach {continueRunning : Bool} (hs : Served s s' (.detach continueRunning)) :
    Effect s (.command (.detach continueRunning)) s' := by
  cases hs
  exact ⟨fun h => Registration.listed_congr h rfl rfl,fun h _ => detached_detach h continueRunning,
    fun h _ _ => detached_detach h.detached continueRunning,fun _ _ hc => absurd (fun _ => trivial) hc⟩

theorem effect_other {commandId : ℕ} (hs : Served s s' (.other commandId)) :
    Effect s (.command (.other commandId)) s' := by
  cases hanswered : answered commandId with
  | false =>
    rw [Served, hanswered, if_neg Bool.false_ne_true] at hs
    cases hs
    exact effect_unnoticed (fun _ => hanswered) ⟨⟨rfl,rfl,rfl,rfl⟩,rfl,rfl,rfl⟩
  | true =>
    rw [Served, hanswered, if_pos rfl] at hs
    cases hs
    refine effect_noticed (fun hd hc => ?_) rfl id (fun h hd => ?_)
    · cases hanswered.symm.trans (hc hd)
    · exact not_detached_written h.detached hd rfl rfl (.inr (by simp))

theorem effect_command {c : Instruction} (hs : command s c = some s') : Effect s (.command c) s' := by
  have hserved := command_some hs
  cases c with
  | resume how L => exact effect_resume hserved
  | «break» L => exact effect_break hserved
  | toggleBreakpoint L i line => exact effect_toggleBreakpoint hserved
  | deleteAllBreakpoints =>
    cases hserved
    exact effect_unnoticed (fun _ => trivial) ⟨untouched_deleteAll s.backend,rfl,rfl,rfl⟩
  | loadDone =>
    cases hserved
    exact effect_unnoticed (fun _ => trivial) ⟨⟨rfl,rfl,rfl,rfl⟩,rfl,rfl,rfl⟩
  | detach continueRunning => exact effect_detach hserved
  | other commandId => exact effect_other hserved

theorem effect_cleanUp (hs : cleanUp s = some s') : Effect s .cleanUp s' := by
  rcases cleanUp_some hs with ⟨proc,rfl⟩ | ⟨proc,rfl⟩
  · exact effect_unnoticed (fun _ => trivial) ⟨untouched_deleteAll s.backend,rfl,rfl,rfl⟩
  · exact ⟨fun _ => (Reattach.told_empty s.backend).listed,fun _ hd => detached_attached hd rfl,
      fun h hd _ _ => ⟨fun M hM => (by cases hM),(h.detached hd).2⟩,
      fun _ _ hc => absurd (fun _ => trivial) hc⟩

theorem effect_waitForAttach (hs : waitForAttach s = some s') : Effect s .waitForAttach s' := by
  cases waitForAttach_some hs
  have hk := Reattach.sameMachines_waitForAttach s.backend
  exact ⟨fun h => Registration.listed_congr h hk.vms hk.entries,fun _ _ hd => (by cases hd),
    fun _ _ _ hd => (by cases hd),fun _ _ hc => absurd (fun _ => trivial) hc⟩

theorem step_effect (hs : Step s l s') : Effect s l s' := by
  cases l with
  | hook L e => exact effect_unnoticed (fun _ => trivial) (aside_hook hs)
  | enter L => exact effect_enter hs
  | loaded L => exact effect_unnoticed (fun _ => trivial) (aside_loaded hs)
  | goOn L => exact effect_goOn hs
  | send L => exact effect_send hs
  | wake L => exact effect_unnoticed (fun _ => trivial) (aside_wake hs)
  | fault L => exact effect_fault hs
  | attachState L checkstack => exact effect_attachState hs
  | detachState L => exact effect_detachState hs
  | load L source name => exact effect_unnoticed (fun _ => trivial) (aside_load hs)
  | register L => exact effect_register hs
  | command c => exact effect_command hs
  | close => exact effect_unnoticed (fun _ => trivial) (aside_close hs)
  | cleanUp => exact effect_cleanUp hs
  | waitForAttach => exact effect_waitForAttach hs

end Effects

/-- A step that misses the condition is noticed at once. -/
theorem noticed_step (s : State) (l : Label) (s' : State) (h : Invariant s) (hs : Step s l s')
    (hc : ¬ Silent s l) : ¬ Detached s' :=
  (step_effect hs).noticed h (Classical.not_imp.mp hc).1 hc

theorem invariant_step (s : State) (l : Label) (s' : State) (h : Invariant s) (hs : Step s l s')
    (hc : Silent s l) : Invariant s' := by
  have he := step_effect hs
  refine ⟨he.listed h.listed,?_⟩
  cases hd : s.detachEvent with
  | true => exact he.silent h hd hc
  | false => exact he.attached h.detached hd

end Runs

/-- The debugger stays detached, exactly if every step behind the Detach is silent; and the regions
that the steps are made of come to what `HookCallback` does when nobody comes between them. -/
theorem detached_along_iff (labels : List Label) :
    (Along Step Detached initial labels ↔ Meets Step Silent initial labels) ∧
      ∀ b L e b₁ region, HookRegions.enter b L e = some (b₁,region) → ∃ b' reason, Alone L e b₁ region b' reason ∧
        hookCallback e.version b L e.reading e.event e.ar = some (b',reason) :=
  ⟨along_iff_meets (fun _ h => h.detached) invariant_step noticed_step initial labels invariant_initial,
    fun _ _ _ _ _ h => enter_alone h⟩

def called : HookEvent where
  version := .lua51
  reading := ⟨⟨none,none,true,fun _ => true⟩,[]⟩
  event := Event.hookCall
  ar := ⟨some [],some (text "C"),text "=[C]",-1,-1,-1⟩

/-- A thread is blocked at the entry of `HookCallback` while the Detach is processed. -/
def blocked : List Label :=
  [.attachState 1 true, .hook 1 called, .command (.detach true), .enter 1]

theorem blocked_runs : (blocked.foldlM step initial).isSome = true := by decide +kernel

theorem blocked_not_detached : ¬ Along Step Detached initial blocked := by
  intro h
  have hend := along_runs h (runs_of_foldlM (Option.some_get blocked_runs).symm (fun _ _ _ _ h => h))
  have hhook := (hend (by decide +kernel)).1 1 (by decide +kernel)
  exact absurd hhook (by decide +kernel)

end Vecoda.DetachedHooks
