import Vecoda.BreakFlag
import Vecoda.HookCallback

/-!
# Breakpoints and the hook mode

A virtual machine runs between its hook calls: functions are called, replaced
by tail calls, returned from or unwound, lines are executed, and commands
arrive. Whenever the cached flag says that no function on the stack has a
breakpoint in it, none has, and the line hook is off only then or when no
breakpoint is set at all. The range test leaves out the line a function is
defined on, so a breakpoint there is not protected.
-/

set_option autoImplicit false

namespace Vecoda.LineHook
open MessagePipe LuaText Backend BreakFlag HookCallback Transitions

structure Session where
  b : DebugBackend
  stack : List LuaDebug

inductive LuaEvent where
  | call (ar : LuaDebug)
  | tailCall (ar : LuaDebug)
  | returning
  | tailReturning
  | line (n : ℤ)

/-- `lose` is the loss of the caller by a tail call up to Lua 5.1, whose own event
is a call; `drop` the end of the innermost frame, by a return or an error. -/
inductive Action where
  | lua (env : Environment) (e : LuaEvent)
  | lose
  | drop
  | resumed (env : Environment)
  | toggle (M : LuaState) (scriptIndex : ℕ) (line : UInt32)
  | deleteAll
  | «continue»
  | stepInto
  | stepOver
  | stepOut
  | «break»

def Runnable (b : DebugBackend) (ar : LuaDebug) : Prop :=
  ar.linedefined = -1 ∨
    ((script b ar.source).isSome = true ∧ 0 ≤ ar.linedefined ∧ ar.lastlinedefined < 2^31)

def eventOf (v : Version) : LuaEvent → ℤ
  | .call _ => Event.hookCall
  | .tailCall _ => v.hookTailCall
  | .returning => Event.hookRet
  | .tailReturning => Event.hookTailRet
  | .line _ => Event.hookLine

def stackAt (v : Version) (b : DebugBackend) (stack : List LuaDebug) :
    LuaEvent → List LuaDebug → LuaDebug → Prop
  | .call ar, stack', ar' => Runnable b ar ∧ ar' = ar ∧ stack' = ar::stack
  | .tailCall ar, stack', ar' => v = .lua52 ∧ Runnable b ar ∧ ar' = ar ∧
      ∃ caller rest, stack = caller::rest ∧ stack' = ar::rest
  | .returning, stack', ar' => stack' = stack ∧ ∃ rest, stack = ar'::rest
  | .tailReturning, stack', ar' => v ≠ .lua52 ∧ stack' = stack ∧ stack ≠ [] ∧ ar' = tailFrame
  | .line n, stack', ar' => ∃ ar rest, stack = ar::rest ∧ ar.linedefined ≠ -1 ∧
      ar' = {ar with currentline := n} ∧ stack' = ar'::rest

def LuaStep (v : Version) (L : LuaState) (s : Session) (env : Environment) (e : LuaEvent)
    (s' : Session) : Prop :=
  ∃ ar reason, stackAt v s.b s.stack e s'.stack ar ∧
    notify v s.b L ⟨env,s'.stack⟩ (eventOf v e) ar = some (s'.b,reason)

def Step (v : Version) (L : LuaState) (s : Session) : Action → Session → Prop
  | .lua env e, s' => LuaStep v L s env e s'
  | .lose, s' => v ≠ .lua52 ∧ s'.b = s.b ∧
      ∃ top caller rest, s.stack = top::caller::rest ∧ s'.stack = top::tailFrame::rest
  | .drop, s' => s'.b = s.b ∧ ∃ top, s.stack = top::s'.stack
  | .resumed env, s' => s'.stack = s.stack ∧
      ∃ ar rest, s.stack = ar::rest ∧ s'.b = resumed s.b L ⟨env,s.stack⟩ ar
  | .toggle M scriptIndex line, s' =>
      s'.stack = s.stack ∧ s.b.toggleBreakpoint M scriptIndex line = some s'.b
  | .deleteAll, s' => s' = ⟨s.b.deleteAllBreakpoints,s.stack⟩
  | .continue, s' => s' = ⟨continueVm s.b L,s.stack⟩
  | .stepInto, s' => s' = ⟨stepInto s.b L,s.stack⟩
  | .stepOver, s' => s' = ⟨stepOver s.b L,s.stack⟩
  | .stepOut, s' => s' = ⟨stepOut s.b L,s.stack⟩
  | .break, s' => s' = ⟨breakVm s.b L,s.stack⟩

/-- What holds between the steps for the machine of `L`. -/
structure Watched (b : DebugBackend) (L : LuaState) (stack : List LuaDebug) (vm : VirtualMachine) :
    Prop where
  found : b.getVm L = some vm
  known : ∀ ar ∈ stack, Runnable b ar
  flag : vm.haveActiveBreakpoints = true ↔ AnyBreakpoint b
  cached : vm.breakpointInStack = false → ∀ ar ∈ stack, breakable b ar = false
  hooked : b.hook L = .full ∨
    ((vm.breakpointInStack = false ∨ vm.haveActiveBreakpoints = false) ∧ b.hook L ≠ .none)

def Invariant (L : LuaState) (s : Session) : Prop := ∃ vm, Watched s.b L s.stack vm

section Congruence

variable {b b' : DebugBackend} (hs : b'.scripts = b.scripts) (hn : b'.nameToScript = b.nameToScript)

include hs hn

theorem script_congr (source : Bytes) : script b' source = script b source := by
  simp only [script, DebugBackend.getScriptIndex, hs, hn]

theorem breakable_congr (ar : LuaDebug) : breakable b' ar = breakable b ar := by
  simp only [breakable, hasBreakpoint, script_congr hs hn]

theorem runnable_congr (ar : LuaDebug) : Runnable b' ar ↔ Runnable b ar := by
  simp only [Runnable, script_congr hs hn]

omit hn in
theorem anyBreakpoint_congr : AnyBreakpoint b' ↔ AnyBreakpoint b := by
  simp only [AnyBreakpoint, hs]

end Congruence

theorem runnable_known {b : DebugBackend} {ar : LuaDebug} (h : Runnable b ar)
    (hlua : ar.linedefined ≠ -1) : (b.getScriptIndex ar.source).isSome = true := by
  rcases h with h | ⟨h,-⟩
  · exact absurd h hlua
  · rw [script] at h
    cases hi : b.getScriptIndex ar.source with
    | none => simp [hi] at h
    | some i => rfl

theorem not_breakable_c {b : DebugBackend} {ar : LuaDebug} (h : ar.linedefined = -1) :
    breakable b ar = false := by
  simp [breakable, h]

theorem count_spec (vm : VirtualMachine) (v : Version) (event : ℤ) :
    ∃ c, count vm v event = {vm with callCount := c} := by
  unfold count
  split
  · split
    · exact ⟨_,rfl⟩
    · split
      · exact ⟨_,rfl⟩
      · exact ⟨vm.callCount,rfl⟩
  · exact ⟨vm.callCount,rfl⟩

theorem lineEvent_spec {b : DebugBackend} {ar : LuaDebug} (L : LuaState) (vm : VirtualMachine)
    (stack : List LuaDebug) (h : (b.getScriptIndex ar.source).isSome = true) :
    ∃ c d reason, lineEvent b L vm stack ar =
      (b,{vm with callCount := c, callStackDepth := d},reason) := by
  simp only [lineEvent, registerHooked_known h]
  unfold leave
  split
  · exact ⟨0,0,_,rfl⟩
  · exact ⟨vm.callCount,vm.callStackDepth,_,rfl⟩

theorem not_call_line (v : Version) : getIsHookEventCall v Event.hookLine = false := by
  cases v <;> decide

/-- The machine may only miss breakpoints in the function being entered. -/
structure Entering (v : Version) (b : DebugBackend) (L : LuaState) (stack : List LuaDebug)
    (vm : VirtualMachine) (event : ℤ) (ar : LuaDebug) : Prop where
  known : ∀ f ∈ stack, Runnable b f
  at_call : getIsHookEventCall v event = true → Runnable b ar
  at_line : event = Event.hookLine → Runnable b ar ∧ ar.linedefined ≠ -1
  clear : vm.breakpointInStack = false → ∀ f ∈ stack, breakable b f = true →
    getIsHookEventCall v event = true ∧ f = ar
  hooked : b.hook L = .full ∨
    ((vm.breakpointInStack = false ∨ vm.haveActiveBreakpoints = false) ∧ b.hook L ≠ .none)

theorem adjust_spec {v : Version} {b : DebugBackend} {L : LuaState} {stack : List LuaDebug}
    {vm : VirtualMachine} {event : ℤ} {ar : LuaDebug} (h : Entering v b L stack vm event ar) :
    ∃ mode flag, adjust v b L vm stack event ar =
        (b.setHookMode L mode,{vm with breakpointInStack := flag}) ∧
      (flag = false → ∀ f ∈ stack, breakable b f = false) ∧
      (mode = .full ∨ ((flag = false ∨ vm.haveActiveBreakpoints = false) ∧ mode ≠ .none)) := by
  unfold adjust
  split
  · rename_i hmode
    by_cases hline : event = Event.hookLine
    · refine ⟨b.hook L,vm.breakpointInStack,?_,?_,h.hooked⟩
      · rw [updateHookMode, if_pos hline, DebugBackend.setHookMode_same]
      · intro hflag f hf
        by_contra hb
        obtain ⟨hcall,-⟩ := h.clear hflag f hf (by simpa using hb)
        rw [hline, not_call_line] at hcall
        cases hcall
    · exact updateHookMode_known v vm stack event ar hline hmode
        (fun hcall hlua => runnable_known (h.at_call hcall) hlua)
        (fun f hf hlua => runnable_known (h.known f hf) hlua) h.clear
  · exact ⟨.full,true,rfl,fun hflag => absurd hflag (by decide),.inl rfl⟩

theorem written_spec {b : DebugBackend} {L : LuaState} {vm : VirtualMachine}
    (hvm : b.getVm L = some vm) (reports : List Report) (mode : HookMode) (vm' : VirtualMachine) :
    let b' := ({b with reports := reports}.setHookMode L mode).putVm L vm'
    b'.scripts = b.scripts ∧ b'.nameToScript = b.nameToScript ∧ b'.getVm L = some vm' ∧
      b'.hook L = mode := by
  refine ⟨rfl,rfl,?_,?_⟩
  · have hget : ({b with reports := reports}.setHookMode L mode).getVm L = some vm := hvm
    rw [DebugBackend.putVm, DebugBackend.getVm_modifyVm, hget]
    rfl
  · exact DebugBackend.hook_setHookMode {b with reports := reports} L mode

/-- What a call of the hook leaves behind, at any event. -/
theorem hookCallback_spec {v : Version} {b : DebugBackend} {L : LuaState} {vm : VirtualMachine}
    {event : ℤ} {ar : LuaDebug} (r : Reading) (hvm : b.getVm L = some vm)
    (hc : r.checkstack 2 = true) (h : Entering v b L r.stack vm event ar) :
    ∃ b' vm' reason, hookCallback v b L r event ar = some (b',reason) ∧
      b'.scripts = b.scripts ∧ b'.nameToScript = b.nameToScript ∧ b'.getVm L = some vm' ∧
      vm'.haveActiveBreakpoints = vm.haveActiveBreakpoints ∧
      (vm'.breakpointInStack = false → ∀ f ∈ r.stack, breakable b f = false) ∧
      (b'.hook L = .full ∨ ((vm'.breakpointInStack = false ∨ vm'.haveActiveBreakpoints = false) ∧
        b'.hook L ≠ .none)) := by
  obtain ⟨reports,ready,jit,name,hp,-⟩ := prepare_spec b L vm r event
  rw [hookCallback_found v r event ar hvm hc, hp]
  have hentering : Entering v {b with reports := reports} L r.stack
      {vm with initialized := ready, luaJitWorkAround := jit, name := name} event ar :=
    ⟨h.known,h.at_call,h.at_line,h.clear,h.hooked⟩
  obtain ⟨mode,flag,hq,hclear,hhook⟩ := adjust_spec hentering
  simp only [hq]
  by_cases hline : event = Event.hookLine
  · obtain ⟨hrun,hlua⟩ := h.at_line hline
    obtain ⟨c,d,reason,hl⟩ := lineEvent_spec (b := {b with reports := reports}.setHookMode L mode) L
      {vm with initialized := ready, luaJitWorkAround := jit, name := name,
               breakpointInStack := flag} r.stack (runnable_known hrun hlua)
    rw [if_pos hline, hl]
    obtain ⟨hs,hn,hget,hmode⟩ := written_spec hvm reports mode
      {vm with initialized := ready, luaJitWorkAround := jit, name := name,
               breakpointInStack := flag, callCount := c, callStackDepth := d}
    exact ⟨_,_,reason,rfl,hs,hn,hget,rfl,hclear,by rw [hmode]; exact hhook⟩
  · obtain ⟨c,hcount⟩ := count_spec {vm with initialized := ready, luaJitWorkAround := jit,
                                             name := name, breakpointInStack := flag} v event
    rw [if_neg hline, hcount]
    obtain ⟨hs,hn,hget,hmode⟩ := written_spec hvm reports mode
      {vm with initialized := ready, luaJitWorkAround := jit, name := name,
               breakpointInStack := flag, callCount := c}
    exact ⟨_,_,none,rfl,hs,hn,hget,rfl,hclear,by rw [hmode]; exact hhook⟩

section LuaEvents

variable {v : Version} {b : DebugBackend} {L : LuaState} {stack stack' : List LuaDebug}
  {vm : VirtualMachine} {ar : LuaDebug}

def isCall : LuaEvent → Bool
  | .call _ => true
  | .tailCall _ => true
  | _ => false

theorem isCall_iff (e : LuaEvent) (h : stackAt v b stack e stack' ar) :
    getIsHookEventCall v (eventOf v e) = isCall e := by
  cases e with
  | call ar => rfl
  | tailCall ar =>
    obtain ⟨rfl,-⟩ := h
    rfl
  | returning => cases v <;> decide
  | tailReturning =>
    obtain ⟨hv,-⟩ := h
    cases v with
    | lua50 => rfl
    | lua51 => rfl
    | lua52 => exact absurd rfl hv
  | line n => exact not_call_line v

theorem line_of_event (e : LuaEvent) (h : eventOf v e = Event.hookLine) : ∃ n, e = .line n := by
  cases e with
  | line n => exact ⟨n,rfl⟩
  | _ => cases v <;> revert h <;> simp [eventOf, Event.hookLine, Event.hookCall, Event.hookRet,
      Version.hookTailCall, Event.hookTailCall, Event.hookTailRet]

theorem entering_event (e : LuaEvent) (hw : Watched b L stack vm)
    (h : stackAt v b stack e stack' ar) : Entering v b L stack' vm (eventOf v e) ar := by
  have hcall := isCall_iff e h
  have hold : ∀ {p : Prop}, vm.breakpointInStack = false → ∀ f ∈ stack, breakable b f = true → p := by
    intro p hflag f hf hb
    rw [hw.cached hflag f hf] at hb
    cases hb
  cases e with
  | call f =>
    obtain ⟨hrun,rfl,rfl⟩ := h
    refine ⟨List.forall_mem_cons.mpr ⟨hrun,hw.known⟩,fun _ => hrun,fun hl => (nomatch (line_of_event _ hl)),
      fun hflag f hf hb => ?_,hw.hooked⟩
    rcases List.mem_cons.mp hf with rfl | hf
    · exact ⟨hcall,rfl⟩
    · exact hold hflag f hf hb
  | tailCall f =>
    obtain ⟨rfl,hrun,rfl,caller,rest,rfl,rfl⟩ := h
    have hknown := (List.forall_mem_cons.mp hw.known).2
    refine ⟨List.forall_mem_cons.mpr ⟨hrun,hknown⟩,fun _ => hrun,fun hl => (nomatch (line_of_event _ hl)),
      fun hflag f hf hb => ?_,hw.hooked⟩
    rcases List.mem_cons.mp hf with rfl | hf
    · exact ⟨hcall,rfl⟩
    · exact hold hflag f (List.mem_cons_of_mem _ hf) hb
  | returning =>
    obtain ⟨rfl,-⟩ := h
    exact ⟨hw.known,fun hc => absurd (hcall.symm.trans hc) (by decide),fun hl => (nomatch (line_of_event _ hl)),
      fun hflag f hf hb => hold hflag f hf hb,hw.hooked⟩
  | tailReturning =>
    obtain ⟨-,rfl,-⟩ := h
    exact ⟨hw.known,fun hc => absurd (hcall.symm.trans hc) (by decide),fun hl => (nomatch (line_of_event _ hl)),
      fun hflag f hf hb => hold hflag f hf hb,hw.hooked⟩
  | line n =>
    obtain ⟨f,rest,rfl,hlua,rfl,rfl⟩ := h
    obtain ⟨hf,hrest⟩ := List.forall_mem_cons.mp hw.known
    refine ⟨List.forall_mem_cons.mpr ⟨hf,hrest⟩,fun _ => hf,fun _ => ⟨hf,hlua⟩,
      fun hflag g hg hb => ?_,hw.hooked⟩
    rcases List.mem_cons.mp hg with rfl | hg
    · exact hold hflag f List.mem_cons_self hb
    · exact hold hflag g (List.mem_cons_of_mem _ hg) hb

/-- Without a hook call only the stack changes, and never by a call. -/
theorem watched_silent (e : LuaEvent) (hw : Watched b L stack vm)
    (h : stackAt v b stack e stack' ar) (hd : delivers v (b.hook L) (eventOf v e) = false) :
    Watched b L stack' vm := by
  have he := entering_event e hw h
  have hcall : getIsHookEventCall v (eventOf v e) = false := by
    rcases hw.hooked with hm | ⟨-,hm⟩
    · simp [hm, delivers] at hd
    · cases hmode : b.hook L with
      | none => exact absurd hmode hm
      | callsOnly => simpa [hmode, delivers] using hd
      | callsAndReturns =>
        have hline : eventOf v e = Event.hookLine := by simpa [hmode, delivers] using hd
        rw [hline, not_call_line]
      | full => simp [hmode, delivers] at hd
  refine ⟨hw.found,he.known,hw.flag,fun hflag f hf => ?_,hw.hooked⟩
  by_contra hb
  obtain ⟨hc,-⟩ := he.clear hflag f hf (by simpa using hb)
  rw [hcall] at hc
  cases hc

theorem invariant_luaStep {s s' : Session} (env : Environment) (e : LuaEvent)
    (hi : Invariant L s) (hs : LuaStep v L s env e s') (hc : env.checkstack 2 = true) :
    Invariant L s' := by
  obtain ⟨vm,hw⟩ := hi
  obtain ⟨ar,reason,hat,hrest⟩ := hs
  have he := entering_event e hw hat
  unfold notify at hrest
  split at hrest
  · obtain ⟨b',vm',reason',heq,hscripts,hnames,hvm,hact,hclear,hmode⟩ :=
      hookCallback_spec ⟨env,s'.stack⟩ hw.found hc he
    cases heq.symm.trans hrest
    refine ⟨vm',hvm,fun f hf => (runnable_congr hscripts hnames f).mpr (he.known f hf),?_,
      fun hflag f hf => ?_,hmode⟩
    · rw [hact, anyBreakpoint_congr hscripts]
      exact hw.flag
    · rw [breakable_congr hscripts hnames]
      exact hclear hflag f hf
  · rename_i hd
    rw [Option.some.injEq, Prod.mk.injEq] at hrest
    rw [Invariant, ← hrest.1]
    exact ⟨vm,watched_silent e hw hat (by simpa using hd)⟩

end LuaEvents

section Commands

variable {b b' : DebugBackend} {L : LuaState} {stack : List LuaDebug} {vm vm' : VirtualMachine}

theorem watched_put (hw : Watched b L stack vm) (hs : b'.scripts = b.scripts)
    (hn : b'.nameToScript = b.nameToScript) (hf : b'.getVm L = some vm')
    (hact : vm'.haveActiveBreakpoints = vm.haveActiveBreakpoints)
    (hflag : vm'.breakpointInStack = vm.breakpointInStack)
    (hhook : b'.hook L = .full ∨ b'.hook L = b.hook L) : Watched b' L stack vm' := by
  refine ⟨hf,fun f hm => (runnable_congr hs hn f).mpr (hw.known f hm),?_,fun h f hm => ?_,?_⟩
  · rw [hact, anyBreakpoint_congr hs]
    exact hw.flag
  · rw [breakable_congr hs hn]
    exact hw.cached (hflag ▸ h) f hm
  · rcases hhook with h | h
    · exact .inl h
    · rw [h, hact, hflag]
      exact hw.hooked

theorem watched_command (hw : Watched b L stack vm) (f : VirtualMachine → VirtualMachine)
    (hact : ∀ vm, (f vm).haveActiveBreakpoints = vm.haveActiveBreakpoints)
    (hflag : ∀ vm, (f vm).breakpointInStack = vm.breakpointInStack) :
    Watched (b.modifyVm L f) L stack (f vm) ∧
      Watched ((b.modifyVm L f).setHookMode L .full) L stack (f vm) := by
  have hget : (b.modifyVm L f).getVm L = some (f vm) := by
    rw [DebugBackend.getVm_modifyVm, hw.found]
    rfl
  exact ⟨watched_put hw rfl rfl hget (hact vm) (hflag vm) (.inr rfl),
    watched_put hw rfl rfl hget (hact vm) (hflag vm) (.inl (DebugBackend.hook_setHookMode _ _ _))⟩

theorem watched_stepWith (hw : Watched b L stack vm) (callCount : ℕ) (mode : Mode) :
    Watched (stepWith b L callCount mode) L stack
      {vm with callCount := callCount, mode := mode, breakEvent := true} :=
  (watched_command hw (fun vm => {vm with callCount := callCount, mode := mode, breakEvent := true})
    (fun _ => rfl) (fun _ => rfl)).2

theorem watched_continue (hw : Watched b L stack vm) :
    Watched (continueVm b L) L stack {vm with callCount := 0, mode := .continue, breakEvent := true} :=
  (watched_command hw (fun vm => {vm with callCount := 0, mode := .continue, breakEvent := true})
    (fun _ => rfl) (fun _ => rfl)).1

theorem watched_break (hw : Watched b L stack vm) :
    Watched (breakVm b L) L stack {vm with mode := .stepInto} :=
  (watched_command hw (fun vm => {vm with mode := .stepInto}) (fun _ => rfl) (fun _ => rfl)).2

theorem watched_resumed (hw : Watched b L stack vm) (r : Reading) (ar : LuaDebug) :
    ∃ vm', Watched (resumed b L r ar) L stack vm' := by
  have hsame := watched_command hw (fun vm =>
    if vm.luaJitWorkAround then
      {vm with callStackDepth := r.stack.length, lastStepLine := ar.currentline,
               lastStepScript := scriptIndex b ar}
    else vm)
  exact ⟨_,(hsame (fun m => by split <;> rfl) (fun m => by split <;> rfl)).1⟩

structure Fewer (b b' : DebugBackend) : Prop where
  names : b'.nameToScript = b.nameToScript
  length : b'.scripts.length = b.scripts.length
  subset : ∀ (i : ℕ) (s' : Script), b'.scripts[i]? = some s' →
    ∃ s : Script, b.scripts[i]? = some s ∧ ∀ x ∈ s'.breakpoints, x ∈ s.breakpoints

theorem runnable_of_length {ar : LuaDebug} (h : Runnable b ar)
    (hn : b'.nameToScript = b.nameToScript) (hl : b'.scripts.length = b.scripts.length) :
    Runnable b' ar := by
  rcases h with h | ⟨h,hlines⟩
  · exact .inl h
  · refine .inr ⟨?_,hlines⟩
    unfold script DebugBackend.getScriptIndex at h ⊢
    rw [hn]
    cases hi : b.nameToScript.lookup ar.source with
    | none => simp [hi] at h
    | some i => simpa [hi, hl] using h

theorem breakable_mono (h : Fewer b b') (ar : LuaDebug) (hb : breakable b' ar = true) :
    breakable b ar = true := by
  obtain ⟨hlua,hb⟩ := Bool.and_eq_true_iff.mp hb
  refine Bool.and_eq_true_iff.mpr ⟨hlua,?_⟩
  unfold hasBreakpoint script DebugBackend.getScriptIndex at hb ⊢
  rw [h.names] at hb
  cases hi : b.nameToScript.lookup ar.source with
  | none => simp [hi] at hb
  | some i =>
    cases hs : b'.scripts[i]? with
    | none => simp [hi, hs] at hb
    | some s' =>
      obtain ⟨s,hget,hsub⟩ := h.subset i s' hs
      simp only [hi, Option.bind_some, hs, hget, Bool.or_eq_true, Bool.and_eq_true] at hb ⊢
      rcases hb with hr | ⟨⟨hne,h0⟩,h1⟩
      · obtain ⟨x,hx,hr⟩ := List.any_eq_true.mp hr
        exact .inl (List.any_eq_true.mpr ⟨x,hsub x hx,hr⟩)
      · refine .inr ⟨⟨?_,h0⟩,h1⟩
        have hne : s'.breakpoints ≠ [] := by simpa [Script.hasBreakpointsActive] using hne
        obtain ⟨x,hx⟩ := List.exists_mem_of_ne_nil _ hne
        have hs : s.breakpoints ≠ [] := List.ne_nil_of_mem (hsub x hx)
        simpa [Script.hasBreakpointsActive] using hs

theorem cached_mono (hw : Watched b L stack vm) (h : Fewer b b')
    (hflag : vm.breakpointInStack = false) (ar : LuaDebug) (hm : ar ∈ stack) :
    breakable b' ar = false := by
  by_contra hb
  have := breakable_mono h ar (by simpa using hb)
  rw [hw.cached hflag ar hm] at this
  cases this

theorem anyBreakpoint_of_breakable (ar : LuaDebug) (h : breakable b ar = true) :
    AnyBreakpoint b := by
  obtain ⟨-,h⟩ := Bool.and_eq_true_iff.mp h
  unfold hasBreakpoint at h
  cases hs : script b ar.source with
  | none => simp [hs] at h
  | some s =>
    obtain ⟨i,-,hi⟩ := Option.bind_eq_some_iff.mp hs
    refine ⟨s,List.mem_of_getElem? hi,fun hnil => ?_⟩
    simp [hs, Script.hasBreakPointInRange, Script.hasBreakpointsActive, hnil] at h

theorem hook_ne_none (hw : Watched b L stack vm) : b.hook L ≠ .none := by
  rcases hw.hooked with h | ⟨-,h⟩
  · rw [h]
    decide
  · exact h

theorem full_or_off (hw : Watched b L stack vm) (p : Prop) (hp : p) :
    b.hook L = .full ∨ (p ∧ b.hook L ≠ .none) := .inr ⟨hp,hook_ne_none hw⟩

theorem watched_deleteAll (hw : Watched b L stack vm) :
    Watched b.deleteAllBreakpoints L stack (vm.setActive false) := by
  have hnone : ¬ AnyBreakpoint b.deleteAllBreakpoints := by
    simp [AnyBreakpoint, DebugBackend.deleteAllBreakpoints, DebugBackend.setHaveActiveBreakpoints,
      DebugBackend.modifyVms]
  have hget : b.deleteAllBreakpoints.getVm L = some (vm.setActive false) := by
    rw [DebugBackend.deleteAllBreakpoints, DebugBackend.getVm_setHaveActiveBreakpoints]
    exact congrArg _ hw.found
  have hlen : b.deleteAllBreakpoints.scripts.length = b.scripts.length := by
    simp [DebugBackend.deleteAllBreakpoints, DebugBackend.setHaveActiveBreakpoints,
      DebugBackend.modifyVms]
  refine ⟨hget,fun f hf => runnable_of_length (hw.known f hf) rfl hlen,
    iff_of_false Bool.false_ne_true hnone,fun _ f _ => ?_,full_or_off hw _ (.inl rfl)⟩
  by_contra hb
  exact hnone (anyBreakpoint_of_breakable f (by simpa using hb))

theorem fewer_erase {s : Script} {i : ℕ} {line : UInt32} (hs : b.scripts[i]? = some s)
    (hset : (s.toggleBreakpoint line).2 = false)
    (hscripts : b'.scripts = b.scripts.set i (s.toggleBreakpoint line).1)
    (hn : b'.nameToScript = b.nameToScript) : Fewer b b' := by
  have herase : ∀ x ∈ (s.toggleBreakpoint line).1.breakpoints, x ∈ s.breakpoints := by
    unfold Script.toggleBreakpoint at hset ⊢
    split
    · exact fun x hx => List.mem_of_mem_erase hx
    · simp_all
  refine ⟨hn,by rw [hscripts, List.length_set],fun j s' hj => ?_⟩
  rw [hscripts, List.getElem?_set] at hj
  split at hj
  · rename_i hij
    subst hij
    split at hj
    · cases hj
      exact ⟨s,hs,herase⟩
    · cases hj
  · exact ⟨s',hj,fun x hx => hx⟩

theorem watched_set {M : LuaState} {i : ℕ} {line : UInt32} {s : Script} (hw : Watched b L stack vm)
    (hs : b.scripts[i]? = some s) (hset : (s.toggleBreakpoint line).2 = true)
    (h : b.toggleBreakpoint M i line = some b') : Watched b' L stack (vm.setActive true) := by
  obtain ⟨hi,-⟩ := List.getElem?_eq_some_iff.mp hs
  rw [DebugBackend.toggleBreakpoint_set hs hset] at h
  cases h
  set c : DebugBackend := {b with scripts := b.scripts.set i (s.toggleBreakpoint line).1} with hc
  have hget : c.getVm L = some vm := hw.found
  refine ⟨?_,fun f hf => runnable_of_length (hw.known f hf) rfl (List.length_set ..),
    iff_of_true rfl ⟨_,List.mem_set hi _,toggleBreakpoint_set s line hset⟩,
    fun hflag => absurd hflag (by simp [VirtualMachine.setActive]),.inl ?_⟩
  · rw [DebugBackend.getVm_report, DebugBackend.getVm_setHaveActiveBreakpoints, hget]
    rfl
  · exact DebugBackend.hook_setHaveActiveBreakpoints c L (by rw [hget]; rfl)

theorem watched_unset {M : LuaState} {i : ℕ} {line : UInt32} {s : Script} (hw : Watched b L stack vm)
    (hs : b.scripts[i]? = some s) (hset : (s.toggleBreakpoint line).2 = false)
    (h : b.toggleBreakpoint M i line = some b') : ∃ vm', Watched b' L stack vm' := by
  obtain ⟨hi,hget⟩ := List.getElem?_eq_some_iff.mp hs
  have hany : AnyBreakpoint b :=
    ⟨s,hget ▸ List.getElem_mem hi,toggleBreakpoint_unset s line hset⟩
  rw [DebugBackend.toggleBreakpoint_unset hs hset] at h
  set c : DebugBackend := {b with scripts := b.scripts.set i (s.toggleBreakpoint line).1} with hc
  have hfewer : Fewer b c := fewer_erase hs hset rfl rfl
  have hknown : ∀ f ∈ stack, Runnable c f :=
    fun f hf => runnable_of_length (hw.known f hf) rfl (List.length_set ..)
  cases hact : c.getHaveActiveBreakpoints with
  | true =>
    simp only [hact, if_true] at h
    cases h
    have hc' : AnyBreakpoint c := (getHaveActiveBreakpoints_iff c).mp hact
    exact ⟨vm,hw.found,hknown,iff_of_true (hw.flag.mpr hany) hc',
      fun hflag f hf => cached_mono hw hfewer hflag f hf,hw.hooked⟩
  | false =>
    simp only [hact, Bool.false_eq_true, if_false] at h
    cases h
    have hc' : ¬ AnyBreakpoint c := by
      rw [← getHaveActiveBreakpoints_iff, hact]
      decide
    refine ⟨{vm with haveActiveBreakpoints := false},?_,hknown,iff_of_false Bool.false_ne_true hc',
      fun hflag f hf => cached_mono hw hfewer hflag f hf,full_or_off hw _ (.inr rfl)⟩
    have hmap := DebugBackend.getVm_modifyVms c L (fun vm => {vm with haveActiveBreakpoints := false})
    exact hmap.trans (congrArg _ hw.found)

theorem watched_toggle {M : LuaState} {i : ℕ} {line : UInt32} (hw : Watched b L stack vm)
    (h : b.toggleBreakpoint M i line = some b') : ∃ vm', Watched b' L stack vm' := by
  obtain ⟨s,hs,-⟩ := DebugBackend.toggleBreakpoint_script h
  cases hset : (s.toggleBreakpoint line).2 with
  | true => exact ⟨_,watched_set hw hs hset h⟩
  | false => exact watched_unset hw hs hset h

end Commands

/-- The condition on a step: the hook gets the stack space it asks for. -/
def Roomy (_ : Session) : Action → Prop
  | .lua env _ => env.checkstack 2 = true
  | _ => True

theorem watched_tail (b : DebugBackend) (L : LuaState) (top caller : LuaDebug)
    (rest : List LuaDebug) (vm : VirtualMachine) (hw : Watched b L (top::caller::rest) vm) :
    Watched b L (top::tailFrame::rest) vm := by
  obtain ⟨htop,hrest⟩ := List.forall_mem_cons.mp hw.known
  refine ⟨hw.found,List.forall_mem_cons.mpr ⟨htop,List.forall_mem_cons.mpr
    ⟨.inl rfl,(List.forall_mem_cons.mp hrest).2⟩⟩,hw.flag,fun hflag f hf => ?_,hw.hooked⟩
  rcases List.mem_cons.mp hf with rfl | hf
  · exact hw.cached hflag _ List.mem_cons_self
  · rcases List.mem_cons.mp hf with rfl | hf
    · exact not_breakable_c rfl
    · exact hw.cached hflag f (List.mem_cons_of_mem _ (List.mem_cons_of_mem _ hf))

theorem invariant_step (v : Version) (L : LuaState) (s : Session) (a : Action) (s' : Session)
    (hi : Invariant L s) (hs : Step v L s a s') (hc : Roomy s a) : Invariant L s' := by
  obtain ⟨vm,hw⟩ := hi
  obtain ⟨b',stack'⟩ := s'
  cases a with
  | lua env e => exact invariant_luaStep env e ⟨vm,hw⟩ hs hc
  | lose =>
    obtain ⟨-,rfl,top,caller,rest,hstack,rfl⟩ := hs
    rw [hstack] at hw
    exact ⟨vm,watched_tail _ _ _ _ _ _ hw⟩
  | drop =>
    obtain ⟨rfl,top,hstack⟩ := hs
    rw [hstack] at hw
    exact ⟨vm,hw.found,(List.forall_mem_cons.mp hw.known).2,hw.flag,
      fun hflag f hf => hw.cached hflag f (List.mem_cons_of_mem _ hf),hw.hooked⟩
  | resumed env =>
    obtain ⟨rfl,ar,rest,-,rfl⟩ := hs
    exact watched_resumed hw _ ar
  | toggle M i line =>
    obtain ⟨rfl,h⟩ := hs
    exact watched_toggle hw h
  | deleteAll =>
    cases hs
    exact ⟨_,watched_deleteAll hw⟩
  | «continue» =>
    cases hs
    exact ⟨_,watched_continue hw⟩
  | stepInto =>
    cases hs
    exact ⟨_,watched_stepWith hw 0 .stepInto⟩
  | stepOver =>
    cases hs
    exact ⟨_,watched_stepWith hw 0 .stepOver⟩
  | stepOut =>
    cases hs
    exact ⟨_,watched_stepWith hw 1 .stepOut⟩
  | «break» =>
    cases hs
    exact ⟨_,watched_break hw⟩

def Attached (L : LuaState) (s : Session) : Prop :=
  s.b.hook L = .full ∧ (∀ ar ∈ s.stack, Runnable s.b ar) ∧ ∃ vm, s.b.getVm L = some vm ∧
    vm.breakpointInStack = true ∧ (vm.haveActiveBreakpoints = true ↔ AnyBreakpoint s.b)

theorem invariant_attached (L : LuaState) (s : Session) (h : Attached L s) : Invariant L s := by
  obtain ⟨hfull,hknown,vm,hvm,hflag,hact⟩ := h
  exact ⟨vm,hvm,hknown,hact,fun hf => absurd (hflag.symm.trans hf) (by decide),.inl hfull⟩

def OnBreakpoint (b : DebugBackend) (ar : LuaDebug) : Prop :=
  ar.linedefined ≠ -1 ∧
  ((ar.linedefined ≤ ar.currentline ∧ ar.currentline ≤ ar.lastlinedefined) ∨
    (ar.linedefined = 0 ∧ ar.lastlinedefined = 0)) ∧
  ∃ s, script b ar.source = some s ∧ s.getHasBreakPoint (unsigned (ar.currentline-1)) = true

def Noted (vm : VirtualMachine) (b : DebugBackend) (ar : LuaDebug) (depth : ℕ) : Prop :=
  (vm.initialized = false ∨ vm.luaJitWorkAround = true) ∧
    onLastStepLine {vm with luaJitWorkAround := true} (scriptIndex b ar) ar.currentline depth = true

/-- The line event is delivered and stops the machine, unless LuaJIT repeats it. -/
def Stops (v : Version) (L : LuaState) (b : DebugBackend) (ar : LuaDebug) : Prop :=
  b.hook L = .full ∧ ∀ vm r, b.getVm L = some vm → ¬ Noted vm b ar r.stack.length →
    r.checkstack 2 = true →
    ∃ b' reason, hookCallback v b L r Event.hookLine ar = some (b',some reason)

def Seen (v : Version) (L : LuaState) (s : Session) : Prop :=
  ∀ ar rest, s.stack = ar::rest → OnBreakpoint s.b ar → Stops v L s.b ar

/-- A breakpoint under the innermost function lies in the range some function
on the stack is tested for. -/
def Ranged (s : Session) : Prop :=
  ∀ ar rest, s.stack = ar::rest → OnBreakpoint s.b ar → ∃ f ∈ s.stack, breakable s.b f = true

theorem breakable_of_onBreakpoint {b : DebugBackend} {ar : LuaDebug} (hr : Runnable b ar)
    (h : OnBreakpoint b ar)
    (hpast : (ar.linedefined = 0 ∧ ar.lastlinedefined = 0) ∨ ar.linedefined < ar.currentline) :
    breakable b ar = true := by
  obtain ⟨hlua,hlines,s,hs,hbp⟩ := h
  rcases hr with hc | ⟨-,hstart,hend⟩
  · exact absurd hc hlua
  refine Bool.and_eq_true_iff.mpr ⟨decide_eq_true hlua,?_⟩
  rw [hasBreakpoint, hs]
  obtain ⟨u,hu,he⟩ := List.any_eq_true.mp hbp
  rw [beq_iff_eq] at he
  by_cases hmain : ar.linedefined = 0 ∧ ar.lastlinedefined = 0
  · refine Bool.or_eq_true_iff.mpr (.inr ?_)
    have hne : s.breakpoints ≠ [] := List.ne_nil_of_mem hu
    simp [Script.hasBreakpointsActive, hmain, hne]
  · have hin : ar.linedefined ≤ ar.currentline-1 ∧ ar.currentline-1 < ar.lastlinedefined := by omega
    refine Bool.or_eq_true_iff.mpr (.inl (List.any_eq_true.mpr ⟨u,hu,?_⟩))
    have h1 := unsigned_toNat hstart (by omega)
    have h2 := unsigned_toNat (i := ar.lastlinedefined) (by omega) (by omega)
    have h3 := unsigned_toNat (i := ar.currentline-1) (by omega) (by omega)
    rw [he, Bool.and_eq_true, decide_eq_true_iff, decide_eq_true_iff, UInt32.le_iff_toNat_le,
      UInt32.lt_iff_toNat_lt]
    omega

theorem adjust_line (v : Version) (b : DebugBackend) (L : LuaState) (vm : VirtualMachine)
    (stack : List LuaDebug) (ar : LuaDebug) :
    ∃ mode flag, adjust v b L vm stack Event.hookLine ar =
      (b.setHookMode L mode,{vm with breakpointInStack := flag}) := by
  unfold adjust
  split
  · refine ⟨b.hook L,vm.breakpointInStack,?_⟩
    rw [updateHookMode, if_pos rfl, DebugBackend.setHookMode_same]
  · exact ⟨.full,true,rfl⟩

theorem stopReason_some (b : DebugBackend) (vm : VirtualMachine) (ar : LuaDebug)
    (hon : OnBreakpoint b ar) : ∃ reason, stopReason b vm ar false = some reason := by
  obtain ⟨-,-,s,hs,hbp⟩ := hon
  rw [stopReason, if_neg Bool.false_ne_true, hs]
  split
  · exact ⟨.step,rfl⟩
  · exact ⟨.breakPoint,by simp only [hbp, if_true]⟩

theorem lineEvent_stops {b : DebugBackend} {ar : LuaDebug} {vm : VirtualMachine} (L : LuaState)
    (stack : List LuaDebug)
    (hlast : onLastStepLine vm (scriptIndex b ar) ar.currentline stack.length = false)
    (hon : OnBreakpoint b ar) : ∃ vm' reason, lineEvent b L vm stack ar = (b,vm',some reason) := by
  have hknown : (b.getScriptIndex ar.source).isSome = true := by
    obtain ⟨-,-,s,hs,-⟩ := hon
    obtain ⟨i,hi,-⟩ := Option.bind_eq_some_iff.mp hs
    rw [hi]
    rfl
  simp only [lineEvent, registerHooked_known hknown, hlast]
  obtain ⟨reason,hr⟩ := stopReason_some b (leave vm false stack.length) ar hon
  exact ⟨_,reason,by rw [hr]⟩

theorem not_last_of_not_noted {b : DebugBackend} {ar : LuaDebug} {vm vm' : VirtualMachine}
    {depth : ℕ} (h : ¬ Noted vm b ar depth)
    (hjit : vm'.luaJitWorkAround = vm.luaJitWorkAround ∨ vm.initialized = false)
    (hline : vm'.lastStepLine = vm.lastStepLine) (hscript : vm'.lastStepScript = vm.lastStepScript)
    (hdepth : vm'.callStackDepth = vm.callStackDepth) :
    onLastStepLine vm' (scriptIndex b ar) ar.currentline depth = false := by
  cases hon : vm'.luaJitWorkAround with
  | false => simp [onLastStepLine, hon]
  | true =>
    have hcase : vm.initialized = false ∨ vm.luaJitWorkAround = true :=
      hjit.symm.imp_right (fun h => h.symm.trans hon)
    have hn : ¬ onLastStepLine {vm with luaJitWorkAround := true} (scriptIndex b ar)
        ar.currentline depth = true := fun hl => h ⟨hcase,hl⟩
    simp only [onLastStepLine, hon, hline, hscript, hdepth] at hn ⊢
    simpa using hn

theorem stops_line {v : Version} {L : LuaState} {b : DebugBackend} {ar : LuaDebug}
    {vm : VirtualMachine} (r : Reading) (hvm : b.getVm L = some vm)
    (hd : ¬ Noted vm b ar r.stack.length) (hc : r.checkstack 2 = true) (hon : OnBreakpoint b ar) :
    ∃ b' reason, hookCallback v b L r Event.hookLine ar = some (b',some reason) := by
  obtain ⟨reports,ready,jit,name,hp,hjit⟩ := prepare_spec b L vm r Event.hookLine
  obtain ⟨mode,flag,hq⟩ := adjust_line v {b with reports := reports} L
    {vm with initialized := ready, luaJitWorkAround := jit, name := name} r.stack ar
  have hlast : onLastStepLine {vm with initialized := ready, luaJitWorkAround := jit, name := name,
                                       breakpointInStack := flag} (scriptIndex b ar)
      ar.currentline r.stack.length = false :=
    not_last_of_not_noted hd (hjit.imp_right And.left) rfl rfl rfl
  obtain ⟨vm',reason,hl⟩ :=
    lineEvent_stops (b := {b with reports := reports}.setHookMode L mode) L r.stack hlast hon
  rw [hookCallback_found v r Event.hookLine ar hvm hc, if_pos rfl, hp]
  simp only [hq, hl]
  exact ⟨_,reason,rfl⟩

/-- The range test only misses the line a function is defined on. -/
theorem ranged_of_past (L : LuaState) (s : Session) (hi : Invariant L s)
    (h : ∀ ar rest, s.stack = ar::rest →
      (ar.linedefined = 0 ∧ ar.lastlinedefined = 0) ∨ ar.linedefined < ar.currentline) :
    Ranged s := by
  obtain ⟨vm,hw⟩ := hi
  intro ar rest hstack hon
  have hmem : ar ∈ s.stack := by
    rw [hstack]
    exact List.mem_cons_self
  exact ⟨ar,hmem,breakable_of_onBreakpoint (hw.known ar hmem) hon (h ar rest hstack)⟩

theorem seen_of_invariant (v : Version) (L : LuaState) (s : Session) (hi : Invariant L s)
    (hr : Ranged s) : Seen v L s := by
  obtain ⟨vm,hw⟩ := hi
  intro ar rest hstack hon
  obtain ⟨f,hf,hb⟩ := hr ar rest hstack hon
  refine ⟨?_,fun vm' r hvm hd hc => stops_line r hvm hd hc hon⟩
  rcases hw.hooked with h | ⟨h | h,-⟩
  · exact h
  · rw [hw.cached h f hf] at hb
    cases hb
  · rw [hw.flag.mpr (anyBreakpoint_of_breakable f hb)] at h
    cases h

/-- In every state of a run, a breakpoint under the innermost function stops it
if the range test finds a breakpoint on the stack. -/
theorem breakpoint_seen (v : Version) (L : LuaState) (s : Session) (actions : List Action)
    (hs : Attached L s) (hroom : Meets (Step v L) Roomy s actions) :
    Along (Step v L) (fun t => Ranged t → Seen v L t) s actions :=
  along_of_meets (fun t hi => seen_of_invariant v L t hi) (invariant_step v L) s actions
    (invariant_attached L s hs) hroom

def idle : Environment := ⟨none,none,true,fun _ => true⟩

def attachedTo (line : UInt32) : Session where
  b := {DebugBackend.initial with
    scripts := [⟨text "a.lua",[],text "a.lua",[line],.normal⟩]
    nameToScript := [(text "@a.lua",0)]
    vms := [1]
    stateToVm := [(1,VirtualMachine.attached true)]
    hook := fun _ => .full}
  stack := []

def functionOf (first last current : ℤ) : LuaDebug :=
  ⟨some (text "f"),some (text "Lua"),text "@a.lua",current,first,last⟩

theorem attached_attachedTo (line : UInt32) : Attached 1 (attachedTo line) :=
  ⟨rfl,by simp [attachedTo],_,rfl,rfl,iff_of_true rfl ⟨_,List.mem_cons_self,List.cons_ne_nil _ _⟩⟩

theorem breakpoint_seen_body :
    Along (Step .lua52 1) (fun t => Ranged t → Seen .lua52 1 t) (attachedTo 4)
      [.lua idle (.call (functionOf 3 8 3)),.lua idle (.line 5)] :=
  breakpoint_seen .lua52 1 (attachedTo 4) _ (attached_attachedTo 4)
    (fun _ _ => ⟨rfl,fun _ _ => ⟨rfl,trivial⟩⟩)

/-- A function of one line, with a breakpoint on it, is entered. -/
theorem one_line_unseen :
    ¬ Along (Step .lua52 1) (Seen .lua52 1) (attachedTo 4)
      [.lua idle (.call (functionOf 5 5 5))] := by
  intro h
  obtain ⟨b',hhook,hmode,hon⟩ : ∃ b', hookCallback .lua52 (attachedTo 4).b 1
      ⟨idle,[functionOf 5 5 5]⟩ Event.hookCall (functionOf 5 5 5) = some (b',none) ∧
      b'.hook 1 = .callsOnly ∧ OnBreakpoint b' (functionOf 5 5 5) :=
    ⟨_,rfl,rfl,by decide,.inl ⟨le_refl _,le_refl _⟩,_,rfl,by decide⟩
  have hrun : Runnable (attachedTo 4).b (functionOf 5 5 5) := .inr ⟨by decide,by decide,by decide⟩
  have hseen := h.2 ⟨b',[functionOf 5 5 5]⟩ ⟨_,none,⟨hrun,rfl,rfl⟩,hhook⟩
  have hfull := (hseen _ _ rfl hon).1
  rw [hmode] at hfull
  cases hfull

end Vecoda.LineHook
