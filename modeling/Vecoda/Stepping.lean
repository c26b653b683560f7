import Vecoda.HookCallback
import Vecoda.Transitions

/-!
# Stepping over and out

A stepped machine runs on through calls, tail calls, returns, errors and
lines, with the hook events its Lua version delivers. A frame is `base` if it
was on the stack, or below the stepped frame, when the command was given. The
call counter is the debt of the frames above the base: each owes one return,
and in Lua 5.1 one more for every caller it lost by a tail call, except that
the lowest of them may have lost base frames, which owe nothing.
-/

set_option autoImplicit false

namespace Vecoda.Stepping
open MessagePipe LuaText Backend HookCallback Transitions

structure Frame where
  ar : LuaDebug
  tails : ℕ
  base : Bool

inductive Happening where
  | call (ar : LuaDebug)
  | tailCall (ar : LuaDebug)
  | «return»
  | unwind (n : ℕ)
  | line (n : ℤ)

structure Walk where
  b : DebugBackend
  stack : List Frame

def move : List Frame → Happening → Option (List Frame)
  | stack, .call ar => some (⟨ar,0,false⟩::stack)
  | [], .tailCall _ => none
  | f::rest, .tailCall ar =>
    if f.ar.linedefined = -1 then none else some (⟨ar,f.tails+1,false⟩::rest)
  | [], .return => none
  | _::rest, .return => some rest
  | stack, .unwind n => if n ≤ stack.length then some (stack.drop n) else none
  | [], .line _ => none
  | f::rest, .line n =>
    if f.ar.linedefined = -1 then none
    else some ({f with ar := {f.ar with currentline := n}}::rest)

def tailReturns (v : Version) (f : Frame) : ℕ := if v = .lua52 then 0 else f.tails

/-- The levels `lua_getstack` sees: up to Lua 5.1 a lost caller leaves one. -/
def levels (v : Version) (stack : List Frame) : List LuaDebug :=
  stack.flatMap (fun f => f.ar :: List.replicate (tailReturns v f) tailFrame)

def events (v : Version) : List Frame → Happening → List Frame → List (ℤ × LuaDebug)
  | _, .call ar, _ => [(Event.hookCall,ar)]
  | _, .tailCall ar, _ => [(if v = .lua52 then Event.hookTailCall else Event.hookCall,ar)]
  | f::_, .return, _ =>
    (Event.hookRet,f.ar) :: List.replicate (tailReturns v f) (Event.hookTailRet,tailFrame)
  | _, .line _, f::_ => [(Event.hookLine,f.ar)]
  | _, _, _ => []

/-- The stack during the events: a returning frame is still there, and so is
the caller that a tail call is about to lose, up to Lua 5.1. -/
def stackDuring (v : Version) (stack : List Frame) : Happening → List Frame → List Frame
  | .return, _ => stack
  | .tailCall ar, stack' => if v = .lua52 then stack' else ⟨ar,0,false⟩::stack
  | _, stack' => stack'

def notifyAll (v : Version) (L : LuaState) (r : Reading) :
    DebugBackend → List (ℤ × LuaDebug) → Option (DebugBackend × Bool)
  | b, [] => some (b,false)
  | b, (event,ar)::rest =>
    (notify v b L r event ar).bind (fun p =>
      (notifyAll v L r p.1 rest).map (fun q => (q.1,p.2.isSome || q.2)))

def enact (v : Version) (L : LuaState) (w : Walk) (h : Environment × Happening) :
    Option (Walk × Bool) :=
  (move w.stack h.2).bind (fun stack' =>
    (notifyAll v L ⟨h.1,levels v (stackDuring v w.stack h.2 stack')⟩ w.b
      (events v w.stack h.2 stack')).map
      (fun p => (⟨p.1,stack'⟩,p.2)))

def Step (v : Version) (L : LuaState) (w : Walk) (h : Environment × Happening) (w' : Walk) : Prop :=
  enact v L w h = some (w',false)

def firstStop (v : Version) (L : LuaState) : Walk → List (Environment × Happening) → Option ℕ
  | _, [] => none
  | w, h::hs =>
    match enact v L w h with
    | none => none
    | some (_,true) => some 0
    | some (w',false) => (firstStop v L w' hs).map (· + 1)

def lineInBase : List Frame → Happening → Bool
  | f::_, .line _ => f.base && f.ar.linedefined ≠ -1
  | _, _ => false

def firstBaseLine : List Frame → List (Environment × Happening) → Option ℕ
  | _, [] => none
  | stack, h::hs =>
    if lineInBase stack h.2 then some 0
    else match move stack h.2 with
      | none => none
      | some stack' => (firstBaseLine stack' hs).map (· + 1)

/-- What stepping over a line takes for granted: stack space for the hook, no LuaJIT, and
no breakpoint on a line that is executed. -/
def Quiet (L : LuaState) (w : Walk) (h : Environment × Happening) : Prop :=
  h.1.checkstack 2 = true ∧ (∀ version, h.1.jitVersion = some version → version < 20000) ∧
  ∀ n f rest, h.2 = .line n → w.stack = f::rest →
    ∀ s, script (w.b.registerHooked L {f.ar with currentline := n}) f.ar.source = some s →
      s.getHasBreakPoint (unsigned (n-1)) = false

/-- Errors, and outside Lua 5.1 tail calls, do not lose a frame above the base. -/
def Counted (v : Version) (w : Walk) (h : Environment × Happening) : Prop :=
  match h.2 with
  | .tailCall _ => v = .lua51 ∨ ∀ f ∈ w.stack.head?, f.base = true
  | .unwind n => n = 0 ∨ ∀ f ∈ w.stack.head?, f.base = true
  | _ => True

def lost (v : Version) (f : Frame) : ℕ := if v = .lua51 then f.tails else 0

/-- What a stack owes: the returns still to come before its base is on top. -/
def Owed (v : Version) : List Frame → ℕ → Prop
  | [], c => c = 0
  | f::rest, c =>
    if f.base then c = 0 ∧ ∀ g ∈ rest, g.base = true
    else ∃ k c', c = k + c' ∧ 1 ≤ k ∧ k ≤ 1 + lost v f ∧ (c' ≠ 0 → k = 1 + lost v f) ∧ Owed v rest c'

theorem owed_base (v : Version) (stack : List Frame) (h : ∀ f ∈ stack, f.base = true) :
    Owed v stack 0 := by
  cases stack with
  | nil => rfl
  | cons f rest =>
    obtain ⟨hf,hrest⟩ := List.forall_mem_cons.mp h
    rw [Owed, if_pos hf]
    exact ⟨rfl,hrest⟩

theorem owed_cons_base {v : Version} {f : Frame} {rest : List Frame} {c : ℕ}
    (h : Owed v (f::rest) c) (hf : f.base = true) : c = 0 ∧ ∀ g ∈ f::rest, g.base = true := by
  rw [Owed, if_pos hf] at h
  exact ⟨h.1,List.forall_mem_cons.mpr ⟨hf,h.2⟩⟩

theorem owed_fresh (v : Version) (f : Frame) (rest : List Frame) (c : ℕ) (hf : f.base = false) :
    Owed v (f::rest) c ↔ ∃ k c', c = k + c' ∧ 1 ≤ k ∧ k ≤ 1 + lost v f ∧
      (c' ≠ 0 → k = 1 + lost v f) ∧ Owed v rest c' := by
  rw [Owed, if_neg (by simp [hf])]

def counted (v : Version) (stack : List Frame) (h : Happening) (c : ℕ) : ℕ :=
  match h, stack with
  | .call _, _ => c+1
  | .tailCall _, _ => c+1
  | .return, f::_ => c - (1 + lost v f)
  | _, _ => c

theorem owed_call {v : Version} {stack : List Frame} {c : ℕ} (ar : LuaDebug)
    (ho : Owed v stack c) : Owed v (⟨ar,0,false⟩::stack) (c+1) := by
  have hl : lost v ⟨ar,0,false⟩ = 0 := by simp [lost]
  rw [owed_fresh v _ _ _ rfl, hl]
  exact ⟨1,c,by omega,le_refl _,le_refl _,fun _ => rfl,ho⟩

theorem owed_tailCall {v : Version} {f : Frame} {rest : List Frame} {c : ℕ} (ar : LuaDebug)
    (ho : Owed v (f::rest) c) (hc : v = .lua51 ∨ f.base = true) :
    Owed v (⟨ar,f.tails+1,false⟩::rest) (c+1) := by
  rw [owed_fresh v _ _ _ rfl]
  cases hf : f.base with
  | true =>
    obtain ⟨rfl,hall⟩ := owed_cons_base ho hf
    exact ⟨1,0,rfl,le_refl _,by omega,fun h => absurd rfl h,
      owed_base v rest (List.forall_mem_cons.mp hall).2⟩
  | false =>
    have hv : v = .lua51 := by
      rcases hc with h | h
      · exact h
      · rw [hf] at h
        cases h
    obtain ⟨k,c',rfl,h1,hk,hfull,hrest⟩ := (owed_fresh v f rest c hf).mp ho
    have hl : lost v ⟨ar,f.tails+1,false⟩ = lost v f + 1 := by simp [lost, hv]
    rw [hl]
    exact ⟨k+1,c',by omega,by omega,by omega,fun h => by rw [hfull h]; omega,hrest⟩

theorem owed_return {v : Version} {f : Frame} {rest : List Frame} {c : ℕ}
    (ho : Owed v (f::rest) c) : Owed v rest (c - (1 + lost v f)) := by
  cases hf : f.base with
  | true =>
    obtain ⟨rfl,hall⟩ := owed_cons_base ho hf
    rw [Nat.zero_sub]
    exact owed_base v rest (List.forall_mem_cons.mp hall).2
  | false =>
    obtain ⟨k,c',rfl,h1,hk,hfull,hrest⟩ := (owed_fresh v f rest c hf).mp ho
    by_cases hz : c' = 0
    · subst hz
      have h0 : k + 0 - (1 + lost v f) = 0 := by omega
      rwa [h0]
    · have hk' := hfull hz
      have h0 : k + c' - (1 + lost v f) = c' := by omega
      rwa [h0]

theorem owed_drop {v : Version} {stack : List Frame} {c : ℕ} (n : ℕ) (ho : Owed v stack c)
    (hc : n = 0 ∨ ∀ f ∈ stack.head?, f.base = true) : Owed v (stack.drop n) c := by
  rcases hc with rfl | hc
  · exact ho
  · cases stack with
    | nil => simpa using ho
    | cons f rest =>
      obtain ⟨rfl,hall⟩ := owed_cons_base ho (hc f rfl)
      exact owed_base v _ (fun g hg => hall g (List.mem_of_mem_drop hg))

theorem owed_line {v : Version} {f : Frame} {rest : List Frame} {c : ℕ} (ar : LuaDebug)
    (ho : Owed v (f::rest) c) : Owed v ({f with ar := ar}::rest) c := ho

theorem owed_step {v : Version} {stack stack' : List Frame} {h : Happening} {c : ℕ}
    {env : Environment} {b : DebugBackend} (ho : Owed v stack c) (hm : move stack h = some stack')
    (hc : Counted v ⟨b,stack⟩ (env,h)) : Owed v stack' (counted v stack h c) := by
  cases h with
  | call ar =>
    cases hm
    exact owed_call ar ho
  | tailCall ar =>
    cases stack with
    | nil => cases hm
    | cons f rest =>
      simp only [move] at hm
      split at hm
      · cases hm
      · cases hm
        exact owed_tailCall ar ho (hc.imp_right (fun h => h f rfl))
  | «return» =>
    cases stack with
    | nil => cases hm
    | cons f rest =>
      cases hm
      exact owed_return ho
  | unwind n =>
    simp only [move] at hm
    split at hm
    · cases hm
      exact owed_drop n ho hc
    · cases hm
  | line n =>
    cases stack with
    | nil => cases hm
    | cons f rest =>
      simp only [move] at hm
      split at hm
      · cases hm
      · cases hm
        exact owed_line _ ho

theorem owed_zero_iff {v : Version} {f : Frame} {rest : List Frame} {c : ℕ}
    (ho : Owed v (f::rest) c) : c = 0 ↔ f.base = true := by
  cases hf : f.base with
  | true => exact iff_of_true (owed_cons_base ho hf).1 rfl
  | false =>
    obtain ⟨k,c',rfl,h1,-⟩ := (owed_fresh v f rest c hf).mp ho
    exact iff_of_false (by omega) (by decide)

/-- The machine runs on after a step command, with the counter at `c`. -/
structure Stepped (vm : VirtualMachine) (c : ℕ) : Prop where
  mode : vm.mode = .stepOver ∨ vm.mode = .stepOut
  jit : vm.luaJitWorkAround = false
  callCount : vm.callCount = c

def Pending (b : DebugBackend) (L : LuaState) (c : ℕ) : Prop :=
  b.hook L = .full ∧ ∃ vm, b.getVm L = some vm ∧ Stepped vm c

def tick (v : Version) (event : ℤ) (c : ℕ) : ℕ :=
  if getIsHookEventRet v event then c-1 else if getIsHookEventCall v event then c+1 else c

theorem stepped_count {vm : VirtualMachine} {c : ℕ} (v : Version) (event : ℤ) (h : Stepped vm c) :
    Stepped (count vm v event) (tick v event c) := by
  obtain ⟨hmode,hjit,rfl⟩ := h
  have hstep : (vm.mode = .stepOver || vm.mode = .stepOut) = true := by simpa using hmode
  rw [count, if_pos hstep, tick]
  split
  · exact ⟨hmode,hjit,rfl⟩
  · split <;> exact ⟨hmode,hjit,rfl⟩

theorem stepped_stops {vm : VirtualMachine} {c : ℕ} (h : Stepped vm c) :
    stepStops vm = decide (c = 0) := by
  obtain ⟨hmode,-,rfl⟩ := h
  rcases hmode with h | h <;> simp [stepStops, h]

theorem stepped_adjust {vm : VirtualMachine} {c : ℕ} (v : Version) (b : DebugBackend) (L : LuaState)
    (stack : List LuaDebug) (event : ℤ) (ar : LuaDebug) (h : Stepped vm c) :
    adjust v b L vm stack event ar = (b.setHookMode L .full,{vm with breakpointInStack := true}) := by
  have hmode : vm.mode ≠ .continue := by
    rcases h.mode with h | h <;> rw [h] <;> decide
  rw [adjust, if_neg hmode]

theorem pending_put {b : DebugBackend} {L : LuaState} {vm : VirtualMachine} {c : ℕ}
    (hfull : b.hook L = .full) (hvm : (b.getVm L).isSome = true) (h : Stepped vm c) :
    Pending (b.putVm L vm) L c := by
  obtain ⟨old,hold⟩ := Option.isSome_iff_exists.mp hvm
  refine ⟨hfull,vm,?_,h⟩
  rw [DebugBackend.putVm, DebugBackend.getVm_modifyVm, hold]
  rfl

/-- The events of a machine that steps all reach `HookCallback`, past its preparations. -/
theorem notify_pending {v : Version} {b : DebugBackend} {L : LuaState} {c : ℕ} (r : Reading)
    (event : ℤ) (ar : LuaDebug) (hs : Pending b L c) (hc : r.checkstack 2 = true)
    (hversion : event = Event.hookLine → ∀ n, r.jitVersion = some n → n < 20000) :
    ∃ b' vm, (b'.scripts = b.scripts ∧ b'.nameToScript = b.nameToScript) ∧ b'.hook L = .full ∧
      (b'.getVm L).isSome = true ∧ Stepped vm c ∧ notify v b L r event ar =
        if event = Event.hookLine then
          some ((lineEvent b' L vm r.stack ar).1.putVm L (lineEvent b' L vm r.stack ar).2.1,
            (lineEvent b' L vm r.stack ar).2.2)
        else some (b'.putVm L (count vm v event),none) := by
  obtain ⟨hfull,vm,hvm,hstep⟩ := hs
  obtain ⟨reports,ready,jit,name,hp,hj⟩ := prepare_spec b L vm r event
  have hjit : jit = false := by
    rcases hj with h | ⟨-,hline,n,hn,hle⟩
    · rw [h, hstep.jit]
    · exact absurd (hversion hline n hn) (not_lt.mpr hle)
  have hprepared : Stepped {vm with initialized := ready, luaJitWorkAround := jit, name := name} c :=
    ⟨hstep.mode,hjit,hstep.callCount⟩
  refine ⟨{b with reports := reports}.setHookMode L .full,
    {vm with initialized := ready, luaJitWorkAround := jit, name := name, breakpointInStack := true},
    ⟨rfl,rfl⟩,DebugBackend.hook_setHookMode _ _ _,?_,⟨hstep.mode,hjit,hstep.callCount⟩,?_⟩
  · exact Option.isSome_iff_exists.mpr ⟨vm,hvm⟩
  · rw [notify, hfull, delivers, if_pos rfl, hookCallback_found v r event ar hvm hc, hp]
    simp only [stepped_adjust v _ L r.stack event ar hprepared]

theorem notify_other {v : Version} {b : DebugBackend} {L : LuaState} {c : ℕ} {event : ℤ}
    (r : Reading) (ar : LuaDebug) (hs : Pending b L c) (hc : r.checkstack 2 = true)
    (hev : event ≠ Event.hookLine) :
    ∃ b', notify v b L r event ar = some (b',none) ∧ Pending b' L (tick v event c) := by
  obtain ⟨b',vm,-,hfull,hvm,hstep,h⟩ :=
    notify_pending (v := v) r event ar hs hc (fun hline => absurd hline hev)
  rw [if_neg hev] at h
  exact ⟨_,h,pending_put hfull hvm (stepped_count v event hstep)⟩

section Scripts

variable {b b' : DebugBackend} (hs : b'.scripts = b.scripts) (hn : b'.nameToScript = b.nameToScript)

include hs hn

theorem registerScript_scripts (L : LuaState) (source name : Option Bytes) (unavailable : Bool) :
    let r := (b.registerScript L source name unavailable).1
    let r' := (b'.registerScript L source name unavailable).1
    r'.scripts = r.scripts ∧ r'.nameToScript = r.nameToScript := by
  intro r r'
  by_cases hknown : (b.nameToScript.lookup (name.getD (cstr (source.getD [])))).isSome = true
  · simp [r, r', DebugBackend.registerScript, DebugBackend.getScriptIndex, hs, hn, hknown]
  · cases hfind : b.scripts.findIdx? (fun s => s.title =
        DebugBackend.getFileTitle (name.getD (cstr (source.getD []))) && s.source = source.getD []) <;>
      simp [r, r', DebugBackend.registerScript, DebugBackend.getScriptIndex, DebugBackend.report, hs,
        hn, hknown, hfind]

theorem registerHooked_scripts (L : LuaState) (ar : LuaDebug) :
    (b'.registerHooked L ar).scripts = (b.registerHooked L ar).scripts ∧
      (b'.registerHooked L ar).nameToScript = (b.registerHooked L ar).nameToScript := by
  by_cases hknown : (b.getScriptIndex ar.source).isSome = true
  · have hknown' : (b'.getScriptIndex ar.source).isSome = true := by
      simpa only [DebugBackend.getScriptIndex, hn] using hknown
    rw [registerHooked_known hknown, registerHooked_known hknown']
    exact ⟨hs,hn⟩
  · have hknown' : ¬ (b'.getScriptIndex ar.source).isSome = true := by
      simpa only [DebugBackend.getScriptIndex, hn] using hknown
    rw [DebugBackend.registerHooked, if_neg hknown', DebugBackend.registerHooked, if_neg hknown]
    exact registerScript_scripts hs hn _ _ _ _

theorem script_registered (L : LuaState) (ar : LuaDebug) (source : Bytes) :
    script (b'.registerHooked L ar) source = script (b.registerHooked L ar) source := by
  have h := registerHooked_scripts hs hn L ar
  simp only [script, DebugBackend.getScriptIndex, h.1, h.2]

end Scripts

theorem stepped_line {b : DebugBackend} {L : LuaState} {vm : VirtualMachine} {c : ℕ}
    (stack : List LuaDebug) (ar : LuaDebug) (h : Stepped vm c)
    (hbp : ∀ s, script (b.registerHooked L ar) ar.source = some s →
      s.getHasBreakPoint (unsigned (ar.currentline-1)) = false) :
    lineEvent b L vm stack ar = (b.registerHooked L ar,vm,if c = 0 then some .step else none) := by
  have hlast : ∀ i, onLastStepLine vm i ar.currentline stack.length = false := by
    intro i
    simp [onLastStepLine, h.jit]
  have hleave : leave vm false stack.length = vm := by simp [leave, h.jit]
  simp only [lineEvent, hlast, hleave, stopReason, stepped_stops h]
  by_cases hc : c = 0
  · simp [hc]
  · simp only [hc, decide_false, Bool.false_eq_true, if_false]
    cases hscript : script (b.registerHooked L ar) ar.source with
    | none => rfl
    | some s => simp only [hbp s hscript, Bool.false_eq_true, if_false]

theorem notify_line {v : Version} {b : DebugBackend} {L : LuaState} {c : ℕ} (r : Reading)
    (ar : LuaDebug) (hs : Pending b L c) (hc : r.checkstack 2 = true)
    (hversion : ∀ n, r.jitVersion = some n → n < 20000)
    (hbp : ∀ s, script (b.registerHooked L ar) ar.source = some s →
      s.getHasBreakPoint (unsigned (ar.currentline-1)) = false) :
    ∃ b', notify v b L r Event.hookLine ar =
      some (b',if c = 0 then some .step else none) ∧ Pending b' L c := by
  obtain ⟨b',vm,⟨hscripts,hnames⟩,hfull,hvm,hstep,h⟩ :=
    notify_pending (v := v) r Event.hookLine ar hs hc (fun _ => hversion)
  have hbp' : ∀ s, script (b'.registerHooked L ar) ar.source = some s →
      s.getHasBreakPoint (unsigned (ar.currentline-1)) = false := by
    intro s hscript
    rw [script_registered hscripts hnames] at hscript
    exact hbp s hscript
  rw [if_pos rfl, stepped_line r.stack ar hstep hbp'] at h
  obtain ⟨hstate,hhook⟩ := registerHooked_rest b' L ar
  refine ⟨_,h,pending_put ?_ ?_ hstep⟩
  · rw [hhook]
    exact hfull
  · rw [DebugBackend.getVm, hstate]
    exact hvm

theorem notifyAll_others {v : Version} {L : LuaState} {r : Reading} (hc : r.checkstack 2 = true)
    (es : List (ℤ × LuaDebug)) (hes : ∀ e ∈ es, e.1 ≠ Event.hookLine) {b : DebugBackend} {c : ℕ}
    (hs : Pending b L c) : ∃ b', notifyAll v L r b es = some (b',false) ∧
      Pending b' L (es.foldl (fun c e => tick v e.1 c) c) := by
  induction es generalizing b c with
  | nil => exact ⟨b,rfl,hs⟩
  | cons e es ih =>
    obtain ⟨he,hes⟩ := List.forall_mem_cons.mp hes
    obtain ⟨b',hb',hs'⟩ := notify_other (v := v) r e.2 hs hc he
    obtain ⟨b'',hb'',hs''⟩ := ih hes hs'
    refine ⟨b'',?_,hs''⟩
    rw [notifyAll, hb', Option.bind_some, hb'']
    rfl

theorem tick_returns (v : Version) (f : Frame) (c : ℕ) :
    (List.replicate (tailReturns v f) (Event.hookTailRet,tailFrame)).foldl
      (fun c e => tick v e.1 c) c = c - lost v f := by
  cases v with
  | lua50 =>
    suffices h : ∀ n c, (List.replicate n (Event.hookTailRet,tailFrame)).foldl
        (fun c e => tick .lua50 e.1 c) c = c from h f.tails c
    intro n
    induction n with
    | zero => exact fun _ => rfl
    | succ n ih => exact fun c => ih c
  | lua51 =>
    suffices h : ∀ n c, (List.replicate n (Event.hookTailRet,tailFrame)).foldl
        (fun c e => tick .lua51 e.1 c) c = c - n from h f.tails c
    intro n
    induction n with
    | zero => exact fun _ => rfl
    | succ n ih =>
      intro c
      have h : c - (n+1) = c-1-n := by omega
      rw [List.replicate_succ, List.foldl_cons, h]
      exact ih (c-1)
  | lua52 => rfl

/-- The calls and returns that come with a happening, and what they make of the counter. -/
theorem events_counted (v : Version) (stack stack' : List Frame) (h : Happening) (c : ℕ)
    (hm : move stack h = some stack') (hline : ∀ n, h ≠ .line n) :
    (∀ e ∈ events v stack h stack', e.1 ≠ Event.hookLine) ∧
      (events v stack h stack').foldl (fun c e => tick v e.1 c) c = counted v stack h c := by
  cases h with
  | call ar => exact ⟨by simp [events, Event.hookCall, Event.hookLine],by cases v <;> rfl⟩
  | tailCall ar =>
    have hne : (if v = .lua52 then Event.hookTailCall else Event.hookCall) ≠ Event.hookLine := by
      cases v <;> decide
    exact ⟨by simpa [events] using hne,by cases v <;> rfl⟩
  | «return» =>
    cases stack with
    | nil => cases hm
    | cons f rest =>
      refine ⟨fun e he => ?_,?_⟩
      · rcases List.mem_cons.mp he with rfl | he
        · show Event.hookRet ≠ Event.hookLine
          decide
        · rw [List.eq_of_mem_replicate he]
          show Event.hookTailRet ≠ Event.hookLine
          decide
      · have hret : tick v Event.hookRet c = c-1 := by cases v <;> rfl
        have hsum : c - (1 + lost v f) = c-1 - lost v f := by omega
        rw [events, List.foldl_cons, hret, tick_returns, counted, hsum]
  | unwind n => exact ⟨by simp [events],rfl⟩
  | line n => exact absurd rfl (hline n)

theorem enact_other {v : Version} {L : LuaState} {w : Walk} {env : Environment} {h : Happening}
    {c : ℕ} {stack' : List Frame} (hs : Pending w.b L c) (hc : env.checkstack 2 = true)
    (hm : move w.stack h = some stack') (hline : ∀ n, h ≠ .line n) :
    ∃ b', enact v L w (env,h) = some (⟨b',stack'⟩,false) ∧
      Pending b' L (counted v w.stack h c) := by
  obtain ⟨hev,hcount⟩ := events_counted v w.stack stack' h c hm hline
  obtain ⟨b',hb',hs'⟩ := notifyAll_others (v := v)
    (r := ⟨env,levels v (stackDuring v w.stack h stack')⟩) hc _ hev hs
  refine ⟨b',?_,hcount ▸ hs'⟩
  rw [enact, hm, Option.bind_some, hb']
  rfl

theorem enact_line {v : Version} {L : LuaState} {w : Walk} {env : Environment} {n : ℤ} {c : ℕ}
    {stack' : List Frame} (hs : Pending w.b L c) (hq : Quiet L w (env,.line n))
    (hm : move w.stack (.line n) = some stack') :
    ∃ b', enact v L w (env,.line n) = some (⟨b',stack'⟩,decide (c = 0)) ∧ Pending b' L c := by
  obtain ⟨hc,hversion,hbp⟩ := hq
  cases hstack : w.stack with
  | nil => simp [hstack, move] at hm
  | cons f rest =>
    rw [hstack, move] at hm
    split at hm
    · cases hm
    · cases hm
      obtain ⟨b',hb',hs'⟩ := notify_line (v := v) ⟨env,levels v (stackDuring v (f::rest) (.line n)
        ({f with ar := {f.ar with currentline := n}}::rest))⟩ {f.ar with currentline := n} hs hc
        hversion (hbp n f rest rfl hstack)
      refine ⟨b',?_,hs'⟩
      rename_i hlua
      rw [enact, hstack, move, if_neg hlua, Option.bind_some, events, notifyAll, hb', Option.bind_some]
      by_cases h0 : c = 0 <;> simp [notifyAll, h0]

/-- While the step is pending the debt of the stack is the counter, so that the
counter is zero exactly when the base is on top. -/
theorem firstStop_eq {v : Version} {L : LuaState} (hs : List (Environment × Happening)) {w : Walk}
    {c : ℕ} (howed : Owed v w.stack c) (hp : Pending w.b L c)
    (hclear : Throughout (Step v L) (fun w h => Quiet L w h ∧ Counted v w h) w hs) :
    firstStop v L w hs = firstBaseLine w.stack hs := by
  induction hs generalizing w c with
  | nil => rfl
  | cons h hs ih =>
    obtain ⟨env,h⟩ := h
    obtain ⟨⟨hq,hcounted⟩,hrest⟩ := hclear
    cases hm : move w.stack h with
    | none =>
      have hno : lineInBase w.stack h = false := by
        cases h with
        | line n =>
          cases hstack : w.stack with
          | nil => rfl
          | cons f rest =>
            by_cases hlua : f.ar.linedefined = -1
            · simp [lineInBase, hlua]
            · simp [hstack, move, hlua] at hm
        | _ => cases w.stack <;> rfl
      simp [firstStop, firstBaseLine, enact, hm, hno]
    | some stack' =>
      have howed' : Owed v stack' (counted v w.stack h c) := owed_step howed hm hcounted
      by_cases hline : ∃ n, h = .line n
      · obtain ⟨n,rfl⟩ := hline
        obtain ⟨b',hb',hp'⟩ := enact_line (v := v) hp hq hm
        have hbase : lineInBase w.stack (.line n) = decide (c = 0) := by
          cases hstack : w.stack with
          | nil => simp [hstack, move] at hm
          | cons f rest =>
            rw [hstack] at hm howed
            have hlua : f.ar.linedefined ≠ -1 := by
              intro hlua
              simp [move, hlua] at hm
            simp [lineInBase, hlua, owed_zero_iff howed]
        by_cases h0 : c = 0
        · simp [firstStop, firstBaseLine, hb', hbase, h0]
        · have hcount : counted v w.stack (.line n) c = c := by
            cases w.stack <;> rfl
          rw [hcount] at howed'
          rw [firstStop, hb', firstBaseLine, hbase, hm]
          simp only [h0, decide_false, Bool.false_eq_true, if_false]
          rw [ih howed' hp' (hrest _ (by rw [Step, hb']; simp [h0]))]
      · have hline : ∀ n, h ≠ .line n := fun n hn => hline ⟨n,hn⟩
        obtain ⟨b',hb',hp'⟩ := enact_other (v := v) hp hq.1 hm hline
        have hno : lineInBase w.stack h = false := by
          cases h with
          | line n => exact absurd rfl (hline n)
          | _ => cases w.stack <;> rfl
        rw [firstStop, hb', firstBaseLine, hno, hm]
        simp only [Bool.false_eq_true, if_false]
        rw [ih howed' hp' (hrest _ hb')]

inductive Command where
  | stepOver
  | stepOut

def start (b : DebugBackend) (L : LuaState) (top : LuaDebug × ℕ) (rest : List (LuaDebug × ℕ)) :
    Command → Walk
  | .stepOver => ⟨stepOver b L,⟨top.1,top.2,true⟩ :: rest.map (fun f => ⟨f.1,f.2,true⟩)⟩
  | .stepOut => ⟨stepOut b L,⟨top.1,top.2,false⟩ :: rest.map (fun f => ⟨f.1,f.2,true⟩)⟩

theorem base_below (rest : List (LuaDebug × ℕ)) :
    ∀ f ∈ rest.map (fun f => (⟨f.1,f.2,true⟩ : Frame)), f.base = true := by
  intro f hf
  obtain ⟨g,-,rfl⟩ := List.mem_map.mp hf
  rfl

theorem pending_stepWith {b : DebugBackend} {L : LuaState} {vm : VirtualMachine} (c : ℕ) {mode : Mode}
    (hvm : b.getVm L = some vm) (hjit : vm.luaJitWorkAround = false)
    (hmode : mode = .stepOver ∨ mode = .stepOut) : Pending (stepWith b L c mode) L c := by
  refine ⟨DebugBackend.hook_setHookMode _ _ _,
    {vm with callCount := c, mode := mode, breakEvent := true},?_,⟨hmode,hjit,rfl⟩⟩
  rw [stepWith, DebugBackend.getVm_setHookMode, DebugBackend.getVm_modifyVm, hvm, Option.map_some]

/-- A step stops where the first line of the base is executed, in every history
that loses no frame above the base uncounted. -/
theorem stops_in_base (v : Version) (b : DebugBackend) (L : LuaState) (vm : VirtualMachine)
    (top : LuaDebug × ℕ) (rest : List (LuaDebug × ℕ)) (command : Command)
    (hs : List (Environment × Happening)) (hvm : b.getVm L = some vm)
    (hjit : vm.luaJitWorkAround = false)
    (hclear : Throughout (Step v L) (fun w h => Quiet L w h ∧ Counted v w h)
      (start b L top rest command) hs) :
    firstStop v L (start b L top rest command) hs =
      firstBaseLine (start b L top rest command).stack hs := by
  cases command with
  | stepOver =>
    refine firstStop_eq hs (c := 0) ?_ (pending_stepWith 0 hvm hjit (.inl rfl)) hclear
    exact owed_base v _ (List.forall_mem_cons.mpr ⟨rfl,base_below rest⟩)
  | stepOut =>
    refine firstStop_eq hs (c := 1) ?_ (pending_stepWith 1 hvm hjit (.inr rfl)) hclear
    rw [start, owed_fresh v _ _ _ rfl]
    exact ⟨1,0,rfl,le_refl _,Nat.le_add_right _ _,fun h => absurd rfl h,owed_base v _ (base_below rest)⟩

def idle : Environment := ⟨none,none,true,fun _ => true⟩

def attached : DebugBackend := (DebugBackend.initial.attachState 1 true true).1

def functionAt (line : ℤ) : LuaDebug := ⟨some (text "f"),some (text "Lua"),text "@a.lua",line,1,9⟩

theorem stops_in_base_line :
    firstStop .lua51 1 (start attached 1 (functionAt 2,1) [(functionAt 7,0)] .stepOut)
      [(idle,.return),(idle,.line 8)] =
    firstBaseLine (start attached 1 (functionAt 2,1) [(functionAt 7,0)] .stepOut).stack
      [(idle,.return),(idle,.line 8)] := by
  apply stops_in_base .lua51 attached 1 (VirtualMachine.attached false) _ _ _ _ rfl rfl
  refine ⟨⟨⟨rfl,nofun,nofun⟩,trivial⟩,fun w hw => ?_⟩
  cases hw
  refine ⟨⟨⟨rfl,nofun,?_⟩,trivial⟩,fun _ _ => trivial⟩
  rintro n f rest hn hstack s hscript
  cases hn
  cases hstack
  cases hscript
  decide

def stepped : Walk := start attached 1 (functionAt 7,0) [] .stepOver

def tailCalled : List (Environment × Happening) :=
  [(idle,.call (functionAt 1)),(idle,.tailCall (functionAt 1)),(idle,.return),(idle,.line 8)]

theorem tailCall_missed : Throughout (Step .lua52 1) (Quiet 1) stepped tailCalled ∧
    firstStop .lua52 1 stepped tailCalled ≠ firstBaseLine stepped.stack tailCalled := by
  refine ⟨?_,by decide⟩
  refine ⟨⟨rfl,nofun,nofun⟩,fun w hw => ?_⟩
  cases hw
  refine ⟨⟨rfl,nofun,nofun⟩,fun w hw => ?_⟩
  cases hw
  refine ⟨⟨rfl,nofun,nofun⟩,fun w hw => ?_⟩
  cases hw
  refine ⟨⟨rfl,nofun,?_⟩,fun _ _ => trivial⟩
  rintro n f rest hn hstack s hscript
  cases hn
  cases hstack
  cases hscript
  decide

end Vecoda.Stepping
