import Vecoda.Reattach

/-!
# The hook in regions of the lock

`HookCallback` leaves `m_criticalSection` whenever it registers a script, and
takes it again behind the wait for `LoadDone`. Each region between is one step
here, in which the machine is read and written in place. A call that no other
thread interrupts is `hookCallback`.
-/

set_option autoImplicit false

namespace Vecoda.HookRegions
open MessagePipe (Bytes)
open LuaText (text)
open Backend HookCallback
open Reattach
  (Kept attachState_found kept_registerHooked kept_stackHasBreakpoint settled updateHookMode_parts)

structure HookEvent where
  version : Version
  reading : Reading
  event : ℤ
  ar : LuaDebug

/-- Where `RegisterScript` returns to: `UpdateHookMode` for the function that is entered,
`StackHasBreakpoint` for a frame, or the line event. -/
inductive Pending where
  | entered
  | scanning (ar : LuaDebug) (rest : List LuaDebug)
  | line

inductive Region where
  | exit
  | registered (new : Bool) (p : Pending)
  | stop (reason : BreakReason)

section Regions

variable (b : DebugBackend) (L : LuaState) (e : HookEvent)

def known (ar : LuaDebug) : Bool := (b.getScriptIndex ar.source).isSome

def register (ar : LuaDebug) (p : Pending) : DebugBackend × Region :=
  let named := (text "@").isPrefixOf ar.source
  let (b,scriptIndex) := b.registerScript L (if named then none else some ar.source) (some ar.source) named
  (b,.registered scriptIndex.isSome p)

def settle (full : Bool) : DebugBackend :=
  match b.getVm L with
  | none => b
  | some vm =>
    let mode := hookMode vm.haveActiveBreakpoints full
    if b.hook L = mode then b else b.setHookMode L (if vm.mode = .continue then mode else .full)

def finish (full : Bool) : DebugBackend × Region :=
  ((settle b L full).modifyVm L (fun vm => count vm e.version e.event),.exit)

def setInStack (inStack : Bool) : DebugBackend :=
  b.modifyVm L (fun vm => {vm with breakpointInStack := inStack})

def scanFrom : List LuaDebug → DebugBackend × Region
  | [] => finish (setInStack b L false) L e false
  | ar::rest =>
    if ar.linedefined = -1 then scanFrom rest
    else if !known b ar then register b L ar (.scanning ar rest)
    else if hasBreakpoint b ar then finish b L e true
    else scanFrom rest

def scan : DebugBackend × Region :=
  if (b.getVm L).any VirtualMachine.breakpointInStack then scanFrom b L e e.reading.stack
  else finish b L e false

def entered : DebugBackend × Region :=
  if hasBreakpoint b e.ar then finish (setInStack b L true) L e true else scan b L e

def isEntered : Bool := getIsHookEventCall e.version e.event && e.ar.linedefined ≠ -1

def update : DebugBackend × Region :=
  if isEntered e then
    if !known b e.ar then register b L e.ar .entered else entered b L e
  else scan b L e

def atLine : DebugBackend × Region :=
  match b.getVm L with
  | none => (b,.exit)
  | some vm =>
    let last := onLastStepLine vm (scriptIndex b e.ar) e.ar.currentline e.reading.stack.length
    let vm := leave vm last e.reading.stack.length
    (b.putVm L vm,
      match stopReason b vm e.ar last with
      | none => .exit
      | some reason => .stop reason)

def keepFull : DebugBackend := (setInStack b L true).setHookMode L .full

def opened (mode : Mode) : DebugBackend × Region :=
  if e.event = Event.hookLine then
    let b := if mode = .continue then b else keepFull b L
    if !known b e.ar then register b L e.ar .line else atLine b L e
  else if mode = .continue then update b L e
  else ((keepFull b L).modifyVm L (fun vm => count vm e.version e.event),.exit)

/-- The first region, of a machine that is known. -/
def body (vm : VirtualMachine) : DebugBackend × Region :=
  let (b,vm) := prepare b L vm e.reading e.event
  opened (b.putVm L vm) L e vm.mode

def enter : Option (DebugBackend × Region) :=
  if !e.reading.checkstack 2 then some (b,.exit)
  else match b.getVm L with
    | some vm => some (body b L e vm)
    | none => match b.attachState L e.reading.attached (e.reading.checkstack 3) with
      | (_,none) => none
      | (b,some vm) => some (body b L e vm)

def goOn : Pending → DebugBackend × Region
  | .entered => entered b L e
  | .scanning ar rest => if hasBreakpoint b ar then finish b L e true else scanFrom b L e rest
  | .line => atLine b L e

end Regions

/-- What a call comes to when no other thread takes the lock between its regions. -/
inductive Alone (L : LuaState) (e : HookEvent) :
    DebugBackend → Region → DebugBackend → Option BreakReason → Prop where
  | exit (b : DebugBackend) : Alone L e b .exit b none
  | stop (b : DebugBackend) (reason : BreakReason) : Alone L e b (.stop reason) b (some reason)
  | goOn {b b' : DebugBackend} {new : Bool} {p : Pending} {reason : Option BreakReason} :
      Alone L e (goOn b L e p).1 (goOn b L e p).2 b' reason → Alone L e b (.registered new p) b' reason

section Alone

variable {b : DebugBackend} {L : LuaState} {e : HookEvent} {vm : VirtualMachine}

theorem register_hooked (ar : LuaDebug) (p : Pending) (h : known b ar = false) :
    ∃ new, register b L ar p = (b.registerHooked L ar,.registered new p) := by
  have hunknown : ¬ (b.getScriptIndex ar.source).isSome = true := by
    rw [show (b.getScriptIndex ar.source).isSome = false from h]
    exact Bool.false_ne_true
  rw [DebugBackend.registerHooked, if_neg hunknown]
  exact ⟨_,rfl⟩

theorem registerHooked_of_known {ar : LuaDebug} (h : known b ar = true) : b.registerHooked L ar = b :=
  registerHooked_known h

def looked (e : HookEvent) (L : LuaState) (p : DebugBackend × Bool) : DebugBackend :=
  (finish (if p.2 then p.1 else setInStack p.1 L false) L e p.2).1

theorem scanFrom_alone (stack : List LuaDebug) (b : DebugBackend) :
    Alone L e (scanFrom b L e stack).1 (scanFrom b L e stack).2
      (looked e L (stackHasBreakpoint b L stack)) none := by
  induction stack generalizing b with
  | nil => exact .exit _
  | cons ar rest ih =>
    rw [scanFrom, stackHasBreakpoint]
    by_cases hc : ar.linedefined = -1
    · rw [if_pos hc, if_pos hc]
      exact ih b
    · rw [if_neg hc, if_neg hc]
      cases hk : known b ar with
      | true =>
        rw [Bool.not_true, if_neg Bool.false_ne_true, registerHooked_of_known hk]
        dsimp only
        split
        · exact .exit _
        · exact ih b
      | false =>
        obtain ⟨new,hr⟩ := register_hooked (L := L) ar (.scanning ar rest) hk
        rw [Bool.not_false, if_pos rfl, hr]
        refine .goOn ?_
        dsimp only [goOn]
        split
        · exact .exit _
        · exact ih _

theorem registerScript_machines (machines : List (LuaState × VirtualMachine))
    (source name : Option Bytes) (unavailable : Bool) :
    DebugBackend.registerScript {b with stateToVm := machines} L source name unavailable =
      ({(b.registerScript L source name unavailable).1 with stateToVm := machines},
        (b.registerScript L source name unavailable).2) := by
  by_cases hknown : (b.nameToScript.lookup (name.getD (LuaText.cstr (source.getD [])))).isSome = true
  · simp [DebugBackend.registerScript, DebugBackend.getScriptIndex, hknown]
  · cases hfind : b.scripts.findIdx? (fun s => s.title =
        DebugBackend.getFileTitle (name.getD (LuaText.cstr (source.getD []))) && s.source = source.getD []) <;>
      simp [DebugBackend.registerScript, DebugBackend.getScriptIndex, DebugBackend.report, hknown, hfind]

theorem registerHooked_put (ar : LuaDebug) :
    (b.putVm L vm).registerHooked L ar = (b.registerHooked L ar).putVm L vm := by
  have hrest := (registerHooked_rest b L ar).1
  unfold DebugBackend.registerHooked at *
  by_cases hk : (b.getScriptIndex ar.source).isSome = true
  · have hk' : ((b.putVm L vm).getScriptIndex ar.source).isSome = true := hk
    rw [if_pos hk, if_pos hk']
  · have hk' : ¬ ((b.putVm L vm).getScriptIndex ar.source).isSome = true := hk
    rw [if_neg hk] at hrest ⊢
    rw [if_neg hk']
    dsimp only at hrest ⊢
    rw [DebugBackend.putVm, DebugBackend.modifyVm, registerScript_machines, DebugBackend.putVm,
      DebugBackend.modifyVm, hrest]

theorem stackHasBreakpoint_put (stack : List LuaDebug) (b : DebugBackend) :
    stackHasBreakpoint (b.putVm L vm) L stack =
      ((stackHasBreakpoint b L stack).1.putVm L vm,(stackHasBreakpoint b L stack).2) := by
  induction stack generalizing b with
  | nil => rfl
  | cons ar rest ih =>
    rw [stackHasBreakpoint, stackHasBreakpoint]
    split
    · exact ih b
    · rw [registerHooked_put]
      have hb : hasBreakpoint ((b.registerHooked L ar).putVm L vm) ar =
        hasBreakpoint (b.registerHooked L ar) ar := rfl
      dsimp only
      rw [hb]
      split
      · rfl
      · exact ih _

theorem getVm_put (h : (b.getVm L).isSome = true) : (b.putVm L vm).getVm L = some vm := by
  obtain ⟨vm₀,hvm⟩ := Option.isSome_iff_exists.mp h
  rw [DebugBackend.putVm, DebugBackend.getVm_modifyVm, hvm]
  rfl

theorem modify_put (f : VirtualMachine → VirtualMachine) :
    (b.putVm L vm).modifyVm L f = b.putVm L (f vm) := by
  have hmap : (b.stateToVm.map (fun e => if e.1 = L then (e.1,vm) else e)).map
      (fun e => if e.1 = L then (e.1,f e.2) else e) =
      b.stateToVm.map (fun e => if e.1 = L then (e.1,f vm) else e) := by
    rw [List.map_map]
    refine List.map_congr_left (fun entry _ => ?_)
    dsimp only [Function.comp]
    by_cases hL : entry.1 = L
    · simp [hL]
    · simp [hL]
  rw [DebugBackend.putVm, DebugBackend.modifyVm, DebugBackend.modifyVm]
  dsimp only
  rw [hmap]
  rfl

theorem finish_put (full : Bool) (h : (b.getVm L).isSome = true) :
    finish (b.putVm L vm) L e full =
      let s := settled b L (hookMode vm.haveActiveBreakpoints full) vm
      (s.1.putVm L (count s.2 e.version e.event),.exit) := by
  have hsettle : settle (b.putVm L vm) L full =
      (settled b L (hookMode vm.haveActiveBreakpoints full) vm).1.putVm L vm := by
    rw [settle, getVm_put h, settled]
    dsimp only
    have hhook : (b.putVm L vm).hook L = b.hook L := rfl
    rw [hhook]
    split <;> rfl
  have hvm : (settled b L (hookMode vm.haveActiveBreakpoints full) vm).2 = vm := by
    unfold settled
    split <;> rfl
  rw [finish, hsettle, modify_put]
  dsimp only
  rw [hvm]

theorem setInStack_put (inStack : Bool) :
    setInStack (b.putVm L vm) L inStack = b.putVm L {vm with breakpointInStack := inStack} :=
  modify_put _

theorem isSome_kept {b' : DebugBackend} (hk : Kept b b') (h : (b.getVm L).isSome = true) :
    (b'.getVm L).isSome = true := by
  rw [Registration.getVm_isSome_iff] at h ⊢
  rw [hk.entries]
  exact h

def updated (e : HookEvent) (L : LuaState) (s : DebugBackend × Bool × VirtualMachine) : DebugBackend :=
  let p := settled s.1 L (hookMode s.2.2.haveActiveBreakpoints s.2.1) s.2.2
  p.1.putVm L (count p.2 e.version e.event)

theorem scan_alone (h : (b.getVm L).isSome = true) :
    Alone L e (scan (b.putVm L vm) L e).1 (scan (b.putVm L vm) L e).2
      (updated e L (Reattach.scanned b L e.reading.stack false vm)) none := by
  unfold scan
  rw [getVm_put h, Option.any_some]
  cases hin : vm.breakpointInStack with
  | false =>
    rw [if_neg Bool.false_ne_true, finish_put false h]
    simp only [Reattach.scanned, hin, Bool.and_false, Bool.false_eq_true, if_false]
    exact .exit _
  | true =>
    have hlook := scanFrom_alone (L := L) (e := e) e.reading.stack (b.putVm L vm)
    have hsome := isSome_kept (kept_stackHasBreakpoint (L := L) e.reading.stack b) h
    rw [stackHasBreakpoint_put] at hlook
    rw [if_pos rfl]
    simp only [Reattach.scanned, hin, Bool.not_false, Bool.true_and, if_true]
    generalize stackHasBreakpoint b L e.reading.stack = p at *
    obtain ⟨b₁,found⟩ := p
    cases found with
    | true =>
      simp only [looked, if_true, finish_put true hsome] at hlook
      exact hlook
    | false =>
      simp only [looked, Bool.false_eq_true, if_false, setInStack_put, finish_put false hsome] at hlook
      exact hlook

theorem entered_alone (h : (b.getVm L).isSome = true) :
    let full := hasBreakpoint b e.ar
    Alone L e (entered (b.putVm L vm) L e).1 (entered (b.putVm L vm) L e).2
      (updated e L (Reattach.scanned b L e.reading.stack full
        (if full then {vm with breakpointInStack := true} else vm))) none := by
  intro full
  unfold entered
  have hb : hasBreakpoint (b.putVm L vm) e.ar = full := rfl
  rw [hb]
  cases full with
  | true =>
    rw [if_pos rfl, if_pos rfl, setInStack_put, finish_put true h]
    simp only [Reattach.scanned, Bool.not_true, Bool.false_and, Bool.false_eq_true, if_false]
    exact .exit _
  | false =>
    rw [if_neg Bool.false_ne_true, if_neg Bool.false_ne_true]
    exact scan_alone h

theorem update_alone (h : (b.getVm L).isSome = true) (hline : e.event ≠ Event.hookLine) :
    let p := updateHookMode e.version b L vm e.reading.stack e.event e.ar
    Alone L e (update (b.putVm L vm) L e).1 (update (b.putVm L vm) L e).2
      (p.1.putVm L (count p.2 e.version e.event)) none := by
  rw [updateHookMode_parts e.version vm e.reading.stack e.event e.ar hline]
  unfold update
  cases hentered : isEntered e with
  | false =>
    have hin : (getIsHookEventCall e.version e.event && decide (e.ar.linedefined ≠ -1)) = false :=
      hentered
    rw [if_neg Bool.false_ne_true]
    simp only [hin, Bool.false_and, Bool.false_eq_true, if_false]
    exact scan_alone h
  | true =>
    have hin : (getIsHookEventCall e.version e.event && decide (e.ar.linedefined ≠ -1)) = true := hentered
    rw [if_pos rfl]
    simp only [hin, Bool.true_and, if_true]
    have hkn : known (b.putVm L vm) e.ar = known b e.ar := rfl
    rw [hkn]
    cases hk : known b e.ar with
    | true =>
      rw [Bool.not_true, if_neg Bool.false_ne_true, registerHooked_of_known hk]
      exact entered_alone h
    | false =>
      obtain ⟨new,hr⟩ := register_hooked (L := L) e.ar .entered (hkn.trans hk)
      rw [Bool.not_false, if_pos rfl, hr, registerHooked_put]
      exact .goOn (entered_alone (isSome_kept (kept_registerHooked e.ar) h))

theorem atLine_alone (h : (b.getVm L).isSome = true) :
    let last := onLastStepLine vm (scriptIndex b e.ar) e.ar.currentline e.reading.stack.length
    let vm' := leave vm last e.reading.stack.length
    Alone L e (atLine (b.putVm L vm) L e).1 (atLine (b.putVm L vm) L e).2
      (b.putVm L vm') (stopReason b vm' e.ar last) := by
  intro last vm'
  have hat : atLine (b.putVm L vm) L e = (b.putVm L vm',
      match stopReason b vm' e.ar last with
      | none => .exit
      | some reason => .stop reason) := by
    rw [atLine, getVm_put h]
    dsimp only
    have hput (vm₁ : VirtualMachine) : (b.putVm L vm).putVm L vm₁ = b.putVm L vm₁ := modify_put _
    rw [hput]
    rfl
  rw [hat]
  cases stopReason b vm' e.ar last with
  | none => exact .exit _
  | some reason => exact .stop _ _

theorem line_alone (h : (b.getVm L).isSome = true) :
    let region := if !known (b.putVm L vm) e.ar then register (b.putVm L vm) L e.ar .line
      else atLine (b.putVm L vm) L e
    let l := lineEvent b L vm e.reading.stack e.ar
    Alone L e region.1 region.2 (l.1.putVm L l.2.1) l.2.2 := by
  have hkn : known (b.putVm L vm) e.ar = known b e.ar := rfl
  dsimp only
  rw [hkn, lineEvent]
  cases hk : known b e.ar with
  | true =>
    rw [Bool.not_true, if_neg Bool.false_ne_true, registerHooked_of_known hk]
    exact atLine_alone h
  | false =>
    obtain ⟨new,hr⟩ := register_hooked (L := L) e.ar .line (hkn.trans hk)
    rw [Bool.not_false, if_pos rfl, hr, registerHooked_put]
    exact .goOn (atLine_alone (isSome_kept (kept_registerHooked e.ar) h))

theorem body_alone (h : (b.getVm L).isSome = true) :
    let p := prepare b L vm e.reading e.event
    let q := adjust e.version p.1 L p.2 e.reading.stack e.event e.ar
    let l := lineEvent q.1 L q.2 e.reading.stack e.ar
    Alone L e (body b L e vm).1 (body b L e vm).2
      (if e.event = Event.hookLine then l.1.putVm L l.2.1
        else q.1.putVm L (count q.2 e.version e.event))
      (if e.event = Event.hookLine then l.2.2 else none) := by
  intro p q l
  have hsome : (p.1.getVm L).isSome = true := by
    obtain ⟨reports,ready,jit,name,hp,-⟩ := prepare_spec b L vm e.reading e.event
    rw [show p = _ from hp]
    exact h
  have hkeep : keepFull (p.1.putVm L p.2) L =
      (p.1.setHookMode L .full).putVm L {p.2 with breakpointInStack := true} := by
    rw [keepFull, setInStack_put]
    rfl
  have hbody : body b L e vm = if e.event = Event.hookLine then
        let b₁ := if p.2.mode = .continue then p.1.putVm L p.2 else keepFull (p.1.putVm L p.2) L
        if !known b₁ e.ar then register b₁ L e.ar .line else atLine b₁ L e
      else if p.2.mode = .continue then update (p.1.putVm L p.2) L e
      else ((keepFull (p.1.putVm L p.2) L).modifyVm L (fun vm => count vm e.version e.event),.exit) := rfl
  rw [hbody]
  by_cases hline : e.event = Event.hookLine
  · by_cases hmode : p.2.mode = .continue
    · have hq : q = (p.1,p.2) := by
        dsimp only [q]
        rw [adjust, if_pos hmode, updateHookMode, if_pos hline]
      simp only [l, hq, if_pos hline, if_pos hmode]
      exact line_alone hsome
    · have hq : q = (p.1.setHookMode L .full,{p.2 with breakpointInStack := true}) := by
        dsimp only [q]
        rw [adjust, if_neg hmode]
      simp only [l, hq, if_pos hline, if_neg hmode, hkeep]
      exact line_alone (b := p.1.setHookMode L .full) hsome
  · by_cases hmode : p.2.mode = .continue
    · have hq : q = updateHookMode e.version p.1 L p.2 e.reading.stack e.event e.ar := by
        dsimp only [q]
        rw [adjust, if_pos hmode]
      simp only [hq, if_neg hline, if_pos hmode]
      exact update_alone hsome hline
    · have hq : q = (p.1.setHookMode L .full,{p.2 with breakpointInStack := true}) := by
        dsimp only [q]
        rw [adjust, if_neg hmode]
      simp only [hq, if_neg hline, if_neg hmode, hkeep, modify_put]
      exact .exit _

theorem known_alone {region : Region} {b₁ : DebugBackend} (hc : e.reading.checkstack 2 = true)
    (hvm : b.getVm L = some vm) (h : body b L e vm = (b₁,region)) :
    ∃ b' reason, Alone L e b₁ region b' reason ∧
      hookCallback e.version b L e.reading e.event e.ar = some (b',reason) := by
  have halone := @body_alone b L e vm (Option.isSome_of_mem hvm)
  rw [h] at halone
  refine ⟨_,_,halone,?_⟩
  rw [hookCallback_found e.version e.reading e.event e.ar hvm hc]
  split <;> rfl

/-- `HookCallback` without interruption. -/
theorem enter_alone {region : Region} {b₁ : DebugBackend} (h : enter b L e = some (b₁,region)) :
    ∃ b' reason, Alone L e b₁ region b' reason ∧
      hookCallback e.version b L e.reading e.event e.ar = some (b',reason) := by
  unfold enter at h
  by_cases hc : e.reading.checkstack 2 = true
  · rw [hc, Bool.not_true, if_neg Bool.false_ne_true] at h
    cases hvm : b.getVm L with
    | some vm =>
      rw [hvm] at h
      exact known_alone hc hvm (Option.some.inj h)
    | none =>
      rw [hvm] at h
      cases ha : b.attachState L e.reading.attached (e.reading.checkstack 3) with
      | mk b₂ found =>
        cases found with
        | none => simp [ha] at h
        | some vm =>
          simp only [ha, Option.some.injEq] at h
          have hget := attachState_found hvm ha
          obtain ⟨b',reason,halone,hcall⟩ := known_alone hc hget h
          refine ⟨b',reason,halone,?_⟩
          have hsame : hookCallback e.version b L e.reading e.event e.ar =
              hookCallback e.version b₂ L e.reading e.event e.ar := by
            simp only [hookCallback, hc, hvm, ha, hget, Bool.not_true, Bool.false_eq_true, if_false]
          exact hsame.trans hcall
  · rw [Bool.not_eq_true] at hc
    rw [hc, Bool.not_false, if_pos rfl] at h
    cases h
    refine ⟨_,_,.exit _,?_⟩
    simp only [hookCallback, hc, Bool.not_false, if_true]

end Alone

end Vecoda.HookRegions
