import Vecoda.Repeats
import Vecoda.Stepping

/-!
# The LuaJIT work-around

Line events of one machine in `Mode_Continue` over fixed breakpoints, every
stop answered by `Continue`. LuaJIT repeats the event of a line that only
calls C functions; the work-around drops what it takes for a repetition by the
place of the last stop, which no other line clears.
-/

set_option autoImplicit false

namespace Vecoda.JitRepeats
open MessagePipe LuaText Backend HookCallback Stepping Repeats

structure LineEvent where
  decodaName : Option Bytes
  ar : LuaDebug
  below : List LuaDebug

def LineEvent.reading (e : LineEvent) : Reading :=
  {decodaName := e.decodaName, jitVersion := none, attached := true, checkstack := fun _ => true,
   stack := e.ar :: e.below}

/-- What tells an event from a repetition of it. -/
structure Place where
  script : Option ℕ
  line : ℤ
  depth : ℕ
  deriving DecidableEq

def place (b : DebugBackend) (e : LineEvent) : Place :=
  ⟨b.getScriptIndex e.ar.source,e.ar.currentline,e.below.length+1⟩

section Model

variable (v : Version) (L : LuaState)

def start (b : DebugBackend) (luaJitWorkAround : Bool) : DebugBackend :=
  (b.attachState L true true).1.putVm L
    {VirtualMachine.attached b.hasBreakPoint with
      initialized := true, luaJitWorkAround := luaJitWorkAround}

def onLine (b : DebugBackend) (e : LineEvent) : Option (DebugBackend × Bool) :=
  (hookCallback v b L e.reading Event.hookLine e.ar).map (fun (b,reason) =>
    match reason with
    | none => (b,false)
    | some _ => (resumed (continueVm b L) L e.reading e.ar,true))

def stops : DebugBackend → List LineEvent → Option (List Bool)
  | _, [] => some []
  | b, e::es => (onLine v L b e).bind (fun (b,stop) => (stops b es).map (stop :: ·))

def places : DebugBackend → List LineEvent → List Place
  | _, [] => []
  | b, e::es =>
    let b := b.registerHooked L e.ar
    place b e :: places b es

def withoutRepeats : Option Place → List (Place × Bool) → List Bool
  | _, [] => []
  | previous, (p,stop)::rest => (stop && previous ≠ some p) :: withoutRepeats (some p) rest

/-- The work-around drops the stops of the plain path that repeat the event before. -/
def OnlyRepeats (b : DebugBackend) (es : List LineEvent) : Prop :=
  stops v L (start L b true) es = (stops v L (start L b false) es).map
    (fun plain => withoutRepeats none ((places L b es).zip plain))

end Model

def marked (b : DebugBackend) (p : Place) : Bool :=
  match p.script.bind (b.scripts[·]?) with
  | some s => s.getHasBreakPoint (unsigned (p.line-1))
  | none => false

section Registering

variable {b r : DebugBackend} {L : LuaState}

structure Later (b r : DebugBackend) : Prop where
  scripts : ∃ new, r.scripts = b.scripts ++ new ∧ ∀ s ∈ new, s.breakpoints = []

theorem later_refl (b : DebugBackend) : Later b b := ⟨⟨[],by simp,by simp⟩⟩

theorem later_append {r' : DebugBackend} {s : Script} (h : Later b r) (hs : s.breakpoints = [])
    (hr' : r'.scripts = r.scripts ++ [s]) : Later b r' := by
  obtain ⟨new,hr,hnew⟩ := h.scripts
  refine ⟨⟨new ++ [s],by rw [hr', hr, List.append_assoc],fun t ht => ?_⟩⟩
  rcases List.mem_append.mp ht with ht | ht
  · exact hnew t ht
  · rw [List.mem_singleton.mp ht, hs]

theorem registerScript_later (h : Later b r) (source name : Option Bytes) (unavailable : Bool) :
    Later b (r.registerScript L source name unavailable).1 := by
  unfold DebugBackend.registerScript
  simp only
  split
  · exact h
  · split
    · exact ⟨h.scripts⟩
    · exact later_append h rfl rfl

theorem registerHooked_later (h : Later b r) (ar : LuaDebug) : Later b (r.registerHooked L ar) := by
  unfold DebugBackend.registerHooked
  split
  · exact h
  · exact registerScript_later h _ _ _

theorem marked_later (h : Later b r) (p : Place) : marked r p = marked b p := by
  obtain ⟨new,hr,hnew⟩ := h.scripts
  unfold marked
  cases p.script with
  | none => rfl
  | some i =>
    simp only [Option.bind_some]
    rw [hr]
    by_cases hi : i < b.scripts.length
    · rw [List.getElem?_append_left hi]
    · rw [List.getElem?_append_right (by omega), List.getElem?_eq_none (l := b.scripts) (by omega)]
      cases hs : new[i - b.scripts.length]? with
      | none => rfl
      | some s => simp [Script.getHasBreakPoint, hnew s (List.mem_of_getElem? hs)]

end Registering

section Events

variable {b r : DebugBackend} {L : LuaState}

/-- What the work-around has noted: the place of the last stop. -/
def Notes (vm : VirtualMachine) : Option Place → Prop
  | none => vm.callStackDepth = 0
  | some p => vm.callStackDepth = p.depth ∧ vm.lastStepLine = p.line ∧
      vm.lastStepScript = (p.script.map Int.ofNat).getD (-1)

structure Continuing (vm : VirtualMachine) (workAround : Bool) (last : Option Place) : Prop where
  mode : vm.mode = .continue
  initialized : vm.initialized = true
  jit : vm.luaJitWorkAround = workAround
  notes : workAround = true → Notes vm last

/-- The run has the scripts of `r`, and its machine goes on in `Mode_Continue`. -/
structure Running (r b : DebugBackend) (L : LuaState) (workAround : Bool) (last : Option Place) :
    Prop where
  scripts : b.scripts = r.scripts
  names : b.nameToScript = r.nameToScript
  machine : ∃ vm, b.getVm L = some vm ∧ Continuing vm workAround last

theorem index_inj (i j : Option ℕ) (h : (i.map Int.ofNat).getD (-1) = (j.map Int.ofNat).getD (-1)) :
    i = j := by
  cases i with
  | none =>
    cases j with
    | none => rfl
    | some j => cases h
  | some i =>
    cases j with
    | none => cases h
    | some j => exact congrArg some (Int.ofNat.inj h)

theorem onLastStepLine_iff (vm : VirtualMachine) (last : Option Place) (hn : Notes vm last)
    (hjit : vm.luaJitWorkAround = true) (e : LineEvent) :
    onLastStepLine vm (scriptIndex b e.ar) e.ar.currentline (e.below.length+1) = true ↔
      last = some (place b e) := by
  cases last with
  | none =>
    have hz : vm.callStackDepth = 0 := hn
    simp [onLastStepLine, hz]
  | some p =>
    obtain ⟨hdepth,hline,hscript⟩ := hn
    simp only [onLastStepLine, hjit, hdepth, hline, hscript, Bool.true_and, Bool.and_eq_true,
      decide_eq_true_eq, ne_eq, Option.some.injEq]
    constructor
    · rintro ⟨⟨⟨hl,hs⟩,-⟩,hd⟩
      have hi := index_inj p.script (b.getScriptIndex e.ar.source) hs
      cases p
      simp_all [place]
    · rintro rfl
      exact ⟨⟨⟨rfl,rfl⟩,Nat.succ_ne_zero _⟩,rfl⟩

theorem marked_script (e : LineEvent) : marked b (place b e) =
    ((script b e.ar.source).map (·.getHasBreakPoint (unsigned (e.ar.currentline-1)))).getD false := by
  have he : (b.getScriptIndex e.ar.source).bind (b.scripts[·]?) = script b e.ar.source := rfl
  unfold marked place
  rw [he]
  cases script b e.ar.source <;> rfl

theorem stopReason_continue (vm : VirtualMachine) (hmode : vm.mode = .continue) (e : LineEvent)
    (onLast : Bool) : stopReason b vm e.ar onLast =
      if marked b (place b e) && !onLast then some .breakPoint else none := by
  have hstep : stepStops vm = false := by simp [stepStops, hmode]
  rw [stopReason, hstep, marked_script]
  cases onLast with
  | true => simp
  | false =>
    cases script b e.ar.source with
    | none => rfl
    | some s => simp

/-- A line event only renames the machine, and registers the script. -/
theorem hookCallback_line (v : Version) {vm : VirtualMachine} {workAround : Bool} {last : Option Place}
    (e : LineEvent) (hvm : b.getVm L = some vm) (hc : Continuing vm workAround last) :
    ∃ reports name, hookCallback v b L e.reading Event.hookLine e.ar =
      let b' := DebugBackend.registerHooked {b with reports := reports} L e.ar
      let onLast := onLastStepLine vm (scriptIndex b' e.ar) e.ar.currentline (e.below.length+1)
      some (b'.putVm L {vm with name := name},
        if marked b' (place b' e) && !onLast then some .breakPoint else none) := by
  have hprepare : ∃ reports name, prepare b L vm e.reading Event.hookLine =
      ({b with reports := reports},{vm with name := name}) := by
    simp only [prepare, hc.initialized, Bool.not_true, Bool.false_and, Bool.false_eq_true, if_false]
    exact ⟨_,_,rfl⟩
  obtain ⟨reports,name,hp⟩ := hprepare
  have hmode : ({vm with name := name} : VirtualMachine).mode = .continue := hc.mode
  have hadjust : adjust v {b with reports := reports} L {vm with name := name} e.reading.stack
      Event.hookLine e.ar = ({b with reports := reports},{vm with name := name}) := by
    rw [adjust, if_pos hmode, updateHookMode, if_pos rfl]
  have hleave (l : Bool) (d : ℕ) : leave {vm with name := name} l d = {vm with name := name} := by
    simp [leave, hc.mode]
  refine ⟨reports,name,?_⟩
  rw [hookCallback_found v e.reading Event.hookLine e.ar hvm rfl, if_pos rfl, hp]
  simp only [hadjust, lineEvent, hleave, stopReason_continue _ hmode]
  rfl

/-- Places and marks depend on the scripts only. -/
theorem place_congr (hscripts : b.scripts = r.scripts) (hnames : b.nameToScript = r.nameToScript)
    (e : LineEvent) : place b e = place r e ∧ marked b (place b e) = marked r (place r e) := by
  have hp : place b e = place r e := by simp only [place, DebugBackend.getScriptIndex, hnames]
  exact ⟨hp,by rw [hp, marked, marked, hscripts]⟩

theorem onLine_spec (v : Version) {workAround : Bool} {last : Option Place} (e : LineEvent)
    (h : Running r b L workAround last) :
    let r' := r.registerHooked L e.ar
    let stop := marked r' (place r' e) && !(workAround && last = some (place r' e))
    ∃ b', onLine v L b e = some (b',stop) ∧
      Running r' b' L workAround (if stop then some (place r' e) else last) := by
  intro r' stop
  obtain ⟨vm,hvm,hc⟩ := h.machine
  obtain ⟨reports,name,hcall⟩ := hookCallback_line v e hvm hc
  have hscripts₀ : ({b with reports := reports} : DebugBackend).scripts = r.scripts := h.scripts
  obtain ⟨hscripts,hnames⟩ := registerHooked_scripts hscripts₀ h.names L e.ar
  generalize hb' : DebugBackend.registerHooked {b with reports := reports} L e.ar = b' at hcall hscripts hnames
  obtain ⟨hplace,hmarked⟩ := place_congr hscripts hnames e
  have hvm' : b'.getVm L = some vm := by
    rw [← hb', DebugBackend.getVm, (registerHooked_rest _ L e.ar).1]
    exact hvm
  have hlast : onLastStepLine vm (scriptIndex b' e.ar) e.ar.currentline (e.below.length+1) =
      (workAround && last = some (place r' e)) := by
    cases hw : workAround with
    | false => simp [onLastStepLine, hc.jit, hw]
    | true =>
      have hi := onLastStepLine_iff (b := b') vm last (hc.notes hw) (hc.jit.trans hw) e
      rw [hplace] at hi
      rw [Bool.eq_iff_iff, hi]
      simp [r']
  simp only [hmarked, hlast] at hcall
  rw [onLine, hcall]
  change ∃ b'', Option.map _ (some (_,if stop then some BreakReason.breakPoint else none)) = _ ∧ _
  have hput (b₀ : DebugBackend) (f : VirtualMachine → VirtualMachine) (vm₀ : VirtualMachine)
      (h₀ : b₀.getVm L = some vm₀) : (b₀.modifyVm L f).getVm L = some (f vm₀) := by
    rw [DebugBackend.getVm_modifyVm, h₀]
    rfl
  have hnamed := hput b' (fun _ => {vm with name := name}) vm hvm'
  cases hs : stop with
  | false =>
    exact ⟨_,rfl,hscripts,hnames,_,hnamed,hc.mode,hc.initialized,hc.jit,hc.notes⟩
  | true =>
    have hcontinued := hput _ (fun vm => {vm with callCount := 0, mode := .continue, breakEvent := true})
      _ hnamed
    refine ⟨_,rfl,hscripts,hnames,_,hput _ _ _ hcontinued,?_⟩
    dsimp only
    cases hw : workAround with
    | false =>
      have hj : vm.luaJitWorkAround = false := hc.jit.trans hw
      simp only [hj, Bool.false_eq_true, if_false]
      exact ⟨rfl,hc.initialized,rfl,fun h => by cases h⟩
    | true =>
      have hj : vm.luaJitWorkAround = true := hc.jit.trans hw
      simp only [hj, if_true]
      exact ⟨rfl,hc.initialized,rfl,fun _ => ⟨rfl,rfl,congrArg (fun i => (i.map Int.ofNat).getD (-1))
        (congrArg Place.script hplace)⟩⟩

theorem running_start (b : DebugBackend) (L : LuaState) (workAround : Bool) :
    Running b (start L b workAround) L workAround none := by
  have hvm : ∃ vm, (b.attachState L true true).1.getVm L = some vm := by
    cases hg : b.getVm L with
    | some vm =>
      refine ⟨vm,?_⟩
      simp only [DebugBackend.attachState, hg, Bool.not_true, Bool.false_eq_true, if_false]
    | none =>
      refine ⟨VirtualMachine.attached b.hasBreakPoint,?_⟩
      have hl : b.stateToVm.lookup L = none := hg
      simp [DebugBackend.attachState, DebugBackend.getVm, DebugBackend.report,
        DebugBackend.setHookMode, List.lookup_append, hl]
  have hrest : (b.attachState L true true).1.scripts = b.scripts ∧
      (b.attachState L true true).1.nameToScript = b.nameToScript := by
    cases hg : b.getVm L <;>
      simp [DebugBackend.attachState, hg, DebugBackend.report, DebugBackend.setHookMode]
  obtain ⟨vm,hvm⟩ := hvm
  have hfresh : (start L b workAround).getVm L = some {VirtualMachine.attached b.hasBreakPoint with
      initialized := true, luaJitWorkAround := workAround} := by
    rw [start, DebugBackend.putVm, DebugBackend.getVm_modifyVm, hvm]
    rfl
  exact ⟨hrest.1,hrest.2,_,hfresh,⟨rfl,rfl,rfl,fun _ => rfl⟩⟩

/-- The plain path stops at every event on a breakpoint. -/
theorem stops_plain (v : Version) (b₀ : DebugBackend) (es : List LineEvent) {last : Option Place}
    (hl : Later b₀ r) (h : Running r b L false last) :
    stops v L b es = some ((places L r es).map (marked b₀)) := by
  induction es generalizing r b last with
  | nil => rfl
  | cons e es ih =>
    obtain ⟨b',he,hr⟩ := onLine_spec v e h
    have hl' := registerHooked_later (L := L) hl e.ar
    rw [stops, he, Option.bind_some]
    dsimp only
    rw [ih hl' hr]
    simp [places, marked_later hl']

/-- The path with the work-around keeps the place of the last mark. -/
theorem stops_workAround (v : Version) (b₀ : DebugBackend) (es : List LineEvent) (past : List Place)
    (hl : Later b₀ r) (h : Running r b L true (past.find? (marked b₀))) :
    stops v L b es = some (sinceMarked (marked b₀) past (places L r es)) := by
  induction es generalizing r b past with
  | nil => rfl
  | cons e es ih =>
    obtain ⟨b',he,hr⟩ := onLine_spec v e h
    have hl' := registerHooked_later (L := L) hl e.ar
    rw [marked_later hl'] at he hr
    have hnext : Running (r.registerHooked L e.ar) b' L true
        ((place (r.registerHooked L e.ar) e :: past).find? (marked b₀)) := by
      rw [List.find?_cons]
      cases hm : marked b₀ (place (r.registerHooked L e.ar) e) with
      | false => simpa [hm] using hr
      | true =>
        by_cases hp : past.find? (marked b₀) = some (place (r.registerHooked L e.ar) e)
        · simpa [hm, hp] using hr
        · simpa [hm, hp] using hr
    rw [stops, he, Option.bind_some]
    dsimp only
    rw [ih _ hl' hnext]
    simp [places, sinceMarked]

theorem withoutRepeats_marked (f : Place → Bool) (past ps : List Place) :
    withoutRepeats past.head? (ps.zip (ps.map f)) = sincePrevious f past ps := by
  induction ps generalizing past with
  | nil => rfl
  | cons p ps ih =>
    rw [List.map_cons, List.zip_cons_cons, withoutRepeats, sincePrevious, ← ih (p::past)]
    rfl

end Events

/-- The work-around drops repetitions only, exactly if no breakpoint is reached again
from other lines before a breakpoint at another place is reached. -/
theorem onlyRepeats_iff (v : Version) (L : LuaState) (b : DebugBackend) (es : List LineEvent) :
    OnlyRepeats v L b es ↔ NoReturn (marked b) (places L b es) := by
  have hplain := stops_plain v b es (later_refl b) (running_start b L false)
  have hjit := stops_workAround v b es [] (later_refl b) (running_start b L true)
  have hdrop := withoutRepeats_marked (marked b) [] (places L b es)
  rw [OnlyRepeats, hplain, hjit, Option.map_some, ← sinceMarked_eq_iff, ← hdrop]
  exact Option.some_inj

def oneScript : DebugBackend :=
  {DebugBackend.initial with
    scripts := [⟨text "a.lua",[],text "a.lua",[1],.unavailable⟩],
    nameToScript := [(text "@a.lua",0)]}

def atLine (line : ℤ) : LineEvent := ⟨none,⟨none,none,text "@a.lua",line,0,9⟩,[]⟩

/-- A loop over two lines comes back to the breakpoint and runs through it. -/
theorem loop_not_onlyRepeats :
    ¬ OnlyRepeats .lua51 1 oneScript [atLine 2,atLine 3,atLine 2] := by
  unfold OnlyRepeats
  decide +kernel

end Vecoda.JitRepeats
