import Vecoda.Backend
import Vecoda.Transitions

/-!
# The flag of the virtual machines

Each virtual machine keeps its own copy of the answer to "does any script have
a breakpoint". `AttachState` takes it from the machines already attached
rather than from the scripts, so the copies stay right exactly as long as no
machine is attached to an empty table while a breakpoint is set.
-/

set_option autoImplicit false

namespace Vecoda.BreakFlag
open MessagePipe LuaText Backend Transitions

inductive Call where
  | attach (L : LuaState) (attached checkstack : Bool)
  | detach (L : LuaState)
  | register (L : LuaState) (source name : Option Bytes) (unavailable : Bool)
  | toggle (L : LuaState) (scriptIndex : ℕ) (line : UInt32)
  | deleteAll
  deriving DecidableEq, Repr

def perform (b : DebugBackend) : Call → Option DebugBackend
  | .attach L attached checkstack => some (b.attachState L attached checkstack).1
  | .detach L => some (b.detachState L)
  | .register L source name unavailable => some (b.registerScript L source name unavailable).1
  | .toggle L scriptIndex line => b.toggleBreakpoint L scriptIndex line
  | .deleteAll => some b.deleteAllBreakpoints

def Step (b : DebugBackend) (c : Call) (b' : DebugBackend) : Prop := perform b c = some b'

def AnyBreakpoint (b : DebugBackend) : Prop := ∃ s ∈ b.scripts, s.breakpoints ≠ []

/-- Every attached virtual machine knows whether some script has a breakpoint. -/
def Exact (b : DebugBackend) : Prop :=
  ∀ e ∈ b.stateToVm, e.2.haveActiveBreakpoints = true ↔ AnyBreakpoint b

def Informed (b : DebugBackend) : Call → Prop
  | .attach L attached _ =>
      attached = true → b.getVm L = none → b.stateToVm = [] → ¬ AnyBreakpoint b
  | _ => True

theorem getHaveActiveBreakpoints_iff (b : DebugBackend) :
    b.getHaveActiveBreakpoints = true ↔ AnyBreakpoint b := by
  simp [DebugBackend.getHaveActiveBreakpoints, AnyBreakpoint, Script.hasBreakpointsActive]

theorem exact_modifyVms (b : DebugBackend) (f : VirtualMachine → VirtualMachine)
    (h : ∀ vm, (f vm).haveActiveBreakpoints = true ↔ AnyBreakpoint b) : Exact (b.modifyVms f) := by
  intro e he
  obtain ⟨d,-,rfl⟩ := List.mem_map.mp he
  exact h d.2

theorem exact_setHaveActiveBreakpoints (b : DebugBackend) (active : Bool)
    (h : active = true ↔ AnyBreakpoint b) : Exact (b.setHaveActiveBreakpoints active) := by
  have hm := exact_modifyVms b (·.setActive active) (fun _ => h)
  cases active <;> exact hm

theorem attachState_known (b : DebugBackend) (L : LuaState) (attached checkstack : Bool)
    (h : attached = true → b.getVm L ≠ none) : (b.attachState L attached checkstack).1 = b := by
  cases attached with
  | false => rfl
  | true =>
    cases hv : b.getVm L with
    | none => exact absurd hv (h rfl)
    | some vm => simp [DebugBackend.attachState, hv]

theorem attachState_new (b : DebugBackend) (L : LuaState) (checkstack : Bool)
    (h : b.getVm L = none) :
    (b.attachState L true checkstack).1.scripts = b.scripts ∧
    (b.attachState L true checkstack).1.stateToVm =
      b.stateToVm ++ [(L,VirtualMachine.attached b.hasBreakPoint)] := by
  cases checkstack <;> simp [DebugBackend.attachState, h, DebugBackend.report, DebugBackend.setHookMode]

theorem hasBreakPoint_iff (b : DebugBackend) (hb : Exact b) :
    b.hasBreakPoint = true ↔ b.stateToVm ≠ [] ∧ AnyBreakpoint b := by
  rw [DebugBackend.hasBreakPoint, List.any_eq_true]
  constructor
  · rintro ⟨e,he,ha⟩
    exact ⟨List.ne_nil_of_mem he,(hb e he).mp ha⟩
  · rintro ⟨hne,ha⟩
    obtain ⟨e,he⟩ := List.exists_mem_of_ne_nil _ hne
    exact ⟨e,he,(hb e he).mpr ha⟩

/-- A new virtual machine learns of the breakpoints from those already attached. -/
theorem exact_attachState_iff (b : DebugBackend) (L : LuaState) (attached checkstack : Bool)
    (hb : Exact b) :
    Exact (b.attachState L attached checkstack).1 ↔ Informed b (.attach L attached checkstack) := by
  by_cases hk : attached = true ∧ b.getVm L = none
  · obtain ⟨rfl,hv⟩ := hk
    obtain ⟨hs,hm⟩ := attachState_new b L checkstack hv
    have hany : AnyBreakpoint (b.attachState L true checkstack).1 ↔ AnyBreakpoint b := by
      rw [AnyBreakpoint, hs, AnyBreakpoint]
    have hnew : Exact (b.attachState L true checkstack).1 ↔
        (b.hasBreakPoint = true ↔ AnyBreakpoint b) := by
      rw [Exact, hm, List.forall_mem_append, hany]
      simp only [List.forall_mem_singleton, VirtualMachine.attached]
      exact and_iff_right hb
    rw [hnew, hasBreakPoint_iff b hb, Informed]
    tauto
  · rw [attachState_known b L attached checkstack (not_and.mp hk)]
    exact iff_of_true hb (fun ha hv _ => absurd ⟨ha,hv⟩ hk)

theorem exact_detachState (b : DebugBackend) (L : LuaState) (hb : Exact b) :
    Exact (b.detachState L) := by
  unfold DebugBackend.detachState
  split
  · intro e he
    exact hb e (List.mem_of_mem_filter he)
  · exact hb

theorem registerScript_spec (b : DebugBackend) (L : LuaState) (source name : Option Bytes)
    (unavailable : Bool) :
    (b.registerScript L source name unavailable).1.stateToVm = b.stateToVm ∧
    (AnyBreakpoint (b.registerScript L source name unavailable).1 ↔ AnyBreakpoint b) := by
  unfold DebugBackend.registerScript
  simp only
  split
  · exact ⟨rfl,Iff.rfl⟩
  · split
    · exact ⟨rfl,Iff.rfl⟩
    · exact ⟨rfl,by simp [AnyBreakpoint, DebugBackend.report]⟩

theorem exact_registerScript (b : DebugBackend) (L : LuaState) (source name : Option Bytes)
    (unavailable : Bool) (hb : Exact b) :
    Exact (b.registerScript L source name unavailable).1 := by
  obtain ⟨hm,ha⟩ := registerScript_spec b L source name unavailable
  rw [Exact, hm, ha]
  exact hb

theorem exact_report (b : DebugBackend) (r : Report) (hb : Exact b) : Exact (b.report r) := hb

theorem toggleBreakpoint_set (script : Script) (line : UInt32)
    (h : (script.toggleBreakpoint line).2 = true) :
    (script.toggleBreakpoint line).1.breakpoints ≠ [] := by
  unfold Script.toggleBreakpoint at h ⊢
  split <;> simp_all

theorem toggleBreakpoint_unset (script : Script) (line : UInt32)
    (h : (script.toggleBreakpoint line).2 = false) : script.breakpoints ≠ [] := by
  unfold Script.toggleBreakpoint at h
  split at h
  · rename_i hm
    exact List.ne_nil_of_mem hm
  · cases h

theorem exact_toggleBreakpoint (b b' : DebugBackend) (L : LuaState) (scriptIndex : ℕ)
    (line : UInt32) (hb : Exact b) (h : b.toggleBreakpoint L scriptIndex line = some b') :
    Exact b' := by
  obtain ⟨script,hscript,-⟩ := DebugBackend.toggleBreakpoint_script h
  obtain ⟨hi,hget⟩ := List.getElem?_eq_some_iff.mp hscript
  cases hset : (script.toggleBreakpoint line).2 with
  | true =>
    rw [DebugBackend.toggleBreakpoint_set hscript hset] at h
    cases h
    apply exact_report
    apply exact_setHaveActiveBreakpoints
    exact iff_of_true rfl ⟨_,List.mem_set hi _,toggleBreakpoint_set script line hset⟩
  | false =>
    rw [DebugBackend.toggleBreakpoint_unset hscript hset] at h
    cases h
    apply exact_report
    have hany : AnyBreakpoint b :=
      ⟨script,hget ▸ List.getElem_mem hi,toggleBreakpoint_unset script line hset⟩
    split
    · rename_i hactive
      rw [getHaveActiveBreakpoints_iff] at hactive
      intro e he
      exact iff_of_true ((hb e he).mpr hany) hactive
    · rename_i hactive
      rw [getHaveActiveBreakpoints_iff] at hactive
      exact exact_modifyVms _ _ (fun _ => iff_of_false Bool.false_ne_true hactive)

theorem exact_deleteAllBreakpoints (b : DebugBackend) : Exact b.deleteAllBreakpoints := by
  apply exact_setHaveActiveBreakpoints
  simp [AnyBreakpoint]

theorem exact_step (b : DebugBackend) (c : Call) (b' : DebugBackend) (hb : Exact b)
    (hs : Step b c b') (hi : Informed b c) : Exact b' := by
  cases c with
  | attach L attached checkstack =>
    cases hs
    exact (exact_attachState_iff b L attached checkstack hb).mpr hi
  | detach L =>
    cases hs
    exact exact_detachState b L hb
  | register L source name unavailable =>
    cases hs
    exact exact_registerScript b L source name unavailable hb
  | toggle L scriptIndex line => exact exact_toggleBreakpoint b b' L scriptIndex line hb hs
  | deleteAll =>
    cases hs
    exact exact_deleteAllBreakpoints b

theorem not_exact_step (b : DebugBackend) (c : Call) (b' : DebugBackend) (hb : Exact b)
    (hs : Step b c b') (hi : ¬ Informed b c) : ¬ Exact b' := by
  cases c with
  | attach L attached checkstack =>
    cases hs
    rwa [exact_attachState_iff b L attached checkstack hb]
  | _ => exact absurd trivial hi

/-- The flags are exact along a run exactly when no virtual machine is attached
to an empty table while a script has a breakpoint. -/
theorem exact_along_iff (calls : List Call) :
    Along Step Exact DebugBackend.initial calls ↔ Meets Step Informed DebugBackend.initial calls :=
  along_iff_meets (fun _ h => h) exact_step not_exact_step _ calls (by simp [Exact, DebugBackend.initial])

def reopened : List Call :=
  [.attach 1 true true,.register 1 (some [120]) (some [120]) false,.toggle 1 0 4,.detach 1,
   .attach 2 true true]

theorem reopened_not_exact : ¬ Along Step Exact DebugBackend.initial reopened := by
  intro h
  have hend := along_start ((((((h.2 _ rfl).2 _ rfl).2 _ rfl).2 _ rfl).2 _ rfl))
  have hflag := hend (2,VirtualMachine.attached false) (by decide)
  exact absurd (hflag.mpr ⟨_,List.mem_cons_self,by decide⟩) (by decide)

end Vecoda.BreakFlag
